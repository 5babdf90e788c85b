import NightlyBackup.Text.Blank

/-!
Tokens of a line: runs of characters between blanks. A double quote opens or closes a
quoted stretch anywhere in a token; inside it blanks belong to the token and a backslash
takes the next character literally.
-/

namespace NightlyBackup.Text

inductive TokenFault
  | danglingEscape
  | unterminatedQuote
  deriving DecidableEq, Repr

def TokenFault.message : TokenFault → String
  | .danglingEscape => "dangling escape"
  | .unterminatedQuote => "unterminated quote"

/-- Read on with `current`, the characters of the token being read, newest first, or
`none` between tokens. -/
def scanTokens (current : Option (List Char)) (quoted : Bool) :
    List Char → Except TokenFault (List (List Char))
  | [] =>
    if quoted then .error .unterminatedQuote
    else .ok (current.toList.map List.reverse)
  | c :: rest =>
    if c = '"' then scanTokens (some (current.getD [])) (!quoted) rest
    else if c = '\\' ∧ quoted = true then
      match rest with
      | [] => .error .danglingEscape
      | literal :: rest => scanTokens (some (literal :: current.getD [])) quoted rest
    else if isBlank c ∧ quoted = false then
      match current with
      | none => scanTokens none false rest
      | some token => (scanTokens none false rest).map (token.reverse :: ·)
    else scanTokens (some (c :: current.getD [])) quoted rest

def tokens (line : List Char) : Except TokenFault (List (List Char)) :=
  scanTokens none false line

end NightlyBackup.Text
