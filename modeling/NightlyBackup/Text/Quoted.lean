import NightlyBackup.Text.Blank

/-!
Quoting of names and messages. A text without blanks, control characters, quotes and
backslashes stands for itself; any other is put between double quotes, with an escape for
each character that has one. Unquoting drops quotes and resolves escapes wherever they
stand.
-/

namespace NightlyBackup.Text

/-- Characters that a bare text cannot hold. -/
def needsQuotes (c : Char) : Bool :=
  isBlank c || isControl c || c == '"' || c == '\\'

def escapeChar (c : Char) : List Char :=
  if c = '\t' then ['\\', 't']
  else if c = '\n' then ['\\', 'n']
  else if c = '\r' then ['\\', 'r']
  else if c = '\x0c' then ['\\', 'f']
  else if c = '\\' then ['\\', '\\']
  else if c = '"' then ['\\', '"']
  else [c]

def quoteChars (cs : List Char) : List Char :=
  if cs.isEmpty then ['"', '"']
  else if cs.any needsQuotes then '"' :: (cs.flatMap escapeChar ++ ['"'])
  else cs

/-- The character that a backslash and `c` stand for. -/
def unescapeChar (c : Char) : Char :=
  if c = 'n' then '\n'
  else if c = 't' then '\t'
  else if c = 'r' then '\r'
  else if c = 'f' then '\x0c'
  else c

/-- Drop quotes and resolve escapes; a backslash at the very end is dropped. -/
def unquoteChars : List Char → List Char
  | [] => []
  | '"' :: rest => unquoteChars rest
  | ['\\'] => []
  | '\\' :: c :: rest => unescapeChar c :: unquoteChars rest
  | c :: rest => c :: unquoteChars rest

def quote (s : String) : String := String.ofList (quoteChars s.toList)

def unquote (s : String) : String := String.ofList (unquoteChars s.toList)

end NightlyBackup.Text
