/-!
Character classes and the cutting of text: blanks (the Unicode property White_Space),
control characters (category Cc), trimming at either end, and the lines of a text.
Everything works on `List Char`.
-/

namespace NightlyBackup.Text

/-- Characters with the property White_Space. -/
def isBlank (c : Char) : Bool :=
  let n := c.toNat
  (9 ≤ n && n ≤ 13) || n == 0x20 || n == 0x85 || n == 0xa0 || n == 0x1680
    || (0x2000 ≤ n && n ≤ 0x200a) || n == 0x2028 || n == 0x2029 || n == 0x202f
    || n == 0x205f || n == 0x3000

def isControl (c : Char) : Bool :=
  c.toNat < 0x20 || (0x7f ≤ c.toNat && c.toNat < 0xa0)

def trimStart (cs : List Char) : List Char := cs.dropWhile isBlank

def trimEnd (cs : List Char) : List Char := (cs.reverse.dropWhile isBlank).reverse

def trim (cs : List Char) : List Char := trimEnd (trimStart cs)

def stripBoth (c : Char) (cs : List Char) : List Char :=
  ((cs.dropWhile (· == c)).reverse.dropWhile (· == c)).reverse

/-- The lines of a text: a line ends at a newline, and one carriage return right before
that newline belongs to the ending. What follows the last newline is a line unless it is
empty. -/
def lines : List Char → List (List Char)
  | [] => []
  | '\n' :: rest => [] :: lines rest
  | '\r' :: '\n' :: rest => [] :: lines rest
  | c :: rest =>
    match lines rest with
    | [] => [[c]]
    | line :: more => (c :: line) :: more

/-- Split at the first `c`, which belongs to neither part. -/
def splitFirst (c : Char) (cs : List Char) : Option (List Char × List Char) :=
  match cs.dropWhile (· != c) with
  | [] => none
  | _ :: rest => some (cs.takeWhile (· != c), rest)

/-- The pieces between the occurrences of `c`, always at least one. -/
def splitAll (c : Char) : List Char → List (List Char)
  | [] => [[]]
  | d :: rest =>
    if d = c then [] :: splitAll c rest
    else match splitAll c rest with
      | [] => [[d]]
      | piece :: more => (d :: piece) :: more

/-- The pieces of a text, each up to and with the next `c`. What follows the last `c` is a
piece unless it is empty. -/
def splitAfter (c : Char) : List Char → List (List Char)
  | [] => []
  | d :: rest =>
    if d = c then [d] :: splitAfter c rest
    else match splitAfter c rest with
      | [] => [[d]]
      | piece :: more => (d :: piece) :: more

/-- Remove `front` from the beginning of a text that starts with it. -/
def dropFront? : List Char → List Char → Option (List Char)
  | [], cs => some cs
  | _ :: _, [] => none
  | f :: front, c :: cs => if f = c then dropFront? front cs else none

/-- Lower case for ASCII letters; every other character is left alone. -/
def lowerAscii (cs : List Char) : List Char := cs.map Char.toLower

/-- The texts of a list with `sep` between neighbours. -/
def joinWith (sep : String) (parts : List String) : String := sep.intercalate parts

end NightlyBackup.Text
