/-!
Reading bytes as UTF-8. A fault names the index of the first byte that starts no
well-formed sequence, and the number of bytes there that cannot be part of one, unless the
input ends inside a sequence.
-/

namespace NightlyBackup.Text

/-- Where and how bytes stop being UTF-8. -/
inductive Utf8Fault
  | invalid (index length : Nat)
  | incomplete (index : Nat)
  deriving DecidableEq, Repr

def Utf8Fault.message : Utf8Fault → String
  | .invalid index length =>
    "invalid utf-8 sequence of " ++ toString length ++ " bytes from index " ++ toString index
  | .incomplete index => "incomplete utf-8 byte sequence from index " ++ toString index

/-- What may follow a leading byte: how many bytes, and the bounds of the first of them.
The bounds keep out overlong forms, surrogates and values past the last character. -/
def followers (lead : Nat) : Option (Nat × Nat × Nat) :=
  if 0xc2 ≤ lead ∧ lead ≤ 0xdf then some (1, 0x80, 0xbf)
  else if lead = 0xe0 then some (2, 0xa0, 0xbf)
  else if lead = 0xed then some (2, 0x80, 0x9f)
  else if 0xe1 ≤ lead ∧ lead ≤ 0xef then some (2, 0x80, 0xbf)
  else if lead = 0xf0 then some (3, 0x90, 0xbf)
  else if 0xf1 ≤ lead ∧ lead ≤ 0xf3 then some (3, 0x80, 0xbf)
  else if lead = 0xf4 then some (3, 0x80, 0x8f)
  else none

def isContinuation (b : Nat) : Bool := 0x80 ≤ b && b ≤ 0xbf

def decodeUtf8From (index : Nat) : List Nat → Except Utf8Fault (List Char)
  | [] => .ok []
  | a :: rest =>
    if a < 0x80 then (decodeUtf8From (index + 1) rest).map (Char.ofNat a :: ·)
    else match followers a with
    | none => .error (.invalid index 1)
    | some (count, least, greatest) =>
      match rest with
      | [] => .error (.incomplete index)
      | b :: rest =>
        if b < least ∨ greatest < b then .error (.invalid index 1)
        else if count = 1 then
          (decodeUtf8From (index + 2) rest).map
            (Char.ofNat (a % 32 * 64 + b % 64) :: ·)
        else match rest with
        | [] => .error (.incomplete index)
        | c :: rest =>
          if !isContinuation c then .error (.invalid index 2)
          else if count = 2 then
            (decodeUtf8From (index + 3) rest).map
              (Char.ofNat (a % 16 * 4096 + b % 64 * 64 + c % 64) :: ·)
          else match rest with
          | [] => .error (.incomplete index)
          | d :: rest =>
            if !isContinuation d then .error (.invalid index 3)
            else (decodeUtf8From (index + 4) rest).map
              (Char.ofNat (a % 8 * 262144 + b % 64 * 4096 + c % 64 * 64 + d % 64) :: ·)

def decodeUtf8 (bytes : List Nat) : Except Utf8Fault (List Char) := decodeUtf8From 0 bytes

def encodeUtf8 (s : String) : List Nat := s.toUTF8.toList.map UInt8.toNat

end NightlyBackup.Text
