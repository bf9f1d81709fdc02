import LightClient.Bytes
/-!
# Hexadecimal text

Two digits a byte, the high half first, written in lower case and read in either case.
-/
namespace LightClient.Hex

def digit (n : Nat) : Char := Char.ofNat (if n < 10 then 48 + n else 87 + n)

def encodeChars : Bytes → List Char
  | [] => []
  | b :: bs => digit (b.toNat / 16) :: digit (b.toNat % 16) :: encodeChars bs

def encode (bs : Bytes) : String := String.ofList (encodeChars bs)

def digitValue? (c : UInt8) : Option Nat :=
  let n := c.toNat
  if 48 ≤ n ∧ n ≤ 57 then some (n - 48)
  else if 97 ≤ n ∧ n ≤ 102 then some (n - 87)
  else if 65 ≤ n ∧ n ≤ 70 then some (n - 55)
  else none

/-- What is wrong with a text that should spell a fixed number of bytes. -/
inductive ReadError where
  | oddLength
  | wrongLength
  | badDigit (code : UInt8) (position : Nat)
  deriving DecidableEq

/-- Reads pairs of digits; `position` is the place of the first one in the whole text. -/
def decodeFrom (position : Nat) : Bytes → Except ReadError Bytes
  | [] => .ok []
  | [_] => .error .oddLength
  | h :: l :: rest =>
    match digitValue? h, digitValue? l with
    | some high, some low => (decodeFrom (position + 2) rest).map (UInt8.ofNat (16 * high + low) :: ·)
    | none, _ => .error (.badDigit h position)
    | _, none => .error (.badDigit l (position + 1))

/-- Reads a text, given by its character codes, that must spell exactly `count` bytes. -/
def decode (count : Nat) (text : Bytes) : Except ReadError Bytes :=
  if text.length % 2 ≠ 0 then .error .oddLength
  else if text.length ≠ 2 * count then .error .wrongLength
  else decodeFrom 0 text

theorem length_of_decodeFrom {position : Nat} {text bs : Bytes}
    (h : decodeFrom position text = .ok bs) : text.length = 2 * bs.length := by
  fun_induction decodeFrom position text generalizing bs with
  | case1 => cases h; rfl
  | case2 => cases h
  | case3 position c d rest high low hh hl ih =>
    match hr : decodeFrom (position + 2) rest with
    | .ok tail =>
      rw [hr] at h
      cases h
      have := ih hr
      simp only [List.length_cons]
      omega
    | .error e => rw [hr] at h; cases h
  | case4 => cases h
  | case5 => cases h

theorem length_of_decode {count : Nat} {text bs : Bytes} (h : decode count text = .ok bs) :
    bs.length = count := by
  unfold decode at h
  split at h
  · cases h
  · split at h
    · cases h
    · have := length_of_decodeFrom h
      omega

/-- A character code between single quotes, the ones that do not print spelled out. -/
def quoteCode (c : UInt8) : String :=
  let n := c.toNat
  let body :=
    if n = 0 then "\\0"
    else if n = 9 then "\\t"
    else if n = 10 then "\\n"
    else if n = 13 then "\\r"
    else if n = 39 then "\\'"
    else if n = 92 then "\\\\"
    else if n < 32 ∨ (127 ≤ n ∧ n ≤ 160) ∨ n = 173 then
      "\\u\x7b" ++ String.ofList (Nat.toDigits 16 n) ++ "\x7d"
    else String.singleton (Char.ofNat n)
  "'" ++ body ++ "'"

def ReadError.message : ReadError → String
  | .oddLength => "Odd number of digits"
  | .wrongLength => "Invalid string length"
  | .badDigit c position => "Invalid character " ++ quoteCode c ++ " at position " ++ toString position

end LightClient.Hex
