import ErbLayout.Text.Quoted
/-!
UTF-8: text as bytes, and the reading of bytes as text, which stops at the first bytes that are no
part of any text and says what is wrong with them.
-/

namespace ErbLayout.Text

abbrev Bytes := List UInt8

inductive DecodeError.Reason where
  | startByte
  | continuationByte
  | endOfData
  deriving DecidableEq, Repr

/-- Bytes that are not text: where they begin, which is the first and how many they are. -/
structure DecodeError where
  position : Nat
  first : UInt8
  count : Nat
  reason : DecodeError.Reason
  deriving DecidableEq, Repr

namespace DecodeError

def Reason.text : Reason → List Char
  | .startByte => "invalid start byte".toList
  | .continuationByte => "invalid continuation byte".toList
  | .endOfData => "unexpected end of data".toList

def message (e : DecodeError) : List Char :=
  let number (n : Nat) : List Char := (toString n).toList
  let which :=
    if e.count = 1 then
      "byte 0x".toList ++ hexDigits 2 e.first.toNat ++ " in position ".toList ++ number e.position
    else
      "bytes in position ".toList ++ number e.position ++ '-' ::
        number (e.position + e.count - 1)
  "'utf-8' codec can't decode ".toList ++ which ++ ':' :: ' ' :: e.reason.text

end DecodeError

def encode (s : List Char) : Bytes := s.flatMap String.utf8EncodeChar

def isContinuation (b : UInt8) : Bool := 0x80 ≤ b && b < 0xC0

/-- Whether `b` may be the second byte after `first`. -/
def isSecond (first b : UInt8) : Bool :=
  isContinuation b && !(first == 0xE0 && b < 0xA0) && !(first == 0xED && b ≥ 0xA0) &&
    !(first == 0xF0 && b < 0x90) && !(first == 0xF4 && b ≥ 0x90)

/-- How many bytes follow a first one, or nothing when none begins with it. -/
def followers (b : UInt8) : Option Nat :=
  if b < 0x80 then some 0
  else if b < 0xC2 then none
  else if b < 0xE0 then some 1
  else if b < 0xF0 then some 2
  else if b < 0xF5 then some 3
  else none

/-- The low bits that a continuation byte carries, after those of `n`. -/
def shiftIn (n : Nat) (b : UInt8) : Nat := n * 64 + (b.toNat - 0x80)

def firstBits (b : UInt8) : Nat :=
  if b < 0x80 then b.toNat
  else if b < 0xE0 then b.toNat - 0xC0
  else if b < 0xF0 then b.toNat - 0xE0
  else b.toNat - 0xF0

/-- The text of the bytes from a position on. While a character is under way, `todo` says how many
of its bytes are still to come, `first` is the first one, `seen` the number of those read and `n`
their bits. -/
def decodeFrom (position : Nat) (acc : List Char) (todo : Nat) (first : UInt8) (seen n : Nat) :
    Bytes → Except DecodeError (List Char)
  | [] =>
    match todo with
    | 0 => .ok acc.reverse
    | _ + 1 => .error ⟨position - seen, first, seen, .endOfData⟩
  | b :: bs =>
    match todo with
    | 0 =>
      match followers b with
      | none => .error ⟨position, b, 1, .startByte⟩
      | some 0 => decodeFrom (position + 1) (Char.ofNat b.toNat :: acc) 0 b 0 0 bs
      | some (k + 1) => decodeFrom (position + 1) acc (k + 1) b 1 (firstBits b) bs
    | k + 1 =>
      if (if seen = 1 then isSecond first b else isContinuation b) then
        match k with
        | 0 => decodeFrom (position + 1) (Char.ofNat (shiftIn n b) :: acc) 0 b 0 0 bs
        | _ + 1 => decodeFrom (position + 1) acc k first (seen + 1) (shiftIn n b) bs
      else .error ⟨position - seen, first, seen, .continuationByte⟩

def decode (bs : Bytes) : Except DecodeError (List Char) := decodeFrom 0 [] 0 0 0 0 bs

theorem decode_nil : decode [] = .ok [] := rfl

theorem encode_append (s t : List Char) : encode (s ++ t) = encode s ++ encode t := by
  simp [encode]

end ErbLayout.Text
