import PhpDoc.Data.Value

/-!
# Reading UTF-8

Bytes are read as UTF-8 from the beginning. What cannot be read is a range of bytes with a reason: a
byte that starts no character, a character that breaks off before its last byte, or one that the end
of the data cuts off.
-/

namespace PhpDoc.Utf8

/-- Why bytes are not UTF-8. -/
inductive Reason where
  | invalidStart
  | invalidContinuation
  | unexpectedEnd
  deriving DecidableEq, Repr, Inhabited

/-- The written form of a reason. -/
def Reason.text : Reason → String
  | .invalidStart => "invalid start byte"
  | .invalidContinuation => "invalid continuation byte"
  | .unexpectedEnd => "unexpected end of data"

/-- The undecodable bytes: their offset, their number, the first of them, and the reason. -/
structure Error where
  offset : Nat
  count : Nat
  first : UInt8
  reason : Reason
  deriving DecidableEq, Repr, Inhabited

/-- The message about undecodable bytes. -/
def Error.message (e : Error) : String :=
  if e.count = 1 then
    "'utf-8' codec can't decode byte 0x" ++ String.ofList (Quoted.hex 2 e.first.toNat) ++
      " in position " ++ toString e.offset ++ ": " ++ e.reason.text
  else
    "'utf-8' codec can't decode bytes in position " ++ toString e.offset ++ "-" ++
      toString (e.offset + e.count - 1) ++ ": " ++ e.reason.text

/-- The number of bytes that a character with this first byte has. -/
def width? (b : UInt8) : Option Nat :=
  if b < 0x80 then some 1
  else if b < 0xc2 then none
  else if b < 0xe0 then some 2
  else if b < 0xf0 then some 3
  else if b < 0xf5 then some 4
  else none

/-- Whether `b` may follow the first byte `first`. The second byte must not make the character
longer than needed, a surrogate, or larger than the largest code point. -/
def isSecond (first b : UInt8) : Bool :=
  0x80 ≤ b && b < 0xc0 && !(first == 0xe0 && b < 0xa0) && !(first == 0xed && 0xa0 ≤ b) &&
    !(first == 0xf0 && b < 0x90) && !(first == 0xf4 && 0x90 ≤ b)

/-- Whether the byte at place `place` of a character with the first byte `first` is well-formed. -/
def isPart (first : UInt8) (place : Nat) (b : UInt8) : Bool :=
  if place = 1 then isSecond first b else 0x80 ≤ b && b < 0xc0

/-- The number of well-formed bytes after the first byte, from place `place` on. -/
def wellFormed (first : UInt8) (place : Nat) : List UInt8 → Nat
  | [] => 0
  | b :: bs => if isPart first place b then wellFormed first (place + 1) bs + 1 else 0

/-- The code point of a character with the given first and following bytes. -/
def codePoint (first : UInt8) (rest : List UInt8) : Nat :=
  let lead := match rest.length with
    | 0 => first.toNat
    | 1 => first.toNat % 32
    | 2 => first.toNat % 16
    | _ => first.toNat % 8
  rest.foldl (fun n b => n * 64 + b.toNat % 64) lead

/-- The characters of the bytes, which start at offset `offset` of the data. -/
def decodeFrom (offset : Nat) : List UInt8 → Except Error (List Char)
  | [] => .ok []
  | first :: rest =>
      match width? first with
      | none => .error ⟨offset, 1, first, .invalidStart⟩
      | some width =>
          let part := rest.take (width - 1)
          let good := wellFormed first 1 part
          if good + 1 = width then
            (decodeFrom (offset + width) (rest.drop (width - 1))).map
              (Char.ofNat (codePoint first part) :: ·)
          else if good < part.length then .error ⟨offset, good + 1, first, .invalidContinuation⟩
          else .error ⟨offset, good + 1, first, .unexpectedEnd⟩
  termination_by bs => bs.length
  decreasing_by simp only [List.length_drop, List.length_cons]; omega

/-- The text of the bytes. -/
def decode (bytes : List UInt8) : Except Error String :=
  (decodeFrom 0 bytes).map String.ofList

/-- The bytes of a text. -/
def encode (text : String) : List UInt8 :=
  text.toUTF8.toList

end PhpDoc.Utf8
