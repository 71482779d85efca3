/-! Octets read as UTF-8 text. Reading stops at the first octet that no text continues with, or at
the end of the octets inside a character; either fault names the offset up to which the octets were
text. -/

namespace StimOverlay.Text.Utf8

inductive Fault where
  /-- The `length` octets at `offset` begin no character. -/
  | invalid (length offset : Nat)
  /-- The octets end inside the character that begins at `offset`. -/
  | incomplete (offset : Nat)
deriving DecidableEq

def Fault.message : Fault → String
  | invalid length offset => s!"invalid utf-8 sequence of {length} bytes from index {offset}"
  | incomplete offset => s!"incomplete utf-8 byte sequence from index {offset}"

def encode (s : List Char) : List UInt8 := s.flatMap String.utf8EncodeChar

/-- A character of which `seen` octets are read and `owed` are to come, the next one between `low`
and `high`. -/
structure Begun where
  offset : Nat
  seen : Nat
  owed : Nat
  low : Nat
  high : Nat
  value : Nat

/-- The character begun by the octet `b`, which is not ASCII. -/
def begin? (offset b : Nat) : Option Begun :=
  if 0xC2 ≤ b && b ≤ 0xDF then some ⟨offset, 1, 1, 0x80, 0xBF, b - 0xC0⟩
  else if b == 0xE0 then some ⟨offset, 1, 2, 0xA0, 0xBF, 0⟩
  else if b == 0xED then some ⟨offset, 1, 2, 0x80, 0x9F, 0xD⟩
  else if 0xE1 ≤ b && b ≤ 0xEF then some ⟨offset, 1, 2, 0x80, 0xBF, b - 0xE0⟩
  else if b == 0xF0 then some ⟨offset, 1, 3, 0x90, 0xBF, 0⟩
  else if 0xF1 ≤ b && b ≤ 0xF3 then some ⟨offset, 1, 3, 0x80, 0xBF, b - 0xF0⟩
  else if b == 0xF4 then some ⟨offset, 1, 3, 0x80, 0x8F, 4⟩
  else none

/-- Reads the octets from `offset` on, possibly inside a character. -/
def decodeFrom : Option Begun → Nat → List UInt8 → Except Fault (List Char)
  | none, _, [] => .ok []
  | some c, _, [] => .error (.incomplete c.offset)
  | none, offset, b :: rest =>
      if b.toNat < 0x80 then (decodeFrom none (offset + 1) rest).map (Char.ofNat b.toNat :: ·)
      else match begin? offset b.toNat with
        | none => .error (.invalid 1 offset)
        | some c => decodeFrom (some c) (offset + 1) rest
  | some c, offset, b :: rest =>
      if c.low ≤ b.toNat && b.toNat ≤ c.high then
        let value := 64 * c.value + (b.toNat - 0x80)
        if c.owed ≤ 1 then (decodeFrom none (offset + 1) rest).map (Char.ofNat value :: ·)
        else decodeFrom (some ⟨c.offset, c.seen + 1, c.owed - 1, 0x80, 0xBF, value⟩) (offset + 1) rest
      else .error (.invalid c.seen c.offset)

def decode (octets : List UInt8) : Except Fault (List Char) := decodeFrom none 0 octets

end StimOverlay.Text.Utf8
