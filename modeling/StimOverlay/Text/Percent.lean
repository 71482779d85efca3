import StimOverlay.Text.Utf8

/-! Percent encoding of text in a URL component: every octet of a reserved character becomes `%` and
two upper-case hexadecimal digits. Decoding accepts either case and leaves a `%` alone that no two
digits follow. -/

namespace StimOverlay.Text.Percent

/-- ASCII letters and digits and the nine marks of a URL component stand for themselves. -/
def isUnreserved (c : Char) : Bool :=
  c.isAlphanum || ['-', '_', '.', '!', '~', '*', '\'', '(', ')'].contains c

def hexDigit (n : Nat) : Char :=
  if n < 10 then Char.ofNat ('0'.toNat + n) else Char.ofNat ('A'.toNat + (n - 10))

def hexValue? (c : Char) : Option Nat :=
  if c.isDigit then some (c.toNat - '0'.toNat)
  else if 'a' ≤ c && c ≤ 'f' then some (c.toNat - 'a'.toNat + 10)
  else if 'A' ≤ c && c ≤ 'F' then some (c.toNat - 'A'.toNat + 10)
  else none

def encodeOctet (b : UInt8) : List Char :=
  ['%', hexDigit (b.toNat / 16), hexDigit (b.toNat % 16)]

def encode (s : List Char) : List Char :=
  s.flatMap fun c =>
    if isUnreserved c then [c] else (String.utf8EncodeChar c).flatMap encodeOctet

/-- The octets that the text stands for. -/
def octets : List Char → List UInt8
  | [] => []
  | '%' :: a :: b :: rest =>
      match hexValue? a, hexValue? b with
      | some x, some y => UInt8.ofNat (16 * x + y) :: octets rest
      | _, _ => '%'.toUInt8 :: octets (a :: b :: rest)
  | c :: rest => String.utf8EncodeChar c ++ octets rest

def decode (s : List Char) : Except Utf8.Fault (List Char) := Utf8.decode (octets s)

end StimOverlay.Text.Percent
