import Mathlib.Data.List.Basic
import StimOverlay.Text.Percent

/-! Octets of a text. Reading the UTF-8 form of a text gives the text back, and so does reading its
percent-encoded form; text without percent signs is read as itself. -/

namespace StimOverlay

namespace Text

namespace Utf8

theorem toNat_ofNat {n : Nat} (h : n < 256) : (UInt8.ofNat n).toNat = n := by
  simpa using Nat.mod_eq_of_lt h

theorem toNat_cases (c : Char) : c.toNat < 0xD800 ∨ 0xDFFF < c.toNat ∧ c.toNat < 0x110000 := c.valid

theorem decodeFrom_ascii {b : Nat} (h : b < 0x80) (offset : Nat) (rest : List UInt8) :
    decodeFrom none offset (UInt8.ofNat b :: rest) =
      (decodeFrom none (offset + 1) rest).map (Char.ofNat b :: ·) := by
  rw [decodeFrom, toNat_ofNat (by omega), if_pos h]

theorem decodeFrom_begin {b offset : Nat} {k : Begun} (h : 0x80 ≤ b) (hb : b < 256)
    (hbegin : begin? offset b = some k) (rest : List UInt8) :
    decodeFrom none offset (UInt8.ofNat b :: rest) = decodeFrom (some k) (offset + 1) rest := by
  rw [decodeFrom, toNat_ofNat hb, if_neg (Nat.not_lt.2 h), hbegin]

/-- The last octet completes a number. -/
theorem decodeFrom_last {k : Begun} {v : Nat} (howed : k.owed ≤ 1) (hvalue : k.value = v / 64)
    (hrange : k.low ≤ v % 64 + 128 ∧ v % 64 + 128 ≤ k.high) (offset : Nat) (rest : List UInt8) :
    decodeFrom (some k) offset (UInt8.ofNat (v % 64 + 128) :: rest) =
      (decodeFrom none (offset + 1) rest).map (Char.ofNat v :: ·) := by
  have hnumber : 64 * k.value + v % 64 = v := by omega
  rw [decodeFrom, toNat_ofNat (by omega), if_pos (by simpa using hrange)]
  simp [howed, hnumber]

/-- An octet in between gives six digits more of a number. -/
theorem decodeFrom_next {k : Begun} {v : Nat} (howed : ¬k.owed ≤ 1) (hvalue : k.value = v / 64)
    (hrange : k.low ≤ v % 64 + 128 ∧ v % 64 + 128 ≤ k.high) (offset : Nat) (rest : List UInt8) :
    decodeFrom (some k) offset (UInt8.ofNat (v % 64 + 128) :: rest) =
      decodeFrom (some ⟨k.offset, k.seen + 1, k.owed - 1, 0x80, 0xBF, v⟩) (offset + 1) rest := by
  have hnumber : 64 * k.value + v % 64 = v := by omega
  rw [decodeFrom, toNat_ofNat (by omega), if_pos (by simpa using hrange)]
  simp [howed, hnumber]

theorem begin?_two (offset : Nat) {n : Nat} (hlow : 128 ≤ n) (hhigh : n ≤ 2047) :
    begin? offset (n / 64 % 32 + 192) = some ⟨offset, 1, 1, 0x80, 0xBF, n / 64⟩ := by
  have hfirst : n / 64 % 32 = n / 64 := by omega
  rw [hfirst, begin?, if_pos (by simp; omega), Nat.add_sub_cancel]

/-- The first octet of a character of three, with what it leaves to the second. -/
theorem begin?_three (offset : Nat) {n : Nat} (hlow : 2048 ≤ n) (hhigh : n ≤ 65535)
    (hscalar : n < 0xD800 ∨ 0xDFFF < n) :
    ∃ low high, begin? offset (n / 4096 % 16 + 224) = some ⟨offset, 1, 2, low, high, n / 4096⟩ ∧
      low ≤ n / 64 % 64 + 128 ∧ n / 64 % 64 + 128 ≤ high := by
  have hfirst : n / 4096 % 16 = n / 4096 := by omega
  rw [hfirst]
  rcases Nat.lt_trichotomy (n / 4096) 13 with h | h | h
  · rcases Nat.eq_zero_or_pos (n / 4096) with h0 | h0
    · exact ⟨0xA0, 0xBF, by simp [begin?, h0], by omega, by omega⟩
    · refine ⟨0x80, 0xBF, ?_, by omega, by omega⟩
      simp only [begin?]
      grind
  · exact ⟨0x80, 0x9F, by simp [begin?, h], by omega, by omega⟩
  · refine ⟨0x80, 0xBF, ?_, by omega, by omega⟩
    simp only [begin?]
    grind

theorem begin?_four (offset : Nat) {n : Nat} (hlow : 65535 < n) (hhigh : n < 0x110000) :
    ∃ low high, begin? offset (n / 262144 % 8 + 240) =
        some ⟨offset, 1, 3, low, high, n / 262144⟩ ∧
      low ≤ n / 4096 % 64 + 128 ∧ n / 4096 % 64 + 128 ≤ high := by
  have hfirst : n / 262144 % 8 = n / 262144 := by omega
  rw [hfirst]
  rcases Nat.lt_trichotomy (n / 262144) 4 with h | h | h
  · rcases Nat.eq_zero_or_pos (n / 262144) with h0 | h0
    · exact ⟨0x90, 0xBF, by simp [begin?, h0], by omega, by omega⟩
    · refine ⟨0x80, 0xBF, ?_, by omega, by omega⟩
      simp only [begin?]
      grind
  · exact ⟨0x80, 0x8F, by simp [begin?, h], by omega, by omega⟩
  · omega

theorem decodeFrom_char (c : Char) (offset : Nat) (rest : List UInt8) :
    ∃ next, decodeFrom none offset (String.utf8EncodeChar c ++ rest) =
      (decodeFrom none next rest).map (c :: ·) := by
  have hvalue : Char.ofNat c.toNat = c := Char.ofNat_toNat c
  have hscalar := toNat_cases c
  have hnat : c.val.toNat = c.toNat := rfl
  generalize hn : c.toNat = n at hvalue hscalar hnat
  rw [String.utf8EncodeChar, hnat]
  simp only [← hvalue]
  split_ifs with h1 h2 h3
  · exact ⟨offset + 1, decodeFrom_ascii (by omega) _ _⟩
  · refine ⟨offset + 1 + 1, ?_⟩
    have hbegin := begin?_two offset (by omega) h2
    refine (decodeFrom_begin (by omega) (by omega) hbegin _).trans ?_
    exact decodeFrom_last (by simp) rfl (by dsimp only; omega) _ _
  · refine ⟨offset + 1 + 1 + 1, ?_⟩
    obtain ⟨low, high, hbegin, hrange⟩ := begin?_three offset (by omega) h3 (by omega)
    refine (decodeFrom_begin (by omega) (by omega) hbegin _).trans ?_
    refine (decodeFrom_next (by simp) (by dsimp only; omega) hrange _ _).trans ?_
    exact decodeFrom_last (by simp) rfl (by dsimp only; omega) _ _
  · refine ⟨offset + 1 + 1 + 1 + 1, ?_⟩
    have hlarge : 65535 < n := Nat.lt_of_not_le h3
    obtain ⟨low, high, hbegin, hrange⟩ := begin?_four offset hlarge (by omega)
    refine (decodeFrom_begin (by omega) (by omega) hbegin _).trans ?_
    refine (decodeFrom_next (by simp) (by dsimp only; omega) hrange _ _).trans ?_
    refine (decodeFrom_next (by simp) (by dsimp only; omega) (by dsimp only; omega) _ _).trans ?_
    exact decodeFrom_last (by simp) rfl (by dsimp only; omega) _ _

theorem encode_append (s t : List Char) : encode (s ++ t) = encode s ++ encode t := List.flatMap_append

theorem encode_cons (c : Char) (s : List Char) : encode (c :: s) = String.utf8EncodeChar c ++ encode s := rfl

theorem decodeFrom_encode (s : List Char) (offset : Nat) :
    decodeFrom none offset (encode s) = .ok s := by
  induction s generalizing offset with
  | nil => rfl
  | cons c s ih =>
      obtain ⟨next, hnext⟩ := decodeFrom_char c offset (encode s)
      rw [encode_cons, hnext, ih]
      rfl

end Utf8

namespace Percent

theorem octets_cons {c : Char} (hc : c ≠ '%') (rest : List Char) :
    octets (c :: rest) = String.utf8EncodeChar c ++ octets rest := by
  rw [octets]
  rintro a b rest rfl -
  exact hc rfl

theorem octets_of_plain {s : List Char} (h : '%' ∉ s) : octets s = Utf8.encode s := by
  induction s with
  | nil => rfl
  | cons c s ih =>
      obtain ⟨hc, hs⟩ := not_or.1 (mt List.mem_cons.2 h)
      rw [octets_cons (Ne.symm hc), ih hs]
      rfl

theorem decode_of_plain {s : List Char} (h : '%' ∉ s) : decode s = .ok s := by
  rw [decode, octets_of_plain h]
  exact Utf8.decodeFrom_encode s 0

theorem hexValue?_hexDigit {n : Nat} (h : n < 16) : hexValue? (hexDigit n) = some n := by
  have hall : ∀ n < 16, hexValue? (hexDigit n) = some n := by decide
  exact hall n h

/-- An encoded octet is read as itself, whatever follows. -/
theorem octets_encodeOctet (b : UInt8) (rest : List Char) :
    octets (encodeOctet b ++ rest) = b :: octets rest := by
  have hb : b.toNat < 256 := b.toNat_lt
  have hhigh := hexValue?_hexDigit (show b.toNat / 16 < 16 by omega)
  have hlow := hexValue?_hexDigit (show b.toNat % 16 < 16 by omega)
  have hvalue : UInt8.ofNat (16 * (b.toNat / 16) + b.toNat % 16) = b := by
    rw [Nat.div_add_mod, UInt8.ofNat_toNat]
  simp only [encodeOctet, List.cons_append, List.nil_append, octets, hhigh, hlow, hvalue]

theorem octets_encodeOctets (bs : List UInt8) (rest : List Char) :
    octets (bs.flatMap encodeOctet ++ rest) = bs ++ octets rest := by
  induction bs with
  | nil => rfl
  | cons b bs ih => rw [List.flatMap_cons, List.append_assoc, octets_encodeOctet, ih, List.cons_append]

theorem octets_encode (s : List Char) : octets (encode s) = Utf8.encode s := by
  induction s with
  | nil => rfl
  | cons c s ih =>
      have hsplit : encode (c :: s) = (if isUnreserved c then [c]
          else (String.utf8EncodeChar c).flatMap encodeOctet) ++ encode s := rfl
      rw [hsplit, Utf8.encode_cons, ← ih]
      split
      · rename_i hplain
        have hc : c ≠ '%' := by
          rintro rfl
          exact absurd hplain (by decide)
        exact octets_cons hc _
      · exact octets_encodeOctets _ _

theorem decode_encode (s : List Char) : decode (encode s) = .ok s := by
  rw [decode, octets_encode]
  exact Utf8.decodeFrom_encode s 0

theorem hexDigit_ne_ampersand {n : Nat} (h : n < 16) : hexDigit n ≠ '&' := by
  have hall : ∀ n < 16, hexDigit n ≠ '&' := by decide
  exact hall n h

theorem ampersand_notMem_encode (s : List Char) : '&' ∉ encode s := by
  intro hmem
  obtain ⟨c, -, hc⟩ := List.mem_flatMap.1 hmem
  split at hc
  · rename_i hplain
    rw [← List.mem_singleton.1 hc] at hplain
    exact absurd hplain (by decide)
  · obtain ⟨b, -, hb⟩ := List.mem_flatMap.1 hc
    have hbound : b.toNat < 256 := b.toNat_lt
    simp only [encodeOctet, List.mem_cons, List.not_mem_nil, or_false] at hb
    rcases hb with hb | hb | hb
    · exact absurd hb (by decide)
    · exact hexDigit_ne_ampersand (by omega) hb.symm
    · exact hexDigit_ne_ampersand (by omega) hb.symm

end Percent

end Text

end StimOverlay
