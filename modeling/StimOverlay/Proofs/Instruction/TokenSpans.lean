import StimOverlay.Proofs.Checked.CursorLookups
import StimOverlay.Proofs.Instruction.AllowedCharacters

/-! Spans of tokens. A target list is cut into lexemes without loss: the targets and stray texts stand
apart from each other at places that are given in octets, a target is the longest one that can be read at
its place, and nothing but separators stands between them. -/

namespace StimOverlay

open Numeric Text

namespace Lexeme

variable {c : Char} {rest s : List Char} {l : Lexeme}

theorem scan_behind {after : List Char} (h : (first c rest).text ++ after = c :: rest) :
    scan (c :: rest) = first c rest :: scan after := by
  obtain ⟨d, s, htext⟩ := List.exists_cons_of_ne_nil (starts_first c rest).nonempty
  rw [htext, List.cons_append] at h
  obtain ⟨rfl, rfl⟩ := List.cons.inj h
  exact scan_cons rfl htext

/-- A text is scanned lexeme by lexeme. -/
theorem scan_induction {P : List Char → Prop} (nil : P [])
    (cons : ∀ c rest after, (first c rest).text ++ after = c :: rest → P after → P (c :: rest))
    (s : List Char) : P s := by
  induction hlength : s.length using Nat.strong_induction_on generalizing s with
  | _ n ih =>
      cases s with
      | nil => exact nil
      | cons c rest =>
          obtain ⟨after, hafter⟩ := (starts_first c rest).start
          have hpos := List.length_pos_of_ne_nil (starts_first c rest).nonempty
          have hsum := congrArg List.length hafter
          rw [List.length_append, hlength] at hsum
          exact cons c rest after hafter (ih after.length (by omega) after rfl)

theorem octets_eq_offset (s : List Char) : octets s = Checked.offset s := by
  induction s with
  | nil => rfl
  | cons c s ih =>
      have hlength : (String.utf8EncodeChar c).length = c.utf8Size := String.length_utf8EncodeChar c
      rw [Checked.offset, Utf8.encode_cons, List.length_append, hlength, ← Checked.offset, ← ih]
      rfl

theorem locate_cons (front : List Char) (l : Lexeme) (ls : List Lexeme) :
    locate (Checked.offset front) (l :: ls) =
      (Checked.offset front, Checked.offset (front ++ l.text), l) ::
        locate (Checked.offset (front ++ l.text)) ls := by
  rw [locate, octets_eq_offset, ← Checked.offset_append]

theorem le_of_mem_locate {start : Nat} {ls : List Lexeme} {e : Nat × Nat × Lexeme}
    (h : e ∈ locate start ls) : start ≤ e.1 := by
  induction ls generalizing start with
  | nil => cases h
  | cons l ls ih =>
      rcases List.mem_cons.1 h with rfl | h
      · exact Nat.le_refl _
      · exact (Nat.le_add_right _ _).trans (ih h)

theorem pairwise_locate (start : Nat) (ls : List Lexeme) :
    (locate start ls).Pairwise fun a b => a.2.1 ≤ b.1 := by
  induction ls generalizing start with
  | nil => exact .nil
  | cons l ls ih => exact .cons (fun _ h => le_of_mem_locate h) (ih _)

/-- Each lexeme is the first one of what stands behind the lexemes in front of it. -/
theorem exists_of_mem_locate (front : List Char) {start stop : Nat}
    (h : (start, stop, l) ∈ locate (Checked.offset front) (scan s)) :
    ∃ mid c rest back, s = mid ++ c :: rest ∧ l = first c rest ∧ l.text ++ back = c :: rest ∧
      start = Checked.offset (front ++ mid) ∧ stop = Checked.offset (front ++ mid ++ l.text) := by
  induction s using scan_induction generalizing front with
  | nil => cases h
  | cons c rest after hafter ih =>
      rw [scan_behind hafter, locate_cons] at h
      rcases List.mem_cons.1 h with h | h
      · cases h
        exact ⟨[], c, rest, after, rfl, rfl, hafter, by simp, by simp⟩
      · obtain ⟨mid, d, more, back, rfl, hl, hback, hstart, hstop⟩ := ih _ h
        refine ⟨(first c rest).text ++ mid, d, more, back, ?_, hl, hback, ?_, ?_⟩
        · rw [← hafter, List.append_assoc]
        · rw [hstart, List.append_assoc]
        · rw [hstop, List.append_assoc front]

/-- Every octet belongs to a lexeme. -/
theorem exists_covering (front : List Char) {i : Nat} (hlow : Checked.offset front ≤ i)
    (hhigh : i < Checked.offset (front ++ s)) :
    ∃ e ∈ locate (Checked.offset front) (scan s), e.1 ≤ i ∧ i < e.2.1 := by
  induction s using scan_induction generalizing front with
  | nil =>
      rw [List.append_nil] at hhigh
      omega
  | cons c rest after hafter ih =>
      rw [scan_behind hafter, locate_cons]
      rcases Nat.lt_or_ge i (Checked.offset (front ++ (first c rest).text)) with hlt | hge
      · exact ⟨_, List.mem_cons_self, hlow, hlt⟩
      · rw [← hafter, ← List.append_assoc] at hhigh
        obtain ⟨e, he, hcovers⟩ := ih _ hge hhigh
        exact ⟨e, List.mem_cons_of_mem _ he, hcovers⟩

/-- A separator takes up one octet. -/
theorem exists_separator {front gap : List Char} (hgap : ∀ c ∈ gap, isSeparator c) {i : Nat}
    (hlow : Checked.offset front ≤ i) (hhigh : i < Checked.offset (front ++ gap)) :
    ∃ mid c rest, gap = mid ++ c :: rest ∧ Checked.offset (front ++ mid) = i ∧ c ∈ separators := by
  induction gap generalizing front with
  | nil =>
      rw [List.append_nil] at hhigh
      omega
  | cons c gap ih =>
      obtain ⟨hc, hgap⟩ := List.forall_mem_cons.1 hgap
      rcases Nat.eq_or_lt_of_le hlow with heq | hlt
      · exact ⟨[], c, gap, rfl, by rwa [List.append_nil], isSeparator_iff.1 hc⟩
      · have hascii : ∀ c ∈ separators, c.toNat < 0x80 := List.all_iff_forall_prop.1 (by decide)
        have hone := Checked.offset_ascii (hascii c (isSeparator_iff.1 hc))
        rw [List.append_cons] at hhigh
        obtain ⟨mid, d, rest, rfl, hi, hd⟩ :=
          ih hgap (by rw [Checked.offset_append, hone]; exact hlt) hhigh
        exact ⟨c :: mid, d, rest, rfl, by rwa [List.append_cons], hd⟩

/-- What is known of a token between two offsets of a text: they lie between characters, the text between them
is the text of the token and has no separator, a target is spelled by it and stray text is not, and no longer
target could be read from there. -/
structure Stands (s : List Char) (start stop : Nat) (l : Lexeme) : Prop where
  nonempty : start < stop
  boundaries : Checked.isBoundary (Utf8.encode s) start ∧ Checked.isBoundary (Utf8.encode s) stop
  text : Checked.slice? (Utf8.encode s) start stop = some l.text
  solid : ∀ c ∈ l.text, c ∉ separators
  read : (∃ t, l = .target t l.text ∧ Spells t l.text) ∨ l = .stray l.text ∧ ∀ t, ¬Spells t l.text
  longest : ∀ front back, s = front ++ back → Checked.offset front = start →
    ∀ t text, Spells t text → text <+: back → text.length ≤ l.text.length

theorem offset_pos (h : s ≠ []) : 0 < Checked.offset s := by
  obtain ⟨c, s, rfl⟩ := List.exists_cons_of_ne_nil h
  rw [← octets_eq_offset]
  exact Nat.lt_of_lt_of_le c.utf8Size_pos (Nat.le_add_right _ _)

/-- The offset of a place determines what stands behind it. -/
theorem eq_of_offset_eq {front front' back back' : List Char} (h : front ++ back = front' ++ back')
    (hoffset : Checked.offset front = Checked.offset front') : back = back' := by
  have hnil {s t : List Char} (h : Checked.offset s = Checked.offset (s ++ t)) : t = [] := by
    rw [Checked.offset_append] at h
    by_contra ht
    have := offset_pos ht
    omega
  rcases List.append_eq_append_iff.1 h with ⟨more, hfront, hback⟩ | ⟨more, hfront, hback⟩
  · rw [hback, hnil (hoffset.trans (congrArg _ hfront)), List.nil_append]
  · rw [hback, hnil (hoffset.symm.trans (congrArg _ hfront)), List.nil_append]

/-- A first lexeme without separators is a target that it spells, or stray text that spells none. -/
theorem read_first (hc : isSeparator c = false) :
    (∃ t, first c rest = .target t (first c rest).text ∧ Spells t (first c rest).text) ∨
      first c rest = .stray (first c rest).text ∧ ∀ t, ¬Spells t (first c rest).text := by
  have hreads := reads_first hc rest
  cases hl : first c rest with
  | gap gap =>
      have hplain := hreads.plain
      rw [hl] at hplain
      cases hplain
  | target t text => exact .inl ⟨t, rfl, hreads.spelled t text hl⟩
  | stray text =>
      refine .inr ⟨rfl, fun t ht => ?_⟩
      have hstart := hreads.start
      rw [hl] at hstart
      rcases first_of_spells ht hstart with hlt | heq
      · rw [hl] at hlt
        exact absurd hlt (Nat.lt_irrefl _)
      · rw [hl] at heq
        cases heq

theorem isGap_first (hc : isSeparator c) (rest : List Char) : (first c rest).isGap := by
  unfold first
  rw [if_pos hc]
  rfl

theorem stands_of_mem_tokens {start stop : Nat} (h : (start, stop, l) ∈ tokens s) :
    Stands s start stop l := by
  obtain ⟨hmem, hgap⟩ := List.mem_filter.1 h
  obtain ⟨front, c, rest, back, rfl, rfl, hback, hstart, hstop⟩ := exists_of_mem_locate [] hmem
  rw [List.nil_append] at hstart hstop
  have hc : isSeparator c = false := by
    by_contra hc
    simp [isGap_first (by simpa using hc) rest] at hgap
  have hboundary := Checked.isBoundary_offset (front ++ (first c rest).text) back
  have hslice := Checked.slice?_offset front (first c rest).text back
  rw [List.append_assoc, hback] at hboundary
  rw [hback] at hslice
  subst hstart hstop
  exact {
    nonempty := by
      rw [Checked.offset_append]
      exact Nat.lt_add_of_pos_right (offset_pos (starts_first c rest).nonempty)
    boundaries := ⟨Checked.isBoundary_offset front (c :: rest), hboundary⟩
    text := hslice
    solid := fun d hd hmem => by
      have hsolid := (reads_first hc rest).solid d hd
      rw [isSeparator_iff.2 hmem] at hsolid
      cases hsolid
    read := read_first hc
    longest := fun front' back' hsplit hoffset t text ht htext => by
      rw [← eq_of_offset_eq hsplit hoffset.symm] at htext
      rcases first_of_spells ht htext with hlt | heq
      · exact Nat.le_of_lt hlt
      · rw [heq]
        exact Nat.le_refl _ }

/-- Nothing of a target list is lost: each token stands at its place, the tokens stand one behind the other,
and every octet that belongs to none of them is a separator. -/
theorem tokens_lossless (s : List Char) :
    (∀ start stop l, (start, stop, l) ∈ tokens s → Stands s start stop l) ∧
    (tokens s).Pairwise (fun a b => a.2.1 ≤ b.1) ∧
    ∀ i < (Utf8.encode s).length, (∀ e ∈ tokens s, ¬(e.1 ≤ i ∧ i < e.2.1)) →
      ∃ front c back, s = front ++ c :: back ∧ Checked.offset front = i ∧ c ∈ separators := by
  refine ⟨fun start stop l h => stands_of_mem_tokens h, (pairwise_locate 0 _).filter _, ?_⟩
  intro i hi huncovered
  obtain ⟨⟨start, stop, l⟩, hmem, hlow, hhigh⟩ := exists_covering [] (Nat.zero_le i) hi
  have hgap : l.isGap := by
    by_contra hgap
    exact huncovered _ (List.mem_filter.2 ⟨hmem, by simpa using hgap⟩) ⟨hlow, hhigh⟩
  obtain ⟨front, c, rest, back, rfl, hl, hback, rfl, rfl⟩ := exists_of_mem_locate [] hmem
  cases l with
  | target t text => cases hgap
  | stray text => cases hgap
  | gap gap =>
      have hseparators := (starts_first c rest).gap gap hl.symm
      obtain ⟨mid, d, after, rfl, hi, hd⟩ := exists_separator hseparators hlow hhigh
      refine ⟨front ++ mid, d, after ++ back, ?_, hi, hd⟩
      rw [← hback]
      simp [Lexeme.text]

example : tokens "!x12, rec[-4 é5".toList =
    [(0, 4, .target (.pauli .x 12 true) "!x12".toList), (6, 12, .stray "rec[-4".toList),
      (13, 15, .stray ['é']), (15, 16, .target (.qubit 5 false) ['5'])] := by
  decide

end Lexeme

end StimOverlay
