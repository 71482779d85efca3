import Mathlib.Data.Bool.AllAny
import Mathlib.Data.List.Infix
import Mathlib.Data.List.TakeWhile
import StimOverlay.Block
import StimOverlay.Build.Line
import StimOverlay.Gate.Standard

/-! Normal form. Whether a line is in normal form is decided by what it starts with: when nothing that the
shorthand replaces can reach from there into the rest, and the rest has only characters that occur in
numbers and targets, normalizing the line leaves it as it is. -/

namespace StimOverlay

namespace Text

/-- An occurrence of `old` may start with `s` and go on with characters that satisfy `p`. -/
def reaches (p : Char → Bool) (old s : List Char) : Bool :=
  s.isPrefixOf old && s.length < old.length && (old.drop s.length).all p

/-- No occurrence of `old` starts in the text and goes on behind it. -/
def contained (p : Char → Bool) (old : List Char) : List Char → Bool
  | [] => true
  | c :: rest => !reaches p old (c :: rest) && contained p old rest

theorem isPrefixOf_append {p : Char → Bool} {old s tail : List Char} (h : reaches p old s = false)
    (htail : ∀ c ∈ tail, p c) : old.isPrefixOf (s ++ tail) = old.isPrefixOf s := by
  rw [Bool.eq_iff_iff, List.isPrefixOf_iff_prefix, List.isPrefixOf_iff_prefix]
  constructor
  · intro hold
    rcases List.prefix_or_prefix_of_prefix hold (List.prefix_append s tail) with hs | ⟨more, rfl⟩
    · exact hs
    cases more with
    | nil => rw [List.append_nil]
    | cons c more =>
        have hmore : ∀ d ∈ c :: more, p d := fun d hd =>
          htail d (((List.prefix_append_right_inj s).1 hold).subset hd)
        have hs : s.isPrefixOf (s ++ c :: more) :=
          List.isPrefixOf_iff_prefix.2 (List.prefix_append s _)
        have hall : ((s ++ c :: more).drop s.length).all p := by
          rw [List.drop_left, List.all_eq_true]
          exact hmore
        rw [reaches, hs, hall] at h
        simp at h
  · exact fun hs => hs.trans (List.prefix_append s tail)

theorem replaceAfter_tail {p : Char → Bool} {old new tail : List Char}
    (hold : old.any (!p ·)) (htail : ∀ c ∈ tail, p c) : replaceAfter old new 0 tail = tail := by
  induction tail with
  | nil => rfl
  | cons c rest ih =>
      have hno : ¬old.isPrefixOf (c :: rest) = true := by
        rw [List.isPrefixOf_iff_prefix]
        intro hstart
        obtain ⟨d, hd, hp⟩ := List.any_eq_true.1 hold
        rw [htail d (hstart.subset hd)] at hp
        cases hp
      rw [replaceAfter, if_neg hno, ih fun d hd => htail d (List.mem_cons_of_mem _ hd)]

/-- What is replaced in front of a tail stays in front of it. -/
theorem replaceAfter_append {p : Char → Bool} {old new head tail : List Char} {skip : Nat}
    (hhead : contained p old head) (hold : old.any (!p ·)) (htail : ∀ c ∈ tail, p c)
    (hskip : skip ≤ head.length) :
    replaceAfter old new skip (head ++ tail) = replaceAfter old new skip head ++ tail := by
  induction head generalizing skip with
  | nil =>
      rw [List.length_nil, Nat.le_zero] at hskip
      subst hskip
      exact replaceAfter_tail hold htail
  | cons c rest ih =>
      rw [contained, Bool.and_eq_true, Bool.not_eq_true'] at hhead
      rw [List.length_cons] at hskip
      cases skip with
      | succ skip => exact ih hhead.2 (by omega)
      | zero =>
          have hsame := isPrefixOf_append hhead.1 htail
          rw [List.cons_append] at hsame ⊢
          rw [replaceAfter, replaceAfter, hsame]
          split
          · rename_i hstart
            have hlength := (List.isPrefixOf_iff_prefix.1 hstart).length_le
            rw [List.length_cons] at hlength
            rw [ih hhead.2 (by omega), List.append_assoc]
          · rw [ih hhead.2 (Nat.zero_le _), List.cons_append]

/-- No rule of a list, applied to the result of those before it, can touch what stands behind. -/
def eachContained (p : Char → Bool) : List (String × String) → List Char → Bool
  | [], _ => true
  | rule :: rules, head =>
      contained p rule.1.toList head && rule.1.toList.any (!p ·) &&
        eachContained p rules (replace rule.1.toList rule.2.toList head)

theorem replaceEach_append {p : Char → Bool} {rules : List (String × String)}
    {head tail : List Char} (hhead : eachContained p rules head) (htail : ∀ c ∈ tail, p c) :
    replaceEach rules (head ++ tail) = replaceEach rules head ++ tail := by
  induction rules generalizing head with
  | nil => rfl
  | cons rule rules ih =>
      rw [eachContained, Bool.and_eq_true, Bool.and_eq_true] at hhead
      obtain ⟨⟨hcontained, hold⟩, hrest⟩ := hhead
      have hfirst : replace rule.1.toList rule.2.toList (head ++ tail) =
          replace rule.1.toList rule.2.toList head ++ tail :=
        replaceAfter_append hcontained hold htail (Nat.zero_le _)
      rw [replaceEach, List.foldl_cons, hfirst]
      exact ih hrest

theorem trimEnd_append {s : List Char} (h : ∀ c ∈ s.getLast?, isBlank c = false)
    (t : List Char) : trimEnd (s ++ t) = s ++ trimEnd t := by
  have hstop : s.reverse.dropWhile isBlank = s.reverse := by
    cases hs : s.reverse with
    | nil => rfl
    | cons c rest =>
        have hc : c ∈ s.getLast? := by
          rw [← List.head?_reverse, hs]
          rfl
        rw [List.dropWhile_cons_of_neg (by simp [h c hc])]
  rw [trimEnd, List.reverse_append, List.dropWhile_append]
  split
  · rename_i hnil
    have hblank : trimEnd t = [] := by
      rw [trimEnd, List.isEmpty_iff.1 hnil]
      rfl
    rw [hstop, List.reverse_reverse, hblank, List.append_nil]
  · rw [List.reverse_append, List.reverse_reverse, trimEnd]

end Text

namespace Source

/-- A line that nothing is done to before it is read as an instruction. -/
structure Settled (s : List Char) : Prop where
  normal : normalizeLine s = s
  upper : ∃ c rest, s = c :: rest ∧ c.isUpper
  plain : ∀ c ∈ s, c ≠ ';' ∧ c ≠ '#' ∧ c ≠ '\n' ∧ c ≠ '\r'
  trimmed : Text.trim s = s
  unblocked : Block.mark s = .plain

/-- The start of a line, up to what ends its name, behind which any characters with `p` may follow. -/
def isOpening (p : Char → Bool) (head : List Char) : Bool :=
  head.head?.any Char.isUpper &&
    head.all (fun c => c != ';' && c != '#' && c != '\n' && c != '\r' && c != '[') &&
    head.any Text.endsName &&
    !"REPEAT".toList.isPrefixOf (head.map Char.toUpper) &&
    !(head.map Char.toUpper).isPrefixOf "REPEAT".toList &&
    Text.eachContained p shorthand (head.map fun c => if c == '_' then ' ' else c) &&
    spellOut head == head

/-- Characters that mean nothing to the form of a line. -/
def isInert (p : Char → Bool) : Bool := [';', '#', '\n', '\r', '_'].all (!p ·)

theorem isUpper_iff {c : Char} : c.isUpper ↔ 65 ≤ c.toNat ∧ c.toNat ≤ 90 := by
  change decide ('A'.val ≤ c.val ∧ c.val ≤ 'Z'.val) = true ↔ 65 ≤ c.toNat ∧ c.toNat ≤ 90
  simp [UInt32.le_iff_toNat_le]

theorem not_blank_of_isUpper {c : Char} (h : c.isUpper) : Text.isBlank c = false := by
  rw [isUpper_iff] at h
  simp only [Text.isBlank, Bool.or_eq_false_iff, Bool.and_eq_false_iff, decide_eq_false_iff_not,
    beq_eq_false_iff_ne]
  omega

theorem ne_hash_of_isUpper {c : Char} (h : c.isUpper) : c ≠ '#' := by
  rintro rfl
  revert h
  decide

theorem trim_eq_self {s : List Char} (hfirst : ∀ c ∈ s.head?, Text.isBlank c = false)
    (hlast : ∀ c ∈ s.getLast?, Text.isBlank c = false) : Text.trim s = s := by
  have hdrop {s : List Char} (h : ∀ c ∈ s.head?, Text.isBlank c = false) :
      s.dropWhile Text.isBlank = s := by
    cases s with
    | nil => rfl
    | cons c rest => rw [List.dropWhile_cons_of_neg (by simp [h c rfl])]
  rw [Text.trim, Text.trimStart, hdrop hfirst, Text.trimEnd, hdrop, List.reverse_reverse]
  rwa [List.head?_reverse]

theorem underscore_of_isInert {p : Char → Bool} (h : isInert p) : p '_' = false := by
  simp only [isInert, List.all_cons, Bool.and_eq_true, Bool.not_eq_true'] at h
  exact h.2.2.2.2.1

theorem map_of_underscore_notMem {s : List Char} (h : '_' ∉ s) :
    s.map (fun c => if c == '_' then ' ' else c) = s := by
  refine (List.map_congr_left fun c hc => ?_).trans (List.map_id' s)
  have hunderscore : (c == '_') = false := by
    rw [beq_eq_false_iff_ne]
    rintro rfl
    exact h hc
  rw [hunderscore]
  rfl

theorem spellOut_append {p : Char → Bool} {head tail : List Char} (hp : p '_' = false)
    (hhead : Text.eachContained p shorthand (head.map fun c => if c == '_' then ' ' else c))
    (htail : ∀ c ∈ tail, p c) : spellOut (head ++ tail) = spellOut head ++ tail := by
  have hunderscore : '_' ∉ tail := fun hmem => by
    rw [htail '_' hmem] at hp
    cases hp
  rw [spellOut, List.map_append, map_of_underscore_notMem hunderscore]
  exact Text.replaceEach_append hhead htail

theorem mark_eq_plain {c : Char} {rest : List Char} (hc : c.isUpper)
    (hkeyword : ((c :: rest).take 6).map Char.toUpper ≠ "REPEAT".toList) :
    Block.mark (c :: rest) = .plain := by
  have hblank := not_blank_of_isUpper hc
  have hbefore : Text.before (· == '#') (c :: rest) = [c] ++ Text.before (· == '#') rest := by
    rw [Text.before, List.takeWhile_cons_of_pos (by simpa using ne_hash_of_isUpper hc)]
    rfl
  have hclose : (Block.withoutComment (c :: rest) == ['\x7d']) = false := by
    rw [Block.withoutComment, hbefore, Text.trim, Text.trimStart, List.singleton_append,
      List.dropWhile_cons_of_neg (by simp [hblank]), ← List.singleton_append,
      Text.trimEnd_append (by simpa using hblank), beq_eq_false_iff_ne]
    intro heq
    rw [(List.cons.inj heq).1] at hc
    revert hc
    decide
  have hrest : Block.headerRest? (c :: rest) = none := by
    rw [Block.headerRest?, if_neg]
    rw [beq_iff_eq]
    exact hkeyword
  rw [Block.mark, hclose, Bool.and_false, if_neg (by decide), hrest]

/-- A line that starts with a capital and has no tag is spelled out as a whole. -/
theorem normalizeLine_eq_spellOut {c : Char} {rest : List Char} (hc : c.isUpper)
    (htag : ∀ d ∈ ((c :: rest).dropWhile (!Text.endsName ·)).head?, d ≠ '[') :
    normalizeLine (c :: rest) = spellOut (c :: rest) := by
  have hstart : Text.trimStart (c :: rest) = c :: rest := by
    rw [Text.trimStart, List.dropWhile_cons_of_neg (by simp [not_blank_of_isUpper hc])]
  have hhash : isHashLine (c :: rest) = false := by
    rw [isHashLine, hstart, Text.startsWith, List.isPrefixOf_cons_cons,
      beq_eq_false_iff_ne.2 (ne_hash_of_isUpper hc).symm, Bool.false_and]
  have hcut : cutTag? (c :: rest) = none := by
    unfold cutTag?
    rw [hstart]
    dsimp only
    split
    · rename_i heq
      rw [heq] at htag
      exact absurd rfl (htag '[' rfl)
    · rfl
  rw [normalizeLine, hhash, if_neg (by decide), normalizeInstruction, hcut]

/-- What ends the name stands in the opening, and is no bracket there. -/
theorem ne_bracket_of_opening {head : List Char} (hends : head.any Text.endsName)
    (hplain : '[' ∉ head) (tail : List Char) :
    ∀ d ∈ ((head ++ tail).dropWhile (!Text.endsName ·)).head?, d ≠ '[' := by
  intro d hd
  have hdrop : head.dropWhile (!Text.endsName ·) ≠ [] := by
    rw [Ne, List.dropWhile_eq_nil_iff]
    obtain ⟨x, hx, hxends⟩ := List.any_eq_true.1 hends
    intro hall
    have := hall x hx
    rw [hxends] at this
    cases this
  rw [List.dropWhile_append, if_neg (by simpa using hdrop)] at hd
  obtain ⟨e, more, heq⟩ := List.exists_cons_of_ne_nil hdrop
  rw [heq, List.cons_append, List.head?_cons, Option.mem_some_iff] at hd
  subst hd
  have hmem : e ∈ head := (List.dropWhile_suffix _).subset (heq ▸ List.mem_cons_self)
  rintro rfl
  exact hplain hmem

theorem settled_of_opening {p : Char → Bool} {head tail : List Char} (hp : isInert p)
    (hhead : isOpening p head) (htail : ∀ c ∈ tail, p c)
    (hlast : ∀ c ∈ (head ++ tail).getLast?, Text.isBlank c = false) : Settled (head ++ tail) := by
  simp only [isOpening, Bool.and_eq_true, Bool.not_eq_true'] at hhead
  obtain ⟨⟨⟨⟨⟨⟨hupper, hplain⟩, hends⟩, hkeyword⟩, hkeyword'⟩, hcontained⟩, hspell⟩ := hhead
  have hchars : ∀ c ∈ head ++ tail, c ≠ ';' ∧ c ≠ '#' ∧ c ≠ '\n' ∧ c ≠ '\r' := by
    intro c hc
    rcases List.mem_append.1 hc with hc | hc
    · have h := List.all_eq_true.1 hplain c hc
      simp only [Bool.and_eq_true, bne_iff_ne] at h
      exact ⟨h.1.1.1.1, h.1.1.1.2, h.1.1.2, h.1.2⟩
    · have hpc := htail c hc
      refine ⟨?_, ?_, ?_, ?_⟩ <;>
        · rintro rfl
          simp [isInert, hpc] at hp
  have hspelled : spellOut (head ++ tail) = head ++ tail := by
    rw [spellOut_append (underscore_of_isInert hp) hcontained htail, beq_iff_eq.1 hspell]
  have htag := ne_bracket_of_opening hends (fun hmem => by
    have h := List.all_eq_true.1 hplain '[' hmem
    simp at h) tail
  have hrepeat : ((head ++ tail).take 6).map Char.toUpper ≠ "REPEAT".toList := by
    intro heq
    have hwhole : "REPEAT".toList <+: (head ++ tail).map Char.toUpper := by
      rw [← heq, List.map_take]
      exact List.take_prefix 6 _
    have hopening : head.map Char.toUpper <+: (head ++ tail).map Char.toUpper := by
      rw [List.map_append]
      exact List.prefix_append _ _
    rcases List.prefix_or_prefix_of_prefix hwhole hopening with h | h
    · rw [List.isPrefixOf_iff_prefix.2 h] at hkeyword
      cases hkeyword
    · rw [List.isPrefixOf_iff_prefix.2 h] at hkeyword'
      cases hkeyword'
  cases head with
  | nil => cases hupper
  | cons c head =>
      have hc : c.isUpper := by simpa using hupper
      rw [List.cons_append] at hchars hspelled htag hrepeat hlast ⊢
      have htrim : Text.trim (c :: (head ++ tail)) = c :: (head ++ tail) := by
        refine trim_eq_self (fun d hd => ?_) hlast
        cases hd
        exact not_blank_of_isUpper hc
      exact {
        normal := (normalizeLine_eq_spellOut hc htag).trans hspelled
        upper := ⟨c, head ++ tail, rfl, hc⟩
        plain := hchars
        trimmed := htrim
        unblocked := mark_eq_plain hc hrepeat }

/-- What stands in a list of qubits. -/
def isListed (c : Char) : Bool := c.isDigit || c == ' '

/-- What stands in a list of products. -/
def isFactor (c : Char) : Bool := c.isDigit || [' ', '*', 'X', 'Y', 'Z'].contains c

/-- What stands in arguments and in the references behind them. -/
def isArgument (c : Char) : Bool :=
  c.isDigit || ['.', '-', ',', ' ', ')', 'r', 'e', 'c', '[', ']'].contains c

theorem isOpening_gate : ∀ g ∈ Gate.standard, isOpening isListed (g.name.toList ++ [' ']) := by
  decide +kernel

theorem isOpening_product :
    ∀ family ∈ Gate.productFamilies, isOpening isFactor (family.toList ++ [' ']) := by
  decide

theorem isOpening_arguments :
    ∀ name ∈ [Build.coordinatesName, detectorName, observableName, Build.polygonName],
      isOpening isArgument (name.toList ++ ['(']) := by
  decide

theorem settled_tick : Settled Build.tickName.toList where
  normal := by decide
  upper := ⟨'T', ['I', 'C', 'K'], rfl, rfl⟩
  plain := List.all_iff_forall_prop.1 (by decide)
  trimmed := by decide
  unblocked := by decide

end Source

end StimOverlay
