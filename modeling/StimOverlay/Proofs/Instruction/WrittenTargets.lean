import StimOverlay.Proofs.Instruction.GateNames
import StimOverlay.Proofs.Numeric.BoundedSums
import StimOverlay.Proofs.Numeric.ShortestNumerals
import StimOverlay.Proofs.Source.NormalForm

/-! Reading what is written. Lists of qubits, products and references to the record are read target by
target as they are written, and so are the arguments in front of them. -/

namespace StimOverlay

open Numeric

namespace Text

theorem splitWhere_of_none {p : Char → Bool} {s : List Char} (h : ∀ c ∈ s, p c = false) :
    splitWhere p s = [s] := by
  induction s with
  | nil => rfl
  | cons c rest ih =>
      rw [splitWhere, if_neg (by simp [h c List.mem_cons_self]),
        ih fun d hd => h d (List.mem_cons_of_mem _ hd)]

theorem splitWhere_append {p : Char → Bool} {s : List Char} (h : ∀ c ∈ s, p c = false) {c : Char}
    (hc : p c) (rest : List Char) : splitWhere p (s ++ c :: rest) = s :: splitWhere p rest := by
  induction s with
  | nil => rw [List.nil_append, splitWhere, if_pos hc]
  | cons d s ih =>
      rw [List.cons_append, splitWhere, if_neg (by simp [h d List.mem_cons_self]),
        ih fun e he => h e (List.mem_cons_of_mem _ he)]

theorem splitOnce?_append {p : Char → Bool} {s : List Char} (h : ∀ c ∈ s, p c = false) {c : Char}
    (hc : p c) (rest : List Char) : splitOnce? p (s ++ c :: rest) = some (s, rest) := by
  have hs : ∀ d ∈ s, (!p d) = true := fun d hd => by rw [h d hd]; rfl
  rw [splitOnce?, List.dropWhile_append_of_pos hs, List.takeWhile_append_of_pos hs]
  simp [hc]

/-- Pieces that have been joined are cut again where they were joined. -/
theorem splitWhere_intercalate {p : Char → Bool} {c : Char} (hc : p c) {pieces : List (List Char)}
    (hne : pieces ≠ []) (h : ∀ piece ∈ pieces, ∀ d ∈ piece, p d = false) :
    splitWhere p ([c].intercalate pieces) = pieces := by
  induction pieces with
  | nil => exact absurd rfl hne
  | cons piece rest ih =>
      have hpiece := h piece List.mem_cons_self
      cases rest with
      | nil => rw [List.intercalate_singleton, splitWhere_of_none hpiece]
      | cons next rest =>
          rw [List.intercalate_cons_cons, List.append_assoc, List.singleton_append,
            splitWhere_append hpiece hc,
            ih (List.cons_ne_nil _ _) fun q hq => h q (List.mem_cons_of_mem _ hq)]

theorem intercalate_cons (separator w : List Char) (words : List (List Char)) :
    separator.intercalate (w :: words) = w ++ words.flatMap (separator ++ ·) := by
  induction words generalizing w with
  | nil => simp
  | cons v words ih =>
      rw [List.intercalate_cons_cons, ih, List.flatMap_cons]
      simp

theorem mem_intercalate {separator : List Char} {words : List (List Char)} {c : Char}
    (h : c ∈ separator.intercalate words) : c ∈ separator ∨ ∃ w ∈ words, c ∈ w := by
  cases words with
  | nil => cases h
  | cons w words =>
      rw [intercalate_cons, List.mem_append, List.mem_flatMap] at h
      rcases h with h | ⟨v, hv, h⟩
      · exact .inr ⟨w, List.mem_cons_self, h⟩
      · rcases List.mem_append.1 h with h | h
        · exact .inl h
        · exact .inr ⟨v, List.mem_cons_of_mem _ hv, h⟩

theorem map_intercalate (f : Char → Char) (separator : List Char) (pieces : List (List Char)) :
    (separator.intercalate pieces).map f =
      (separator.map f).intercalate (pieces.map (List.map f)) := by
  cases pieces with
  | nil => rfl
  | cons piece rest =>
      rw [List.map_cons, intercalate_cons, intercalate_cons, List.map_append, List.map_flatMap,
        List.flatMap_map]
      simp

/-- A text that a blank or a comma would end. -/
def IsWord (s : List Char) : Prop := s ≠ [] ∧ ∀ c ∈ s, isBlank c = false ∧ c ≠ ','

theorem intercalate_ends {separator : List Char} {words : List (List Char)}
    (h : ∀ w ∈ words, IsWord w) :
    (∀ c ∈ (separator.intercalate words).head?, isBlank c = false) ∧
      ∀ c ∈ (separator.intercalate words).getLast?, isBlank c = false := by
  induction words with
  | nil => simp
  | cons w words ih =>
      obtain ⟨hne, hplain⟩ := h w List.mem_cons_self
      have ih := ih fun v hv => h v (List.mem_cons_of_mem _ hv)
      constructor
      · intro c hc
        rw [intercalate_cons, List.head?_append_of_ne_nil _ hne] at hc
        exact (hplain c (List.mem_of_head? hc)).1
      · intro c hc
        cases words with
        | nil =>
            rw [List.intercalate_singleton] at hc
            exact (hplain c (List.mem_of_getLast? hc)).1
        | cons v words =>
            have hv : separator.intercalate (v :: words) ≠ [] := by
              rw [intercalate_cons]
              simp [(h v (List.mem_cons_of_mem _ List.mem_cons_self)).1]
            rw [List.intercalate_cons_cons, List.getLast?_append_of_ne_nil _ hv] at hc
            exact ih.2 c hc

theorem isAsciiBlank_eq_false {c : Char} (h : isBlank c = false) : isAsciiBlank c = false := by
  refine Bool.eq_false_iff.2 fun hascii => ?_
  rw [isBlank_of_isAsciiBlank hascii] at h
  cases h

end Text

namespace Lexeme

theorem isSeparator_of_word {c : Char} (h : Text.isBlank c = false ∧ c ≠ ',') :
    isSeparator c = false := by
  simp [isSeparator, Text.isAsciiBlank_eq_false h.1, h.2]

theorem scanAfter_length (s rest : List Char) : scanAfter s.length (s ++ rest) = scan rest := by
  induction s with
  | nil => cases rest <;> rfl
  | cons c s ih => exact ih

theorem scan_cons {c : Char} {s rest : List Char} {l : Lexeme} (hfirst : first c (s ++ rest) = l)
    (htext : l.text = c :: s) : scan (c :: s ++ rest) = l :: scan rest := by
  rw [scan, List.cons_append, scanAfter, hfirst, htext, List.length_cons, Nat.add_sub_cancel,
    scanAfter_length]

/-- Digits are read as a qubit, up to the first character that is none. -/
theorem quantum?_run {digits : List Char} (hall : ∀ d ∈ digits, d.isDigit) (hne : digits ≠ [])
    (mark : List Char) {rest : List Char} (hrest : ∀ c ∈ rest.head?, c.isDigit = false) :
    quantum? mark (digits ++ rest) = some (ranged (ofDigits digits < idBound)
      (.qubit (ofDigits digits) (!mark.isEmpty)) (mark ++ digits)) := by
  obtain ⟨htake, -⟩ := Text.takeWhile_run hall hrest
  obtain ⟨d, ds, rfl⟩ := List.exists_cons_of_ne_nil hne
  rw [List.cons_append] at htake ⊢
  rw [quantum?, if_pos (hall d List.mem_cons_self), htake]

theorem quantum?_digits {n : Nat} (hn : n < idBound) (mark : List Char) {rest : List Char}
    (hrest : ∀ c ∈ rest.head?, c.isDigit = false) :
    quantum? mark (Nat.toDigits 10 n ++ rest) =
      some (.target (.qubit n (!mark.isEmpty)) (mark ++ Nat.toDigits 10 n)) := by
  rw [quantum?_run (fun d hd => isDigit_of_mem_toDigits hd) Nat.toDigits_ne_nil mark hrest,
    ofDigits_toDigits, decide_eq_true hn]
  rfl

/-- The letters of Pauli targets. -/
def letters : List (Char × Pauli) :=
  [('X', .x), ('Y', .y), ('Z', .z), ('x', .x), ('y', .y), ('z', .z)]

/-- A letter with digits behind it is read as a Pauli target. -/
theorem quantum?_letter_run {c : Char} {basis : Pauli} (hc : (c, basis) ∈ letters) {digits : List Char}
    (hall : ∀ d ∈ digits, d.isDigit) (hne : digits ≠ []) (mark : List Char) {rest : List Char}
    (hrest : ∀ c ∈ rest.head?, c.isDigit = false) :
    quantum? mark (c :: (digits ++ rest)) = some (ranged (ofDigits digits < idBound)
      (.pauli basis (ofDigits digits) (!mark.isEmpty)) (mark ++ c :: digits)) := by
  have hletter : ∀ e ∈ letters, e.1.isDigit = false ∧ basis? e.1 = some e.2 := by decide
  obtain ⟨hdigit, hbasis⟩ := hletter _ hc
  obtain ⟨htake, -⟩ := Text.takeWhile_run hall hrest
  obtain ⟨d, ds, rfl⟩ := List.exists_cons_of_ne_nil hne
  rw [quantum?, if_neg (by simp [hdigit]), htake, hbasis]

theorem letter_mem_letters (basis : Pauli) : (basis.letter, basis) ∈ letters := by
  cases basis <;> decide

theorem quantum?_letter {n : Nat} (hn : n < idBound) (mark : List Char) (basis : Pauli)
    {rest : List Char} (hrest : ∀ c ∈ rest.head?, c.isDigit = false) :
    quantum? mark (basis.letter :: (Nat.toDigits 10 n ++ rest)) =
      some (.target (.pauli basis n (!mark.isEmpty)) (mark ++ basis.letter :: Nat.toDigits 10 n)) := by
  rw [quantum?_letter_run (letter_mem_letters basis) (fun d hd => isDigit_of_mem_toDigits hd)
    Nat.toDigits_ne_nil mark hrest, ofDigits_toDigits, decide_eq_true hn]
  rfl

/-- A lexeme that starts with a digit or a letter of a basis is plain, unless it is stray. -/
theorem first_plain {c : Char} (hc : c ∈ digitChars ++ letters.map Prod.fst) (rest : List Char) :
    first c rest = (quantum? [] (c :: rest)).getD (.stray [c]) := by
  have hplain : ∀ c ∈ digitChars ++ letters.map Prod.fst,
      isSeparator c = false ∧ c ≠ '*' ∧ c ≠ '!' ∧ c ≠ 'r' ∧ c ≠ 's' :=
    List.all_iff_forall_prop.1 (by decide)
  obtain ⟨hseparator, hstar, hmark, hr, hs⟩ := hplain c hc
  unfold first
  rw [if_neg (by simp [hseparator])]
  split
  · exact absurd rfl hstar
  · exact absurd rfl hmark
  · exact absurd rfl hr
  · exact absurd rfl hs
  · rfl

theorem mem_plain_of_isDigit {c : Char} (h : c.isDigit) : c ∈ digitChars ++ letters.map Prod.fst :=
  List.mem_append_left _ (mem_digitChars h)

theorem mem_plain_of_letter {c : Char} {basis : Pauli} (h : (c, basis) ∈ letters) :
    c ∈ digitChars ++ letters.map Prod.fst :=
  List.mem_append_right _ (List.mem_map_of_mem h)

theorem first_digit {n : Nat} (hn : n < idBound) {c : Char} {ds : List Char}
    (hdigits : Nat.toDigits 10 n = c :: ds) {rest : List Char}
    (hrest : ∀ c ∈ rest.head?, c.isDigit = false) :
    first c (ds ++ rest) = .target (.qubit n false) (c :: ds) := by
  have hquantum := quantum?_digits hn [] hrest
  rw [hdigits, List.cons_append] at hquantum
  have hc : c ∈ Nat.toDigits 10 n := hdigits ▸ List.mem_cons_self
  rw [first_plain (mem_plain_of_isDigit (isDigit_of_mem_toDigits hc)), hquantum]
  rfl

theorem first_letter {basis : Pauli} {n : Nat} (hn : n < idBound) {rest : List Char}
    (hrest : ∀ c ∈ rest.head?, c.isDigit = false) :
    first basis.letter (Nat.toDigits 10 n ++ rest) =
      .target (.pauli basis n false) (basis.letter :: Nat.toDigits 10 n) := by
  rw [first_plain (mem_plain_of_letter (letter_mem_letters basis)), quantum?_letter hn [] basis hrest]
  rfl

theorem first_mark (rest : List Char) :
    first '!' rest = (quantum? ['!'] rest).getD (.stray ['!']) := rfl

theorem first_combiner (rest : List Char) : first '*' rest = .target .combiner ['*'] := rfl

theorem first_blank {rest : List Char} (hrest : ∀ c ∈ rest.head?, isSeparator c = false) :
    first ' ' rest = .gap [' '] := by
  have htake : rest.takeWhile isSeparator = [] := by
    cases rest with
    | nil => rfl
    | cons c rest => rw [List.takeWhile_cons_of_neg (by simp [hrest c rfl])]
  unfold first
  rw [if_pos (by decide), htake]

theorem first_stray {c : Char} (hc : c = 'C' ∨ c = 'D') (rest : List Char) :
    first c rest = .stray [c] := by
  rcases hc with rfl | rfl <;>
    simp [first, isSeparator, Text.isAsciiBlank, quantum?, basis?, Pauli.ofLetter?]

/-- What follows `rec[` is a sign or none, and digits. -/
theorem recordAfter_run {sign : List Char} (hsign : sign = [] ∨ sign = ['-']) (start : List Char)
    {digits : List Char} (hall : ∀ d ∈ digits, d.isDigit) (hne : digits ≠ []) (rest : List Char) :
    recordAfter start (sign ++ (digits ++ ']' :: rest)) =
      ranged (if sign.isEmpty then ofDigits digits < offsetBound else ofDigits digits ≤ offsetBound)
        (.record (if sign.isEmpty then ofDigits digits else -ofDigits digits))
        (start ++ sign ++ digits ++ [']']) := by
  have hclose : ∀ d ∈ (']' :: rest).head?, d.isDigit = false := by simp
  obtain ⟨htake, -⟩ := Text.takeWhile_run hall hclose
  have hdrop : (digits ++ ']' :: rest).drop digits.length = ']' :: rest := List.drop_left
  have hunsigned (more : List Char) : digits ++ ']' :: rest ≠ '-' :: more := by
    obtain ⟨d, ds, rfl⟩ := List.exists_cons_of_ne_nil hne
    have hd := hall d List.mem_cons_self
    rintro heq
    rw [(List.cons.inj heq).1] at hd
    cases hd
  have hnonempty : digits.isEmpty = false := by simp [hne]
  rcases hsign with rfl | rfl
  · rw [List.nil_append, recordAfter]
    · simp only [List.length_nil, List.drop_zero, htake, hnonempty, hdrop, Bool.false_eq_true, if_false]
    · exact hunsigned
  · rw [List.singleton_append, recordAfter]
    simp only [List.length_singleton, List.drop_succ_cons, List.drop_zero, htake, hnonempty, hdrop,
      Bool.false_eq_true, if_false]

theorem recordAfter_digits {sign : List Char} (hsign : sign = [] ∨ sign = ['-']) (start : List Char)
    (n : Nat) (rest : List Char) :
    recordAfter start (sign ++ (Nat.toDigits 10 n ++ ']' :: rest)) =
      ranged (if sign.isEmpty then n < offsetBound else n ≤ offsetBound)
        (.record (if sign.isEmpty then n else -n)) (start ++ sign ++ Nat.toDigits 10 n ++ [']']) := by
  rw [recordAfter_run hsign start (fun d hd => isDigit_of_mem_toDigits hd) Nat.toDigits_ne_nil,
    ofDigits_toDigits]

/-- What follows `sweep[` is digits. -/
theorem sweepAfter?_run {digits : List Char} (hall : ∀ d ∈ digits, d.isDigit) (hne : digits ≠ [])
    (start rest : List Char) :
    sweepAfter? start (digits ++ ']' :: rest) = some (ranged (ofDigits digits < idBound)
      (.sweep (ofDigits digits)) (start ++ digits ++ [']'])) := by
  have hclose : ∀ d ∈ (']' :: rest).head?, d.isDigit = false := by simp
  obtain ⟨htake, -⟩ := Text.takeWhile_run hall hclose
  have hnonempty : digits.isEmpty = false := by simp [hne]
  rw [sweepAfter?]
  simp only [htake, hnonempty, Bool.false_eq_true, if_false, List.drop_left]

/-- A reference to the `k`-th measurement from the end. -/
def reference (k : Nat) : List Char := "rec[-".toList ++ Nat.toDigits 10 k ++ [']']

theorem first_reference {k : Nat} (hk : k ≤ offsetBound) (rest : List Char) :
    ∃ more, reference k = 'r' :: more ∧
      first 'r' (more ++ rest) = .target (.record (-k)) (reference k) := by
  refine ⟨"ec[-".toList ++ Nat.toDigits 10 k ++ [']'], rfl, ?_⟩
  have hafter := recordAfter_digits (.inr rfl) ['r', 'e', 'c', '['] k rest
  simp [ranged, hk] at hafter
  simp [first, isSeparator, Text.isAsciiBlank, hafter, reference]

end Lexeme

namespace Instruction

/-- Whatever follows the text, as long as it does not go on with a digit, the text is read as the
given targets. -/
def ReadsAs (s : List Char) (targets : List Target) : Prop :=
  ∀ rest : List Char, (∀ c ∈ rest.head?, c.isDigit = false) →
    collectTargets (Lexeme.scan (s ++ rest)) =
      (collectTargets (Lexeme.scan rest)).map (targets ++ ·)

theorem readsAs_nil : ReadsAs [] [] := by
  intro rest _
  cases h : collectTargets (Lexeme.scan rest) <;> simp [h, Except.map]

theorem ReadsAs.append {s t : List Char} {ss ts : List Target} (hs : ReadsAs s ss)
    (ht : ReadsAs t ts) (hhead : ∀ c ∈ t.head?, c.isDigit = false) :
    ReadsAs (s ++ t) (ss ++ ts) := by
  intro rest hrest
  have hnext : ∀ c ∈ (t ++ rest).head?, c.isDigit = false := by
    cases t with
    | nil => exact hrest
    | cons c t => exact hhead
  rw [List.append_assoc, hs (t ++ rest) hnext, ht rest hrest]
  cases collectTargets (Lexeme.scan rest) <;> simp [Except.map]

theorem collectTargets_of_readsAs {s : List Char} {targets : List Target}
    (h : ReadsAs s targets) : collectTargets (Lexeme.scan s) = .ok targets := by
  have hs := h [] (by simp)
  rw [List.append_nil] at hs
  rw [hs]
  simp [Lexeme.scan, Lexeme.scanAfter, collectTargets, Except.map]

/-- A lexeme that is read whatever follows is read as its target. -/
theorem readsAs_of_first {c : Char} {s : List Char} {t : Target}
    (hfirst : ∀ rest : List Char, (∀ c ∈ rest.head?, c.isDigit = false) →
      Lexeme.first c (s ++ rest) = .target t (c :: s))
    (hrange : ∀ q ∈ t.qubit?, q ≤ maxQubitId) : ReadsAs (c :: s) [t] := by
  intro rest hrest
  have hany : t.qubit?.any (maxQubitId < ·) = false := by
    cases hq : t.qubit? with
    | none => rfl
    | some q => simpa using hrange q hq
  rw [Lexeme.scan_cons (hfirst rest hrest) rfl, collectTargets, if_neg (by simp [hany])]
  rfl

theorem readsAs_qubit {n : Nat} (hn : n ≤ maxQubitId) :
    ReadsAs (Nat.toDigits 10 n) [.qubit n false] := by
  obtain ⟨d, ds, hdigits⟩ := List.exists_cons_of_ne_nil (@Nat.toDigits_ne_nil n 10)
  have hbound : n < Lexeme.idBound := Nat.lt_of_le_of_lt hn (by decide)
  rw [hdigits]
  exact readsAs_of_first (fun rest hrest => Lexeme.first_digit hbound hdigits hrest)
    (by simpa [Target.qubit?] using hn)

theorem readsAs_factor (basis : Pauli) {n : Nat} (hn : n ≤ maxQubitId) :
    ReadsAs (basis.letter :: Nat.toDigits 10 n) [.pauli basis n false] := by
  have hbound : n < Lexeme.idBound := Nat.lt_of_le_of_lt hn (by decide)
  exact readsAs_of_first (fun rest hrest => Lexeme.first_letter hbound hrest)
    (by simpa [Target.qubit?] using hn)

theorem readsAs_reference {k : Nat} (hk : k ≤ Lexeme.offsetBound) :
    ReadsAs (Lexeme.reference k) [.record (-k)] := by
  intro rest hrest
  obtain ⟨more, hsplit, hfirst⟩ := Lexeme.first_reference hk rest
  rw [hsplit] at hfirst ⊢
  rw [Lexeme.scan_cons hfirst rfl, collectTargets, if_neg (by simp [Target.qubit?])]
  rfl

theorem ReadsAs.blank {s : List Char} {ts : List Target} (h : ReadsAs s ts) (hs : Text.IsWord s) :
    ReadsAs (' ' :: s) ts := by
  obtain ⟨hne, hplain⟩ := hs
  obtain ⟨c, more, rfl⟩ := List.exists_cons_of_ne_nil hne
  have hc := Lexeme.isSeparator_of_word (hplain c List.mem_cons_self)
  intro rest hrest
  have hfirst : Lexeme.first ' ' (c :: more ++ rest) = .gap [' '] :=
    Lexeme.first_blank (by simpa using hc)
  have hscan : Lexeme.scan (' ' :: (c :: more ++ rest)) =
      .gap [' '] :: Lexeme.scan (c :: more ++ rest) :=
    Lexeme.scan_cons (s := []) hfirst rfl
  rw [List.cons_append, hscan, collectTargets, h rest hrest]

theorem ReadsAs.combiner {s : List Char} {ts : List Target} (h : ReadsAs s ts) :
    ReadsAs ('*' :: s) (.combiner :: ts) := by
  intro rest hrest
  have hscan : Lexeme.scan ('*' :: (s ++ rest)) =
      .target .combiner ['*'] :: Lexeme.scan (s ++ rest) :=
    Lexeme.scan_cons (s := []) (Lexeme.first_combiner _) rfl
  rw [List.cons_append, hscan, collectTargets, if_neg (by simp [Target.qubit?]), h rest hrest]
  cases collectTargets (Lexeme.scan rest) <;> rfl

/-- Words that follow one another behind a separator each. -/
theorem readsAs_flatMap {separator : Char} {between : List Target}
    (hseparator : separator.isDigit = false) {words : List (List Char × List Target)}
    (h : ∀ w ∈ words, ReadsAs (separator :: w.1) (between ++ w.2)) :
    ReadsAs (words.flatMap fun w => separator :: w.1) (words.flatMap fun w => between ++ w.2) := by
  induction words with
  | nil => exact readsAs_nil
  | cons w words ih =>
      rw [List.flatMap_cons, List.flatMap_cons]
      refine (h w List.mem_cons_self).append (ih fun v hv => h v (List.mem_cons_of_mem _ hv)) ?_
      cases words with
      | nil => simp
      | cons v words => simpa using hseparator

/-- Words with blanks between them. -/
theorem readsAs_words {words : List (List Char × List Target)}
    (h : ∀ w ∈ words, ReadsAs w.1 w.2 ∧ Text.IsWord w.1) :
    ReadsAs ([' '].intercalate (words.map (·.1))) (words.flatMap (·.2)) := by
  cases words with
  | nil => exact readsAs_nil
  | cons w words =>
      have hrest : ReadsAs (words.flatMap fun v => ' ' :: v.1)
          (words.flatMap fun v => [] ++ v.2) := readsAs_flatMap rfl fun v hv =>
        have hv := h v (List.mem_cons_of_mem _ hv)
        hv.1.blank hv.2
      rw [List.map_cons, Text.intercalate_cons, List.flatMap_cons, List.flatMap_map]
      refine (h w List.mem_cons_self).1.append hrest ?_
      cases words <;> simp

/-- The targets of a product, with combiners between its factors. -/
def productTargets : Build.Factors → List Target
  | [] => []
  | f :: factors =>
      .pauli f.1 f.2 false :: factors.flatMap fun g => [.combiner, .pauli g.1 g.2 false]

/-- Factors with combiners between them. -/
theorem readsAs_product {factors : Build.Factors} (h : ∀ f ∈ factors, f.2 ≤ maxQubitId) :
    ReadsAs (['*'].intercalate (factors.map fun f => f.1.letter :: Nat.toDigits 10 f.2))
      (productTargets factors) := by
  cases factors with
  | nil => exact readsAs_nil
  | cons f factors =>
      let words : List (List Char × List Target) := factors.map fun g =>
        (g.1.letter :: Nat.toDigits 10 g.2, [.pauli g.1 g.2 false])
      have hrest : ReadsAs (words.flatMap fun w => '*' :: w.1)
          (words.flatMap fun w => [.combiner] ++ w.2) := readsAs_flatMap rfl fun w hw => by
        obtain ⟨g, hg, rfl⟩ := List.mem_map.1 hw
        exact (readsAs_factor g.1 (h g (List.mem_cons_of_mem _ hg))).combiner
      rw [List.flatMap_map, List.flatMap_map] at hrest
      rw [List.map_cons, Text.intercalate_cons, productTargets, List.flatMap_map]
      refine (readsAs_factor f.1 (h f List.mem_cons_self)).append hrest ?_
      cases factors <;> simp

/-- Targets among which every combiner stands between two others. -/
structure Spaced (targets : List Target) : Prop where
  head : targets.head? ≠ some .combiner
  last : targets.getLast? ≠ some .combiner
  apart : hasDoubleCombiner targets = false

theorem readTargets_of_readsAs {s : List Char} {targets : List Target} (h : ReadsAs s targets)
    (hspaced : Spaced targets) : readTargets s = .ok targets := by
  rw [readTargets, collectTargets_of_readsAs h]
  simp [bind, Except.bind, hspaced.head, hspaced.last, hspaced.apart]

theorem spaced_of_forall_ne {targets : List Target} (h : ∀ t ∈ targets, t ≠ .combiner) :
    Spaced targets where
  head hhead := h _ (List.mem_of_head? hhead) rfl
  last hlast := h _ (List.mem_of_getLast? hlast) rfl
  apart := by
      induction targets with
      | nil => rfl
      | cons t rest ih =>
          have ht := h t List.mem_cons_self
          cases t with
          | combiner => exact absurd rfl ht
          | _ => exact ih fun u hu => h u (List.mem_cons_of_mem _ hu)

theorem hasDoubleCombiner_append {ss ts : List Target} (hss : hasDoubleCombiner ss = false)
    (hlast : ss.getLast? ≠ some .combiner) (hts : hasDoubleCombiner ts = false) :
    hasDoubleCombiner (ss ++ ts) = false := by
  induction ss with
  | nil => exact hts
  | cons t rest ih =>
      cases rest with
      | nil =>
          cases t with
          | combiner => exact absurd rfl hlast
          | _ => exact hts
      | cons u rest =>
          have hrest : (u :: rest).getLast? ≠ some .combiner := by
            rwa [List.getLast?_cons_cons] at hlast
          cases t with
          | combiner =>
              cases u with
              | combiner => simp [hasDoubleCombiner] at hss
              | _ => exact ih hss hrest
          | _ => exact ih hss hrest

theorem Spaced.append {ss ts : List Target} (hss : Spaced ss) (hts : Spaced ts) :
    Spaced (ss ++ ts) where
  head := by
      cases ss with
      | nil => exact hts.head
      | cons t rest => exact hss.head
  last := by
      rw [List.getLast?_append]
      cases h : ts.getLast? with
      | none => simpa using hss.last
      | some t => simpa [h] using hts.last
  apart := hasDoubleCombiner_append hss.apart hss.last hts.apart

theorem spaced_product (factors : Build.Factors) : Spaced (productTargets factors) := by
  cases factors with
  | nil => exact spaced_of_forall_ne (by simp [productTargets])
  | cons f factors =>
      rw [productTargets]
      induction factors generalizing f with
      | nil => exact spaced_of_forall_ne (by simp)
      | cons g factors ih =>
          obtain ⟨hhead, hlast, hapart⟩ := ih g
          exact ⟨by simp, by simpa using hlast, by simpa [hasDoubleCombiner] using hapart⟩

theorem spaced_flatMap {α : Type} {f : α → List Target} {l : List α} (h : ∀ a ∈ l, Spaced (f a)) :
    Spaced (l.flatMap f) := by
  induction l with
  | nil => exact spaced_of_forall_ne (by simp)
  | cons a l ih =>
      rw [List.flatMap_cons]
      exact (h a List.mem_cons_self).append (ih fun b hb => h b (List.mem_cons_of_mem _ hb))

/-- A character of a written number. -/
def isNumeralChar (c : Char) : Bool := c.isDigit || c == '.' || c == '-'

theorem mem_of_isNumeralChar {c : Char} (h : isNumeralChar c) : c ∈ '.' :: '-' :: digitChars := by
  simp only [isNumeralChar, Bool.or_eq_true, beq_iff_eq] at h
  rcases h with (h | rfl) | rfl
  · exact List.mem_cons_of_mem _ (List.mem_cons_of_mem _ (mem_digitChars h))
  · exact List.mem_cons_self
  · exact List.mem_cons_of_mem _ List.mem_cons_self

theorem numeralChar_cases {c : Char} (h : isNumeralChar c) : c ≠ ',' ∧ Text.isBlank c = false := by
  have hall : ∀ c ∈ '.' :: '-' :: digitChars, c ≠ ',' ∧ Text.isBlank c = false :=
    List.all_iff_forall_prop.1 (by decide)
  exact hall c (mem_of_isNumeralChar h)

/-- The text of a finite number. -/
structure IsNumeral (s : List Char) (x : Binary64) : Prop where
  nonempty : s ≠ []
  chars : ∀ c ∈ s, isNumeralChar c
  value : Binary.readFinite? .binary64 s = some x

theorem isNumeral_text {x : Binary64} (hx : x.isFinite) : IsNumeral x.text.toList x where
  nonempty := Binary.text_ne_nil hx
  chars c hc := by
      rcases Binary.mem_text hx hc with h | rfl | rfl
      · simp [isNumeralChar, h]
      · rfl
      · rfl
  value := Binary.readFinite?_text Format.ample_binary64 hx

theorem length_toDigits_le {n : Nat} (hn : n ≤ 2 ^ 64) : (Nat.toDigits 10 n).length ≤ 20 := by
  rcases Nat.eq_zero_or_pos n with rfl | hpos
  · decide
  · have hle : 10 ^ ((Nat.toDigits 10 n).length - 1) < 10 ^ 20 :=
      (ten_pow_length_le hpos).trans_lt (hn.trans_lt (by decide))
    have hlt := (Nat.pow_lt_pow_iff_right (by decide)).1 hle
    omega

theorem isNumeral_toDigits {n : Nat} (hn : n ≤ 2 ^ 64) :
    IsNumeral (Nat.toDigits 10 n) (.ofNat .binary64 n) where
  nonempty := by simp
  chars c hc := by simp [isNumeralChar, isDigit_of_mem_toDigits hc]
  value := by
      have hlength : ((Nat.toDigits 10 n).length : Int) ≤ Format.binary64.maxExponent :=
        Int.le_trans (Int.ofNat_le.2 (length_toDigits_le hn)) (by decide)
      refine Binary.readFinite?_toDigits Format.ample_binary64 hlength ?_
      refine (Binary.ofFraction_le (k := 64) Format.ample_binary64 Nat.one_pos false (by decide) ?_).1
      have hle : (n : Rat) ≤ 2 ^ 64 := by exact_mod_cast hn
      have hunit : (0 : Rat) < 2 ^ (((64 : Nat) : Int) - Format.binary64.precision) := by positivity
      rw [Nat.cast_one, div_one]
      linarith

theorem IsNumeral.trim {s : List Char} {x : Binary64} (h : IsNumeral s x) : Text.trim s = s :=
  Source.trim_eq_self (fun c hc => (numeralChar_cases (h.chars c (List.mem_of_head? hc))).2)
    fun c hc => (numeralChar_cases (h.chars c (List.mem_of_getLast? hc))).2

theorem trim_blank (s : List Char) : Text.trim (' ' :: s) = Text.trim s := by
  rw [Text.trim, Text.trim, Text.trimStart, Text.trimStart,
    List.dropWhile_cons_of_pos (by decide)]

/-- What may stand behind the comma between two arguments. -/
def IsGap (gap : List Char) : Prop := gap = [] ∨ gap = [' ']

theorem IsGap.trim {gap : List Char} (h : IsGap gap) (s : List Char) :
    Text.trim (gap ++ s) = Text.trim s := by
  rcases h with rfl | rfl
  · rfl
  · exact trim_blank s

theorem IsGap.eq_blank {gap : List Char} (h : IsGap gap) {c : Char} (hc : c ∈ gap) : c = ' ' := by
  rcases h with rfl | rfl
  · cases hc
  · exact List.mem_singleton.1 hc

theorem readArgs_gaps {gap : List Char} (hgap : IsGap gap)
    {numerals : List (List Char × Binary64)} (h : ∀ p ∈ numerals, IsNumeral p.1 p.2) :
    readArgs (numerals.map (gap ++ ·.1)) = .ok (numerals.map (·.2)) := by
  induction numerals with
  | nil => rfl
  | cons p numerals ih =>
      have hp := h p List.mem_cons_self
      rw [List.map_cons, readArgs, hgap.trim, hp.trim]
      simp [hp.nonempty, hp.value, ih fun q hq => h q (List.mem_cons_of_mem _ hq), Except.map]

/-- The numerals of a list with a comma and a gap between them. -/
theorem readArgs_intercalate {gap : List Char} (hgap : IsGap gap)
    {numerals : List (List Char × Binary64)} (h : ∀ p ∈ numerals, IsNumeral p.1 p.2) :
    readArgs (Text.splitWhere (· == ',') ((',' :: gap).intercalate (numerals.map (·.1)))) =
      .ok (numerals.map (·.2)) := by
  cases numerals with
  | nil => rfl
  | cons p numerals =>
      have hp := h p List.mem_cons_self
      have hcommas : (',' :: gap).intercalate (p.1 :: numerals.map (·.1)) =
          [','].intercalate (p.1 :: numerals.map (gap ++ ·.1)) := by
        rw [Text.intercalate_cons, Text.intercalate_cons, List.flatMap_map, List.flatMap_map]
        rfl
      have hplain : ∀ q ∈ p :: numerals, ∀ c ∈ q.1, (c == ',') = false := fun q hq c hc => by
        simpa using (numeralChar_cases ((h q hq).chars c hc)).1
      have hsplit : Text.splitWhere (· == ',') ((',' :: gap).intercalate
          (p.1 :: numerals.map (·.1))) = p.1 :: numerals.map (gap ++ ·.1) := by
        rw [hcommas]
        refine Text.splitWhere_intercalate rfl (List.cons_ne_nil _ _) fun piece hpiece c hc => ?_
        rcases List.mem_cons.1 hpiece with rfl | hpiece
        · exact hplain p List.mem_cons_self c hc
        · obtain ⟨q, hq, rfl⟩ := List.mem_map.1 hpiece
          rcases List.mem_append.1 hc with hc | hc
          · rw [hgap.eq_blank hc]
            rfl
          · exact hplain q (List.mem_cons_of_mem _ hq) c hc
      rw [List.map_cons]
      rw [hsplit, readArgs, hp.trim]
      simp [hp.nonempty, hp.value, readArgs_gaps hgap fun q hq => h q (List.mem_cons_of_mem _ hq),
        Except.map]

theorem mem_intercalate_numerals {gap : List Char} (hgap : IsGap gap)
    {numerals : List (List Char × Binary64)} (h : ∀ p ∈ numerals, IsNumeral p.1 p.2) {c : Char}
    (hc : c ∈ (',' :: gap).intercalate (numerals.map (·.1))) :
    c ∈ ',' :: ' ' :: '.' :: '-' :: digitChars := by
  rcases Text.mem_intercalate hc with hc | ⟨w, hw, hc⟩
  · rcases List.mem_cons.1 hc with rfl | hc
    · exact List.mem_cons_self
    · rw [hgap.eq_blank hc]
      exact List.mem_cons_of_mem _ List.mem_cons_self
  · obtain ⟨p, hp, rfl⟩ := List.mem_map.1 hw
    exact List.mem_append_right [',', ' '] (mem_of_isNumeralChar ((h p hp).chars c hc))

/-- A name in the form in which names are kept. -/
def isKept (name : List Char) : Bool :=
  isName name && name.all (!Text.endsName ·) && name.map Char.toUpper == name

/-- A line with a kept name and without a tag is read as its arguments and targets are. -/
theorem read_untagged {name rest : List Char} (hname : isKept name)
    (hends : ∀ c ∈ rest.head?, Text.endsName c ∧ c ≠ '[') (hhash : '#' ∉ rest)
    (htrim : Text.trim (name ++ rest) = name ++ rest) :
    read (name ++ rest) = (readArguments (name ++ rest) rest).bind fun a =>
      (readTargets (Text.trim a.2)).bind fun ts => .ok ⟨String.ofList name, "", a.1, ts⟩ := by
  simp only [isKept, Bool.and_eq_true, List.all_eq_true, beq_iff_eq] at hname
  obtain ⟨⟨hisname, hplain⟩, hupper⟩ := hname
  have hstop : ∀ c ∈ rest.head?, (!Text.endsName c) = false := fun c hc => by simp [(hends c hc).1]
  obtain ⟨htake, -⟩ := Text.takeWhile_run hplain hstop
  have htag : readTag rest = .ok ([], rest) := by
    cases rest with
    | nil => rfl
    | cons c rest =>
        have hc := (hends c rfl).2
        unfold readTag
        split
        · rename_i heq
          exact absurd (List.cons.inj heq).1 hc
        · rfl
  have hbefore : Text.before (· == '#') rest = rest := by
    rw [Text.before, List.takeWhile_eq_self_iff]
    intro c hc
    simp only [Bool.not_eq_true', beq_eq_false_iff_ne]
    rintro rfl
    exact hhash hc
  rw [read, htrim]
  simp only [htake, hisname, Bool.not_true, Bool.false_eq_true, if_false, List.drop_left, htag,
    hbefore, bind, Except.bind, hupper]

theorem read_eq {name rest after : List Char} {args : List Binary64} {targets : List Target}
    (hname : isKept name) (hends : ∀ c ∈ rest.head?, Text.endsName c ∧ c ≠ '[')
    (hhash : '#' ∉ rest) (htrim : Text.trim (name ++ rest) = name ++ rest)
    (hargs : readArguments (name ++ rest) rest = .ok (args, after))
    (htargets : readTargets (Text.trim after) = .ok targets) :
    read (name ++ rest) = .ok ⟨String.ofList name, "", args, targets⟩ := by
  rw [read_untagged hname hends hhash htrim, hargs]
  simp only [Except.bind, htargets]

/-- A line without arguments. -/
theorem read_plain {name body : List Char} {targets : List Target} (hname : isKept name)
    (hbody : ∀ c ∈ body, c ≠ '#' ∧ c ≠ '(')
    (htrim : Text.trim (name ++ ' ' :: body) = name ++ ' ' :: body)
    (hbodytrim : Text.trim body = body) (htargets : readTargets body = .ok targets) :
    read (name ++ ' ' :: body) = .ok ⟨String.ofList name, "", [], targets⟩ := by
  have hstart : ∀ c ∈ (Text.trimStart (' ' :: body)).head?, c ≠ '(' := by
    intro c hc
    have hmem := (List.dropWhile_sublist _).subset (List.mem_of_head? hc)
    rcases List.mem_cons.1 hmem with rfl | h
    · decide
    · exact (hbody c h).2
  have hargs : readArguments (name ++ ' ' :: body) (' ' :: body) = .ok ([], ' ' :: body) := by
    unfold readArguments
    split
    · rename_i heq
      exact absurd rfl (hstart '(' (by rw [heq]; rfl))
    · rfl
  refine read_eq hname (by simp [Text.endsName, Text.isBlank]) ?_ htrim hargs ?_
  · simpa using fun h => (hbody _ h).1 rfl
  · rw [trim_blank, hbodytrim, htargets]

theorem readArguments_call {inside : List Char} (hclose : ')' ∉ inside) (line after : List Char) :
    readArguments line ('(' :: (inside ++ ')' :: after)) =
      (readArgs (Text.splitWhere (· == ',') inside)).map (·, after) := by
  have hsplit : Text.splitOnce? (· == ')') (inside ++ ')' :: after) = some (inside, after) := by
    refine Text.splitOnce?_append (fun c hc => ?_) rfl after
    rw [beq_eq_false_iff_ne]
    rintro rfl
    exact hclose hc
  simp [readArguments, Text.trimStart, Text.isBlank, hsplit]

/-- A line with arguments and whatever targets are read behind them. -/
theorem read_called {name gap : List Char} {numerals : List (List Char × Binary64)}
    {targets : List Target} (hname : isKept name) (hgap : IsGap gap)
    (hnumerals : ∀ p ∈ numerals, IsNumeral p.1 p.2)
    {inside after : List Char} (hinside : inside = (',' :: gap).intercalate (numerals.map (·.1)))
    (hafter : '#' ∉ after)
    (htrim : Text.trim (name ++ '(' :: (inside ++ ')' :: after)) =
      name ++ '(' :: (inside ++ ')' :: after))
    (htargets : readTargets (Text.trim after) = .ok targets) :
    read (name ++ '(' :: (inside ++ ')' :: after)) =
      .ok ⟨String.ofList name, "", numerals.map (·.2), targets⟩ := by
  have hchars : ∀ c ∈ inside, c ≠ ')' ∧ c ≠ '#' := by
    intro c hc
    have hall : ∀ c ∈ ',' :: ' ' :: '.' :: '-' :: digitChars, c ≠ ')' ∧ c ≠ '#' :=
      List.all_iff_forall_prop.1 (by decide)
    exact hall c (mem_intercalate_numerals hgap hnumerals (hinside ▸ hc))
  have hargs : readArguments (name ++ '(' :: (inside ++ ')' :: after))
      ('(' :: (inside ++ ')' :: after)) = .ok (numerals.map (·.2), after) := by
    rw [readArguments_call fun hmem => (hchars _ hmem).1 rfl, hinside,
      readArgs_intercalate hgap hnumerals]
    rfl
  refine read_eq hname (by simp [Text.endsName]) ?_ htrim hargs htargets
  simpa [hafter] using fun h => (hchars _ h).2 rfl

/-- A line with arguments and targets. -/
theorem read_arguments {name body gap : List Char} {numerals : List (List Char × Binary64)}
    {targets : List Target} (hname : isKept name) (hgap : IsGap gap)
    (hnumerals : ∀ p ∈ numerals, IsNumeral p.1 p.2)
    {inside : List Char} (hinside : inside = (',' :: gap).intercalate (numerals.map (·.1)))
    (hbody : '#' ∉ body)
    (htrim : Text.trim (name ++ '(' :: (inside ++ ')' :: ' ' :: body)) =
      name ++ '(' :: (inside ++ ')' :: ' ' :: body))
    (hbodytrim : Text.trim body = body) (htargets : readTargets body = .ok targets) :
    read (name ++ '(' :: (inside ++ ')' :: ' ' :: body)) =
      .ok ⟨String.ofList name, "", numerals.map (·.2), targets⟩ := by
  refine read_called hname hgap hnumerals hinside (by simpa using hbody) htrim ?_
  rw [trim_blank, hbodytrim, htargets]

variable {c : Char} {rest : List Char}

theorem readArguments_blank (hblank : Text.isBlank c = false) (hc : c ≠ '(')
    (line rest : List Char) :
    readArguments line (' ' :: c :: rest) = .ok ([], ' ' :: c :: rest) := by
  have hstart : Text.trimStart (' ' :: c :: rest) = c :: rest := by
    rw [Text.trimStart, List.dropWhile_cons_of_pos (by decide),
      List.dropWhile_cons_of_neg (by simp [hblank])]
  unfold readArguments
  rw [hstart]
  split
  · rename_i heq
    exact absurd (List.cons.inj heq).1 hc
  · rfl

theorem readTargets_stray (hblank : Text.isBlank c = false)
    (hfirst : Lexeme.first c (Text.trimEnd rest) = .stray [c]) :
    readTargets (Text.trim (' ' :: c :: rest)) = .error (.badTarget (String.ofList [c])) := by
  have htrimmed : Text.trim (' ' :: c :: rest) = c :: Text.trimEnd rest := by
    rw [trim_blank, Text.trim, Text.trimStart, List.dropWhile_cons_of_neg (by simp [hblank])]
    exact Text.trimEnd_append (s := [c]) (by simpa using hblank) rest
  rw [htrimmed, readTargets, Lexeme.scan, Lexeme.scanAfter, hfirst]
  rfl

/-- What the letters that no target starts with do to a line: the name ends in front of them. -/
theorem read_stray {name : List Char} (hname : isKept name)
    (hfirst : ∀ rest, Lexeme.first c rest = .stray [c]) (hc : c.isUpper)
    (hhash : '#' ∉ ' ' :: c :: rest)
    (htrim : Text.trim (name ++ ' ' :: c :: rest) = name ++ ' ' :: c :: rest) :
    read (name ++ ' ' :: c :: rest) = .error (.badTarget (String.ofList [c])) := by
  have hblank := Source.not_blank_of_isUpper hc
  have hparenthesis : c ≠ '(' := by
    rintro rfl
    cases hc
  rw [read_untagged hname (by simp [Text.endsName, Text.isBlank]) hhash htrim,
    readArguments_blank hblank hparenthesis]
  simp only [Except.bind, readTargets_stray hblank (hfirst _)]

end Instruction

end StimOverlay
