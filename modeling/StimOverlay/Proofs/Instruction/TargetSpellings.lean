import StimOverlay.Proofs.Instruction.WrittenTargets

/-! Targets as they are spelled. A target is read where it is spelled, unless a longer one is, and what is read
as a target spells it. All other text without separators is stray. -/

namespace StimOverlay

open Numeric Text

namespace Lexeme

/-- What stands in targets. -/
def isTargetChar (c : Char) : Bool :=
  c.isDigit || (basis? c).isSome ||
    ['*', '!', '-', '[', ']', 'r', 'e', 'c', 's', 'w', 'p'].contains c

theorem isTargetChar_of_mem_takeWhile {s : List Char} :
    ∀ c ∈ s.takeWhile Char.isDigit, isTargetChar c := fun c hc => by
  simp [isTargetChar, List.mem_takeWhile_imp hc]

/-- A target with a number that is in range. -/
def Fits : Target → Prop
  | .qubit id _ => id < idBound
  | .pauli _ id _ => id < idBound
  | .record offset => -offsetBound ≤ offset ∧ offset < offsetBound
  | .sweep index => index < idBound
  | .combiner => True

/-- What may stand between targets. -/
def separators : List Char := [' ', '\t', '\r', '\n', '\x0c', ',']

/-- One digit or more. -/
structure IsNumeral (digits : List Char) : Prop where
  nonempty : digits ≠ []
  digit : ∀ d ∈ digits, d.isDigit

/-- The number that digits stand for in decimal notation. -/
def decimal (digits : List Char) : Nat := Nat.ofDigitChars 10 digits 0

/-- The mark in front of a target that is inverted. -/
def inversion (inverted : Bool) : List Char := if inverted then ['!'] else []

/-- The targets with their spellings. The numbers of qubits and sweep bits fit 32 bits, record offsets fit 64
bits with a sign. -/
inductive Spells : Target → List Char → Prop where
  | qubit (inverted : Bool) {digits : List Char} (numeral : IsNumeral digits)
      (range : decimal digits < 2 ^ 32) :
      Spells (.qubit (decimal digits) inverted) (inversion inverted ++ digits)
  | pauli (inverted : Bool) {c : Char} {basis : Pauli} (letter : (c, basis) ∈ letters)
      {digits : List Char} (numeral : IsNumeral digits) (range : decimal digits < 2 ^ 32) :
      Spells (.pauli basis (decimal digits) inverted) (inversion inverted ++ c :: digits)
  | record {digits : List Char} (numeral : IsNumeral digits) (range : decimal digits < 2 ^ 63) :
      Spells (.record (decimal digits)) (['r', 'e', 'c', '['] ++ digits ++ [']'])
  | back {digits : List Char} (numeral : IsNumeral digits) (range : decimal digits ≤ 2 ^ 63) :
      Spells (.record (-decimal digits)) (['r', 'e', 'c', '[', '-'] ++ digits ++ [']'])
  | sweep {digits : List Char} (numeral : IsNumeral digits) (range : decimal digits < 2 ^ 32) :
      Spells (.sweep (decimal digits)) (['s', 'w', 'e', 'e', 'p', '['] ++ digits ++ [']'])
  | combiner : Spells .combiner ['*']

theorem ofDigits_eq_decimal (digits : List Char) : ofDigits digits = decimal digits := ofDigits_eq digits

theorem isSeparator_iff {c : Char} : isSeparator c ↔ c ∈ separators := by
  simp only [isSeparator, isAsciiBlank, separators, Bool.or_eq_true, beq_iff_eq, List.mem_cons,
    List.not_mem_nil, or_false]
  tauto

theorem isSeparator_of_isTargetChar {c : Char} (h : isTargetChar c) : isSeparator c = false := by
  by_contra hc
  have hall : ∀ c ∈ separators, isTargetChar c = false := List.all_iff_forall_prop.1 (by decide)
  rw [hall c (isSeparator_iff.1 (by simpa using hc))] at h
  cases h

theorem Spells.fits {t : Target} {text : List Char} (h : Spells t text) : Fits t := by
  have hbound : 0 < offsetBound := by decide
  cases h with
  | qubit inverted numeral range => exact range
  | pauli inverted letter numeral range => exact range
  | record numeral range =>
      have hrange : decimal _ < offsetBound := range
      exact ⟨by omega, by omega⟩
  | back numeral range =>
      have hrange : decimal _ ≤ offsetBound := range
      exact ⟨by omega, by omega⟩
  | sweep numeral range => exact range
  | combiner => trivial

theorem isTargetChar_inversion (inverted : Bool) : ∀ c ∈ inversion inverted, isTargetChar c := by
  cases inverted <;> simp [inversion, isTargetChar]

theorem Spells.isTargetChar {t : Target} {text : List Char} (h : Spells t text) :
    ∀ c ∈ text, isTargetChar c := by
  have hletters : ∀ e ∈ letters, Lexeme.isTargetChar e.1 := by decide
  have hdigits {digits : List Char} (h : IsNumeral digits) : ∀ d ∈ digits, Lexeme.isTargetChar d :=
    fun d hd => by simp [Lexeme.isTargetChar, h.digit d hd]
  have hclosed {start digits : List Char} (hstart : ∀ c ∈ start, Lexeme.isTargetChar c)
      (h : IsNumeral digits) : ∀ c ∈ start ++ digits ++ [']'], Lexeme.isTargetChar c := by
    simp only [List.forall_mem_append]
    exact ⟨⟨hstart, hdigits h⟩, by simp [Lexeme.isTargetChar]⟩
  cases h with
  | qubit inverted numeral range =>
      exact List.forall_mem_append.2 ⟨isTargetChar_inversion inverted, hdigits numeral⟩
  | pauli inverted letter numeral range =>
      refine List.forall_mem_append.2 ⟨isTargetChar_inversion inverted, ?_⟩
      exact List.forall_mem_cons.2 ⟨hletters _ letter, hdigits numeral⟩
  | record numeral range => exact hclosed (by simp [Lexeme.isTargetChar]) numeral
  | back numeral range => exact hclosed (by simp [Lexeme.isTargetChar]) numeral
  | sweep numeral range => exact hclosed (by simp [Lexeme.isTargetChar]) numeral
  | combiner => simp [Lexeme.isTargetChar]

theorem mem_letters_of_basis? {c : Char} {basis : Pauli} (h : basis? c = some basis) :
    (c, basis) ∈ letters := by
  by_cases hlower : 'a'.val ≤ c.val ∧ c.val ≤ 'z'.val
  · have hrange : 97 ≤ c.toNat ∧ c.toNat ≤ 122 := by
      simpa [UInt32.le_iff_toNat_le, ← Char.toNat_val] using hlower
    have hall : ∀ n ∈ List.range' 97 26, ∀ basis ∈ basis? (Char.ofNat n),
        (Char.ofNat n, basis) ∈ letters := by decide
    have hletter := hall c.toNat (List.mem_range'_1.2 ⟨hrange.1, Nat.lt_succ_of_le hrange.2⟩)
    rw [Char.ofNat_toNat] at hletter
    exact hletter basis h
  · have hupper : c.toUpper = c := dif_neg hlower
    rw [basis?, hupper, Pauli.ofLetter?] at h
    split_ifs at h with hx hy hz
    all_goals cases h
    · simp [letters, beq_iff_eq.1 hx]
    · simp [letters, beq_iff_eq.1 hy]
    · simp [letters, beq_iff_eq.1 hz]

variable {c : Char} {rest s text digits : List Char} {t : Target} {l : Lexeme}

theorem isNumeral_takeWhile (h : s.takeWhile Char.isDigit ≠ []) : IsNumeral (s.takeWhile Char.isDigit) :=
  ⟨h, fun _ hd => List.mem_takeWhile_imp hd⟩

/-- The run of digits that a numeral starts is the numeral, or it is longer. -/
theorem exists_run (h : IsNumeral digits) (hstart : digits <+: s) :
    ∃ run tail, s = run ++ tail ∧ IsNumeral run ∧ (∀ c ∈ tail.head?, c.isDigit = false) ∧
      (digits.length < run.length ∨ digits = run) := by
  have hsplit := List.takeWhile_append_dropWhile (p := Char.isDigit) (l := s)
  have hrun : digits <+: s.takeWhile Char.isDigit := by
    obtain ⟨rest, rfl⟩ := hstart
    rw [List.takeWhile_append_of_pos h.digit]
    exact List.prefix_append _ _
  refine ⟨_, _, hsplit.symm, isNumeral_takeWhile fun hnil => ?_, fun c hc => ?_, ?_⟩
  · exact h.nonempty (List.prefix_nil.1 (hnil ▸ hrun))
  · have hhead := List.head?_dropWhile_not Char.isDigit s
    rw [Option.mem_def.1 hc] at hhead
    simpa using hhead
  · exact (Nat.lt_or_eq_of_le hrun.length_le).imp_right hrun.eq_of_length

theorem text_ranged (inRange : Bool) (t : Target) (text : List Char) :
    (ranged inRange t text).text = text := by
  cases inRange <;> rfl

/-- A run of digits behind the same text is longer than the digits that start it, or gives their target. -/
theorem ranged_run {inRange : Bool} (target : List Char → Target) {front run : List Char}
    (hrun : digits.length < run.length ∨ digits = run) (hrange : digits = run → inRange) :
    (front ++ digits).length < (ranged inRange (target run) (front ++ run)).text.length ∨
      ranged inRange (target run) (front ++ run) = .target (target digits) (front ++ digits) := by
  rcases hrun with hlt | rfl
  · left
    rw [text_ranged, List.length_append, List.length_append]
    omega
  · right
    rw [hrange rfl]
    rfl

theorem quantum?_of_numeral (numeral : IsNumeral digits) (range : decimal digits < 2 ^ 32)
    (mark : List Char) (hstart : digits <+: s) :
    ∃ l, quantum? mark s = some l ∧ ((mark ++ digits).length < l.text.length ∨
      l = .target (.qubit (decimal digits) (!mark.isEmpty)) (mark ++ digits)) := by
  obtain ⟨run, tail, rfl, hnumeral, htail, hrun⟩ := exists_run numeral hstart
  refine ⟨_, quantum?_run hnumeral.digit hnumeral.nonempty mark htail, ?_⟩
  rw [ofDigits_eq_decimal]
  refine ranged_run (fun digits => .qubit (decimal digits) _) hrun fun heq => ?_
  exact decide_eq_true (heq ▸ range)

theorem quantum?_of_letter {basis : Pauli} (letter : (c, basis) ∈ letters) (numeral : IsNumeral digits)
    (range : decimal digits < 2 ^ 32) (mark : List Char) (hstart : digits <+: s) :
    ∃ l, quantum? mark (c :: s) = some l ∧ ((mark ++ c :: digits).length < l.text.length ∨
      l = .target (.pauli basis (decimal digits) (!mark.isEmpty)) (mark ++ c :: digits)) := by
  obtain ⟨run, tail, rfl, hnumeral, htail, hrun⟩ := exists_run numeral hstart
  refine ⟨_, quantum?_letter_run letter hnumeral.digit hnumeral.nonempty mark htail, ?_⟩
  rw [ofDigits_eq_decimal, List.append_cons mark c digits, List.append_cons mark c run]
  refine ranged_run (fun digits => .pauli basis (decimal digits) _) hrun fun heq => ?_
  exact decide_eq_true (heq ▸ range)

theorem first_record (more : List Char) :
    first 'r' ('e' :: 'c' :: '[' :: more) = recordAfter ['r', 'e', 'c', '['] more := rfl

theorem first_sweep (more : List Char) :
    first 's' ('w' :: 'e' :: 'e' :: 'p' :: '[' :: more) =
      (sweepAfter? ['s', 'w', 'e', 'e', 'p', '['] more).getD (.stray ['s']) := rfl

/-- A target that is spelled at the start of a text is the first lexeme, unless that is longer. -/
theorem first_of_spells (h : Spells t text) (hstart : text <+: c :: rest) :
    text.length < (first c rest).text.length ∨ first c rest = .target t text := by
  cases h with
  | qubit inverted numeral range =>
      cases inverted with
      | false =>
          have hc : c.isDigit := by
            obtain ⟨d, ds, rfl⟩ := List.exists_cons_of_ne_nil numeral.nonempty
            exact (List.cons_prefix_cons.1 hstart).1 ▸ numeral.digit d List.mem_cons_self
          obtain ⟨l, hquantum, hl⟩ := quantum?_of_numeral numeral range [] hstart
          rw [first_plain (mem_plain_of_isDigit hc), hquantum]
          exact hl
      | true =>
          obtain ⟨hc, hrest⟩ := List.cons_prefix_cons.1 hstart
          subst hc
          obtain ⟨l, hquantum, hl⟩ := quantum?_of_numeral numeral range ['!'] hrest
          rw [first_mark, hquantum]
          exact hl
  | pauli inverted letter numeral range =>
      cases inverted with
      | false =>
          obtain ⟨hc, hrest⟩ := List.cons_prefix_cons.1 hstart
          subst hc
          obtain ⟨l, hquantum, hl⟩ := quantum?_of_letter letter numeral range [] hrest
          rw [first_plain (mem_plain_of_letter letter), hquantum]
          exact hl
      | true =>
          obtain ⟨hc, hrest⟩ := List.cons_prefix_cons.1 hstart
          subst hc
          obtain ⟨more, rfl, hmore⟩ := List.cons_prefix_iff.1 hrest
          obtain ⟨l, hquantum, hl⟩ := quantum?_of_letter letter numeral range ['!'] hmore
          rw [first_mark, hquantum]
          exact hl
  | @record digits numeral range =>
      obtain ⟨more, hmore⟩ := hstart
      have hsplit : c :: rest = 'r' :: 'e' :: 'c' :: '[' :: ([] ++ (digits ++ ']' :: more)) := by
        simpa using hmore.symm
      obtain ⟨rfl, rfl⟩ := List.cons.inj hsplit
      have hrange : decimal digits < offsetBound := range
      rw [first_record, recordAfter_run (.inl rfl) _ numeral.digit numeral.nonempty]
      exact .inr (by simp [ofDigits_eq_decimal, ranged, hrange])
  | @back digits numeral range =>
      obtain ⟨more, hmore⟩ := hstart
      have hsplit : c :: rest = 'r' :: 'e' :: 'c' :: '[' :: (['-'] ++ (digits ++ ']' :: more)) := by
        simpa using hmore.symm
      obtain ⟨rfl, rfl⟩ := List.cons.inj hsplit
      have hrange : decimal digits ≤ offsetBound := range
      rw [first_record, recordAfter_run (.inr rfl) _ numeral.digit numeral.nonempty]
      exact .inr (by simp [ofDigits_eq_decimal, ranged, hrange])
  | @sweep digits numeral range =>
      obtain ⟨more, hmore⟩ := hstart
      have hsplit : c :: rest = 's' :: 'w' :: 'e' :: 'e' :: 'p' :: '[' :: (digits ++ ']' :: more) := by
        simpa using hmore.symm
      obtain ⟨rfl, rfl⟩ := List.cons.inj hsplit
      have hrange : decimal digits < idBound := range
      rw [first_sweep, sweepAfter?_run numeral.digit numeral.nonempty]
      exact .inr (by simp [ofDigits_eq_decimal, ranged, hrange])
  | combiner =>
      obtain ⟨hc, -⟩ := List.cons_prefix_cons.1 hstart
      exact .inr (hc ▸ first_combiner rest)

/-- A lexeme that is read at the start of a text: a part of the text without separators, which spells the
lexeme if that is a target. -/
structure Reads (l : Lexeme) (s : List Char) : Prop where
  nonempty : l.text ≠ []
  start : l.text <+: s
  solid : ∀ c ∈ l.text, isSeparator c = false
  plain : l.isGap = false
  spelled : ∀ t text, l = .target t text → Spells t text

theorem reads_stray (hne : text ≠ []) (hstart : text <+: s) (h : ∀ c ∈ text, isSeparator c = false) :
    Reads (.stray text) s where
  nonempty := hne
  start := hstart
  solid := h
  plain := rfl
  spelled _ _ heq := by cases heq

theorem reads_ranged (inRange : Bool) (hne : text ≠ []) (hstart : text <+: s)
    (h : ∀ c ∈ text, isTargetChar c) (hspells : inRange → Spells t text) :
    Reads (ranged inRange t text) s := by
  have hsolid : ∀ c ∈ text, isSeparator c = false := fun c hc => isSeparator_of_isTargetChar (h c hc)
  cases inRange with
  | false => exact reads_stray hne hstart hsolid
  | true =>
      exact {
        nonempty := hne
        start := hstart
        solid := hsolid
        plain := rfl
        spelled := by
          rintro _ _ ⟨⟩
          exact hspells rfl }

theorem reads_quantum? (inverted : Bool) (h : quantum? (inversion inverted) s = some l) :
    Reads l (inversion inverted ++ s) := by
  have hmark : (!(inversion inverted).isEmpty) = inverted := by cases inverted <;> rfl
  have hinversion := isTargetChar_inversion inverted
  unfold quantum? at h
  rw [hmark] at h
  split at h
  · cases h
  · rename_i c rest
    split at h
    · rename_i hc
      cases h
      refine reads_ranged _ (by simp [hc]) ?_
        (List.forall_mem_append.2 ⟨hinversion, isTargetChar_of_mem_takeWhile⟩) fun hrange => ?_
      · exact (List.prefix_append_right_inj _).2 (List.takeWhile_prefix _)
      · rw [ofDigits_eq_decimal] at hrange ⊢
        exact .qubit inverted (isNumeral_takeWhile (by simp [hc])) (of_decide_eq_true hrange)
    · split at h
      · rename_i basis d ds hbasis hdigits
        cases h
        have hc : isTargetChar c := by simp [isTargetChar, hbasis]
        have hfront := List.takeWhile_prefix Char.isDigit (l := rest)
        have hnumeral := isNumeral_takeWhile (s := rest) (by simp [hdigits])
        rw [hdigits] at hfront hnumeral
        refine reads_ranged _ (by simp) ?_ (List.forall_mem_append.2 ⟨hinversion, ?_⟩) fun hrange => ?_
        · exact (List.prefix_append_right_inj _).2 ((List.prefix_cons_inj c).2 hfront)
        · exact List.forall_mem_cons.2 ⟨hc, hdigits ▸ isTargetChar_of_mem_takeWhile⟩
        · rw [ofDigits_eq_decimal] at hrange ⊢
          exact .pauli inverted (mem_letters_of_basis? hbasis) hnumeral (of_decide_eq_true hrange)
      · cases h

/-- The sign in front of a record offset. -/
theorem sign_of_offset (s : List Char) :
    let sign := match s with
      | '-' :: _ => ['-']
      | _ => []
    (sign = [] ∨ sign = ['-']) ∧ sign <+: s := by
  dsimp only
  split
  · exact ⟨.inr rfl, (List.prefix_cons_inj _).2 List.nil_prefix⟩
  · exact ⟨.inl rfl, List.nil_prefix⟩

theorem reads_recordAfter (s : List Char) :
    Reads (recordAfter ['r', 'e', 'c', '['] s) (['r', 'e', 'c', '['] ++ s) := by
  have hstart : ∀ c ∈ ['r', 'e', 'c', '['], isTargetChar c := by simp [isTargetChar]
  have hstray {text s : List Char} (hne : text ≠ []) (hfront : text <+: s)
      (h : ∀ c ∈ text, isTargetChar c) : Reads (.stray text) s :=
    reads_stray hne hfront fun c hc => isSeparator_of_isTargetChar (h c hc)
  have hsplit {sign body digits : List Char} (hsign : (sign = [] ∨ sign = ['-']) ∧ sign <+: s)
      (hbody : body = s.drop sign.length) (hdigits : digits = body.takeWhile Char.isDigit) :
      s = sign ++ (digits ++ body.drop digits.length) ∧
        ∀ c ∈ ['r', 'e', 'c', '['] ++ sign ++ digits, isTargetChar c := by
    subst hdigits hbody
    rw [List.prefix_iff_eq_append.1 (List.takeWhile_prefix _), List.prefix_iff_eq_append.1 hsign.2]
    refine ⟨rfl, List.forall_mem_append.2 ⟨List.forall_mem_append.2 ⟨hstart, ?_⟩, ?_⟩⟩
    · rcases hsign.1 with hsign | hsign <;> simp [hsign, isTargetChar]
    · exact isTargetChar_of_mem_takeWhile
  fun_cases recordAfter ['r', 'e', 'c', '['] s with
  | case1 sign body digits hdigits => exact hstray (by simp) (List.prefix_append _ _) hstart
  | case2 sign body digits hdigits more hclose magnitude offset inRange =>
      have hsign : (sign = [] ∨ sign = ['-']) ∧ sign <+: s := sign_of_offset s
      obtain ⟨hs, hchars⟩ := hsplit hsign (rfl : body = _) (rfl : digits = _)
      rw [hclose] at hs
      have hnumeral : IsNumeral digits := isNumeral_takeWhile (by rwa [List.isEmpty_iff] at hdigits)
      have hmagnitude : magnitude = decimal digits := ofDigits_eq_decimal digits
      refine reads_ranged _ (by simp) ⟨more, by simp [← hs]⟩ ?_ ?_
      · exact List.forall_mem_append.2 ⟨hchars, by simp [isTargetChar]⟩
      · dsimp only [inRange, offset]
        clear_value magnitude digits sign
        subst hmagnitude
        rcases hsign.1 with rfl | rfl
        · exact fun hrange => .record hnumeral (of_decide_eq_true hrange)
        · exact fun hrange => .back hnumeral (of_decide_eq_true hrange)
  | case3 sign body digits hdigits hclose =>
      have hsign : (sign = [] ∨ sign = ['-']) ∧ sign <+: s := sign_of_offset s
      obtain ⟨hs, hchars⟩ := hsplit hsign (rfl : body = _) (rfl : digits = _)
      exact hstray (by simp) ⟨body.drop digits.length, by simp [← hs]⟩ hchars

theorem reads_sweepAfter? (h : sweepAfter? ['s', 'w', 'e', 'e', 'p', '['] s = some l) :
    Reads l (['s', 'w', 'e', 'e', 'p', '['] ++ s) := by
  have hstart : ∀ c ∈ ['s', 'w', 'e', 'e', 'p', '['], isTargetChar c := by simp [isTargetChar]
  unfold sweepAfter? at h
  dsimp only at h
  split at h
  · cases h
  · rename_i hdigits
    split at h
    · rename_i more hclose
      have hs : s.takeWhile Char.isDigit ++ ']' :: more = s := by
        rw [← hclose, List.prefix_iff_eq_append.1 (List.takeWhile_prefix _)]
      cases h
      refine reads_ranged _ (by simp) ⟨more, ?_⟩ ?_ fun hrange => ?_
      · rw [List.append_assoc, List.append_assoc]
        exact congrArg (_ ++ ·) hs
      · simp only [List.forall_mem_append]
        exact ⟨⟨hstart, isTargetChar_of_mem_takeWhile⟩, by simp [isTargetChar]⟩
      · rw [ofDigits_eq_decimal] at hrange ⊢
        exact .sweep (isNumeral_takeWhile (by simpa using hdigits)) (of_decide_eq_true hrange)
    · cases h
      refine reads_stray (by simp) ?_ fun c hc => isSeparator_of_isTargetChar ?_
      · exact (List.prefix_append_right_inj _).2 (List.takeWhile_prefix _)
      · exact (List.forall_mem_append.2 ⟨hstart, isTargetChar_of_mem_takeWhile⟩) c hc

theorem reads_first (hc : isSeparator c = false) (rest : List Char) :
    Reads (first c rest) (c :: rest) := by
  have hstray : Reads (.stray [c]) (c :: rest) :=
    reads_stray (List.cons_ne_nil _ _) ((List.prefix_cons_inj c).2 List.nil_prefix) (by simpa using hc)
  fun_cases first c rest with
  | case1 =>
      rename_i hseparator
      rw [hc] at hseparator
      cases hseparator
  | case2 =>
      exact reads_ranged true (by simp) (by simp) (by simp [isTargetChar]) fun _ => .combiner
  | case3 =>
      cases h : quantum? ['!'] rest with
      | none => exact hstray
      | some l => exact reads_quantum? true h
  | case4 more => exact reads_recordAfter more
  | case5 more =>
      cases h : sweepAfter? ['s', 'w', 'e', 'e', 'p', '['] more with
      | none => exact hstray
      | some l => exact reads_sweepAfter? h
  | case6 =>
      cases h : quantum? [] (c :: rest) with
      | none => exact hstray
      | some l => exact reads_quantum? false h

end Lexeme

end StimOverlay
