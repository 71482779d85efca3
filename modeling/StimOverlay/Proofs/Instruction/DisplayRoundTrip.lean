import Mathlib
import StimOverlay.Proofs.Directive.WrittenDirectives
import StimOverlay.Proofs.Emission.RegroupedActions

/-! Displayed instructions. An instruction that has been read shows its name in capitals, its arguments and
its targets, each with one blank in front, so that reading it again gives the same instruction without its
tag. The numbers of targets are in range because they have been read. -/

namespace StimOverlay

open Build Numeric

namespace Text

theorem toUpper_cases (c : Char) : c.toUpper = c ∨ c.toUpper.isUpper := by
  rw [Char.isUpper_toUpper_eq_isAlpha, Char.isAlpha]
  cases h : c.isLower with
  | true => exact .inr (Bool.or_true _)
  | false => exact .inl (Char.toUpper_eq_of_not_isLower (by simp [h]))

theorem forall_getLast?_append {p : Char → Prop} {s t : List Char} (hs : ∀ c ∈ s.getLast?, p c)
    (ht : ∀ c ∈ t.getLast?, p c) : ∀ c ∈ (s ++ t).getLast?, p c := by
  intro c hc
  rw [List.getLast?_append] at hc
  rcases Option.or_eq_some_iff.1 hc with hc | ⟨-, hc⟩
  · exact ht c hc
  · exact hs c hc

/-- A capital can stand anywhere in a name. -/
theorem named_of_isUpper {c : Char} (h : c.isUpper) :
    isNameStart c ∧ isNameRest c ∧ endsName c = false := by
  have hblank := Source.not_blank_of_isUpper h
  have hopen : c ≠ '[' ∧ c ≠ '(' := by
    constructor <;>
      · rintro rfl
        cases h
  simp [isNameStart, isNameRest, endsName, Char.isAlpha, Char.isAlphanum, h, hblank, hopen]

end Text

namespace Instruction

theorem isKept_map_toUpper {name : List Char} (hname : isName name)
    (hplain : ∀ c ∈ name, Text.endsName c = false) : isKept (name.map Char.toUpper) := by
  have hstart {c : Char} (h : Text.isNameStart c) : Text.isNameStart c.toUpper := by
    rcases Text.toUpper_cases c with hc | hc
    · rwa [hc]
    · exact (Text.named_of_isUpper hc).1
  have hrest {c : Char} (h : Text.isNameRest c) : Text.isNameRest c.toUpper := by
    rcases Text.toUpper_cases c with hc | hc
    · rwa [hc]
    · exact (Text.named_of_isUpper hc).2.1
  have hends {c : Char} (h : Text.endsName c = false) : Text.endsName c.toUpper = false := by
    rcases Text.toUpper_cases c with hc | hc
    · rwa [hc]
    · exact (Text.named_of_isUpper hc).2.2
  have hisname : isName (name.map Char.toUpper) := by
    cases name with
    | nil => exact hname
    | cons c rest =>
        rw [isName, Bool.and_eq_true, List.all_eq_true] at hname
        rw [List.map_cons, isName, Bool.and_eq_true, List.all_eq_true, List.forall_mem_map]
        exact ⟨hstart hname.1, fun d hd => hrest (hname.2 d hd)⟩
  have hkept : (name.map Char.toUpper).map Char.toUpper = name.map Char.toUpper := by
    rw [List.map_map]
    exact List.map_congr_left fun c _ => Char.toUpper_toUpper_eq_toUpper c
  have hall : (name.map Char.toUpper).all (!Text.endsName ·) := by
    rw [List.all_map, List.all_eq_true]
    exact fun c hc => by simp [hends (hplain c hc)]
  rw [isKept, hisname, hkept, hall]
  simp

end Instruction

namespace Target

/-- The mark in front of an inverted target. -/
def mark (inverted : Bool) : List Char := if inverted then ['!'] else []

/-- What stands in the text of a target, digits apart. -/
def marks : List Char := ['!', '*', '-', '[', ']', 'X', 'Y', 'Z', 'r', 'e', 'c', 's', 'w', 'p']

theorem toList_text (t : Target) : t.text.toList = match t with
    | .qubit id inverted => mark inverted ++ Nat.toDigits 10 id
    | .pauli basis id inverted => mark inverted ++ basis.letter :: Nat.toDigits 10 id
    | .record offset => "rec[".toList ++ (toString offset).toList ++ [']']
    | .sweep index => "sweep[".toList ++ Nat.toDigits 10 index ++ [']']
    | .combiner => ['*'] := by
  cases t with
  | qubit id inverted => cases inverted <;> simp [text, mark]
  | pauli basis id inverted => cases inverted <;> simp [text, mark]
  | record offset =>
      have htext : (record offset).text = "rec[" ++ toString offset ++ "]" := rfl
      rw [htext, String.toList_append, String.toList_append]
      rfl
  | sweep index =>
      have htext : (sweep index).text = "sweep[" ++ toString index ++ "]" := rfl
      rw [htext]
      simp
  | combiner => rfl

theorem mem_toList_text {t : Target} {c : Char} (h : c ∈ t.text.toList) : c ∈ marks ++ digitChars := by
  have hdigit {n : Nat} (h : c ∈ Nat.toDigits 10 n) : c ∈ marks ++ digitChars :=
    List.mem_append_right _ (Instruction.digitChars_of_mem h)
  have hmark {s : List Char} (hs : s ⊆ marks) (h : c ∈ s) : c ∈ marks ++ digitChars :=
    List.mem_append_left _ (hs h)
  have hinverted (inverted : Bool) : mark inverted ⊆ marks := by cases inverted <;> decide
  rw [toList_text] at h
  cases t with
  | qubit id inverted => exact (List.mem_append.1 h).elim (hmark (hinverted _)) hdigit
  | pauli basis id inverted =>
      rcases List.mem_append.1 h with h | h
      · exact hmark (hinverted _) h
      rcases List.mem_cons.1 h with rfl | h
      · cases basis <;> decide
      · exact hdigit h
  | record offset =>
      rcases List.mem_append.1 h with h | h
      · rcases List.mem_append.1 h with h | h
        · exact hmark (by decide) h
        rcases toList_toString offset with ⟨n, -, htext⟩ | ⟨n, -, htext⟩
        · exact hdigit (htext ▸ h)
        · rcases List.mem_cons.1 (htext ▸ h) with rfl | h
          · decide
          · exact hdigit h
      · exact hmark (by decide) h
  | sweep index =>
      rcases List.mem_append.1 h with h | h
      · exact (List.mem_append.1 h).elim (hmark (by decide)) hdigit
      · exact hmark (by decide) h
  | combiner => exact hmark (by decide) h

end Target

namespace Lexeme

theorem recordAfter_toString {offset : Int} (h : Fits (.record offset)) (start rest : List Char) :
    recordAfter start ((toString offset).toList ++ ']' :: rest) =
      .target (.record offset) (start ++ (toString offset).toList ++ [']']) := by
  obtain ⟨hlow, hhigh⟩ := h
  rcases toList_toString offset with ⟨n, rfl, htext⟩ | ⟨n, rfl, htext⟩
  · have hn : n < offsetBound := Int.ofNat_lt.1 hhigh
    have hafter := recordAfter_digits (.inl rfl) start n rest
    rw [htext]
    simpa [ranged, hn] using hafter
  · have hn : n ≤ offsetBound := Int.ofNat_le.1 (Int.neg_le_neg_iff.1 hlow)
    have hafter := recordAfter_digits (.inr rfl) start n rest
    rw [htext]
    simpa [ranged, hn] using hafter

theorem sweepAfter?_digits {n : Nat} (hn : n < idBound) (start rest : List Char) :
    sweepAfter? start (Nat.toDigits 10 n ++ ']' :: rest) =
      some (.target (.sweep n) (start ++ Nat.toDigits 10 n ++ [']'])) := by
  rw [sweepAfter?_run (fun d hd => isDigit_of_mem_toDigits hd) Nat.toDigits_ne_nil,
    ofDigits_toDigits, decide_eq_true hn]
  rfl

/-- The text of a target in range is a lexeme, unless it goes on with a digit. -/
theorem first_text {t : Target} (ht : Fits t) : ∃ c s, t.text.toList = c :: s ∧
    ∀ rest : List Char, (∀ d ∈ rest.head?, d.isDigit = false) →
      first c (s ++ rest) = .target t (c :: s) := by
  rw [Target.toList_text]
  cases t with
  | qubit id inverted =>
      cases inverted with
      | true =>
          refine ⟨'!', Nat.toDigits 10 id, rfl, fun rest hrest => ?_⟩
          rw [first_mark, quantum?_digits ht _ hrest]
          rfl
      | false =>
          obtain ⟨d, ds, hdigits⟩ := List.exists_cons_of_ne_nil (@Nat.toDigits_ne_nil id 10)
          exact ⟨d, ds, hdigits, fun rest hrest => first_digit ht hdigits hrest⟩
  | pauli basis id inverted =>
      cases inverted with
      | true =>
          refine ⟨'!', basis.letter :: Nat.toDigits 10 id, rfl, fun rest hrest => ?_⟩
          rw [first_mark, List.cons_append, quantum?_letter ht _ basis hrest]
          rfl
      | false => exact ⟨basis.letter, Nat.toDigits 10 id, rfl, fun rest hrest => first_letter ht hrest⟩
  | record offset =>
      refine ⟨'r', "ec[".toList ++ (toString offset).toList ++ [']'], rfl, fun rest _ => ?_⟩
      have hafter := recordAfter_toString ht ['r', 'e', 'c', '['] rest
      generalize (toString offset).toList = number at *
      simp [first, isSeparator, Text.isAsciiBlank, hafter]
  | sweep index =>
      refine ⟨'s', "weep[".toList ++ Nat.toDigits 10 index ++ [']'], rfl, fun rest _ => ?_⟩
      have hafter := sweepAfter?_digits ht ['s', 'w', 'e', 'e', 'p', '['] rest
      simp [first, isSeparator, Text.isAsciiBlank, hafter]
  | combiner => exact ⟨'*', [], rfl, fun rest _ => rfl⟩

theorem exists_first {skip : Nat} {s : List Char} {l : Lexeme} (h : l ∈ scanAfter skip s) :
    ∃ c rest, l = first c rest := by
  induction s generalizing skip with
  | nil => cases skip <;> cases h
  | cons c s ih =>
      cases skip with
      | succ skip => exact ih h
      | zero =>
          rw [scanAfter] at h
          rcases List.mem_cons.1 h with h | h
          · exact ⟨c, s, h⟩
          · exact ih h

end Lexeme

namespace Instruction

variable {t : Target} {ts : List Target}

theorem fits_of_readTargets {s : List Char} (h : readTargets s = .ok ts) : ∀ t ∈ ts, Lexeme.Fits t := by
  intro t ht
  obtain ⟨⟨text, hmem⟩, -⟩ := mem_of_collectTargets (collected_of_readTargets h).1 t ht
  obtain ⟨c, rest, hfirst⟩ := Lexeme.exists_first hmem
  exact ((Lexeme.starts_first c rest).target t text hfirst.symm).1

/-- A character of displayed targets. -/
def isShown (c : Char) : Bool := (' ' :: Target.marks ++ digitChars).contains c

theorem ne_of_isShown {c : Char} (h : isShown c) : c ≠ '#' ∧ c ≠ '(' := by
  have hall : ∀ c ∈ ' ' :: Target.marks ++ digitChars, c ≠ '#' ∧ c ≠ '(' :=
    List.all_iff_forall_prop.1 (by decide)
  exact hall c (List.contains_iff_mem.1 h)

/-- The text of a target that has been read is a word that is read as the target. -/
theorem word_text (ht : Lexeme.Fits t) (hrange : ∀ q, t.qubit? = some q → q ≤ maxQubitId) :
    Word isShown (t.text.toList, [t]) := by
  obtain ⟨c, s, htext, hfirst⟩ := Lexeme.first_text ht
  have hplain : ∀ c ∈ Target.marks ++ digitChars, Text.isBlank c = false ∧ c ≠ ',' ∧ isShown c :=
    List.all_iff_forall_prop.1 (by decide)
  refine .of_subset hplain (by rw [htext]; exact List.cons_ne_nil _ _)
    (fun _ => Target.mem_toList_text) ?_
  rw [htext]
  exact readsAs_of_first hfirst hrange

/-- The targets as they are displayed: with a blank in front, if there are any. -/
def shownTargets : List Target → List Char
  | [] => []
  | t :: ts => ' ' :: sentence ((t :: ts).map fun t => (t.text.toList, [t]))

/-- What is known of targets that are displayed behind a name or arguments. -/
structure Shown (ts : List Target) : Prop where
  reads : readTargets (Text.trim (shownTargets ts)) = .ok ts
  start : ∀ c ∈ (shownTargets ts).head?, c = ' '
  chars : ∀ c ∈ shownTargets ts, isShown c
  last : ∀ c ∈ (shownTargets ts).getLast?, Text.isBlank c = false

theorem Shown.not_hash (h : Shown ts) : '#' ∉ shownTargets ts :=
  fun hmem => (ne_of_isShown (h.chars _ hmem)).1 rfl

theorem shown_of_readTargets {s : List Char} (h : readTargets s = .ok ts) : Shown ts := by
  cases ts with
  | nil => exact ⟨by decide, by simp [shownTargets], by simp [shownTargets], by simp [shownTargets]⟩
  | cons t ts =>
      let words := (t :: ts).map fun t => (t.text.toList, [t])
      have hwords : ∀ w ∈ words, Word isShown w := by
        intro w hw
        obtain ⟨u, hu, rfl⟩ := List.mem_map.1 hw
        exact word_text (fits_of_readTargets h u hu) (readTargets_le h u hu)
      have htargets : words.flatMap (·.2) = t :: ts := by
        rw [List.flatMap_map]
        exact List.flatMap_singleton' _
      have hspaced : Spaced (words.flatMap (·.2)) := by
        rw [htargets]
        exact spaced_of_readTargets h
      obtain ⟨hhead, hlast⟩ := sentence_ends hwords
      have hreads : readTargets (Text.trim (' ' :: sentence words)) = .ok (t :: ts) := by
        rw [trim_blank, Source.trim_eq_self hhead hlast, readTargets_sentence hwords hspaced, htargets]
      refine ⟨hreads, fun c hc => (Option.some.inj hc).symm, fun c hc => ?_, fun c hc => ?_⟩
      · rcases List.mem_cons.1 hc with rfl | hc
        · decide
        · exact chars_sentence rfl hwords c hc
      · rw [shownTargets, ← List.singleton_append,
          List.getLast?_append_of_ne_nil _ (sentence_ne_nil hwords (by simp [words]))] at hc
        exact hlast c hc

/-- The arguments as they are displayed, if there are any. -/
def shownArgs : List Binary64 → List Char
  | [] => []
  | x :: xs => '(' :: ([',', ' '].intercalate ((x :: xs).map (·.text.toList)) ++ [')'])

theorem toList_text (i : Instruction) :
    i.text.toList = i.name.toList ++ (shownArgs i.args ++ shownTargets i.targets) := by
  obtain ⟨name, tag, args, targets⟩ := i
  have hargs : (if args.isEmpty then ""
      else "(" ++ String.intercalate ", " (args.map Binary.text) ++ ")").toList = shownArgs args := by
    cases args with
    | nil => rfl
    | cons x xs =>
        rw [List.isEmpty_cons, if_neg (by decide), String.toList_append, String.toList_append,
          String.toList_intercalate, List.map_map]
        rfl
  have htargets : (if targets.isEmpty then ""
      else " " ++ String.intercalate " " (targets.map Target.text)).toList = shownTargets targets := by
    cases targets with
    | nil => rfl
    | cons t ts =>
        rw [List.isEmpty_cons, if_neg (by decide), String.toList_append, String.toList_intercalate,
          List.map_map, shownTargets, sentence, List.map_map]
        rfl
  rw [text, String.toList_append, String.toList_append, hargs, ← htargets, List.append_assoc]
  rfl

theorem readArguments_shownTargets (h : Shown ts) (line : List Char) :
    readArguments line (shownTargets ts) = .ok ([], shownTargets ts) := by
  have hparenthesis (more : List Char) : Text.trimStart (shownTargets ts) ≠ '(' :: more := by
    intro heq
    have hmem : '(' ∈ shownTargets ts :=
      (List.dropWhile_suffix _).subset (heq ▸ List.mem_cons_self)
    exact (ne_of_isShown (h.chars _ hmem)).2 rfl
  have hblank : (shownTargets ts).head?.all Text.isBlank := by
    rw [Option.all_eq_true]
    intro c hc
    rw [h.start c hc]
    rfl
  unfold readArguments
  split
  · rename_i more heq
    exact absurd heq (hparenthesis more)
  · rw [if_pos hblank]

theorem trim_of_isKept {name tail : List Char} (hname : isKept name)
    (hlast : ∀ c ∈ tail.getLast?, Text.isBlank c = false) : Text.trim (name ++ tail) = name ++ tail := by
  simp only [isKept, Bool.and_eq_true, List.all_eq_true, beq_iff_eq] at hname
  obtain ⟨⟨hisname, hplain⟩, -⟩ := hname
  have hblank {c : Char} (hc : c ∈ name) : Text.isBlank c = false := by
    have hends := hplain c hc
    simp only [Text.endsName, Bool.not_eq_true', Bool.or_eq_false_iff] at hends
    exact hends.2
  have hne : name ≠ [] := by
    rintro rfl
    cases hisname
  refine Source.trim_eq_self (fun c hc => ?_)
    (Text.forall_getLast?_append (fun c hc => hblank (List.mem_of_getLast? hc)) hlast)
  rw [List.head?_append_of_ne_nil _ hne] at hc
  exact hblank (List.mem_of_head? hc)

/-- A name with targets behind it is read. -/
theorem read_shownTargets {name : List Char} (hname : isKept name) (h : Shown ts) :
    read (name ++ shownTargets ts) = .ok ⟨String.ofList name, "", [], ts⟩ := by
  have hends : ∀ c ∈ (shownTargets ts).head?, Text.endsName c ∧ c ≠ '[' := fun c hc => by
    rw [h.start c hc]
    decide
  exact read_eq hname hends h.not_hash (trim_of_isKept hname h.last) (readArguments_shownTargets h _) h.reads

/-- So it is with arguments in between. -/
theorem read_shownArgs {name : List Char} (hname : isKept name) {x : Binary64} {xs : List Binary64}
    (hfinite : ∀ y ∈ x :: xs, y.isFinite) (h : Shown ts) :
    read (name ++ (shownArgs (x :: xs) ++ shownTargets ts)) =
      .ok ⟨String.ofList name, "", x :: xs, ts⟩ := by
  let numerals := (x :: xs).map fun y => (y.text.toList, y)
  have hnumerals : ∀ p ∈ numerals, IsNumeral p.1 p.2 := by
    intro p hp
    obtain ⟨y, hy, rfl⟩ := List.mem_map.1 hp
    exact isNumeral_text (hfinite y hy)
  have hinside : [',', ' '].intercalate ((x :: xs).map (·.text.toList)) =
      [',', ' '].intercalate (numerals.map (·.1)) := by
    rw [List.map_map]
    rfl
  have hvalues : numerals.map (·.2) = x :: xs := by
    rw [List.map_map]
    exact List.map_id' _
  have hlast (inside : List Char) : ∀ c ∈ ('(' :: (inside ++ ')' :: shownTargets ts)).getLast?,
      Text.isBlank c = false := by
    have hsplit : '(' :: (inside ++ ')' :: shownTargets ts) =
        '(' :: inside ++ [')'] ++ shownTargets ts := by simp
    rw [hsplit]
    refine Text.forall_getLast?_append (fun c hc => ?_) h.last
    rw [List.getLast?_concat] at hc
    rw [← Option.some.inj hc]
    rfl
  rw [shownArgs, List.cons_append, List.append_assoc, List.singleton_append,
    read_called hname (.inr rfl) hnumerals hinside h.not_hash (trim_of_isKept hname (hlast _)) h.reads,
    hvalues]

/-- **An instruction is displayed as it is read**: the text of an instruction that has been read is read as
the same instruction without its tag. -/
theorem read_text_of_read {source : List Char} {i : Instruction} (h : read source = .ok i) :
    read i.text.toList = .ok { i with tag := "" } := by
  obtain ⟨line, name, rest, after, htake, hisname, hname, -, htargets⟩ := pieces_of_read h
  have hplain : ∀ c ∈ name, Text.endsName c = false := fun c hc => by
    rw [← htake] at hc
    simpa using List.mem_takeWhile_imp hc
  have hkept : isKept i.name.toList := by
    rw [hname, String.toList_ofList]
    exact isKept_map_toUpper hisname hplain
  have hshown := shown_of_readTargets htargets
  have hfinite := finite_of_read h
  rw [toList_text]
  obtain ⟨kept, tag, args, targets⟩ := i
  cases args with
  | nil => rw [shownArgs, List.nil_append, read_shownTargets hkept hshown, String.ofList_toList]
  | cons x xs => rw [read_shownArgs hkept hfinite hshown, String.ofList_toList]

/-- A line with every kind of target, an escape in its tag, empty arguments and a comment. -/
theorem read_text_of_read_mixed :
    ∃ i, read "mPp_x[a\\C](1e-1, ,-0,)!x3*Y4,rec[-0] rec[7],sweep[9]!12 # end".toList = .ok i ∧
      i.text = "MPP_X(0.1, -0) !X3 * Y4 rec[0] rec[7] sweep[9] !12" ∧ i.tag = "a]" ∧
      read i.text.toList = .ok { i with tag := "" } := by
  let line := "mPp_x[a\\C](1e-1, ,-0,)!x3*Y4,rec[-0] rec[7],sweep[9]!12 # end".toList
  have hshown : (read line).toOption.any fun i =>
      i.text = "MPP_X(0.1, -0) !X3 * Y4 rec[0] rec[7] sweep[9] !12" ∧ i.tag = "a]" := by
    decide +kernel
  cases h : read line with
  | error fault =>
      rw [h] at hshown
      cases hshown
  | ok i =>
      rw [h] at hshown
      obtain ⟨htext, htag⟩ := of_decide_eq_true hshown
      exact ⟨i, rfl, htext, htag, read_text_of_read h⟩

end Instruction

end StimOverlay
