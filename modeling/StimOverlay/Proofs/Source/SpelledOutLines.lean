import StimOverlay.Proofs.Instruction.AllowedCharacters
import StimOverlay.Proofs.Instruction.GateNames
import StimOverlay.Proofs.Source.CompactText
import StimOverlay.Proofs.Source.NormalLines

/-! Lines that are spelled out in full already. What stands behind the name of a line that is read has
none of the letters that the shorthand replaces, so normalizing the line amounts to spelling out its
name. Most names come out as they are; those with an underscore that no rule puts back are torn apart,
and their lines are refused. -/

namespace StimOverlay

open Build Instruction

namespace Text

theorem replace_of_not_infix {old new s : List Char} (h : ¬old <:+: s) :
    replace old new s = s := by
  induction s with
  | nil => rfl
  | cons c s ih =>
      have hno : ¬old.isPrefixOf (c :: s) = true := fun hstart =>
        h (List.isPrefixOf_iff_prefix.1 hstart).isInfix
      have ih := ih fun hs => h (hs.trans (List.suffix_cons c s).isInfix)
      rw [replace] at ih ⊢
      rw [replaceAfter, if_neg hno, ih]

theorem replaceEach_of_not_infix {rules : List (String × String)} {s : List Char}
    (h : ∀ rule ∈ rules, ¬rule.1.toList <:+: s) : replaceEach rules s = s := by
  induction rules with
  | nil => rfl
  | cons rule rules ih =>
      rw [replaceEach, List.foldl_cons, replace_of_not_infix (h rule List.mem_cons_self)]
      exact ih fun r hr => h r (List.mem_cons_of_mem _ hr)

theorem splitAfter_of_first {p : Char → Bool} {s : List Char} (h : ∀ c ∈ s, p c = false)
    {c : Char} (hc : p c) (rest : List Char) : splitAfter p (s ++ c :: rest) = (s ++ [c], rest) := by
  induction s with
  | nil => simp [splitAfter, hc]
  | cons d s ih =>
      have ih := ih fun e he => h e (List.mem_cons_of_mem _ he)
      simp [splitAfter, h d List.mem_cons_self, ih]

theorem splitAfter_of_none {p : Char → Bool} {s : List Char} (h : ∀ c ∈ s, p c = false) :
    splitAfter p s = (s, []) := by
  induction s with
  | nil => rfl
  | cons d s ih =>
      have ih := ih fun e he => h e (List.mem_cons_of_mem _ he)
      simp [splitAfter, h d List.mem_cons_self, ih]

end Text

namespace Source

/-- The names that the standard table knows and the names of the instructions that are built in. -/
def knownNames : List String :=
  tickName :: coordinatesName :: Gate.productFamilies ++
    Gate.standard.map Gate.name ++ Alias.standard.map (·.1)

/-- The names with an underscore that no rule puts back. -/
def brokenNames : List String := ["PAULI_CHANNEL_1", "PAULI_CHANNEL_2", "ELSE_CORRELATED_ERROR"]

/-- Whether normalization tears a name apart in front of a text. -/
def isTorn (name : String) (rest : List Char) : Bool :=
  brokenNames.contains name ||
    ("_DAG".toList.isSuffixOf name.toList && rest.head? != some ' ')

/-- A name that ends in front of a blank and a letter that no target starts with. -/
def isSevered (s : List Char) : Bool :=
  let stem := s.takeWhile (· != ' ')
  isKept stem && !s.contains '#' && ['C', 'D'].any fun c => (stem ++ [' ', c]).isPrefixOf s

theorem plain_of_isKept {name : List Char} (h : isKept name) {c : Char} (hc : c ∈ name) :
    c ≠ ';' ∧ c ≠ '#' ∧ c ≠ '\n' := by
  simp only [isKept, Bool.and_eq_true, List.all_eq_true] at h
  have hrest : Text.isNameRest c := by
    cases name with
    | nil => cases hc
    | cons d name =>
        have hname := h.1.1
        rw [isName, Bool.and_eq_true, List.all_eq_true] at hname
        rcases List.mem_cons.1 hc with rfl | hc
        · have hstart := hname.1
          simp only [Text.isNameStart, Bool.or_eq_true] at hstart
          simp only [Text.isNameRest, Char.isAlphanum, Bool.or_eq_true]
          exact hstart.imp_left .inl
        · exact hname.2 c hc
  refine ⟨?_, ?_, ?_⟩ <;>
    · rintro rfl
      cases hrest

theorem isTorn_of_ne_blank {name : String} {rest : List Char} (h : rest.head? ≠ some ' ') :
    isTorn name rest = isTorn name [] := by
  have hhead : (rest.head? != some ' ') = true := bne_iff_ne.2 h
  rw [isTorn, isTorn, hhead]
  rfl

theorem known_upper : ∀ name ∈ knownNames,
    isKept name.toList && name.toList.head?.any Char.isUpper := by
  decide +kernel

theorem exists_upper_of_known {name : String} (h : name ∈ knownNames) :
    isKept name.toList ∧ ∃ c more, name.toList = c :: more ∧ c.isUpper := by
  have hknown := known_upper name h
  rw [Bool.and_eq_true, Option.any_eq_true] at hknown
  obtain ⟨hkept, c, hc, hupper⟩ := hknown
  obtain ⟨more, hmore⟩ := List.head?_eq_some_iff.1 hc
  exact ⟨hkept, c, more, hmore, hupper⟩

/-- What becomes of a name in front of a blank or of another end. -/
theorem spellOut_known : ∀ name ∈ knownNames, ∀ front ∈ [[], [' ']],
    if isTorn name front then isSevered (spellOut (name.toList ++ front))
    else spellOut (name.toList ++ front) = name.toList ++ front := by
  decide +kernel

/-- The only rule with a parenthesis reaches into no arguments. -/
theorem first_rule_known : ∀ name ∈ knownNames,
    let head := name.toList.map fun c => if c == '_' then ' ' else c
    Text.eachContained isRead (shorthand.take 1) (head ++ ['(']) ∧
      Text.replaceEach (shorthand.take 1) (head ++ ['(']) = head ++ ['('] ∧
      Text.replaceEach (shorthand.take 1) head = head := by
  decide +kernel

/-- No rule reaches from a name over a blank into targets, except for one name. -/
theorem contained_known : ∀ name ∈ knownNames, name ≠ "H" →
    Text.eachContained isRead shorthand
      ((name.toList ++ [' ']).map fun c => if c == '_' then ' ' else c) := by
  decide +kernel

theorem underscore_notMem {s : List Char} (h : ∀ c ∈ s, isRead c) : '_' ∉ s := fun hmem =>
  absurd (h '_' hmem) (by decide)

/-- Every rule replaces something that is not read behind a name. -/
theorem exists_unread : ∀ rule ∈ shorthand, rule.1.toList.any (!isRead ·) := by decide

theorem not_infix_of_isRead {s : List Char} (h : ∀ c ∈ s, isRead c) {rule : String × String}
    (hrule : rule ∈ shorthand) : ¬rule.1.toList <:+: s := by
  intro hin
  obtain ⟨c, hc, hread⟩ := List.any_eq_true.1 (exists_unread rule hrule)
  rw [h c (hin.subset hc)] at hread
  cases hread

theorem replaceEach_of_isRead {rules : List (String × String)} (hrules : rules ⊆ shorthand)
    {s : List Char} (h : ∀ c ∈ s, isRead c) : Text.replaceEach rules s = s :=
  Text.replaceEach_of_not_infix fun _ hrule => not_infix_of_isRead h (hrules hrule)

theorem spellOut_of_isRead {s : List Char} (h : ∀ c ∈ s, isRead c) : spellOut s = s := by
  rw [spellOut, map_of_underscore_notMem (underscore_notMem h),
    replaceEach_of_isRead (List.Subset.refl _) h]

/-- Two letters of Pauli targets in a row are not read. -/
theorem not_accepts_letters {b d : Char} (hb : b = 'X' ∨ b = 'Y') (hd : d = 'Y' ∨ d = 'Z')
    (rest : List Char) : ¬Accepts (' ' :: b :: d :: rest) := by
  rintro ⟨line, args, targets, ts, hargs, htargets⟩
  have hblank {c : Char} (hc : c = 'X' ∨ c = 'Y' ∨ c = 'Z') : Text.isBlank c = false := by
    rcases hc with rfl | rfl | rfl <;> decide
  have hparenthesis : b ≠ '(' := by rcases hb with rfl | rfl <;> decide
  have hend : Text.trimEnd (' ' :: b :: d :: rest) = ' ' :: b :: d :: Text.trimEnd rest := by
    refine Text.trimEnd_append (s := [' ', b, d]) ?_ rest
    rintro c ⟨⟩
    exact hblank (.inr hd)
  have hfirst : Lexeme.first b (Text.trimEnd (d :: Text.trimEnd rest)) = .stray [b] := by
    have hend : Text.trimEnd (d :: Text.trimEnd rest) = d :: Text.trimEnd (Text.trimEnd rest) := by
      refine Text.trimEnd_append (s := [d]) ?_ _
      rintro c ⟨⟩
      exact hblank (.inr hd)
    rw [hend]
    rcases hb with rfl | rfl <;> rcases hd with rfl | rfl <;>
      simp [Lexeme.first, Lexeme.isSeparator, Text.isAsciiBlank, Lexeme.quantum?]
  have hb' := hblank (hb.imp_right .inl)
  rw [hend, readArguments_blank hb' hparenthesis] at hargs
  cases hargs
  rw [readTargets_stray hb' hfirst] at htargets
  cases htargets

/-- What the rules that start with the letter `H` replace behind it. -/
theorem after_h : ∀ rule ∈ shorthand, rule.1.toList.head? = some 'H' →
    rule.1.toList.tail.all isRead →
      rule.1.toList.tail ∈ [[' ', 'X', 'Y'], [' ', 'X', 'Z'], [' ', 'Y', 'Z']] := by
  decide

/-- No rule replaces anything in a line that starts with `H`. -/
theorem spellOut_h {rest : List Char} (h : Accepts (' ' :: rest)) :
    spellOut ('H' :: ' ' :: rest) = 'H' :: ' ' :: rest := by
  have hread := isRead_of_accepts h
  have hmap : ('H' :: ' ' :: rest).map (fun c => if c == '_' then ' ' else c) =
      'H' :: ' ' :: rest := by
    rw [List.map_cons, map_of_underscore_notMem (underscore_notMem hread)]
    rfl
  rw [spellOut, hmap]
  refine Text.replaceEach_of_not_infix fun rule hrule hin => ?_
  rcases List.infix_cons_iff.1 hin with hstart | hin
  · cases hold : rule.1.toList with
    | nil =>
        have hunread := exists_unread rule hrule
        rw [hold] at hunread
        cases hunread
    | cons c old =>
        rw [hold, List.cons_prefix_cons] at hstart
        obtain ⟨rfl, hstart⟩ := hstart
        have hall : rule.1.toList.tail.all isRead := by
          rw [hold, List.all_eq_true]
          exact fun c hc => hread c (hstart.subset hc)
        have hcases := after_h rule hrule (by rw [hold]; rfl) hall
        rw [hold, List.tail_cons] at hcases
        obtain ⟨more, hmore⟩ := hstart
        obtain ⟨b, d, rfl, hb, hd⟩ : ∃ b d, old = [' ', b, d] ∧ (b = 'X' ∨ b = 'Y') ∧
            (d = 'Y' ∨ d = 'Z') := by
          simp only [List.mem_cons, List.not_mem_nil, or_false] at hcases
          rcases hcases with rfl | rfl | rfl <;> simp
        rw [← hmore] at h
        exact not_accepts_letters hb hd more h
  · exact not_infix_of_isRead hread hrule hin

variable {name : String} {rest : List Char}

theorem normalize_undropped {s : List Char} (hne : s ≠ []) (h : ∀ c ∈ s, c ≠ ';' ∧ c ≠ '\n')
    (hdrop : dropPragmas s = s) : normalize s = [normalizeLine s] := by
  have hmap : s.map (fun c => if c == ';' then '\n' else c) = s := by
    refine (List.map_congr_left fun c hc => ?_).trans (List.map_id' s)
    simp [(h c hc).1]
  have hlines : Text.lines s = [s] := by
    have hsplit : Text.splitWhere (· == '\n') s = [s] :=
      Text.splitWhere_of_none fun c hc => by simpa using (h c hc).2
    obtain ⟨c, rest, rfl⟩ := List.exists_cons_of_ne_nil hne
    rw [Text.lines, hsplit]
    rfl
  rw [normalize, hmap, hdrop, hlines, List.map_singleton]

theorem normalize_single {s : List Char} (hne : s ≠ [])
    (h : ∀ c ∈ s, c ≠ ';' ∧ c ≠ '#' ∧ c ≠ '\n') : normalize s = [normalizeLine s] :=
  normalize_undropped hne (fun c hc => ⟨(h c hc).1, (h c hc).2.2⟩)
    (dropPragmas_eq_self fun hmem => (h _ hmem).2.1 rfl)

theorem normalizeLine_tagged {c : Char} {name raw : List Char} (hc : c.isUpper)
    (hname : ∀ d ∈ c :: name, Text.endsName d = false) (hraw : ']' ∉ raw) (after : List Char) :
    normalizeLine (c :: name ++ '[' :: (raw ++ ']' :: after)) =
      spellOut (c :: name) ++ '[' :: (raw ++ ']' :: spellOut after) := by
  have hblank := not_blank_of_isUpper hc
  have hstart : Text.trimStart (c :: name ++ '[' :: (raw ++ ']' :: after)) =
      c :: name ++ '[' :: (raw ++ ']' :: after) := by
    rw [Text.trimStart, List.cons_append, List.dropWhile_cons_of_neg (by simp [hblank])]
  have hhash : isHashLine (c :: name ++ '[' :: (raw ++ ']' :: after)) = false := by
    rw [isHashLine, hstart, Text.startsWith, List.cons_append, List.isPrefixOf_cons_cons,
      beq_eq_false_iff_ne.2 (ne_hash_of_isUpper hc).symm, Bool.false_and]
  have hindent : (c :: name ++ '[' :: (raw ++ ']' :: after)).takeWhile Text.isBlank = [] := by
    rw [List.cons_append, List.takeWhile_cons_of_neg (by simp [hblank])]
  have hplain : ∀ d ∈ c :: name, (!Text.endsName d) = true := fun d hd => by simp [hname d hd]
  have hsplit : Text.splitAfter (· == ']') ('[' :: (raw ++ ']' :: after)) =
      ('[' :: raw ++ [']'], after) := by
    refine Text.splitAfter_of_first (s := '[' :: raw) (fun d hd => ?_) rfl after
    rw [beq_eq_false_iff_ne]
    rintro rfl
    rcases List.mem_cons.1 hd with hd | hd
    · cases hd
    · exact hraw hd
  have hcut : cutTag? (c :: name ++ '[' :: (raw ++ ']' :: after)) =
      some (c :: name, '[' :: raw ++ [']'], after) := by
    unfold cutTag?
    rw [hstart, hindent]
    dsimp only
    rw [List.takeWhile_append_of_pos hplain, List.dropWhile_append_of_pos hplain,
      List.takeWhile_cons_of_neg (by decide), List.dropWhile_cons_of_neg (by decide)]
    simp [hsplit]
  rw [normalizeLine, hhash, if_neg (by decide), normalizeInstruction, hcut]
  simp

/-- A name without a blank behind it is spelled out apart from what follows. -/
theorem spellOut_unspaced (hname : name ∈ knownNames) {c : Char} (hends : Text.endsName c)
    (hbracket : c ≠ '[') (hspace : c ≠ ' ') (hread : ∀ d ∈ rest, isRead d) :
    spellOut (name.toList ++ c :: rest) = spellOut name.toList ++ c :: rest := by
  let head := name.toList.map fun c => if c == '_' then ' ' else c
  obtain ⟨hcontained, hparenthesis, hfirst⟩ := first_rule_known name hname
  have hc : c = '(' ∨ Text.isBlank c := by
    simp only [Text.endsName, Bool.or_eq_true, beq_iff_eq] at hends
    exact hends.imp_left fun h => h.resolve_left hbracket
  have hunderscore : (c == '_') = false := by
    rcases hc with rfl | hc
    · rfl
    · rw [beq_eq_false_iff_ne]
      rintro rfl
      cases hc
  have hmap : (name.toList ++ c :: rest).map (fun c => if c == '_' then ' ' else c) =
      head ++ c :: rest := by
    rw [List.map_append, List.map_cons, map_of_underscore_notMem (underscore_notMem hread),
      hunderscore]
    rfl
  have hsplit (s : List Char) : Text.replaceEach shorthand s =
      Text.replaceEach (shorthand.drop 1) (Text.replaceEach (shorthand.take 1) s) := by
    rw [Text.replaceEach, Text.replaceEach, Text.replaceEach, ← List.foldl_append,
      List.take_append_drop]
  have hmore : ∀ rule ∈ shorthand.drop 1, '(' ∉ rule.1.toList ∧ rule.1.toList ≠ [] := by
    decide
  have hall : ∀ rule ∈ shorthand, rule.1.toList ≠ [] ∧
      rule.1.toList.all (fun d => d == ' ' || !Text.isBlank d) := by
    decide
  have hdrop : Text.replaceEach (shorthand.drop 1) rest = rest :=
    replaceEach_of_isRead (List.drop_subset _ _) hread
  have hname : spellOut name.toList = Text.replaceEach (shorthand.drop 1) head := by
    rw [spellOut, hsplit, hfirst]
  rw [spellOut, hmap, hname]
  rcases hc with rfl | hc
  · have happend : Text.replaceEach (shorthand.take 1) (head ++ '(' :: rest) =
        head ++ '(' :: rest := by
      have happend := Text.replaceEach_append hcontained hread
      rwa [hparenthesis, List.append_assoc, List.singleton_append] at happend
    rw [hsplit, happend, Text.replaceEach_separator hmore, hdrop]
  · have hrules : ∀ rule ∈ shorthand, c ∉ rule.1.toList ∧ rule.1.toList ≠ [] := by
      intro rule hrule
      obtain ⟨hne, hchars⟩ := hall rule hrule
      refine ⟨fun hmem => ?_, hne⟩
      have hmem := List.all_eq_true.1 hchars c hmem
      simp [hspace, hc] at hmem
    rw [Text.replaceEach_separator hrules, hsplit, hfirst,
      replaceEach_of_isRead (List.Subset.refl _) hread]

theorem spellOut_spaced (hname : name ∈ knownNames) (h : Accepts (' ' :: rest)) :
    spellOut (name.toList ++ ' ' :: rest) = spellOut (name.toList ++ [' ']) ++ rest := by
  have hread : ∀ c ∈ rest, isRead c := fun c hc => isRead_of_accepts h c (List.mem_cons_of_mem _ hc)
  by_cases hletter : name = "H"
  · subst hletter
    have hspelled : spellOut ("H".toList ++ [' ']) = ['H', ' '] := by decide
    rw [hspelled]
    exact spellOut_h h
  · have happend :=
      spellOut_append (p := isRead) (by decide) (contained_known name hname hletter) hread
    simpa using happend

/-- A line with a known name is spelled out in its name only. -/
theorem normalizeLine_known (hname : name ∈ knownNames) {i : Instruction}
    (hends : ∀ c ∈ rest.head?, Text.endsName c) (hhash : '#' ∉ rest)
    (hread : read (name.toList ++ rest) = .ok i) :
    ∃ front back, rest = front ++ back ∧ front ∈ [[], [' ']] ∧
      isTorn name rest = isTorn name front ∧
      normalizeLine (name.toList ++ rest) = spellOut (name.toList ++ front) ++ back := by
  obtain ⟨hkept, c, more, hmore, hupper⟩ := exists_upper_of_known hname
  have hplain : ∀ d ∈ name.toList, Text.endsName d = false := by
    simp only [isKept, Bool.and_eq_true, List.all_eq_true] at hkept
    exact fun d hd => by simpa using hkept.1.2 d hd
  have huntagged (htag : ∀ d ∈ rest.head?, d ≠ '[') :
      normalizeLine (name.toList ++ rest) = spellOut (name.toList ++ rest) := by
    rw [hmore, List.cons_append]
    refine normalizeLine_eq_spellOut hupper ?_
    rw [← List.cons_append, ← hmore,
      List.dropWhile_append_of_pos fun d hd => by simp [hplain d hd]]
    intro d hd
    cases rest with
    | nil => cases hd
    | cons e rest =>
        rw [List.dropWhile_cons_of_neg (by simp [hends e rfl])] at hd
        exact htag d hd
  rcases exists_accepts hkept hends hhash hread with
    ⟨haccepts, hbracket⟩ | ⟨raw, after, rfl, hraw, haccepts⟩
  · cases rest with
    | nil =>
        refine ⟨[], [], rfl, by simp, rfl, ?_⟩
        rw [huntagged hbracket, List.append_nil, List.append_nil]
    | cons d rest =>
        have hrest : ∀ e ∈ rest, isRead e := fun e he =>
          isRead_of_accepts haccepts e (List.mem_cons_of_mem _ he)
        by_cases hspace : d = ' '
        · subst hspace
          refine ⟨[' '], rest, rfl, by simp, rfl, ?_⟩
          rw [huntagged hbracket, spellOut_spaced hname haccepts]
        · refine ⟨[], d :: rest, rfl, by simp, isTorn_of_ne_blank (by simpa using hspace), ?_⟩
          rw [huntagged hbracket, List.append_nil,
            spellOut_unspaced hname (hends d rfl) (hbracket d rfl) hspace hrest]
  · refine ⟨[], _, rfl, by simp, isTorn_of_ne_blank (by simp), ?_⟩
    rw [hmore] at hplain ⊢
    rw [normalizeLine_tagged hupper hplain hraw, spellOut_of_isRead (isRead_of_accepts haccepts),
      List.append_nil]

/-- A severed name is refused for the letter behind the blank. -/
theorem read_severed {s : List Char} (h : isSevered s) (hhash : '#' ∉ rest) :
    ∃ t, read (s ++ rest) = .error (.badTarget t) := by
  simp only [isSevered, Bool.and_eq_true, Bool.not_eq_true', List.any_eq_true] at h
  obtain ⟨⟨hkept, hplain⟩, c, hc, hstart⟩ := h
  generalize s.takeWhile (· != ' ') = stem at *
  obtain ⟨more, rfl⟩ := List.isPrefixOf_iff_prefix.1 hstart
  have hstray : c = 'C' ∨ c = 'D' := by simpa using hc
  have hupper : c.isUpper := by rcases hstray with rfl | rfl <;> rfl
  have hblank : Text.isBlank c = false := not_blank_of_isUpper hupper
  have hfirst : ∃ d stem', stem = d :: stem' ∧ Text.isBlank d = false := by
    simp only [isKept, Bool.and_eq_true, List.all_eq_true] at hkept
    cases stem with
    | nil => cases hkept.1.1
    | cons d stem =>
        have hd := hkept.1.2 d List.mem_cons_self
        simp only [Text.endsName, Bool.not_eq_true', Bool.or_eq_false_iff] at hd
        exact ⟨d, stem, rfl, hd.2⟩
  have htrim : Text.trim (stem ++ [' ', c] ++ more ++ rest) =
      stem ++ ' ' :: c :: Text.trimEnd (more ++ rest) := by
    obtain ⟨d, stem, rfl, hd⟩ := hfirst
    have hlast : ∀ e ∈ (d :: stem ++ [' ', c]).getLast?, Text.isBlank e = false := by
      rw [List.getLast?_append]
      rintro e ⟨⟩
      exact hblank
    have hend := Text.trimEnd_append hlast (more ++ rest)
    rw [Text.trim, Text.trimStart, List.append_assoc (_ ++ _), List.cons_append, List.cons_append,
      List.dropWhile_cons_of_neg (by simp [hd])]
    simpa using hend
  have hhash : '#' ∉ ' ' :: c :: Text.trimEnd (more ++ rest) := by
    have hmore : '#' ∉ more := by
      rw [List.contains_eq_mem, decide_eq_false_iff_not] at hplain
      exact fun hmem => hplain (List.mem_append_right _ hmem)
    simp only [List.mem_cons, not_or]
    refine ⟨by decide, fun hc => ?_, fun hmem => ?_⟩
    · rcases hstray with rfl | rfl <;> cases hc
    · rcases List.mem_append.1 ((Text.trimEnd_prefix _).subset hmem) with hmem | hmem
      · exact hmore hmem
      · exact hhash hmem
  have htwice := Text.trim_trim (stem ++ [' ', c] ++ more ++ rest)
  rw [htrim] at htwice
  rw [← read_trim, htrim]
  exact ⟨_, read_stray hkept (Lexeme.first_stray hstray) hupper hhash htwice⟩

/-- A name is known if the standard table has a gate or an alias of this name, or if its instruction is
built in. -/
def IsKnown (name : String) : Prop :=
  (Context.standard.catalog.gate? name).isSome ∨ (Context.standard.catalog.alias? name).isSome ∨
    name ∈ tickName :: coordinatesName :: Gate.productFamilies

theorem mem_knownNames (h : IsKnown name) : name ∈ knownNames := by
  rcases h with h | h | h
  · obtain ⟨g, hg⟩ := Option.isSome_iff_exists.1 h
    rw [← gate?_standard_name hg]
    have hfind : Gate.standard.find? (·.name == name) = some g := hg
    refine List.mem_append_left _ (List.mem_append_right _ (List.mem_map_of_mem ?_))
    exact List.mem_of_find?_eq_some hfind
  · obtain ⟨a, ha⟩ := Option.isSome_iff_exists.1 h
    have hfind : (Alias.standard.find? (·.1 == name)).map (·.2) = some a := ha
    obtain ⟨e, he, -⟩ := Option.map_eq_some_iff.1 hfind
    have hname : e.1 = name := by simpa using List.find?_some he
    exact List.mem_append_right _ (List.mem_map.2 ⟨e, List.mem_of_find?_eq_some he, hname⟩)
  · exact List.mem_append_left _ (List.mem_append_left _ h)

/-- A line with a known name that is read as an instruction is left as it is, unless its name has an
underscore that is not put back: then the line is refused. -/
theorem normalize_known (hname : IsKnown name) {i : Instruction}
    (hends : ∀ c ∈ rest.head?, Text.endsName c)
    (hplain : ∀ c ∈ rest, c ≠ ';' ∧ c ≠ '#' ∧ c ≠ '\n')
    (hread : read (name.toList ++ rest) = .ok i) :
    ∃ line, normalize (name.toList ++ rest) = [line] ∧
      if isTorn name rest then ∃ t, read line = .error (.badTarget t)
      else line = name.toList ++ rest := by
  have hknown := mem_knownNames hname
  have hhash : '#' ∉ rest := fun hmem => (hplain _ hmem).2.1 rfl
  obtain ⟨hkept, c, more, hmore, -⟩ := exists_upper_of_known hknown
  have hwhole : ∀ d ∈ name.toList ++ rest, d ≠ ';' ∧ d ≠ '#' ∧ d ≠ '\n' :=
    List.forall_mem_append.2 ⟨fun d hd => plain_of_isKept hkept hd, hplain⟩
  obtain ⟨front, back, hrest, hfront, htorn, hline⟩ := normalizeLine_known hknown hends hhash hread
  have hspelled := spellOut_known name hknown front hfront
  have hne : name.toList ++ rest ≠ [] := by
    rw [hmore]
    exact List.cons_ne_nil _ _
  refine ⟨_, normalize_single hne hwhole, ?_⟩
  rw [htorn, hline]
  split_ifs at hspelled ⊢ with h
  · exact read_severed hspelled fun hmem => hhash (hrest ▸ List.mem_append_right _ hmem)
  · rw [hspelled, hrest, List.append_assoc]

/-- The inverse of a gate with a tag, which is refused afterwards, and without one. -/
theorem normalize_inverse :
    (∃ line, normalize "S_DAG[t] 0".toList = [line] ∧ ∃ t, read line = .error (.badTarget t)) ∧
      normalize "S_DAG 0".toList = ["S_DAG 0".toList] := by
  have hname : IsKnown "S_DAG" := .inl (by decide)
  have htagged : read ("S_DAG".toList ++ "[t] 0".toList) =
      .ok ⟨"S_DAG", "t", [], [.qubit 0 false]⟩ := by
    decide
  have hplain : read ("S_DAG".toList ++ " 0".toList) =
      .ok ⟨"S_DAG", "", [], [.qubit 0 false]⟩ := by
    decide
  have htorn := normalize_known hname (by rintro c ⟨⟩; rfl)
    (List.all_iff_forall_prop.1 (by decide)) htagged
  obtain ⟨line, hline, hsame⟩ := normalize_known hname (by rintro c ⟨⟩; rfl)
    (List.all_iff_forall_prop.1 (by decide)) hplain
  exact ⟨htorn, hline.trans (congrArg (fun l => [l]) hsame)⟩

end Source

end StimOverlay
