import StimOverlay.Proofs.Source.NormalLines
import StimOverlay.Proofs.Source.OctetCoding
import StimOverlay.ShareLink

/-! Compact text. Abbreviating works line by line, the last two abbreviations do nothing but leave out
single blanks, and a link gives back the compact text that was put into it. -/

namespace StimOverlay

namespace Text

theorem isPrefixOf_separator {old s t : List Char} {c : Char} (hc : c ∉ old) :
    old.isPrefixOf (s ++ c :: t) = old.isPrefixOf s := by
  rw [Bool.eq_iff_iff, List.isPrefixOf_iff_prefix, List.isPrefixOf_iff_prefix]
  constructor
  · intro hold
    rcases List.prefix_or_prefix_of_prefix hold (List.prefix_append s (c :: t)) with hs | ⟨more, rfl⟩
    · exact hs
    cases more with
    | nil => rw [List.append_nil]
    | cons d more =>
        have hd := (List.cons_prefix_cons.1 ((List.prefix_append_right_inj s).1 hold)).1
        exact absurd (by simp [hd]) hc
  · exact fun hs => hs.trans (List.prefix_append s _)

/-- A character that does not occur in what is replaced keeps the texts around it apart. -/
theorem replaceAfter_separator {old new s : List Char} {c : Char} {skip : Nat} (hc : c ∉ old)
    (hne : old ≠ []) (hskip : skip ≤ s.length) (t : List Char) :
    replaceAfter old new skip (s ++ c :: t) =
      replaceAfter old new skip s ++ c :: replaceAfter old new 0 t := by
  induction s generalizing skip with
  | nil =>
      rw [List.length_nil, Nat.le_zero] at hskip
      subst hskip
      have hno : ¬old.isPrefixOf (c :: t) = true := by
        have hnil := isPrefixOf_separator (s := []) (t := t) hc
        rw [List.nil_append] at hnil
        rw [hnil, List.isPrefixOf_iff_prefix, List.prefix_nil]
        exact hne
      simp only [List.nil_append, replaceAfter, if_neg hno]
  | cons d s ih =>
      rw [List.length_cons] at hskip
      cases skip with
      | succ skip => exact ih (by omega)
      | zero =>
          have hsame : old.isPrefixOf (d :: (s ++ c :: t)) = old.isPrefixOf (d :: s) :=
            isPrefixOf_separator (s := d :: s) hc
          rw [List.cons_append, replaceAfter, replaceAfter, hsame]
          split
          · rename_i hstart
            have hlength := (List.isPrefixOf_iff_prefix.1 hstart).length_le
            rw [List.length_cons] at hlength
            rw [ih (by omega), List.append_assoc]
          · rw [ih (Nat.zero_le _), List.cons_append]

variable {rules : List (String × String)} {c : Char}

theorem replaceEach_separator
    (h : ∀ rule ∈ rules, c ∉ rule.1.toList ∧ rule.1.toList ≠ []) (s t : List Char) :
    replaceEach rules (s ++ c :: t) = replaceEach rules s ++ c :: replaceEach rules t := by
  induction rules generalizing s t with
  | nil => rfl
  | cons rule rules ih =>
      obtain ⟨hc, hne⟩ := h rule List.mem_cons_self
      have hfirst : replace rule.1.toList rule.2.toList (s ++ c :: t) =
          replace rule.1.toList rule.2.toList s ++ c :: replace rule.1.toList rule.2.toList t :=
        replaceAfter_separator hc hne (Nat.zero_le _) t
      rw [replaceEach, List.foldl_cons, hfirst]
      exact ih (fun r hr => h r (List.mem_cons_of_mem _ hr)) _ _

theorem replaceEach_nil (rules : List (String × String)) : replaceEach rules [] = [] := by
  induction rules with
  | nil => rfl
  | cons rule rules ih => exact ih

theorem replaceEach_intercalate
    (h : ∀ rule ∈ rules, c ∉ rule.1.toList ∧ rule.1.toList ≠ []) (pieces : List (List Char)) :
    replaceEach rules ([c].intercalate pieces) = [c].intercalate (pieces.map (replaceEach rules)) := by
  induction pieces with
  | nil => exact replaceEach_nil rules
  | cons piece rest ih =>
      cases rest with
      | nil => simp
      | cons next rest =>
          rw [List.intercalate_cons_cons, List.append_assoc, List.singleton_append,
            replaceEach_separator h, ih]
          simp

theorem mem_replaceAfter {old new s : List Char} {skip : Nat}
    (h : c ∈ replaceAfter old new skip s) : c ∈ s ∨ c ∈ new := by
  induction s generalizing skip with
  | nil => cases skip <;> cases h
  | cons d s ih =>
      cases skip with
      | succ skip => exact (ih h).imp_left (List.mem_cons_of_mem d)
      | zero =>
          rw [replaceAfter] at h
          split at h
          · rcases List.mem_append.1 h with h | h
            · exact .inr h
            · exact (ih h).imp_left (List.mem_cons_of_mem d)
          · rcases List.mem_cons.1 h with rfl | h
            · exact .inl List.mem_cons_self
            · exact (ih h).imp_left (List.mem_cons_of_mem d)

theorem mem_replaceEach {s : List Char} (h : c ∈ replaceEach rules s) :
    c ∈ s ∨ ∃ rule ∈ rules, c ∈ rule.2.toList := by
  induction rules generalizing s with
  | nil => exact .inl h
  | cons rule rules ih =>
      rcases ih h with h | ⟨r, hr, h⟩
      · exact (mem_replaceAfter h).imp_right fun h => ⟨rule, List.mem_cons_self, h⟩
      · exact .inr ⟨r, List.mem_cons_of_mem _ hr, h⟩

/-- Leaves out one blank behind every character that satisfies `p`. -/
def tightenBehind (p : Char → Bool) : List Char → List Char
  | [] => []
  | [c] => [c]
  | c :: d :: rest =>
      if p c && d == ' ' then c :: tightenBehind p rest else c :: tightenBehind p (d :: rest)

/-- Leaves out one blank behind every comma and every closing parenthesis. -/
def tighten (s : List Char) : List Char := tightenBehind (fun c => c == ',' || c == ')') s

variable {p q : Char → Bool}

theorem tightenBehind_of_not (h : p c = false) (s : List Char) :
    tightenBehind p (c :: s) = c :: tightenBehind p s := by
  cases s <;> simp [tightenBehind, h]

theorem head_tightenBehind (p : Char → Bool) (c : Char) (s : List Char) :
    ∃ t, tightenBehind p (c :: s) = c :: t := by
  cases s with
  | nil => exact ⟨[], rfl⟩
  | cons d s =>
      rw [tightenBehind]
      split
      · exact ⟨_, rfl⟩
      · exact ⟨_, rfl⟩

theorem replace_blank (c : Char) (s : List Char) :
    replace [c, ' '] [c] s = tightenBehind (· == c) s := by
  fun_induction tightenBehind (· == c) s with
  | case1 => rfl
  | case2 d => simp [replace, replaceAfter]
  | case3 d e rest h ih =>
      simp only [Bool.and_eq_true, beq_iff_eq] at h
      obtain ⟨rfl, rfl⟩ := h
      rw [← ih]
      simp [replace, replaceAfter]
  | case4 d e rest h ih =>
      have hno : ¬[c, ' '].isPrefixOf (d :: e :: rest) = true := by
        intro hstart
        simp only [List.isPrefixOf, Bool.and_true, Bool.and_eq_true, beq_iff_eq] at hstart
        exact h (by simp [← hstart.1, ← hstart.2])
      rw [replace, replaceAfter, if_neg hno]
      exact congrArg (d :: ·) ih

/-- Leaving out blanks behind characters of two kinds, one kind after the other. -/
theorem tightenBehind_tightenBehind (hdisjoint : ∀ c, p c → q c = false) (hblank : p ' ' = false)
    (s : List Char) :
    tightenBehind q (tightenBehind p s) = tightenBehind (fun c => p c || q c) s := by
  fun_induction tightenBehind (fun c => p c || q c) s with
  | case1 => rfl
  | case2 c => rfl
  | case3 c d rest h ih =>
      simp only [Bool.and_eq_true, Bool.or_eq_true, beq_iff_eq] at h
      obtain ⟨hc, rfl⟩ := h
      cases hp : p c with
      | true =>
          rw [tightenBehind, if_pos (by simp [hp]), tightenBehind_of_not (hdisjoint c hp), ih]
      | false =>
          have hq : q c = true := by simpa [hp] using hc
          rw [tightenBehind_of_not hp, tightenBehind_of_not hblank, tightenBehind,
            if_pos (by simp [hq]), ih]
  | case4 c d rest h ih =>
      have hboth : ¬(p c && d == ' ') = true ∧ ¬(q c && d == ' ') = true := by grind
      obtain ⟨t, ht⟩ := head_tightenBehind p d rest
      rw [tightenBehind, if_neg hboth.1, ht, tightenBehind, if_neg hboth.2, ← ht, ih]

theorem mem_tightenBehind {s : List Char} (h : c ∈ tightenBehind p s) : c ∈ s := by
  fun_induction tightenBehind p s with
  | case1 => cases h
  | case2 d => exact h
  | case3 d e rest hd ih => grind
  | case4 d e rest hd ih => grind

theorem mem_tighten {s : List Char} (h : c ∈ tighten s) : c ∈ s := mem_tightenBehind h

/-- Nothing is left out behind a text without such characters. -/
theorem tightenBehind_append {head : List Char} (h : ∀ c ∈ head, p c = false) (tail : List Char) :
    tightenBehind p (head ++ tail) = head ++ tightenBehind p tail := by
  induction head with
  | nil => rfl
  | cons c head ih =>
      rw [List.cons_append, tightenBehind_of_not (h c List.mem_cons_self),
        ih fun d hd => h d (List.mem_cons_of_mem _ hd), List.cons_append]

theorem tightenBehind_eq_self {s : List Char} (h : ∀ c ∈ s, p c = false) :
    tightenBehind p s = s := by
  have hs := tightenBehind_append h []
  rwa [List.append_nil, tightenBehind, List.append_nil] at hs

/-- The pieces between commas when the blanks behind the commas are left out: the first one stays, and
the others stay apart from blanks in front of them. -/
theorem splitWhere_tighten (s : List Char) (hclose : ')' ∉ s) :
    ∃ first rest rest', splitWhere (· == ',') s = first :: rest ∧
      splitWhere (· == ',') (tighten s) = first :: rest' ∧ rest'.map trim = rest.map trim := by
  unfold tighten
  fun_induction tightenBehind (fun c => c == ',' || c == ')') s with
  | case1 => exact ⟨[], [], [], rfl, rfl, rfl⟩
  | case2 c => exact ⟨_, _, _, (List.cons_head_tail (splitWhere_ne_nil _ _)).symm,
      (List.cons_head_tail (splitWhere_ne_nil _ _)).symm, rfl⟩
  | case3 c d rest h ih =>
      simp only [List.mem_cons, not_or] at hclose
      obtain ⟨first, more, more', hsplit, htight, htrim⟩ := ih hclose.2.2
      simp only [Bool.and_eq_true, Bool.or_eq_true, beq_iff_eq] at h
      obtain ⟨rfl | rfl, rfl⟩ := h
      · refine ⟨[], (' ' :: first) :: more, first :: more', ?_, ?_, ?_⟩
        · simp [splitWhere, hsplit]
        · simp [splitWhere, htight]
        · simp [Instruction.trim_blank, htrim]
      · exact absurd rfl hclose.1
  | case4 c d rest h ih =>
      rw [List.mem_cons, not_or] at hclose
      obtain ⟨first, more, more', hsplit, htight, htrim⟩ := ih hclose.2
      by_cases hc : c = ','
      · subst hc
        refine ⟨[], first :: more, first :: more', ?_, ?_, by simp [htrim]⟩
        · rw [splitWhere, hsplit]
          rfl
        · rw [splitWhere, htight]
          rfl
      · refine ⟨c :: first, more, more', ?_, ?_, htrim⟩
        · rw [splitWhere, if_neg (by simp [hc]), hsplit]
        · rw [splitWhere, if_neg (by simp [hc]), htight]

theorem tighten_append {c : Char} (hc : c ≠ ' ') (s t : List Char) :
    tighten (s ++ c :: t) = tighten s ++ tighten (c :: t) := by
  unfold tighten
  fun_induction tightenBehind (fun c => c == ',' || c == ')') s with
  | case1 => rfl
  | case2 d => simp [tightenBehind, hc]
  | case3 d e rest h ih => rw [List.cons_append, List.cons_append, tightenBehind, if_pos h, ih]; rfl
  | case4 d e rest h ih => rw [List.cons_append, List.cons_append, tightenBehind, if_neg h,
      ← List.cons_append, ih]; rfl

end Text

namespace ShareLink

/-- The abbreviations of names. -/
def nameAbbreviations : List (String × String) := abbreviations.take 3

theorem replaceEach_abbreviations (s : List Char) :
    Text.replaceEach abbreviations s = Text.tighten (Text.replaceEach nameAbbreviations s) := by
  have hcommas : Text.tighten (Text.replaceEach nameAbbreviations s) =
      Text.replace [')', ' '] [')'] (Text.replace [',', ' '] [',']
        (Text.replaceEach nameAbbreviations s)) := by
    rw [Text.replace_blank, Text.replace_blank, Text.tightenBehind_tightenBehind _ (by decide)]
    · rfl
    · intro c hc
      rw [beq_iff_eq.1 hc]
      decide
  rw [hcommas]
  rfl

theorem compact_eq {text : List Char} (h : '\r' ∉ text) :
    compact text = (Text.tighten (Text.replaceEach nameAbbreviations text)).map fun c =>
      if c == ' ' then '_' else if c == '\n' then ';' else c := by
  have hplain : ∀ c ∈ text, (c != '\r') = true := by
    intro c hc
    rw [bne_iff_ne]
    rintro rfl
    exact h hc
  have hrules : Text.eachContained (· != '\r') [("\r\n", "\n"), ("\r", "\n")] [] := by
    decide
  have hends : unifyLineEnds text = text := Text.replaceEach_append hrules hplain
  rw [compact, hends, replaceEach_abbreviations]

/-- Lines are abbreviated one by one. -/
theorem compact_intercalate {lines : List (List Char)} (h : ∀ l ∈ lines, '\r' ∉ l) :
    compact (['\n'].intercalate lines) = [';'].intercalate (lines.map compact) := by
  have hwhole : '\r' ∉ ['\n'].intercalate lines := by
    intro hmem
    rcases Text.mem_intercalate hmem with hmem | ⟨l, hl, hmem⟩
    · exact absurd hmem (by decide)
    · exact h l hl hmem
  have hrules : ∀ rule ∈ abbreviations, '\n' ∉ rule.1.toList ∧ rule.1.toList ≠ [] := by
    decide
  rw [compact_eq hwhole, ← replaceEach_abbreviations, Text.replaceEach_intercalate hrules,
    Text.map_intercalate, List.map_map]
  refine congrArg [';'].intercalate (List.map_congr_left fun l hl => ?_)
  rw [compact_eq (h l hl), ← replaceEach_abbreviations, Function.comp_apply]

theorem mem_compact {text : List Char} (h : '\r' ∉ text) {c : Char} (hc : c ∈ compact text) :
    (c ∈ text ∧ c ≠ '\n') ∨ c ∈ ['Q', 'D', 'T', 'O', 'I', '_'] ∨ ('\n' ∈ text ∧ c = ';') := by
  rw [compact_eq h, List.mem_map] at hc
  obtain ⟨d, hd, rfl⟩ := hc
  have hnames : ∀ rule ∈ nameAbbreviations,
      rule.2.toList.all (['Q', 'D', 'T', 'O', 'I'].contains ·) := by decide
  rcases Text.mem_replaceEach (Text.mem_tighten hd) with hd | ⟨rule, hrule, hd⟩
  · grind
  · have hletter := List.contains_iff_mem.1 (List.all_eq_true.1 (hnames rule hrule) d hd)
    grind

/-- The value in a fragment has no separator of parameters, and it is decoded to the compact text. -/
theorem exists_value (text : List Char) :
    ∃ value, fragment text = '#' :: (circuitKey.toList ++ '=' :: value) ∧ '&' ∉ value ∧
      Text.Percent.decode value = .ok (compact text) := by
  cases hreserved : (compact text).any fun c => c == '%' || c == '&' with
  | true =>
      refine ⟨Text.Percent.encode (compact text), ?_, Text.Percent.ampersand_notMem_encode _,
        Text.Percent.decode_encode _⟩
      simp only [fragment, hreserved, if_true, List.cons_append]
  | false =>
      have hplain : ∀ c ∈ compact text, c ≠ '%' ∧ c ≠ '&' := by
        intro c hc
        simpa using List.any_eq_false.1 hreserved c hc
      refine ⟨compact text, ?_, fun hc => (hplain _ hc).2 rfl,
        Text.Percent.decode_of_plain fun hc => (hplain _ hc).1 rfl⟩
      simp only [fragment, hreserved, Bool.false_eq_true, if_false, List.cons_append]

/-- A fragment of a single parameter gives the text that its value is decoded to. -/
theorem params_single {value text : List Char} (hvalue : '&' ∉ value)
    (hdecode : Text.Percent.decode value = .ok text) :
    params (circuitKey.toList ++ '=' :: value) = .ok [(circuitKey, String.ofList text)] := by
  have hkey : ∀ c ∈ circuitKey.toList, c ≠ '&' ∧ c ≠ '=' := List.all_iff_forall_prop.1 (by decide)
  have hpart : ∀ c ∈ circuitKey.toList ++ '=' :: value, (c == '&') = false := by
    intro c hc
    rw [beq_eq_false_iff_ne]
    rintro rfl
    rcases List.mem_append.1 hc with hc | hc
    · exact (hkey _ hc).1 rfl
    · exact (List.mem_cons.1 hc).elim (by decide) hvalue
  have hsplit : Text.splitOnce? (· == '=') (circuitKey.toList ++ '=' :: value) =
      some (circuitKey.toList, value) :=
    Text.splitOnce?_append (fun c hc => by simpa using (hkey c hc).2) rfl value
  have hbody : params (circuitKey.toList ++ '=' :: value) =
      readParams (Text.splitWhere (· == '&') (circuitKey.toList ++ '=' :: value)) := rfl
  rw [hbody, Text.splitWhere_of_none hpart, readParams, hsplit]
  simp only [circuitKey] at hdecode ⊢
  simp [readParams, hdecode, bind, Except.bind]

/-- Whatever stands in front of it, a fragment gives the compact form of its text. -/
theorem decode_behind (base : List Char) (hbase : '#' ∉ base) (text : List Char) :
    decode (base ++ fragment text) = .ok (String.ofList (compact text)) := by
  obtain ⟨value, hfragment, hvalue, hdecode⟩ := exists_value text
  have hsplit : Text.splitOnce? (· == '#') (base ++ fragment text) =
      some (base, circuitKey.toList ++ '=' :: value) := by
    rw [hfragment]
    refine Text.splitOnce?_append (fun c hc => ?_) rfl _
    rw [beq_eq_false_iff_ne]
    rintro rfl
    exact hbase hc
  rw [decode, hsplit]
  dsimp only
  rw [params_single hvalue hdecode]
  rfl

/-- A link gives its text in compact form, the fragment by itself as well as behind any base: with one
kind of line end, then abbreviated, then without blanks and line ends. -/
theorem decode_link (base text : List Char) :
    let unified := Text.replace ['\r'] ['\n'] (Text.replace ['\r', '\n'] ['\n'] text)
    let named := Text.replace "OBSERVABLE_INCLUDE".toList "OI".toList
      (Text.replace "DETECTOR".toList "DT".toList
        (Text.replace "QUBIT_COORDS".toList "Q".toList unified))
    let tight := Text.replace [')', ' '] [')'] (Text.replace [',', ' '] [','] named)
    let short := String.ofList (tight.map fun c => if c = ' ' then '_' else if c = '\n' then ';' else c)
    decode (fragment text) = .ok short ∧ decode (url base text) = .ok short := by
  intro unified named tight short
  have hcompact : String.ofList (compact text) = short := by
    have heq : compact text = tight.map fun c =>
        if c == ' ' then '_' else if c == '\n' then ';' else c := rfl
    rw [heq]
    simp [short]
  rw [← hcompact]
  refine ⟨decode_behind [] List.not_mem_nil text, decode_behind _ (fun hmem => ?_) text⟩
  have hbefore := List.mem_takeWhile_imp hmem
  exact absurd hbefore (by decide)

end ShareLink

end StimOverlay
