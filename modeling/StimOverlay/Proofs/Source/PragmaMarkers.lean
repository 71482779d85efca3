import StimOverlay.Emission.Text
import StimOverlay.Proofs.Parsed.InsertedHeaders

/-! Pragma markers. Dropping pragma markers undoes putting them back, so that they do not count in
anything that is parsed; and a text that is its own normal form has no markers and only lines that are
their own normal forms. So the text of a parse, with its markers and headers, is brought back to the lines
that it was made from. -/

namespace StimOverlay

open Build

namespace Text

variable {c : Char} {old new : List Char}

theorem replace_cons {d : Char} {s : List Char} (h : ¬old <+: d :: s) :
    replace old new (d :: s) = d :: replace old new s := by
  rw [replace, replaceAfter, if_neg (mt List.isPrefixOf_iff_prefix.1 h), replace]

/-- Nothing is replaced in front of the first character that a replaced text can start with. -/
theorem replace_append_of_notMem {front : List Char} (hc : c ∉ front) (s : List Char) :
    replace (c :: old) new (front ++ s) = front ++ replace (c :: old) new s := by
  induction front with
  | nil => rfl
  | cons d front ih =>
      obtain ⟨hd, hfront⟩ := not_or.1 (mt List.mem_cons.2 hc)
      rw [List.cons_append, replace_cons, ih hfront, List.cons_append]
      exact fun hstart => hd (List.cons_prefix_cons.1 hstart).1

theorem replace_append_self (s : List Char) :
    replace (c :: old) new (c :: (old ++ s)) = new ++ replace (c :: old) new s := by
  have hstart : (c :: old).isPrefixOf (c :: (old ++ s)) = true :=
    List.isPrefixOf_iff_prefix.2 (List.prefix_append (c :: old) s)
  have hskip (front : List Char) : replaceAfter (c :: old) new front.length (front ++ s) =
      replaceAfter (c :: old) new 0 s := by
    induction front with
    | nil => rfl
    | cons d front ih => exact ih
  rw [replace, replaceAfter, if_pos hstart, List.length_cons, Nat.add_sub_cancel, hskip, replace]

/-- A character that is replaced by others gets fewer, unless there is nothing to replace. -/
theorem replaceAfter_eq_or_count_lt (hold : c ∈ old) (hnew : c ∉ new) (skip : Nat) (s : List Char) :
    replaceAfter old new skip s = s.drop skip ∨
      (replaceAfter old new skip s).count c < (s.drop skip).count c := by
  induction s generalizing skip with
  | nil => cases skip <;> exact .inl rfl
  | cons d s ih =>
      cases skip with
      | succ skip => exact ih skip
      | zero =>
          rw [replaceAfter, List.drop_zero]
          split_ifs with hstart
          · obtain ⟨rest, hrest⟩ := List.isPrefixOf_iff_prefix.1 hstart
            have hne : old ≠ [] := List.ne_nil_of_mem hold
            have hdrop : s.drop (old.length - 1) = rest := by
              obtain ⟨e, more, rfl⟩ := List.exists_cons_of_ne_nil hne
              obtain ⟨-, rfl⟩ := List.cons_eq_cons.1 hrest
              exact List.drop_left
            have hle : (replaceAfter old new (old.length - 1) s).count c ≤ rest.count c := by
              rcases ih (old.length - 1) with h | h
              · rw [h, hdrop]
              · exact hdrop ▸ Nat.le_of_lt h
            refine .inr ?_
            rw [← hrest, List.count_append, List.count_append, List.count_eq_zero.2 hnew]
            have hpos := List.count_pos_iff.2 hold
            omega
          · rcases ih 0 with h | h
            · exact .inl (congrArg (d :: ·) h)
            · refine .inr ?_
              rw [List.count_cons, List.count_cons]
              exact Nat.add_lt_add_right h _

theorem replaceEach_eq_or_count_lt {rules : List (String × String)}
    (h : ∀ rule ∈ rules, c ∈ rule.1.toList ∧ c ∉ rule.2.toList) (s : List Char) :
    replaceEach rules s = s ∨ (replaceEach rules s).count c < s.count c := by
  induction rules generalizing s with
  | nil => exact .inl rfl
  | cons rule rules ih =>
      obtain ⟨hold, hnew⟩ := h rule List.mem_cons_self
      have ih := ih fun r hr => h r (List.mem_cons_of_mem _ hr)
      have hfirst := replaceAfter_eq_or_count_lt hold hnew 0 s
      rw [replaceEach, List.foldl_cons]
      rcases hfirst with hsame | hfewer
      · have hsame : replace rule.1.toList rule.2.toList s = s := hsame
        rw [hsame]
        exact ih s
      · refine .inr ?_
        rcases ih (replace rule.1.toList rule.2.toList s) with h | h
        · exact (congrArg (List.count c) h).trans_lt hfewer
        · exact h.trans hfewer

end Text

namespace Text

/-- Lines that are found again when the text that they are joined to is cut. -/
structure Ended (ls : List (List Char)) : Prop where
  newline : ∀ l ∈ ls, '\n' ∉ l
  returns : ∀ l ∈ ls.dropLast, l.getLast? ≠ some '\r'
  last : ls.getLast? ≠ some []

/-- A line without the carriage return that ends it. -/
def withoutReturn (l : List Char) : List Char := (dropLast? '\r' l).getD l

theorem withoutReturn_eq_self {l : List Char} (h : l.getLast? ≠ some '\r') : withoutReturn l = l := by
  rw [withoutReturn, dropLast?, if_neg h, Option.getD_none]

theorem count_withoutReturn (c : Char) (l : List Char) :
    l.count c = (withoutReturn l).count c + if c = '\r' ∧ l.getLast? = some '\r' then 1 else 0 := by
  by_cases hlast : l.getLast? = some '\r'
  · obtain ⟨front, rfl⟩ := List.getLast?_eq_some_iff.1 hlast
    have hfront : withoutReturn (front ++ ['\r']) = front := by
      rw [withoutReturn, dropLast?, if_pos hlast, List.dropLast_concat, Option.getD_some]
    rw [hfront, List.count_append, List.count_singleton]
    by_cases hc : c = '\r'
    · simp [hc]
    · simp [hc, Ne.symm hc]
  · rw [withoutReturn_eq_self hlast, if_neg fun h => hlast h.2, Nat.add_zero]

theorem lines_eq {s : List Char} {front : List (List Char)} {last : List Char}
    (h : splitWhere (· == '\n') s = front ++ [last]) :
    lines s = front.map withoutReturn ++ if last = [] then [] else [last] := by
  unfold lines
  dsimp only
  rw [h, List.dropLast_concat, List.getLast?_concat]
  cases last with
  | nil => simp [withoutReturn]
  | cons c rest => simp [withoutReturn]

theorem Ended.lines_eq {ls : List (List Char)} (h : Ended ls) : lines (joinWith ['\n'] ls) = ls := by
  cases ls using List.reverseRecOn with
  | nil => rfl
  | append_singleton front last =>
      have hlast : last ≠ [] := fun hnil => h.last (by rw [List.getLast?_concat, hnil])
      have hfront : front.map withoutReturn = front := by
        refine (List.map_congr_left fun l hl => withoutReturn_eq_self ?_).trans (List.map_id' front)
        exact h.returns l (by rwa [List.dropLast_concat])
      rw [Text.lines_eq (splitWhere_joinWith (by simp) h.newline), hfront, if_neg hlast]

theorem count_joinWith {c : Char} (hc : c ≠ '\n') (ls : List (List Char)) :
    (joinWith ['\n'] ls).count c = (ls.map (List.count c)).sum := by
  rw [joinWith_eq_intercalate]
  induction ls with
  | nil => rfl
  | cons l rest ih =>
      cases rest with
      | nil => simp
      | cons next rest =>
          rw [List.intercalate_cons_cons, List.count_append, List.count_append, ih]
          simp [Ne.symm hc]

/-- Cutting a text into lines drops nothing but line feeds and carriage returns. -/
theorem count_lines {c : Char} (hnewline : c ≠ '\n') (hreturn : c ≠ '\r') (s : List Char) :
    ((lines s).map (List.count c)).sum = s.count c := by
  obtain ⟨front, last, hsplit⟩ : ∃ front last, splitWhere (· == '\n') s = front ++ [last] :=
    ⟨_, _, (List.dropLast_append_getLast (splitWhere_ne_nil _ s)).symm⟩
  have hfront : (front.map withoutReturn).map (List.count c) = front.map (List.count c) := by
    rw [List.map_map]
    refine List.map_congr_left fun l _ => ?_
    rw [Function.comp_apply, count_withoutReturn c l, if_neg fun h => hreturn h.1, Nat.add_zero]
  rw [lines_eq hsplit, List.map_append, List.sum_append, hfront]
  conv_rhs => rw [← joinWith_splitWhere '\n' s, hsplit, count_joinWith hnewline, List.map_append,
    List.sum_append]
  by_cases hlast : last = [] <;> simp [hlast]

theorem mem_of_mem_lines {s line : List Char} {c : Char} (hline : line ∈ lines s) (hc : c ∈ line)
    (hnewline : c ≠ '\n') (hreturn : c ≠ '\r') : c ∈ s := by
  have hpos : 0 < line.count c := List.count_pos_iff.2 hc
  have hle : line.count c ≤ ((lines s).map (List.count c)).sum :=
    List.single_le_sum (fun _ _ => Nat.zero_le _) _ (List.mem_map_of_mem hline)
  rw [count_lines hnewline hreturn] at hle
  exact List.count_pos_iff.1 (Nat.lt_of_lt_of_le hpos hle)

end Text

namespace Source

/-- The rule that drops a marker in front of a name. -/
def dropping (name : String) : String × String := (pragmaMarker ++ name, name)

theorem toList_dropping (name : String) :
    (dropping name).1.toList = '#' :: ("!pragma ".toList ++ name.toList) := by
  rw [dropping, String.toList_append]
  rfl

/-- The names are told apart by their first letters. -/
theorem pragmaNames_apart : ∀ m ∈ pragmaNames, ∀ n ∈ pragmaNames,
    '#' ∉ n.toList ∧ n.toList ≠ [] ∧ (m ≠ n → m.toList.head? ≠ n.toList.head?) := by decide

theorem replaceEach_markers {names : List String} (hnames : names ⊆ pragmaNames) {name : String}
    (hname : name ∈ names) {indent : List Char} (hindent : '#' ∉ indent) (rest : List Char) :
    Text.replaceEach (names.map dropping)
        (indent ++ '#' :: ("!pragma ".toList ++ (name.toList ++ rest))) =
      Text.replaceEach (names.map dropping) (indent ++ (name.toList ++ rest)) := by
  induction names generalizing rest with
  | nil => cases hname
  | cons other names ih =>
      have hmem := hnames List.mem_cons_self
      obtain ⟨hplain, hne, -⟩ := pragmaNames_apart name (hnames hname) name (hnames hname)
      have hmarker : '#' ∉ "!pragma ".toList := by decide
      have hbare : Text.replace (dropping other).1.toList (dropping other).2.toList
          (indent ++ (name.toList ++ rest)) = indent ++ (name.toList ++
            Text.replace (dropping other).1.toList (dropping other).2.toList rest) := by
        rw [toList_dropping, Text.replace_append_of_notMem hindent,
          Text.replace_append_of_notMem hplain]
      rw [List.map_cons, Text.replaceEach, List.foldl_cons, Text.replaceEach, List.foldl_cons, hbare]
      by_cases hsame : other = name
      · subst hsame
        have hdrop : Text.replace (dropping other).1.toList (dropping other).2.toList
            (indent ++ '#' :: ("!pragma ".toList ++ (other.toList ++ rest))) = indent ++
              (other.toList ++ Text.replace (dropping other).1.toList (dropping other).2.toList rest) := by
          rw [toList_dropping, Text.replace_append_of_notMem hindent, ← List.append_assoc,
            Text.replace_append_self]
          rfl
        rw [hdrop]
      · have hkeep : Text.replace (dropping other).1.toList (dropping other).2.toList
            (indent ++ '#' :: ("!pragma ".toList ++ (name.toList ++ rest))) = indent ++
              '#' :: ("!pragma ".toList ++ (name.toList ++
                Text.replace (dropping other).1.toList (dropping other).2.toList rest)) := by
          rw [toList_dropping, Text.replace_append_of_notMem hindent, Text.replace_cons,
            Text.replace_append_of_notMem hmarker, Text.replace_append_of_notMem hplain]
          rw [List.cons_prefix_cons, List.prefix_append_right_inj]
          rintro ⟨-, more, hmore⟩
          obtain ⟨-, hother, hapart⟩ := pragmaNames_apart other hmem other hmem
          refine (pragmaNames_apart other hmem name (hnames hname)).2.2 hsame ?_
          have hheads := congrArg List.head? hmore
          rwa [List.head?_append_of_ne_nil _ hother, List.head?_append_of_ne_nil _ hne] at hheads
        rw [hkeep]
        exact ih (fun n hn => hnames (List.mem_cons_of_mem _ hn))
          ((List.mem_cons.1 hname).resolve_left (Ne.symm hsame)) _

/-- A line that gets a marker has a name that needs one behind its blanks. -/
theorem markPragma_cases (line : List Char) : markPragma line = line ∨
    ∃ indent rest, ∃ name ∈ pragmaNames, (∀ c ∈ indent, Text.isBlank c) ∧
      line = indent ++ (name.toList ++ rest) ∧
      markPragma line = indent ++ '#' :: ("!pragma ".toList ++ (name.toList ++ rest)) := by
  unfold markPragma
  dsimp only
  split_ifs with hany
  · obtain ⟨name, hname, hstart⟩ := List.any_eq_true.1 hany
    rw [Text.startsWith, List.isPrefixOf_iff_prefix] at hstart
    obtain ⟨rest, hrest⟩ := hstart
    refine .inr ⟨line.takeWhile Text.isBlank, rest, name, hname,
      fun c hc => List.mem_takeWhile_imp hc, ?_, ?_⟩
    · rw [hrest, Text.trimStart, List.takeWhile_append_dropWhile]
    · rw [← hrest, List.append_assoc]
      rfl
  · exact .inl rfl

/-- A line is the same without its marker, whether it has been put back or not, also when semicolons have
become something else in the meantime. -/
theorem dropPragmas_map_markPragma {f : Char → Char} (hf : ∀ c, c ≠ ';' → f c = c) (line : List Char) :
    dropPragmas ((markPragma line).map f) = dropPragmas (line.map f) := by
  have hkept {s : List Char} (h : ';' ∉ s) : s.map f = s :=
    (List.map_congr_left fun c hc => hf c fun heq => h (heq ▸ hc)).trans (List.map_id' s)
  rcases markPragma_cases line with hsame | ⟨indent, rest, name, hname, hblank, hline, hmarked⟩
  · rw [hsame]
  · have hindent {c : Char} (hc : Text.isBlank c = false) : c ∉ indent := fun hmem =>
      absurd (hblank c hmem) (by simp [hc])
    have hplain : ∀ name ∈ pragmaNames, ';' ∉ name.toList := by decide
    rw [hmarked]
    conv_rhs => rw [hline]
    simp only [List.map_append, List.map_cons, hf '#' (by decide), hkept (hplain name hname),
      hkept (hindent (c := ';') (by decide)), hkept (s := "!pragma ".toList) (by decide)]
    exact replaceEach_markers (List.Subset.refl _) hname (hindent (by decide)) _

theorem dropPragmas_joinWith (ls : List (List Char)) :
    dropPragmas (Text.joinWith ['\n'] ls) = Text.joinWith ['\n'] (ls.map dropPragmas) := by
  rw [Text.joinWith_eq_intercalate, Text.joinWith_eq_intercalate]
  exact Text.replaceEach_intercalate (by decide) ls

/-- Markers do not count when a text is brought into its normal form: they are dropped again in any case. -/
theorem normalize_restorePragmas (text : List Char) :
    normalize (restorePragmas text) = normalize text := by
  have hends (ls : List (List Char)) :
      (Text.joinWith ['\n'] ls).map (fun c => if c == ';' then '\n' else c) =
        Text.joinWith ['\n'] (ls.map (List.map fun c => if c == ';' then '\n' else c)) := by
    rw [Text.joinWith_eq_intercalate, Text.joinWith_eq_intercalate, Text.map_intercalate]
    rfl
  have hdropped : dropPragmas ((restorePragmas text).map fun c => if c == ';' then '\n' else c) =
      dropPragmas (text.map fun c => if c == ';' then '\n' else c) := by
    conv_rhs => rw [← Text.joinWith_splitWhere '\n' text]
    rw [restorePragmas, hends, hends, dropPragmas_joinWith, dropPragmas_joinWith, List.map_map,
      List.map_map, List.map_map]
    refine congrArg _ (List.map_congr_left fun line _ => ?_)
    exact dropPragmas_map_markPragma (fun c hc => if_neg (by simpa using hc)) line
  rw [normalize, hdropped, normalize]

/-- A line that normalizing a text leaves as it is. -/
structure Fixed (l : List Char) : Prop where
  newline : '\n' ∉ l
  semicolon : ';' ∉ l
  unmarked : dropPragmas l = l
  normal : normalizeLine l = l

theorem map_semicolon {s : List Char} (h : ';' ∉ s) :
    s.map (fun c => if c == ';' then '\n' else c) = s := by
  refine (List.map_congr_left fun c hc => ?_).trans (List.map_id' s)
  rw [if_neg]
  rw [beq_iff_eq]
  rintro rfl
  exact h hc

/-- A text of lines without semicolons is brought into normal form line by line, once its markers are
dropped. -/
theorem normalize_lines {ls : List (List Char)} (hsemicolon : ∀ l ∈ ls, ';' ∉ l)
    (hended : Text.Ended (ls.map dropPragmas)) :
    normalize (Text.joinWith ['\n'] ls) = ls.map fun l => normalizeLine (dropPragmas l) := by
  have hplain : ';' ∉ Text.joinWith ['\n'] ls := by
    rw [Text.joinWith_eq_intercalate]
    intro hmem
    rcases Text.mem_intercalate hmem with hmem | ⟨l, hl, hmem⟩
    · exact absurd hmem (by decide)
    · exact hsemicolon l hl hmem
  rw [normalize, map_semicolon hplain, dropPragmas_joinWith, hended.lines_eq, List.map_map]
  rfl

/-- A text of lines that are all left as they are is brought back to them. -/
theorem normalize_joinWith {ls : List (List Char)} (hfixed : ∀ l ∈ ls, Fixed l)
    (hended : Text.Ended ls) : normalize (Text.joinWith ['\n'] ls) = ls := by
  have hkept {f : List Char → List Char} (hf : ∀ l ∈ ls, f l = l) : ls.map f = ls :=
    (List.map_congr_left hf).trans (List.map_id' ls)
  have hunmarked := hkept fun l hl => (hfixed l hl).unmarked
  rw [normalize_lines (fun l hl => (hfixed l hl).semicolon) (hunmarked.symm ▸ hended)]
  exact hkept fun l hl => by rw [(hfixed l hl).unmarked, (hfixed l hl).normal]

variable {text : List Char}

theorem semicolon_notMem_normalize {l : List Char} (h : l ∈ normalize text) : ';' ∉ l := by
  obtain ⟨line, hline, rfl⟩ := List.mem_map.1 h
  rw [← List.count_eq_zero, count_normalizeLine (by decide), List.count_eq_zero]
  intro hmem
  have hdropped := Text.mem_of_mem_lines hline hmem (by decide) (by decide)
  rcases Text.mem_replaceEach hdropped with hmem | ⟨rule, hrule, hmem⟩
  · obtain ⟨c, -, hc⟩ := List.mem_map.1 hmem
    split_ifs at hc with hsemicolon
    · exact absurd hc (by decide)
    · exact hsemicolon (beq_iff_eq.2 hc)
  · have hall : ∀ rule ∈ pragmaNames.map dropping, ';' ∉ rule.2.toList := by decide
    exact hall rule hrule hmem

theorem semicolon_notMem_of_fixed (h : Text.joinWith ['\n'] (normalize text) = text) :
    ';' ∉ text := by
  rw [← h, Text.joinWith_eq_intercalate]
  intro hmem
  rcases Text.mem_intercalate hmem with hmem | ⟨l, hl, hmem⟩
  · exact absurd hmem (by decide)
  · exact semicolon_notMem_normalize hl hmem

/-- A text that is its own normal form has no markers. -/
theorem dropPragmas_of_fixed (h : Text.joinWith ['\n'] (normalize text) = text) :
    dropPragmas text = text := by
  have hcount : (dropPragmas text).count '#' = text.count '#' := by
    conv_rhs => rw [← h, Text.count_joinWith (by decide), normalize,
      map_semicolon (semicolon_notMem_of_fixed h)]
    rw [← Text.count_lines (c := '#') (by decide) (by decide), List.map_map]
    refine congrArg List.sum (List.map_congr_left fun l _ => ?_)
    exact (count_normalizeLine (by decide) l).symm
  have hrules : ∀ rule ∈ pragmaNames.map dropping,
      '#' ∈ rule.1.toList ∧ '#' ∉ rule.2.toList := by decide
  exact (Text.replaceEach_eq_or_count_lt hrules text).resolve_right
    fun hlt => absurd hcount (Nat.ne_of_lt hlt)

theorem normalize_eq_map_lines (h : Text.joinWith ['\n'] (normalize text) = text) :
    normalize text = (Text.lines text).map normalizeLine := by
  rw [normalize, map_semicolon (semicolon_notMem_of_fixed h), dropPragmas_of_fixed h]

/-- A carriage return at the end of a line is dropped for good, so a line that is brought back has none. -/
theorem normalizeLine_withoutReturn {l : List Char} (h : normalizeLine (Text.withoutReturn l) = l) :
    l.getLast? ≠ some '\r' ∧ normalizeLine l = l := by
  have hlast : l.getLast? ≠ some '\r' := by
    intro hlast
    have hcount := Text.count_withoutReturn '\r' l
    rw [if_pos ⟨rfl, hlast⟩] at hcount
    have hkept := count_normalizeLine (c := '\r') (by decide) (Text.withoutReturn l)
    rw [h] at hkept
    omega
  rw [Text.withoutReturn_eq_self hlast] at h
  exact ⟨hlast, h⟩

theorem map_dropPragmas_of_fixed (h : Text.joinWith ['\n'] (normalize text) = text) :
    (normalize text).map dropPragmas = normalize text := by
  by_cases hne : normalize text = []
  · rw [hne]
    rfl
  · have hplain : ∀ l ∈ normalize text, '\n' ∉ l := fun _ => newline_notMem_normalize
    have hjoined := congrArg dropPragmas h
    rw [dropPragmas_joinWith, dropPragmas_of_fixed h] at hjoined
    have hdropped : ∀ l ∈ (normalize text).map dropPragmas, '\n' ∉ l := by
      intro l hl hmem
      obtain ⟨line, hline, rfl⟩ := List.mem_map.1 hl
      have hnames : ∀ rule ∈ pragmaNames.map dropping, '\n' ∉ rule.2.toList := by decide
      rcases Text.mem_replaceEach hmem with hmem | ⟨rule, hrule, hmem⟩
      · exact hplain line hline hmem
      · exact hnames rule hrule hmem
    calc (normalize text).map dropPragmas
        = Text.splitWhere (· == '\n')
            (Text.joinWith ['\n'] ((normalize text).map dropPragmas)) :=
          (Text.splitWhere_joinWith (by simpa using hne) hdropped).symm
      _ = Text.splitWhere (· == '\n') (Text.joinWith ['\n'] (normalize text)) := by
          rw [hjoined, h]
      _ = normalize text := Text.splitWhere_joinWith hne hplain

/-- The lines of a text that is its own normal form are their own normal forms. -/
theorem fixed_of_joinWith (h : Text.joinWith ['\n'] (normalize text) = text) :
    (∀ l ∈ normalize text, Fixed l) ∧ Text.Ended (normalize text) := by
  have hplain : ∀ l ∈ normalize text, '\n' ∉ l := fun _ => newline_notMem_normalize
  have hsemicolon : ∀ l ∈ normalize text, ';' ∉ l := fun _ => semicolon_notMem_normalize
  have hlines := normalize_eq_map_lines h
  have hdropped := map_dropPragmas_of_fixed h
  generalize hls : normalize text = ls at *
  cases ls using List.reverseRecOn with
  | nil => exact ⟨fun l hl => absurd hl List.not_mem_nil, ⟨hplain, by simp, by simp⟩⟩
  | append_singleton front last =>
      have hsplit := Text.splitWhere_joinWith (by simp) hplain
      rw [h] at hsplit
      rw [Text.lines_eq hsplit] at hlines
      have hlast : last ≠ [] := by
        rintro rfl
        have hlength := congrArg List.length hlines
        simp at hlength
      rw [if_neg hlast, List.map_append, List.map_map, List.map_singleton] at hlines
      obtain ⟨hfront, hend⟩ := List.append_inj' hlines rfl
      have hfront : ∀ l ∈ front, normalizeLine (Text.withoutReturn l) = l := fun l hl =>
        List.map_inj_left.1 (hfront.symm.trans (List.map_id front).symm) l hl
      have hend : normalizeLine last = last := (List.cons_eq_cons.1 hend).1.symm
      refine ⟨fun l hl => ⟨hplain l hl, hsemicolon l hl, ?_, ?_⟩, hplain, fun l hl => ?_, ?_⟩
      · exact List.map_inj_left.1 (hdropped.trans (List.map_id _).symm) l hl
      · rcases List.mem_append.1 hl with hl | hl
        · exact (normalizeLine_withoutReturn (hfront l hl)).2
        · rw [List.mem_singleton.1 hl]
          exact hend
      · rw [List.dropLast_concat] at hl
        exact (normalizeLine_withoutReturn (hfront l hl)).1
      · rw [List.getLast?_concat, Ne, Option.some_inj]
        exact hlast

/-- A written directive is left as it is. -/
theorem fixed_directive {command : String} {pairs : List (String × String)}
    (hcommand : command ∈ Directive.writtenCommands) (h : Directive.Assignable pairs)
    (hvalues : ∀ p ∈ pairs, '\n' ∉ p.2.toList) : Fixed (Directive.line command pairs) := by
  refine ⟨fun hmem => (Directive.chars_line hcommand h hvalues hmem).2 rfl,
    fun hmem => (Directive.chars_line hcommand h hvalues hmem).1 rfl, ?_, ?_⟩
  · have hrules : Text.eachContained (· != '#')
        (pragmaNames.map fun name => (pragmaMarker ++ name, name)) "##! ".toList := by decide
    have hunmarked : dropPragmas "##! ".toList = "##! ".toList := by decide
    exact (Text.replaceEach_append hrules fun c hc =>
      bne_iff_ne.2 (Directive.chars_body hcommand h hvalues hc).2.1).trans
        (congrArg (· ++ _) hunmarked)
  · have hhash : isHashLine (Directive.line command pairs) := rfl
    rw [normalizeLine, if_pos hhash]

theorem fixed_header (h : MadeUpHeader) : Fixed h.text.toList := by
  rw [h.toList_text]
  exact fixed_directive (by decide) h.assignable_pairs h.newline_notMem_pairs

end Source

namespace Parsed

open Source

variable {headers : List MadeUpHeader} {ls : List (List Char)}

theorem fixed_insertHeaders (h : ∀ l ∈ ls, Fixed l) :
    ∀ l ∈ insertHeaders headers 1 ls, Fixed l := by
  intro l hl
  rcases mem_insertHeaders hl with hl | ⟨header, -, rfl⟩
  · exact h l hl
  · exact fixed_header header

theorem ended_insertHeaders (h : Text.Ended ls) : Text.Ended (insertHeaders headers 1 ls) := by
  cases ls using List.reverseRecOn with
  | nil => exact h
  | append_singleton front last =>
      have hsplit : insertHeaders headers 1 (front ++ [last]) = insertHeaders headers 1 front ++
          (headers.filter (·.line == 1 + front.length)).map (·.text.toList) ++ [last] := by
        rw [insertHeaders_append, insertHeaders, insertHeaders, List.append_assoc]
      refine ⟨fun l hl => ?_, fun l hl => ?_, ?_⟩
      · rcases mem_insertHeaders hl with hl | ⟨header, -, rfl⟩
        · exact h.newline l hl
        · exact (fixed_header header).newline
      · rw [hsplit, List.dropLast_concat] at hl
        have hcases : l ∈ front ∨ ∃ header ∈ headers, l = header.text.toList := by
          rcases List.mem_append.1 hl with hl | hl
          · exact mem_insertHeaders hl
          · obtain ⟨header, hheader, rfl⟩ := List.mem_map.1 hl
            exact .inr ⟨header, (List.mem_filter.1 hheader).1, rfl⟩
        rcases hcases with hl | ⟨header, -, rfl⟩
        · exact h.returns l (by rwa [List.dropLast_concat])
        · exact fun hlast => absurd (header.getLast?_text '\r' hlast) (by decide)
      · rw [hsplit, List.getLast?_concat]
        have hlast := h.last
        rwa [List.getLast?_concat] at hlast

/-- The text of a parse of a text in normal form is brought back to its lines and the headers put in front
of them. -/
theorem normalize_insertHeaders {text : List Char}
    (h : Text.joinWith ['\n'] (normalize text) = text) (headers : List MadeUpHeader) :
    normalize (restorePragmas (Text.joinWith ['\n'] (insertHeaders headers 1 (normalize text)))) =
      insertHeaders headers 1 (normalize text) := by
  obtain ⟨hfixed, hended⟩ := fixed_of_joinWith h
  rw [normalize_restorePragmas,
    normalize_joinWith (fixed_insertHeaders hfixed) (ended_insertHeaders hended)]

end Parsed

namespace Source

/-- Pragma markers are invisible: with and without them a text has the same normal form and the same parse,
whatever the gates and the options; in particular a circuit can be written in either way. -/
theorem parseWith_restorePragmas :
    (∀ text : List Char, normalize (restorePragmas text) = normalize text) ∧
      (∀ (ctx : Context) (text : String),
        parseWith ctx (String.ofList (restorePragmas text.toList)) = parseWith ctx text) ∧
      ∀ (ctx : Context) (c : Circuit), parseWith ctx c.pragmaText = parseWith ctx c.stimText := by
  have hparse (ctx : Context) (text : String) :
      parseWith ctx (String.ofList (restorePragmas text.toList)) = parseWith ctx text := by
    rw [parseWith, parseWith, String.toList_ofList, normalize_restorePragmas]
  exact ⟨normalize_restorePragmas, hparse, fun ctx c => hparse ctx c.stimText⟩

end Source

end StimOverlay
