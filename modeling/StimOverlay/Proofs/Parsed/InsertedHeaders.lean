import StimOverlay.Parse
import StimOverlay.Proofs.Directive.MadeUpHeaders

/-! Inserted headers. The text of a parse has the normalized lines in their order, with a pragma marker
where one is needed, and a made-up header in front of every line that has one; so it is known where each
line ends up, and every line of the text is one or the other. -/

namespace StimOverlay

open Build

namespace Text

theorem joinWith_eq_intercalate (separator : List Char) (pieces : List (List Char)) :
    joinWith separator pieces = separator.intercalate pieces := by
  induction pieces with
  | nil => rfl
  | cons piece rest ih =>
      cases rest with
      | nil => simp [joinWith]
      | cons next rest => simp [joinWith, ih]

theorem splitWhere_joinWith {ls : List (List Char)} (hne : ls ≠ []) (h : ∀ l ∈ ls, '\n' ∉ l) :
    splitWhere (· == '\n') (joinWith ['\n'] ls) = ls := by
  rw [joinWith_eq_intercalate]
  refine splitWhere_intercalate rfl hne fun l hl c hc => beq_eq_false_iff_ne.2 ?_
  rintro rfl
  exact h l hl hc

variable {c : Char} {old new : List Char}

/-- A character that is neither replaced nor put in occurs as often as before. -/
theorem count_replaceAfter (hold : c ∉ old) (hnew : c ∉ new) (hne : old ≠ []) (skip : Nat)
    (s : List Char) : (replaceAfter old new skip s).count c = (s.drop skip).count c := by
  induction s generalizing skip with
  | nil => cases skip <;> rfl
  | cons d s ih =>
      cases skip with
      | succ skip => exact ih skip
      | zero =>
          rw [replaceAfter]
          split
          · rename_i hstart
            obtain ⟨rest, hrest⟩ := List.isPrefixOf_iff_prefix.1 hstart
            obtain ⟨e, more, rfl⟩ := List.exists_cons_of_ne_nil hne
            obtain ⟨rfl, hs⟩ := List.cons_eq_cons.1 hrest
            calc (new ++ replaceAfter (e :: more) new more.length s).count c
                = (s.drop more.length).count c := by
                  rw [List.count_append, List.count_eq_zero.2 hnew, Nat.zero_add, ih]
              _ = rest.count c := by rw [← hs]; exact congrArg _ List.drop_left
              _ = (e :: s).count c := by
                  rw [← hrest, List.count_append, List.count_eq_zero.2 hold, Nat.zero_add]
          · rw [List.count_cons, ih 0, List.drop_zero, List.drop_zero, List.count_cons]

theorem count_replaceEach {rules : List (String × String)}
    (h : ∀ rule ∈ rules, rule.1.toList ≠ [] ∧ c ∉ rule.1.toList ∧ c ∉ rule.2.toList)
    (s : List Char) : (replaceEach rules s).count c = s.count c := by
  induction rules generalizing s with
  | nil => rfl
  | cons rule rules ih =>
      obtain ⟨hne, hold, hnew⟩ := h rule List.mem_cons_self
      rw [replaceEach, List.foldl_cons]
      refine (ih (fun r hr => h r (List.mem_cons_of_mem _ hr)) _).trans ?_
      exact count_replaceAfter hold hnew hne 0 s

theorem notMem_of_mem_splitWhere {p : Char → Bool} {s piece : List Char}
    (h : piece ∈ splitWhere p s) : ∀ c ∈ piece, p c = false := by
  induction s generalizing piece with
  | nil =>
      rw [List.mem_singleton.1 h]
      exact fun c hc => absurd hc List.not_mem_nil
  | cons d s ih =>
      rw [splitWhere] at h
      split at h
      · rcases List.mem_cons.1 h with rfl | h
        · exact fun c hc => absurd hc List.not_mem_nil
        · exact ih h
      · rename_i hd
        have hd : p d = false := by simpa using hd
        cases hrest : splitWhere p s with
        | nil => exact absurd hrest (splitWhere_ne_nil p s)
        | cons first others =>
            rw [hrest] at h
            rcases List.mem_cons.1 h with rfl | h
            · exact List.forall_mem_cons.2 ⟨hd, ih (hrest ▸ List.mem_cons_self)⟩
            · exact ih (hrest ▸ List.mem_cons_of_mem _ h)

theorem newline_notMem_of_mem_lines {s line : List Char} (h : line ∈ lines s) : '\n' ∉ line := by
  have hpiece {piece : List Char} (hpiece : piece ∈ splitWhere (· == '\n') s) : '\n' ∉ piece :=
    fun hmem => absurd (notMem_of_mem_splitWhere hpiece _ hmem) (by decide)
  have hended {line : List Char} (hline : line ∈ (splitWhere (· == '\n') s).dropLast.map
      fun line => (dropLast? '\r' line).getD line) : '\n' ∉ line := by
    obtain ⟨piece, hmem, rfl⟩ := List.mem_map.1 hline
    have hplain := hpiece (List.dropLast_subset _ hmem)
    unfold dropLast?
    split_ifs
    · exact fun hin => hplain (List.dropLast_subset _ hin)
    · exact hplain
  unfold lines at h
  dsimp only at h
  split at h
  · exact hended h
  · exact hended h
  · rename_i last hlast
    rcases List.mem_append.1 h with h | h
    · exact hended h
    · rw [List.mem_singleton.1 h]
      exact hpiece (List.mem_of_getLast? hlast)

end Text

namespace Source

/-- A character that normalizing a line neither drops nor puts in. -/
def IsKept (c : Char) : Prop := c ≠ '_' ∧ c ≠ ' ' ∧
  ∀ rule ∈ shorthand, rule.1.toList ≠ [] ∧ c ∉ rule.1.toList ∧ c ∉ rule.2.toList

instance (c : Char) : Decidable (IsKept c) := inferInstanceAs (Decidable (_ ∧ _ ∧ _))

variable {c : Char}

theorem count_spellOut (hc : IsKept c) (s : List Char) : (spellOut s).count c = s.count c := by
  obtain ⟨hunderscore, hblank, hrules⟩ := hc
  rw [spellOut, Text.count_replaceEach hrules]
  induction s with
  | nil => rfl
  | cons d s ih =>
      rw [List.map_cons, List.count_cons, List.count_cons, ih]
      by_cases hd : d = '_'
      · subst hd
        simp [Ne.symm hunderscore, Ne.symm hblank]
      · simp [hd]

theorem cutTag?_append {line name tag rest : List Char} (h : cutTag? line = some (name, tag, rest)) :
    name ++ tag ++ rest = line := by
  unfold cutTag? at h
  dsimp only at h
  split at h
  · rename_i behind hbehind
    cases h
    rw [List.append_assoc, Text.splitAfter_append, ← hbehind, List.append_assoc,
      List.takeWhile_append_dropWhile, Text.trimStart, List.takeWhile_append_dropWhile]
  · cases h

theorem count_normalizeLine (hc : IsKept c) (line : List Char) :
    (normalizeLine line).count c = line.count c := by
  unfold normalizeLine
  split_ifs
  · rfl
  · unfold normalizeInstruction
    split
    · rename_i name tag rest hcut
      rw [List.count_append, List.count_append, count_spellOut hc, count_spellOut hc,
        ← List.count_append, ← List.count_append, cutTag?_append hcut]
    · exact count_spellOut hc line

theorem newline_notMem_normalize {text line : List Char} (h : line ∈ normalize text) :
    '\n' ∉ line := by
  obtain ⟨source, hsource, rfl⟩ := List.mem_map.1 h
  rw [← List.count_eq_zero, count_normalizeLine (by decide), List.count_eq_zero]
  exact Text.newline_notMem_of_mem_lines hsource

end Source

theorem countP_le_succ (l : List Nat) (k : Nat) :
    l.countP (· ≤ k + 1) = l.countP (· ≤ k) + l.count (k + 1) := by
  induction l with
  | nil => rfl
  | cons n l ih =>
      rw [List.countP_cons, List.countP_cons, List.count_cons, ih]
      rcases Nat.lt_trichotomy n (k + 1) with hlt | rfl | hlt
      · simp [Nat.le_of_lt_succ hlt, Nat.le_of_lt hlt, Nat.ne_of_lt hlt]
        omega
      · simp
        omega
      · simp [Nat.not_le.2 hlt, Nat.not_le.2 (Nat.lt_of_succ_lt hlt), Nat.ne_of_gt hlt]

namespace Parsed

variable {inserted : List Nat}

theorem shiftLine_succ (inserted : List Nat) (k : Nat) :
    shiftLine inserted (k + 1) = shiftLine inserted k + 1 + inserted.count (k + 1) := by
  rw [shiftLine, shiftLine, countP_le_succ]
  omega

theorem shiftLine_zero (hpos : ∀ n ∈ inserted, 0 < n) : shiftLine inserted 0 = 0 := by
  rw [shiftLine, Nat.zero_add, List.countP_eq_zero]
  intro n hn
  simpa using Nat.ne_of_gt (hpos n hn)

theorem shiftLine_pred (hnodup : inserted.Nodup) {n : Nat} (h : n ∈ inserted) (hpos : 0 < n) :
    shiftLine inserted n = shiftLine inserted (n - 1) + 2 := by
  obtain ⟨n, rfl⟩ := Nat.exists_eq_succ_of_ne_zero (Nat.ne_of_gt hpos)
  rw [shiftLine_succ, List.count_eq_one_of_mem hnodup h, Nat.succ_sub_one]

variable {headers : List MadeUpHeader}

theorem insertHeaders_nil (number : Nat) (lines : List (List Char)) :
    insertHeaders [] number lines = lines := by
  induction lines generalizing number with
  | nil => rfl
  | cons line rest ih => rw [insertHeaders, ih]; rfl

theorem shiftLine_nil (line : Nat) : shiftLine [] line = line := rfl

theorem mem_insertHeaders {number : Nat} {source : List (List Char)} {text : List Char}
    (h : text ∈ insertHeaders headers number source) :
    text ∈ source ∨ ∃ header ∈ headers, text = header.text.toList := by
  induction source generalizing number with
  | nil => exact .inl h
  | cons line rest ih =>
      rw [insertHeaders] at h
      rcases List.mem_append.1 h with h | h
      · obtain ⟨header, hheader, rfl⟩ := List.mem_map.1 h
        exact .inr ⟨header, (List.mem_filter.1 hheader).1, rfl⟩
      · rcases List.mem_cons.1 h with rfl | h
        · exact .inl List.mem_cons_self
        · exact (ih h).imp_left (List.mem_cons_of_mem line)

theorem insertHeaders_append (headers : List MadeUpHeader) (number : Nat)
    (xs ys : List (List Char)) : insertHeaders headers number (xs ++ ys) =
      insertHeaders headers number xs ++ insertHeaders headers (number + xs.length) ys := by
  induction xs generalizing number with
  | nil => rfl
  | cons line xs ih =>
      rw [List.cons_append, insertHeaders, ih, insertHeaders, List.append_assoc, List.cons_append,
        List.length_cons, Nat.add_comm xs.length, Nat.add_assoc]

theorem length_filter_line (headers : List MadeUpHeader) (n : Nat) :
    (headers.filter (·.line == n)).length = (headers.map (·.line)).count n := by
  rw [List.count, List.countP_map, List.countP_eq_length_filter]
  rfl

theorem length_insertHeaders_add (headers : List MadeUpHeader) (number : Nat)
    (lines : List (List Char)) :
    (insertHeaders headers (number + 1) lines).length + shiftLine (headers.map (·.line)) number =
      shiftLine (headers.map (·.line)) (number + lines.length) := by
  induction lines generalizing number with
  | nil => exact Nat.zero_add _
  | cons line rest ih =>
      rw [insertHeaders, List.length_append, List.length_cons, List.length_map, length_filter_line,
        List.length_cons, show number + (rest.length + 1) = number + 1 + rest.length by omega, ← ih,
        shiftLine_succ]
      omega

theorem filter_line_eq_singleton (hnodup : (headers.map (·.line)).Nodup) {h : MadeUpHeader}
    (hmem : h ∈ headers) : headers.filter (·.line == h.line) = [h] := by
  have hlength : (headers.filter (·.line == h.line)).length = 1 := by
    rw [length_filter_line, List.count_eq_one_of_mem hnodup (List.mem_map_of_mem hmem)]
  obtain ⟨h', hfilter⟩ := List.length_eq_one_iff.1 hlength
  have hself : h ∈ headers.filter (·.line == h.line) := List.mem_filter.2 ⟨hmem, beq_self_eq_true _⟩
  rw [hfilter] at hself ⊢
  rw [List.mem_singleton.1 hself]

theorem filter_line_eq_nil {number : Nat} (h : number ∉ headers.map (·.line)) :
    headers.filter (·.line == number) = [] := by
  rw [List.filter_eq_nil_iff]
  intro header hheader heq
  exact h (List.mem_map.2 ⟨header, hheader, eq_of_beq heq⟩)

theorem insertHeaders_cons_of_notMem {number : Nat} (h : number ∉ headers.map (·.line))
    (text : List Char) (rest : List (List Char)) :
    insertHeaders headers number (text :: rest) = text :: insertHeaders headers (number + 1) rest := by
  rw [insertHeaders, filter_line_eq_nil h]
  rfl

theorem shiftLine_succ_of_notMem {number : Nat} (h : number + 1 ∉ headers.map (·.line)) :
    shiftLine (headers.map (·.line)) (number + 1) = shiftLine (headers.map (·.line)) number + 1 := by
  rw [shiftLine_succ, List.count_eq_zero.2 h]

end Parsed

end StimOverlay
