import StimOverlay.Proofs.Directive.AssignedValues
import StimOverlay.Proofs.Directive.WrittenAssignments

/-! Quoted values. A value that has been read off a directive is written in quotes if a blank would cut it
short. Only a value that starts with a parenthesis never gets quotes, so that the first closing
parenthesis ends it: it comes back if and only if that parenthesis is its last character. -/

namespace StimOverlay.Directive

/-- A value that starts with a parenthesis and ends with the first closing one. -/
def IsEnclosed (value : List Char) : Prop := ∃ inner, value = '(' :: inner ++ [')'] ∧ ')' ∉ inner

/-- A value of one of the forms that are read: it has no quote in it, it starts with a parenthesis, or it has
no blank in it and does not start with a quote. -/
def IsScanned (value : List Char) : Prop :=
  '"' ∉ value ∨ value.head? = some '(' ∨
    (∀ c ∈ value, Text.isBlank c = false) ∧ value.head? ≠ some '"'

theorem isScanned_readValue (s : List Char) : IsScanned (readValue s).1 := by
  unfold readValue
  split
  · rename_i rest
    refine .inl ?_
    split
    · rename_i value after hsplit
      rw [Text.splitOnce?] at hsplit
      split at hsplit
      · cases hsplit
      · cases hsplit
        exact fun hmem => absurd (List.mem_takeWhile_imp hmem) (by decide)
    · rename_i hsplit
      rw [Text.splitOnce?] at hsplit
      split at hsplit
      · rename_i hdrop
        exact fun hmem => absurd (List.dropWhile_eq_nil_iff.1 hdrop _ hmem) (by decide)
      · cases hsplit
  · exact .inr (.inl rfl)
  · rename_i hquote _
    refine .inr (.inr ⟨fun c hc => by simpa using List.mem_takeWhile_imp hc, fun hhead => ?_⟩)
    rw [Text.before, List.head?_takeWhile, Option.filter_eq_some_iff] at hhead
    obtain ⟨rest, rfl⟩ := List.head?_eq_some_iff.1 hhead.1
    exact hquote rest rfl

/-- A value between quotes is read without them. -/
theorem readValue_quoted {value : List Char} (hvalue : '"' ∉ value) (rest : List Char) :
    readValue ('"' :: value ++ '"' :: rest) = (value, value.length + 2) := by
  have hsplit : Text.splitOnce? (· == '"') (value ++ '"' :: rest) = some (value, rest) := by
    refine Text.splitOnce?_append (fun c hc => ?_) rfl rest
    rw [beq_eq_false_iff_ne]
    rintro rfl
    exact hvalue hc
  rw [List.cons_append, readValue, hsplit]

variable {value rest : List Char}

/-- What is written for a value is read as the value, unless a parenthesis cuts it short. -/
theorem readValue_writeValue (hvalue : IsScanned value) (hne : value ≠ [])
    (henclosed : value.head? = some '(' → IsEnclosed value) (hrest : ∀ c ∈ rest.head?, c = ' ') :
    readValue (writeValue value ++ rest) = (value, (writeValue value).length) := by
  have hblank : ∀ c ∈ rest.head?, Text.isBlank c := fun c hc => by
    rw [hrest c hc]
    decide
  by_cases hparenthesis : value.head? = some '('
  · obtain ⟨inner, rfl, hinner⟩ := henclosed hparenthesis
    have hwrite : writeValue ('(' :: inner ++ [')']) = '(' :: inner ++ [')'] := by
      simp [writeValue]
    rw [hwrite, List.append_assoc]
    exact readValue_parenthesized hinner rest
  by_cases hany : value.any Text.isBlank
  · have hquote : '"' ∉ value := by
      rcases hvalue with hquote | hhead | ⟨hplain, -⟩
      · exact hquote
      · exact absurd hhead hparenthesis
      · obtain ⟨c, hc, hblank⟩ := List.any_eq_true.1 hany
        rw [hplain c hc] at hblank
        cases hblank
    have hwrite : writeValue value = '"' :: value ++ ['"'] := by
      rw [writeValue, if_pos (by simp [hany, hparenthesis])]
    rw [hwrite, List.append_assoc, List.singleton_append, readValue_quoted hquote]
    simp
  · have hplain : ∀ c ∈ value, Text.isBlank c = false := fun c hc => by
      simpa using fun hblank => hany (List.any_eq_true.2 ⟨c, hc, hblank⟩)
    have hwrite : writeValue value = value := by
      rw [writeValue, if_neg (by simp [hany])]
    rw [hwrite]
    refine readValue_unquoted hne hplain (fun c hc => ⟨?_, ?_⟩) hblank
    · rintro rfl
      rcases hvalue with hquote | hhead | ⟨-, hhead⟩
      · exact hquote (List.mem_of_head? hc)
      · exact hparenthesis hhead
      · exact hhead hc
    · rintro rfl
      exact hparenthesis hc

/-- What is written for a value does not start with a blank. -/
theorem isAsciiBlank_writeValue (hne : value ≠ []) :
    ∀ c ∈ (writeValue value ++ rest).head?, Text.isAsciiBlank c = false := by
  obtain ⟨d, more, rfl⟩ := List.exists_cons_of_ne_nil hne
  intro c hc
  rw [writeValue] at hc
  split_ifs at hc with hquoted
  · cases hc
    decide
  · cases hc
    rw [Bool.and_eq_true, not_and_or] at hquoted
    rcases hquoted with hany | hparenthesis
    · rw [List.any_cons, Bool.or_eq_true, not_or, Bool.not_eq_true] at hany
      exact Text.isAsciiBlank_eq_false hany.1
    · obtain rfl : d = '(' := by simpa using hparenthesis
      decide

/-- A value with a parenthesis in front that is read in front of something else ends with the first closing
one. -/
theorem isEnclosed_of_readValue (hparenthesis : value.head? = some '(') (hrest : ')' ∉ rest)
    (hne : rest ≠ []) (h : (readValue (value ++ rest)).1 = value) : IsEnclosed value := by
  obtain ⟨more, rfl⟩ := List.head?_eq_some_iff.1 hparenthesis
  by_cases hclosed : ')' ∈ more
  · obtain ⟨inner, behind, rfl, hinner⟩ := List.eq_append_cons_of_mem hclosed
    have hshape : '(' :: (inner ++ ')' :: behind) ++ rest = '(' :: inner ++ ')' :: (behind ++ rest) := by
      simp
    rw [hshape, readValue_parenthesized hinner] at h
    exact ⟨inner, h.symm, hinner⟩
  · have hnone : ∀ c ∈ '(' :: more ++ rest, (c == ')') = false := by
      intro c hc
      rw [beq_eq_false_iff_ne]
      rintro rfl
      rw [List.cons_append, List.mem_cons, List.mem_append] at hc
      exact hc.elim (by decide) fun hc => hc.elim hclosed hrest
    rw [List.cons_append, readValue, ← List.cons_append, Text.splitAfter_of_none hnone] at h
    exact absurd (List.append_right_eq_self.1 h) hne

namespace Keys

theorem get?_read (s : List Char) (key : String) :
    (read s).get? key = (valueIn (items s) key).filter (!·.isEmpty) := by
  rw [get?, read, lookup_ofItems]

theorem isScanned_of_get? {s : List Char} {key value : String} (h : (read s).get? key = some value) :
    value.toList ≠ [] ∧ IsScanned value.toList := by
  rw [get?_read, Option.filter_eq_some_iff] at h
  obtain ⟨hvalue, hne⟩ := h
  have hne : value ≠ "" := by simpa using hne
  rcases valueIn_cases hvalue with rfl | ⟨k, hk⟩
  · exact absurd rfl hne
  · obtain ⟨t, -, heq⟩ := exists_readValue hk
    exact ⟨by simpa using hne, heq ▸ isScanned_readValue t⟩

theorem valueIn_cons_self {k v : List Char} {items : List Item}
    (h : String.ofList k ∉ items.map Item.key) :
    valueIn (.assignment k v :: items) (String.ofList k) = some (String.ofList v) := by
  rw [valueIn_eq, List.foldl_cons, foldl_of_notMem h, valueAfter, if_pos (beq_self_eq_true _)]

theorem valueIn_cons_of_ne {k v : List Char} {items : List Item} {key : String}
    (h : String.ofList k ≠ key) : valueIn (.assignment k v :: items) key = valueIn items key := by
  have hkey : (Item.assignment k v).key ≠ key := h
  rw [valueIn_eq, List.foldl_cons, valueAfter_of_ne none hkey, valueIn_eq]

end Keys

/-- Written behind any key, at the end of a body or in front of a blank, the value is read as it was, and what
follows it is read as if it stood alone. -/
def Survives (value : String) : Prop :=
  ∀ key rest, isKey key → (∀ c ∈ rest.head?, c = ' ') →
    let body := key ++ '=' :: (writeValue value.toList ++ rest)
    let name := String.ofList (key.map Char.toUpper)
    items body = .assignment (key.map Char.toUpper) value.toList :: items rest ∧
      (name ∉ (items rest).map Item.key → (Keys.read body).get? name = some value) ∧
      ∀ other ≠ name, (Keys.read body).get? other = (Keys.read rest).get? other

/-- A value that has been read off some directive survives being written and read if and only if it ends with
its first closing parenthesis or does not start with a parenthesis. -/
theorem survives_iff {s : List Char} {key value : String} (h : (Keys.read s).get? key = some value) :
    Survives value ↔ (value.toList.head? = some '(' → IsEnclosed value.toList) := by
  obtain ⟨hne, hvalue⟩ := Keys.isScanned_of_get? h
  constructor
  · intro hsurvives hparenthesis
    obtain ⟨hitems, -⟩ := hsurvives ['K'] [' ', 'Z', '=', '0'] (by decide) (by simp)
    rw [items, items_key (by decide) (isAsciiBlank_writeValue hne)] at hitems
    have hwrite : writeValue value.toList = value.toList := by
      simp [writeValue, hparenthesis]
    injection (List.cons.inj hitems).1 with _ hread
    rw [hwrite] at hread
    exact isEnclosed_of_readValue hparenthesis (by decide) (by decide) hread
  · intro henclosed key rest hkey hrest body name
    have hread := readValue_writeValue hvalue hne henclosed hrest
    have hitems : items body = .assignment (key.map Char.toUpper) value.toList :: items rest := by
      rw [items, items_key hkey (isAsciiBlank_writeValue hne), hread, List.drop_left]
      rfl
    refine ⟨hitems, fun hname => ?_, fun other hother => ?_⟩
    · rw [Keys.get?_read, hitems, Keys.valueIn_cons_self hname, String.ofList_toList, Option.filter_some,
        if_pos]
      simpa using hne
    · rw [Keys.get?_read, hitems, Keys.valueIn_cons_of_ne (Ne.symm hother), Keys.get?_read]

/-- A blank inside a value is kept by quotes, but not behind a group in parentheses. -/
theorem survives_behind_group : Survives "a b" ∧ ¬Survives "(a) b" := by
  have hplain : (Keys.read "NAME=\"a b\"".toList).get? "NAME" = some "a b" := by decide +kernel
  have hgroup : (Keys.read "NAME=\"(a) b\"".toList).get? "NAME" = some "(a) b" := by decide +kernel
  refine ⟨(survives_iff hplain).2 fun h => absurd h (by decide), fun h => ?_⟩
  obtain ⟨inner, heq, -⟩ := (survives_iff hgroup).1 h rfl
  have hlast := congrArg List.getLast? heq
  rw [List.getLast?_concat] at hlast
  exact absurd hlast (by decide)

end StimOverlay.Directive
