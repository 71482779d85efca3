import StimOverlay.Directive.Basic
import StimOverlay.Proofs.Source.SpelledOutLines

/-! Written assignments. A directive that is written as a command and assignments of plain values is in
normal form, and reads back as that command with those assignments, whatever stands inside of the values'
parentheses. -/

namespace StimOverlay.Directive

/-- A value that stands for itself: nothing in it ends a value or a line. -/
def IsBare (value : List Char) : Prop :=
  value ≠ [] ∧ ∀ c ∈ value, Text.isBlank c = false ∧ c ∉ ['"', '(', ')', ';', '#']

/-- A group between parentheses, with none inside. -/
def IsGroup (value : List Char) : Prop :=
  ∃ inner, value = '(' :: inner ++ [')'] ∧ ∀ c ∈ inner, c ∉ ['(', ')', ';', '#']

-- The characters of the value are gone through, not all characters there are.
instance (value : List Char) : Decidable (IsBare value) :=
  have := List.decidableBAll (fun c => Text.isBlank c = false ∧ c ∉ ['"', '(', ')', ';', '#']) value
  inferInstanceAs (Decidable (_ ∧ _))

instance (value : List Char) : Decidable (IsGroup value) :=
  have := List.decidableBAll (fun c => c ∉ ['(', ')', ';', '#']) value.tail.dropLast
  decidable_of_iff (value = '(' :: value.tail.dropLast ++ [')'] ∧
    ∀ c ∈ value.tail.dropLast, c ∉ ['(', ')', ';', '#']) ⟨fun h => ⟨_, h⟩, by
      rintro ⟨inner, rfl, hinner⟩
      rw [List.cons_append, List.tail_cons, List.dropLast_concat]
      exact ⟨rfl, hinner⟩⟩

/-- A value that can be written without quotes. -/
def IsPlain (value : List Char) : Prop := IsBare value ∨ IsGroup value

instance (value : List Char) : Decidable (IsPlain value) := inferInstanceAs (Decidable (_ ∨ _))

theorem IsPlain.ne_nil {value : List Char} (h : IsPlain value) : value ≠ [] := by
  rcases h with h | ⟨inner, rfl, -⟩
  · exact h.1
  · simp

/-- Neither end of a plain value is a blank. -/
theorem IsPlain.ends {value : List Char} (h : IsPlain value) :
    (∀ c ∈ value.head?, Text.isBlank c = false) ∧ ∀ c ∈ value.getLast?, Text.isBlank c = false := by
  rcases h with h | ⟨inner, rfl, -⟩
  · exact ⟨fun c hc => (h.2 c (List.mem_of_head? hc)).1,
      fun c hc => (h.2 c (List.mem_of_getLast? hc)).1⟩
  · rw [List.getLast?_concat]
    constructor <;>
      · rintro c ⟨⟩
        decide

/-- Nothing in a plain value ends a line or starts a marker. -/
theorem IsPlain.chars {value : List Char} (h : IsPlain value) {c : Char} (hc : c ∈ value) :
    c ≠ ';' ∧ c ≠ '#' := by
  rcases h with h | ⟨inner, rfl, h⟩
  · have hc := (h.2 c hc).2
    simp only [List.mem_cons, not_or] at hc
    exact ⟨hc.2.2.2.1, hc.2.2.2.2.1⟩
  · rcases List.mem_append.1 hc with hc | hc
    · rcases List.mem_cons.1 hc with rfl | hc
      · decide
      · have hc := h c hc
        simp only [List.mem_cons, not_or] at hc
        exact ⟨hc.2.2.1, hc.2.2.2.1⟩
    · rw [List.mem_singleton.1 hc]
      decide

/-- A value without quotes or parentheses ends at a blank, or with the text. -/
theorem readValue_unquoted {value rest : List Char} (hne : value ≠ [])
    (hplain : ∀ c ∈ value, Text.isBlank c = false) (hhead : ∀ c ∈ value.head?, c ≠ '"' ∧ c ≠ '(')
    (hrest : ∀ c ∈ rest.head?, Text.isBlank c) : readValue (value ++ rest) = (value, value.length) := by
  have hbefore : Text.before Text.isBlank (value ++ rest) = value := by
    have hfront : ∀ c ∈ value, (!Text.isBlank c) = true := fun c hc => by simp [hplain c hc]
    exact (Text.takeWhile_run hfront fun c hc => by simp [hrest c hc]).1
  obtain ⟨c, more, rfl⟩ := List.exists_cons_of_ne_nil hne
  obtain ⟨hquote, hparenthesis⟩ := hhead c rfl
  rw [List.cons_append] at hbefore ⊢
  unfold readValue
  split
  · rename_i heq
    exact absurd (List.cons_eq_cons.1 heq).1 hquote
  · rename_i heq
    exact absurd (List.cons_eq_cons.1 heq).1 hparenthesis
  · rw [hbefore]

/-- A value between parentheses keeps them. -/
theorem readValue_parenthesized {inner : List Char} (hinner : ')' ∉ inner) (rest : List Char) :
    readValue ('(' :: inner ++ ')' :: rest) =
      ('(' :: inner ++ [')'], ('(' :: inner ++ [')']).length) := by
  have hsplit : Text.splitAfter (· == ')') ('(' :: inner ++ ')' :: rest) =
      ('(' :: inner ++ [')'], rest) := by
    refine Text.splitAfter_of_first (fun c hc => ?_) rfl rest
    rw [beq_eq_false_iff_ne]
    rintro rfl
    rcases List.mem_cons.1 hc with hc | hc
    · cases hc
    · exact hinner hc
  rw [List.cons_append] at hsplit ⊢
  rw [readValue, hsplit]

theorem readValue_plain {value rest : List Char} (h : IsPlain value)
    (hrest : ∀ c ∈ rest.head?, Text.isBlank c) :
    readValue (value ++ rest) = (value, value.length) := by
  rcases h with h | ⟨inner, rfl, h⟩
  · refine readValue_unquoted h.1 (fun c hc => (h.2 c hc).1) (fun c hc => ?_) hrest
    have hends := (h.2 c (List.mem_of_head? hc)).2
    simp only [List.mem_cons, not_or] at hends
    exact ⟨hends.1, hends.2.1⟩
  · rw [List.append_assoc]
    exact readValue_parenthesized (fun hmem => absurd (h ')' hmem) (by simp)) rest

/-- A plain value is written as it is. -/
theorem writeValue_plain {value : List Char} (h : IsPlain value) : writeValue value = value := by
  rw [writeValue, if_neg]
  rcases h with h | ⟨inner, rfl, -⟩
  · have hany : value.any Text.isBlank = false := List.any_eq_false.2 fun c hc => by
      simp [(h.2 c hc).1]
    simp [hany]
  · simp

theorem itemsAfter_skip (skip : Nat) (s : List Char) : itemsAfter skip s = itemsAfter 0 (s.drop skip) := by
  induction s generalizing skip with
  | nil => cases skip <;> rfl
  | cons c s ih =>
      cases skip with
      | zero => rfl
      | succ skip => exact ih skip

theorem items_blank (s : List Char) : itemsAfter 0 (' ' :: s) = itemsAfter 0 s := by
  rw [itemsAfter, if_pos (by decide)]

/-- A word that an assignment can start with. -/
def isKey : List Char → Bool
  | [] => false
  | c :: name => Text.isNameStart c && !Text.isAsciiBlank c && name.all Text.isNameRest

theorem exists_of_isKey {key : List Char} (h : isKey key) : ∃ c more, key = c :: more ∧
    Text.isNameStart c ∧ Text.isAsciiBlank c = false ∧ ∀ d ∈ more, Text.isNameRest d := by
  cases key with
  | nil => cases h
  | cons c more =>
      simp only [isKey, Bool.and_eq_true, Bool.not_eq_true', List.all_eq_true] at h
      exact ⟨c, more, rfl, h.1.1, h.1.2, h.2⟩

theorem isNameRest_of_isAsciiBlank {c : Char} (h : Text.isAsciiBlank c) : Text.isNameRest c = false := by
  simp only [Text.isAsciiBlank, Bool.or_eq_true, beq_iff_eq] at h
  rcases h with (((rfl | rfl) | rfl) | rfl) | rfl <;> rfl

variable {more gap : List Char}

/-- Blanks around the equals sign do not count. -/
theorem readItem_assignment (c : Char) (hmore : ∀ d ∈ more, Text.isNameRest d)
    (hgap : ∀ d ∈ gap, Text.isAsciiBlank d) {blanks text : List Char}
    (hblanks : ∀ d ∈ blanks, Text.isAsciiBlank d) (htext : ∀ d ∈ text.head?, Text.isAsciiBlank d = false) :
    readItem c (more ++ (gap ++ '=' :: (blanks ++ text))) =
      (.assignment ((c :: more).map Char.toUpper) (readValue text).1,
        (more ++ (gap ++ '=' :: blanks)).length + (readValue text).2) := by
  have hafter : ∀ d ∈ (gap ++ '=' :: (blanks ++ text)).head?, Text.isNameRest d = false := by
    intro d hd
    cases gap with
    | nil =>
        rw [← Option.some.inj hd]
        rfl
    | cons e gap =>
        rw [← Option.some.inj hd]
        exact isNameRest_of_isAsciiBlank (hgap e List.mem_cons_self)
  have hsign : ∀ d ∈ ('=' :: (blanks ++ text)).head?, Text.isAsciiBlank d = false := fun d hd => by
    rw [← Option.some.inj hd]
    rfl
  unfold readItem
  dsimp only
  rw [(Text.takeWhile_run hmore hafter).1, List.drop_left, (Text.takeWhile_run hgap hsign).1,
    List.drop_left]
  simp only
  rw [(Text.takeWhile_run hblanks htext).1, List.drop_left]
  simp only [List.length_append, List.length_cons, Prod.mk.injEq, true_and]
  omega

theorem readItem_word (c : Char) (hmore : ∀ d ∈ more, Text.isNameRest d)
    (hgap : ∀ d ∈ gap, Text.isAsciiBlank d) {behind : List Char}
    (hafter : ∀ d ∈ (gap ++ behind).head?, Text.isNameRest d = false)
    (hbehind : ∀ d ∈ behind.head?, Text.isAsciiBlank d = false ∧ d ≠ '=') :
    readItem c (more ++ (gap ++ behind)) = (.word ((c :: more).map Char.toUpper), more.length) := by
  unfold readItem
  dsimp only
  rw [(Text.takeWhile_run hmore hafter).1, List.drop_left,
    (Text.takeWhile_run hgap fun d hd => (hbehind d hd).1).1, List.drop_left]
  split
  · exact absurd rfl (hbehind '=' rfl).2
  · rfl

/-- At the start of a name an item is read, and further items behind it. -/
theorem itemsAfter_name {c : Char} (hc : Text.isNameStart c) (hblank : Text.isAsciiBlank c = false)
    (rest : List Char) : itemsAfter 0 (c :: rest) =
      (readItem c rest).1 :: itemsAfter 0 (rest.drop (readItem c rest).2) := by
  rw [itemsAfter, if_neg (by simp [hblank]), if_pos hc, ← itemsAfter_skip]

/-- Behind a key and an equals sign a value is read, and further items behind the value. -/
theorem items_spaced {key blanks s : List Char} (hkey : isKey key)
    (hgap : ∀ c ∈ gap, Text.isAsciiBlank c) (hblanks : ∀ c ∈ blanks, Text.isAsciiBlank c)
    (hs : ∀ c ∈ s.head?, Text.isAsciiBlank c = false) :
    itemsAfter 0 (key ++ (gap ++ '=' :: (blanks ++ s))) =
      .assignment (key.map Char.toUpper) (readValue s).1 :: itemsAfter 0 (s.drop (readValue s).2) := by
  obtain ⟨c, more, rfl, hc, hblank, hmore⟩ := exists_of_isKey hkey
  have hshape : more ++ (gap ++ '=' :: (blanks ++ s)) = more ++ (gap ++ '=' :: blanks) ++ s := by simp
  have hitem := readItem_assignment c hmore hgap hblanks hs
  rw [hshape] at hitem
  rw [List.cons_append, itemsAfter_name hc hblank, hshape, hitem, List.drop_length_add_append]

theorem items_key {key s : List Char} (hkey : isKey key)
    (hs : ∀ c ∈ s.head?, Text.isAsciiBlank c = false) :
    itemsAfter 0 (key ++ '=' :: s) = .assignment (key.map Char.toUpper) (readValue s).1 ::
      itemsAfter 0 (s.drop (readValue s).2) := by
  have hnone : ∀ c ∈ ([] : List Char), Text.isAsciiBlank c := by simp
  exact items_spaced hkey hnone hnone hs

/-- An assignment is read, whatever follows its value. -/
theorem items_assignment {key value rest : List Char} (hkey : isKey key) (hvalue : IsPlain value)
    (hrest : ∀ c ∈ rest.head?, Text.isBlank c) :
    itemsAfter 0 (key ++ '=' :: (value ++ rest)) =
      .assignment (key.map Char.toUpper) value :: itemsAfter 0 rest := by
  rw [items_key hkey, readValue_plain hvalue hrest, List.drop_left]
  intro c hc
  rw [List.head?_append_of_ne_nil _ hvalue.ne_nil] at hc
  exact Text.isAsciiBlank_eq_false (hvalue.ends.1 c hc)

/-- Assignments of values to keys, with blanks between them. -/
def assignments (pairs : List (String × String)) : List Char :=
  [' '].intercalate (pairs.map fun p => p.1.toList ++ '=' :: p.2.toList)

/-- Keys that can be read, each with a plain value. -/
def Assignable (pairs : List (String × String)) : Prop :=
  ∀ p ∈ pairs, isKey p.1.toList ∧ IsPlain p.2.toList

variable {pairs : List (String × String)}

theorem assignments_cons (p : String × String) (rest : List (String × String)) :
    assignments (p :: rest) =
      p.1.toList ++ '=' :: (p.2.toList ++ rest.flatMap fun q =>
        ' ' :: (q.1.toList ++ '=' :: q.2.toList)) := by
  rw [assignments, List.map_cons, Text.intercalate_cons, List.flatMap_map]
  simp

theorem items_assignments (h : Assignable pairs) : items (assignments pairs) =
    pairs.map fun p => .assignment (p.1.toList.map Char.toUpper) p.2.toList := by
  have hbehind {rest : List (String × String)} :
      ∀ c ∈ (rest.flatMap fun q => ' ' :: (q.1.toList ++ '=' :: q.2.toList)).head?,
        Text.isBlank c := by
    intro c hc
    cases rest with
    | nil => cases hc
    | cons q rest =>
        cases hc
        decide
  have hrest {rest : List (String × String)} (h : Assignable rest) :
      itemsAfter 0 (rest.flatMap fun q => ' ' :: (q.1.toList ++ '=' :: q.2.toList)) =
        rest.map fun p => .assignment (p.1.toList.map Char.toUpper) p.2.toList := by
    induction rest with
    | nil => rfl
    | cons q rest ih =>
        obtain ⟨⟨hkey, hvalue⟩, hmore⟩ := List.forall_mem_cons.1 h
        rw [List.flatMap_cons, List.cons_append, items_blank, List.append_assoc, List.cons_append,
          items_assignment hkey hvalue hbehind, ih hmore, List.map_cons]
  cases pairs with
  | nil => rfl
  | cons p rest =>
      obtain ⟨⟨hkey, hvalue⟩, hmore⟩ := List.forall_mem_cons.1 h
      rw [items, assignments_cons, items_assignment hkey hvalue hbehind, hrest hmore, List.map_cons]

/-- A key in upper case. -/
def upperCase (key : String) : String := String.ofList (key.toList.map Char.toUpper)

namespace Keys

theorem lookup_filterMap (f : String → Option String) (key : String) (keys : List String) :
    (keys.filterMap fun k => (f k).map (k, ·)).lookup key = if key ∈ keys then f key else none := by
  induction keys with
  | nil => rfl
  | cons k rest ih =>
      rw [List.filterMap_cons]
      by_cases hkey : key = k
      · subst hkey
        rw [if_pos List.mem_cons_self]
        cases hf : f key with
        | none => simp [ih, hf]
        | some v => simp
      · have hbeq : (key == k) = false := beq_eq_false_iff_ne.2 hkey
        cases f k with
        | none => simp [ih, hkey]
        | some v => simp [List.lookup_cons, hbeq, ih, hkey]

/-- What has been found for a key behind one more item. -/
def valueAfter (key : String) (found : Option String) : Item → Option String
  | .assignment k v => if String.ofList k == key then some (String.ofList v) else found
  | .word w => if String.ofList w == key then found.or (some "") else found

theorem valueIn_eq (items : List Item) (key : String) :
    valueIn items key = items.foldl (valueAfter key) none := rfl

theorem valueAfter_of_ne (found : Option String) {item : Item} {key : String} (h : item.key ≠ key) :
    valueAfter key found item = found := by
  cases item <;> exact if_neg (by simpa [Item.key] using h)

/-- Items that do not mention a key leave what has been found for it. -/
theorem foldl_of_notMem {items : List Item} {key : String} (h : key ∉ items.map Item.key)
    (found : Option String) : items.foldl (valueAfter key) found = found := by
  induction items generalizing found with
  | nil => rfl
  | cons item rest ih =>
      rw [List.map_cons, List.mem_cons, not_or] at h
      rw [List.foldl_cons, valueAfter_of_ne found (Ne.symm h.1), ih h.2]

theorem valueIn_eq_none {items : List Item} {key : String} (h : key ∉ items.map Item.key) :
    valueIn items key = none := foldl_of_notMem h none

/-- What is listed for a key is the value that the items give to it. -/
theorem lookup_ofItems (items : List Item) (key : String) :
    (ofItems items).values.lookup key = valueIn items key := by
  rw [ofItems, lookup_filterMap]
  split_ifs with hmem
  · rfl
  · exact (valueIn_eq_none fun h => hmem (List.mem_eraseDups.2 h)).symm

theorem foldl_assignments {rest : List (String × String)} (hnodup : (rest.map (·.1)).Nodup)
    (key : String) (found : Option String) :
    rest.foldl (fun found p => if p.1 == key then some p.2 else found) found =
      (rest.lookup key).or found := by
  induction rest generalizing found with
  | nil => rfl
  | cons p rest ih =>
      obtain ⟨hnotMem, hrest⟩ := List.nodup_cons.1 hnodup
      rw [List.foldl_cons, ih hrest, List.lookup_cons]
      by_cases hkey : p.1 = key
      · have hnone : rest.lookup key = none := by
          rw [List.lookup_eq_none_iff]
          intro q hq
          rw [bne_iff_ne]
          rintro rfl
          exact hnotMem (List.mem_map.2 ⟨q, hq, hkey.symm⟩)
        simp [hkey, hnone]
      · have hbeq : (key == p.1) = false := beq_eq_false_iff_ne.2 (Ne.symm hkey)
        simp [hkey, hbeq]

/-- A key is read with the value that is assigned to it. -/
theorem get?_assignments (h : Assignable pairs) {assigned : List (String × String)}
    (hassigned : pairs.map (fun p => (upperCase p.1, p.2)) = assigned)
    (hnodup : (assigned.map (·.1)).Nodup) (key : String) :
    (read (assignments pairs)).get? key = assigned.lookup key := by
  have hvalue : valueIn (items (assignments pairs)) key = assigned.lookup key := by
    rw [items_assignments h, valueIn, List.foldl_map]
    have hfold := foldl_assignments hnodup key none
    rw [← hassigned, List.foldl_map, Option.or_none, hassigned] at hfold
    rw [← hfold]
    simp only [upperCase, String.ofList_toList]
    rfl
  rw [get?, read, lookup_ofItems, hvalue]
  cases hfound : assigned.lookup key with
  | none => rfl
  | some v =>
      obtain ⟨before, after, hsplit, -⟩ := List.lookup_eq_some_iff.1 hfound
      have hmem : (key, v) ∈ pairs.map fun p => (upperCase p.1, p.2) := by
        rw [hassigned, hsplit]
        exact List.mem_append_right _ List.mem_cons_self
      obtain ⟨p, hp, heq⟩ := List.mem_map.1 hmem
      cases heq
      rw [Option.filter_some, if_pos]
      simpa using (h p hp).2.ne_nil

end Keys

/-- A directive of assignments as it is written. -/
def line (command : String) (pairs : List (String × String)) : List Char :=
  "##! ".toList ++ (command.toList ++ ' ' :: assignments pairs)

/-- The commands of directives that are written. -/
def writtenCommands : List String := ["SHEET", "POLY"]

theorem bare_command : ∀ command ∈ writtenCommands, IsBare command.toList := by decide

theorem assignments_ne_nil (hne : pairs ≠ []) : assignments pairs ≠ [] := by
  obtain ⟨p, rest, rfl⟩ := List.exists_cons_of_ne_nil hne
  rw [assignments_cons]
  simp

theorem getLast?_assignments (h : Assignable pairs) :
    ∀ c ∈ (assignments pairs).getLast?, Text.isBlank c = false := by
  induction pairs with
  | nil => simp [assignments]
  | cons p rest ih =>
      obtain ⟨⟨-, hvalue⟩, hrest⟩ := List.forall_mem_cons.1 h
      cases rest with
      | nil =>
          rw [assignments_cons, List.flatMap_nil, List.append_nil, ← List.singleton_append,
            List.getLast?_append_of_ne_nil _ (by simp),
            List.getLast?_append_of_ne_nil _ hvalue.ne_nil]
          exact hvalue.ends.2
      | cons q rest =>
          have hsplit : assignments (p :: q :: rest) =
              (p.1.toList ++ '=' :: p.2.toList) ++ [' '] ++ assignments (q :: rest) := by
            rw [assignments, List.map_cons, List.map_cons, List.intercalate_cons_cons]
            rfl
          rw [hsplit, List.getLast?_append_of_ne_nil _ (assignments_ne_nil (by simp))]
          exact ih hrest

/-- What is behind the marker of a written directive, without blanks around it. -/
theorem trim_body {command : String} (hcommand : command ∈ writtenCommands) (hne : pairs ≠ [])
    (h : Assignable pairs) : Text.trim (command.toList ++ ' ' :: assignments pairs) =
      command.toList ++ ' ' :: assignments pairs := by
  obtain ⟨hcommandNe, hplain⟩ := bare_command command hcommand
  refine Source.trim_eq_self (fun c hc => ?_) fun c hc => ?_
  · rw [List.head?_append_of_ne_nil _ hcommandNe] at hc
    exact (hplain c (List.mem_of_head? hc)).1
  · rw [List.getLast?_append_of_ne_nil _ (by simp), ← List.singleton_append,
      List.getLast?_append_of_ne_nil _ (assignments_ne_nil hne)] at hc
    exact getLast?_assignments h c hc

theorem getLast?_line {command : String} (hne : pairs ≠ []) (h : Assignable pairs) :
    ∀ c ∈ (line command pairs).getLast?, Text.isBlank c = false := by
  rw [line, List.getLast?_append_of_ne_nil _ (by simp), List.getLast?_append_of_ne_nil _ (by simp),
    ← List.singleton_append, List.getLast?_append_of_ne_nil _ (assignments_ne_nil hne)]
  exact getLast?_assignments h

theorem trim_line {command : String} (hne : pairs ≠ []) (h : Assignable pairs) :
    Text.trim (line command pairs) = line command pairs := by
  refine Source.trim_eq_self (fun c hc => ?_) (getLast?_line hne h)
  cases hc
  decide

/-- A written directive is read as its command, with the keys that are assigned. -/
theorem read_line {command : String} (hcommand : command ∈ writtenCommands) (hne : pairs ≠ [])
    (h : Assignable pairs) : (read (line command pairs)).kind = kindOf command ∧
      (read (line command pairs)).keys = Keys.read (assignments pairs) := by
  have hfacts : ∀ command ∈ writtenCommands,
      String.ofList (command.toList.map Char.toUpper) = command ∧ kindOf command ≠ .connections := by
    decide
  obtain ⟨hupper, hkind⟩ := hfacts command hcommand
  have hbody : Text.trim (dropMarkers (Text.trimStart (line command pairs))) =
      command.toList ++ ' ' :: assignments pairs := by
    have hdrop : dropMarkers (Text.trimStart (line command pairs)) =
        ' ' :: (command.toList ++ ' ' :: assignments pairs) := rfl
    rw [hdrop, Instruction.trim_blank, trim_body hcommand hne h]
  have hsplit : Text.splitOnce? Text.isBlank (command.toList ++ ' ' :: assignments pairs) =
      some (command.toList, assignments pairs) := by
    exact Text.splitOnce?_append (fun c hc => ((bare_command command hcommand).2 c hc).1)
      (by decide) _
  rw [read, hbody, hsplit]
  dsimp only [Option.getD_some]
  rw [hupper, if_neg hkind]
  exact ⟨rfl, rfl⟩

theorem isDirective_line (command : String) (pairs : List (String × String)) :
    Source.isDirective (line command pairs) := rfl

theorem isTrivia_line (command : String) (pairs : List (String × String)) :
    Build.State.isTrivia (line command pairs) = false := rfl

/-- A written directive is no part of the block structure. -/
theorem mark_line (command : String) (pairs : List (String × String)) :
    Block.mark (line command pairs) = .plain := rfl

theorem chars_key {key : List Char} (h : isKey key) {c : Char} (hc : c ∈ key) :
    c ≠ ';' ∧ c ≠ '#' ∧ c ≠ '\n' := by
  have hends : ∀ c ∈ [';', '#', '\n'], Text.isNameStart c = false ∧ Text.isNameRest c = false :=
    List.all_iff_forall_prop.1 (by decide)
  have hplain (d : Char) (hd : d ∈ [';', '#', '\n']) : c ≠ d := by
    rintro rfl
    obtain ⟨e, name, rfl, he, -, hname⟩ := exists_of_isKey h
    rcases List.mem_cons.1 hc with rfl | hc
    · rw [(hends _ hd).1] at he
      cases he
    · have hrest := hname c hc
      rw [(hends _ hd).2] at hrest
      cases hrest
  exact ⟨hplain ';' (by simp), hplain '#' (by simp), hplain '\n' (by simp)⟩

/-- Behind its marker a written directive has the characters of its command, its keys and its values. -/
theorem mem_body {command : String} {c : Char} (hc : c ∈ command.toList ++ ' ' :: assignments pairs) :
    c ∈ [' ', '='] ∨ c ∈ command.toList ∨ ∃ p ∈ pairs, c ∈ p.1.toList ∨ c ∈ p.2.toList := by
  rcases List.mem_append.1 hc with hc | hc
  · exact .inr (.inl hc)
  · rcases List.mem_cons.1 hc with rfl | hc
    · exact .inl (by decide)
    · rcases Text.mem_intercalate hc with hc | ⟨w, hw, hc⟩
      · rw [List.mem_singleton.1 hc]
        exact .inl (by decide)
      · obtain ⟨p, hp, rfl⟩ := List.mem_map.1 hw
        rcases List.mem_append.1 hc with hc | hc
        · exact .inr (.inr ⟨p, hp, .inl hc⟩)
        · rcases List.mem_cons.1 hc with rfl | hc
          · exact .inl (by decide)
          · exact .inr (.inr ⟨p, hp, .inr hc⟩)

/-- Behind its marker nothing in a written directive ends the line or starts another marker. -/
theorem chars_body {command : String} (hcommand : command ∈ writtenCommands) (h : Assignable pairs)
    (hvalues : ∀ p ∈ pairs, '\n' ∉ p.2.toList) {c : Char}
    (hc : c ∈ command.toList ++ ' ' :: assignments pairs) : c ≠ ';' ∧ c ≠ '#' ∧ c ≠ '\n' := by
  have hmarks : ∀ c ∈ [' ', '='], c ≠ ';' ∧ c ≠ '#' ∧ c ≠ '\n' :=
    List.all_iff_forall_prop.1 (by decide)
  rcases mem_body hc with hc | hc | ⟨p, hp, hc | hc⟩
  · exact hmarks c hc
  · have hbare := bare_command command hcommand
    have hchars := IsPlain.chars (.inl hbare) hc
    refine ⟨hchars.1, hchars.2, ?_⟩
    rintro rfl
    exact absurd (hbare.2 _ hc).1 (by decide)
  · exact chars_key (h p hp).1 hc
  · refine ⟨((h p hp).2.chars hc).1, ((h p hp).2.chars hc).2, ?_⟩
    rintro rfl
    exact hvalues p hp hc

theorem chars_line {command : String} (hcommand : command ∈ writtenCommands) (h : Assignable pairs)
    (hvalues : ∀ p ∈ pairs, '\n' ∉ p.2.toList) {c : Char} (hc : c ∈ line command pairs) :
    c ≠ ';' ∧ c ≠ '\n' := by
  have hmarker : ∀ c ∈ "##! ".toList, c ≠ ';' ∧ c ≠ '\n' := List.all_iff_forall_prop.1 (by decide)
  rcases List.mem_append.1 hc with hc | hc
  · exact hmarker c hc
  · obtain ⟨hsemicolon, -, hnewline⟩ := chars_body hcommand h hvalues hc
    exact ⟨hsemicolon, hnewline⟩

end StimOverlay.Directive
