import StimOverlay.Proofs.Checked.CursorLookups

/-! Scanning for items. What is written in the body of a directive is what is read off it. The items stand
between blanks: bare words, and values that are assigned to keys. -/

namespace StimOverlay.Directive

open Text

/-- A text that stands for a value: the value itself, or the value in quotes. A value in parentheses has them as
its part. -/
inductive StandsFor : List Char → List Char → Prop where
  | bare {value : List Char} (ne : value ≠ []) (blank : ∀ c ∈ value, isBlank c = false)
      (start : ∀ c ∈ value.head?, c ≠ '"' ∧ c ≠ '(') : StandsFor value value
  | quoted {value : List Char} (inner : '"' ∉ value) : StandsFor ('"' :: value ++ ['"']) value
  | parenthesized {inner : List Char} (inside : ')' ∉ inner) :
      StandsFor ('(' :: inner ++ [')']) ('(' :: inner ++ [')'])

/-- A text that spells an item. There may be blanks around the equals sign. -/
inductive Spells : List Char → Item → Prop where
  | word {name : List Char} (name_isKey : isKey name) : Spells name (.word name)
  | assignment {key gap blanks text value : List Char} (key_isKey : isKey key)
      (gap_isBlank : ∀ c ∈ gap, isAsciiBlank c) (blanks_isBlank : ∀ c ∈ blanks, isAsciiBlank c)
      (value_text : StandsFor text value) :
      Spells (key ++ (gap ++ '=' :: (blanks ++ text))) (.assignment key value)

/-- A body that lists items, with at least one blank between two of them. -/
inductive Lists : List Char → List Item → Prop where
  | nil {blanks : List Char} (blanks_isBlank : ∀ c ∈ blanks, isAsciiBlank c) : Lists blanks []
  | cons {blanks text rest : List Char} {item : Item} {items : List Item}
      (blanks_isBlank : ∀ c ∈ blanks, isAsciiBlank c) (spells : Spells text item)
      (ends : ∀ c ∈ rest.head?, isAsciiBlank c) (lists : Lists rest items) :
      Lists (blanks ++ (text ++ rest)) (item :: items)

/-- An item with its name in upper case. -/
def Item.upper : Item → Item
  | .word name => .word (name.map Char.toUpper)
  | .assignment key value => .assignment (key.map Char.toUpper) value

variable {text value rest : List Char} {item : Item}

theorem StandsFor.start (h : StandsFor text value) (rest : List Char) :
    ∀ c ∈ (text ++ rest).head?, isAsciiBlank c = false := by
  intro c hc
  cases h with
  | bare ne blank _ =>
      rw [List.head?_append_of_ne_nil _ ne] at hc
      exact isAsciiBlank_eq_false (blank c (List.mem_of_head? hc))
  | quoted | parenthesized =>
      cases hc
      decide

theorem StandsFor.read (h : StandsFor text value) (hrest : ∀ c ∈ rest.head?, isAsciiBlank c) :
    readValue (text ++ rest) = (value, text.length) := by
  cases h with
  | bare ne blank start =>
      exact readValue_unquoted ne blank start fun c hc => isBlank_of_isAsciiBlank (hrest c hc)
  | quoted inner =>
      rw [List.append_assoc, List.singleton_append, readValue_quoted inner]
      simp
  | parenthesized inside =>
      rw [List.append_assoc]
      exact readValue_parenthesized inside rest

theorem items_blanks {blanks : List Char} (h : ∀ c ∈ blanks, isAsciiBlank c) (s : List Char) :
    itemsAfter 0 (blanks ++ s) = itemsAfter 0 s := by
  induction blanks with
  | nil => rfl
  | cons c blanks ih =>
      rw [List.forall_mem_cons] at h
      rw [List.cons_append, itemsAfter, if_pos h.1, ih h.2]

/-- The first thing behind the blanks at the start of a body is no equals sign. -/
theorem Lists.behind {s : List Char} {items : List Item} (h : Lists s items) :
    ∃ gap behind, s = gap ++ behind ∧ (∀ c ∈ gap, isAsciiBlank c) ∧
      ∀ c ∈ behind.head?, isAsciiBlank c = false ∧ c ≠ '=' := by
  cases h with
  | nil hblanks => exact ⟨s, [], by simp, hblanks, by simp⟩
  | @cons blanks text rest item items hblanks hspells =>
      refine ⟨blanks, text ++ rest, rfl, hblanks, fun c hc => ?_⟩
      have hname (name : List Char) (hkey : isKey name) (more : List Char)
          (hc : c ∈ (name ++ more).head?) : isAsciiBlank c = false ∧ c ≠ '=' := by
        obtain ⟨d, _, rfl, hd, hblank, -⟩ := exists_of_isKey hkey
        obtain rfl := Option.some.inj hc
        refine ⟨hblank, ?_⟩
        rintro rfl
        cases hd
      cases hspells with
      | word hkey => exact hname text hkey rest hc
      | assignment hkey =>
          rw [List.append_assoc] at hc
          exact hname _ hkey _ hc

/-- An item is read, and what follows it is read as if it stood alone. -/
theorem Spells.read (h : Spells text item) (hrest : ∀ c ∈ rest.head?, isAsciiBlank c) {items : List Item}
    (hlists : Lists rest items) : itemsAfter 0 (text ++ rest) = item.upper :: itemsAfter 0 rest := by
  cases h with
  | word hkey =>
      obtain ⟨c, more, rfl, hc, hblank, hmore⟩ := exists_of_isKey hkey
      obtain ⟨gap, behind, rfl, hgap, hbehind⟩ := hlists.behind
      have hitem := readItem_word c hmore hgap (fun d hd => isNameRest_of_isAsciiBlank (hrest d hd)) hbehind
      rw [List.cons_append, itemsAfter_name hc hblank, hitem, List.drop_left]
      rfl
  | @assignment key gap blanks text value hkey hgap hblanks hvalue =>
      have hshape : key ++ (gap ++ '=' :: (blanks ++ text)) ++ rest =
          key ++ (gap ++ '=' :: (blanks ++ (text ++ rest))) := by simp
      rw [hshape, items_spaced hkey hgap hblanks (hvalue.start rest), hvalue.read hrest, List.drop_left]
      rfl

theorem Lists.read {s : List Char} {items : List Item} (h : Lists s items) :
    Directive.items s = items.map Item.upper := by
  induction h with
  | nil hblanks =>
      have hitems := items_blanks hblanks []
      rwa [List.append_nil] at hitems
  | cons hblanks hspells hends hlists ih =>
      rw [Directive.items, items_blanks hblanks, hspells.read hends hlists, List.map_cons]
      exact congrArg _ ih

/-- The key of an item, as it is read. -/
def Item.upperKey (item : Item) : String := upperCase item.key

/-- The key of an item that is a bare word. -/
def Item.word? (item : Item) : Option String :=
  match item with
  | .word _ => some item.upperKey
  | .assignment .. => none

/-- The value that an item assigns to a key. -/
def Item.assigned? (key : String) (item : Item) : Option String :=
  match item with
  | .word _ => none
  | .assignment _ value => if item.upperKey = key then some (String.ofList value) else none

theorem Item.key_upper (item : Item) : item.upper.key = item.upperKey := by
  cases item <;> simp [Item.upper, Item.key, Item.upperKey, upperCase]

namespace Keys

theorem words_upper (items : List Item) : (ofItems (items.map Item.upper)).words =
    items.filterMap Item.word? := by
  rw [ofItems]
  dsimp only
  rw [List.filterMap_map]
  refine congrArg (List.filterMap · items) (funext fun item => ?_)
  cases item <;> simp [Item.upper, Item.word?, Item.key, Item.upperKey, upperCase]

/-- A key has a value if and only if some item mentions it. -/
theorem isSome_foldl (items : List Item) (key : String) (found : Option String) :
    (items.foldl (valueAfter key) found).isSome = (found.isSome || (items.map Item.key).contains key) := by
  induction items generalizing found with
  | nil => simp
  | cons item rest ih =>
      have hstep : (valueAfter key found item).isSome = (found.isSome || key == item.key) := by
        by_cases hkey : item.key = key
        · cases item <;> simp_all [valueAfter, Item.key]
        · rw [valueAfter_of_ne found hkey, beq_eq_false_iff_ne.2 (Ne.symm hkey), Bool.or_false]
      rw [List.foldl_cons, ih, hstep, List.map_cons, List.contains_cons, Bool.or_assoc]

theorem contains_iff (items : List Item) (key : String) :
    (ofItems items).contains key ↔ key ∈ items.map Item.key := by
  have hnone : (ofItems items).contains key = false ↔ (ofItems items).values.lookup key = none := by
    rw [contains, List.any_eq_false, List.lookup_eq_none_iff]
    simp only [beq_iff_eq, bne_iff_ne, ne_comm, ne_eq]
  rw [← Bool.not_eq_false, hnone, lookup_ofItems, ← ne_eq, ← Option.isSome_iff_ne_none, valueIn_eq,
    isSome_foldl]
  simp

/-- A value that is assigned replaces what has been found. -/
theorem valueAfter_of_assigned {item : Item} {key value : String} (h : item.assigned? key = some value)
    (found : Option String) : valueAfter key found item.upper = some value := by
  cases item with
  | word name => cases h
  | assignment k v =>
      rw [Item.assigned?] at h
      split_ifs at h with hkey
      obtain rfl := Option.some.inj h
      rw [← Item.key_upper] at hkey
      exact if_pos (beq_iff_eq.2 hkey)

/-- Any other item leaves it, unless it is an empty value that a word gives. -/
theorem filter_valueAfter {item : Item} {key : String} (h : item.assigned? key = none)
    (found : Option String) :
    (valueAfter key found item.upper).filter (!·.isEmpty) = found.filter (!·.isEmpty) := by
  cases item with
  | word name =>
      rw [Item.upper, valueAfter]
      split_ifs
      · cases found <;> rfl
      · rfl
  | assignment k v =>
      rw [Item.assigned?] at h
      split_ifs at h with hkey
      rw [valueAfter_of_ne found (by rwa [Item.key_upper])]

/-- The value of a key is the last one that is assigned to it, unless that is empty. -/
theorem filter_foldl (items : List Item) (key : String) (found : Option String) :
    ((items.map Item.upper).foldl (valueAfter key) found).filter (!·.isEmpty) =
      ((items.filterMap (Item.assigned? key)).getLast?.or found).filter (!·.isEmpty) := by
  induction items generalizing found with
  | nil => rfl
  | cons item rest ih =>
      rw [List.map_cons, List.foldl_cons, ih]
      cases hassigned : item.assigned? key with
      | some value =>
          rw [List.filterMap_cons_some hassigned, valueAfter_of_assigned hassigned, List.getLast?_cons]
          cases (rest.filterMap (Item.assigned? key)).getLast? <;> rfl
      | none =>
          rw [List.filterMap_cons_none hassigned]
          cases (rest.filterMap (Item.assigned? key)).getLast? with
          | none => exact filter_valueAfter hassigned found
          | some value => rfl

end Keys

/-- A body that lists items is read as what it lists: the bare words in order, the keys that occur, and for each
key the last value, unless that is empty. In no text does the scan stand still, or cut anywhere but between two
characters of the text. -/
theorem read_as_written : (∀ s items, Lists s items →
      (Keys.read s).words = items.filterMap Item.word? ∧
      (∀ key, (Keys.read s).contains key ↔ key ∈ items.map Item.upperKey) ∧
      ∀ key, (Keys.read s).get? key =
        (items.filterMap (Item.assigned? key)).getLast?.filter (!·.isEmpty)) ∧
    ∀ s, Checked.items? s = some (items s) := by
  refine ⟨fun s items h => ⟨?_, fun key => ?_, fun key => ?_⟩, Checked.items?_eq⟩
  · rw [Keys.read, h.read, Keys.words_upper]
  · have hkeys : Item.key ∘ Item.upper = Item.upperKey := funext Item.key_upper
    rw [Keys.read, h.read, Keys.contains_iff, List.map_map, hkeys]
  · rw [Keys.get?_read, h.read, Keys.valueIn_eq, Keys.filter_foldl, Option.or_none]

/-- A key that is assigned an empty value at last has none, a word does not take a value away, and a quote that
is not closed does no harm. -/
theorem read_as_written_emptied :
    let body := "gate Name=é(b fill =\t(1, 0) NAME=\"\" fill".toList
    let items : List Item := [.word "gate".toList, .assignment "Name".toList "é(b".toList,
      .assignment "fill".toList "(1, 0)".toList, .assignment "NAME".toList [], .word "fill".toList]
    Lists body items ∧ (Keys.read body).words = ["GATE", "FILL"] ∧
      (Keys.read body).contains "NAME" ∧ (Keys.read body).get? "NAME" = none ∧
      (Keys.read body).get? "FILL" = some "(1, 0)" ∧
      Checked.items? "é key=\"漢".toList = some [.assignment "KEY".toList "漢".toList] := by
  intro body items
  have hone : ∀ c ∈ [' '], isAsciiBlank c := by simp [isAsciiBlank]
  have htab : ∀ c ∈ ['\t'], isAsciiBlank c := by simp [isAsciiBlank]
  have hnone : ∀ c ∈ ([] : List Char), isAsciiBlank c := by simp
  have hblank (rest : List Char) : ∀ c ∈ (' ' :: rest).head?, isAsciiBlank c := by
    rintro c ⟨⟩
    rfl
  have hkeys : ∀ key ∈ ["gate", "Name", "fill", "NAME"], isKey key.toList := by decide
  have hvalue : StandsFor "é(b".toList "é(b".toList :=
    .bare (by decide) (List.all_iff_forall_prop.1 (by decide)) (by simp)
  have hquotes : StandsFor "\"\"".toList [] := .quoted List.not_mem_nil
  have hgroup : ')' ∉ "1, 0".toList := by decide
  have hname : Spells "Name=é(b".toList (.assignment "Name".toList "é(b".toList) :=
    .assignment (hkeys "Name" (by simp)) hnone hnone hvalue
  have hfill : Spells "fill =\t(1, 0)".toList (.assignment "fill".toList "(1, 0)".toList) :=
    .assignment (hkeys "fill" (by simp)) hone htab (.parenthesized hgroup)
  have hempty : Spells "NAME=\"\"".toList (.assignment "NAME".toList []) :=
    .assignment (hkeys "NAME" (by simp)) hnone hnone hquotes
  have hlists : Lists body items :=
    .cons hnone (.word (hkeys "gate" (by simp))) (hblank _) (.cons hone hname (hblank _)
      (.cons hone hfill (hblank _) (.cons hone hempty (hblank _)
        (.cons hone (.word (hkeys "fill" (by simp))) (by simp) (.nil hnone)))))
  obtain ⟨hread, hscan⟩ := read_as_written
  obtain ⟨hwords, hcontains, hget⟩ := hread body items hlists
  refine ⟨hlists, hwords.trans (by decide +kernel), (hcontains _).2 (by decide +kernel),
    (hget _).trans (by decide +kernel), (hget _).trans (by decide +kernel), ?_⟩
  exact (hscan _).trans (by decide +kernel)

end StimOverlay.Directive
