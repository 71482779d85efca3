import Mathlib
import StimOverlay.Proofs.Directive.QuotedValues
import StimOverlay.Proofs.Source.OctetCoding

/-! Checked scanning. The items of a directive are found by a cursor that moves over the octets of the body. It
looks at single octets, which tell ASCII characters only, and cuts out what stands between two offsets. Here
every offset that is cut at is checked to lie between two characters within the octets, and the cursor is
checked to move on. The checks never fail, and the items come out. -/

namespace StimOverlay

open Text Directive

namespace Checked

/-- An octet that is a character by itself, one that satisfies `p`. -/
def onOctet (p : Char → Bool) (b : UInt8) : Bool := b.toNat < 0x80 && p (Char.ofNat b.toNat)

/-- Whether a character begins at the offset, or the octets end there. -/
def isBoundary (octets : List UInt8) (i : Nat) : Bool :=
  match octets[i]? with
  | none => i == octets.length
  | some b => !(0x80 ≤ b.toNat && b.toNat ≤ 0xBF)

/-- The text between two offsets, both of which have to be boundaries. -/
def slice? (octets : List UInt8) (i j : Nat) : Option (List Char) :=
  if i ≤ j && isBoundary octets i && isBoundary octets j then
    (Utf8.decode ((octets.drop i).take (j - i))).toOption
  else none

/-- The offset of the first character that satisfies `p`. -/
def offsetOf? (p : Char → Bool) (s : List Char) : Option Nat :=
  if s.any p then some (Utf8.encode (s.takeWhile (!p ·))).length else none

/-- The first offset from `i` on at which `p` ends, or the end of the octets. -/
def advance (p : UInt8 → Bool) (octets : List UInt8) (i : Nat) : Nat :=
  if h : i < octets.length then if p octets[i] then advance p octets (i + 1) else i else i
termination_by octets.length - i

/-- Reads a value at an offset: the value, and the offset behind it. -/
def readValue? (octets : List UInt8) (i : Nat) : Option (List Char × Nat) :=
  match octets[i]? with
  | some 0x22 => do
      let rest ← slice? octets (i + 1) octets.length
      match offsetOf? (· == '"') rest with
      | some k =>
          let value ← slice? octets (i + 1) (i + 1 + k)
          some (value, i + k + 2)
      | none => some (rest, octets.length)
  | some 0x28 => do
      let rest ← slice? octets i octets.length
      match offsetOf? (· == ')') rest with
      | some k =>
          let value ← slice? octets i (i + k + 1)
          some (value, i + k + 1)
      | none => some (rest, octets.length)
  | _ => do
      let rest ← slice? octets i octets.length
      let stop := (offsetOf? isBlank rest).elim octets.length (i + ·)
      let value ← slice? octets i stop
      some (value, stop)

/-- Reads at an offset within the octets: an item, unless there is nothing but a blank or stray text, and the
offset to go on from. -/
def readAt? (octets : List UInt8) (i : Nat) : Option (Option Item × Nat) := do
  let b ← octets[i]?
  if onOctet isAsciiBlank b then some (none, i + 1)
  else if !onOctet isNameStart b then some (none, advance (!onOctet isAsciiBlank ·) octets i)
  else
    let stop := advance (onOctet isNameRest) octets i
    let name ← slice? octets i stop
    let equals := advance (onOctet isAsciiBlank) octets stop
    if octets[equals]? = some 0x3D then
      let (value, next) ← readValue? octets (advance (onOctet isAsciiBlank) octets (equals + 1))
      some (some (.assignment (name.map Char.toUpper) value), next)
    else some (some (.word (name.map Char.toUpper)), stop)

/-- The items from an offset on. The cursor has to move on until it reaches the end. -/
def itemsFrom? (octets : List UInt8) (i : Nat) : Option (List Item) :=
  if _ : i < octets.length then
    match readAt? octets i with
    | none => none
    | some (item, next) =>
        if _ : i < next then (itemsFrom? octets next).map (item.toList ++ ·) else none
  else some []
termination_by octets.length - i

def items? (s : List Char) : Option (List Item) := itemsFrom? (Utf8.encode s) 0

theorem octet_of_ascii {c : Char} (h : c.toNat < 0x80) :
    String.utf8EncodeChar c = [UInt8.ofNat c.toNat] := by
  have hnat : c.val.toNat = c.toNat := rfl
  rw [String.utf8EncodeChar, hnat, if_pos (by omega)]

/-- The octets of any other character: none is ASCII, and the first one is no continuation. -/
theorem octets_of_not_ascii {c : Char} (h : 0x80 ≤ c.toNat) :
    (∀ b ∈ String.utf8EncodeChar c, 0x80 ≤ b.toNat) ∧
      ∃ b rest, String.utf8EncodeChar c = b :: rest ∧ 0xC0 ≤ b.toNat := by
  have hnat : c.val.toNat = c.toNat := rfl
  have hscalar := Utf8.toNat_cases c
  have hat {low b : Nat} (hlow : low ≤ b) (hb : b < 256) : low ≤ (UInt8.ofNat b).toNat := by
    rwa [Utf8.toNat_ofNat hb]
  rw [String.utf8EncodeChar, hnat, if_neg (by omega)]
  generalize c.toNat = n at *
  split_ifs
  all_goals
    refine ⟨?_, _, _, rfl, hat (by omega) (by omega)⟩
    simp only [List.forall_mem_cons]
  · exact ⟨hat (by omega) (by omega), hat (by omega) (by omega), by simp⟩
  · exact ⟨hat (by omega) (by omega), hat (by omega) (by omega), hat (by omega) (by omega), by simp⟩
  · exact ⟨hat (by omega) (by omega), hat (by omega) (by omega), hat (by omega) (by omega),
      hat (by omega) (by omega), by simp⟩

/-- A class of characters that can be told by single octets. -/
structure Told (p : UInt8 → Bool) (q : Char → Bool) : Prop where
  inside : ∀ c, q c → ∀ b ∈ String.utf8EncodeChar c, p b
  outside : ∀ c, q c = false → ∃ b rest, String.utf8EncodeChar c = b :: rest ∧ p b = false

theorem onOctet_ascii {c : Char} (h : c.toNat < 0x80) (p : Char → Bool) :
    onOctet p (UInt8.ofNat c.toNat) = p c := by
  rw [onOctet, Utf8.toNat_ofNat (by omega), decide_eq_true h, Bool.true_and, Char.ofNat_toNat]

theorem onOctet_of_le {b : UInt8} (h : 0x80 ≤ b.toNat) (p : Char → Bool) : onOctet p b = false := by
  rw [onOctet, decide_eq_false (Nat.not_lt.2 h), Bool.false_and]

theorem told_onOctet {p : Char → Bool} (hp : ∀ c, p c → c.toNat < 0x80) : Told (onOctet p) p where
  inside c hc b hb := by
    rw [octet_of_ascii (hp c hc), List.mem_singleton] at hb
    rw [hb, onOctet_ascii (hp c hc), hc]
  outside c hc := by
    rcases Nat.lt_or_ge c.toNat 0x80 with h | h
    · exact ⟨_, [], octet_of_ascii h, (onOctet_ascii h p).trans hc⟩
    · obtain ⟨-, b, rest, hsplit, hb⟩ := octets_of_not_ascii h
      exact ⟨b, rest, hsplit, onOctet_of_le (by omega) p⟩

theorem told_not {p : Char → Bool} (hp : ∀ c, p c → c.toNat < 0x80) :
    Told (!onOctet p ·) (!p ·) where
  inside c hc b hb := by
    simp only [Bool.not_eq_true'] at hc ⊢
    rcases Nat.lt_or_ge c.toNat 0x80 with h | h
    · rw [octet_of_ascii h, List.mem_singleton] at hb
      rw [hb, onOctet_ascii h, hc]
    · exact onOctet_of_le ((octets_of_not_ascii h).1 b hb) p
  outside c hc := by
    simp only [Bool.not_eq_false'] at hc
    refine ⟨_, [], octet_of_ascii (hp c hc), ?_⟩
    rw [onOctet_ascii (hp c hc), hc]
    rfl

theorem takeWhile_encode {p : UInt8 → Bool} {q : Char → Bool} (h : Told p q) (s : List Char) :
    (Utf8.encode s).takeWhile p = Utf8.encode (s.takeWhile q) := by
  induction s with
  | nil => rfl
  | cons c s ih =>
      rw [Utf8.encode_cons]
      cases hc : q c with
      | true =>
          rw [List.takeWhile_append_of_pos (h.inside c hc), ih, List.takeWhile_cons_of_pos hc, Utf8.encode_cons]
      | false =>
          obtain ⟨b, rest, hsplit, hb⟩ := h.outside c hc
          rw [hsplit, List.cons_append, List.takeWhile_cons_of_neg (by simp [hb]),
            List.takeWhile_cons_of_neg (by simp [hc])]
          rfl

/-- The offset behind a text. -/
def offset (s : List Char) : Nat := (Utf8.encode s).length

theorem offset_append (s t : List Char) : offset (s ++ t) = offset s + offset t := by
  rw [offset, Utf8.encode_append, List.length_append, offset, offset]

theorem offset_ascii {c : Char} (h : c.toNat < 0x80) : offset [c] = 1 := by
  rw [offset, Utf8.encode_cons, octet_of_ascii h]
  rfl

theorem drop_offset (s t : List Char) : (Utf8.encode (s ++ t)).drop (offset s) = Utf8.encode t := by
  rw [Utf8.encode_append, offset, List.drop_left]

theorem getElem?_offset (s t : List Char) :
    (Utf8.encode (s ++ t))[offset s]? = (Utf8.encode t).head? := by
  rw [List.head?_eq_getElem?, ← drop_offset s t, List.getElem?_drop, Nat.add_zero]

theorem isBoundary_offset (s t : List Char) : isBoundary (Utf8.encode (s ++ t)) (offset s) := by
  rw [isBoundary, getElem?_offset]
  cases t with
  | nil =>
      rw [List.append_nil]
      exact beq_self_eq_true _
  | cons c t =>
      rw [Utf8.encode_cons]
      rcases Nat.lt_or_ge c.toNat 0x80 with h | h
      · rw [octet_of_ascii h, List.singleton_append, List.head?_cons]
        simp [Utf8.toNat_ofNat (show c.toNat < 256 by omega)]
        omega
      · obtain ⟨-, b, rest, hsplit, hb⟩ := octets_of_not_ascii h
        rw [hsplit, List.cons_append, List.head?_cons]
        simp
        omega

/-- What stands between two texts is cut out. -/
theorem slice?_offset (s t u : List Char) :
    slice? (Utf8.encode (s ++ (t ++ u))) (offset s) (offset (s ++ t)) = some t := by
  have hstart := isBoundary_offset s (t ++ u)
  have hstop := isBoundary_offset (s ++ t) u
  rw [List.append_assoc] at hstop
  have htake : (Utf8.encode (t ++ u)).take (offset (s ++ t) - offset s) = Utf8.encode t := by
    rw [offset_append, Nat.add_sub_cancel_left, Utf8.encode_append]
    exact List.take_left
  have hle : offset s ≤ offset (s ++ t) := by
    rw [offset_append]
    exact Nat.le_add_right _ _
  rw [slice?, hstart, hstop, decide_eq_true hle, drop_offset, htake, Utf8.decode,
    Utf8.decodeFrom_encode]
  rfl

theorem advance_eq (p : UInt8 → Bool) (octets : List UInt8) (i : Nat) :
    advance p octets i = i + ((octets.drop i).takeWhile p).length := by
  fun_induction advance p octets i with
  | case1 i h hp ih =>
      rw [ih, List.drop_eq_getElem_cons h, List.takeWhile_cons_of_pos hp, List.length_cons]
      omega
  | case2 i h hp => rw [List.drop_eq_getElem_cons h, List.takeWhile_cons_of_neg hp]; rfl
  | case3 i h => rw [List.drop_eq_nil_of_le (Nat.not_lt.1 h)]; rfl

/-- The cursor moves on to the end of a run of characters. -/
theorem advance_offset {p : UInt8 → Bool} {q : Char → Bool} (h : Told p q) (s t : List Char) :
    advance p (Utf8.encode (s ++ t)) (offset s) = offset (s ++ t.takeWhile q) := by
  rw [advance_eq, drop_offset, takeWhile_encode h, offset_append]
  rfl

/-- An ASCII character is told by its octet. -/
theorem getElem?_offset_eq_some {d : Char} (hd : d.toNat < 0x80) (s t : List Char) :
    (Utf8.encode (s ++ t))[offset s]? = some (UInt8.ofNat d.toNat) ↔ t.head? = some d := by
  rw [getElem?_offset]
  cases t with
  | nil => simp [Utf8.encode]
  | cons c t =>
      rw [Utf8.encode_cons, List.head?_cons]
      rcases Nat.lt_or_ge c.toNat 0x80 with h | h
      · rw [octet_of_ascii h, List.singleton_append, List.head?_cons, Option.some_inj, Option.some_inj]
        refine ⟨fun heq => ?_, fun heq => by rw [heq]⟩
        have hnat := congrArg UInt8.toNat heq
        rw [Utf8.toNat_ofNat (by omega), Utf8.toNat_ofNat (by omega)] at hnat
        exact Char.toNat_inj.1 hnat
      · obtain ⟨-, b, rest, hsplit, hb⟩ := octets_of_not_ascii h
        rw [hsplit, List.cons_append, List.head?_cons, Option.some_inj, Option.some_inj]
        constructor
        · rintro rfl
          rw [Utf8.toNat_ofNat (by omega)] at hb
          omega
        · rintro rfl
          omega

theorem ascii_of_isAsciiBlank {c : Char} (h : isAsciiBlank c) : c.toNat < 0x80 := by
  simp only [isAsciiBlank, Bool.or_eq_true, beq_iff_eq] at h
  rcases h with (((rfl | rfl) | rfl) | rfl) | rfl <;> decide

theorem ascii_of_isNameRest {c : Char} (h : isNameRest c) : c.toNat < 0x80 := by
  simp only [isNameRest, Char.isAlphanum, Char.isAlpha, Bool.or_eq_true, beq_iff_eq] at h
  rcases h with ((h | h) | h) | rfl
  · exact (Source.isUpper_iff.1 h).2.trans_lt (by decide)
  · rw [Char.isLower, Bool.and_eq_true] at h
    exact (UInt32.le_iff_toNat_le.1 (of_decide_eq_true h.2)).trans_lt (by decide)
  · exact (Char.isDigit_iff_toNat.1 h).2.trans_lt (by decide)
  · decide

theorem isNameRest_of_isNameStart {c : Char} (h : isNameStart c) : isNameRest c := by
  simp only [isNameStart, isNameRest, Char.isAlphanum, Bool.or_eq_true] at h ⊢
  exact h.imp_left .inl

theorem ascii_of_isNameStart {c : Char} (h : isNameStart c) : c.toNat < 0x80 :=
  ascii_of_isNameRest (isNameRest_of_isNameStart h)

/-- The text of a run of characters, and what follows it. -/
theorem exists_run (p : Char → Bool) (s : List Char) : ∃ front back, s = front ++ back ∧
    (∀ c ∈ front, p c) ∧ ∀ c ∈ back.head?, p c = false := by
  refine ⟨_, _, List.takeWhile_append_dropWhile.symm, fun c => List.mem_takeWhile_imp, fun c hc => ?_⟩
  have hhead := List.head?_dropWhile_not p s
  rw [Option.mem_def.1 hc] at hhead
  simpa using hhead

/-- A text has no character with `p`, or it is cut at the first one. -/
theorem cut_cases (p : Char → Bool) (s : List Char) : (∀ c ∈ s, p c = false) ∨
    ∃ value c rest, s = value ++ c :: rest ∧ p c ∧ ∀ d ∈ value, p d = false := by
  obtain ⟨front, back, rfl, hfront, hback⟩ := exists_run (!p ·) s
  simp only [Bool.not_eq_true', Bool.not_eq_false'] at hfront hback
  cases back with
  | nil => exact .inl (by simpa using hfront)
  | cons c back => exact .inr ⟨front, c, back, rfl, hback c rfl, hfront⟩

theorem offsetOf?_of_none {p : Char → Bool} {s : List Char} (h : ∀ c ∈ s, p c = false) :
    offsetOf? p s = none := by
  rw [offsetOf?, if_neg]
  simpa using fun c hc => by simpa using h c hc

theorem offsetOf?_append {p : Char → Bool} {value : List Char} (h : ∀ d ∈ value, p d = false) {c : Char}
    (hc : p c) (rest : List Char) : offsetOf? p (value ++ c :: rest) = some (offset value) := by
  rw [offsetOf?, if_pos (by simp [hc]), List.takeWhile_append_of_pos fun d hd => by simp [h d hd],
    List.takeWhile_cons_of_neg (by simp [hc]), List.append_nil, offset]

theorem take_before (p : Char → Bool) (s : List Char) : s.take (before p s).length = before p s :=
  (List.prefix_iff_eq_take.1 (List.takeWhile_prefix _)).symm

theorem slice?_rest (s t : List Char) :
    slice? (Utf8.encode (s ++ t)) (offset s) (Utf8.encode (s ++ t)).length = some t := by
  have h := slice?_offset s t []
  rwa [List.append_nil] at h

variable (s : List Char) {value rest : List Char}

/-- A value in quotes, which may be missing their end. -/
theorem readValue?_quote (rest : List Char) :
    readValue? (Utf8.encode (s ++ '"' :: rest)) (offset s) =
      some ((readValue ('"' :: rest)).1, offset (s ++ ('"' :: rest).take (readValue ('"' :: rest)).2)) := by
  have hoctet : (Utf8.encode (s ++ '"' :: rest))[offset s]? = some 0x22 :=
    (getElem?_offset_eq_some (d := '"') (by decide) s _).2 rfl
  have hbehind : offset (s ++ ['"']) = offset s + 1 := by rw [offset_append, offset_ascii (by decide)]
  have hrest := slice?_rest (s ++ ['"']) rest
  rw [List.append_assoc, List.singleton_append, hbehind] at hrest
  rw [readValue?, hoctet]
  simp only [hrest, Option.bind_eq_bind, Option.bind_some]
  rcases cut_cases (· == '"') rest with hnone | ⟨value, c, more, rfl, hc, hvalue⟩
  · have hread : readValue ('"' :: rest) = (rest, rest.length + 1) := by
      have hsplit : splitOnce? (· == '"') rest = none := by
        rw [splitOnce?, List.dropWhile_eq_nil_iff.2 fun c hc => by simp [hnone c hc]]
      rw [readValue, hsplit]
    rw [offsetOf?_of_none hnone, hread, List.take_of_length_le (by simp)]
    rfl
  · obtain rfl : c = '"' := by simpa using hc
    have hread := readValue_quoted (fun hmem => by simpa using hvalue _ hmem) more
    have hslice := slice?_offset (s ++ ['"']) value ('"' :: more)
    have htake : ('"' :: (value ++ '"' :: more)).take (value.length + 2) = ['"'] ++ (value ++ ['"']) := by
      have hshape : '"' :: (value ++ '"' :: more) = ['"'] ++ (value ++ ['"']) ++ more := by simp
      rw [hshape, List.take_left' (by simp)]
    rw [List.append_assoc, List.singleton_append, hbehind, offset_append, hbehind] at hslice
    rw [List.cons_append] at hread
    rw [offsetOf?_append hvalue hc, hread, htake, offset_append, offset_append, offset_append,
      offset_ascii (by decide)]
    simp only [hslice, Option.bind_some, Option.some_inj, Prod.mk.injEq, true_and]
    omega

theorem readValue?_parenthesis (rest : List Char) :
    readValue? (Utf8.encode (s ++ '(' :: rest)) (offset s) =
      some ((readValue ('(' :: rest)).1, offset (s ++ ('(' :: rest).take (readValue ('(' :: rest)).2)) := by
  have hoctet : (Utf8.encode (s ++ '(' :: rest))[offset s]? = some 0x28 :=
    (getElem?_offset_eq_some (d := '(') (by decide) s _).2 rfl
  rw [readValue?, hoctet]
  simp only [slice?_rest, Option.bind_eq_bind, Option.bind_some]
  rcases cut_cases (· == ')') ('(' :: rest) with hnone | ⟨value, c, more, hshape, hc, hvalue⟩
  · have hread : readValue ('(' :: rest) = ('(' :: rest, ('(' :: rest).length) := by
      rw [readValue, splitAfter_of_none hnone]
    rw [offsetOf?_of_none hnone, hread, List.take_of_length_le (by simp)]
    rfl
  · have hread : readValue ('(' :: rest) = (value ++ [c], (value ++ [c]).length) := by
      have hsplit := splitAfter_of_first hvalue hc more
      rw [← hshape] at hsplit
      rw [readValue, hsplit]
    obtain rfl : c = ')' := by simpa using hc
    have hslice := slice?_offset s (value ++ [')']) more
    rw [List.append_assoc, List.singleton_append, ← hshape, offset_append, offset_append,
      offset_ascii (by decide), ← Nat.add_assoc] at hslice
    have htake : ('(' :: rest).take (value ++ [')']).length = value ++ [')'] := by
      have hsplit : value ++ ')' :: more = value ++ [')'] ++ more := by simp
      rw [hshape, hsplit, List.take_left' rfl]
    have hoffset : offsetOf? (· == ')') ('(' :: rest) = some (offset value) := by
      rw [hshape, offsetOf?_append hvalue hc]
    rw [hoffset, hread, htake, offset_append, offset_append, offset_ascii (by decide), ← Nat.add_assoc]
    simp only [hslice, Option.bind_some]

theorem readValue?_bare (h : ∀ c ∈ rest.head?, c ≠ '"' ∧ c ≠ '(') :
    readValue? (Utf8.encode (s ++ rest)) (offset s) =
      some ((readValue rest).1, offset (s ++ rest.take (readValue rest).2)) := by
  have hquote : (Utf8.encode (s ++ rest))[offset s]? ≠ some 0x22 := fun hoctet =>
    (h '"' ((getElem?_offset_eq_some (d := '"') (by decide) s _).1 hoctet)).1 rfl
  have hparenthesis : (Utf8.encode (s ++ rest))[offset s]? ≠ some 0x28 := fun hoctet =>
    (h '(' ((getElem?_offset_eq_some (d := '(') (by decide) s _).1 hoctet)).2 rfl
  have hread : readValue rest = (before isBlank rest, (before isBlank rest).length) := by
    unfold readValue
    split
    · exact absurd rfl (h '"' rfl).1
    · exact absurd rfl (h '(' rfl).2
    · rfl
  have hstop : (offsetOf? isBlank rest).elim (Utf8.encode (s ++ rest)).length (offset s + ·) =
      offset (s ++ before isBlank rest) := by
    rcases cut_cases isBlank rest with hnone | ⟨value, c, more, rfl, hc, hvalue⟩
    · have hall : before isBlank rest = rest :=
        List.takeWhile_eq_self_iff.2 fun c hc => by simp [hnone c hc]
      rw [offsetOf?_of_none hnone, hall]
      rfl
    · have hbefore : before isBlank (value ++ c :: more) = value := by
        rw [before, List.takeWhile_append_of_pos fun d hd => by simp [hvalue d hd],
          List.takeWhile_cons_of_neg (by simp [hc]), List.append_nil]
      rw [offsetOf?_append hvalue hc, hbefore, offset_append]
      rfl
  have hslice := slice?_offset s (before isBlank rest) (rest.drop (before isBlank rest).length)
  have hsplit : before isBlank rest ++ rest.drop (before isBlank rest).length = rest :=
    List.prefix_iff_eq_append.1 (List.takeWhile_prefix _)
  rw [hsplit] at hslice
  unfold readValue?
  split
  · rename_i hoctet
    exact absurd hoctet hquote
  · rename_i hoctet
    exact absurd hoctet hparenthesis
  · simp only [slice?_rest, Option.bind_eq_bind, Option.bind_some, hstop, hslice, hread, take_before]

/-- A value is read off the octets as it is off the characters. -/
theorem readValue?_offset (rest : List Char) :
    readValue? (Utf8.encode (s ++ rest)) (offset s) =
      some ((readValue rest).1, offset (s ++ rest.take (readValue rest).2)) := by
  cases rest with
  | nil => exact readValue?_bare s (by simp)
  | cons c rest =>
      by_cases hquote : c = '"'
      · subst hquote
        exact readValue?_quote s rest
      by_cases hparenthesis : c = '('
      · subst hparenthesis
        exact readValue?_parenthesis s rest
      refine readValue?_bare s fun d hd => ?_
      rw [← Option.some.inj hd]
      exact ⟨hquote, hparenthesis⟩

/-- The first octet of a character tells the ASCII classes that the character is in. -/
theorem exists_octet (c : Char) (rest : List Char) :
    ∃ b, (Utf8.encode (s ++ c :: rest))[offset s]? = some b ∧
      ∀ p : Char → Bool, (∀ d, p d → d.toNat < 0x80) → onOctet p b = p c := by
  rcases Nat.lt_or_ge c.toNat 0x80 with h | h
  · exact ⟨_, (getElem?_offset_eq_some h s _).2 rfl, fun p _ => onOctet_ascii h p⟩
  · obtain ⟨-, b, more, hsplit, hb⟩ := octets_of_not_ascii h
    refine ⟨b, ?_, fun p hp => ?_⟩
    · rw [getElem?_offset, Utf8.encode_cons, hsplit]
      rfl
    · rw [onOctet_of_le (by omega), eq_comm, Bool.eq_false_iff]
      exact fun hc => absurd (hp c hc) (by omega)

/-- What is read at a character: an item or none, and so many more characters. -/
def Reads (octets : List UInt8) (s : List Char) (c : Char) (rest : List Char) : Prop :=
  ∃ item taken, readAt? octets (offset s) = some (item, offset (s ++ c :: rest.take taken)) ∧
    itemsAfter 0 (c :: rest) = item.toList ++ itemsAfter 0 (rest.drop taken)

variable {c : Char}

theorem advance_run {p : UInt8 → Bool} {q : Char → Bool} (h : Told p q) {front back : List Char}
    (hfront : ∀ c ∈ front, q c) (hback : ∀ c ∈ back.head?, q c = false) :
    advance p (Utf8.encode (s ++ (front ++ back))) (offset s) = offset (s ++ front) := by
  rw [advance_offset h, (takeWhile_run hfront hback).1]

theorem told_name : Told (onOctet isNameRest) isNameRest := told_onOctet fun _ => ascii_of_isNameRest

theorem told_blank : Told (onOctet isAsciiBlank) isAsciiBlank :=
  told_onOctet fun _ => ascii_of_isAsciiBlank

/-- At the first character of a name: the cursor stops behind the name, and behind the blanks after it. -/
theorem readAt?_name (hc : isNameStart c) (hblank : isAsciiBlank c = false) {more gap behind : List Char}
    (hmore : ∀ d ∈ more, isNameRest d) (hgap : ∀ d ∈ gap, isAsciiBlank d)
    (hafter : ∀ d ∈ (gap ++ behind).head?, isNameRest d = false)
    (hbehind : ∀ d ∈ behind.head?, isAsciiBlank d = false) :
    let octets := Utf8.encode (s ++ c :: (more ++ (gap ++ behind)))
    readAt? octets (offset s) =
      if behind.head? = some '=' then
        (readValue? octets (advance (onOctet isAsciiBlank) octets
          (offset (s ++ c :: (more ++ gap)) + 1))).map fun r =>
            (some (.assignment ((c :: more).map Char.toUpper) r.1), r.2)
      else some (some (.word ((c :: more).map Char.toUpper)), offset (s ++ c :: more)) := by
  intro octets
  obtain ⟨b, hb, hclass⟩ := exists_octet s c (more ++ (gap ++ behind))
  have hnamed : ∀ d ∈ c :: more, isNameRest d :=
    List.forall_mem_cons.2 ⟨isNameRest_of_isNameStart hc, hmore⟩
  have hstop : advance (onOctet isNameRest) octets (offset s) = offset (s ++ c :: more) :=
    (advance_run s told_name hnamed hafter :)
  have hname : slice? octets (offset s) (offset (s ++ c :: more)) = some (c :: more) :=
    slice?_offset s (c :: more) (gap ++ behind)
  have hequals : advance (onOctet isAsciiBlank) octets (offset (s ++ c :: more)) =
      offset (s ++ c :: (more ++ gap)) := by
    have h := advance_run (s ++ c :: more) told_blank hgap hbehind
    simpa [octets] using h
  have hsign : octets[offset (s ++ c :: (more ++ gap))]? = some 0x3D ↔ behind.head? = some '=' := by
    have h := getElem?_offset_eq_some (d := '=') (by decide) (s ++ c :: (more ++ gap)) behind
    simpa [octets] using h
  rw [readAt?, hb, Option.bind_eq_bind, Option.bind_some, hclass _ fun _ => ascii_of_isAsciiBlank,
    if_neg (by simp [hblank]), hclass _ fun _ => ascii_of_isNameStart, if_neg (by simp [hc])]
  simp only [hstop, hname, hequals, hsign]
  split_ifs
  · cases readValue? octets _ <;> rfl
  · rfl

theorem reads_name (hc : isNameStart c) (hblank : isAsciiBlank c = false) (rest : List Char) :
    Reads (Utf8.encode (s ++ c :: rest)) s c rest := by
  obtain ⟨more, after, rfl, hmore, hafter⟩ := exists_run isNameRest rest
  obtain ⟨gap, behind, rfl, hgap, hbehind⟩ := exists_run isAsciiBlank after
  have hread := readAt?_name s hc hblank hmore hgap hafter hbehind
  by_cases heq : behind.head? = some '='
  · obtain ⟨value, rfl⟩ := List.head?_eq_some_iff.1 heq
    obtain ⟨blanks, text, rfl, hblanks, htext⟩ := exists_run isAsciiBlank value
    let front := more ++ (gap ++ '=' :: blanks)
    have hshape : more ++ (gap ++ '=' :: (blanks ++ text)) = front ++ text := by simp [front]
    have hstart : advance (onOctet isAsciiBlank) (Utf8.encode (s ++ c :: (front ++ text)))
        (offset (s ++ c :: (more ++ gap)) + 1) = offset (s ++ c :: front) := by
      have h := advance_run (s ++ c :: (more ++ gap) ++ ['=']) told_blank hblanks htext
      rw [offset_append _ ['='], offset_ascii (by decide)] at h
      simpa [front] using h
    have hvalue := readValue?_offset (s ++ c :: front) text
    have hitem := readItem_assignment c hmore hgap hblanks htext
    rw [List.append_assoc, List.cons_append] at hvalue
    rw [hshape] at hread hitem ⊢
    refine ⟨some (.assignment ((c :: more).map Char.toUpper) (readValue text).1),
      front.length + (readValue text).2, ?_, ?_⟩
    · rw [hread, if_pos heq, hstart, hvalue, List.take_length_add_append]
      simp
    · rw [itemsAfter_name hc hblank, hitem, List.drop_length_add_append]
      rfl
  · have hitem := readItem_word c hmore hgap hafter fun d hd =>
      ⟨hbehind d hd, fun hd' => heq (hd' ▸ hd)⟩
    refine ⟨some (.word ((c :: more).map Char.toUpper)), more.length, ?_, ?_⟩
    · rw [hread, if_neg heq, List.take_left]
    · rw [itemsAfter_name hc hblank, hitem]
      rfl

theorem reads_offset (c : Char) (rest : List Char) : Reads (Utf8.encode (s ++ c :: rest)) s c rest := by
  obtain ⟨b, hb, hclass⟩ := exists_octet s c rest
  cases hblank : isAsciiBlank c with
  | true =>
      refine ⟨none, 0, ?_, ?_⟩
      · rw [readAt?, hb, Option.bind_eq_bind, Option.bind_some, hclass _ fun _ => ascii_of_isAsciiBlank,
          if_pos hblank, List.take_zero, offset_append, offset_ascii (ascii_of_isAsciiBlank hblank)]
      · rw [itemsAfter, if_pos hblank]
        rfl
  | false =>
      cases hc : isNameStart c with
      | true => exact reads_name s hc hblank rest
      | false =>
          have hadvance := advance_offset (told_not fun _ => ascii_of_isAsciiBlank) s (c :: rest)
          rw [List.takeWhile_cons_of_pos (by simp [hblank])] at hadvance
          refine ⟨none, (before isAsciiBlank rest).length, ?_, ?_⟩
          · rw [readAt?, hb, Option.bind_eq_bind, Option.bind_some,
              hclass _ fun _ => ascii_of_isAsciiBlank, if_neg (by simp [hblank]),
              hclass _ fun _ => ascii_of_isNameStart, if_pos (by simp [hc]), hadvance, take_before]
            rfl
          · rw [itemsAfter, if_neg (by simp [hblank]), if_neg (by simp [hc]), itemsAfter_skip]
            rfl

theorem offset_lt (c : Char) (t : List Char) : offset s < offset (s ++ c :: t) := by
  obtain ⟨b, hb, -⟩ := exists_octet s c t
  exact (List.getElem?_eq_some_iff.1 hb).1

theorem itemsFrom?_offset (rest : List Char) :
    itemsFrom? (Utf8.encode (s ++ rest)) (offset s) = some (itemsAfter 0 rest) := by
  induction hn : rest.length using Nat.strong_induction_on generalizing s rest with
  | h n ih =>
      cases rest with
      | nil =>
          have hend : ¬offset s < (Utf8.encode s).length := Nat.lt_irrefl _
          rw [itemsFrom?, List.append_nil, dif_neg hend]
          rfl
      | cons c rest =>
          obtain ⟨item, taken, hread, hitems⟩ := reads_offset s c rest
          have hshape : s ++ c :: rest = s ++ c :: rest.take taken ++ rest.drop taken := by simp
          have hrest := ih (rest.drop taken).length (by rw [← hn, List.length_drop, List.length_cons]; omega)
            (s ++ c :: rest.take taken) (rest.drop taken) rfl
          rw [← hshape] at hrest
          have hinside : offset s < (Utf8.encode (s ++ c :: rest)).length := offset_lt s c rest
          rw [itemsFrom?, dif_pos hinside, hread]
          simp only [dif_pos (offset_lt s c (rest.take taken)), hrest, Option.map_some, hitems]

/-- Scanning the octets never fails, and gives the items. -/
theorem items?_eq (s : List Char) : items? s = some (items s) := itemsFrom?_offset [] s

end Checked

end StimOverlay
