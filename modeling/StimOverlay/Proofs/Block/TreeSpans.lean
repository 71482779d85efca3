import StimOverlay.Proofs.Block.UnrolledRepeats

/-! Spans of block trees. The block tree of a list of lines holds every line once and in order. Each level
of the tree spans consecutive lines; what is still open when the lines end goes on to the last of them. -/

namespace StimOverlay

namespace Block

mutual

/-- The numbers of the lines of a block, in the order in which they stand in it. -/
def numbers : Block → List Nat
  | .line number _ => [number]
  | .repetition _ start body close => start :: (numbersOf body ++ close.toList)
  | .strayClose number => [number]
  | .malformed number _ => [number]

/-- The numbers of the lines of some blocks. -/
def numbersOf : List Block → List Nat
  | [] => []
  | b :: rest => numbers b ++ numbersOf rest

end

theorem numbersOf_append (as bs : List Block) : numbersOf (as ++ bs) = numbersOf as ++ numbersOf bs := by
  induction as with
  | nil => rfl
  | cons b rest ih => rw [List.cons_append, numbersOf, numbersOf, ih, List.append_assoc]

theorem numbersOf_concat (bs : List Block) (b : Block) : numbersOf (bs ++ [b]) = numbersOf bs ++ numbers b := by
  rw [numbersOf_append, numbersOf, numbersOf, List.append_nil]

/-- The levels of a tree: the tree itself, and the levels of the bodies in it. -/
inductive Level : List Block → List Block → Prop where
  | top (bs : List Block) : Level bs bs
  | inside {bs body level : List Block} {times start : Nat} {close : Option Nat}
      (mem : .repetition times start body close ∈ bs) (within : Level body level) : Level bs level

/-- A block of a single line that neither opens nor closes anything. -/
inductive Leaf : Nat → List Char → Block → Prop where
  | line {number : Nat} {text : List Char} (plain : mark (Text.trim text) = .plain) :
      Leaf number text (.line number text)
  | malformed {number : Nat} {text : List Char} (malformed : mark (Text.trim text) = .malformedHeader) :
      Leaf number text (.malformed number (Text.trim text))

/-- Lines, the first of which has the given number, and the blocks that they make up when all of them are
closed. Inside a block there are no stray braces. -/
inductive Spans : Bool → Nat → List (List Char) → List Block → Prop where
  | nil (inner : Bool) (number : Nat) : Spans inner number [] []
  | leaf {inner : Bool} {number : Nat} {xs : List (List Char)} {bs : List Block} {text : List Char}
      {b : Block} (before : Spans inner number xs bs) (leaf : Leaf (number + xs.length) text b) :
      Spans inner number (xs ++ [text]) (bs ++ [b])
  | stray {number : Nat} {xs : List (List Char)} {bs : List Block} {text : List Char}
      (before : Spans false number xs bs) (closing : mark (Text.trim text) = .close) :
      Spans false number (xs ++ [text]) (bs ++ [.strayClose (number + xs.length)])
  | repetition {inner : Bool} {number times : Nat} {xs ys : List (List Char)} {bs body : List Block}
      {header text : List Char} (before : Spans inner number xs bs)
      (opening : mark (Text.trim header) = .header times)
      (inside : Spans true (number + xs.length + 1) ys body)
      (closing : mark (Text.trim text) = .close) :
      Spans inner number (xs ++ header :: (ys ++ [text]))
        (bs ++ [.repetition times (number + xs.length) body (some (number + xs.length + 1 + ys.length))])

/-- The same for lines that may end before the last block is closed. -/
inductive Grows : Bool → Nat → List (List Char) → List Block → Prop where
  | whole {inner : Bool} {number : Nat} {xs : List (List Char)} {bs : List Block}
      (spans : Spans inner number xs bs) : Grows inner number xs bs
  | unclosed {inner : Bool} {number times : Nat} {xs ys : List (List Char)} {bs body : List Block}
      {header : List Char} (before : Spans inner number xs bs)
      (opening : mark (Text.trim header) = .header times)
      (inside : Grows true (number + xs.length + 1) ys body) :
      Grows inner number (xs ++ header :: ys)
        (bs ++ [.repetition times (number + xs.length) body none])

/-- A draft and the lines that have been read into it. -/
inductive Drafts : List (List Char) → Draft → Prop where
  | outside {xs : List (List Char)} {level : Array Block} (spans : Spans false 1 xs level.toList) :
      Drafts xs ⟨[], level⟩
  | inside {xs ys : List (List Char)} {header : List Char} {o : Open} {outer : List Open}
      {level : Array Block} (before : Drafts xs ⟨outer, o.before⟩) (start : o.start = xs.length + 1)
      (opening : mark (Text.trim header) = .header o.times)
      (spans : Spans true (xs.length + 2) ys level.toList) :
      Drafts (xs ++ header :: ys) ⟨o :: outer, level⟩

variable {inner : Bool} {number : Nat} {xs ys : List (List Char)} {bs : List Block}

theorem Leaf.numbers_eq {text : List Char} {b : Block} (h : Leaf number text b) : b.numbers = [number] := by
  cases h <;> rw [numbers]

/-- A block that fits behind the level of a draft, whatever that is, can be added to the draft. -/
theorem Drafts.push {enclosing : List Open} {level : Array Block} {b : Block}
    (h : Drafts xs ⟨enclosing, level⟩)
    (hb : ∀ {inner number front bs}, number + front.length = xs.length + 1 → Spans inner number front bs →
      Spans inner number (front ++ ys) (bs ++ [b])) :
    Drafts (xs ++ ys) ⟨enclosing, level.push b⟩ := by
  cases h with
  | outside spans =>
      refine .outside ?_
      rw [Array.toList_push]
      exact hb (Nat.add_comm _ _) spans
  | @inside front behind header o outer _ before start opening spans =>
      rw [List.append_assoc, List.cons_append]
      refine .inside before start opening ?_
      rw [Array.toList_push]
      refine hb ?_ spans
      rw [List.length_append, List.length_cons]
      omega

theorem Drafts.read {d : Draft} (h : Drafts xs d) (text : List Char) :
    Drafts (xs ++ [text]) (d.read (xs.length + 1) text) := by
  obtain ⟨enclosing, level⟩ := d
  cases hmark : mark (Text.trim text) with
  | plain =>
      rw [Draft.read_plain hmark]
      exact h.push fun hnumber spans => .leaf spans (hnumber ▸ .line hmark)
  | malformedHeader =>
      rw [Draft.read_malformed hmark]
      exact h.push fun hnumber spans => .leaf spans (hnumber ▸ .malformed hmark)
  | header times =>
      rw [Draft.read_header hmark]
      exact .inside h rfl hmark (.nil _ _)
  | close =>
      rw [Draft.read_close hmark]
      cases h with
      | outside spans =>
          refine .outside ?_
          rw [Array.toList_push, Nat.add_comm]
          exact .stray spans hmark
      | @inside front behind header o outer _ before start opening spans =>
          rw [List.append_assoc, List.cons_append]
          refine before.push fun {inner number more bs} hnumber hspans => ?_
          have hclose : (front ++ header :: behind).length + 1 = number + more.length + 1 + behind.length := by
            rw [List.length_append, List.length_cons, hnumber]
            omega
          rw [start, ← hnumber, hclose]
          exact .repetition hspans opening (by rwa [hnumber]) hmark

theorem Drafts.readFrom {d : Draft} (h : Drafts xs d) (ys : List (List Char)) :
    Drafts (xs ++ ys) (Block.readFrom d (xs.length + 1) ys) := by
  induction ys generalizing xs d with
  | nil => rwa [List.append_nil]
  | cons text rest ih =>
      have hrest := ih (h.read text)
      rwa [List.length_append, List.append_assoc] at hrest

/-- The blocks that are open at the end become unclosed blocks, each the last one of its level. -/
theorem Drafts.finish {enclosing : List Open} {level last : Array Block}
    (h : Drafts xs ⟨enclosing, level⟩)
    (hlast : ∀ {inner number front}, number + front.length = xs.length + 1 →
      Spans inner number front level.toList → Grows inner number (front ++ ys) last.toList) :
    Grows false 1 (xs ++ ys) (Draft.finish ⟨enclosing, last⟩) := by
  induction enclosing generalizing xs ys level last with
  | nil =>
      cases h with
      | outside spans => exact hlast (Nat.add_comm _ _) spans
  | cons o outer ih =>
      cases h with
      | @inside front behind header _ _ _ before start opening spans =>
          rw [List.append_assoc, List.cons_append]
          have hinside : Grows true (front.length + 2) (behind ++ ys) last.toList := by
            refine hlast ?_ spans
            rw [List.length_append, List.length_cons]
            omega
          refine ih before fun {inner number more} hnumber hspans => ?_
          change Grows inner number _ (o.before.push (.repetition o.times o.start last.toList none)).toList
          rw [Array.toList_push, start, ← hnumber]
          exact .unclosed hspans opening (by rwa [hnumber])

/-- The tree of some lines grows from all of them. -/
theorem grows_ofLines (lines : List (List Char)) : Grows false 1 lines (ofLines lines) := by
  have hstart : Drafts [] {} := .outside (.nil _ _)
  have hwhole {inner number front bs} (spans : Spans inner number front bs) :
      Grows inner number (front ++ []) bs := by
    rw [List.append_nil]
    exact .whole spans
  have hall := (hstart.readFrom lines).finish fun _ spans => hwhole spans
  rwa [List.append_nil] at hall

theorem Spans.numbersOf_eq (h : Spans inner number xs bs) : numbersOf bs = List.range' number xs.length := by
  induction h with
  | nil => rfl
  | leaf _ leaf ih =>
      rw [numbersOf_concat, ih, leaf.numbers_eq, List.length_append, List.range'_append_1.symm]
      rfl
  | stray _ _ ih =>
      rw [numbersOf_concat, ih, numbers, List.length_append, List.range'_append_1.symm]
      rfl
  | repetition _ _ _ _ ih ihinside =>
      rw [numbersOf_concat, ih, numbers, ihinside, List.length_append, List.length_cons, List.length_append,
        ← List.range'_append_1, List.range'_succ, ← List.range'_append_1]
      rfl

theorem Grows.numbersOf_eq (h : Grows inner number xs bs) : numbersOf bs = List.range' number xs.length := by
  induction h with
  | whole spans => exact spans.numbersOf_eq
  | unclosed before _ _ ih =>
      rw [numbersOf_concat, before.numbersOf_eq, numbers, ih, List.length_append, List.length_cons,
        ← List.range'_append_1, List.range'_succ, Option.toList_none, List.append_nil]

end Block

end StimOverlay
