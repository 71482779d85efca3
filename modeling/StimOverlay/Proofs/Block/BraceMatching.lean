import Mathlib.Data.List.Infix
import StimOverlay.Proofs.Block.TreeSpans

/-! Matching braces. Headers and closing braces pair off as brackets do, and the block tree follows the
pairs: a header with a matching brace is closed by it, with everything between the two in its body, and a
header without one stays open to the end. -/

namespace StimOverlay

namespace Block

/-- What a line does to the number of open blocks. -/
def Mark.weight : Mark → Int
  | .header _ => 1
  | .close => -1
  | _ => 0

/-- How many more headers than closing braces there are. -/
def excess : List (List Char) → Int
  | [] => 0
  | text :: rest => (mark (Text.trim text)).weight + excess rest

/-- Every brace closes a block that has been opened before. -/
def Covered (xs : List (List Char)) : Prop := ∀ front, front <+: xs → 0 ≤ excess front

/-- Every brace closes a block, and every block is closed. -/
structure Balanced (xs : List (List Char)) : Prop where
  covered : Covered xs
  settled : excess xs = 0

/-- The lines with the given numbers, counted from one, are a header and a closing brace, with balanced lines
between them. -/
def Matches (lines : List (List Char)) (start close : Nat) : Prop :=
  ∃ (before inside after : List (List Char)) (opening closing : List Char) (times : Nat),
    lines = before ++ opening :: (inside ++ closing :: after) ∧
      start = before.length + 1 ∧ close = start + inside.length + 1 ∧
      mark (Text.trim opening) = .header times ∧ mark (Text.trim closing) = .close ∧ Balanced inside

theorem excess_append (xs ys : List (List Char)) : excess (xs ++ ys) = excess xs + excess ys := by
  induction xs with
  | nil => rw [List.nil_append, excess, Int.zero_add]
  | cons text rest ih => rw [List.cons_append, excess, excess, ih, Int.add_assoc]

theorem excess_singleton (text : List Char) : excess [text] = (mark (Text.trim text)).weight := by
  rw [excess]
  exact Int.add_zero _

theorem Covered.append {xs ys : List (List Char)} (hxs : Covered xs)
    (hys : ∀ front, front <+: ys → 0 ≤ excess xs + excess front) : Covered (xs ++ ys) := by
  intro l hl
  rcases List.prefix_or_prefix_of_prefix hl (List.prefix_append xs ys) with hl | ⟨front, rfl⟩
  · exact hxs l hl
  · rw [excess_append]
    exact hys front ((List.prefix_append_right_inj xs).1 hl)

theorem covered_nil : Covered [] := by
  intro front hfront
  rw [List.prefix_nil.1 hfront]
  exact Int.le_refl _

/-- Behind a header a brace more is covered. -/
theorem covered_header {header : List Char} {times : Nat} {ys : List (List Char)}
    (hheader : mark (Text.trim header) = .header times)
    (hys : ∀ front, front <+: ys → -1 ≤ excess front) : Covered (header :: ys) := by
  intro l hl
  cases l with
  | nil => exact Int.le_refl _
  | cons text front =>
      obtain ⟨rfl, hfront⟩ := List.cons_prefix_cons.1 hl
      have hle := hys front hfront
      rw [excess, hheader, Mark.weight]
      omega

theorem Covered.concat_close {ys : List (List Char)} (h : Covered ys) {text : List Char}
    (hclose : mark (Text.trim text) = .close) : ∀ front, front <+: ys ++ [text] → -1 ≤ excess front := by
  intro front hfront
  rcases List.prefix_concat_iff.1 hfront with rfl | hfront
  · have hall := h ys List.prefix_rfl
    rw [excess_append, excess_singleton, hclose, Mark.weight]
    omega
  · have hle := h front hfront
    omega

theorem Covered.concat {xs : List (List Char)} (h : Covered xs) {text : List Char}
    (hweight : (mark (Text.trim text)).weight = 0) : Covered (xs ++ [text]) := by
  intro front hfront
  rcases List.prefix_concat_iff.1 hfront with rfl | hfront
  · rw [excess_append, excess_singleton, hweight, Int.add_zero]
    exact h xs List.prefix_rfl
  · exact h front hfront

/-- Behind balanced lines there is nothing to close. -/
theorem Balanced.not_covered {xs inside : List (List Char)} (h : Balanced inside) {text : List Char}
    (hclose : mark (Text.trim text) = .close) (hxs : inside ++ [text] <+: xs) : ¬Covered xs := by
  intro hcovered
  have hle := hcovered _ hxs
  rw [excess_append, h.settled, excess_singleton, hclose] at hle
  exact absurd hle (by decide)

/-- A matching brace is the first one that has nothing else to close. -/
theorem Matches.unique {lines : List (List Char)} {start close close' : Nat}
    (h : Matches lines start close) (h' : Matches lines start close') : close = close' := by
  have hle {close close' : Nat} (h : Matches lines start close) (h' : Matches lines start close') :
      close' ≤ close := by
    obtain ⟨before, inside, after, opening, closing, times, rfl, rfl, rfl, -, hclosing, hinside⟩ := h
    obtain ⟨before', inside', after', opening', closing', times', hlines, hstart, rfl, -, -, hinside'⟩ := h'
    have hrest := (List.cons.inj (List.append_inj hlines (by omega)).2).2
    by_contra hlt
    have hfront : inside ++ [closing] <+: inside' := by
      have hshort : inside ++ [closing] <+: inside ++ closing :: after := ⟨after, by simp⟩
      refine List.prefix_of_prefix_length_le hshort ⟨closing' :: after', hrest.symm⟩ ?_
      rw [List.length_append, List.length_singleton]
      omega
    exact hinside.not_covered hclosing hfront hinside'.covered
  exact Nat.le_antisymm (hle h' h) (hle h h')

variable {inner : Bool} {number : Nat} {xs ys : List (List Char)} {bs level : List Block} {b : Block}

/-- A block, unless it is left open, among lines the first of which has the given number. -/
inductive Placed (number : Nat) (xs : List (List Char)) : Block → Prop where
  | leaf {before after : List (List Char)} {text : List Char} {b : Block}
      (split : xs = before ++ text :: after) (leaf : Leaf (number + before.length) text b) :
      Placed number xs b
  | stray {before after : List (List Char)} {text : List Char} (split : xs = before ++ text :: after)
      (closing : mark (Text.trim text) = .close) : Placed number xs (.strayClose (number + before.length))
  | closed {before inside after : List (List Char)} {header text : List Char} {times : Nat}
      {body : List Block} (split : xs = before ++ header :: (inside ++ text :: after))
      (opening : mark (Text.trim header) = .header times)
      (spans : Spans true (number + before.length + 1) inside body)
      (closing : mark (Text.trim text) = .close) :
      Placed number xs (.repetition times (number + before.length) body
        (some (number + before.length + 1 + inside.length)))

/-- A block that is left open. -/
inductive Unclosed (number : Nat) (xs : List (List Char)) : Block → Prop where
  | open {before inside : List (List Char)} {header : List Char} {times : Nat} {body : List Block}
      (split : xs = before ++ header :: inside) (opening : mark (Text.trim header) = .header times)
      (grows : Grows true (number + before.length + 1) inside body) :
      Unclosed number xs (.repetition times (number + before.length) body none)

theorem Placed.within {number' : Nat} {before segment after : List (List Char)}
    (h : Placed number' segment b) (hxs : xs = before ++ (segment ++ after))
    (hnumber : number' = number + before.length) : Placed number xs b := by
  cases h with
  | @leaf front behind text _ split leaf =>
      have hsplit : xs = before ++ front ++ text :: (behind ++ after) := by rw [hxs, split]; simp
      refine .leaf hsplit ?_
      rwa [List.length_append, ← Nat.add_assoc, ← hnumber]
  | @stray front behind text split closing =>
      have hsplit : xs = before ++ front ++ text :: (behind ++ after) := by rw [hxs, split]; simp
      have hplaced : Placed number xs _ := .stray hsplit closing
      rwa [List.length_append, ← Nat.add_assoc, ← hnumber] at hplaced
  | @closed front inside behind header text times body split opening spans closing =>
      have hsplit : xs = before ++ front ++ header :: (inside ++ text :: (behind ++ after)) := by
        rw [hxs, split]
        simp
      have hnumbers : number + (before ++ front).length = number' + front.length := by
        rw [List.length_append, ← Nat.add_assoc, hnumber]
      have hplaced : Placed number xs _ := .closed hsplit opening (hnumbers ▸ spans) closing
      rwa [hnumbers] at hplaced

theorem Placed.append (h : Placed number xs b) (ys : List (List Char)) : Placed number (xs ++ ys) b :=
  h.within (List.nil_append _).symm rfl

theorem Unclosed.within {number' : Nat} {before segment : List (List Char)}
    (h : Unclosed number' segment b) (hxs : xs = before ++ segment)
    (hnumber : number' = number + before.length) : Unclosed number xs b := by
  cases h with
  | @«open» front inside header times body split opening grows =>
      have hsplit : xs = before ++ front ++ header :: inside := by rw [hxs, split, List.append_assoc]
      have hnumbers : number + (before ++ front).length = number' + front.length := by
        rw [List.length_append, ← Nat.add_assoc, hnumber]
      have hunclosed : Unclosed number xs _ := .open hsplit opening (hnumbers ▸ grows)
      rwa [hnumbers] at hunclosed

theorem Spans.placed (h : Spans inner number xs bs) (hb : b ∈ bs) : Placed number xs b := by
  induction h with
  | nil => cases hb
  | leaf _ leaf ih =>
      rcases List.mem_append.1 hb with hb | hb
      · exact (ih hb).append _
      · rw [List.mem_singleton.1 hb]
        exact .leaf rfl leaf
  | stray _ closing ih =>
      rcases List.mem_append.1 hb with hb | hb
      · exact (ih hb).append _
      · rw [List.mem_singleton.1 hb]
        exact .stray rfl closing
  | repetition _ opening inside closing ih =>
      rcases List.mem_append.1 hb with hb | hb
      · exact (ih hb).append _
      · rw [List.mem_singleton.1 hb]
        exact .closed rfl opening inside closing

theorem Grows.placed (h : Grows inner number xs bs) (hb : b ∈ bs) :
    Placed number xs b ∨ Unclosed number xs b := by
  cases h with
  | whole spans => exact .inl (spans.placed hb)
  | unclosed before opening inside =>
      rcases List.mem_append.1 hb with hb | hb
      · exact .inl ((before.placed hb).append _)
      · rw [List.mem_singleton.1 hb]
        exact .inr (.open rfl opening inside)

theorem Level.placed (h : Level bs level) (hspans : Spans inner number xs bs) (hb : b ∈ level) :
    Placed number xs b := by
  induction h generalizing inner number xs with
  | top => exact hspans.placed hb
  | inside mem _ ih =>
      cases hspans.placed mem with
      | leaf _ leaf => cases leaf
      | @closed before inside after header _ _ _ split _ spans _ =>
          rw [List.append_cons] at split
          refine (ih spans hb).within split ?_
          rw [List.length_append, List.length_singleton, Nat.add_assoc]

theorem Level.placed_or_unclosed (h : Level bs level) (hgrows : Grows inner number xs bs) (hb : b ∈ level) :
    Placed number xs b ∨ Unclosed number xs b := by
  induction h generalizing inner number xs with
  | top => exact hgrows.placed hb
  | inside mem within ih =>
      have hnumber (before : List (List Char)) (header : List Char) :
          number + before.length + 1 = number + (before ++ [header]).length := by
        rw [List.length_append, List.length_singleton, Nat.add_assoc]
      rcases hgrows.placed mem with hplaced | hunclosed
      · cases hplaced with
        | leaf _ leaf => cases leaf
        | @closed before inside after header _ _ _ split _ spans _ =>
            rw [List.append_cons] at split
            exact .inl ((within.placed spans hb).within split (hnumber before header))
      · cases hunclosed with
        | @«open» before inside header _ _ split _ grows =>
            rw [List.append_cons] at split
            rcases ih grows hb with hplaced | hunclosed
            · rw [← List.append_nil inside] at split
              exact .inl (hplaced.within split (hnumber before header))
            · exact .inr (hunclosed.within split (hnumber before header))

theorem not_placed_unclosed {times start : Nat} {body : List Block} :
    ¬Placed number xs (.repetition times start body none) := by
  intro h
  cases h with
  | leaf _ leaf => cases leaf

/-- What is left open is the last block of its level. -/
theorem Level.last (h : Level bs level) (hgrows : Grows inner number xs bs) {i times start : Nat}
    {body : List Block} (hi : level[i]? = some (.repetition times start body none)) :
    i + 1 = level.length := by
  induction h generalizing inner number xs with
  | top =>
      cases hgrows with
      | whole spans => exact absurd (spans.placed (List.mem_of_getElem? hi)) not_placed_unclosed
      | @unclosed _ _ _ _ _ front _ _ before _ _ =>
          rw [List.length_append, List.length_singleton]
          have hlt := (List.getElem?_eq_some_iff.1 hi).1
          rw [List.length_append, List.length_singleton] at hlt
          by_contra hne
          rw [List.getElem?_append_left (by omega)] at hi
          exact not_placed_unclosed (before.placed (List.mem_of_getElem? hi))
  | inside mem within ih =>
      rcases hgrows.placed mem with hplaced | hunclosed
      · cases hplaced with
        | leaf _ leaf => cases leaf
        | closed _ _ spans _ =>
            exact absurd (within.placed spans (List.mem_of_getElem? hi)) not_placed_unclosed
      · cases hunclosed with
        | «open» _ _ grows => exact ih grows hi

theorem Spans.stray_notMem (h : Spans inner number xs bs) (hinner : inner = true) (k : Nat) :
    .strayClose k ∉ bs := by
  induction h with
  | nil => exact List.not_mem_nil
  | leaf _ leaf ih =>
      intro hmem
      rcases List.mem_append.1 hmem with hmem | hmem
      · exact ih hinner hmem
      · rw [← List.mem_singleton.1 hmem] at leaf
        cases leaf
  | stray => cases hinner
  | repetition _ _ _ _ ih =>
      intro hmem
      rcases List.mem_append.1 hmem with hmem | hmem
      · exact ih hinner hmem
      · cases List.mem_singleton.1 hmem

theorem Grows.stray_notMem (h : Grows true number xs bs) (k : Nat) : .strayClose k ∉ bs := by
  cases h with
  | whole spans => exact spans.stray_notMem rfl k
  | unclosed before _ _ =>
      intro hmem
      rcases List.mem_append.1 hmem with hmem | hmem
      · exact before.stray_notMem rfl k hmem
      · cases List.mem_singleton.1 hmem

/-- There are no stray braces inside of blocks. -/
theorem Level.stray_notMem (h : Level bs level) (hgrows : Grows true number xs bs) (k : Nat) :
    .strayClose k ∉ level := by
  induction h generalizing number xs with
  | top => exact hgrows.stray_notMem k
  | inside mem within ih =>
      rcases hgrows.placed mem with hplaced | hunclosed
      · cases hplaced with
        | leaf _ leaf => cases leaf
        | closed _ _ spans _ => exact ih (.whole spans)
      · cases hunclosed with
        | «open» _ _ grows => exact ih grows

theorem Leaf.weight_eq {text : List Char} (h : Leaf number text b) :
    (mark (Text.trim text)).weight = 0 := by
  cases h with
  | line plain => rw [plain]; rfl
  | malformed malformed => rw [malformed]; rfl

/-- Lines that make up whole blocks inside of a block are balanced. -/
theorem Spans.balanced (h : Spans inner number xs bs) (hinner : inner = true) : Balanced xs := by
  induction h with
  | nil => exact ⟨covered_nil, rfl⟩
  | leaf _ leaf ih =>
      obtain ⟨hcovered, hsettled⟩ := ih hinner
      refine ⟨hcovered.concat leaf.weight_eq, ?_⟩
      rw [excess_append, hsettled, excess_singleton, leaf.weight_eq, Int.add_zero]
  | stray => cases hinner
  | @repetition _ _ times _ ys _ _ header text _ opening _ closing ih ihinside =>
      obtain ⟨hcovered, hsettled⟩ := ih hinner
      obtain ⟨hinside, hzero⟩ := ihinside rfl
      have hblock := covered_header opening (hinside.concat_close closing)
      refine ⟨hcovered.append fun front hfront => ?_, ?_⟩
      · rw [hsettled, Int.zero_add]
        exact hblock front hfront
      · rw [excess_append, hsettled, excess, excess_append, hzero, excess_singleton, opening, closing]
        rfl

theorem Grows.covered (h : Grows inner number xs bs) (hinner : inner = true) : Covered xs := by
  induction h with
  | whole spans => exact (spans.balanced hinner).covered
  | unclosed before opening _ ih =>
      obtain ⟨hcovered, hsettled⟩ := before.balanced hinner
      have hblock := covered_header opening fun front hfront =>
        Int.le_trans (by decide) (ih rfl front hfront)
      refine hcovered.append fun front hfront => ?_
      rw [hsettled, Int.zero_add]
      exact hblock front hfront

/-- A line of two parts is in the first one or in the second. -/
theorem split_cases {front behind before after : List (List Char)} {text : List Char}
    (h : front ++ behind = before ++ text :: after) :
    (∃ rest, front = before ++ text :: rest) ∨
      ∃ rest, before = front ++ rest ∧ behind = rest ++ text :: after := by
  rcases List.append_eq_append_iff.1 h with ⟨rest, hbefore, hbehind⟩ | ⟨rest, hfront, hrest⟩
  · exact .inr ⟨rest, hbefore, hbehind⟩
  · cases rest with
    | nil => exact .inr ⟨[], by rw [hfront, List.append_nil, List.append_nil], hrest.symm⟩
    | cons first rest =>
        obtain ⟨rfl, -⟩ := List.cons.inj hrest
        exact .inl ⟨rest, hfront⟩

theorem split_singleton {text text' : List Char} {before after : List (List Char)}
    (h : [text] = before ++ text' :: after) : text = text' := by
  obtain ⟨-, hcons⟩ | ⟨-, hnil⟩ := List.append_eq_singleton_iff.1 h.symm
  · exact (List.cons.inj hcons).1.symm
  · cases hnil

/-- Some level holds the block that a header opens. -/
def Opens (bs : List Block) (start : Nat) : Prop :=
  ∃ level times body close, Level bs level ∧ .repetition times start body close ∈ level

theorem Opens.append {start : Nat} (h : Opens bs start) (cs : List Block) : Opens (bs ++ cs) start := by
  obtain ⟨level, times, body, close, within, mem⟩ := h
  cases within with
  | top => exact ⟨_, _, _, _, .top _, List.mem_append_left _ mem⟩
  | inside mem' within => exact ⟨_, _, _, _, .inside (List.mem_append_left _ mem') within, mem⟩

theorem Opens.inside {times start start' : Nat} {body : List Block} {close : Option Nat}
    (h : Opens body start) : Opens (bs ++ [.repetition times start' body close]) start := by
  obtain ⟨level, times, body, close, within, mem⟩ := h
  exact ⟨_, _, _, _, .inside (List.mem_append_right _ (List.mem_singleton.2 rfl)) within, mem⟩

theorem opens_self {times start : Nat} {body : List Block} {close : Option Nat} :
    Opens (bs ++ [.repetition times start body close]) start :=
  ⟨_, _, _, _, .top _, List.mem_append_right _ (List.mem_singleton.2 rfl)⟩

theorem number_behind {front rest : List (List Char)} {first : List Char} :
    number + (front ++ first :: rest).length = number + front.length + 1 + rest.length := by
  rw [List.length_append, List.length_cons]
  omega

theorem Spans.opens (h : Spans inner number xs bs) {before after : List (List Char)} {header : List Char}
    {times : Nat} (hxs : xs = before ++ header :: after)
    (hheader : mark (Text.trim header) = .header times) : Opens bs (number + before.length) := by
  induction h generalizing before after with
  | nil => simp at hxs
  | leaf _ leaf ih =>
      rcases split_cases hxs with ⟨rest, hfront⟩ | ⟨rest, -, hbehind⟩
      · exact (ih hfront).append _
      · rw [split_singleton hbehind] at leaf
        have hweight := leaf.weight_eq
        rw [hheader] at hweight
        cases hweight
  | stray _ closing ih =>
      rcases split_cases hxs with ⟨rest, hfront⟩ | ⟨rest, -, hbehind⟩
      · exact (ih hfront).append _
      · rw [split_singleton hbehind, hheader] at closing
        cases closing
  | repetition _ _ _ closing ih ihinside =>
      rcases split_cases hxs with ⟨rest, hfront⟩ | ⟨rest, rfl, hbehind⟩
      · exact (ih hfront).append _
      cases rest with
      | nil =>
          rw [List.append_nil]
          exact opens_self
      | cons first rest =>
          rcases split_cases (List.cons.inj hbehind).2 with ⟨_, hinside⟩ | ⟨_, -, hlast⟩
          · rw [number_behind]
            exact (ihinside hinside).inside
          · rw [split_singleton hlast, hheader] at closing
            cases closing

theorem Grows.opens (h : Grows inner number xs bs) {before after : List (List Char)} {header : List Char}
    {times : Nat} (hxs : xs = before ++ header :: after)
    (hheader : mark (Text.trim header) = .header times) : Opens bs (number + before.length) := by
  induction h generalizing before after with
  | whole spans => exact spans.opens hxs hheader
  | unclosed whole _ _ ih =>
      rcases split_cases hxs with ⟨rest, hfront⟩ | ⟨rest, rfl, hbehind⟩
      · exact (whole.opens hfront hheader).append _
      cases rest with
      | nil =>
          rw [List.append_nil]
          exact opens_self
      | cons first rest =>
          rw [number_behind]
          exact (ih (List.cons.inj hbehind).2).inside

/-- Where whole blocks end every header has been closed. -/
theorem Spans.closed (h : Spans inner number xs bs) {before after : List (List Char)} {header : List Char}
    {times : Nat} (hxs : xs = before ++ header :: after)
    (hheader : mark (Text.trim header) = .header times) : ¬Covered after := by
  obtain ⟨level, times, body, close, within, mem⟩ := h.opens hxs hheader
  generalize hstart : number + before.length = start at mem
  cases within.placed h mem with
  | leaf _ leaf => cases leaf
  | @closed before' inside after' _ text _ _ split _ spans closing =>
      have hinside := (List.cons.inj (List.append_inj (hxs.symm.trans split) (by omega)).2).2
      exact (spans.balanced rfl).not_covered closing ⟨after', by rw [hinside]; simp⟩

/-- A header that is left open is closed nowhere. -/
theorem Unclosed.not_matches {times start close : Nat} {body : List Block}
    (h : Unclosed 1 xs (.repetition times start body none)) : ¬Matches xs start close := by
  cases h with
  | @«open» before inside header _ _ split _ grows =>
      rintro ⟨before', inside', after, opening, closing, _, hxs, hstart, -, -, hclosing, hbalanced⟩
      have hinside := (List.cons.inj (List.append_inj (split.symm.trans hxs) (by omega)).2).2
      exact hbalanced.not_covered hclosing ⟨after, by rw [hinside]; simp⟩ (grows.covered rfl)

/-- In front of a stray brace there are whole blocks only. -/
theorem Spans.before_stray (h : Spans inner number xs bs) {k : Nat} (hk : .strayClose k ∈ bs) :
    ∃ front blocks, front <+: xs ∧ k = number + front.length ∧ Spans inner number front blocks := by
  induction h with
  | nil => cases hk
  | leaf _ leaf ih =>
      rcases List.mem_append.1 hk with hk | hk
      · obtain ⟨front, blocks, hfront, hk, spans⟩ := ih hk
        exact ⟨front, blocks, hfront.trans (List.prefix_append _ _), hk, spans⟩
      · rw [← List.mem_singleton.1 hk] at leaf
        cases leaf
  | @stray _ front blocks _ before _ ih =>
      rcases List.mem_append.1 hk with hk | hk
      · obtain ⟨front, blocks, hfront, hk, spans⟩ := ih hk
        exact ⟨front, blocks, hfront.trans (List.prefix_append _ _), hk, spans⟩
      · cases List.mem_singleton.1 hk
        exact ⟨front, blocks, List.prefix_append _ _, rfl, before⟩
  | repetition _ _ _ _ ih =>
      rcases List.mem_append.1 hk with hk | hk
      · obtain ⟨front, blocks, hfront, hk, spans⟩ := ih hk
        exact ⟨front, blocks, hfront.trans (List.prefix_append _ _), hk, spans⟩
      · cases List.mem_singleton.1 hk

theorem Spans.not_matches {lines : List (List Char)} {start : Nat} (h : Spans inner 1 xs bs)
    (hxs : xs <+: lines) : ¬Matches lines start (1 + xs.length) := by
  rintro ⟨before, inside, after, opening, closing, times, hlines, rfl, hlength, hopening, -, hbalanced⟩
  have hfront : xs = before ++ opening :: inside := by
    have hprefix : before ++ opening :: inside <+: lines := ⟨closing :: after, by rw [hlines]; simp⟩
    refine (List.prefix_of_prefix_length_le hxs hprefix ?_).eq_of_length ?_ <;>
      rw [List.length_append, List.length_cons] <;> omega
  exact h.closed hfront hopening hbalanced.covered

/-- A stray brace closes nothing. -/
theorem Grows.stray_not_matches {start k : Nat} (h : Grows inner 1 xs bs) (hk : .strayClose k ∈ bs) :
    ¬Matches xs start k := by
  cases h with
  | whole spans =>
      obtain ⟨front, blocks, hfront, rfl, hspans⟩ := spans.before_stray hk
      exact hspans.not_matches hfront
  | unclosed before _ _ =>
      rcases List.mem_append.1 hk with hk | hk
      · obtain ⟨front, blocks, hfront, rfl, hspans⟩ := before.before_stray hk
        exact hspans.not_matches (hfront.trans (List.prefix_append _ _))
      · cases List.mem_singleton.1 hk

/-- The line with the given number, counted from one. -/
def HasLine (lines : List (List Char)) (number : Nat) (text : List Char) : Prop :=
  (text, number) ∈ lines.zipIdx 1

/-- What a block tells about its lines. The body of a repetition holds the lines between its header and the
brace that matches it, or everything behind a header that no brace matches. -/
def Reads (lines : List (List Char)) : Block → Prop
  | .line number text => HasLine lines number text ∧ mark (Text.trim text) = .plain
  | .malformed number text =>
      (∃ line, HasLine lines number line ∧ Text.trim line = text) ∧ mark text = .malformedHeader
  | .strayClose number =>
      (∃ line, HasLine lines number line ∧ mark (Text.trim line) = .close) ∧
        ∀ start, ¬Matches lines start number
  | .repetition times start body (some close) =>
      0 < times ∧ (∃ line, HasLine lines start line ∧ mark (Text.trim line) = .header times) ∧
        Matches lines start close ∧ numbersOf body = List.range' (start + 1) (close - start - 1)
  | .repetition times start body none =>
      0 < times ∧ (∃ line, HasLine lines start line ∧ mark (Text.trim line) = .header times) ∧
        (∀ close, ¬Matches lines start close) ∧
          numbersOf body = List.range' (start + 1) (lines.length - start)

/-- A tree that loses nothing of some lines and is nested as their headers and braces are. -/
structure WellNested (lines : List (List Char)) (tree : List Block) : Prop where
  /-- Every line stands in it once, and in order. -/
  numbers : numbersOf tree = List.range' 1 lines.length
  reads : ∀ {level b}, Level tree level → b ∈ level → Reads lines b
  /-- What is left open is the last block of its level. -/
  last : ∀ {level i times start body}, Level tree level →
    level[i]? = some (.repetition times start body none) → i + 1 = level.length
  /-- Nothing is left open inside of a block that is closed. -/
  shut : ∀ {level times start body close inside times' start' body'}, Level tree level →
    .repetition times start body (some close) ∈ level → Level body inside →
    .repetition times' start' body' none ∉ inside
  /-- Braces that close nothing are outside of all blocks. -/
  strays : ∀ {times start body close inside number}, .repetition times start body close ∈ tree →
    Level body inside → .strayClose number ∉ inside
  /-- Each header that is matched opens a block. -/
  pairs : ∀ {start close}, Matches lines start close →
    ∃ level times body, Level tree level ∧ .repetition times start body (some close) ∈ level

theorem hasLine_split (before after : List (List Char)) (text : List Char) :
    HasLine (before ++ text :: after) (1 + before.length) text := by
  rw [HasLine, List.zipIdx_append, List.zipIdx_cons]
  exact List.mem_append_right _ List.mem_cons_self

theorem Placed.matches {times start close : Nat} {body : List Block}
    (h : Placed 1 xs (.repetition times start body (some close))) : Matches xs start close := by
  cases h with
  | leaf _ leaf => cases leaf
  | @closed before inside after header text _ _ split opening spans closing =>
      exact ⟨before, inside, after, header, text, times, split, Nat.add_comm _ _, by omega, opening, closing,
        spans.balanced rfl⟩

theorem Placed.reads (h : Placed 1 xs b)
    (hstray : ∀ {number start}, b = .strayClose number → ¬Matches xs start number) : Reads xs b := by
  cases h with
  | leaf split leaf =>
      rw [split]
      cases leaf with
      | line plain => exact ⟨hasLine_split _ _ _, plain⟩
      | malformed malformed => exact ⟨⟨_, hasLine_split _ _ _, rfl⟩, malformed⟩
  | stray split closing =>
      refine ⟨⟨_, ?_, closing⟩, fun start => hstray rfl⟩
      rw [split]
      exact hasLine_split _ _ _
  | @closed before inside after header text _ _ split opening spans closing =>
      refine ⟨times_pos_of_header opening, ⟨header, ?_, opening⟩,
        (Placed.closed split opening spans closing).matches, ?_⟩
      · rw [split]
        exact hasLine_split _ _ _
      · rw [spans.numbersOf_eq]
        congr 1
        omega

theorem Unclosed.reads (h : Unclosed 1 xs b) : Reads xs b := by
  cases h with
  | @«open» before inside header times body split opening grows =>
      refine ⟨times_pos_of_header opening, ⟨header, ?_, opening⟩,
        fun close => (Unclosed.open split opening grows).not_matches, ?_⟩
      · rw [split]
        exact hasLine_split _ _ _
      · rw [grows.numbersOf_eq, split, List.length_append, List.length_cons]
        congr 1
        omega

/-- The bodies of a level have no stray braces at any depth. -/
theorem Grows.stray_notMem_inside (h : Grows inner number xs bs) {times start : Nat} {body : List Block}
    {close : Option Nat} (hb : .repetition times start body close ∈ bs) (hlevel : Level body level) (k : Nat) :
    .strayClose k ∉ level := by
  rcases h.placed hb with hplaced | hunclosed
  · cases hplaced with
    | leaf _ leaf => cases leaf
    | closed _ _ spans _ => exact hlevel.stray_notMem (.whole spans) k
  · cases hunclosed with
    | «open» _ _ grows => exact hlevel.stray_notMem grows k

/-- The tree of any lines loses nothing and is properly nested. -/
theorem wellNested_ofLines (lines : List (List Char)) : WellNested lines (ofLines lines) where
  numbers := (grows_ofLines lines).numbersOf_eq
  reads := by
    intro level b hlevel hb
    have hgrows := grows_ofLines lines
    rcases hlevel.placed_or_unclosed hgrows hb with hplaced | hunclosed
    · refine hplaced.reads fun {number start} hstray => ?_
      rw [hstray] at hb
      cases hlevel with
      | top => exact hgrows.stray_not_matches hb
      | inside mem within => exact absurd hb (hgrows.stray_notMem_inside mem within number)
    · exact hunclosed.reads
  last := fun hlevel => hlevel.last (grows_ofLines lines)
  shut := by
    intro level times start body close inside times' start' body' hlevel hb hinside hopen
    rcases hlevel.placed_or_unclosed (grows_ofLines lines) hb with hplaced | hunclosed
    · cases hplaced with
      | leaf _ leaf => cases leaf
      | closed _ _ spans _ => exact not_placed_unclosed (hinside.placed spans hopen)
    · cases hunclosed
  strays := fun hb hinside => (grows_ofLines lines).stray_notMem_inside hb hinside _
  pairs := by
    intro start close hmatches
    have hgrows := grows_ofLines lines
    obtain ⟨before, inside, after, opening, closing, _, hlines, hstart, -, hopening, -, -⟩ := id hmatches
    obtain ⟨level, times, body, found, hlevel, hb⟩ := hgrows.opens hlines hopening
    rw [Nat.add_comm, ← hstart] at hb
    rcases hlevel.placed_or_unclosed hgrows hb with hplaced | hunclosed
    · cases found with
      | none => exact absurd hplaced not_placed_unclosed
      | some found =>
          rw [hplaced.matches.unique hmatches] at hb
          exact ⟨level, times, body, hlevel, hb⟩
    · cases found with
      | none => exact absurd hmatches hunclosed.not_matches
      | some _ => cases hunclosed

end Block

end StimOverlay
