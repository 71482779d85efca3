import StimOverlay.Proofs.RoundTrip.ReplayedMoves
import StimOverlay.Proofs.Source.NormalLines
import StimOverlay.Proofs.Source.PragmaMarkers

/-! Runs of texts. The text of lines that can follow one another is brought to their normal forms, and its
run goes through them without any diagnostic: behind it the page shows what they declare and draw, and the
operations on them are placed again. -/

namespace StimOverlay

open Build Emission Numeric

namespace Source

/-- A line of which a line in normal form and outside blocks is left when its marker is dropped. -/
structure Cleared (line left : List Char) : Prop where
  semicolon : ';' ∉ line
  unmarked : dropPragmas line = left
  normal : normalizeLine left = left
  newline : '\n' ∉ left
  last : ∃ c ∈ left.getLast?, c ≠ '\r'
  unblocked : Block.mark (Text.trim left) = .plain

theorem Settled.cleared {s : List Char} (h : Settled s) : Cleared s s where
  semicolon hmem := (h.plain _ hmem).1 rfl
  unmarked := dropPragmas_eq_self fun hmem => (h.plain _ hmem).2.1 rfl
  normal := h.normal
  newline hmem := (h.plain _ hmem).2.2.1 rfl
  last := by
    have hlast := List.getLast?_eq_some_getLast h.solid.nonempty
    exact ⟨_, hlast, (h.plain _ (List.mem_of_getLast? hlast)).2.2.2⟩
  unblocked := by rw [h.trimmed, h.unblocked]

/-- A marker in front of a line is dropped. -/
theorem Settled.cleared_marker {name : String} {rest : List Char} (hname : name ∈ pragmaNames)
    (h : Settled (name.toList ++ rest)) :
    Cleared (pragmaMarker.toList ++ (name.toList ++ rest)) (name.toList ++ rest) where
  semicolon hmem := by
    rcases List.mem_append.1 hmem with hmem | hmem
    · exact absurd hmem (by decide)
    · exact h.cleared.semicolon hmem
  unmarked := by
    have hdropped := replaceEach_markers (List.Subset.refl _) hname
      (show '#' ∉ [] from List.not_mem_nil) rest
    exact hdropped.trans h.cleared.unmarked
  normal := h.normal
  newline := h.cleared.newline
  last := h.cleared.last
  unblocked := h.cleared.unblocked

theorem cleared_directive {command : String} {pairs : List (String × String)}
    (hcommand : command ∈ Directive.writtenCommands) (hne : pairs ≠ [])
    (h : Directive.Assignable pairs) (hvalues : ∀ p ∈ pairs, '\n' ∉ p.2.toList) :
    Cleared (Directive.line command pairs) (Directive.line command pairs) := by
  have hfixed := fixed_directive hcommand h hvalues
  have hlast := List.getLast?_eq_some_getLast (show Directive.line command pairs ≠ [] from
    List.cons_ne_nil _ _)
  refine ⟨hfixed.semicolon, hfixed.unmarked, hfixed.normal, hfixed.newline, ⟨_, hlast, ?_⟩, ?_⟩
  · intro heq
    have hblank := Directive.getLast?_line hne h _ hlast
    rw [heq] at hblank
    exact absurd hblank (by decide)
  · rw [Directive.trim_line hne h, Directive.mark_line]

/-- A text is brought to the normal forms of its lines. -/
theorem normalize_of_cleared {ls : List α} {f g : α → List Char} (h : ∀ l ∈ ls, Cleared (f l) (g l)) :
    normalize (Text.joinWith ['\n'] (ls.map f)) = ls.map g := by
  have hdropped : (ls.map f).map dropPragmas = ls.map g := by
    rw [List.map_map]
    exact List.map_congr_left fun l hl => (h l hl).unmarked
  have hmapped {P : List Char → Prop} (hP : ∀ l ∈ ls, P (g l)) : ∀ t ∈ ls.map g, P t :=
    List.forall_mem_map.2 hP
  have hended : Text.Ended (ls.map g) := by
    refine ⟨hmapped fun l hl => (h l hl).newline, fun t ht => ?_, fun hlast => ?_⟩
    · refine hmapped (P := fun t => t.getLast? ≠ some '\r') (fun l hl hreturn => ?_) t
        (List.mem_of_mem_dropLast ht)
      obtain ⟨c, hc, hne⟩ := (h l hl).last
      exact hne (Option.some_inj.1 (hc.symm.trans hreturn))
    · refine hmapped (P := (· ≠ [])) (fun l hl hnil => ?_) [] (List.mem_of_getLast? hlast) rfl
      obtain ⟨c, hc, -⟩ := (h l hl).last
      rw [hnil] at hc
      cases hc
  rw [normalize_lines (List.forall_mem_map.2 fun l hl => (h l hl).semicolon) (hdropped ▸ hended),
    List.map_map]
  refine List.map_congr_left fun l hl => ?_
  rw [Function.comp_apply, (h l hl).unmarked, (h l hl).normal]

end Source

namespace Emission

variable {n : Numbering} {k : Nat} {l : Line} {ls : List Line} {p : Page} {s : State}
  {before : List (Nat × Operation)}

theorem cleared_of_sound (hk : k ≤ Lexeme.offsetBound) (h : l.Sound n k) :
    Source.Cleared (l.text n).toList (l.normal n) := by
  have hsettled (hl : l.IsInstruction) : Source.Settled (l.normal n) := by
    obtain ⟨i, -, hreadable⟩ := readable_of_legible (h.legible hk hl)
    exact hreadable.settled
  cases l with
  | sheet name z =>
      have hvalues : ∀ p ∈ sheetPairs name z, '\n' ∉ p.2.toList := by
        intro p hp
        rcases List.mem_pair.1 hp with rfl | rfl
        · exact h.1.2
        · exact fun hmem => absurd ((isBare_height z).2 _ hmem).1 (by decide)
      rw [show ((Line.sheet name z).text n).toList = (Line.sheet name z).normal n from rfl,
        normal_sheet h.1]
      exact Source.cleared_directive (by decide) (by simp [sheetPairs]) (assignable_sheet h.1) hvalues
  | polygonHeader name stroke fill =>
      have hvalues : ∀ p ∈ headerPairs name stroke fill, '\n' ∉ p.2.toList := by
        intro p hp
        rcases mem_headerPairs hp with rfl | ⟨v, hv, rfl⟩ | ⟨v, hv, rfl⟩
        · exact h.1.2
        · exact (h.2.1 v hv).2
        · exact (h.2.2 v hv).2
      rw [show ((Line.polygonHeader name stroke fill).text n).toList =
        (Line.polygonHeader name stroke fill).normal n from rfl, normal_header h]
      exact Source.cleared_directive (by decide) (List.cons_ne_nil _ _) (assignable_header h) hvalues
  | polygonBody colour corners =>
      have hsettled := hsettled trivial
      let rest := "(" ++ colour.text ++ ") " ++ n.text corners
      have hnormal : (Line.polygonBody colour corners).normal n =
          "POLYGON".toList ++ rest.toList := by
        have htext : (Line.polygonBody colour corners).normal n =
          ("POLYGON(" ++ colour.text ++ ") " ++ n.text corners).toList := rfl
        simp [htext, rest]
      have htext : ((Line.polygonBody colour corners).text n).toList =
          Source.pragmaMarker.toList ++ ("POLYGON".toList ++ rest.toList) := by
        have htext : (Line.polygonBody colour corners).text n =
          "#!pragma POLYGON(" ++ colour.text ++ ") " ++ n.text corners := rfl
        simp [htext, rest, Source.pragmaMarker]
      rw [hnormal] at hsettled
      rw [hnormal, htext]
      exact hsettled.cleared_marker (by decide)
  | _ => exact (hsettled trivial).cleared

/-- A run behind lines: it has recorded `k` measurements, its state shows the page, and the given operations
have been placed again. -/
structure Traced (n : Numbering) (before : List (Nat × Operation)) (k : Nat) (p : Page) (s : State) :
    Prop where
  size : s.record.size = k
  shows : Shows p s
  replayed : Replayed n before p.layer s.tape.schedule

theorem traced_start (n : Numbering) : Traced n [] 0 {} {} where
  size := rfl
  shows := shows_start
  replayed := by
    rw [tape_start]
    exact replayed_start n

theorem Traced.layer (h : Traced n before k p s) : s.layer = p.layer := by
  have hposition := h.replayed.position
  rwa [Schedule.position, State.tape, Schedule.map, Array.size_map] at hposition

theorem layer_turn (n : Numbering) (p : Page) (l : Line) : (l.turn n p).layer = l.next p.layer := by
  cases l <;> rfl

/-- One more line is run. -/
theorem Traced.line (h : Traced n before k p s) (hk : k ≤ Lexeme.offsetBound) (hsound : l.Sound n k)
    (hfollows : l.Follows p) (hall : Replayable n (before ++ l.ops.map (p.layer, ·))) (number : Nat) :
    ∃ t, s.perform .standard (.line number (l.normal n)) = .ok t ∧
      Traced n (before ++ l.ops.map (p.layer, ·)) (k + l.measurements) (l.turn n p) t := by
  obtain ⟨t, hperform, hshows⟩ := perform_of_sound hk hsound hfollows h.shows h.size h.layer number
  have hafter : s.after .standard (.line number (l.normal n)) = t := by
    rw [State.after, hperform]
    rfl
  have hmoves : (Act.line number (l.normal n)).moves .standard s.record.size = l.moves n k number := by
    rw [h.size, moves_of_sound hk hsound]
  refine ⟨t, hperform, ?_, hshows, ?_⟩
  · have hgrown := record_size_after .standard s (.line number (l.normal n))
    rwa [hafter, hmoves, countP_moves, h.size] at hgrown
  · rw [← hafter, tape_after, hmoves, layer_turn]
    exact h.replayed.line hall k number

/-- Lines that may follow one another are run one after another. -/
theorem Traced.lines (h : Traced n before k p s) (hsound : SoundFrom n k ls) (hfollows : FollowsFrom n p ls)
    (hbound : k + measurementsOf ls ≤ Lexeme.offsetBound)
    (hall : Replayable n (before ++ written p.layer ls)) (number : Nat) :
    ∃ t, (lineActs number (ls.map (Line.normal n))).foldlM (State.perform .standard) s = .ok t ∧
      Traced n (before ++ written p.layer ls) (k + measurementsOf ls) (pageBehind n p ls) t := by
  induction hsound generalizing before p s number with
  | nil k => exact ⟨s, rfl, by rwa [written, List.append_nil]⟩
  | @cons k l ls head tail ih =>
      have hsum : measurementsOf (l :: ls) = l.measurements + measurementsOf ls := rfl
      rw [written, ← List.append_assoc] at hall ⊢
      cases hfollows with
      | cons hhead htail =>
          obtain ⟨t, hperform, ht⟩ := h.line (by omega) head hhead
            (hall.sublist (List.sublist_append_left _ _)) number
          rw [← layer_turn n p l] at hall ⊢
          obtain ⟨u, hrun, hu⟩ := ih ht htail (by omega) hall (number + 1)
          refine ⟨u, ?_, by rwa [hsum, ← Nat.add_assoc]⟩
          rw [lineActs] at hrun ⊢
          rw [List.map_cons, List.zipIdx_cons, List.map_cons, List.foldlM_cons, hperform]
          exact hrun

/-- The text of lines. -/
def textOf (n : Numbering) (ls : List Line) : String :=
  String.intercalate "\n" (ls.map (Line.text n))

theorem normalize_textOf (h : SoundFrom n k ls) (hbound : k + measurementsOf ls ≤ Lexeme.offsetBound) :
    (∀ l ∈ ls, Source.Cleared (l.text n).toList (l.normal n)) ∧
      Source.normalize (textOf n ls).toList = ls.map (Line.normal n) := by
  have hcleared : ∀ l ∈ ls, Source.Cleared (l.text n).toList (l.normal n) := by
    induction h with
    | nil => exact fun l hl => absurd hl List.not_mem_nil
    | @cons k l ls head tail ih =>
        have hsum : measurementsOf (l :: ls) = l.measurements + measurementsOf ls := rfl
        exact List.forall_mem_cons.2 ⟨cleared_of_sound (by omega) head, ih (by omega)⟩
  refine ⟨hcleared, ?_⟩
  rw [textOf, String.toList_intercalate, List.map_map, ← Source.normalize_of_cleared hcleared,
    Text.joinWith_eq_intercalate]
  rfl

/-- What comes of the text of lines that are run in order from the start. -/
structure Retraced (n : Numbering) (ls : List Line) : Prop where
  diagnostics : (parse (textOf n ls)).diagnostics = []
  moves : movesOf (textOf n ls) = movesOfLines n 0 1 ls
  shows : Shows (pageBehind n {} ls) (finalState .standard (Source.normalize (textOf n ls).toList))
  replayed : Replayed n (written 0 ls) (pageBehind n {} ls).layer (tapeOf (textOf n ls)).schedule

/-- Written lines are parsed without diagnostics, into the moves that they stand for. -/
theorem retraced_of_sound (h : SoundFrom n 0 ls) (hfollows : FollowsFrom n {} ls)
    (hdone : (pageBehind n {} ls).header = none) (hbound : measurementsOf ls ≤ Lexeme.offsetBound)
    (hall : Replayable n (written 0 ls)) : Retraced n ls := by
  have hbound : 0 + measurementsOf ls ≤ Lexeme.offsetBound := by omega
  obtain ⟨hcleared, hnormal⟩ := normalize_textOf h hbound
  have hunblocked : ∀ t ∈ ls.map (Line.normal n), Block.mark (Text.trim t) = .plain :=
    List.forall_mem_map.2 fun l hl => (hcleared l hl).unblocked
  obtain ⟨t, hrun, htraced⟩ := (traced_start n).lines h hfollows hbound hall 1
  obtain ⟨hfinal, hcourse⟩ := run_of_unblocked hunblocked (htraced.shows.free hdone) hrun
  have hmoves : movesOf (textOf n ls) = movesOfLines n 0 1 ls := by
    rw [movesOf, hnormal, hcourse, moves, movesFrom_append, movesFrom_lineActs h hbound]
    exact List.append_nil _
  refine ⟨?_, hmoves, ?_, ?_⟩
  · have hparsed : (parse (textOf n ls)).diagnostics =
        t.diagnostics.toList.map fun d =>
          { d with line := Parsed.shiftLine (t.headers.toList.map (·.line)) d.line } := by
      rw [parse, parseWith, hnormal, hfinal]
      rfl
    rw [hparsed, htraced.shows.diagnostics]
    rfl
  · rw [hnormal, hfinal]
    exact htraced.shows
  · rw [← tape_finalState, hnormal, hfinal]
    exact htraced.replayed

end Emission

end StimOverlay
