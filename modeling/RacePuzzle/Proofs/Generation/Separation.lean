import RacePuzzle.Proofs.Evaluation.Stamps
import RacePuzzle.Proofs.Evaluation.Tally
import RacePuzzle.Proofs.Generation.Puzzle

/-! Separated prints. Prints at one instant are neighbours, and the statement of a print is found by its
text; so a separated puzzle prints nothing at the instant of another print, except that what its handlers
print has no statement to be found. -/
namespace RacePuzzle

namespace Statement

variable {t : Statement} {events : List TimedPrint}

theorem printOf?_eq_none {text : String} (h : t.printOf? text = none) {s : Statement} (hs : s ∈ t.nodes) :
    s.printedText? ≠ some text := by
  have hnot := List.find?_eq_none.1 h s hs
  simpa using hnot

/-- Prints at one instant whose statements are not found are prints of handlers. -/
theorem pairwise_handlers (hnone : t.simultaneousPrint? events = none)
    (hsorted : events.Pairwise fun e e' => e.time ≤ e'.time)
    (hfound : ∀ e ∈ events, e.value ≠ handlerText → ∃ s ∈ t.nodes, s.printedText? = some e.value) :
    events.Pairwise fun e e' => e.time = e'.time → e.value = handlerText ∧ e'.value = handlerText := by
  have hhandler : ∀ e ∈ events, t.printOf? e.value = none → e.value = handlerText := by
    intro e he hlost
    by_contra hvalue
    obtain ⟨s, hs, hprints⟩ := hfound e he hvalue
    exact printOf?_eq_none hlost hs hprints
  clear hfound
  induction events with
  | nil => exact .nil
  | cons first rest ih =>
    obtain ⟨hfirst, hrest⟩ := List.pairwise_cons.1 hsorted
    cases rest with
    | nil => exact List.pairwise_singleton _ _
    | cons second rest =>
      -- The first two share no instant, or both their statements are not found.
      obtain ⟨hnext, htwo⟩ : t.simultaneousPrint? (second :: rest) = none ∧
          (first.time = second.time → t.printOf? first.value = none ∧ t.printOf? second.value = none) := by
        rw [simultaneousPrint?] at hnone
        split at hnone
        · simp only [Option.orElse_eq_orElse, Option.orElse_eq_or, Option.or_eq_none_iff] at hnone
          exact ⟨hnone.2.2, fun _ => ⟨hnone.2.1, hnone.1⟩⟩
        · next hne => exact ⟨hnone, fun he => absurd he hne⟩
      have hlater := ih hnext hrest fun e he => hhandler e (List.mem_cons_of_mem _ he)
      refine List.pairwise_cons.2 ⟨fun e he htime => ?_, hlater⟩
      have hsecond : second.time ≤ e.time := by
        rcases List.mem_cons.1 he with rfl | he
        · exact Nat.le_refl _
        · exact (List.pairwise_cons.1 hrest).1 e he
      have hle := hfirst second List.mem_cons_self
      obtain ⟨hlost, hlost'⟩ := htwo (by omega)
      have hvalue := hhandler first List.mem_cons_self hlost
      have hvalue' := hhandler second (List.mem_cons_of_mem _ List.mem_cons_self) hlost'
      rcases List.mem_cons.1 he with rfl | he
      · exact ⟨hvalue, hvalue'⟩
      · exact ⟨hvalue, ((List.pairwise_cons.1 hlater).1 e he (by omega)).2⟩

end Statement

/-- A puzzle whose prints were to be separated has no two prints at one instant but prints of handlers. -/
theorem separated_prints_are_apart (config : PuzzleConfig) (firstId : StatementId) (puzzle : Puzzle)
    (hseparate : config.separate = true) (hmake : Puzzle.make config firstId = .ok puzzle) :
    puzzle.expected.events.Pairwise fun e e' =>
      e.time = e'.time → e.value = handlerText ∧ e'.value = handlerText := by
  have h := Puzzle.finished hmake
  have hvalid := Statement.validate_eq_ok_iff.1 h.valid
  obtain ⟨L, hL⟩ := (puzzle.program.reaches_runWith .default).history
  rw [h.expected]
  refine Statement.pairwise_handlers (h.separated hseparate) ?_ fun e he hvalue =>
    Statement.exists_print_of_event hvalid h.distinct.announces he hvalue
  rw [Statement.evaluate, events_eq_filterMap]
  exact hL.prints_sorted

/-- Two handlers print at the beginning, and neither print has a statement that could be removed. -/
def caughtTwice : Statement :=
  .block 2 .coroutineScope
    [.block 1 (.tryCatch .generic) [.leaf 0 (.throwException .generic)],
      .block 4 (.tryCatch .generic) [.leaf 3 (.throwException .cancellation)],
      .leaf 5 (.throwException .custom)]

set_option maxRecDepth 20000 in
theorem caughtTwice_at_one_instant :
    Puzzle.make ⟨6, [.tryCatch, .throwException], 57, 1, true⟩ 0 =
      .ok ⟨caughtTwice, caughtTwice.evaluate, 1⟩ ∧
    caughtTwice.evaluate.events = [⟨handlerText, 0⟩, ⟨handlerText, 0⟩] ∧
    caughtTwice.evaluate.events.Pairwise fun e e' =>
      e.time = e'.time → e.value = handlerText ∧ e'.value = handlerText := by
  have hvalid : caughtTwice.validate = .ok () := by cbv
  have hreduced : caughtTwice.reduceBlocks.reduceLeaves = caughtTwice := by cbv
  have hwaits : caughtTwice.hangs = false := by cbv
  have hsimplified : caughtTwice.simplify.run 6 = (.ok caughtTwice, 6) :=
    caughtTwice.simplify_of_reconciled hvalid (by decide) hreduced ⟨by decide, by decide⟩ hwaits
  have hevents : caughtTwice.evaluate.events = [⟨handlerText, 0⟩, ⟨handlerText, 0⟩] := by cbv
  have hseparated : caughtTwice.Separated := by
    rw [Statement.Separated, hevents]
    rfl
  have hmake : Puzzle.make ⟨6, [.tryCatch, .throwException], 57, 1, true⟩ 0 =
      .ok ⟨caughtTwice, caughtTwice.evaluate, 1⟩ :=
    Puzzle.make_of_first_round rfl (by decide +kernel) hsimplified (fun _ => hseparated) (by decide)
  exact ⟨hmake, hevents, separated_prints_are_apart _ 0 _ rfl hmake⟩

end RacePuzzle
