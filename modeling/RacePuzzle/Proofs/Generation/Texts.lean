import RacePuzzle.Proofs.Evaluation.Tally
import RacePuzzle.Proofs.Generation.Puzzle

/-! The texts of random programs. Each is drawn from a pool for one statement, and goes back there only
when no statement has it any more; so whatever a random program prints can be told from the rest, but for
what its handlers print. -/
namespace RacePuzzle

variable {t : Statement}

/-- No text but that of the handlers is printed twice. -/
def Statement.PrintsOnce (t : Statement) : Prop :=
  ∀ limits text, text ≠ handlerText →
    ((t.evaluateWithin limits).events.map (·.value)).count text ≤ 1

theorem Statement.Distinct.printsOnce (h : Distinct t.nodes) (ht : t.Valid) : t.PrintsOnce := by
  intro limits text htext
  have hkind : (handlerText == text) = false := beq_false_of_ne htext.symm
  rw [List.count, List.countP_map]
  exact Nat.le_trans (t.countP_events_le ht h.announces (· == text) hkind limits)
    (h.countP_le_one text)

/-- Simplification gives no statement the text of another one. -/
theorem Statement.Distinct.printsOnce_of_simplify (h : Distinct t.nodes) (ht : t.Valid) {n : Nat}
    {r : Statement} (hids : ∀ i ∈ t.ids, i < n) (hrun : (t.simplify.run n).1 = .ok r) : r.PrintsOnce := by
  obtain ⟨n', hsimpler⟩ := simpler_of_simplify ht hids hrun
  exact (h.sublist hsimpler.own).printsOnce hsimpler.valid

namespace Generation

theorem growing_of_generate {target : Nat} {ingredients : List Ingredient} {seed : UInt64}
    {firstId : StatementId}
    (h : ((generate target).run (.ofSeed ingredients seed firstId)).1 = .ok t) :
    ∃ s, Growing target s t := by
  by_cases htarget : target < 2
  · unfold generate at h
    rw [if_pos htarget] at h
    cases h
  · have hyields := yields_generate ingredients seed firstId (Nat.not_lt.1 htarget)
    unfold Yields at hyields
    generalize (generate target).run (.ofSeed ingredients seed firstId) = result at h hyields
    obtain ⟨outcome, s⟩ := result
    obtain rfl : outcome = .ok t := h
    exact ⟨s, hyields.1⟩

end Generation

open Generation

/-- In what is generated, what simplification makes of that, and what a puzzle is made of, no text but
that of the handlers is printed twice. -/
theorem random_texts_are_printed_once (target : Nat) (ingredients : List Ingredient) (seed : UInt64)
    (firstId : StatementId) :
    (∀ t, ((generate target).run (.ofSeed ingredients seed firstId)).1 = .ok t →
      t.PrintsOnce ∧
        ∀ n r, (∀ i ∈ t.ids, i < n) → (t.simplify.run n).1 = .ok r → r.PrintsOnce) ∧
    ∀ maxRounds separate puzzle,
      Puzzle.make ⟨target, ingredients, seed, maxRounds, separate⟩ firstId = .ok puzzle →
        puzzle.program.PrintsOnce := by
  refine ⟨fun t hgenerate => ?_, fun maxRounds separate puzzle hmake => ?_⟩
  · obtain ⟨s, h⟩ := growing_of_generate hgenerate
    exact ⟨h.distinct.printsOnce h.valid,
      fun n r hids hrun => h.distinct.printsOnce_of_simplify h.valid hids hrun⟩
  · have h := Puzzle.finished hmake
    exact h.distinct.printsOnce (Statement.validate_eq_ok_iff.1 h.valid)

/-- A random program in which a task results in one text and prints another. -/
def threeLetters : Statement :=
  .block 1 .coroutineScope
    [.block 3 (.async "value1" "B") [.leaf 2 (.print "C")], .leaf 0 (.print "A"),
      .leaf 4 (.printAwait "value1" "B")]

set_option maxRecDepth 20000 in
theorem threeLetters_printed_once :
    ((generate 5).run (.ofSeed [.asyncAwait, .print] 7 0)).1 = .ok threeLetters ∧
    threeLetters.PrintsOnce ∧
    (∃ r, (threeLetters.simplify.run 5).1 = .ok r ∧ r.PrintsOnce) ∧
    ∃ puzzle, Puzzle.make ⟨5, [.asyncAwait, .print], 7, 1, false⟩ 0 = .ok puzzle ∧
      puzzle.program.PrintsOnce := by
  have hgenerate : ((generate 5).run (.ofSeed [.asyncAwait, .print] 7 0)).1 = .ok threeLetters :=
    congrArg Prod.fst (run_eq_of_toOption (by decide +kernel))
  have hids : ∀ i ∈ threeLetters.ids, i < 5 := by decide
  have hvalid : threeLetters.validate = .ok () := by cbv
  have hreduced : threeLetters.reduceBlocks.reduceLeaves = threeLetters := by cbv
  have hwaits : threeLetters.hangs = false := by cbv
  have hsimplified : threeLetters.simplify.run 5 = (.ok threeLetters, 5) :=
    threeLetters.simplify_of_reconciled hvalid hids hreduced ⟨by decide, by decide⟩ hwaits
  have hsimplifies := congrArg Prod.fst hsimplified
  have hmake : Puzzle.make ⟨5, [.asyncAwait, .print], 7, 1, false⟩ 0 =
      .ok ⟨threeLetters, threeLetters.evaluate, 1⟩ :=
    Puzzle.make_of_first_round rfl (by decide +kernel) hsimplified Bool.noConfusion (by decide)
  obtain ⟨hgenerated, hmade⟩ := random_texts_are_printed_once 5 [.asyncAwait, .print] 7 0
  obtain ⟨honce, hsimpler⟩ := hgenerated threeLetters hgenerate
  exact ⟨hgenerate, honce, ⟨_, hsimplifies, hsimpler 5 _ hids hsimplifies⟩, _, hmake,
    hmade 1 false _ hmake⟩

end RacePuzzle
