import Mathlib.Algebra.Order.BigOperators.Group.List
import Mathlib.Algebra.Order.Group.Nat
import RacePuzzle.Proofs.Evaluation.Stamps
import RacePuzzle.Proofs.Evaluation.StructuredConcurrency
import RacePuzzle.Proofs.Simplification.Reductions

/-! Infinite waits. A modest program hangs only on a bare job, so that the removal of all bare jobs
is enough to break every infinite wait. -/
namespace RacePuzzle.Statement

variable {n n' : Nat} {t t' : Statement}

/-- A run of the program has time and turns enough, and its delays are not absurdly long. -/
structure Modest (t : Statement) : Prop where
  delays : t.delays.sum ≤ patience
  timers : t.delays.length ≤ 200000
  size : 2 * t.size + 1 ≤ 1000000

theorem Simpler.modest (h : Simpler n t t' n') (hm : t.Modest) : t'.Modest :=
  ⟨Nat.le_trans (List.Sublist.sum_le_sum h.delays fun _ _ => Nat.zero_le _) hm.delays,
    Nat.le_trans h.delays.length_le hm.timers, Nat.le_trans (by have := h.size; omega) hm.size⟩

/-- No event comes later than all delays take together. -/
theorem time_le_of_mem_events (t : Statement) (limits : Limits) {e : TimedPrint}
    (he : e ∈ (t.evaluateWithin limits).events) : e.time ≤ t.delays.sum := by
  obtain ⟨L, hL⟩ := (t.reaches_runWith limits).history
  rw [events_eq_filterMap] at he
  exact Nat.le_trans (hL.print_le_now he) (Nat.le_of_add_right_le (deadline_le hL).1)

theorem not_hangs_of_no_bareJobs (ht : t.Valid) (hm : t.Modest) (hbare : t.bareJobs = []) :
    t.hangs = false := by
  have hjob : ∀ i var, .leaf i (.job var) ∉ t.nodes := fun i var hmem =>
    List.eq_nil_iff_forall_not_mem.1 hbare var (mem_bareJobs.2 ⟨_, hmem, i, rfl⟩)
  have hends : t.evaluate.termination ≠ .neverCompletes :=
    termination_of_no_bare_jobs ht hjob (Nat.le_trans hm.delays (by decide)) hm.size hm.timers
  simp only [hangs, Evaluation.hangs, Bool.or_eq_false_iff, List.any_eq_false, decide_eq_true_eq,
    Nat.not_lt, beq_eq_false_iff_ne]
  exact ⟨hends, fun e he => Nat.le_trans (time_le_of_mem_events t _ he) hm.delays⟩

theorem breakInfiniteWaits_of_not_hangs (h : t.hangs = false) (n : Nat) :
    t.breakInfiniteWaits n = (t, n) := by
  have hif : t.breakInfiniteWaits = return t := by
    simp [breakInfiniteWaits, h]
  rw [hif]
  rfl

/-- What is left when the bare jobs have gone, the joins as well if that is not enough. -/
def withoutBareJobs (t : Statement) (n : Nat) : Statement × Nat :=
  let r := t.eraseHandles t.bareJobs n
  (if r.1.hangs then r.1.edit fun s => if s.isJoin then .drop else .keep s else r.1, r.2)

/-- A program that hangs loses one bare job, or all of them. -/
theorem breakInfiniteWaits_of_hangs (h : t.hangs = true) (n : Nat) :
    t.breakInfiniteWaits n = match t.withoutOneOf t.bareJobs n with
      | (some candidate, n') => (candidate, n')
      | (none, n') => t.withoutBareJobs n' := by
  unfold breakInfiniteWaits
  simp only [h, if_true, bind, StateT.bind]
  generalize t.withoutOneOf t.bareJobs n = r
  obtain ⟨_ | candidate, n'⟩ := r
  · show (if (t.eraseHandles t.bareJobs n').1.hangs then _ else _ : Fresh Statement) _ = _
    unfold withoutBareJobs
    dsimp only
    split <;> rfl
  · rfl

/-- Joins may go: they bind no handle. -/
theorem simpler_withoutJoins (ht : t.Valid) (hn : Unused n [t]) :
    Simpler n t (t.edit fun s => if s.isJoin then .drop else .keep s) n := by
  have hjoin : ∀ (s : Statement) (n : Nat), Prunes (fun _ => False) (fun _ => True) n s
      (if s.isJoin then .drop else .keep s) n := by
    intro s n
    split
    · next h =>
      refine .drop fun var hvar => ?_
      unfold isJoin at h
      split at h
      · cases hvar
      · cases h
    · cases s with
      | leaf => exact .leaf trivial
      | block => exact .block fun _ => trivial
  obtain ⟨hpruned, hset⟩ := pruned_edit hjoin t n
  rw [hset]
  exact simpler_of_pruned ht hn (.refl (fun _ => trivial) n t.body :
    Pruned (fun _ => False) (fun _ => True) n _ _ n) hpruned (fun _ h => h) fun _ _ _ _ h => h

theorem simpler_withoutBareJobs (ht : t.Valid) (hn : Unused n [t]) :
    Simpler n t (t.withoutBareJobs n).1 (t.withoutBareJobs n).2 := by
  obtain ⟨h, -⟩ := simpler_eraseHandles ht hn t.bareJobs
  unfold withoutBareJobs
  dsimp only
  split
  · exact h.trans (simpler_withoutJoins h.valid h.unused)
  · exact h

/-- In a modest program the removal of all bare jobs is enough. -/
theorem withoutBareJobs_of_modest (ht : t.Valid) (hn : Unused n [t]) (hm : t.Modest) :
    (t.eraseHandles t.bareJobs n).1.hangs = false := by
  obtain ⟨h, -⟩ := simpler_eraseHandles ht hn t.bareJobs
  exact not_hangs_of_no_bareJobs h.valid (h.modest hm) (bareJobs_eraseHandles ht hn)

theorem simpler_breakInfiniteWaits (ht : t.Valid) (hn : Unused n [t]) :
    Simpler n t (t.breakInfiniteWaits n).1 (t.breakInfiniteWaits n).2 ∧
      (t.Modest → (t.breakInfiniteWaits n).1.hangs = false) := by
  cases hhangs : t.hangs with
  | false =>
    rw [breakInfiniteWaits_of_not_hangs hhangs]
    exact ⟨.refl ht hn, fun _ => hhangs⟩
  | true =>
    rw [breakInfiniteWaits_of_hangs hhangs]
    rcases withoutOneOf_cases ht hn t.bareJobs with ⟨candidate, n', he, h, hfree⟩ | ⟨n', he, hle⟩
    · rw [he]
      exact ⟨h, fun _ => hfree⟩
    · rw [he]
      have h := simpler_withoutBareJobs ht (hn.mono hle)
      refine ⟨{ h with counter := Nat.le_trans hle h.counter }, fun hm => ?_⟩
      have hfree := withoutBareJobs_of_modest ht (hn.mono hle) hm
      simp only [withoutBareJobs, hfree]
      exact hfree

end RacePuzzle.Statement
