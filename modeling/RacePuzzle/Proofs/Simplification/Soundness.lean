import RacePuzzle.Proofs.Simplification.Rounds
import RacePuzzle.Proofs.Simplification.Reconciliation

/-! What simplification keeps of a program that does not hang: its evaluation. Blocks and leaves go
only if the evaluation stays the same, handles that nobody uses do not matter to it, and there are no
infinite waits to break. -/
namespace RacePuzzle.Statement

variable {n n' : Nat} {t r : Statement}

theorem evaluate_round (ht : t.Valid) (hn : Unused n [t]) (hfinite : t.hangs = false) :
    (t.round n).1.evaluate = t.evaluate := by
  obtain ⟨h₁, he₁⟩ := simpler_reduceBlocks ht hn
  obtain ⟨h₂, he₂⟩ := simpler_reduceLeaves h₁.valid h₁.unused
  have he : (t.reduceBlocks.reduceLeaves.reconcileUsages n).1.evaluate = t.evaluate :=
    (evaluateWithin_reconcileUsages _ .default n).trans (he₂.trans he₁)
  have hhangs : (t.reduceBlocks.reduceLeaves.reconcileUsages n).1.hangs = false := by
    rw [hangs, he]
    exact hfinite
  have hbreak := breakInfiniteWaits_of_not_hangs hhangs
    (t.reduceBlocks.reduceLeaves.reconcileUsages n).2
  exact (congrArg (fun result => result.1.evaluate) hbreak).trans he

/-- Round after round keeps the evaluation of a program that does not hang. -/
theorem SettlesTo.evaluate_eq (h : SettlesTo t n r n') (ht : t.Valid) (hn : Unused n [t])
    (hfinite : t.hangs = false) : r.evaluate = t.evaluate := by
  induction h with
  | stop => rfl
  | @again s k next k₁ last k' hround _ _ ih =>
    obtain ⟨hnext, h, -⟩ := round_of_run ht hn hround
    have hsame := evaluate_round ht hn hfinite
    rw [hnext] at hsame
    refine (ih h.valid h.unused ?_).trans hsame
    rw [hangs, hsame]
    exact hfinite

/-- Simplification of a valid program comes to an end without a violation, at a valid program that is
no bigger, whose leaves are among those of the whole one and in their order. If the whole one does not
hang, both evaluate to the same. -/
theorem simplify_sound (t : Statement) (ht : t.validate = .ok ()) (n : Nat) (hn : ∀ i ∈ t.ids, i < n) :
    ∃ r n', t.simplify.run n = (.ok r, n') ∧ SettlesTo t n r n' ∧ r.validate = .ok () ∧
      r.size ≤ t.size ∧ r.idsOfLeaves.Sublist t.idsOfLeaves ∧
      (t.hangs = false → r.evaluate = t.evaluate) := by
  have hvalid := validate_eq_ok_iff.1 ht
  have hunused := unused_of_ids hn
  obtain ⟨r, n', hrun, hsettles, h⟩ := settlesTo_simplify hvalid hunused
  exact ⟨r, n', hrun, hsettles, validate_eq_ok_iff.2 h.valid, h.size, h.leaves,
    hsettles.evaluate_eq hvalid hunused⟩

def idleHandles : Statement :=
  .block 0 .coroutineScope
    [.leaf 1 (.job "a"), .block 2 (.launchJob "b") [.leaf 3 (.print "done")]]

theorem idle_handles_do_not_matter : idleHandles.hangs = false ∧
    ∃ r n', idleHandles.simplify.run 4 = (.ok r, n') ∧ r.validate = .ok () ∧
      r.evaluate = idleHandles.evaluate := by
  have hvalid : idleHandles.validate = .ok () := by cbv
  have hids : ∀ i ∈ idleHandles.ids, i < 4 := by decide
  have hfinite : idleHandles.hangs = false := by cbv
  obtain ⟨r, n', hrun, -, hr, -, -, hsame⟩ := simplify_sound idleHandles hvalid 4 hids
  exact ⟨hfinite, r, n', hrun, hr, hsame hfinite⟩

end RacePuzzle.Statement
