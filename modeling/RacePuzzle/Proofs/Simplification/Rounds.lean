import RacePuzzle.Proofs.Simplification.InfiniteWaits

/-! The rounds of simplification. Every reduction keeps a valid program valid, so that no round finds
a violation; every round that changes a program makes it lighter, so that the rounds come to an
end. -/
namespace RacePuzzle.Statement

variable {n n' : Nat} {t t' r : Statement}

def round (t : Statement) (n : Nat) : Statement × Nat :=
  let (t, n) := t.reduceBlocks.reduceLeaves.reconcileUsages n
  t.breakInfiniteWaits n

theorem runReduction_of_simpler {reduce : Statement → Fresh Statement}
    (h : Simpler n t (reduce t n).1 (reduce t n).2) :
    (t.runReduction reduce).run n = (.ok (reduce t n).1, (reduce t n).2) := by
  have hvalid := validate_eq_ok_iff.2 h.valid
  have hrun : ∀ check : Statement → Checked Statement, (do
      let next ← (reduce t : Fresh Statement)
      check next : Checked Statement).run n = (check (reduce t n).1).run (reduce t n).2 := fun _ => rfl
  rw [runReduction, hrun, hvalid]
  split
  · next he => rw [he]; rfl
  · rfl

theorem run_reductions_cons {reduce : Statement → Fresh Statement}
    (h : Simpler n t (reduce t n).1 (reduce t n).2) (rest : List (Statement → Fresh Statement)) :
    ((reduce :: rest).foldlM runReduction t).run n =
      (rest.foldlM runReduction (reduce t n).1).run (reduce t n).2 := by
  have hbind : ((reduce :: rest).foldlM runReduction t).run n =
      ExceptT.bindCont (fun t => rest.foldlM runReduction t) ((t.runReduction reduce).run n).1
        ((t.runReduction reduce).run n).2 := rfl
  rw [hbind, runReduction_of_simpler h]
  rfl

/-- A round finds no violation, and what it comes to is valid and no bigger. -/
theorem simplifyRound_eq (ht : t.Valid) (hn : Unused n [t]) :
    t.simplifyRound.run n = (.ok (t.round n).1, (t.round n).2) ∧
      Simpler n t (t.round n).1 (t.round n).2 ∧
      (t.Modest → (t.round n).1.hangs = false) := by
  obtain ⟨h₁, -⟩ := simpler_reduceBlocks ht hn
  obtain ⟨h₂, -⟩ := simpler_reduceLeaves h₁.valid h₁.unused
  have h₃ := simpler_reconcileUsages h₂.valid h₂.unused
  obtain ⟨h₄, hfree⟩ := simpler_breakInfiniteWaits h₃.valid h₃.unused
  have h := (h₁.trans h₂).trans h₃
  refine ⟨?_, h.trans h₄, fun hm => hfree (h.modest hm)⟩
  unfold simplifyRound reductions
  exact (run_reductions_cons h₁ _).trans ((run_reductions_cons h₂ _).trans
    ((run_reductions_cons h₃ _).trans (run_reductions_cons h₄ _)))

theorem round_of_run (ht : t.Valid) (hn : Unused n [t]) {next : Statement} {k : Nat}
    (hround : t.simplifyRound.run n = (.ok next, k)) :
    t.round n = (next, k) ∧ Simpler n t next k ∧ (t.Modest → next.hangs = false) := by
  obtain ⟨hround', h⟩ := simplifyRound_eq ht hn
  obtain ⟨he, rfl⟩ := Prod.mk.inj (hround'.symm.trans hround)
  obtain rfl := Except.ok.inj he
  exact ⟨rfl, h⟩

/-- Round after round, from ids `n` on, until one changes nothing: the rounds come to `r`. -/
inductive SettlesTo : Statement → Nat → Statement → Nat → Prop
  | stop {s k k'} : s.simplifyRound.run k = (.ok s, k') → SettlesTo s k s k'
  | again {s k next k₁ last k'} : s.simplifyRound.run k = (.ok next, k₁) → next ≠ s →
      SettlesTo next k₁ last k' → SettlesTo s k last k'

theorem weight_pos (t : Statement) : 0 < t.weight := by
  cases t with
  | leaf i action => exact Nat.lt_of_lt_of_le (one_le_ownWeight (.leaf i action)) (Nat.le_add_right _ _)
  | block i head body => exact Nat.lt_of_lt_of_le (one_le_ownWeight (.block i head body)) (Nat.le_add_right _ _)

/-- One round, and others after it if it changes the program. -/
theorem settlesTo_round (ht : t.Valid) (hn : Unused n [t]) {others : Statement → Checked Statement}
    (hothers : ∀ {next n₁}, Simpler n t next n₁ → next.weight < t.weight →
      ∃ r n', (others next).run n₁ = (.ok r, n') ∧ SettlesTo next n₁ r n' ∧ Simpler n₁ next r n') :
    ∃ r n', (do
      let next ← t.simplifyRound
      if next = t then return t else others next : Checked Statement).run n = (.ok r, n') ∧
        SettlesTo t n r n' ∧ Simpler n t r n' := by
  obtain ⟨hround, h, -⟩ := simplifyRound_eq ht hn
  generalize t.round n = result at hround h
  obtain ⟨next, n₁⟩ := result
  have hbind : (do
      let next ← t.simplifyRound
      if next = t then return t else others next : Checked Statement).run n =
      ExceptT.bindCont (fun next => if next = t then return t else others next)
        (t.simplifyRound.run n).1 (t.simplifyRound.run n).2 := rfl
  rw [hbind, hround]
  by_cases he : next = t
  · subst he
    refine ⟨next, n₁, ?_, .stop hround, h⟩
    simp only [ExceptT.bindCont, if_true]
    rfl
  · obtain ⟨r, n', hrest, hsettles, hr⟩ := hothers h (h.lighter.resolve_left he)
    refine ⟨r, n', ?_, .again hround he hsettles, h.trans hr⟩
    simp only [ExceptT.bindCont, if_neg he]
    exact hrest

/-- The weight of a valid program bounds the rounds. -/
theorem settlesTo_settleRounds (ht : t.Valid) (hn : Unused n [t]) {rounds : Nat}
    (hr : t.weight ≤ rounds) : ∃ r n', (settleRounds rounds t).run n = (.ok r, n') ∧
      SettlesTo t n r n' ∧ Simpler n t r n' := by
  induction rounds generalizing t n with
  | zero => exact absurd (Nat.lt_of_lt_of_le t.weight_pos hr) (Nat.lt_irrefl 0)
  | succ rounds ih =>
    refine settlesTo_round ht hn fun h hlt => ih h.valid h.unused ?_
    exact Nat.le_of_lt_succ (Nat.lt_of_lt_of_le hlt hr)

theorem settlesTo_simplify (ht : t.Valid) (hn : Unused n [t]) :
    ∃ r n', t.simplify.run n = (.ok r, n') ∧ SettlesTo t n r n' ∧ Simpler n t r n' :=
  settlesTo_round ht hn fun h _ => settlesTo_settleRounds h.valid h.unused (Nat.le_refl _)

theorem SettlesTo.not_hangs (h : SettlesTo t n r n') (ht : t.Valid) (hn : Unused n [t])
    (hm : t.Modest) : r.hangs = false := by
  induction h with
  | stop hround => exact (round_of_run ht hn hround).2.2 hm
  | again hround _ _ ih =>
    obtain ⟨-, h, -⟩ := round_of_run ht hn hround
    exact ih h.valid h.unused (h.modest hm)

theorem SettlesTo.eq_of_round (h : SettlesTo t n r n') (ht : t.Valid) (hn : Unused n [t])
    {k : Nat} (hround : t.round n = (t, k)) : r = t := by
  cases h with
  | stop => rfl
  | again hrun hne =>
    obtain ⟨hround', -⟩ := round_of_run ht hn hrun
    exact absurd (Prod.mk.inj (hround'.symm.trans hround)).1 hne

theorem SettlesTo.next {next : Statement} {k : Nat} (h : SettlesTo t n r n') (ht : t.Valid)
    (hn : Unused n [t]) (hround : t.round n = (next, k)) (hne : next ≠ t) :
    SettlesTo next k r n' := by
  cases h with
  | stop hrun =>
    obtain ⟨hround', -⟩ := round_of_run ht hn hrun
    exact absurd (Prod.mk.inj (hround.symm.trans hround')).1 hne
  | again hrun _ hrest =>
    obtain ⟨hround', -⟩ := round_of_run ht hn hrun
    obtain ⟨rfl, rfl⟩ := Prod.mk.inj (hround'.symm.trans hround)
    exact hrest

/-- A program that a round leaves as it is is its own simplification. -/
theorem simplify_of_round (ht : t.Valid) (hn : Unused n [t]) (hround : t.round n = (t, n)) :
    t.simplify.run n = (.ok t, n) := by
  obtain ⟨hrun, -⟩ := simplifyRound_eq ht hn
  have hbind : t.simplify.run n = ExceptT.bindCont (fun next => if next = t then return t
      else settleRounds next.weight next) (t.simplifyRound.run n).1 (t.simplifyRound.run n).2 := rfl
  rw [hbind, hrun, hround]
  simp only [ExceptT.bindCont, if_true]
  rfl

theorem unused_of_ids (h : ∀ i ∈ t.ids, i < n) : Unused n [t] := by
  simpa [Unused, bodyNodes, ids] using h

theorem simpler_of_simplify {r : Statement} (ht : t.Valid) (hids : ∀ i ∈ t.ids, i < n)
    (hrun : (t.simplify.run n).1 = .ok r) : ∃ n', Simpler n t r n' := by
  obtain ⟨r', n', hsimplify, -, hsimpler⟩ := settlesTo_simplify ht (unused_of_ids hids)
  rw [hsimplify] at hrun
  exact ⟨n', Except.ok.inj hrun ▸ hsimpler⟩

/-- In a program whose delays are not too long and which is not too large, no infinite wait is left
when its bare jobs have gone: the joins never have to go, and the simplified program does not hang. -/
theorem infinite_waits_are_broken (t : Statement) (ht : t.validate = .ok ()) (n : Nat)
    (hn : ∀ i ∈ t.ids, i < n) (hdelays : t.delays.sum ≤ patience)
    (htimers : t.delays.length ≤ 200000) (hsize : 2 * t.size + 1 ≤ 1000000) :
    (t.breakInfiniteWaits n).1.hangs = false ∧
    (∀ n', t.hangs = true → t.withoutOneOf t.bareJobs n = (none, n') →
      (t.eraseHandles t.bareJobs n').1.hangs = false) ∧
    ∃ r n', t.simplify.run n = (.ok r, n') ∧ r.hangs = false := by
  have hvalid := validate_eq_ok_iff.1 ht
  have hunused := unused_of_ids hn
  have hm : t.Modest := ⟨hdelays, htimers, hsize⟩
  refine ⟨(simpler_breakInfiniteWaits hvalid hunused).2 hm, fun n' _ hnone => ?_, ?_⟩
  · rcases withoutOneOf_cases hvalid hunused t.bareJobs with ⟨_, _, hsome, -⟩ | ⟨_, hnone', hle⟩
    · cases hsome.symm.trans hnone
    · cases hnone'.symm.trans hnone
      exact withoutBareJobs_of_modest hvalid (hunused.mono hle) hm
  · obtain ⟨r, n', hrun, hsettles, -⟩ := settlesTo_simplify hvalid hunused
    exact ⟨r, n', hrun, hsettles.not_hangs hvalid hunused hm⟩

/-- Nobody completes the job for which a print has to wait. -/
def heldUpPrint : Statement :=
  .block 0 .coroutineScope
    [.leaf 1 (.job "a"), .leaf 2 (.join "a"), .leaf 3 (.print "late")]

theorem held_up_print_is_freed : heldUpPrint.hangs = true ∧
    (heldUpPrint.breakInfiniteWaits 4).1.hangs = false := by
  have hvalid : heldUpPrint.validate = .ok () := by cbv
  have hids : ∀ i ∈ heldUpPrint.ids, i < 4 := by decide
  exact ⟨by cbv, (infinite_waits_are_broken heldUpPrint hvalid 4 hids (by decide) (by decide)
    (by decide)).1⟩

end RacePuzzle.Statement
