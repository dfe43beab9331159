import RacePuzzle.Proofs.Machine.Suspension

/-! Operations taken apart. All that is done to a machine is made of a few elementary operations, so that a
relation which holds across each of these holds across everything that is done. -/
namespace RacePuzzle.Machine

variable {ε τ : Type}

/-- The relation holds between a machine and what an elementary operation makes of it. -/
structure Elementary (R : Machine ε τ → Machine ε τ → Prop) : Prop where
  refl : ∀ m, R m m
  trans : ∀ {m m' m''}, R m m' → R m' m'' → R m m''
  env : ∀ m env, R m { m with env := env }
  jobs : ∀ m jobs, R m { m with jobs := jobs }
  newSignal : ∀ m : Machine ε τ, R m m.newSignal.2
  spawn : ∀ m task, R m (m.spawn task)
  wakeAll : ∀ m tickets, R m (m.wakeAll tickets)
  interrupt : ∀ m wait, R m (m.interrupt wait)
  fire : ∀ m s, R m (m.fire s)
  beginDelay : ∀ (m : Machine ε τ) ticket j duration, R m (m.beginDelay ticket j duration).2
  beginSignalWait : ∀ (m : Machine ε τ) ticket j s, R m (m.beginSignalWait ticket j s).2

namespace Elementary

variable {R : Machine ε τ → Machine ε τ → Prop} (h : Elementary R) (m : Machine ε τ)

include h

theorem child (p : JobId) (kind : JobRole) : R m (m.child p kind).2 :=
  h.trans (h.newSignal m) (h.jobs _ _)

theorem interruptAll (waits : List (Nat × OpenWait)) : R m (m.interruptAll waits) := by
  induction waits generalizing m with
  | nil => exact h.refl m
  | cons wait rest ih => exact h.trans (h.interrupt m wait) (ih _)

theorem cancelOne (j : JobId) (job : Job) : R m (m.cancelOne j job) :=
  h.trans (h.jobs m _) (h.interruptAll _ job.pending)

theorem cancel (j : JobId) : R m (m.cancel j) :=
  cancelAll_induction h.refl h.trans (fun _ _ => h.cancelOne ..) m [j]

theorem fail (j : JobId) (kind : ExceptionKind) : R m (m.fail j kind) :=
  fail_induction h.refl h.trans (fun _ _ => h.cancelOne ..) (fun _ _ _ => h.jobs _ _) m j kind

theorem conclude (j : JobId) (result : Completion) : R m (m.conclude j result) := by
  unfold Machine.conclude
  split
  · exact h.refl m
  · exact h.cancel ..
  · exact h.fail ..

theorem unlink (p c : JobId) : R m (m.unlink p c) := by
  unfold Machine.unlink
  split
  · exact h.refl m
  · dsimp only
    split
    · exact h.trans (h.jobs m _) (h.wakeAll _ _)
    · exact h.jobs m _

theorem passOnFailure (job : Job) : R m (m.passOnFailure job) := by
  unfold Machine.passOnFailure
  split
  · split
    · exact h.refl m
    · exact h.fail ..
  · exact h.refl m

theorem settle (j : JobId) : R m (m.settle j).2 := by
  cases hj : m.job? j with
  | none =>
    rw [Machine.settle, hj]
    exact h.refl m
  | some job =>
    rw [settle_eq hj]
    refine h.trans ?_ (h.jobs _ _)
    have hfired (f : Job → Job) : R m (((m.updateJob j f).passOnFailure job).fire job.completion) :=
      h.trans (h.trans (h.jobs m _) (h.passOnFailure _ job)) (h.fire _ _)
    cases job.parent with
    | none => exact hfired _
    | some p => exact h.trans (hfired _) (h.unlink _ p j)

theorem close (ticket : Ticket) (j : JobId) (result : Completion) : R m (m.close ticket j result).2 := by
  have hconcluded : R m ((m.conclude j result).awaitChildren ticket j).2 :=
    h.trans (h.conclude m j result) (h.jobs _ _)
  unfold Machine.close
  dsimp only
  split
  · exact h.trans hconcluded (h.settle _ j)
  · exact hconcluded

theorem beginJoin (ticket : Ticket) (j : JobId) (s : SignalId) : R m (m.beginJoin ticket j s).2 := by
  unfold Machine.beginJoin
  split
  · exact h.refl m
  · split
    · exact h.refl m
    · exact h.beginSignalWait ..

theorem beginAwait (ticket : Ticket) (j : JobId) (s : SignalId) : R m (m.beginAwait ticket j s).2 := by
  unfold Machine.beginAwait
  split
  · exact h.refl m
  · exact h.beginJoin ..

end Elementary

end RacePuzzle.Machine
