import RacePuzzle.Proofs.Machine.Suspension
import Mathlib.Logic.Relation

/-! All that can be done to a machine, in whatever order. Whoever holds a job may give it children,
cancel it, fail it, end it and let tasks wait in it, while signals fire and the clock moves on. However
this goes on, cancellation has reached all that it has to reach. -/
namespace RacePuzzle.Machine

variable {ε τ : Type} {m m' : Machine ε τ}

/-- What is done to a machine in one go. A task is launched by the creation of a child, which its task
holds as well, and a change of the dispatcher; a job is completed by a `close`, and by a `settle` if it has
had to wait for its children. -/
inductive Operation (m : Machine ε τ) : Machine ε τ → Prop
  | root (kind : JobRole) : Operation m (m.root kind).2
  /-- Whoever makes a child holds the parent. -/
  | child {p : JobId} (kind : JobRole) : m.isHeld p = true → Operation m (m.child p kind).2
  | hold (j : JobId) : Operation m (m.hold j)
  | release (j : JobId) : Operation m (m.release j)
  | cancel (j : JobId) : Operation m (m.cancel j)
  | fail (j : JobId) (kind : ExceptionKind) : Operation m (m.fail j kind)
  | close (ticket : Ticket) (j : JobId) (result : Completion) :
      Operation m (m.close ticket j result).2
  | awaitChildren (ticket : Ticket) (j : JobId) : Operation m (m.awaitChildren ticket j).2
  | settle (j : JobId) : Operation m (m.settle j).2
  | beginDelay (ticket : Ticket) (j : JobId) (duration : Nat) :
      Operation m (m.beginDelay ticket j duration).2
  | beginJoin (ticket : Ticket) (j : JobId) (s : SignalId) : Operation m (m.beginJoin ticket j s).2
  | beginAwait (ticket : Ticket) (j : JobId) (s : SignalId) : Operation m (m.beginAwait ticket j s).2
  /-- A suspended task is polled. -/
  | resumption (ticket : Ticket) (on : Suspension) : Operation m (m.resumption ticket on).2
  | newSignal : Operation m m.newSignal.2
  | fire (s : SignalId) : Operation m (m.fire s)
  | advance : Operation m m.advance.2
  /-- Tasks start, end and are woken, timers are set, and the environment changes. -/
  | schedule (timetable : Timetable) (dispatcher : Dispatcher τ) (env : ε) :
      Operation m { m with timetable := timetable, dispatcher := dispatcher, env := env }

abbrev Operations : Machine ε τ → Machine ε τ → Prop := Relation.ReflTransGen Operation

/-- The machines to which operations can bring one that is new. -/
def Reachable (m : Machine ε τ) : Prop := ∃ env, Operations (.start env) m

theorem Cancelled.beginSignalWait (h : Cancelled [] m) {j : JobId} (hj : m.isCancelled j = false)
    (ticket : Ticket) (s : SignalId) : Cancelled [] (m.beginSignalWait ticket j s).2 :=
  (h.withWait hj ticket (.signal m.timetable.waits.size)).congr fun _ => rfl

theorem Cancelled.beginDelay (h : Cancelled [] m) (ticket : Ticket) (j : JobId) (duration : Nat) :
    Cancelled [] (m.beginDelay ticket j duration).2 := by
  unfold Machine.beginDelay
  split
  · exact h.congr fun _ => rfl
  · next hj => exact (h.withWait (Bool.eq_false_iff.2 hj) ticket .timer).congr fun _ => rfl

theorem Cancelled.beginJoin (h : Cancelled [] m) (ticket : Ticket) (j : JobId) (s : SignalId) :
    Cancelled [] (m.beginJoin ticket j s).2 := by
  unfold Machine.beginJoin
  split
  · exact h
  · next hj =>
    split
    · exact h
    · exact h.beginSignalWait (Bool.eq_false_iff.2 hj) ticket s

theorem Cancelled.beginAwait (h : Cancelled [] m) (ticket : Ticket) (j : JobId) (s : SignalId) :
    Cancelled [] (m.beginAwait ticket j s).2 := by
  unfold Machine.beginAwait
  split
  · exact h
  · exact h.beginJoin ticket j s

theorem Cancelled.resumption (h : Cancelled [] m) (ticket : Ticket) (on : Suspension) :
    Cancelled [] (m.resumption ticket on).2 := by
  cases on with
  | entry j => exact h
  | wait j waiter w =>
    unfold Machine.resumption
    dsimp only
    split
    · exact h
    · exact h.updateJob fun job _ => trimmed_forget job waiter
    · exact h.congr fun _ => rfl
  | children j => exact h.awaitChildren ticket j
  | turn => exact h

/-- Nothing that is done to a machine leaves a cancellation owed. -/
theorem Operation.cancelled (h : Operation m m') (hc : Cancelled [] m) : Cancelled [] m' := by
  cases h with
  | root kind => exact hc.root_new kind
  | child kind hheld =>
    obtain ⟨pj, hp, -⟩ := exists_of_isHeld hheld
    exact hc.child_new hp kind
  | hold j =>
    refine hc.updateJob fun job _ => ?_
    split
    · next hheld => exact ⟨rfl, rfl, fun _ hc => hc, fun _ h => h, fun _ => hheld⟩
    · exact .refl job
  | release j =>
    refine hc.updateJob fun job _ => ⟨rfl, rfl, fun _ hc => hc, fun _ h => h, fun hheld => ?_⟩
    simp only [Job.isHeld, decide_eq_true_eq] at hheld ⊢
    omega
  | cancel j => exact hc.cancel j
  | fail j kind => exact hc.fail j kind
  | close ticket j result => exact hc.close ticket j result
  | awaitChildren ticket j => exact hc.awaitChildren ticket j
  | settle j => exact hc.settle j
  | beginDelay ticket j duration => exact hc.beginDelay ticket j duration
  | beginJoin ticket j s => exact hc.beginJoin ticket j s
  | beginAwait ticket j s => exact hc.beginAwait ticket j s
  | resumption ticket on => exact hc.resumption ticket on
  | newSignal => exact hc.congr fun _ => rfl
  | fire s => exact hc.fire s
  | advance => exact hc.congr fun _ => rfl
  | schedule timetable dispatcher env => exact hc.congr fun _ => rfl

theorem Reachable.cancelled (h : Reachable m) : Cancelled [] m := by
  obtain ⟨env, h⟩ := h
  induction h with
  | refl => exact ⟨nofun, nofun, nofun, nofun⟩
  | tail _ hop ih => exact hop.cancelled ih

end RacePuzzle.Machine
