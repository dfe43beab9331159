import RacePuzzle.Proofs.Evaluation.Stamps
import RacePuzzle.Proofs.Machine.Sparing

/-! Every step of a run keeps the waits for a time as they are, unless it moves the clock on. -/
namespace RacePuzzle

open Interpreter Machine

variable {t : Statement} {L : Ledger} {m m' : ProgramMachine} {s s' : Snapshot} {ticket : Ticket}
  {frames frames' : List ProgramFrame} {result result' : Completion}

theorem spares_record (id : StatementId) (mark : Mark) (m : ProgramMachine) :
    Spares m (record id mark m) :=
  .ofTimetable rfl rfl

theorem spares_print (id : StatementId) (value : String) (m : ProgramMachine) :
    Spares m (print id value m) := by
  unfold print
  split
  · exact spares_record id _ m
  · exact .refl m

theorem spares_printResult (id : StatementId) (j : JobId) (text : String) (m : ProgramMachine) :
    Spares m (printResult id j text m).2 := by
  unfold printResult
  dsimp only
  split
  · exact (spares_record id (.awaited _) m).trans (spares_print ..)
  · exact spares_record id (.awaited _) m

theorem spares_catchException (id : StatementId) (kind : ExceptionKind) (result : Completion)
    (m : ProgramMachine) : Spares m (catchException id kind result m).2 := by
  unfold catchException
  split
  · exact .refl m
  · split
    · exact spares_print ..
    · exact .refl m

theorem spares_afterWait {frames : List ProgramFrame} {k : ProgramMachine → ProgramReached}
    {r : WaitStart × ProgramMachine} (hr : Spares m r.2) (hk : ∀ m, Spares m (k m).2) :
    Spares m (afterWait frames k r).2 := by
  obtain ⟨start, m'⟩ := r
  cases start with
  | through => exact hr.trans (hk m')
  | refused why => exact hr
  | suspended on => exact hr

theorem spares_performAction (hm : m.Orderly) (ticket : Ticket) (j : JobId) (id : StatementId)
    (action : Action) : Spares m (performAction ticket j id action m).2 := by
  have hrefer : ∀ var, Spares m (refer id var m).2 := fun var => spares_record id (.referred _) m
  have hperforms := performs_performAction ticket j id action m
  generalize performAction ticket j id action m = r at hperforms ⊢
  cases hperforms with
  | delay => exact spares_afterWait (spares_beginDelay hm ..) .refl
  | print => exact spares_print id _ m
  | throwException => exact .refl m
  | job => exact (spares_newSignal m).trans (.ofTimetable rfl rfl)
  | joinNothing _ | cancelNothing _ | completeNothing _ | awaitNothing _ _ => exact hrefer _
  | join _ _ => exact (hrefer _).trans (spares_afterWait (spares_beginJoin ..) .refl)
  | cancel _ _ => exact (hrefer _).trans (spares_cancel ..)
  | cancelBare _ | completeJob _ => exact (hrefer _).trans (spares_fire ..)
  | await _ _ =>
    exact (hrefer _).trans (spares_afterWait (spares_beginAwait ..) fun m => spares_printResult ..)
  | printText _ => exact (hrefer _).trans (spares_print ..)

theorem spares_launch (parent : JobId) (inner : List Statement) (m : ProgramMachine) :
    Spares m (launch parent inner m).2 :=
  (spares_child m parent .task).trans (.ofTimetable rfl rfl)

theorem spares_enter (j : JobId) (id : StatementId) (head : Head) (inner : List Statement)
    (m : ProgramMachine) : Spares m (enter j id head inner m).2 := by
  cases head with
  | launch | scopeLaunch => exact spares_launch _ inner m
  | launchJob _ | async _ _ => exact (spares_launch j inner m).trans (.ofTimetable rfl rfl)
  | coroutineScope | supervisorScope => exact spares_child ..
  | tryCatch kind => exact .refl m

namespace Snapshot

theorem spares_close (ticket : Ticket) (j : JobId) (result : Completion) (m : ProgramMachine) :
    Spares m (Interpreter.close ticket j result m).2 := by
  have h := Machine.spares_close m ticket j result
  unfold Interpreter.close Reached.afterClose
  split
  · next he =>
    rw [he] at h
    exact h
  · next he =>
    rw [he] at h
    exact h

theorem spares_leaf (hm : m.Orderly) (ticket : Ticket) (j : JobId) (id : StatementId)
    (action : Action) : Spares m (performAction ticket j id action (record id .began m)).2 :=
  (spares_record id .began m).trans (spares_performAction (hm.updateEnv _) ticket j id action)

theorem spares_endProgram (result : Completion) (m : ProgramMachine) :
    Spares m (endProgram result m) :=
  (spares_cancel m m.env.background).trans (.ofTimetable rfl rfl)

theorem spares_code (hm : m.Orderly)
    (hs : Thread.Step ticket ⟨frames, result, m⟩ ⟨frames', result', m'⟩) : Spares m m' := by
  cases hs with
  | pass _ | bodyEnd => exact .refl m
  | @act j id action _ _ _ _ _ he =>
    have h := spares_leaf hm ticket j id action
    rwa [he] at h
  | enter => exact (spares_record _ .began m).trans (spares_enter ..)
  | leave => exact spares_record _ .ended m
  | @catching id kind _ _ _ _ _ he =>
    have h := spares_catchException id kind result m
    rwa [he] at h
  | @close j _ _ _ _ _ he =>
    have h := spares_close ticket j result m
    rwa [he] at h
  | @settle j => exact spares_settle m j
  | @awaited id j text _ _ _ _ he =>
    have h := spares_printResult id j text m
    rwa [he] at h
  | program => exact spares_endProgram result m

theorem spares_suspend (hm : m.Orderly) {on : Suspension}
    (hs : Thread.Suspends ticket ⟨frames, result, m⟩ on frames' m') : Spares m m' := by
  cases hs with
  | @act j id action _ _ _ _ _ _ he =>
    have h := spares_leaf hm ticket j id action
    rwa [he] at h
  | @close j _ _ _ _ _ _ he =>
    have h := spares_close ticket j result m
    rwa [he] at h

/-- Every step keeps the waits for a time, unless it moves the clock on. -/
theorem spares_step (h : s.Upheld t L) (hs : Step s s') :
    Spares s.machine s'.machine ∨ Ticks s s' := by
  have hm := h.sound.orderly
  cases hs with
  | skip hr hout => exact .inl (.ofTimetable rfl rfl)
  | sleepOn hr hout hres =>
    obtain ⟨rfl, -⟩ := h.resumption_none hr hout hres
    exact .inl (.ofTimetable rfl rfl)
  | @goOn m id rest d ticket task result m' hr hout hres =>
    have hdispatch : Spares m { m with dispatcher := d } := .ofTimetable rfl rfl
    exact .inl (hdispatch.trans (spares_resumption hres))
  | code hs => exact .inl (spares_code hm hs)
  | suspend hs => exact .inl ((spares_suspend hm hs).trans (.ofTimetable rfl rfl))
  | finish => exact .inl (.ofTimetable rfl rfl)
  | @tick _ time hr hnext => exact .inr ⟨rfl, hr, ⟨time, hnext⟩, rfl, rfl⟩

end Snapshot

end RacePuzzle
