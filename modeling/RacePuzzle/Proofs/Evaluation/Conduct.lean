import RacePuzzle.Proofs.Evaluation.Action
import RacePuzzle.Proofs.Evaluation.Step
import RacePuzzle.Proofs.Machine.Elementary

/-! What the code of programs does to a machine is made of elementary operations. -/
namespace RacePuzzle.Machine.Elementary

open Interpreter

variable {R : ProgramMachine → ProgramMachine → Prop} (h : Elementary R) (m : ProgramMachine)
  {ticket : Ticket}

include h

theorem record (id : StatementId) (mark : Mark) : R m (record id mark m) := h.env m _

theorem print (id : StatementId) (value : String) : R m (print id value m) := by
  unfold Interpreter.print
  split
  · exact h.record m id _
  · exact h.refl m

theorem refer (id : StatementId) (var : String) : R m (refer id var m).2 := h.record m id _

theorem bind (id : StatementId) (var : String) (handle : Referent) : R m (bind id var handle m) :=
  h.trans (h.env m _) (h.record _ id _)

theorem afterWait {frames : List ProgramFrame} {k : ProgramMachine → ProgramReached}
    (hk : ∀ m : ProgramMachine, R m (k m).2) {r : WaitStart × ProgramMachine} (hr : R m r.2) :
    R m (afterWait frames k r).2 := by
  obtain ⟨start, m'⟩ := r
  cases start with
  | through => exact h.trans hr (hk m')
  | refused => exact hr
  | suspended => exact hr

theorem printResult (id : StatementId) (j : JobId) (text : String) : R m (printResult id j text m).2 := by
  unfold Interpreter.printResult
  dsimp only
  split
  · exact h.trans (h.record m id _) (h.print _ id text)
  · exact h.record m id _

theorem performAction (ticket : Ticket) (j : JobId) (id : StatementId) (action : Action) :
    R m (performAction ticket j id action m).2 := by
  have hperforms := performs_performAction ticket j id action m
  generalize Interpreter.performAction ticket j id action m = r at hperforms ⊢
  cases hperforms with
  | delay => exact h.afterWait m h.refl (h.beginDelay ..)
  | print => exact h.print ..
  | throwException => exact h.refl m
  | job => exact h.trans (h.newSignal m) (h.bind _ _ _ _)
  | joinNothing | cancelNothing | completeNothing | awaitNothing => exact h.refer ..
  | join => exact h.afterWait m h.refl (h.trans (h.refer ..) (h.beginJoin ..))
  | cancel => exact h.trans (h.refer ..) (h.cancel ..)
  | cancelBare | completeJob => exact h.trans (h.refer ..) (h.fire _ _)
  | await =>
    exact h.afterWait m (fun m => h.printResult m _ _ _) (h.trans (h.refer ..) (h.beginAwait ..))
  | printText => exact h.trans (h.refer ..) (h.print ..)

theorem closeBody (ticket : Ticket) (j : JobId) (result : Completion) :
    R m (Interpreter.close ticket j result m).2 := by
  have hclose := h.close m ticket j result
  unfold Interpreter.close Reached.afterClose
  split
  · next heq =>
    rw [heq] at hclose
    exact hclose
  · next heq =>
    rw [heq] at hclose
    exact hclose

theorem catchException (id : StatementId) (kind : ExceptionKind) (result : Completion) :
    R m (catchException id kind result m).2 := by
  unfold Interpreter.catchException
  split
  · exact h.refl m
  · split
    · exact h.print ..
    · exact h.refl m

theorem endProgram (result : Completion) : R m (endProgram result m) :=
  h.trans (h.cancel m _) (h.env _ _)

theorem launch (p : JobId) (inner : List Statement) : R m (launch p inner m).2 :=
  h.trans (h.child m p .task) (h.spawn _ _)

theorem enter (j : JobId) (id : StatementId) (head : Head) (inner : List Statement) :
    R m (enter j id head inner m).2 := by
  cases head with
  | launch | scopeLaunch => exact h.launch ..
  | launchJob | async => exact h.trans (h.launch m j inner) (h.bind _ _ _ _)
  | coroutineScope | supervisorScope => exact h.child ..
  | tryCatch => exact h.refl m

theorem code {th th' : Thread} (hs : Thread.Step ticket th th') : R th.machine th'.machine := by
  cases hs with
  | pass | bodyEnd => exact h.refl _
  | @act j id action body outer m result m' hact =>
    have hleaf := h.trans (h.record m id .began) (h.performAction _ ticket j id action)
    rw [hact] at hleaf
    exact hleaf
  | enter => exact h.trans (h.record _ _ .began) (h.enter ..)
  | leave => exact h.record ..
  | @catching id kind outer result m result' m' hcatch =>
    have hcaught := h.catchException m id kind result
    rw [hcatch] at hcaught
    exact hcaught
  | @close j outer result m result' m' hclose =>
    have hclosed := h.closeBody m ticket j result
    rw [hclose] at hclosed
    exact hclosed
  | settle => exact h.settle ..
  | @awaited id j text outer m result' m' hprint =>
    have hprinted := h.printResult m id j text
    rw [hprint] at hprinted
    exact hprinted
  | program => exact h.endProgram ..

theorem suspend {th : Thread} {on : Suspension} {frames : List ProgramFrame} {m' : ProgramMachine}
    (hs : Thread.Suspends ticket th on frames m') : R th.machine m' := by
  cases hs with
  | @act j id action body outer m on inner m' hact =>
    have hleaf := h.trans (h.record m id .began) (h.performAction _ ticket j id action)
    rw [hact] at hleaf
    exact hleaf
  | @close j outer result m on inner m' hclose =>
    have hclosed := h.closeBody m ticket j result
    rw [hclose] at hclosed
    exact hclosed

theorem steps {th th' : Thread} (hs : Thread.Steps ticket th th') : R th.machine th'.machine := by
  induction hs with
  | refl => exact h.refl _
  | tail _ hstep ih => exact h.trans ih (h.code hstep)

theorem reaches {th : Thread} {outer : List ProgramFrame} {r : ProgramReached}
    (hr : Thread.Reaches ticket th outer r) : R th.machine r.2 := by
  obtain ⟨progress, m'⟩ := r
  cases progress with
  | ended result => exact h.steps hr
  | suspended on inner =>
    obtain ⟨last, hlast, hs⟩ := hr
    exact h.trans (h.steps hlast) (h.suspend hs)

end RacePuzzle.Machine.Elementary
