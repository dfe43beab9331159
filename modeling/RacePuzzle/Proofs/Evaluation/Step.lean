import RacePuzzle.Evaluation.Evaluate
import Mathlib.Logic.Relation

/-! A run in small steps. A thread is a task while it is polled: its frames, the result that the
innermost one gets, and the machine. Running code to its end or to its next suspension is a
sequence of steps of the thread, each of which begins or ends one statement or one job. -/
namespace RacePuzzle

open Interpreter

structure Thread where
  frames : List ProgramFrame
  result : Completion
  machine : ProgramMachine

def ProgramFrame.passesErrors : ProgramFrame → Bool
  | .rest .. | .leave _ | .awaited .. => true
  | _ => false

namespace Interpreter

/-- What the beginning of a block leaves to run in the same task, and the machine after it. -/
def enter (job : JobId) (id : StatementId) (head : Head) (body : List Statement)
    (m : ProgramMachine) : List ProgramFrame × ProgramMachine :=
  match head with
  | .launch => ([], (launch job body m).2)
  | .scopeLaunch => ([], (launch m.env.background body m).2)
  | .launchJob var =>
    let (target, m) := launch job body m
    ([], bind id var (.task target) m)
  | .async var result =>
    let (target, m) := launch job body m
    ([], bind id var (.deferred target result) m)
  | .coroutineScope =>
    let (scope, m) := m.child job .scope
    ([.rest scope body, .close scope], m)
  | .supervisorScope =>
    let (scope, m) := m.child job .supervisor
    ([.rest scope body, .close scope], m)
  | .tryCatch kind => ([.rest job body, .catching id kind], m)

end Interpreter

namespace Thread

inductive Step (ticket : Ticket) : Thread → Thread → Prop
  | pass {frame outer kind m} : frame.passesErrors → 
      Step ticket ⟨frame :: outer, .error kind, m⟩ ⟨outer, .error kind, m⟩
  | bodyEnd {job outer m} : Step ticket ⟨.rest job [] :: outer, .ok (), m⟩ ⟨outer, .ok (), m⟩
  | act {job id action body outer m result m'} :
      performAction ticket job id action (record id .began m) = (.ended result, m') →
      Step ticket ⟨.rest job (.leaf id action :: body) :: outer, .ok (), m⟩
        ⟨.leave id :: .rest job body :: outer, result, m'⟩
  | enter {job id head inner body outer m} :
      Step ticket ⟨.rest job (.block id head inner :: body) :: outer, .ok (), m⟩
        ⟨(enter job id head inner (record id .began m)).1 ++ .leave id :: .rest job body :: outer,
          .ok (), (enter job id head inner (record id .began m)).2⟩
  | leave {id outer m} :
      Step ticket ⟨.leave id :: outer, .ok (), m⟩ ⟨outer, .ok (), record id .ended m⟩
  | catching {id kind outer result m result' m'} :
      catchException id kind result m = (.ended result', m') →
      Step ticket ⟨.catching id kind :: outer, result, m⟩ ⟨outer, result', m'⟩
  | close {job outer result m result' m'} :
      Interpreter.close ticket job result m = (.ended result', m') →
      Step ticket ⟨.close job :: outer, result, m⟩ ⟨outer, result', m'⟩
  | settle {job outer result m} :
      Step ticket ⟨.settle job :: outer, result, m⟩
        ⟨outer, (m.settle job).1.completion, (m.settle job).2⟩
  | awaited {id job text outer m result' m'} :
      printResult id job text m = (.ended result', m') →
      Step ticket ⟨.awaited id job text :: outer, .ok (), m⟩ ⟨outer, result', m'⟩
  | program {outer result m} :
      Step ticket ⟨.program :: outer, result, m⟩ ⟨outer, result, endProgram result m⟩

inductive Suspends (ticket : Ticket) :
    Thread → Suspension → List ProgramFrame → ProgramMachine → Prop
  | act {job id action body outer m on inner m'} :
      performAction ticket job id action (record id .began m) = (.suspended on inner, m') →
      Suspends ticket ⟨.rest job (.leaf id action :: body) :: outer, .ok (), m⟩ on
        (inner ++ .leave id :: .rest job body :: outer) m'
  | close {job outer result m on inner m'} :
      Interpreter.close ticket job result m = (.suspended on inner, m') →
      Suspends ticket ⟨.close job :: outer, result, m⟩ on (inner ++ outer) m'

abbrev Steps (ticket : Ticket) : Thread → Thread → Prop := Relation.ReflTransGen (Step ticket)

/-- The thread comes to what is left of it when code inside `outer` got as far as `r`. -/
def Reaches (ticket : Ticket) (th : Thread) (outer : List ProgramFrame) (r : ProgramReached) :
    Prop :=
  match r with
  | (.ended result, m) => Steps ticket th ⟨outer, result, m⟩
  | (.suspended on inner, m) =>
    ∃ last, Steps ticket th last ∧ Suspends ticket last on (inner ++ outer) m

theorem Reaches.after {ticket : Ticket} {th th' : Thread} {outer : List ProgramFrame}
    {r : ProgramReached} (h : Steps ticket th th') (hr : Reaches ticket th' outer r) :
    Reaches ticket th outer r := by
  obtain ⟨p, m⟩ := r
  cases p with
  | ended result => exact h.trans hr
  | suspended on inner =>
    obtain ⟨last, hlast, hs⟩ := hr
    exact ⟨last, h.trans hlast, hs⟩

/-- Code in `frame` inside `outer`, whose result the continuation `k` of `frame` gets. -/
theorem Reaches.andThen {ticket : Ticket} {th : Thread} {frame : ProgramFrame}
    {outer : List ProgramFrame} {k : Completion → ProgramMachine → ProgramReached}
    {r : ProgramReached} (hr : Reaches ticket th (frame :: outer) r)
    (hk : ∀ result m, Reaches ticket ⟨frame :: outer, result, m⟩ outer (k result m)) :
    Reaches ticket th outer (Reached.andThen frame k r) := by
  obtain ⟨p, m⟩ := r
  cases p with
  | ended result => exact (hk result m).after hr
  | suspended on inner =>
    obtain ⟨last, hlast, hs⟩ := hr
    refine ⟨last, hlast, ?_⟩
    simpa only [List.append_assoc, List.singleton_append] using hs

theorem Reaches.pass {ticket : Ticket} {frame : ProgramFrame} (h : frame.passesErrors)
    {outer : List ProgramFrame} {kind : ExceptionKind} {m : ProgramMachine} :
    Reaches ticket ⟨frame :: outer, .error kind, m⟩ outer (.ended (.error kind), m) :=
  .single (.pass h)

theorem reaches_close (ticket : Ticket) (job : JobId) (outer : List ProgramFrame)
    (result : Completion) (m : ProgramMachine) :
    Reaches ticket ⟨.close job :: outer, result, m⟩ outer
      (Interpreter.close ticket job result m) := by
  match h : Interpreter.close ticket job result m with
  | (.ended result', m') => exact .single (.close h)
  | (.suspended on inner, m') => exact ⟨_, .refl, .close h⟩

theorem reaches_catchException (ticket : Ticket) (id : StatementId) (kind : ExceptionKind)
    (outer : List ProgramFrame) (result : Completion) (m : ProgramMachine) :
    Reaches ticket ⟨.catching id kind :: outer, result, m⟩ outer
      (catchException id kind result m) := by
  match h : catchException id kind result m with
  | (.ended result', m') => exact .single (.catching h)
  | (.suspended on inner, m') =>
    exfalso
    unfold catchException at h
    split at h
    · simp [Reached.done] at h
    · split at h <;> simp [Reached.done] at h

theorem reaches_printResult (ticket : Ticket) (id : StatementId) (job : JobId) (text : String)
    (outer : List ProgramFrame) (m : ProgramMachine) :
    Reaches ticket ⟨.awaited id job text :: outer, .ok (), m⟩ outer (printResult id job text m) := by
  match h : printResult id job text m with
  | (.ended result', m') => exact .single (.awaited h)
  | (.suspended on inner, m') =>
    exfalso
    unfold printResult at h
    dsimp only at h
    split at h <;> simp [Reached.done] at h

/-- What a statement of a body leads to, given what the rest of the body leads to. -/
theorem reaches_performBody_cons {ticket : Ticket} {job : JobId} {s : Statement}
    {rest : List Statement} {outer : List ProgramFrame} {th : Thread} {m : ProgramMachine}
    (hs : Reaches ticket th (.leave s.id :: .rest job rest :: outer)
      (perform ticket job s (record s.id .began m)))
    (hrest : ∀ m, Reaches ticket ⟨.rest job rest :: outer, .ok (), m⟩ outer
      (performBody ticket job rest m)) :
    Reaches ticket th outer (performBody ticket job (s :: rest) m) := by
  unfold performBody
  split
  · next m' heq =>
    rw [heq] at hs
    exact ((hrest _).after (.single .leave)).after hs
  · next kind m' heq =>
    rw [heq] at hs
    exact ((Reaches.pass rfl).after (.single (.pass rfl))).after hs
  · next on frames m' heq =>
    rw [heq] at hs
    obtain ⟨last, hlast, hsus⟩ := hs
    refine ⟨last, hlast, ?_⟩
    simpa only [List.append_assoc, List.cons_append, List.nil_append] using hsus

mutual
/-- The thread that begins a statement comes to where the statement leads. -/
theorem reaches_perform (ticket : Ticket) (job : JobId) :
    (s : Statement) → (rest : List Statement) → (outer : List ProgramFrame) →
      (m : ProgramMachine) →
      Reaches ticket ⟨.rest job (s :: rest) :: outer, .ok (), m⟩
        (.leave s.id :: .rest job rest :: outer) (perform ticket job s (record s.id .began m))
  | .leaf id action, rest, outer, m => by
    simp only [perform, Statement.id]
    match h : performAction ticket job id action (record id .began m) with
    | (.ended result, m') => exact .single (.act h)
    | (.suspended on inner, m') => exact ⟨_, .refl, .act h⟩
  | .block id head body, rest, outer, m => by
    have henter := @Step.enter ticket job id head body rest outer m
    cases head with
    | launch => exact .single henter
    | scopeLaunch => exact .single henter
    | launchJob var => exact .single henter
    | async var result => exact .single henter
    | coroutineScope =>
      exact ((reaches_performBody ticket _ body _ _).andThen
        fun result m => reaches_close ticket _ _ result m).after (.single henter)
    | supervisorScope =>
      exact ((reaches_performBody ticket _ body _ _).andThen
        fun result m => reaches_close ticket _ _ result m).after (.single henter)
    | tryCatch kind =>
      exact ((reaches_performBody ticket _ body _ _).andThen
        fun result m => reaches_catchException ticket _ _ _ result m).after (.single henter)
theorem reaches_performBody (ticket : Ticket) (job : JobId) :
    (body : List Statement) → (outer : List ProgramFrame) → (m : ProgramMachine) →
      Reaches ticket ⟨.rest job body :: outer, .ok (), m⟩ outer (performBody ticket job body m)
  | [], outer, m => by
    simp only [performBody]
    exact .single .bodyEnd
  | s :: rest, outer, m =>
    reaches_performBody_cons (reaches_perform ticket job s rest outer m)
      fun m => reaches_performBody ticket job rest outer m
end

theorem reaches_resume (ticket : Ticket) (frame : ProgramFrame) (outer : List ProgramFrame)
    (result : Completion) (m : ProgramMachine) :
    Reaches ticket ⟨frame :: outer, result, m⟩ outer (resume ticket frame result m) := by
  cases frame with
  | rest job body =>
    cases result with
    | ok _ => exact reaches_performBody ticket job body outer m
    | error kind => exact .pass rfl
  | leave id =>
    cases result with
    | ok _ => exact .single .leave
    | error kind => exact .pass rfl
  | catching id kind => exact reaches_catchException ticket id kind outer result m
  | close job => exact reaches_close ticket job outer result m
  | settle job => exact .single .settle
  | awaited id job text =>
    cases result with
    | ok _ => exact reaches_printResult ticket id job text outer m
    | error kind => exact .pass rfl
  | program => exact .single .program

theorem reaches_unwind (ticket : Ticket) (frames : List ProgramFrame) (result : Completion)
    (m : ProgramMachine) :
    Reaches ticket ⟨frames, result, m⟩ [] (FrameCode.unwind ticket frames result m) := by
  induction frames generalizing result m with
  | nil => exact .refl
  | cons frame outer ih =>
    have hframe := reaches_resume ticket frame outer result m
    unfold FrameCode.unwind
    split
    · next result' m' heq =>
      rw [show resume ticket frame result m = _ from heq] at hframe
      exact (ih result' m').after hframe
    · next on inner m' heq =>
      rw [show resume ticket frame result m = _ from heq] at hframe
      simpa only [Reaches, List.append_nil] using hframe

end Thread

end RacePuzzle
