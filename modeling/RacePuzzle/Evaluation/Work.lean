import RacePuzzle.Evaluation.Interpreter

/-! The work in a program: how often its code can be suspended. Running code never makes more
work than was left in it, so the tasks of a program stop. -/
namespace RacePuzzle

def Action.work : Action → Nat
  | .delay _ | .join _ | .printAwait _ _ => 1
  | _ => 0

/-- A task is suspended before it begins and at its end, a scope at its end. -/
def Head.work : Head → Nat
  | .launch | .scopeLaunch | .launchJob _ | .async _ _ => 2
  | .coroutineScope | .supervisorScope => 1
  | .tryCatch _ => 0

namespace Statement

mutual
def work : Statement → Nat
  | .leaf _ action => action.work
  | .block _ head body => head.work + bodyWork body
def bodyWork : List Statement → Nat
  | [] => 0
  | s :: rest => s.work + bodyWork rest
end

theorem work_action_le (action : Action) : action.work ≤ 1 := by
  cases action <;> simp [Action.work]

end Statement

def ProgramFrame.work : ProgramFrame → Nat
  | .rest _ body => Statement.bodyWork body
  | .close _ => 1
  | _ => 0

namespace Interpreter

abbrev totalWork (r : ProgramReached) : Nat := Reached.work ProgramFrame.work r

abbrev machineWork (m : ProgramMachine) : Nat := m.work (Task.work ProgramFrame.work)

theorem machineWork_congr {m m' : ProgramMachine} (h : m'.dispatcher.seats = m.dispatcher.seats) :
    machineWork m' = machineWork m :=
  Machine.work_congr _ h

@[simp] theorem seats_record (statement : StatementId) (mark : Mark) (m : ProgramMachine) :
    (record statement mark m).dispatcher.seats = m.dispatcher.seats := rfl

@[simp] theorem seats_print (statement : StatementId) (value : String) (m : ProgramMachine) :
    (print statement value m).dispatcher.seats = m.dispatcher.seats := by
  unfold print
  split <;> rfl

@[simp] theorem seats_bind (statement : StatementId) (var : String) (handle : Referent)
    (m : ProgramMachine) :
    (bind statement var handle m).dispatcher.seats = m.dispatcher.seats := rfl

/-- A launched task brings the work of its body, its beginning and its end. -/
theorem machineWork_launch (parent : JobId) (body : List Statement) (m : ProgramMachine) :
    machineWork (launch parent body m).2 = machineWork m + (2 + Statement.bodyWork body) := by
  simp only [launch, machineWork]
  rw [Machine.work_spawn, Machine.work_congr _ (Machine.seats_child ..)]
  simp only [Task.work, framesWork_cons, framesWork_nil, ProgramFrame.work]
  omega

theorem totalWork_printResult (statement : StatementId) (job : JobId) (result : String)
    (m : ProgramMachine) :
    totalWork (printResult statement job result m) = machineWork m := by
  unfold printResult
  dsimp only
  split
  · exact machineWork_congr (seats_print ..)
  · rfl

theorem totalWork_afterWait {frames : List ProgramFrame} {k : ProgramMachine → ProgramReached}
    {r : WaitStart × ProgramMachine} {m : ProgramMachine}
    (hframes : framesWork ProgramFrame.work frames = 0)
    (hk : ∀ m, totalWork (k m) = machineWork m) (h : r.2.dispatcher.seats = m.dispatcher.seats) :
    totalWork (afterWait frames k r) ≤ machineWork m + 1 :=
  Reached.work_afterWait_le (fun _ _ => rfl) hframes hk h

theorem totalWork_performAction (ticket : Ticket) (job : JobId) (statement : StatementId)
    (action : Action) (m : ProgramMachine) :
    totalWork (performAction ticket job statement action m) ≤ machineWork m + action.work := by
  cases action with
  | delay time => exact totalWork_afterWait rfl (fun _ => rfl) (Machine.seats_beginDelay ..)
  | print text => exact Nat.le_of_eq (machineWork_congr (seats_print ..))
  | throwException kind => exact Nat.le_refl _
  | job var => exact Nat.le_refl _
  | join var =>
    unfold performAction
    dsimp only
    split
    · exact Nat.le_add_right _ _
    · exact totalWork_afterWait rfl (fun _ => rfl) (Machine.seats_beginJoin ..)
  | cancel var =>
    unfold performAction
    dsimp only
    split
    · exact Nat.le_refl _
    · exact Nat.le_of_eq (machineWork_congr (Machine.seats_cancel ..))
    · exact Nat.le_of_eq (machineWork_congr (Machine.seats_cancel ..))
    · exact Nat.le_of_eq (machineWork_congr (Machine.seats_fire ..))
  | completeJob var =>
    unfold performAction
    dsimp only
    split
    · exact Nat.le_of_eq (machineWork_congr (Machine.seats_fire ..))
    · exact Nat.le_refl _
  | printAwait var text =>
    unfold performAction
    dsimp only
    split
    · split
      · exact Nat.le_add_right _ _
      · exact totalWork_afterWait rfl (totalWork_printResult statement _ _)
          (Machine.seats_beginAwait ..)
    · exact Nat.le_add_right_of_le (Nat.le_of_eq (machineWork_congr (seats_print ..)))

theorem totalWork_close (ticket : Ticket) (job : JobId) (result : Completion)
    (m : ProgramMachine) : totalWork (close ticket job result m) ≤ machineWork m + 1 :=
  Reached.work_afterClose_le (w := ProgramFrame.work) rfl (fun _ _ => rfl) ticket job result m

theorem totalWork_catchException (statement : StatementId) (kind : ExceptionKind)
    (result : Completion) (m : ProgramMachine) :
    totalWork (catchException statement kind result m) = machineWork m := by
  unfold catchException
  split
  · rfl
  · split
    · exact machineWork_congr (seats_print ..)
    · rfl

mutual
theorem totalWork_perform (ticket : Ticket) (job : JobId) :
    (s : Statement) → (m : ProgramMachine) →
      totalWork (perform ticket job s m) ≤ machineWork m + s.work
  | .leaf id action, m => totalWork_performAction ticket job id action m
  | .block id head body, m => by
    have hscope : ∀ kind : JobRole,
        totalWork (Reached.andThen (.close (m.child job kind).1) (close ticket (m.child job kind).1)
          (performBody ticket (m.child job kind).1 body (m.child job kind).2)) ≤
        machineWork m + (1 + Statement.bodyWork body) := by
      intro kind
      have hbody := totalWork_performBody ticket (m.child job kind).1 body (m.child job kind).2
      have hchild : machineWork (m.child job kind).2 = machineWork m :=
        machineWork_congr (Machine.seats_child ..)
      have hthen := Reached.work_andThen_le (.close (m.child job kind).1)
        (totalWork_close ticket (m.child job kind).1)
        (performBody ticket (m.child job kind).1 body (m.child job kind).2)
      simp only [totalWork, machineWork, ProgramFrame.work] at *
      omega
    cases head with
    | launch => exact Nat.le_of_eq (machineWork_launch ..)
    | scopeLaunch => exact Nat.le_of_eq (machineWork_launch ..)
    | launchJob var => exact Nat.le_of_eq (machineWork_launch ..)
    | async var result => exact Nat.le_of_eq (machineWork_launch ..)
    | coroutineScope => exact hscope .scope
    | supervisorScope => exact hscope .supervisor
    | tryCatch kind =>
      have hbody := totalWork_performBody ticket job body m
      have hthen := Reached.work_andThen_le (.catching id kind)
        (fun result m => Nat.le_of_eq (totalWork_catchException id kind result m))
        (performBody ticket job body m)
      simp only [ProgramFrame.work, Nat.add_zero] at hthen
      simp only [perform, Statement.work, Head.work, Nat.zero_add]
      exact Nat.le_trans hthen hbody
theorem totalWork_performBody (ticket : Ticket) (job : JobId) :
    (body : List Statement) → (m : ProgramMachine) →
      totalWork (performBody ticket job body m) ≤ machineWork m + Statement.bodyWork body
  | [], m => Nat.le_refl _
  | s :: rest, m => by
    have hs := totalWork_perform ticket job s (record s.id .began m)
    have hbegan : machineWork (record s.id .began m) = machineWork m := rfl
    unfold performBody
    split
    · next m' heq =>
      rw [heq] at hs
      have hrest := totalWork_performBody ticket job rest (record s.id .ended m')
      have hended : machineWork (record s.id .ended m') = machineWork m' := rfl
      simp only [totalWork, machineWork, Reached.work_ended, Statement.bodyWork] at *
      omega
    · next kind m' heq =>
      rw [heq] at hs
      simp only [totalWork, machineWork, Reached.work_ended, Statement.bodyWork] at *
      omega
    · next on frames m' heq =>
      rw [heq] at hs
      simp only [totalWork, machineWork, Reached.work_suspended, framesWork_append,
        framesWork_cons, framesWork_nil, ProgramFrame.work, Statement.bodyWork] at *
      omega
end

theorem totalWork_resume (ticket : Ticket) (frame : ProgramFrame) (result : Completion)
    (m : ProgramMachine) :
    totalWork (resume ticket frame result m) ≤ machineWork m + frame.work := by
  cases frame with
  | rest job body =>
    cases result with
    | ok _ => exact totalWork_performBody ticket job body m
    | error kind => exact Nat.le_add_right _ _
  | leave statement => cases result <;> exact Nat.le_refl _
  | catching statement kind => exact Nat.le_of_eq (totalWork_catchException ..)
  | close job => exact totalWork_close ..
  | settle job => exact Nat.le_of_eq (machineWork_congr (Machine.seats_settle ..))
  | awaited statement job text =>
    cases result with
    | ok _ => exact Nat.le_of_eq (totalWork_printResult ..)
    | error kind => exact Nat.le_refl _
  | program => exact Nat.le_of_eq (machineWork_congr (Machine.seats_cancel ..))

end Interpreter

instance : FrameCode ProgramEnv ProgramFrame where
  work := ProgramFrame.work
  resume := Interpreter.resume
  interrupted _ m := m
  resume_work := Interpreter.totalWork_resume
  interrupted_work _ _ := rfl

end RacePuzzle
