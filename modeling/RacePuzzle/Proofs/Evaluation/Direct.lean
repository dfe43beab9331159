import RacePuzzle.Program.Query
import RacePuzzle.Proofs.Evaluation.Step

/-! Programs that start no task, read directly. A clock goes through each body; the first exception
stops it, scopes hand it on and a handler that catches it goes on after it. The frames of a task
have a meaning of the same kind, which says what is still to come. -/
namespace RacePuzzle

/-- What code prints, and how and when it ends. -/
structure Course where
  events : List TimedPrint
  result : Completion
  time : Nat

namespace Course

/-- Goes on where code has not ended with an exception. -/
def andThen (c : Course) (next : Nat → Course) : Course :=
  match c.result with
  | .ok () => ⟨c.events ++ (next c.time).events, (next c.time).result, (next c.time).time⟩
  | .error _ => c

def caught (kind : ExceptionKind) (c : Course) : Course :=
  match c.result with
  | .ok () => c
  | .error thrown =>
    if kind.catches thrown then ⟨c.events ++ [⟨handlerText, c.time⟩], .ok (), c.time⟩ else c

def after (c : Course) (events : List TimedPrint) : Course := { c with events := events ++ c.events }

def evaluation (c : Course) : Evaluation := ⟨c.events, .ofCompletion c.result, c.time⟩

@[simp] theorem after_nil (c : Course) : c.after [] = c := rfl

theorem after_after (c : Course) (xs ys : List TimedPrint) :
    (c.after xs).after ys = c.after (ys ++ xs) := by
  simp [after]

end Course

namespace Statement

/-- The statement runs in the task around it, and nothing in it waits for a job. -/
def startsNoTask : Statement → Bool
  | .leaf _ (.delay _) | .leaf _ (.print _) | .leaf _ (.throwException _)
  | .block _ .coroutineScope _ | .block _ .supervisorScope _ | .block _ (.tryCatch _) _ => true
  | _ => false

/-- All of the program runs in one task. -/
def SpawnFree (t : Statement) : Prop := ∀ s ∈ t.nodes, s.startsNoTask = true

instance (t : Statement) : Decidable t.SpawnFree := List.decidableBAll _ _

mutual
/-- The course of a statement that begins at the time `now`. -/
def direct (now : Nat) : Statement → Course
  | .leaf _ (.delay time) => ⟨[], .ok (), now + time⟩
  | .leaf _ (.print text) => ⟨[⟨text, now⟩], .ok (), now⟩
  | .leaf _ (.throwException kind) => ⟨[], .error kind, now⟩
  | .block _ .coroutineScope body | .block _ .supervisorScope body => directBody now body
  | .block _ (.tryCatch kind) body => (directBody now body).caught kind
  | _ => ⟨[], .ok (), now⟩
def directBody (now : Nat) : List Statement → Course
  | [] => ⟨[], .ok (), now⟩
  | s :: rest => (direct now s).andThen fun now => directBody now rest
end

end Statement

/-- The course of a frame that gets the result of the code inside it. -/
def ProgramFrame.course (frame : ProgramFrame) (result : Completion) (now : Nat) : Course :=
  match frame, result with
  | .rest _ body, .ok () => Statement.directBody now body
  | .catching _ kind, result => Course.caught kind ⟨[], result, now⟩
  | _, result => ⟨[], result, now⟩

/-- The course of all frames of a task, from the innermost outward. -/
def framesCourse : List ProgramFrame → Completion → Nat → Course
  | [], result, now => ⟨[], result, now⟩
  | frame :: outer, result, now =>
    let c := frame.course result now
    (framesCourse outer c.result c.time).after c.events

namespace Course

def inside (c : Course) (outer : List ProgramFrame) : Course :=
  (framesCourse outer c.result c.time).after c.events

theorem inside_cons (c : Course) (frame : ProgramFrame) (outer : List ProgramFrame) :
    c.inside (frame :: outer) =
      ((frame.course c.result c.time).after c.events).inside outer :=
  after_after ..

end Course

theorem framesCourse_cons (frame : ProgramFrame) (outer : List ProgramFrame) (result : Completion)
    (now : Nat) :
    framesCourse (frame :: outer) result now = (frame.course result now).inside outer := rfl

theorem course_of_passesErrors {frame : ProgramFrame} (h : frame.passesErrors = true)
    (kind : ExceptionKind) (now : Nat) : frame.course (.error kind) now = ⟨[], .error kind, now⟩ := by
  cases frame <;> first | rfl | cases h

/-- A body goes on with its first statement and then with what is left of it. -/
theorem framesCourse_rest_cons (j : JobId) (s : Statement) (body : List Statement)
    (outer : List ProgramFrame) (now : Nat) :
    framesCourse (.rest j (s :: body) :: outer) (.ok ()) now =
      (s.direct now).inside (.leave s.id :: .rest j body :: outer) := by
  rw [framesCourse_cons, Course.inside_cons, Course.inside_cons]
  show (((s.direct now).andThen fun now => Statement.directBody now body).inside outer) = _
  generalize s.direct now = c
  obtain ⟨events, result, time⟩ := c
  cases result with
  | ok _ => simp [Course.andThen, ProgramFrame.course, Course.after]
  | error kind => simp [Course.andThen, ProgramFrame.course, Course.after]

theorem framesCourse_scope (g : JobId) (inner : List Statement) (outer : List ProgramFrame)
    (now : Nat) : framesCourse (.rest g inner :: .close g :: outer) (.ok ()) now =
      (Statement.directBody now inner).inside outer := by
  rw [framesCourse_cons, Course.inside_cons]
  simp [ProgramFrame.course, Course.after]

theorem framesCourse_tryCatch (j : JobId) (id : StatementId) (kind : ExceptionKind)
    (inner : List Statement) (outer : List ProgramFrame) (now : Nat) :
    framesCourse (.rest j inner :: .catching id kind :: outer) (.ok ()) now =
      ((Statement.directBody now inner).caught kind).inside outer := by
  rw [framesCourse_cons, Course.inside_cons]
  have hbody : (ProgramFrame.rest j inner).course (.ok ()) now = Statement.directBody now inner := rfl
  rw [hbody]
  generalize Statement.directBody now inner = c
  congr 1
  obtain ⟨events, result, time⟩ := c
  cases result with
  | ok _ => simp [ProgramFrame.course, Course.caught, Course.after]
  | error thrown =>
    cases hc : kind.catches thrown <;>
      simp [ProgramFrame.course, Course.caught, Course.after, hc]

end RacePuzzle
