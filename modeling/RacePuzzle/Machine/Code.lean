import RacePuzzle.Machine.Suspension

/-! Code that runs on a machine until it ends or has to wait; in the second case it leaves the
frames that say how to go on. The work left in code bounds how often it can still be
suspended. -/
namespace RacePuzzle

/-- A suspended task: what it needs, and what it does then, innermost frame first. -/
structure Task (φ : Type) where
  on : Suspension
  frames : List φ

/-- The machine that runs tasks of frames `φ` in the environment `ε`. -/
abbrev FrameMachine (ε φ : Type) := Machine ε (Task φ)

/-- How far code got: to its end, or to a suspension with the frames that are left. -/
inductive Progress (φ : Type)
  | ended (result : Completion)
  | suspended (on : Suspension) (frames : List φ)

abbrev Reached (ε φ : Type) := Progress φ × FrameMachine ε φ

def framesWork {φ : Type} (w : φ → Nat) : List φ → Nat
  | [] => 0
  | frame :: outer => w frame + framesWork w outer

@[simp] theorem framesWork_nil {φ : Type} (w : φ → Nat) : framesWork w [] = 0 := rfl

@[simp] theorem framesWork_cons {φ : Type} (w : φ → Nat) (frame : φ) (frames : List φ) :
    framesWork w (frame :: frames) = w frame + framesWork w frames := rfl

@[simp] theorem framesWork_append {φ : Type} (w : φ → Nat) (inner outer : List φ) :
    framesWork w (inner ++ outer) = framesWork w inner + framesWork w outer := by
  induction inner with
  | nil => simp
  | cons frame rest ih =>
    simp only [List.cons_append, framesWork_cons, ih]
    omega

/-- A suspension counts for one, so that resuming a task uses up work. -/
def Task.work {φ : Type} (w : φ → Nat) (task : Task φ) : Nat := 1 + framesWork w task.frames

def Progress.work {φ : Type} (w : φ → Nat) : Progress φ → Nat
  | .ended _ => 0
  | .suspended _ frames => 1 + framesWork w frames

namespace Reached

variable {ε φ : Type}

def done (m : FrameMachine ε φ) : Reached ε φ := (.ended (.ok ()), m)

/-- Goes on with `k` where code has ended, and leaves `frame` for it where it has not. -/
def andThen (frame : φ) (k : Completion → FrameMachine ε φ → Reached ε φ) :
    Reached ε φ → Reached ε φ
  | (.ended result, m) => k result m
  | (.suspended on frames, m) => (.suspended on (frames ++ [frame]), m)

/-- Goes on with `k` where a wait is over at once, and leaves `frames` for it where it is not.
`note` takes down why a wait was refused. -/
def afterWait (note : Interruption → FrameMachine ε φ → FrameMachine ε φ) (frames : List φ)
    (k : FrameMachine ε φ → Reached ε φ) : WaitStart × FrameMachine ε φ → Reached ε φ
  | (.through, m) => k m
  | (.refused why, m) => (.ended why.completion, note why m)
  | (.suspended on, m) => (.suspended on frames, m)

/-- Ends the own code of a job, goes on with `k` where the job settles at once, and leaves `frame`
for it where the job has to wait for its children. -/
def afterClose (ticket : Ticket) (job : JobId) (frame : φ)
    (k : Outcome → FrameMachine ε φ → Reached ε φ) (result : Completion)
    (m : FrameMachine ε φ) : Reached ε φ :=
  match m.close ticket job result with
  | (some outcome, m) => k outcome m
  | (none, m) => (.suspended (.children job) [frame], m)

def work (w : φ → Nat) (r : Reached ε φ) : Nat := r.2.work (Task.work w) + r.1.work w

variable {w : φ → Nat}

@[simp] theorem work_ended (result : Completion) (m : FrameMachine ε φ) :
    work w (.ended result, m) = m.work (Task.work w) := rfl

@[simp] theorem work_done (m : FrameMachine ε φ) : work w (done m) = m.work (Task.work w) := rfl

@[simp] theorem work_suspended (on : Suspension) (frames : List φ) (m : FrameMachine ε φ) :
    work w (.suspended on frames, m) = m.work (Task.work w) + (1 + framesWork w frames) := rfl

theorem work_andThen_le (frame : φ) {k : Completion → FrameMachine ε φ → Reached ε φ}
    (hk : ∀ result m, work w (k result m) ≤ m.work (Task.work w) + w frame)
    (r : Reached ε φ) : work w (andThen frame k r) ≤ work w r + w frame := by
  obtain ⟨p, m⟩ := r
  cases p with
  | ended result => exact hk result m
  | suspended on frames =>
    simp only [andThen, work_suspended, framesWork_append, framesWork_cons, framesWork_nil]
    omega

/-- Beginning a wait costs one suspension at most. -/
theorem work_afterWait_le {note : Interruption → FrameMachine ε φ → FrameMachine ε φ}
    {frames : List φ} {k : FrameMachine ε φ → Reached ε φ}
    {r : WaitStart × FrameMachine ε φ} {m : FrameMachine ε φ}
    (hnote : ∀ why m, (note why m).dispatcher.seats = m.dispatcher.seats)
    (hframes : framesWork w frames = 0) (hk : ∀ m, work w (k m) = m.work (Task.work w))
    (h : r.2.dispatcher.seats = m.dispatcher.seats) :
    work w (afterWait note frames k r) ≤ m.work (Task.work w) + 1 := by
  have hw : r.2.work (Task.work w) = m.work (Task.work w) :=
    Machine.work_congr _ h
  obtain ⟨start, m'⟩ := r
  cases start with
  | through => exact Nat.le_add_right_of_le (Nat.le_of_eq ((hk m').trans hw))
  | refused why =>
    exact Nat.le_add_right_of_le
      (Nat.le_of_eq ((Machine.work_congr _ (hnote why m')).trans hw))
  | suspended on =>
    simp only [afterWait, work_suspended, hframes]
    exact Nat.le_of_eq (congrArg (· + 1) hw)

theorem work_afterClose_le {frame : φ} {k : Outcome → FrameMachine ε φ → Reached ε φ}
    (hframe : w frame = 0) (hk : ∀ outcome m, work w (k outcome m) = m.work (Task.work w))
    (ticket : Ticket) (job : JobId) (result : Completion) (m : FrameMachine ε φ) :
    work w (afterClose ticket job frame k result m) ≤ m.work (Task.work w) + 1 := by
  have hs := Machine.seats_close m ticket job result
  unfold afterClose
  split
  · next outcome m' heq =>
    rw [heq] at hs
    exact Nat.le_add_right_of_le (Nat.le_of_eq ((hk outcome m').trans (Machine.work_congr _ hs)))
  · next m' heq =>
    rw [heq] at hs
    have hw : m'.work (Task.work w) = m.work (Task.work w) := Machine.work_congr _ hs
    simp only [work_suspended, framesWork_cons, framesWork_nil, hframe]
    omega

end Reached

end RacePuzzle
