import RacePuzzle.Machine.Code

/-! The polling of all tasks that are ready. Frames of any type can run that come with a measure of
the work left in them; polling stops because every poll of a task either uses up work or takes
one entry off the ready queue. -/
namespace RacePuzzle

class FrameCode (ε φ : Type) where
  /-- The work left in a frame. -/
  work : φ → Nat
  /-- What a frame does with the result of the code inside it. -/
  resume : Ticket → φ → Completion → FrameMachine ε φ → Reached ε φ
  /-- What happens beside the exception when a task is interrupted. -/
  interrupted : Interruption → FrameMachine ε φ → FrameMachine ε φ
  /-- A frame does no more than the work left in it. -/
  resume_work : ∀ ticket frame result m,
    Reached.work work (resume ticket frame result m) ≤ m.work (Task.work work) + work frame
  interrupted_work : ∀ why m,
    (interrupted why m).work (Task.work work) = m.work (Task.work work)

namespace FrameCode

variable {ε φ : Type} [FrameCode ε φ]

/-- Hands a result outward through the frames of a task. -/
def unwind (ticket : Ticket) : List φ → Completion → FrameMachine ε φ → Reached ε φ
  | [], result, m => (.ended result, m)
  | frame :: outer, result, m =>
    match FrameCode.resume ticket frame result m with
    | (.ended result, m) => unwind ticket outer result m
    | (.suspended on inner, m) => (.suspended on (inner ++ outer), m)

/-- Lets the code of a task go on with the result of what it waited for. -/
def proceed (ticket : Ticket) (frames : List φ) (result : Except Interruption Unit)
    (m : FrameMachine ε φ) : Reached ε φ :=
  match result with
  | .ok () => unwind ticket frames (.ok ()) m
  | .error why => unwind ticket frames why.completion (FrameCode.interrupted why m)

/-- Lets a task go on if it can. A task that has ended is not left. -/
def poll (ticket : Ticket) (task : Task φ) (m : FrameMachine ε φ) :
    Option (Task φ) × FrameMachine ε φ :=
  match m.resumption ticket task.on with
  | (none, m) => (some task, m)
  | (some result, m) =>
    match proceed ticket task.frames result m with
    | (.ended _, m) => (none, m)
    | (.suspended on frames, m) => (some ⟨on, frames⟩, m)

def load (m : FrameMachine ε φ) : Nat := m.work (Task.work (FrameCode.work ε))

def taskLoad (ε : Type) {φ : Type} [FrameCode ε φ] (task : Option (Task φ)) : Nat :=
  (task.map (Task.work (FrameCode.work ε))).getD 0

theorem work_unwind_le (ticket : Ticket) (frames : List φ) (result : Completion)
    (m : FrameMachine ε φ) :
    Reached.work (FrameCode.work ε) (unwind ticket frames result m) ≤
      load m + framesWork (FrameCode.work ε) frames := by
  induction frames generalizing result m with
  | nil => exact Nat.le_add_right _ _
  | cons frame outer ih =>
    have hr := FrameCode.resume_work ticket frame result m
    unfold unwind
    split
    · next result' m' heq =>
      rw [heq] at hr
      have := ih result' m'
      simp only [load, Reached.work_ended, framesWork_cons] at *
      omega
    · next on inner m' heq =>
      rw [heq] at hr
      simp only [load, Reached.work_suspended, framesWork_append, framesWork_cons] at *
      omega

theorem work_proceed_le (ticket : Ticket) (frames : List φ) (result : Except Interruption Unit)
    (m : FrameMachine ε φ) :
    Reached.work (FrameCode.work ε) (proceed ticket frames result m) ≤
      load m + framesWork (FrameCode.work ε) frames := by
  cases result with
  | ok u => exact work_unwind_le ..
  | error why =>
    refine Nat.le_trans (work_unwind_le ..) (Nat.add_le_add_right ?_ _)
    exact Nat.le_of_eq (FrameCode.interrupted_work why m)

/-- A poll uses up work, or leaves everything about the tasks as it was. -/
theorem poll_load (ticket : Ticket) (task : Task φ) (m : FrameMachine ε φ) :
    load (poll ticket task m).2 + taskLoad ε (poll ticket task m).1 <
        load m + taskLoad ε (some task) ∨
      (poll ticket task m).1 = some task ∧ (poll ticket task m).2.dispatcher = m.dispatcher := by
  have hx := Machine.dispatcher_resumption m ticket task.on
  unfold poll
  split
  · next m' heq =>
    rw [heq] at hx
    exact .inr ⟨rfl, hx⟩
  · next result m' heq =>
    left
    rw [heq] at hx
    have hm : load m' = load m := Machine.work_congr _ (congrArg Dispatcher.seats hx)
    have hp := work_proceed_le ticket task.frames result m'
    rw [hm] at hp
    split
    · next r m'' heq =>
      rw [heq] at hp
      simp only [Reached.work_ended, taskLoad, load, Option.map_none, Option.map_some,
        Option.getD_none, Option.getD_some, Task.work] at *
      omega
    · next on frames m'' heq =>
      rw [heq] at hp
      simp only [Reached.work_suspended, taskLoad, load, Option.map_some, Option.getD_some,
        Task.work] at *
      omega

end FrameCode

namespace Machine

variable {ε φ : Type} [FrameCode ε φ]

/-- Takes the first entry off the ready queue and polls its task, if it has not ended. -/
def runReady (m : FrameMachine ε φ) (id : SeatId) (rest : List SeatId) : FrameMachine ε φ :=
  match ({ m.dispatcher with ready := rest } : Dispatcher (Task φ)).checkOut id with
  | (none, dispatcher) => { m with dispatcher := dispatcher }
  | (some (ticket, task), dispatcher) =>
    match FrameCode.poll ticket task { m with dispatcher := dispatcher } with
    | (none, m) => { m with dispatcher := m.dispatcher.finish ticket }
    | (some task, m) => { m with dispatcher := m.dispatcher.checkIn id task }

/-- Polling one task uses up work, or takes an entry off the ready queue and adds none. -/
theorem load_runReady (m : FrameMachine ε φ) (id : SeatId) (rest : List SeatId) :
    FrameCode.load (m.runReady id rest) < FrameCode.load m ∨
      FrameCode.load (m.runReady id rest) ≤ FrameCode.load m ∧
        (m.runReady id rest).dispatcher.ready = rest := by
  have hready :=
    Dispatcher.ready_checkOut ({ m.dispatcher with ready := rest } : Dispatcher (Task φ)) id
  unfold runReady
  split
  · next dispatcher hout =>
    rw [hout] at hready
    have hwork := Dispatcher.work_checkOut_none (Task.work (FrameCode.work ε)) hout
    exact .inr ⟨Nat.le_of_eq hwork, hready⟩
  · next ticket task dispatcher hout =>
    rw [hout] at hready
    have hwork := Dispatcher.work_checkOut (Task.work (FrameCode.work ε)) hout
    have hpoll := FrameCode.poll_load ticket task { m with dispatcher := dispatcher }
    split
    · next m' heq =>
      rw [heq] at hpoll
      simp only [FrameCode.taskLoad, FrameCode.load, work, Dispatcher.work, Option.map_none,
        Option.map_some, Option.getD_none, Option.getD_some, reduceCtorEq, false_and,
        or_false, Dispatcher.seats_finish] at *
      omega
    · next task' m' heq =>
      rw [heq] at hpoll
      have hin := Dispatcher.work_checkIn_le (Task.work (FrameCode.work ε)) m'.dispatcher id task'
      rcases hpoll with hpoll | ⟨htask, hexec⟩
      · left
        simp only [FrameCode.taskLoad, FrameCode.load, work, Option.map_some, Option.getD_some,
          Dispatcher.work] at *
        omega
      · right
        obtain rfl : task' = task := Option.some.inj htask
        dsimp only at hexec
        simp only [FrameCode.load, work, Dispatcher.ready_checkIn, hexec] at *
        exact ⟨by simp only [Dispatcher.work] at *; omega, hready⟩

theorem runReady_lex {m : FrameMachine ε φ} {id : SeatId} {rest : List SeatId}
    (h : m.dispatcher.ready = id :: rest) :
    Prod.Lex (· < ·) (· < ·)
      (FrameCode.load (m.runReady id rest), (m.runReady id rest).dispatcher.ready.length)
      (FrameCode.load m, m.dispatcher.ready.length) := by
  rcases load_runReady m id rest with hlt | ⟨hle, hready⟩
  · exact .left _ _ hlt
  · rcases Nat.lt_or_eq_of_le hle with hlt | heq
    · exact .left _ _ hlt
    · rw [heq, hready, h]
      exact .right _ (Nat.lt_succ_self _)

/-- Polls ready tasks, first come first served, until none is ready. -/
def drain (m : FrameMachine ε φ) : FrameMachine ε φ :=
  match h : m.dispatcher.ready with
  | [] => m
  | id :: rest =>
    have := runReady_lex h
    (m.runReady id rest).drain
termination_by (FrameCode.load m, m.dispatcher.ready.length)
decreasing_by exact this

end Machine

end RacePuzzle
