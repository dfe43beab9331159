import RacePuzzle.Proofs.Evaluation.History

/-! What becomes of frames. A step takes frames off the task that is polled and puts others there or
into a new task, so that a weight of frames can be followed over a run. -/
namespace RacePuzzle

open Interpreter

/-- A step of a task, given by its frames, the result that the innermost one gets, the frames that
the step leaves, and those of the task that it starts. -/
inductive Moves :
    List ProgramFrame → Completion → List ProgramFrame → List ProgramFrame → Prop
  | pass {frame outer kind} : frame.passesErrors → Moves (frame :: outer) (.error kind) outer []
  | bodyEnd {j outer} : Moves (.rest j [] :: outer) (.ok ()) outer []
  | frameEnd {frame outer result} : (∀ j body, frame ≠ .rest j body) →
      Moves (frame :: outer) result outer []
  | act {j id action body outer} :
      Moves (.rest j (.leaf id action :: body) :: outer) (.ok ()) (.leave id :: .rest j body :: outer)
        []
  | await {j id action body outer target text} :
      Moves (.rest j (.leaf id action :: body) :: outer) (.ok ())
        (.awaited id target text :: .leave id :: .rest j body :: outer) []
  | launch {j id head inner body outer g} : head.makesJob →
      Moves (.rest j (.block id head inner :: body) :: outer) (.ok ())
        (.leave id :: .rest j body :: outer) [.rest g inner, .close g]
  | scope {j id head inner body outer g} : head.makesJob →
      Moves (.rest j (.block id head inner :: body) :: outer) (.ok ())
        (.rest g inner :: .close g :: .leave id :: .rest j body :: outer) []
  | tryCatch {j id kind inner body outer} :
      Moves (.rest j (.block id (.tryCatch kind) inner :: body) :: outer) (.ok ())
        (.rest j inner :: .catching id kind :: .leave id :: .rest j body :: outer) []
  | close {j outer result} : Moves (.close j :: outer) result (.settle j :: outer) []

def Focus.frames : Focus → List ProgramFrame
  | .idle => []
  | .running _ _ frames _ => frames

namespace Snapshot

def total (w : ProgramFrame → Nat) (s : Snapshot) : Nat :=
  s.machine.work (fun task => framesWork w task.frames) + framesWork w s.focus.frames

/-- Where the weight goes in a step. -/
inductive Trades (s s' : Snapshot) : Prop
  | stays : s.focus.frames = [] → (∀ w, s'.total w = s.total w) → Trades s s'
  | moves {seat ticket frames result frames' started} :
      s.focus = .running seat ticket frames result → Moves frames result frames' started →
      (∀ w, s'.total w + framesWork w frames =
        s.total w + framesWork w frames' + framesWork w started) → Trades s s'

variable {t : Statement} {L : Ledger} {m m' : ProgramMachine} {s s' : Snapshot} {seat : SeatId}
  {ticket : Ticket} {frames frames' : List ProgramFrame} {result result' : Completion}

theorem total_running (w : ProgramFrame → Nat) : total w ⟨m, .running seat ticket frames result⟩ =
    m.work (fun task => framesWork w task.frames) + framesWork w frames := rfl

theorem total_idle (w : ProgramFrame → Nat) : total w ⟨m, .idle⟩ =
    m.work (fun task => framesWork w task.frames) := rfl

theorem total_code (hs : m'.dispatcher.seats = m.dispatcher.seats) (w : ProgramFrame → Nat) :
    total w ⟨m', .running seat ticket frames' result'⟩ + framesWork w frames =
      total w ⟨m, .running seat ticket frames result⟩ + framesWork w frames' := by
  rw [total_running, total_running, Machine.work_congr _ hs]
  omega

theorem total_checkIn (h : Upheld t L ⟨m, .running seat ticket frames result⟩)
    (hs : m'.dispatcher.seats = m.dispatcher.seats) (on : Suspension) (w : ProgramFrame → Nat) :
    total w ⟨{ m' with dispatcher := m'.dispatcher.checkIn seat ⟨on, frames'⟩ }, .idle⟩ +
        framesWork w frames =
      total w ⟨m, .running seat ticket frames result⟩ + framesWork w frames' := by
  have hp := h.polled rfl
  have hlt : seat < m'.dispatcher.seats.size := hs ▸ hp.lt
  have hin := Dispatcher.work_checkIn (fun task : Task ProgramFrame => framesWork w task.frames) hlt
    ((Dispatcher.task?_of_seats hs seat).trans hp.out) ⟨on, frames'⟩
  have hwork : m'.work (fun task => framesWork w task.frames) =
      m.work fun task => framesWork w task.frames := Machine.work_congr _ hs
  rw [total_running, total_idle]
  simp only [Machine.work] at hwork hin ⊢
  omega

theorem Trades.ofSeats (hs : m'.dispatcher.seats = m.dispatcher.seats)
    (hm : Moves frames result frames' []) :
    Trades ⟨m, .running seat ticket frames result⟩ ⟨m', .running seat ticket frames' result'⟩ :=
  .moves rfl hm (total_code hs)

theorem seats_catchException {id : StatementId} {kind : ExceptionKind}
    (h : catchException id kind result m = (.ended result', m')) :
    m'.dispatcher.seats = m.dispatcher.seats := by
  unfold catchException at h
  split at h
  · exact congrArg (fun r => r.2.dispatcher.seats) h.symm
  · split at h
    · exact (congrArg (fun r => r.2.dispatcher.seats) h.symm).trans (seats_print ..)
    · exact congrArg (fun r => r.2.dispatcher.seats) h.symm

theorem seats_printResult (id : StatementId) (j : JobId) (text : String) (m : ProgramMachine) :
    (printResult id j text m).2.dispatcher.seats = m.dispatcher.seats := by
  unfold printResult
  dsimp only
  split
  · exact seats_print ..
  · rfl

theorem seats_close_ended {j : JobId}
    (h : Interpreter.close ticket j result m = (.ended result', m')) :
    m'.dispatcher.seats = m.dispatcher.seats := by
  have hs := Machine.seats_close m ticket j result
  unfold Interpreter.close Reached.afterClose at h
  split at h
  · next he =>
    rw [he] at hs
    exact (congrArg (fun r => r.2.dispatcher.seats) h.symm).trans hs
  · cases h

theorem seats_endProgram (result : Completion) (m : ProgramMachine) :
    (endProgram result m).dispatcher.seats = m.dispatcher.seats :=
  Machine.seats_cancel ..

theorem trades_code (h : Upheld t L ⟨m, .running seat ticket frames result⟩)
    (hs : Thread.Step ticket ⟨frames, result, m⟩ ⟨frames', result', m'⟩) :
    Trades ⟨m, .running seat ticket frames result⟩ ⟨m', .running seat ticket frames' result'⟩ := by
  cases hs with
  | pass hframe => exact .ofSeats rfl (.pass hframe)
  | bodyEnd => exact .ofSeats rfl .bodyEnd
  | act he =>
    have hacts := h.acts
    rw [he] at hacts
    cases hacts with
    | ended hq => exact .ofSeats hq.seats .act
  | @enter j id head inner body outer =>
    have hlaunch : ∀ {p : JobId} {m' : ProgramMachine}, head.makesJob →
        m'.dispatcher.seats = (launch p inner (record id .began m)).2.dispatcher.seats →
        Trades ⟨m, .running seat ticket (.rest j (.block id head inner :: body) :: outer) (.ok ())⟩
          ⟨m', .running seat ticket (.leave id :: .rest j body :: outer) (.ok ())⟩ := by
      intro p m' hj hs
      refine .moves rfl (.launch hj (g := m.jobs.size)) fun w => ?_
      rw [total_running, total_running, Machine.work_congr _ hs, launch]
      dsimp only
      rw [Machine.work_spawn, Machine.work_congr _ (Machine.seats_child ..)]
      have hrecord : (record id .began m).work (fun task => framesWork w task.frames) =
          m.work fun task => framesWork w task.frames := Machine.work_congr _ rfl
      have hfirst : ((record id .began m).child p .task).1 = m.jobs.size := rfl
      rw [hrecord, hfirst]
      dsimp only
      omega
    cases head with
    | launch => exact hlaunch rfl rfl
    | scopeLaunch => exact hlaunch rfl rfl
    | launchJob var => exact hlaunch rfl rfl
    | async var text => exact hlaunch rfl rfl
    | coroutineScope => exact .ofSeats rfl (.scope rfl)
    | supervisorScope => exact .ofSeats rfl (.scope rfl)
    | tryCatch kind => exact .ofSeats rfl .tryCatch
  | leave => exact .ofSeats rfl (.frameEnd fun _ _ hf => by cases hf)
  | catching he => exact .ofSeats (seats_catchException he) (.frameEnd fun _ _ hf => by cases hf)
  | close he => exact .ofSeats (seats_close_ended he) (.frameEnd fun _ _ hf => by cases hf)
  | settle => exact .ofSeats (Machine.seats_settle ..) (.frameEnd fun _ _ hf => by cases hf)
  | @awaited id j text _ _ _ _ he =>
    have hs := seats_printResult id j text m
    rw [he] at hs
    exact .ofSeats hs (.frameEnd fun _ _ hf => by cases hf)
  | program => exact .ofSeats (seats_endProgram ..) (.frameEnd fun _ _ hf => by cases hf)

theorem Trades.checkIn (h : Upheld t L ⟨m, .running seat ticket frames result⟩)
    (hs : m'.dispatcher.seats = m.dispatcher.seats) (on : Suspension)
    (hm : Moves frames result frames' []) :
    Trades ⟨m, .running seat ticket frames result⟩
      ⟨{ m' with dispatcher := m'.dispatcher.checkIn seat ⟨on, frames'⟩ }, .idle⟩ :=
  .moves rfl hm (total_checkIn h hs on)

theorem trades_suspend {on : Suspension} (h : Upheld t L ⟨m, .running seat ticket frames result⟩)
    (hs : Thread.Suspends ticket ⟨frames, result, m⟩ on frames' m') :
    Trades ⟨m, .running seat ticket frames result⟩
      ⟨{ m' with dispatcher := m'.dispatcher.checkIn seat ⟨on, frames'⟩ }, .idle⟩ := by
  cases hs with
  | act he =>
    have hacts := h.acts
    rw [he] at hacts
    cases hacts with
    | suspended hsus =>
      obtain ⟨w, -, hneeds⟩ := hsus.wait
      cases hneeds with
      | delay _ _ => exact .checkIn h hsus.quiet.seats on .act
      | join _ _ _ _ => exact .checkIn h hsus.quiet.seats on .act
      | await _ _ _ _ => exact .checkIn h hsus.quiet.seats on .await
  | @close j outer _ _ _ inner _ he =>
    have hs := Machine.seats_close m ticket j result
    unfold Interpreter.close Reached.afterClose at he
    split at he
    · cases he
    · next m₁ hc =>
      rw [hc] at hs
      obtain ⟨hsus, rfl⟩ := Prod.mk.inj he
      obtain ⟨rfl, rfl⟩ := Progress.suspended.inj hsus
      exact .checkIn h hs _ .close

theorem trades_step (h : s.Upheld t L) (hs : Step s s') : Trades s s' := by
  cases hs with
  | @skip m id rest d hr hout =>
    obtain ⟨-, -, hseats, -⟩ := Dispatcher.checkOut_none h.sound.orderly.aligned hr hout
    exact .stays rfl fun w => congrArg (· + 0) (Machine.work_congr _ hseats)
  | @sleepOn m id rest d ticket task m' hr hout hres =>
    obtain ⟨rfl, -⟩ := h.resumption_none hr hout hres
    obtain ⟨hd, rfl, htask, hothers, -⟩ := Dispatcher.checkOut_some h.sound.orderly.aligned hr hout
    refine .stays rfl fun w => ?_
    have hin := Dispatcher.work_checkIn (fun task : Task ProgramFrame => framesWork w task.frames)
      (hd.size ▸ Dispatcher.lt_of_task? htask) ((hothers ticket).trans (if_pos rfl)) task
    have hout := Dispatcher.work_checkOut (fun task : Task ProgramFrame => framesWork w task.frames)
      hout
    exact congrArg (· + 0) (hin.trans hout)
  | @goOn m id rest d ticket task result m' hr hout hres =>
    refine .stays rfl fun w => ?_
    have hout := Dispatcher.work_checkOut (fun task : Task ProgramFrame => framesWork w task.frames)
      hout
    have hd := Machine.dispatcher_resumption { m with dispatcher := d } ticket task.on
    rw [hres] at hd
    rw [total_running, Machine.work_congr _ (congrArg Dispatcher.seats hd)]
    exact hout
  | code hs => exact trades_code h hs
  | suspend hs => exact trades_suspend h hs
  | finish => exact .stays rfl fun w => rfl
  | tick hr hnext =>
    exact .stays rfl fun w => congrArg (· + 0) (Machine.work_congr _ (Machine.seats_wakeAll ..))

end Snapshot

end RacePuzzle
