import RacePuzzle.Proofs.Evaluation.Step
import RacePuzzle.Proofs.Machine.Run

/-! The states of a run, between and inside its polls, and the steps from one to the next. Every
machine that a run comes to rest at is reached by these steps, so what all of them keep holds of
the run. -/
namespace RacePuzzle

namespace Machine

variable {ε φ : Type} [FrameCode ε φ]

/-- A run from `m` with `n` timeslices left comes to rest at `r`, with no task ready and `k`
timeslices left. -/
inductive RestsAt (limits : Limits) (isDone : FrameMachine ε φ → Bool) :
    (n : Nat) → (m : FrameMachine ε φ) → (k : Nat) → (r : FrameMachine ε φ) → Prop
  | here {n m} : RestsAt limits isDone n m n m.drain
  | later {n m k r time} : isDone m.drain = false →
      m.drain.dispatcher.polls ≤ limits.maxPolls →
      m.drain.timetable.clock.next? = some time → time ≤ limits.horizon →
      RestsAt limits isDone n m.drain.advance.2 k r → RestsAt limits isDone (n + 1) m k r

theorem RestsAt.ready {limits : Limits} {isDone : FrameMachine ε φ → Bool} {n k : Nat}
    {m r : FrameMachine ε φ} (h : RestsAt limits isDone n m k r) : r.dispatcher.ready = [] := by
  induction h with
  | here => exact ready_drain _
  | later _ _ _ _ _ ih => exact ih

/-- Why the run stops where it rests for the last time. -/
def StopsWith (limits : Limits) (isDone : FrameMachine ε φ → Bool) (k : Nat)
    (r : FrameMachine ε φ) : StopReason → FrameMachine ε φ → Prop
  | .finished, last => isDone r = true ∧ last = r
  | .stuck, last => isDone r = false ∧ r.timetable.clock.next? = none ∧ last = r
  | .pastHorizon, last =>
    isDone r = false ∧ (∃ time, r.timetable.clock.next? = some time ∧ limits.horizon < time) ∧
      last = r
  | .outOfBudget, last =>
    isDone r = false ∧ (limits.maxPolls < r.dispatcher.polls ∧ last = r ∨
      k = 0 ∧ (∃ time, r.timetable.clock.next? = some time) ∧ last = r.advance.2)

theorem exists_restsAt_runFor (limits : Limits) (isDone : FrameMachine ε φ → Bool) (n : Nat)
    (m : FrameMachine ε φ) :
    ∃ k r, RestsAt limits isDone n m k r ∧
      StopsWith limits isDone k r (m.runFor limits isDone n).1 (m.runFor limits isDone n).2 := by
  induction n generalizing m with
  | zero =>
    refine ⟨0, m.drain, .here, ?_⟩
    unfold runFor
    dsimp only
    split
    · next hd => exact ⟨hd, rfl⟩
    · next hd =>
      have hd : isDone m.drain = false := by simpa using hd
      split
      · next hp => exact ⟨hd, .inl ⟨hp, rfl⟩⟩
      · split
        · next hn => exact ⟨hd, hn, rfl⟩
        · next time hn =>
          split
          · next ht => exact ⟨hd, ⟨time, hn, ht⟩, rfl⟩
          · exact ⟨hd, .inr ⟨rfl, ⟨time, hn⟩, rfl⟩⟩
  | succ n ih =>
    unfold runFor
    dsimp only
    split
    · next hd => exact ⟨n + 1, m.drain, .here, hd, rfl⟩
    · next hd =>
      have hd : isDone m.drain = false := by simpa using hd
      split
      · next hp => exact ⟨n + 1, m.drain, .here, hd, .inl ⟨hp, rfl⟩⟩
      · next hp =>
        split
        · next hn => exact ⟨n + 1, m.drain, .here, hd, hn, rfl⟩
        · next time hn =>
          split
          · next ht => exact ⟨n + 1, m.drain, .here, hd, ⟨time, hn, ht⟩, rfl⟩
          · next ht =>
            obtain ⟨k, r, hr, hs⟩ := ih m.drain.advance.2
            exact ⟨k, r, .later hd (by omega) hn (by omega) hr, hs⟩

end Machine

/-- What the machine is at: no task, or the poll of one whose innermost frame gets a result. -/
inductive Focus
  | idle
  | running (seat : SeatId) (ticket : Ticket) (frames : List ProgramFrame) (result : Completion)

structure Snapshot where
  machine : ProgramMachine
  focus : Focus

/-- What the code of a task gets when its wait is over. -/
def Suspension.handed : Except Interruption Unit → Completion
  | .ok () => .ok ()
  | .error why => why.completion

namespace Snapshot

/-- The machine when the first entry of its ready queue is taken off. -/
def withoutFirst (m : ProgramMachine) (rest : List SeatId) : Dispatcher (Task ProgramFrame) :=
  { m.dispatcher with ready := rest }

inductive Step : Snapshot → Snapshot → Prop
  /-- The task of the entry has ended. -/
  | skip {m id rest d} : m.dispatcher.ready = id :: rest →
      (withoutFirst m rest).checkOut id = (none, d) →
      Step ⟨m, .idle⟩ ⟨{ m with dispatcher := d }, .idle⟩
  /-- The task of the entry cannot go on yet. -/
  | sleepOn {m id rest d ticket task m'} : m.dispatcher.ready = id :: rest →
      (withoutFirst m rest).checkOut id = (some (ticket, task), d) →
      ({ m with dispatcher := d } : ProgramMachine).resumption ticket task.on = (none, m') →
      Step ⟨m, .idle⟩ ⟨{ m' with dispatcher := m'.dispatcher.checkIn id task }, .idle⟩
  | goOn {m id rest d ticket task result m'} : m.dispatcher.ready = id :: rest →
      (withoutFirst m rest).checkOut id = (some (ticket, task), d) →
      ({ m with dispatcher := d } : ProgramMachine).resumption ticket task.on =
        (some result, m') →
      Step ⟨m, .idle⟩ ⟨m', .running id ticket task.frames (Suspension.handed result)⟩
  | code {m id ticket frames result m' frames' result'} :
      Thread.Step ticket ⟨frames, result, m⟩ ⟨frames', result', m'⟩ →
      Step ⟨m, .running id ticket frames result⟩ ⟨m', .running id ticket frames' result'⟩
  | suspend {m id ticket frames result on frames' m'} :
      Thread.Suspends ticket ⟨frames, result, m⟩ on frames' m' →
      Step ⟨m, .running id ticket frames result⟩
        ⟨{ m' with dispatcher := m'.dispatcher.checkIn id ⟨on, frames'⟩ }, .idle⟩
  | finish {m id ticket result} :
      Step ⟨m, .running id ticket [] result⟩
        ⟨{ m with dispatcher := m.dispatcher.finish ticket }, .idle⟩
  | tick {m time} : m.dispatcher.ready = [] → m.timetable.clock.next? = some time →
      Step ⟨m, .idle⟩ ⟨m.advance.2, .idle⟩

abbrev Steps : Snapshot → Snapshot → Prop := Relation.ReflTransGen Step

structure BusyStep (s s' : Snapshot) : Prop where
  step : Step s s'
  ready : s.focus = .idle → s.machine.dispatcher.ready ≠ []

abbrev BusySteps : Snapshot → Snapshot → Prop := Relation.ReflTransGen BusyStep

theorem BusyStep.of_ready {m : ProgramMachine} {s' : Snapshot} {id : SeatId} {rest : List SeatId}
    (hs : Step ⟨m, .idle⟩ s') (h : m.dispatcher.ready = id :: rest) : BusyStep ⟨m, .idle⟩ s' :=
  ⟨hs, fun _ hnil => by cases h.symm.trans hnil⟩

theorem BusyStep.of_running {m : ProgramMachine} {s' : Snapshot} {id : SeatId} {ticket : Ticket}
    {frames : List ProgramFrame} {result : Completion}
    (hs : Step ⟨m, .running id ticket frames result⟩ s') :
    BusyStep ⟨m, .running id ticket frames result⟩ s' :=
  ⟨hs, nofun⟩

theorem BusySteps.steps {s s' : Snapshot} (h : BusySteps s s') : Steps s s' :=
  Relation.ReflTransGen.mono (fun _ _ hs => hs.step) _ _ h

theorem BusySteps.ofThread {id : SeatId} {ticket : Ticket} {th th' : Thread}
    (h : Thread.Steps ticket th th') :
    BusySteps ⟨th.machine, .running id ticket th.frames th.result⟩
      ⟨th'.machine, .running id ticket th'.frames th'.result⟩ := by
  induction h with
  | refl => exact .refl
  | tail _ hstep ih => exact ih.tail (.of_running (.code hstep))

theorem busySteps_unwind (id : SeatId) (ticket : Ticket) (frames : List ProgramFrame)
    (result : Completion) (m : ProgramMachine) :
    BusySteps ⟨m, .running id ticket frames result⟩
      (match FrameCode.unwind ticket frames result m with
        | (.ended _, m) => ⟨{ m with dispatcher := m.dispatcher.finish ticket }, .idle⟩
        | (.suspended on frames, m) =>
          ⟨{ m with dispatcher := m.dispatcher.checkIn id ⟨on, frames⟩ }, .idle⟩) := by
  have h := Thread.reaches_unwind ticket frames result m
  split
  · next r m' heq =>
    rw [heq] at h
    exact (BusySteps.ofThread h).tail (.of_running .finish)
  · next on frames' m' heq =>
    rw [heq] at h
    obtain ⟨last, hlast, hs⟩ := h
    rw [List.append_nil] at hs
    exact (BusySteps.ofThread hlast).tail (.of_running (.suspend hs))

theorem proceed_eq_unwind (ticket : Ticket) (frames : List ProgramFrame)
    (result : Except Interruption Unit) (m : ProgramMachine) :
    FrameCode.proceed ticket frames result m =
      FrameCode.unwind ticket frames (Suspension.handed result) m := by
  cases result <;> rfl

theorem busySteps_runReady {m : ProgramMachine} {id : SeatId} {rest : List SeatId}
    (h : m.dispatcher.ready = id :: rest) : BusySteps ⟨m, .idle⟩ ⟨m.runReady id rest, .idle⟩ := by
  unfold Machine.runReady
  split
  · next d hout => exact .single (.of_ready (.skip h hout) h)
  · next ticket task d hout =>
    match hres : ({ m with dispatcher := d } : ProgramMachine).resumption ticket task.on with
    | (none, m') =>
      simp only [FrameCode.poll, hres]
      exact .single (.of_ready (.sleepOn h hout hres) h)
    | (some result, m') =>
      have hgo := BusyStep.of_ready (.goOn h hout hres) h
      have hrun := busySteps_unwind id ticket task.frames (Suspension.handed result) m'
      simp only [FrameCode.poll, hres, proceed_eq_unwind]
      refine .head hgo ?_
      match hu : FrameCode.unwind ticket task.frames (Suspension.handed result) m' with
      | (.ended r, m'') => simpa only [hu] using hrun
      | (.suspended on frames, m'') => simpa only [hu] using hrun

theorem busySteps_drain (m : ProgramMachine) : BusySteps ⟨m, .idle⟩ ⟨m.drain, .idle⟩ := by
  fun_induction Machine.drain m with
  | case1 m h => exact .refl
  | case2 m id rest h _ ih => exact (busySteps_runReady h).trans ih

theorem steps_drain (m : ProgramMachine) : Steps ⟨m, .idle⟩ ⟨m.drain, .idle⟩ :=
  (busySteps_drain m).steps

theorem steps_restsAt {limits : Limits} {isDone : ProgramMachine → Bool} {n k : Nat}
    {m r : ProgramMachine} (h : Machine.RestsAt limits isDone n m k r) :
    Steps ⟨m, .idle⟩ ⟨r, .idle⟩ := by
  induction h with
  | here => exact steps_drain _
  | later _ _ hnext _ _ ih =>
    exact ((steps_drain _).tail (.tick (Machine.ready_drain _) hnext)).trans ih

end Snapshot

namespace Statement

def initial (t : Statement) : Snapshot := ⟨t.loaded, .idle⟩

def Reaches (t : Statement) (s : Snapshot) : Prop := Snapshot.Steps t.initial s

/-- The machines at which the ready queue of a run has just become empty. -/
def RestsAt (t : Statement) (limits : Limits) (r : ProgramMachine) : Prop :=
  ∃ k, Machine.RestsAt limits hasEnded limits.maxTimeslices t.loaded k r

theorem RestsAt.reaches {t : Statement} {limits : Limits} {r : ProgramMachine}
    (h : t.RestsAt limits r) : t.Reaches ⟨r, .idle⟩ :=
  let ⟨_, h⟩ := h
  Snapshot.steps_restsAt h

theorem RestsAt.ready {t : Statement} {limits : Limits} {r : ProgramMachine}
    (h : t.RestsAt limits r) : r.dispatcher.ready = [] :=
  let ⟨_, h⟩ := h
  h.ready

end Statement

end RacePuzzle
