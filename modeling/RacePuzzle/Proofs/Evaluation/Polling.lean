import RacePuzzle.Proofs.Evaluation.Upkeep

/-! What the polling of tasks upholds: an entry of the ready queue is taken off, and a task goes on,
sleeps on, is suspended or comes to its end. -/
namespace RacePuzzle

open Interpreter

variable {t : Statement} {L : Ledger} {m m' : ProgramMachine}
  {d : Dispatcher (Task ProgramFrame)}

theorem Machine.Sound.dispatch (h : m.Sound) (ha : d.Aligned) :
    ({ m with dispatcher := d } : ProgramMachine).Sound where
  tree := h.tree.congr (fun _ => rfl) rfl
  cancelled := h.cancelled.congr fun _ => rfl
  orderly := h.orderly.congr rfl rfl ha

theorem Machine.Waits.dispatch {i : SeatId} {on : Suspension}
    (hq : m.dispatcher.isQueued i = true → d.isQueued i = true) (h : m.Waits i on) :
    ({ m with dispatcher := d } : ProgramMachine).Waits i on := by
  cases on with
  | entry j => exact hq h
  | wait j k w => exact h.imp (fun h => ⟨h.1, hq h.2⟩) fun h => ⟨h.pending, h.listed⟩
  | children j =>
    obtain ⟨job, hj, h⟩ := h
    exact ⟨job, hj, h.imp (fun h => ⟨h.1, hq h.2⟩) fun h => h⟩
  | turn => exact h

theorem Machine.Heeds.dispatch {w : WaitId} {source : Option SignalId} (h : m.Heeds w source) :
    ({ m with dispatcher := d } : ProgramMachine).Heeds w source :=
  ⟨h.lt, h.done, h.only, h.untimed⟩

theorem Kept.dispatch (h : Kept m m') : Kept m { m' with dispatcher := d } :=
  ⟨h.cancelled, h.fired, h.bond, h.trace⟩

theorem Rests.dispatch {on : Suspension} {frames : List ProgramFrame} (h : Rests t L m on frames) :
    Rests t L { m with dispatcher := d } on frames := by
  cases h with
  | entry hout h => exact .entry hout h
  | children h => exact .children h
  | wait h hn =>
    refine .wait h ?_
    cases hn with
    | delay hmem hw => exact .delay hmem hw.dispatch
    | join hmem hlog hs hw => exact .join hmem hlog hs hw.dispatch
    | await hmem hlog hs hw => exact .await hmem hlog hs hw.dispatch

theorem Ready.dispatch {result : Completion} {frames : List ProgramFrame}
    (h : Ready t L m result frames) : Ready t L { m with dispatcher := d } result frames := by
  cases h with
  | runs h => exact .runs h
  | failing hout h => exact .failing hout h
  | settling h hb hc => exact .settling h hb hc

namespace Snapshot.Upheld

/-- Another dispatcher in which no task is new. -/
theorem redispatch {f f' : Focus} (h : Upheld t L ⟨m, f⟩) (ha : d.Aligned)
    (htask : ∀ {i task}, d.task? i = some task → m.dispatcher.task? i = some task ∧
      d.hasFinished i = m.dispatcher.hasFinished i ∧
      ({ m with dispatcher := d } : ProgramMachine).Waits i task.on)
    (hpolled : ∀ {seat ticket frames result}, f' = .running seat ticket frames result →
      Polled t L { m with dispatcher := d } seat ticket frames result)
    (hopened : ∀ j, Snapshot.opened j ⟨{ m with dispatcher := d }, f'⟩ = Snapshot.opened j ⟨m, f⟩)
    (hgone : ∀ {i}, i < d.seats.size → d.task? i = none → d.hasFinished i = true ∨
      ∃ ticket frames result, f' = .running i ticket frames result) :
    Upheld t L ⟨{ m with dispatcher := d }, f'⟩ where
  sound := h.sound.dispatch ha
  ledger := h.ledger.congr fun _ => rfl
  background := h.background
  handles := h.handles
  seated hi := by
    obtain ⟨hold, hf, hw⟩ := htask hi
    have hseated := h.seated hold
    exact ⟨hf.trans hseated.unfinished, hw, hseated.rests.dispatch⟩
  numbers hi hi' := h.numbers (htask hi).1 (htask hi').1
  numbered hi := h.numbered (htask hi).1
  polled := hpolled
  opened j := by
    rw [hopened j]
    exact h.opened j
  gone := hgone

section TakenOff

variable {id : SeatId} {rest : List SeatId}

/-- The tasks of the other seats wait as before. -/
theorem waits_takenOff (hd : Dispatcher.TakenOff id rest m.dispatcher d) {i : SeatId} (hi : i ≠ id)
    {on : Suspension} (h : m.Waits i on) :
    ({ m with dispatcher := d } : ProgramMachine).Waits i on :=
  h.dispatch fun hq => (hd.queued i hi).trans hq

/-- An entry is left over from a task that has ended. -/
theorem skip (h : Upheld t L ⟨m, .idle⟩) (hr : m.dispatcher.ready = id :: rest)
    (hout : (withoutFirst m rest).checkOut id = (none, d)) :
    Upheld t L ⟨{ m with dispatcher := d }, .idle⟩ := by
  obtain ⟨hd, hnone, hseats, -⟩ := Dispatcher.checkOut_none h.sound.orderly.aligned hr hout
  refine h.redispatch hd.aligned (fun {i task} hi => ?_) (fun hf => absurd hf (by simp))
    (fun j => congrArg (· + 0) (Machine.work_congr _ hseats)) fun {i} hlt hi => ?_
  · have hold := (Dispatcher.task?_of_seats hseats i).symm.trans hi
    have hne : i ≠ id := by
      rintro rfl
      exact absurd (hnone.symm.trans hold) (by simp)
    exact ⟨hold, hd.finished i, waits_takenOff hd hne (h.seated hold).waits⟩
  · rcases h.gone (hd.size ▸ hlt) ((Dispatcher.task?_of_seats hseats i).symm.trans hi) with hf | hf
    · exact .inl ((hd.finished i).trans hf)
    · obtain ⟨_, _, _, hf⟩ := hf
      cases hf

/-- A task is taken out of its seat to go on. -/
theorem checkOut (h : Upheld t L ⟨m, .idle⟩) (hr : m.dispatcher.ready = id :: rest)
    {ticket : Ticket} {task : Task ProgramFrame}
    (hout : (withoutFirst m rest).checkOut id = (some (ticket, task), d)) {result : Completion}
    (hready : Ready t L m result task.frames) :
    Upheld t L ⟨{ m with dispatcher := d }, .running id ticket task.frames result⟩ := by
  obtain ⟨hd, rfl, htask, hothers, -⟩ := Dispatcher.checkOut_some h.sound.orderly.aligned hr hout
  refine h.redispatch hd.aligned (fun {i task'} hi => ?_) (fun {seat ticket' frames r} hf => ?_)
    (fun j => ?_) fun {i} hlt hi => ?_
  · have hi := (hothers i).symm.trans hi
    split at hi
    · cases hi
    · next hne => exact ⟨hi, hd.finished i, waits_takenOff hd hne (h.seated hi).waits⟩
  · cases hf
    refine ⟨rfl, hd.size ▸ Dispatcher.lt_of_task? htask, (hothers _).trans (if_pos rfl),
      (hd.finished _).trans (h.seated htask).unfinished, ?_⟩
    exact hready.dispatch
  · have hwork := Dispatcher.work_checkOut (fun task => RacePuzzle.opened j task.frames) hout
    exact hwork
  · by_cases hne : i = ticket
    · exact .inr ⟨_, _, _, by rw [hne]⟩
    · have hi := (hothers i).symm.trans hi
      rw [if_neg hne] at hi
      rcases h.gone (hd.size ▸ hlt) hi with hf | ⟨_, _, _, hf⟩
      · exact .inl ((hd.finished i).trans hf)
      · cases hf

/-- A task that cannot go on yet stays as it is, without its entry in the queue. -/
theorem sleepOn (h : Upheld t L ⟨m, .idle⟩) (hr : m.dispatcher.ready = id :: rest)
    {ticket : Ticket} {task : Task ProgramFrame}
    (hout : (withoutFirst m rest).checkOut id = (some (ticket, task), d))
    (hwaits : ({ m with dispatcher := d } : ProgramMachine).Waits id task.on) :
    Upheld t L ⟨{ m with dispatcher := d.checkIn id task }, .idle⟩ := by
  obtain ⟨hd, rfl, htask, hothers, -⟩ := Dispatcher.checkOut_some h.sound.orderly.aligned hr hout
  have hlt : ticket < d.seats.size := hd.size ▸ Dispatcher.lt_of_task? htask
  have hsame := Dispatcher.task?_checkIn_of_checkOut h.sound.orderly.aligned hr hout
  have hfinished : ∀ i, (d.checkIn ticket task).hasFinished i = m.dispatcher.hasFinished i := by
    intro i
    rw [Dispatcher.hasFinished, Dispatcher.tickets_checkIn]
    exact hd.finished i
  have hqueued : ∀ {i on}, ({ m with dispatcher := d } : ProgramMachine).Waits i on →
      ({ m with dispatcher := d.checkIn ticket task } : ProgramMachine).Waits i on := by
    intro i on hw
    refine Machine.Waits.dispatch (m := { m with dispatcher := d }) (fun hq => ?_) hw
    rw [Dispatcher.isQueued, Dispatcher.tickets_checkIn]
    exact hq
  refine h.redispatch (Dispatcher.aligned_checkIn hd.aligned _ _) (fun {i task'} hi => ?_)
    (fun hf => absurd hf (by simp)) (fun j => ?_) fun {i} hlt' hi => ?_
  · have hold := (hsame i).symm.trans hi
    refine ⟨hold, hfinished i, hqueued ?_⟩
    by_cases hne : i = ticket
    · subst hne
      obtain rfl := Option.some.inj (htask.symm.trans hold)
      exact hwaits
    · exact waits_takenOff hd hne (h.seated hold).waits
  · have hin := Dispatcher.work_checkIn (fun task => RacePuzzle.opened j task.frames) hlt
      ((hothers ticket).trans (if_pos rfl)) task
    have hout := Dispatcher.work_checkOut (fun task => RacePuzzle.opened j task.frames) hout
    exact congrArg (· + 0) (hin.trans hout)
  · rw [Dispatcher.size_seats_checkIn] at hlt'
    rcases h.gone (hd.size ▸ hlt') ((hsame i).symm.trans hi) with hf | ⟨_, _, _, hf⟩
    · exact .inl ((hfinished i).trans hf)
    · cases hf

end TakenOff

section Running

variable {seat : SeatId} {ticket : Ticket} {frames : List ProgramFrame} {result : Completion}

/-- A task at its end is not polled again. -/
theorem finish (h : Upheld t L ⟨m, .running seat ticket [] result⟩) :
    Upheld t L ⟨{ m with dispatcher := m.dispatcher.finish ticket }, .idle⟩ := by
  have hp := h.polled rfl
  have ha := h.sound.orderly.aligned
  have hlt : ticket < m.dispatcher.tickets.size := by
    rw [hp.ticket_eq]
    exact Nat.lt_of_lt_of_eq hp.lt ha.size.symm
  refine h.redispatch (Dispatcher.aligned_finish ha ticket) (fun {i task} hi => ?_)
    (fun hf => absurd hf (by simp)) (fun j => rfl) fun {i} hi hnone => ?_
  · have hi : m.dispatcher.task? i = some task := hi
    have hne : i ≠ ticket := by
      rw [hp.ticket_eq]
      rintro rfl
      exact absurd (hp.out.symm.trans hi) (by simp)
    refine ⟨hi, ?_, (h.seated hi).waits.dispatch fun hq => (Dispatcher.isQueued_finish ..).trans hq⟩
    rw [Dispatcher.hasFinished_finish hlt]
    simp [hne]
  · rw [Dispatcher.hasFinished_finish hlt]
    rcases h.gone hi hnone with hf | ⟨_, _, _, hf⟩
    · exact .inl (by simp [hf])
    · cases hf
      exact .inl (by simp [hp.ticket_eq])

/-- A task is suspended. The number of its wait is its own. -/
theorem checkIn (h : Upheld t L ⟨m, .running seat ticket frames result⟩) {on : Suspension}
    {frames' : List ProgramFrame} (hwaits : m.Waits seat on) (hrests : Rests t L m on frames')
    (hnumber : ∀ {j k w}, on = .wait j k w → k < m.timetable.clock.nextSeq ∧
      ∀ {i task j' w'}, m.dispatcher.task? i = some task → task.on ≠ .wait j' k w')
    (hopened : ∀ j, RacePuzzle.opened j frames' = RacePuzzle.opened j frames) :
    Upheld t L ⟨{ m with dispatcher := m.dispatcher.checkIn seat ⟨on, frames'⟩ }, .idle⟩ := by
  have hp := h.polled rfl
  have ha := h.sound.orderly.aligned
  have htask : ∀ i, (m.dispatcher.checkIn seat ⟨on, frames'⟩).task? i =
      if i = seat then some ⟨on, frames'⟩ else m.dispatcher.task? i :=
    Dispatcher.task?_checkIn hp.lt _
  have hfinished : ∀ i, (m.dispatcher.checkIn seat ⟨on, frames'⟩).hasFinished i =
      m.dispatcher.hasFinished i := by
    intro i
    rw [Dispatcher.hasFinished, Dispatcher.tickets_checkIn]
    rfl
  have hqueued : ∀ {i on'}, m.Waits i on' →
      ({ m with dispatcher := m.dispatcher.checkIn seat ⟨on, frames'⟩ } :
        ProgramMachine).Waits i on' := by
    intro i on' hw
    refine hw.dispatch fun hq => ?_
    rw [Dispatcher.isQueued, Dispatcher.tickets_checkIn]
    exact hq
  refine ⟨h.sound.dispatch (Dispatcher.aligned_checkIn ha _ _), h.ledger.congr fun _ => rfl,
    h.background, h.handles, fun {i task} hi => ?_,
    fun {i i' task task' j j' k w w'} hi hi' hon hon' => ?_, fun {i task j k w} hi hon => ?_,
    fun hf => absurd hf (by simp), fun j => ?_, fun {i} hi hnone => ?_⟩
  · have hold := (htask i).symm.trans hi
    split at hold
    · next he =>
      obtain rfl := Option.some.inj hold
      exact ⟨(hfinished i).trans (he ▸ hp.unfinished), hqueued (he ▸ hwaits), hrests.dispatch⟩
    · have hseated := h.seated hold
      exact ⟨(hfinished i).trans hseated.unfinished, hqueued hseated.waits, hseated.rests.dispatch⟩
  · have hi := (htask i).symm.trans hi
    have hi' := (htask i').symm.trans hi'
    split at hi <;> split at hi'
    · next he he' => exact he.trans he'.symm
    · obtain rfl := Option.some.inj hi
      exact absurd hon' ((hnumber hon).2 hi')
    · obtain rfl := Option.some.inj hi'
      exact absurd hon ((hnumber hon').2 hi)
    · exact h.numbers hi hi' hon hon'
  · have hi := (htask i).symm.trans hi
    split at hi
    · obtain rfl := Option.some.inj hi
      exact (hnumber hon).1
    · exact h.numbered hi hon
  · have hin := Dispatcher.work_checkIn (fun task => RacePuzzle.opened j task.frames) hp.lt hp.out
      ⟨on, frames'⟩
    have heq : Snapshot.opened j
        ⟨{ m with dispatcher := m.dispatcher.checkIn seat ⟨on, frames'⟩ }, .idle⟩ =
        Snapshot.opened j ⟨m, .running seat ticket frames result⟩ := by
      rw [opened_running, ← hopened]
      exact congrArg (· + 0) hin
    rw [heq]
    exact h.opened j
  · have hnone := (htask i).symm.trans hnone
    split at hnone
    · cases hnone
    · next hne =>
      rw [hfinished]
      rcases h.gone (by simpa using hi) hnone with hf | ⟨_, _, _, hf⟩
      · exact .inl hf
      · cases hf
        exact absurd rfl hne

end Running

end Snapshot.Upheld

end RacePuzzle
