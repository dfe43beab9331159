import RacePuzzle.Proofs.Evaluation.Conduct
import RacePuzzle.Proofs.Machine.Turns

/-! What the code of programs does to the tasks of a machine: it starts new ones and wakes old ones. -/
namespace RacePuzzle

theorem Dispatcher.stirs_wakeAll {τ : Type} (d : Dispatcher τ) (tickets : List Ticket) :
    d.Stirs (d.wakeAll tickets) := by
  induction tickets generalizing d with
  | nil => exact .refl
  | cons i rest ih => exact .head (.wake i) (ih (d.wake i))

/-- Whoever is woken or started queues up behind those who stand in the queue already. -/
theorem Dispatcher.Stirs.ready {τ : Type} {d d' : Dispatcher τ} (h : d.Stirs d') :
    ∃ later, d'.ready = d.ready ++ later := by
  induction h with
  | refl => exact ⟨[], (List.append_nil _).symm⟩
  | @tail d' _ _ hstir ih =>
    obtain ⟨later, hready⟩ := ih
    cases hstir with
    | spawn task => exact ⟨later ++ [d'.seats.size], by simp [Dispatcher.spawn, hready]⟩
    | wake i =>
      unfold Dispatcher.wake
      split
      · exact ⟨later, hready⟩
      · next entry _ =>
        split
        · exact ⟨later, hready⟩
        · exact ⟨later ++ [entry.task], by simp [hready]⟩

theorem Dispatcher.Stirs.task? {τ : Type} {d d' : Dispatcher τ} (h : d.Stirs d') {i : SeatId} {task : τ}
    (hi : d.task? i = some task) : d'.task? i = some task := by
  induction h with
  | refl => exact hi
  | tail _ hstir ih =>
    cases hstir with
    | spawn new => rw [Dispatcher.task?_spawn, if_neg (Nat.ne_of_lt (Dispatcher.lt_of_task? ih)), ih]
    | wake j => exact (Dispatcher.task?_of_seats (Dispatcher.seats_wake ..) i).trans ih

/-- A turn takes the first entry off the queue. Others join it at its end, and who is not polled stays. -/
theorem FrameCode.OnlyStirs.turn {ε φ : Type} [FrameCode ε φ] (h : OnlyStirs ε φ) {m : FrameMachine ε φ}
    (hm : m.dispatcher.Aligned) {id : SeatId} {rest : List SeatId} (hready : m.dispatcher.ready = id :: rest) :
    (∃ later, m.turn.dispatcher.ready = rest ++ later) ∧
      ∀ {i task}, i ≠ id → m.dispatcher.task? i = some task → m.turn.dispatcher.task? i = some task := by
  rw [Machine.turn_of_cons hready, Machine.runReady]
  split
  · next d hout =>
    obtain ⟨hoff, -, hseats, -⟩ := Dispatcher.checkOut_none hm hready hout
    exact ⟨⟨[], hoff.ready.trans (List.append_nil _).symm⟩,
      fun _ hi => (Dispatcher.task?_of_seats hseats _).trans hi⟩
  · next ticket task d hout =>
    obtain ⟨hoff, rfl, -, hothers, -⟩ := Dispatcher.checkOut_some hm hready hout
    have hstirs := h.poll ticket task { m with dispatcher := d }
    obtain ⟨later, hlater⟩ := hstirs.ready
    rw [hoff.ready] at hlater
    have hstays {i : SeatId} {task : Task φ} (hne : i ≠ ticket) (hi : m.dispatcher.task? i = some task) :=
      hstirs.task? ((hothers i).trans ((if_neg hne).trans hi))
    split
    · next m' heq =>
      rw [heq] at hlater
      simp only [heq] at hstays
      exact ⟨⟨later, hlater⟩, fun hne hi => (Dispatcher.task?_of_seats (Dispatcher.seats_finish ..) _).trans
        (hstays hne hi)⟩
    · next left m' heq =>
      rw [heq] at hlater
      simp only [heq] at hstays
      exact ⟨⟨later, (Dispatcher.ready_checkIn ..).trans hlater⟩, fun hne hi =>
        (Dispatcher.task?_checkIn_of_ne hne left).trans (hstays hne hi)⟩

/-- What is done to a machine starts tasks and wakes them, and nothing else happens to its dispatcher. -/
theorem Machine.elementary_stirs (ε τ : Type) :
    Machine.Elementary fun m m' : Machine ε τ => m.dispatcher.Stirs m'.dispatcher where
  refl _ := .refl
  trans := .trans
  env _ _ := .refl
  jobs _ _ := .refl
  newSignal _ := .refl
  spawn _ task := .single (.spawn task)
  wakeAll m tickets := m.dispatcher.stirs_wakeAll tickets
  interrupt m _ := m.dispatcher.stirs_wakeAll _
  fire m s := by
    unfold Machine.fire
    split
    · exact m.dispatcher.stirs_wakeAll _
    · exact .refl
  beginDelay m ticket j duration := by
    unfold Machine.beginDelay
    split
    · exact .single (.wake ticket)
    · exact .refl
  beginSignalWait _ _ _ _ := .refl

theorem ProgramFrame.onlyStirs : FrameCode.OnlyStirs ProgramEnv ProgramFrame where
  resume ticket frame result m :=
    (Machine.elementary_stirs ..).reaches (Thread.reaches_resume ticket frame [] result m)
  interrupted _ _ := .refl

open TaskHistory in
/-- However tasks are started, woken, polled and ended, a dispatcher serves them in the order in which they
were woken, each once for all wake-ups before its poll; and where the polling of a machine comes to rest, nobody
is left who was woken since the last poll. -/
theorem tasks_polled_as_woken :
    (∀ {τ : Type} {past : List (TaskEvent τ)} {d : Dispatcher τ} {polled : Option (SeatId × Ticket)},
      Dispatcher.Runs past d polled → Dispatcher.Served past d) ∧
    ∀ {ε φ : Type} [FrameCode ε φ] {past : List (TaskEvent (Task φ))} {m : FrameMachine ε φ},
      FrameCode.OnlyStirs ε φ → Dispatcher.Runs past m.dispatcher none →
        ∃ events : List (TaskEvent (Task φ)), .endedAll ∉ events ∧
          Dispatcher.Runs (events ++ past) m.drain.dispatcher none ∧
          ∀ i, isUnfinished i (events ++ past) = true → waitingSince? i (events ++ past) = none := by
  refine ⟨fun h => h.served, fun {ε φ} _ {past m} hcode hm => ?_⟩
  obtain ⟨events, hevents, hdrain⟩ := hcode.drain hm
  exact ⟨events, hevents, hdrain, fun i hi => hdrain.waitingSince?_eq_none (Machine.ready_drain m) hi⟩

/-- A task whose seat was another's, which has been woken in vain. -/
def secondGuest : Dispatcher Nat := ((Dispatcher.empty.spawn 7).endAll.spawn 8).wake 0

def Statement.begunWith (t : Statement) : List (TaskEvent (Task ProgramFrame)) :=
  [.spawned 0 ⟨.entry 0, [.rest 0 [t], .program]⟩]

theorem Statement.runs_loaded (t : Statement) : Dispatcher.Runs t.begunWith t.loaded.dispatcher none :=
  Dispatcher.Runs.empty.spawn _

open TaskHistory in
/-- The task in the seat has its turn, whoever sat there before; and a task that delays waits for no turn. -/
theorem secondGuest_polled :
    (∃ d, ({ secondGuest with ready := [] } : Dispatcher Nat).checkOut 0 = (some (1, 8), d) ∧
      Dispatcher.Served [.began 1 8, .woken 0, .spawned 1 8, .endedAll, .spawned 0 7] d) ∧
    ∃ events : List (TaskEvent (Task ProgramFrame)), .endedAll ∉ events ∧
      Dispatcher.Runs (events ++ (Statement.leaf 1 (.delay 3)).begunWith)
        (Statement.leaf 1 (.delay 3)).loaded.drain.dispatcher none ∧
      ∀ i, isUnfinished i (events ++ (Statement.leaf 1 (.delay 3)).begunWith) = true →
        waitingSince? i (events ++ (Statement.leaf 1 (.delay 3)).begunWith) = none := by
  have hwoken : Dispatcher.Runs [.woken 0, .spawned 1 8, .endedAll, .spawned 0 7] secondGuest none :=
    ((Dispatcher.Runs.empty.spawn 7).endAll.spawn 8).wake (by decide)
  have hready : secondGuest.ready = [0] := rfl
  exact ⟨⟨_, rfl, tasks_polled_as_woken.1 (hwoken.began hready rfl)⟩,
    tasks_polled_as_woken.2 ProgramFrame.onlyStirs (Statement.runs_loaded _)⟩

end RacePuzzle
