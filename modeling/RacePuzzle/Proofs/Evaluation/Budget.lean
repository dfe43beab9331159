import RacePuzzle.Proofs.Evaluation.Tariff
import RacePuzzle.Proofs.Machine.Budget

/-! What a run costs its machine. The polls, the time and the timers that a step uses up are covered
by its price. -/
namespace RacePuzzle

open Interpreter

def Action.delay? : Action → Option Nat
  | .delay time => some time
  | _ => none

def Statement.delay? : Statement → Option Nat
  | .leaf _ action => action.delay?
  | .block .. => none

namespace Tariff

/-- Wake-ups: a leaf may suspend its task, a task is woken to begin, and a job may wait for its
children at its end. -/
def wakeups : Tariff where
  entry
    | .leaf _ action => action.work
    | .block _ .launch _ | .block _ .scopeLaunch _ | .block _ (.launchJob _) _
    | .block _ (.async _ _) _ => 1
    | .block .. => 0
  leave _ := 0
  exit := 1

def delayTimes : Tariff where
  entry s := s.delay?.getD 0
  leave _ := 0
  exit := 0

def delaysOf (time : Nat) : Tariff where
  entry s := if s.delay? = some time then 1 else 0
  leave _ := 0
  exit := 0

def delays : Tariff where
  entry s := s.delay?.toList.length
  leave _ := 0
  exit := 0

end Tariff

variable {m m' : ProgramMachine}

theorem spends_record (id : StatementId) (mark : Mark) (m : ProgramMachine) :
    Machine.Spends 0 none m (record id mark m) :=
  Machine.spends_updateEnv m _

theorem spends_print (id : StatementId) (value : String) (m : ProgramMachine) :
    Machine.Spends 0 none m (print id value m) := by
  unfold print
  split
  · exact spends_record id _ m
  · exact .refl m

theorem spends_printResult (id : StatementId) (j : JobId) (text : String) (m : ProgramMachine) :
    Machine.Spends 0 none m (printResult id j text m).2 := by
  unfold printResult
  dsimp only
  split
  · exact (spends_record id _ m).after (spends_print id text _)
  · exact spends_record id _ m

theorem spends_catchException (id : StatementId) (kind : ExceptionKind) (result : Completion)
    (m : ProgramMachine) : Machine.Spends 0 none m (catchException id kind result m).2 := by
  unfold catchException
  split
  · exact .refl m
  · split
    · exact spends_print id _ m
    · exact .refl m

theorem spends_endProgram (result : Completion) (m : ProgramMachine) :
    Machine.Spends 0 none m (endProgram result m) :=
  (Machine.spends_cancel m _).after (Machine.spends_updateEnv _ _)

theorem spends_afterWait {n : Nat} {delay : Option Nat} {frames : List ProgramFrame}
    {k : ProgramMachine → ProgramReached} {r : WaitStart × ProgramMachine}
    (hr : Machine.Spends n delay m r.2) (hk : ∀ m, Machine.Spends 0 none m (k m).2) :
    Machine.Spends n delay m (afterWait frames k r).2 := by
  obtain ⟨start, m₁⟩ := r
  cases start with
  | through => exact hr.andThen (hk m₁)
  | refused why => exact hr
  | suspended on => exact hr

theorem spends_performAction (ticket : Ticket) (j : JobId) (id : StatementId) (action : Action)
    (m : ProgramMachine) :
    Machine.Spends action.work action.delay? m (performAction ticket j id action m).2 := by
  have hdone : ∀ m : ProgramMachine, Machine.Spends 0 none m (Reached.done m).2 := .refl
  have hrefer : ∀ var, Machine.Spends 0 none m (refer id var m).2 := fun var => spends_record ..
  have hperforms := performs_performAction ticket j id action m
  generalize performAction ticket j id action m = r at hperforms ⊢
  cases hperforms with
  | delay => exact spends_afterWait (Machine.spends_beginDelay m ticket j _) hdone
  | print => exact spends_print id _ m
  | throwException => exact .refl m
  | job =>
    exact (Machine.spends_newSignal m).after ((Machine.spends_updateEnv _ _).after (spends_record ..))
  | joinNothing _ | awaitNothing _ _ => exact (hrefer _).weaken (Nat.zero_le _)
  | join _ _ => exact (hrefer _).after (spends_afterWait (Machine.spends_beginJoin ..) hdone)
  | cancelNothing _ | completeNothing _ => exact hrefer _
  | cancel _ _ => exact (hrefer _).after (Machine.spends_cancel ..)
  | cancelBare _ | completeJob _ => exact (hrefer _).after (Machine.spends_fire ..)
  | await _ _ =>
    exact (hrefer _).after (spends_afterWait (Machine.spends_beginAwait ..) fun m =>
      spends_printResult ..)
  | printText _ => exact (hrefer _).after ((spends_print ..).weaken (Nat.zero_le _))

namespace Snapshot

def delay? (s : Snapshot) : Option Nat :=
  match s.focus with
  | .running _ _ (.rest _ (st :: _) :: _) (.ok ()) => st.delay?
  | _ => none

theorem price_of_delay? {s : Snapshot} {time : Nat} (h : s.delay? = some time) :
    s.price .delayTimes = time ∧ s.price (.delaysOf time) = 1 := by
  obtain ⟨m, focus⟩ := s
  unfold delay? at h
  split at h
  · next hf =>
    obtain rfl : focus = _ := hf
    simp [price, Tariff.price, Tariff.delayTimes, Tariff.delaysOf, h]
  · cases h

/-- The machine pays the price of a step, and no time goes by. -/
structure Pays (s s' : Snapshot) : Prop where
  polls : s'.machine.dispatcher.polls + s'.machine.wakeups ≤
    s.machine.dispatcher.polls + s.machine.wakeups + s.price .wakeups
  now : s'.machine.now = s.machine.now
  timers : ∀ {k timer}, s'.machine.timetable.timer? k = some timer →
    s.machine.timetable.timer? k = some timer ∨
      ∃ time ∈ s.delay?, timer.deadline = min (s.machine.now + time) Machine.maxTime
  live : s'.machine.timetable.liveTimers ≤
    s.machine.timetable.liveTimers + s.price .delays

theorem Pays.ofSpends {s s' : Snapshot} {n : Nat} {delay : Option Nat}
    (h : Machine.Spends n delay s.machine s'.machine) (hn : n ≤ s.price .wakeups)
    (htime : ∀ time ∈ delay, time ∈ s.delay?)
    (hone : delay.toList.length ≤ s.price .delays) : Pays s s' := by
  refine ⟨?_, h.now, fun ht => ?_, ?_⟩
  · have := h.polls
    have := h.wakeups
    omega
  · rcases h.timers ht with ht | ⟨time, hd, he⟩
    · exact .inl ht
    · exact .inr ⟨time, htime time hd, he⟩
  · exact Nat.le_trans h.live (Nat.add_le_add_left hone _)

theorem Pays.ofFree {s s' : Snapshot} (h : Machine.Spends 0 none s.machine s'.machine) :
    Pays s s' :=
  .ofSpends h (Nat.zero_le _) (by simp) (by simp)

section Code

variable {seat : SeatId} {ticket : Ticket} {frames frames' : List ProgramFrame}
  {result result' : Completion}

theorem spends_launch (parent : JobId) (inner : List Statement) (m : ProgramMachine) :
    Machine.Spends 1 none m (launch parent inner m).2 :=
  (Machine.spends_child m parent .task).trans (Machine.spends_spawn _ _)

theorem spends_bind (id : StatementId) (var : String) (handle : Referent) (m : ProgramMachine) :
    Machine.Spends 0 none m (bind id var handle m) :=
  (Machine.spends_updateEnv m _).after (spends_record id _ _)

theorem spends_enter (j : JobId) (id : StatementId) (head : Head) (inner : List Statement)
    (m : ProgramMachine) :
    Machine.Spends (Tariff.wakeups.entry (.block id head inner)) none m (enter j id head inner m).2 := by
  cases head with
  | launch => exact spends_launch j inner m
  | scopeLaunch => exact spends_launch _ inner m
  | launchJob var => exact (spends_launch j inner m).andThen (spends_bind ..)
  | async var text => exact (spends_launch j inner m).andThen (spends_bind ..)
  | coroutineScope => exact Machine.spends_child ..
  | supervisorScope => exact Machine.spends_child ..
  | tryCatch kind => exact .refl m

theorem spends_close (ticket : Ticket) (j : JobId) (result : Completion) (m : ProgramMachine) :
    Machine.Spends 1 none m (Interpreter.close ticket j result m).2 := by
  have h := Machine.spends_close m ticket j result
  unfold Interpreter.close Reached.afterClose
  split
  · next he =>
    rw [he] at h
    exact h
  · next he =>
    rw [he] at h
    exact h

/-- An action that begins may set a timer, and pays for its wake-ups. -/
theorem Pays.ofAct {j : JobId} {id : StatementId} {action : Action} {body : List Statement}
    {outer : List ProgramFrame} {s' : Snapshot}
    (h : Machine.Spends action.work action.delay? m s'.machine) :
    Pays ⟨m, .running seat ticket (.rest j (.leaf id action :: body) :: outer) (.ok ())⟩ s' := by
  refine .ofSpends h (Nat.le_refl _) (fun time htime => htime) ?_
  cases action <;> simp [Action.delay?, Statement.delay?, price, Tariff.price, Tariff.delays]

theorem Pays.ofClose {j : JobId} {outer : List ProgramFrame} {s' : Snapshot}
    (h : Machine.Spends 1 none m s'.machine) :
    Pays ⟨m, .running seat ticket (.close j :: outer) result⟩ s' :=
  .ofSpends h (Nat.le_refl 1) (by simp) (by simp)

theorem pays_code (hs : Thread.Step ticket ⟨frames, result, m⟩ ⟨frames', result', m'⟩) :
    Pays ⟨m, .running seat ticket frames result⟩ ⟨m', .running seat ticket frames' result'⟩ := by
  cases hs with
  | pass _ => exact .ofFree (.refl m)
  | bodyEnd => exact .ofFree (.refl m)
  | @act j id action body outer _ _ _ he =>
    have hacts := spends_performAction ticket j id action (record id .began m)
    rw [he] at hacts
    exact .ofAct ((spends_record id .began m).after hacts)
  | @enter j id head inner body outer _ =>
    refine .ofSpends ((spends_record id .began m).trans (spends_enter ..)) ?_ (by simp) (by simp)
    exact Nat.le_of_eq (Nat.zero_add _)
  | leave => exact .ofFree (spends_record ..)
  | @catching id kind _ _ _ _ _ he =>
    have h := spends_catchException id kind result m
    rw [he] at h
    exact .ofFree h
  | @close j _ _ _ _ _ he =>
    have h := spends_close ticket j result m
    rw [he] at h
    exact .ofClose h
  | settle => exact .ofFree (Machine.spends_settle ..)
  | @awaited id j text _ _ _ _ he =>
    have h := spends_printResult id j text m
    rw [he] at h
    exact .ofFree h
  | program => exact .ofFree (spends_endProgram ..)

theorem spends_dispatcher {d : Dispatcher (Task ProgramFrame)}
    (hp : d.polls = m.dispatcher.polls) (hr : d.ready = m.dispatcher.ready) :
    Machine.Spends 0 none m { m with dispatcher := d } := by
  refine ⟨hp, Nat.le_of_eq ?_, rfl, .inl, Nat.le_refl _⟩
  simp only [Machine.wakeups, Machine.idlers, hr, Nat.add_zero]

theorem pays_suspend {on : Suspension} (hs : Thread.Suspends ticket ⟨frames, result, m⟩ on frames' m') :
    Pays ⟨m, .running seat ticket frames result⟩
      ⟨{ m' with dispatcher := m'.dispatcher.checkIn seat ⟨on, frames'⟩ }, .idle⟩ := by
  have hin : Machine.Spends 0 none m'
      { m' with dispatcher := m'.dispatcher.checkIn seat ⟨on, frames'⟩ } :=
    spends_dispatcher (Dispatcher.polls_checkIn ..) (Dispatcher.ready_checkIn ..)
  cases hs with
  | @act j id action _ _ _ _ _ _ he =>
    have hacts := spends_performAction ticket j id action (record id .began m)
    rw [he] at hacts
    exact .ofAct (((spends_record id .began m).after hacts).andThen hin)
  | @close j _ _ _ _ _ _ he =>
    have h := spends_close ticket j result m
    rw [he] at h
    exact .ofClose (h.andThen hin)

end Code

theorem polls_checkOut_none {d d' : Dispatcher (Task ProgramFrame)} {id : SeatId}
    (h : d.checkOut id = (none, d')) : d'.polls = d.polls := by
  unfold Dispatcher.checkOut at h
  split at h
  · exact congrArg Dispatcher.polls (Prod.mk.inj h).2.symm
  · split at h
    · exact (congrArg Dispatcher.polls (Prod.mk.inj h).2.symm :)
    · cases h

theorem polls_checkOut_some {d d' : Dispatcher (Task ProgramFrame)} {id : SeatId}
    {x : Ticket × Task ProgramFrame} (h : d.checkOut id = (some x, d')) :
    d'.polls = d.polls + 1 := by
  unfold Dispatcher.checkOut at h
  split at h
  · cases h
  · split at h
    · cases h
    · exact (congrArg Dispatcher.polls (Prod.mk.inj h).2.symm :)

theorem ready_checkOut {rest : List SeatId} {id : SeatId} {x : Option (Ticket × Task ProgramFrame)}
    {d : Dispatcher (Task ProgramFrame)} (h : (withoutFirst m rest).checkOut id = (x, d)) :
    d.ready = rest := by
  have hd := Dispatcher.ready_checkOut (withoutFirst m rest) id
  rw [h] at hd
  exact hd

/-- A poll takes an entry off the ready queue, and what it resumes adds none. -/
theorem pays_poll {id : SeatId} {rest : List SeatId} {d : Dispatcher (Task ProgramFrame)}
    (hr : m.dispatcher.ready = id :: rest) (hd : d.ready = rest)
    (hp : d.polls ≤ m.dispatcher.polls + 1)
    (h : Machine.Spends 0 none ({ m with dispatcher := d } : ProgramMachine) m') {f : Focus} :
    Pays ⟨m, .idle⟩ ⟨m', f⟩ := by
  have hwake : ({ m with dispatcher := d } : ProgramMachine).wakeups + 1 = m.wakeups := by
    simp only [Machine.wakeups, Machine.idlers, hr, hd, List.length_cons]
    omega
  refine ⟨?_, h.now, fun ht => .inl ((h.timers ht).resolve_right (by simp)), h.live⟩
  have hpolls : m'.dispatcher.polls = d.polls := h.polls
  have := h.wakeups
  dsimp only
  omega

theorem spends_resumption {ticket : Ticket} {on : Suspension} {result : Except Interruption Unit}
    (h : m.resumption ticket on = (some result, m')) : Machine.Spends 0 none m m' := by
  unfold Machine.resumption at h
  cases on with
  | entry j =>
    obtain ⟨-, rfl⟩ := Prod.mk.inj h
    exact .refl m
  | wait j k w =>
    dsimp only at h
    split at h
    · obtain ⟨-, rfl⟩ := Prod.mk.inj h
      exact .refl m
    · obtain ⟨-, rfl⟩ := Prod.mk.inj h
      exact Machine.spends_updateJob m fun _ => rfl
    · cases (Prod.mk.inj h).1
  | children j =>
    match ha : m.awaitChildren ticket j with
    | (true, m₁) =>
      simp only [ha] at h
      obtain ⟨-, rfl⟩ := Prod.mk.inj h
      exact Machine.spends_awaitChildren ha
    | (false, m₁) =>
      simp only [ha] at h
      cases (Prod.mk.inj h).1
  | turn =>
    obtain ⟨-, rfl⟩ := Prod.mk.inj h
    exact .refl m

/-- The clock moves on, which it does only when no task is ready. -/
structure Ticks (s s' : Snapshot) : Prop where
  idle : s.focus = .idle
  ready : s.machine.dispatcher.ready = []
  next : ∃ time, s.machine.timetable.clock.next? = some time
  machine : s'.machine = s.machine.advance.2
  focus : s'.focus = .idle

/-- Every step pays its price, unless it moves the clock on. -/
theorem pays_step {t : Statement} {L : Ledger} {s s' : Snapshot} (h : s.Upheld t L)
    (hs : Step s s') : Pays s s' ∨ Ticks s s' := by
  cases hs with
  | skip hr hout =>
    refine .inl (pays_poll hr (ready_checkOut hout) ?_ (.refl _))
    rw [polls_checkOut_none hout]
    exact Nat.le_succ _
  | sleepOn hr hout hres =>
    obtain ⟨rfl, -⟩ := h.resumption_none hr hout hres
    have hpolls := polls_checkOut_some hout
    exact .inl (pays_poll hr (ready_checkOut hout) (Nat.le_of_eq hpolls)
      (spends_dispatcher (Dispatcher.polls_checkIn ..) (Dispatcher.ready_checkIn ..)))
  | goOn hr hout hres =>
    have hpolls := polls_checkOut_some hout
    exact .inl (pays_poll hr (ready_checkOut hout) (Nat.le_of_eq hpolls) (spends_resumption hres))
  | code hs => exact .inl (pays_code hs)
  | suspend hs => exact .inl (pays_suspend hs)
  | finish => exact .inl (.ofFree (spends_dispatcher rfl rfl))
  | tick hr hnext => exact .inr ⟨rfl, hr, ⟨_, hnext⟩, rfl, rfl⟩

end Snapshot

end RacePuzzle
