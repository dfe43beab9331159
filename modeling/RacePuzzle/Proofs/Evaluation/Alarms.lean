import RacePuzzle.Proofs.Evaluation.Promptness
import RacePuzzle.Proofs.Evaluation.Stirring
import RacePuzzle.Proofs.Machine.Casting

/-! Timers and who sleeps until they go off. A timer whose wait is still open was set by a task that has been
asleep since, and timers are numbered in the order in which the trace says that their delays began. -/
namespace RacePuzzle

open Interpreter

namespace Machine

variable {ε τ : Type} {m m' m'' : Machine ε τ}

def KeepsOver (m m' : Machine ε τ) : Prop :=
  ∀ w, m.timetable.IsOver w → m'.timetable.waits[w]? = m.timetable.waits[w]?

theorem KeepsOver.isOver (h : m.KeepsOver m') {w : WaitId} (hw : m.timetable.IsOver w) :
    m'.timetable.IsOver w := by
  unfold Timetable.IsOver
  rw [h w hw]
  exact hw

theorem KeepsOver.of_same (h : m'.timetable = m.timetable) : m.KeepsOver m' := fun w _ => by rw [h]

theorem KeepsOver.trans (h : m.KeepsOver m') (h' : m'.KeepsOver m'') : m.KeepsOver m'' :=
  fun w hw => (h' w (h.isOver hw)).trans (h w hw)

theorem KeepsOver.of_resolves {outcome : Wait} {ws : List WaitId} {ss : List Ticket} {clock : Clock WaitId}
    (h : Timetable.Resolves outcome ws { m.timetable with clock := clock } ss m'.timetable) :
    m.KeepsOver m' :=
  fun w hw => h.kept w hw.not_pending

theorem KeepsOver.of_push {x : Wait}
    (h : ∀ w, m'.timetable.waits[w]? = if w = m.timetable.waits.size then some x else m.timetable.waits[w]?) :
    m.KeepsOver m' := fun w hw => by
  have hlt : w < m.timetable.waits.size := by
    rcases hw with hw | hw
    · exact (Array.getElem?_eq_some_iff.1 hw).1
    · exact (Array.getElem?_eq_some_iff.1 hw).1
  rw [h, if_neg (Nat.ne_of_lt hlt)]

theorem elementary_keepsOver (ε τ : Type) : Elementary (KeepsOver : Machine ε τ → Machine ε τ → Prop) where
  refl _ := .of_same rfl
  trans := .trans
  env _ _ := .of_same rfl
  jobs _ _ := .of_same rfl
  newSignal _ := .of_same rfl
  spawn _ _ := .of_same rfl
  wakeAll _ _ := .of_same rfl
  interrupt m wait := by
    obtain ⟨waiter, on⟩ := wait
    cases on with
    | signal w => exact .of_resolves (Timetable.resolves_resolve m.timetable .cancelled w)
    | timer => exact .of_resolves (resolution_cancelTimer m waiter).choose_spec.resolves
  fire m s := by
    unfold fire
    split
    · exact .of_resolves (@Timetable.resolves_resolveAll .done nofun m.timetable _)
    · exact .of_same rfl
  beginDelay m ticket j duration := by
    unfold beginDelay
    split
    · exact .of_same rfl
    · exact .of_push (getElem?_waits_withWait m ticket j .timer)
  beginSignalWait m ticket j _ :=
    .of_push (getElem?_waits_withWait m ticket j (.signal m.timetable.waits.size))

theorem keepsOver_advance {time : Nat} (hnext : m.timetable.clock.next? = some time) : m.KeepsOver m.advance.2 :=
  .of_resolves (Timetable.resolves_advance hnext).2.2

/-- Whatever is done to a machine, waits and timers are numbered alike. -/
theorem elementary_tidy (ε τ : Type) :
    Elementary fun m m' : Machine ε τ => m.timetable.Tidy → m'.timetable.Tidy where
  refl _ := id
  trans h h' := h' ∘ h
  env _ _ := id
  jobs _ _ := id
  newSignal _ := id
  spawn _ _ := id
  wakeAll _ _ := id
  interrupt m wait h := by
    obtain ⟨waiter, on⟩ := wait
    cases on with
    | signal w => exact h.of_resolves (Timetable.resolves_resolve m.timetable .cancelled w)
    | timer =>
      change (m.timetable.cancelTimer waiter).2.Tidy
      rw [h.cancelTimer_eq]
      split
      · exact h.withoutTimer waiter
      · exact (h.withoutTimer waiter).of_resolves (Timetable.resolves_resolve _ .cancelled waiter)
  fire m s h := by
    unfold fire
    split
    · exact h.of_resolves (@Timetable.resolves_resolveAll .done nofun m.timetable _)
    · exact h
  beginDelay m ticket j duration h := by
    unfold beginDelay
    split
    · exact h
    · change ((m.timetable.withWait ticket).addTimer m.timetable.clock.nextSeq _ _ m.timetable.waits.size).Tidy
      rw [h.seq]
      refine (h.withWait ticket).addTimer ?_ (h.timer?_eq_none (Nat.le_refl _)) _
      exact Nat.lt_of_lt_of_eq (Nat.lt_succ_self _) (Array.size_push ..).symm
  beginSignalWait m ticket j _ h := h.withWait ticket

theorem tidy_advance (h : m.timetable.Tidy) {time : Nat} (hnext : m.timetable.clock.next? = some time) :
    m.advance.2.timetable.Tidy := by
  change m.timetable.advance.2.2.Tidy
  rw [Timetable.advance_eq hnext]
  refine (h.passed fun ht => ?_).of_resolves (@Timetable.resolves_resolveAll .done nofun _ _)
  exact TimerQueue.le_deadline_of_peek? h.complete hnext ht

theorem timetable_of_resumption {ticket : Ticket} {on : Suspension} {result : Except Interruption Unit}
    (h : m.resumption ticket on = (some result, m')) : m'.timetable = m.timetable := by
  unfold resumption at h
  cases on with
  | wait j k w =>
    dsimp only at h
    split at h
    · exact (Prod.mk.inj h).2 ▸ rfl
    · exact (Prod.mk.inj h).2 ▸ rfl
    · cases (Prod.mk.inj h).1
  | entry j => exact (Prod.mk.inj h).2 ▸ rfl
  | children j => exact (Prod.mk.inj h).2 ▸ rfl
  | turn => exact (Prod.mk.inj h).2 ▸ rfl

theorem isOver_of_resumption {ticket : Ticket} {j : JobId} {k : Nat} {w : WaitId}
    {result : Except Interruption Unit} (h : m.resumption ticket (.wait j k w) = (some result, m')) :
    m.timetable.IsOver w := by
  unfold resumption at h
  dsimp only at h
  split at h
  · next hw => exact .inr hw
  · next hw => exact .inl hw
  · cases (Prod.mk.inj h).1

end Machine

variable {t : Statement} {L L' : Ledger} {m m' : ProgramMachine} {s s' : Snapshot} {seat : SeatId}
  {ticket : Ticket} {frames frames' : List ProgramFrame} {result result' : Completion} {place : Nat → Nat}

namespace Snapshot

/-- A relation of timetables that holds across what is done to a machine holds across every step. -/
theorem of_elementary {R : ProgramMachine → ProgramMachine → Prop} (hR : Machine.Elementary R)
    (hsame : ∀ {m m' : ProgramMachine}, m'.timetable = m.timetable → R m m')
    (htick : ∀ {m : ProgramMachine} {time}, m.timetable.clock.next? = some time → R m m.advance.2)
    (h : s.Upheld t L) (hs : Step s s') : R s.machine s'.machine := by
  cases hs with
  | skip hready hout => exact hsame rfl
  | sleepOn hready hout hres =>
    obtain ⟨rfl, -⟩ := h.resumption_none hready hout hres
    exact hsame rfl
  | goOn hready hout hres =>
    have hresumed := Machine.timetable_of_resumption hres
    exact hsame hresumed
  | code hs => exact hR.code hs
  | suspend hs =>
    have hsuspended := hR.suspend hs
    exact hR.trans hsuspended (hsame rfl)
  | finish => exact hsame rfl
  | tick hready hnext => exact htick hnext

theorem keepsOver_step (h : s.Upheld t L) (hs : Step s s') : s.machine.KeepsOver s'.machine :=
  of_elementary (Machine.elementary_keepsOver ..) .of_same Machine.keepsOver_advance h hs

theorem tidy_step (h : s.Upheld t L) (hs : Step s s') (htidy : s.machine.timetable.Tidy) :
    s'.machine.timetable.Tidy :=
  of_elementary (Machine.elementary_tidy ..) (fun hsame htidy => hsame ▸ htidy)
    (fun hnext htidy => Machine.tidy_advance htidy hnext) h hs htidy

/-- A delay of a cancelled job is refused. -/
theorem delay_refused {j : JobId} (hc : m.isCancelled j = true) (ticket : Ticket) (id : StatementId) (time : Nat) :
    performAction ticket j id (.delay time) m = (.ended (.error .cancellation), m.wake ticket) := by
  simp only [performAction, Machine.beginDelay, hc, if_true]
  rfl

/-- Any other delay sets a timer. -/
theorem delay_begins (hm : m.Orderly) {j : JobId} (hc : m.isCancelled j = false) (ticket : Ticket)
    (id : StatementId) (time : Nat) : ∃ m', performAction ticket j id (.delay time) m =
      (.suspended (.wait j m.timetable.clock.nextSeq m.timetable.waits.size) [], m') ∧
        m.DelayBegun ticket j time m' := by
  obtain ⟨m', hbegin, hdelay⟩ := Machine.delayBegun_beginDelay hm hc ticket time
  refine ⟨m', ?_, hdelay⟩
  simp only [performAction, hbegin]
  rfl

/-- Only a task that falls asleep sets a timer. -/
theorem timer?_of_code (hm : m.Orderly) (hs : Thread.Step ticket ⟨frames, result, m⟩ ⟨frames', result', m'⟩)
    {k : Nat} {timer : LiveTimer WaitId} (ht : m'.timetable.timer? k = some timer) :
    m.timetable.timer? k = some timer := by
  have hpays : Pays ⟨m, .running 0 ticket frames result⟩ ⟨m', .running 0 ticket frames' result'⟩ := pays_code hs
  rcases hpays.timers ht with hold | ⟨time, hd, -⟩
  · exact hold
  cases hs with
  | @act j id action body outer m result m' he =>
    cases action with
    | delay d =>
      cases hc : (record id .began m).isCancelled j with
      | true =>
        obtain ⟨-, rfl⟩ := Prod.mk.inj ((delay_refused hc ticket id d).symm.trans he)
        exact ht
      | false =>
        obtain ⟨_, hbegins, -⟩ := delay_begins (hm.updateEnv _) hc ticket id d
        cases (Prod.mk.inj (hbegins.symm.trans he)).1
    | print | throwException | job | join | cancel | completeJob | printAwait => cases hd
  | pass _ =>
    unfold delay? at hd
    split at hd
    · next hfocus => cases hfocus
    · cases hd
  | bodyEnd | enter | leave | catching | close | settle | awaited | program => cases hd

/-- A task that falls asleep elsewhere than in a delay sets no timer. -/
theorem timer?_of_suspends {on : Suspension} (hs : Thread.Suspends ticket ⟨frames, result, m⟩ on frames' m')
    (hd : delay? ⟨m, .running seat ticket frames result⟩ = none) {k : Nat} {timer : LiveTimer WaitId}
    (ht : m'.timetable.timer? k = some timer) : m.timetable.timer? k = some timer := by
  have hpays : Pays ⟨m, .running seat ticket frames result⟩
      ⟨{ m' with dispatcher := m'.dispatcher.checkIn seat ⟨on, frames'⟩ }, .idle⟩ := pays_suspend hs
  exact (hpays.timers ht).resolve_right fun ⟨_, hsome, _⟩ => nomatch hd.symm.trans hsome

/-- Timers are numbered as their delays began: the one of waiter `k` at `place k` in the trace. While its
wait is open, the task that set it sleeps. -/
structure Alarmed (place : Nat → Nat) (s : Snapshot) : Prop where
  placed : ∀ {k timer}, s.machine.timetable.timer? k = some timer → ∃ id time,
    s.machine.env.trace.toList[place k]? = some ⟨id, .began, time⟩ ∧
      (¬ s.machine.timetable.IsOver timer.content → ∃ i j outer,
        s.machine.dispatcher.task? i = some ⟨.wait j k timer.content, .leave id :: outer⟩)
  ordered : ∀ {k k' timer timer'}, s.machine.timetable.timer? k = some timer →
    s.machine.timetable.timer? k' = some timer' → k < k' → place k < place k'

theorem alarmed_initial (t : Statement) : t.initial.Alarmed id := by
  have hnone {k : Nat} {timer : LiveTimer WaitId} (ht : t.initial.machine.timetable.timer? k = some timer) :
      False := by
    cases (timer?_loaded t k).symm.trans ht
  exact ⟨fun ht => (hnone ht).elim, fun ht => (hnone ht).elim⟩

/-- No timer is set, and who sleeps until one goes off still does. -/
theorem Alarmed.onward (h : s.Alarmed place)
    (htimers : ∀ {k timer}, s'.machine.timetable.timer? k = some timer →
      s.machine.timetable.timer? k = some timer)
    (hover : s.machine.KeepsOver s'.machine)
    (htrace : s.machine.env.trace.toList <+: s'.machine.env.trace.toList)
    (htasks : ∀ {i j k w frames}, s.machine.dispatcher.task? i = some ⟨.wait j k w, frames⟩ →
      ¬ s.machine.timetable.IsOver w → s'.machine.dispatcher.task? i = some ⟨.wait j k w, frames⟩) :
    s'.Alarmed place where
  placed ht := by
    obtain ⟨id, time, hplace, hsleeps⟩ := h.placed (htimers ht)
    refine ⟨id, time, getElem?_mono htrace hplace, fun hopen => ?_⟩
    have hopen' := fun hw => hopen (hover.isOver hw)
    obtain ⟨i, j, outer, htask⟩ := hsleeps hopen'
    exact ⟨i, j, outer, htasks htask hopen'⟩
  ordered ht ht' := h.ordered (htimers ht) (htimers ht')

theorem Alarmed.goOn {id : SeatId} {rest : List SeatId} {d : Dispatcher (Task ProgramFrame)}
    {task : Task ProgramFrame} {r : Except Interruption Unit} (hp : Alarmed place ⟨m, .idle⟩)
    (h : Upheld t L ⟨m, .idle⟩) (hr : m.dispatcher.ready = id :: rest)
    (hout : (withoutFirst m rest).checkOut id = (some (ticket, task), d))
    (hres : ({ m with dispatcher := d } : ProgramMachine).resumption ticket task.on = (some r, m')) :
    Alarmed place ⟨m', .running id ticket task.frames (Suspension.handed r)⟩ := by
  obtain ⟨-, rfl, htask, hothers, -⟩ := Dispatcher.checkOut_some h.sound.orderly.aligned hr hout
  have htimetable := Machine.timetable_of_resumption hres
  have henv := env_resumption { m with dispatcher := d } ticket task.on
  have hd := Machine.dispatcher_resumption { m with dispatcher := d } ticket task.on
  rw [hres] at henv hd
  dsimp only at htimetable henv hd
  refine hp.onward (fun ht => htimetable ▸ ht) (.of_same htimetable) ?_ fun {i j k w frames} hi hopen => ?_
  · exact henv.symm ▸ List.prefix_refl m.env.trace.toList
  · have hne : i ≠ ticket := fun he => by
      obtain rfl := Option.some.inj ((he ▸ hi).symm.trans htask)
      have hover := Machine.isOver_of_resumption hres
      exact hopen hover
    dsimp only
    rw [hd, hothers, if_neg hne, hi]

theorem Alarmed.suspend {on : Suspension} (hp : Alarmed place ⟨m, .running seat ticket frames result⟩)
    (h : Upheld t L ⟨m, .running seat ticket frames result⟩)
    (hs : Thread.Suspends ticket ⟨frames, result, m⟩ on frames' m')
    (hd : delay? ⟨m, .running seat ticket frames result⟩ = none)
    (htrace : m.env.trace.toList <+: m'.env.trace.toList) :
    Alarmed place ⟨{ m' with dispatcher := m'.dispatcher.checkIn seat ⟨on, frames'⟩ }, .idle⟩ := by
  have hstep : Step ⟨m, .running seat ticket frames result⟩
      ⟨{ m' with dispatcher := m'.dispatcher.checkIn seat ⟨on, frames'⟩ }, .idle⟩ := .suspend hs
  have hstirs := (Machine.elementary_stirs ProgramEnv (Task ProgramFrame)).suspend hs
  have hpolled := h.polled rfl
  refine hp.onward (timer?_of_suspends hs hd) (keepsOver_step h hstep) htrace fun {i j k w left} hi _ => ?_
  have hne : i ≠ seat := fun he => by cases (he ▸ hi).symm.trans hpolled.out
  exact (Dispatcher.task?_checkIn_of_ne hne _).trans (hstirs.task? hi)

/-- A task falls asleep in a delay. Its timer gets a number that no other has had, and its place is at the end of
the trace. -/
theorem Alarmed.delay {j : JobId} {id : StatementId} {time : Nat} {rest : List Statement}
    {outer inner : List ProgramFrame} {on : Suspension}
    (hp : Alarmed place ⟨m, .running seat ticket (.rest j (.leaf id (.delay time) :: rest) :: outer) (.ok ())⟩)
    (h : Upheld t L ⟨m, .running seat ticket (.rest j (.leaf id (.delay time) :: rest) :: outer) (.ok ())⟩)
    (he : performAction ticket j id (.delay time) (record id .began m) = (.suspended on inner, m')) :
    ∃ place', Alarmed place' ⟨{ m' with
      dispatcher := m'.dispatcher.checkIn seat ⟨on, inner ++ .leave id :: .rest j rest :: outer⟩ }, .idle⟩ := by
  have hm := h.sound.orderly
  have hpolled := h.polled rfl
  cases hc : (record id .began m).isCancelled j with
  | true => cases (Prod.mk.inj ((delay_refused hc ticket id time).symm.trans he)).1
  | false =>
    obtain ⟨m₁, hbegins, hdelay⟩ := delay_begins (hm.updateEnv _) hc ticket id time
    obtain ⟨hsuspended, hm'⟩ := Prod.mk.inj (hbegins.symm.trans he)
    subst m₁
    obtain ⟨rfl, rfl⟩ := Progress.suspended.inj hsuspended
    have htimer {k : Nat} {timer : LiveTimer WaitId} (ht : m'.timetable.timer? k = some timer) :
        k = m.timetable.clock.nextSeq ∧ timer.content = m.timetable.waits.size ∨
          k < m.timetable.clock.nextSeq ∧ m.timetable.timer? k = some timer := by
      rw [hdelay.timer] at ht
      split at ht
      · next hk =>
        obtain rfl := Option.some.inj ht
        exact .inl ⟨hk, rfl⟩
      · exact .inr ⟨hm.fresh ht, ht⟩
    have htrace : m'.env.trace.toList = m.env.trace.toList ++ [⟨id, .began, m.now⟩] := by
      rw [hdelay.env]
      exact Array.toList_push
    have hplaced {k : Nat} {timer : LiveTimer WaitId} (ht : m.timetable.timer? k = some timer) :
        place k < m.env.trace.toList.length := by
      obtain ⟨_, _, hplace, -⟩ := hp.placed ht
      exact (List.getElem?_eq_some_iff.1 hplace).1
    have hover : m.KeepsOver m' := .of_push hdelay.waits
    refine ⟨fun k => if k = m.timetable.clock.nextSeq then m.env.trace.toList.length else place k,
      fun {k timer} ht => ?_, fun {k k' timer timer'} ht ht' hlt => ?_⟩
    · dsimp only
      rw [htrace]
      rcases htimer ht with ⟨rfl, hcontent⟩ | ⟨hlt, ht⟩
      · rw [if_pos rfl, List.getElem?_concat_length]
        refine ⟨id, m.now, rfl, fun _ => ⟨seat, j, .rest j rest :: outer, ?_⟩⟩
        have hseat : seat < m'.dispatcher.seats.size := hdelay.dispatcher ▸ hpolled.lt
        rw [Dispatcher.task?_checkIn hseat, if_pos rfl, hcontent]
        rfl
      · obtain ⟨id', time', hplace, hsleeps⟩ := hp.placed ht
        rw [if_neg (Nat.ne_of_lt hlt), List.getElem?_append_left (hplaced ht)]
        refine ⟨id', time', hplace, fun hopen => ?_⟩
        obtain ⟨i, j', outer', htask⟩ := hsleeps fun hw => hopen (hover.isOver hw)
        have hne : i ≠ seat := fun he => by cases (he ▸ htask).symm.trans hpolled.out
        refine ⟨i, j', outer', (Dispatcher.task?_checkIn_of_ne hne _).trans ?_⟩
        rw [hdelay.dispatcher]
        exact htask
    · rcases htimer ht with ⟨rfl, -⟩ | ⟨hk, ht⟩
      · rcases htimer ht' with ⟨rfl, -⟩ | ⟨hk', -⟩
        · exact absurd hlt (Nat.lt_irrefl _)
        · exact absurd hlt (Nat.not_lt_of_lt hk')
      · rw [if_neg (Nat.ne_of_lt hk)]
        rcases htimer ht' with ⟨rfl, -⟩ | ⟨hk', ht'⟩
        · rw [if_pos rfl]
          exact hplaced ht
        · rw [if_neg (Nat.ne_of_lt hk')]
          exact hp.ordered ht ht' hlt

theorem Alarmed.redispatch {d : Dispatcher (Task ProgramFrame)} {f : Focus} (hp : Alarmed place ⟨m, f⟩)
    (htask : ∀ i, d.task? i = m.dispatcher.task? i) : Alarmed place ⟨{ m with dispatcher := d }, .idle⟩ :=
  hp.onward id (.of_same rfl) (List.prefix_refl _) fun hi _ => (htask _).trans hi

/-- Every step of a run keeps the timers numbered as their delays began. -/
theorem Alarmed.step (hp : s.Alarmed place) (h : s.Upheld t L) (hs : Step s s')
    (htrace : s.machine.env.trace.toList <+: s'.machine.env.trace.toList) : ∃ place', s'.Alarmed place' := by
  cases hs with
  | skip hready hout =>
    obtain ⟨-, -, hseats, -⟩ := Dispatcher.checkOut_none h.sound.orderly.aligned hready hout
    exact ⟨place, hp.redispatch (Dispatcher.task?_of_seats hseats)⟩
  | sleepOn hready hout hres =>
    obtain ⟨rfl, -⟩ := h.resumption_none hready hout hres
    exact ⟨place, hp.redispatch
      (Dispatcher.task?_checkIn_of_checkOut h.sound.orderly.aligned hready hout)⟩
  | goOn hready hout hres => exact ⟨place, hp.goOn h hready hout hres⟩
  | code hs =>
    exact ⟨place, hp.onward (timer?_of_code h.sound.orderly hs) (keepsOver_step h (.code hs)) htrace
      fun hi _ => ((Machine.elementary_stirs ProgramEnv (Task ProgramFrame)).code hs).task? hi⟩
  | suspend hs =>
    cases hs with
    | @act j id action body outer m on inner m' he =>
      cases action with
      | delay time => exact hp.delay h he
      | print | throwException | job | join | cancel | completeJob | printAwait =>
        exact ⟨place, hp.suspend h (.act he) rfl htrace⟩
    | close he => exact ⟨place, hp.suspend h (.close he) rfl htrace⟩
  | finish => exact ⟨place, hp.redispatch (Dispatcher.task?_of_seats (Dispatcher.seats_finish ..))⟩
  | tick hready hnext =>
    exact ⟨place, hp.onward (Machine.of_timer?_advance hnext) (Machine.keepsOver_advance hnext)
      (List.prefix_refl _) fun hi _ => (Dispatcher.task?_of_seats (Machine.seats_wakeAll ..) _).trans hi⟩

end Snapshot

theorem History.tidy (h : History t L s) : s.machine.timetable.Tidy := by
  induction h with
  | start => exact Timetable.tidy_start
  | next h hs _ _ ih => exact Snapshot.tidy_step h.upheld hs ih

/-- Waits that are over stay as they are along a run. -/
theorem History.keepsOver (h : History t L s) (hs : Snapshot.Steps s s') : s.machine.KeepsOver s'.machine := by
  induction hs with
  | refl => exact .of_same rfl
  | tail hsteps hstep ih =>
    obtain ⟨L', h', -⟩ := h.steps hsteps
    exact ih.trans (Snapshot.keepsOver_step h'.upheld hstep)

/-- In every state of a run, timers are numbered as their delays began. -/
theorem History.alarmed (h : History t L s) : ∃ place, s.Alarmed place := by
  induction h with
  | start => exact ⟨id, Snapshot.alarmed_initial t⟩
  | next h hs _ hf ih =>
    obtain ⟨place, hp⟩ := ih
    exact hp.step h.upheld hs hf.kept.trace

end RacePuzzle
