import RacePuzzle.Proofs.Machine.Conceal

/-! What is new on two machines of which the second conceals part of the first: signals, jobs, tasks
and waits are enlisted as they begin, either on both machines or as hidden ones on the first alone. -/
namespace RacePuzzle

variable {C C' : Casting}

namespace Casting

theorem grows_signal (C : Casting) (i : SignalId) (o : Option SignalId) :
    C.Grows { C with signal := C.signal.add i o } :=
  ⟨⟨id, .inl, id, id, rfl⟩, rfl, rfl⟩

theorem grows_job (C : Casting) (i : JobId) (o : Option JobId) :
    C.Grows { C with job := C.job.add i o } :=
  ⟨⟨.inl, id, id, id, rfl⟩, rfl, rfl⟩

theorem grows_seat (C : Casting) (i : SeatId) (o : Option SeatId) :
    C.Grows { C with seat := C.seat.add i o } :=
  ⟨⟨id, id, id, .inl, rfl⟩, rfl, rfl⟩

theorem grows_wait (C : Casting) (i : WaitId) (o : Option WaitId) :
    C.Grows { C with wait := C.wait.add i o } :=
  ⟨⟨id, id, .inl, id, rfl⟩, rfl, rfl⟩

/-- A suspension shows where the job and the wait in it do. -/
inductive On (C : Casting) : Suspension → Option Suspension → Prop
  | entry {job o} : C.job job o → On C (.entry job) (o.map .entry)
  | waitHidden {job w} : C.job job none → C.wait w none → On C (.wait job w w) none
  | wait {job job' w w'} : C.job job (some job') → C.wait w (some w') →
      On C (.wait job w w) (some (.wait job' w' w'))
  | children {job o} : C.job job o → job ≠ C.host → On C (.children job) (o.map .children)
  | turn {o : Option Unit} : On C .turn (o.map fun _ => .turn)

theorem On.mono {on : Suspension} {o : Option Suspension} (h : C.On on o) (hC : C.Extends C') :
    C'.On on o := by
  cases h with
  | entry hjob => exact .entry (hC.job hjob)
  | waitHidden hjob hw => exact .waitHidden (hC.job hjob) (hC.wait hw)
  | wait hjob hw => exact .wait (hC.job hjob) (hC.wait hw)
  | children hjob hne => exact .children (hC.job hjob) (hC.host.symm ▸ hne)
  | turn => exact .turn

inductive Begins (C : Casting) : WaitStart → WaitStart → Prop
  | through : Begins C .through .through
  | refused {why} : Begins C (.refused why) (.refused why)
  | suspended {on on'} : C.On on (some on') → Begins C (.suspended on) (.suspended on')

end Casting

namespace Machine

variable {ε τ : Type} {V : View ε τ} {m m' : Machine ε τ} {job job' : JobId} {ticket ticket' : Ticket}
  {s s' : SignalId}

def freshJob (kind : JobRole) (cancelled : Bool) (parent : JobId) (completion : SignalId) : Job :=
  ⟨kind, 1, cancelled, none, false, none, [], [], some parent, none, completion⟩

/-- A new job is there before its parent knows of it. -/
theorem child_eq_updateJob (m : Machine ε τ) (parent : JobId) (kind : JobRole) :
    m.child parent kind = (m.jobs.size, ({ m.newSignal.2 with
      jobs := m.jobs.push (freshJob kind (m.isCancelled parent) parent m.signals.size) } :
        Machine ε τ).updateJob parent fun p => { p with children := p.children ++ [m.jobs.size] }) := rfl

namespace Conceals

/-- What `m'` has of `m`, by the numbers of `C` and with all that the larger `C'` casts. -/
structure SeenBy (V : View ε τ) (C C' : Casting) (m m' : Machine ε τ) : Prop where
  signals : C.signal.Lists (Signal.Sees C') m.signals m'.signals
  jobs : C.job.Lists (Job.Sees C') m.jobs m'.jobs
  host : ∀ i, (m.jobs[i]?).map (·.kind) = some .background ↔ i = C'.host
  stage : ∃ host', C'.job C'.host (some host')
  dispatcher : m.dispatcher.Sees (V.task C') C.seat m'.dispatcher
  env : V.env C' m.env m'.env

theorem seenBy (h : Conceals V C m m') (hC : C.Extends C') : SeenBy V C C' m m' where
  signals := h.signals.mono fun _ _ hs => hs.mono hC
  jobs := h.jobs.mono fun _ _ hj => hj.mono hC
  host := hC.host.symm ▸ h.host
  stage := hC.host.symm ▸ h.stage.imp fun _ => hC.job
  dispatcher := h.dispatcher.mono (V.task_mono hC)
  env := V.env_mono hC h.env

theorem newSignalHidden (h : Conceals V C m m') :
    ∃ C', C.Grows C' ∧ C'.signal m.signals.size none ∧ Conceals V C' m.newSignal.2 m' := by
  have hC := C.grows_signal m.signals.size none
  have hseen := h.seenBy hC.toExtends
  exact ⟨_, hC, Roster.add_self .., { hseen with
    times := h.times.grow hC rfl
    signals := hseen.signals.addHidden ⟨nofun, .nil⟩ }⟩

theorem newSignalShown (h : Conceals V C m m') :
    ∃ C', C.Grows C' ∧ C'.signal m.signals.size (some m'.signals.size) ∧
      Conceals V C' m.newSignal.2 m'.newSignal.2 := by
  have hC := C.grows_signal m.signals.size (some m'.signals.size)
  have hseen := h.seenBy hC.toExtends
  exact ⟨_, hC, Roster.add_self .., { hseen with
    times := h.times.grow hC rfl
    signals := hseen.signals.addShown ⟨fun _ he => Option.some.inj he ▸ rfl, .nil⟩ }⟩

theorem host_lt (h : Conceals V C m m') : C.host < m.jobs.size :=
  let ⟨_, hhost⟩ := h.stage
  h.jobs.fits.lt hhost

theorem host_push (h : Conceals V C m m') {j : Job} (hkind : j.kind ≠ .background) (i : JobId) :
    ((m.jobs.push j)[i]?).map (·.kind) = some .background ↔ i = C.host := by
  rw [Array.getElem?_push]
  split
  · next hi =>
    subst hi
    rw [Option.map_some, Option.some.injEq]
    exact iff_of_false hkind (Nat.ne_of_gt h.host_lt)
  · exact h.host i

theorem pushHidden (h : Conceals V C m m') {j : Job} (hkind : j.kind ≠ .background)
    (hsees : j.Sees C none) :
    ∃ C', C.Grows C' ∧ C'.job m.jobs.size none ∧
      Conceals V C' { m with jobs := m.jobs.push j } m' := by
  have hC := C.grows_job m.jobs.size none
  have hseen := h.seenBy hC.toExtends
  exact ⟨_, hC, Roster.add_self .., { hseen with
    times := h.times.grow hC rfl
    jobs := hseen.jobs.addHidden (hsees.mono hC.toExtends)
    host := h.host_push hkind }⟩

theorem pushShown (h : Conceals V C m m') {j j' : Job} (hkind : j.kind ≠ .background)
    (hsees : j.Sees C (some j')) :
    ∃ C', C.Grows C' ∧ C'.job m.jobs.size (some m'.jobs.size) ∧
      Conceals V C' { m with jobs := m.jobs.push j } { m' with jobs := m'.jobs.push j' } := by
  have hC := C.grows_job m.jobs.size (some m'.jobs.size)
  have hseen := h.seenBy hC.toExtends
  exact ⟨_, hC, Roster.add_self .., { hseen with
    times := h.times.grow hC rfl
    jobs := hseen.jobs.addShown (hsees.mono hC.toExtends)
    host := h.host_push hkind }⟩

theorem childHidden (h : Conceals V C m m') {parent : JobId}
    (hparent : parent = C.host ∨ C.job parent none) (kind : JobRole) (hkind : kind ≠ .background) :
    ∃ C', C.Grows C' ∧ C'.job m.jobs.size none ∧ Conceals V C' (m.child parent kind).2 m' := by
  obtain ⟨C₁, hgrows, hcompletion, hsignal⟩ := h.newSignalHidden
  have hfresh : (freshJob kind (m.isCancelled parent) parent m.signals.size).Sees C₁ none := {
    alike := trivial
    held := rfl
    pending := .nil
    children := .nil
    exposed := nofun
    parent := fun p hp => Option.some.inj hp ▸ hparent.imp hgrows.host.symm.subst hgrows.job
    sleeper := .nil
    awake := fun _ => rfl
    completion := hcompletion }
  obtain ⟨C₂, hgrows', hnew, hpushed⟩ := hsignal.pushHidden hkind hfresh
  have hC := hgrows.trans hgrows'
  obtain ⟨o, ho⟩ : ∃ o, C₂.job parent o ∧ (parent = C₂.host ∨ o = none) := by
    rcases hparent with rfl | hhidden
    · obtain ⟨host', hhost⟩ := hpushed.stage
      exact ⟨some host', hC.host ▸ hhost, .inl hC.host.symm⟩
    · exact ⟨none, hC.job hhidden, .inr rfl⟩
  refine ⟨C₂, hC, hnew, ?_⟩
  rw [child_eq_updateJob]
  refine hpushed.updateLeft ho.1 (fun _ => rfl) fun {x} hx hs => hs.addHidden hnew ?_
  rcases ho.2 with hhost | rfl
  · exact .inl ((hpushed.host_iff hx).2 hhost)
  · exact .inr rfl

theorem childShown (h : Conceals V C m m') {parent parent' : JobId}
    (hparent : C.job parent (some parent')) (kind : JobRole) (hkind : kind ≠ .background) :
    ∃ C', C.Grows C' ∧ C'.job m.jobs.size (some m'.jobs.size) ∧ m.jobs.size ≠ C.host ∧
      Conceals V C' (m.child parent kind).2 (m'.child parent' kind).2 := by
  obtain ⟨C₁, hgrows, hcompletion, hsignal⟩ := h.newSignalShown
  have hfresh : (freshJob kind (m.isCancelled parent) parent m.signals.size).Sees C₁
      (some (freshJob kind (m'.isCancelled parent') parent' m'.signals.size)) := {
    alike := ⟨rfl, rfl, h.isCancelled hparent, rfl, rfl, rfl⟩
    held := rfl
    pending := .nil
    children := .nil
    exposed := fun _ _ => nofun
    parent := .some (hgrows.job hparent)
    sleeper := .nil
    awake := fun _ => rfl
    completion := hcompletion }
  obtain ⟨C₂, hgrows', hnew, hpushed⟩ := hsignal.pushShown hkind hfresh
  have hC := hgrows.trans hgrows'
  refine ⟨C₂, hC, hnew, Nat.ne_of_gt h.host_lt, ?_⟩
  rw [child_eq_updateJob, child_eq_updateJob]
  exact hpushed.updateShown (hC.job hparent) (fun _ => rfl) fun _ _ hs => hs.addShown hnew

theorem spawnHidden (h : Conceals V C m m') {task : τ} (htask : V.task C task none) :
    ∃ C', C.Grows C' ∧ Conceals V C' (m.spawn task) m' := by
  have hC := C.grows_seat m.dispatcher.seats.size none
  have hseen := h.seenBy hC.toExtends
  exact ⟨_, hC, { hseen with
    times := h.times.grow hC rfl
    dispatcher := hseen.dispatcher.spawnHidden (V.task_mono hC.toExtends htask) }⟩

theorem spawnShown (h : Conceals V C m m') {task task' : τ} (htask : V.task C task (some task')) :
    ∃ C', C.Grows C' ∧ Conceals V C' (m.spawn task) (m'.spawn task') := by
  have hC := C.grows_seat m.dispatcher.seats.size (some m'.dispatcher.seats.size)
  have hseen := h.seenBy hC.toExtends
  exact ⟨_, hC, { hseen with
    times := h.times.grow hC rfl
    dispatcher := hseen.dispatcher.spawnShown (V.task_mono hC.toExtends htask) }⟩

/-- The number of the next wait is also that of its waiter. -/
theorem nextSeq_eq (h : Conceals V C m m') : m.timetable.clock.nextSeq = m.timetable.waits.size :=
  h.times.tidy.seq

theorem nextSeq_eq' (h : Conceals V C m m') : m'.timetable.clock.nextSeq = m'.timetable.waits.size :=
  h.times.tidy'.seq

theorem waitHidden (h : Conceals V C m m') (hcast : C.job job none) (hticket : C.seat ticket none)
    (pending : WaitId → OpenWait)
    (hpending : ∀ {C : Casting} {w o}, C.wait w o → C.Opens (w, pending w) (o.map fun w => (w, pending w))) :
    ∃ C', C.Grows C' ∧ C'.wait m.timetable.waits.size none ∧
      Conceals V C' (m.withWait ticket job (pending m.timetable.waits.size)) m' := by
  have hC := C.grows_wait m.timetable.waits.size none
  have hself := C.wait.add_self m.timetable.waits.size none
  refine ⟨_, hC, hself, ?_⟩
  have htimes : Conceals V _ { m with timetable := m.timetable.withWait ticket } m' :=
    { h.seenBy hC.toExtends with times := h.times.newHidden hticket }
  refine htimes.updateLeft hcast (fun _ => rfl) fun {x} hx hs => ?_
  have hopens := hs.pending.append (.single (hpending hself))
  rw [h.nextSeq_eq]
  exact hs.pend _ [] hopens

theorem waitShown (h : Conceals V C m m') (hcast : C.job job (some job'))
    (hticket : C.seat ticket (some ticket')) (pending : WaitId → OpenWait)
    (hpending : ∀ {C : Casting} {w o}, C.wait w o → C.Opens (w, pending w) (o.map fun w => (w, pending w))) :
    ∃ C', C.Grows C' ∧ C'.wait m.timetable.waits.size (some m'.timetable.waits.size) ∧
      Conceals V C' (m.withWait ticket job (pending m.timetable.waits.size))
        (m'.withWait ticket' job' (pending m'.timetable.waits.size)) := by
  have hC := C.grows_wait m.timetable.waits.size (some m'.timetable.waits.size)
  have hself := C.wait.add_self m.timetable.waits.size (some m'.timetable.waits.size)
  refine ⟨_, hC, hself, ?_⟩
  have htimes : Conceals V _ { m with timetable := m.timetable.withWait ticket }
      { m' with timetable := m'.timetable.withWait ticket' } :=
    { h.seenBy hC.toExtends with times := h.times.newShown hticket }
  refine htimes.updateShown hcast (fun _ => rfl) fun _ _ hs => ?_
  have hopens := hs.pending.append (.single (hpending hself))
  rw [h.nextSeq_eq, h.nextSeq_eq']
  exact hs.pend _ _ hopens

theorem beginDelayHidden (h : Conceals V C m m') (hcast : C.job job none) (hticket : C.seat ticket none)
    (duration : Nat) :
    ∃ C', C.Grows C' ∧ (∀ on, (m.beginDelay ticket job duration).1 = .suspended on → C'.On on none) ∧
      Conceals V C' (m.beginDelay ticket job duration).2 m' := by
  cases hc : m.isCancelled job with
  | true =>
    rw [beginDelay, hc, if_pos rfl]
    refine ⟨C, .refl C, fun on hon => ?_, h.wake hticket⟩
    cases hon
  | false =>
    obtain ⟨C', hC, hw, hwait⟩ := h.waitHidden hcast hticket (fun _ => .timer) .timer
    rw [beginDelay_eq m hc, h.nextSeq_eq]
    refine ⟨C', hC, fun on hon => ?_, ?_⟩
    · cases hon
      exact .waitHidden (hC.job hcast) hw
    · have hnone : (m.withWait ticket job .timer).timetable.timer? m.timetable.waits.size = none :=
        h.times.tidy.timer?_eq_none (Nat.le_refl _)
      exact { hwait with times := hwait.times.addTimerHidden hw hnone _ }

theorem beginDelayShown (h : Conceals V C m m') (hcast : C.job job (some job'))
    (hticket : C.seat ticket (some ticket')) (htime : C.time' = C.time) (duration : Nat) :
    ∃ C', C.Grows C' ∧
      C'.Begins (m.beginDelay ticket job duration).1 (m'.beginDelay ticket' job' duration).1 ∧
      Conceals V C' (m.beginDelay ticket job duration).2 (m'.beginDelay ticket' job' duration).2 := by
  have hcancelled := h.isCancelled hcast
  cases hc : m.isCancelled job with
  | true =>
    rw [beginDelay, hc, if_pos rfl, beginDelay, hcancelled, hc, if_pos rfl]
    exact ⟨C, .refl C, .refused, h.wake hticket⟩
  | false =>
    obtain ⟨C', hC, hw, hwait⟩ := h.waitShown hcast hticket (fun _ => .timer) .timer
    have hnow : m'.now = m.now := h.times.now'.trans (htime.trans h.times.now.symm)
    rw [beginDelay_eq m hc, beginDelay_eq m' (hcancelled.trans hc), h.nextSeq_eq, h.nextSeq_eq', hnow]
    refine ⟨C', hC, .suspended (.wait (hC.job hcast) hw), ?_⟩
    have hnone : (m.withWait ticket job .timer).timetable.timer? m.timetable.waits.size = none :=
      h.times.tidy.timer?_eq_none (Nat.le_refl _)
    exact { hwait with times := hwait.times.addTimerShown hw hnone _ }

theorem beginSignalWaitHidden (h : Conceals V C m m') (hcast : C.job job none)
    (hticket : C.seat ticket none) {p : Option SignalId} (hs : C.signal s p) :
    ∃ C', C.Grows C' ∧ C'.On (m.beginSignalWait ticket job s).1 none ∧
      Conceals V C' (m.beginSignalWait ticket job s).2 m' := by
  obtain ⟨C', hC, hw, hwait⟩ := h.waitHidden hcast hticket .signal .signal
  rw [beginSignalWait_eq, h.nextSeq_eq]
  refine ⟨C', hC, .waitHidden (hC.job hcast) hw, ?_⟩
  have hsignals := hwait.signals.modifyLeft (hC.signal hs)
    (f := fun x => { x with waiters := x.waiters ++ [m.timetable.waits.size] }) fun {x} _ hx => by
      have hwaiters := hx.waiters.append (.single hw)
      rw [Option.toList_none, List.append_nil] at hwaiters
      exact ⟨hx.fired, hwaiters⟩
  exact { hwait with signals := hsignals }

theorem beginSignalWaitShown (h : Conceals V C m m') (hcast : C.job job (some job'))
    (hticket : C.seat ticket (some ticket')) (hs : C.signal s (some s')) :
    ∃ C', C.Grows C' ∧
      C'.On (m.beginSignalWait ticket job s).1 (some (m'.beginSignalWait ticket' job' s').1) ∧
      Conceals V C' (m.beginSignalWait ticket job s).2 (m'.beginSignalWait ticket' job' s').2 := by
  obtain ⟨C', hC, hw, hwait⟩ := h.waitShown hcast hticket .signal .signal
  rw [beginSignalWait_eq, beginSignalWait_eq, h.nextSeq_eq, h.nextSeq_eq']
  refine ⟨C', hC, .wait (hC.job hcast) hw, ?_⟩
  have hsignals := hwait.signals.modify (hC.signal hs)
    (f := fun x => { x with waiters := x.waiters ++ [m.timetable.waits.size] })
    (g := fun x => { x with waiters := x.waiters ++ [m'.timetable.waits.size] }) fun {x y} _ hy hx => by
      obtain ⟨-, x', -, hx', -⟩ := hwait.signals.exists_get_shown (hC.signal hs)
      obtain rfl : some x' = y := hx'.symm.trans hy
      exact ⟨fun _ he => Option.some.inj he ▸ hx.fired x' rfl, hx.waiters.append (.single hw)⟩
  exact { hwait with signals := hsignals }

theorem beginJoinHidden (h : Conceals V C m m') (hcast : C.job job none) (hticket : C.seat ticket none)
    {p : Option SignalId} (hs : C.signal s p) :
    ∃ C', C.Grows C' ∧ (∀ on, (m.beginJoin ticket job s).1 = .suspended on → C'.On on none) ∧
      Conceals V C' (m.beginJoin ticket job s).2 m' := by
  unfold Machine.beginJoin
  split
  · exact ⟨C, .refl C, nofun, h⟩
  · split
    · exact ⟨C, .refl C, nofun, h⟩
    · obtain ⟨C', hC, hon, hwait⟩ := h.beginSignalWaitHidden hcast hticket hs
      exact ⟨C', hC, fun _ he => WaitStart.suspended.inj he ▸ hon, hwait⟩

theorem beginJoinShown (h : Conceals V C m m') (hcast : C.job job (some job'))
    (hticket : C.seat ticket (some ticket')) (hs : C.signal s (some s')) :
    ∃ C', C.Grows C' ∧ C'.Begins (m.beginJoin ticket job s).1 (m'.beginJoin ticket' job' s').1 ∧
      Conceals V C' (m.beginJoin ticket job s).2 (m'.beginJoin ticket' job' s').2 := by
  unfold Machine.beginJoin
  rw [h.isCancelled hcast, h.hasFired hs]
  split
  · exact ⟨C, .refl C, .refused, h⟩
  · split
    · exact ⟨C, .refl C, .through, h⟩
    · obtain ⟨C', hC, hon, hwait⟩ := h.beginSignalWaitShown hcast hticket hs
      exact ⟨C', hC, .suspended hon, hwait⟩

theorem beginAwaitShown (h : Conceals V C m m') (hcast : C.job job (some job'))
    (hticket : C.seat ticket (some ticket')) (hs : C.signal s (some s')) :
    ∃ C', C.Grows C' ∧ C'.Begins (m.beginAwait ticket job s).1 (m'.beginAwait ticket' job' s').1 ∧
      Conceals V C' (m.beginAwait ticket job s).2 (m'.beginAwait ticket' job' s').2 := by
  unfold Machine.beginAwait
  rw [h.hasFired hs]
  split
  · exact ⟨C, .refl C, .through, h⟩
  · exact h.beginJoinShown hcast hticket hs

theorem forgetHidden (h : Conceals V C m m') (hcast : C.job job none) (waiter : Nat) :
    Conceals V C (m.forget job waiter) m' := by
  refine h.updateLeft hcast (fun _ => rfl) fun {x} hx hs => ?_
  exact hs.pend _ [] (.of_hidden fun p hp => hs.pending.hidden_of_mem (List.mem_filter.1 hp).1)

theorem forgetShown (h : Conceals V C m m') (hcast : C.job job (some job')) {w w' : WaitId}
    (hw : C.wait w (some w')) : Conceals V C (m.forget job w) (m'.forget job' w') := by
  refine h.updateShown hcast ?_ fun _ _ hs => ?_
  · exact fun _ => rfl
  · refine hs.pend _ _ (hs.pending.filter fun p q _ hpq => ?_)
    have hiff : p.1 = w ↔ q.1 = w' := h.times.waits.fits.eq_iff hpq.wait hw
    rw [Bool.eq_iff_iff, bne_iff_ne, bne_iff_ne, ne_eq, ne_eq, hiff]

theorem resumptionHidden (h : Conceals V C m m') (hticket : C.seat ticket none) {on : Suspension}
    (hon : C.On on none) : Conceals V C (m.resumption ticket on).2 m' := by
  generalize ho : (none : Option Suspension) = o at hon
  cases hon with
  | entry => exact h
  | waitHidden hjob hw =>
    unfold resumption
    dsimp only
    split
    · exact h
    · exact h.forgetHidden hjob _
    · exact { h with times := h.times.setSleeper hw hticket rfl }
  | wait => cases ho
  | @children job o hjob hne =>
    obtain rfl : o = none := Option.map_eq_none_iff.1 ho.symm
    exact h.awaitChildrenHidden hjob hticket
  | turn => exact h

theorem resumptionShown (h : Conceals V C m m') (hticket : C.seat ticket (some ticket'))
    {on on' : Suspension} (hon : C.On on (some on')) :
    (m'.resumption ticket' on').1 = (m.resumption ticket on).1 ∧
      Conceals V C (m.resumption ticket on).2 (m'.resumption ticket' on').2 := by
  generalize ho : some on' = o at hon
  cases hon with
  | @entry job p hjob =>
    obtain ⟨job', rfl, rfl⟩ := Option.map_eq_some_iff.1 ho.symm
    unfold resumption
    dsimp only
    rw [h.isCancelled hjob]
    exact ⟨rfl, h⟩
  | waitHidden => cases ho
  | wait hjob hw =>
    cases ho
    obtain ⟨x, x', hx, hx', hsees⟩ := h.times.waits.exists_get_shown hw
    have hstage := hsees.stage x' rfl
    unfold resumption
    dsimp only
    rw [hx, hx', h.isCancelled hjob]
    cases x with
    | pending s =>
      cases x' with
      | pending s' => exact ⟨rfl, { h with times := h.times.setSleeper hw hticket rfl }⟩
      | done | cancelled => cases hstage
    | done =>
      cases x' with
      | done => exact ⟨rfl, h.forgetShown hjob hw⟩
      | pending s' | cancelled => cases hstage
    | cancelled =>
      cases x' with
      | cancelled => exact ⟨rfl, h⟩
      | pending s' | done => cases hstage
  | @children job p hjob hne =>
    obtain ⟨job', rfl, rfl⟩ := Option.map_eq_some_iff.1 ho.symm
    obtain ⟨hidle, hwait⟩ := h.awaitChildrenShown hjob hne hticket
    unfold resumption
    dsimp only
    rw [hidle]
    exact ⟨rfl, hwait⟩
  | turn =>
    obtain ⟨-, -, rfl⟩ := Option.map_eq_some_iff.1 ho.symm
    exact ⟨rfl, h⟩

variable {time : Nat}

theorem timed (h : Conceals V C m m') {a b : Nat} {r r' : List Ticket × Timetable}
    (hr : (C.timed a b).Rouses r r') :
    Conceals V (C.timed a b) ({ m with timetable := r.2 }.wakeAll r.1)
      ({ m' with timetable := r'.2 }.wakeAll r'.1) := by
  have hC := C.extends_timed a b
  have htimes : Conceals V (C.timed a b) { m with timetable := r.2 } { m' with timetable := r'.2 } :=
    { h.seenBy hC with times := hr.times }
  exact htimes.wakeAll hr.sleepers

theorem advance (h : Conceals V C m m') (hnext : m.timetable.clock.next? = some time)
    (hnext' : m'.timetable.clock.next? = some time) (htime : C.time ≤ time) (htime' : C.time' ≤ time) :
    Conceals V (C.timed time time) m.advance.2 m'.advance.2 :=
  h.timed (h.times.advance hnext hnext' htime htime')

/-- The second clock stands still while the first comes to a hidden timer. -/
theorem advanceHidden (h : Conceals V C m m') (hnext : m.timetable.clock.next? = some time)
    (hnext' : m'.timetable.clock.next? ≠ some time) (htime : C.time ≤ time) :
    Conceals V (C.timed time C.time') m.advance.2 m' :=
  h.timed (h.times.advanceHidden hnext hnext' htime)

end Conceals

end Machine

end RacePuzzle
