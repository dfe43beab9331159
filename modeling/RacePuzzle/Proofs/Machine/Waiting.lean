import RacePuzzle.Machine.Suspension
import RacePuzzle.Proofs.Machine.Cancellation
import RacePuzzle.Proofs.Machine.Dispatcher
import RacePuzzle.Proofs.Time.Timetable

/-! Why a suspended task sleeps. Whatever keeps it from going on knows the task, and will wake it:
nothing that happens to the machine loses a sleeper. -/
namespace RacePuzzle.Machine

variable {ε τ : Type} {m m' m'' : Machine ε τ}

/-- What will resolve a wait that is pending: a timer, or a signal that has not fired. -/
def Source (m : Machine ε τ) (waiter : Nat) (w : WaitId) : OpenWait → Prop
  | .timer => ∃ timer, m.timetable.timer? waiter = some timer ∧ timer.content = w
  | .signal w' => w' = w ∧
    ∃ (s : SignalId) (waiters : List WaitId), m.signals[s]? = some ⟨false, waiters⟩ ∧ w ∈ waiters

/-- The task sleeps on a wait of a job that is not cancelled and lists the wait. -/
structure Sleeps (m : Machine ε τ) (i : Ticket) (j : JobId) (waiter : Nat) (w : WaitId) : Prop where
  pending : m.timetable.waits[w]? = some (.pending (some i))
  listed : ∃ job on, m.job? j = some job ∧ job.cancelled = false ∧ (waiter, on) ∈ job.pending ∧
    m.Source waiter w on

/-- A task sleeps on a wait only as long as the job of the wait is not cancelled. -/
theorem Sleeps.not_cancelled {i : Ticket} {j : JobId} {waiter : Nat} {w : WaitId} {job : Job}
    (h : m.Sleeps i j waiter w) (hj : m.job? j = some job) : job.cancelled = false := by
  obtain ⟨job', -, hj', hc, -⟩ := h.listed
  obtain rfl := Option.some.inj (hj.symm.trans hj')
  exact hc

/-- A suspended task is about to be polled, or sleeps on what will wake it. -/
def Waits (m : Machine ε τ) (i : Ticket) : Suspension → Prop
  | .entry _ => m.dispatcher.isQueued i = true
  | .wait j waiter w =>
    m.timetable.IsOver w ∧ m.dispatcher.isQueued i = true ∨ m.Sleeps i j waiter w
  | .children j => ∃ job, m.job? j = some job ∧
    (job.children = [] ∧ m.dispatcher.isQueued i = true ∨
      job.children ≠ [] ∧ job.idleSleeper = some i)
  | .turn => False

/-- The wait is for nothing but the signal, and is done only once that has fired; a wait for no
signal is for a timer. -/
structure Heeds (m : Machine ε τ) (w : WaitId) (source : Option SignalId) : Prop where
  lt : w < m.timetable.waits.size
  done : ∀ {s}, source = some s → m.timetable.waits[w]? = some .done → m.hasFired s = true
  only : ∀ {s signal}, m.signals[s]? = some signal → w ∈ signal.waiters → source = some s
  untimed : source.isSome → ∀ {k timer}, m.timetable.timer? k = some timer → timer.content ≠ w

/-- What any change of the machine leaves true. Of the suspensions only the `allowed` ones are
looked at. -/
structure Evolves (allowed : Suspension → Prop) (m m' : Machine ε τ) : Prop where
  size : m.dispatcher.tickets.size ≤ m'.dispatcher.tickets.size
  finished : ∀ {i}, i < m.dispatcher.tickets.size →
    m'.dispatcher.hasFinished i = m.dispatcher.hasFinished i
  waits : ∀ {i on}, i < m.dispatcher.tickets.size → m.dispatcher.hasFinished i = false →
    allowed on → m.Waits i on → m'.Waits i on
  heeds : ∀ {w source}, m.Heeds w source → m'.Heeds w source
  nextSeq : m.timetable.clock.nextSeq ≤ m'.timetable.clock.nextSeq
  cancelled : ∀ {j}, m.isCancelled j = true → m'.isCancelled j = true
  fired : ∀ {s}, m.hasFired s = true → m'.hasFired s = true
  bond : ∀ {j b}, m.bond? j = some b → ∃ b', m'.bond? j = some b' ∧
    b'.completion = b.completion ∧ (b.outcome.isSome → b'.outcome = b.outcome)

variable {allowed : Suspension → Prop}

theorem Evolves.refl (m : Machine ε τ) : Evolves allowed m m where
  size := Nat.le_refl _
  finished _ := rfl
  waits _ _ _ h := h
  heeds h := h
  nextSeq := Nat.le_refl _
  cancelled h := h
  fired h := h
  bond h := ⟨_, h, rfl, fun _ => rfl⟩

theorem Evolves.trans (h : Evolves allowed m m') (h' : Evolves allowed m' m'') :
    Evolves allowed m m'' where
  size := Nat.le_trans h.size h'.size
  finished hi := (h'.finished (Nat.lt_of_lt_of_le hi h.size)).trans (h.finished hi)
  waits hi hf ha hw := h'.waits (Nat.lt_of_lt_of_le hi h.size) ((h.finished hi).trans hf) ha
    (h.waits hi hf ha hw)
  heeds hw := h'.heeds (h.heeds hw)
  nextSeq := Nat.le_trans h.nextSeq h'.nextSeq
  cancelled hc := h'.cancelled (h.cancelled hc)
  fired hs := h'.fired (h.fired hs)
  bond hb := by
    obtain ⟨b', hb', hc, ho⟩ := h.bond hb
    obtain ⟨b'', hb'', hc', ho'⟩ := h'.bond hb'
    refine ⟨b'', hb'', hc'.trans hc, fun hs => ?_⟩
    rw [ho' (by rwa [ho hs]), ho hs]

theorem evolves_updateEnv (m : Machine ε τ) (f : ε → ε) : Evolves allowed m (m.updateEnv f) where
  size := Nat.le_refl _
  finished _ := rfl
  waits {i on} _ _ _ h := by
    cases on with
    | entry j => exact h
    | wait j waiter w => exact h.imp id fun h => ⟨h.pending, h.listed⟩
    | children j => exact h
    | turn => exact h
  heeds h := ⟨h.lt, h.done, h.only, h.untimed⟩
  nextSeq := Nat.le_refl _
  cancelled h := h
  fired h := h
  bond h := ⟨_, h, rfl, fun _ => rfl⟩

theorem evolves_wakeAll (m : Machine ε τ) (ss : List Ticket) :
    Evolves allowed m (m.wakeAll ss) where
  size := Nat.le_of_eq (Dispatcher.size_tickets_wakeAll ..).symm
  finished _ := Dispatcher.hasFinished_wakeAll ..
  waits {i on} _ _ _ h := by
    have hq : m.dispatcher.isQueued i = true → (m.wakeAll ss).dispatcher.isQueued i = true :=
      fun h => Dispatcher.isQueued_wakeAll_of h ss
    cases on with
    | entry j => exact hq h
    | wait j waiter w =>
      exact h.imp (fun h => ⟨h.1, hq h.2⟩) fun h => ⟨h.pending, h.listed⟩
    | children j =>
      obtain ⟨job, hj, h⟩ := h
      exact ⟨job, hj, h.imp (fun h => ⟨h.1, hq h.2⟩) id⟩
    | turn => exact h
  heeds h := ⟨h.lt, h.done, h.only, h.untimed⟩
  nextSeq := Nat.le_refl _
  cancelled h := h
  fired h := h
  bond h := ⟨_, h, rfl, fun _ => rfl⟩

theorem evolves_wake (m : Machine ε τ) (i : Ticket) : Evolves allowed m (m.wake i) :=
  evolves_wakeAll m [i]

/-- Waits of `m` are resolved, which gives the timetable `t`. Timers may go off and a signal may
fire, as long as the waits that they stood for are among the resolved ones. -/
structure Resolution (outcome : Wait) (ws : List WaitId) (ss : List Ticket) (m : Machine ε τ)
    (t : Timetable) (signals : Array Signal) : Prop where
  resolves : Timetable.Resolves outcome ws { m.timetable with clock := t.clock } ss t
  final : outcome = .done ∨ outcome = .cancelled
  seq : t.clock.nextSeq = m.timetable.clock.nextSeq
  timers : ∀ {k timer}, m.timetable.timer? k = some timer →
    t.timer? k = some timer ∨ timer.content ∈ ws
  live : ∀ {k timer}, t.timer? k = some timer → m.timetable.timer? k = some timer
  complete : m.timetable.clock.timers.Complete → t.clock.timers.Complete
  unfired : ∀ {s : SignalId} {waiters : List WaitId}, m.signals[s]? = some ⟨false, waiters⟩ →
    signals[s]? = some ⟨false, waiters⟩ ∨ ∀ w ∈ waiters, w ∈ ws
  waiters : ∀ {s : SignalId} {signal : Signal}, signals[s]? = some signal →
    ∃ signal₀, m.signals[s]? = some signal₀ ∧ ∀ w ∈ signal.waiters, w ∈ signal₀.waiters
  fired : ∀ {s : SignalId}, m.hasFired s = true → (signals[s]?).any (·.fired) = true
  done : outcome = .done → ∀ w ∈ ws, ∀ s, m.Heeds w (some s) → (signals[s]?).any (·.fired) = true

section Resolution

variable {outcome : Wait} {ws : List WaitId} {ss : List Ticket} {t : Timetable}
  {signals : Array Signal}

theorem Resolution.sleeps (h : Resolution outcome ws ss m t signals) {i : Ticket} {j : JobId}
    {k : Nat} {w : WaitId} (hs : m.Sleeps i j k w) (hw : w ∉ ws) :
    ({ m with timetable := t, signals := signals }.wakeAll ss).Sleeps i j k w := by
  refine ⟨(h.resolves.untouched w hw).trans hs.pending, ?_⟩
  obtain ⟨job, on, hj, hc, hp, hsource⟩ := hs.listed
  refine ⟨job, on, hj, hc, hp, ?_⟩
  cases on with
  | timer =>
    obtain ⟨timer, ht, rfl⟩ := hsource
    exact ⟨timer, (h.timers ht).resolve_right hw, rfl⟩
  | signal w' =>
    obtain ⟨rfl, s, waiters, hs, hin⟩ := hsource
    exact ⟨rfl, s, waiters, (h.unfired hs).resolve_right fun hall => hw (hall w' hin), hin⟩

theorem Resolution.heeds (h : Resolution outcome ws ss m t signals) {w : WaitId}
    {source : Option SignalId} (hw : m.Heeds w source) :
    ({ m with timetable := t, signals := signals }.wakeAll ss).Heeds w source := by
  have hsize : t.waits.size = m.timetable.waits.size := h.resolves.size
  refine ⟨Nat.lt_of_lt_of_eq hw.lt hsize.symm, fun {s} he hd => ?_, fun {s signal} hs hin => ?_,
    fun hsome {k timer} ht => hw.untimed hsome (h.live ht)⟩
  · subst he
    by_cases hpending : ∃ r, m.timetable.waits[w]? = some (.pending r)
    · obtain ⟨r, hr⟩ := hpending
      by_cases hmem : w ∈ ws
      · have ho := (h.resolves.hit w hmem r hr).1
        exact h.done (Option.some.inj (ho.symm.trans hd)) w hmem s hw
      · have hu := (h.resolves.untouched w hmem).symm.trans hd
        exact absurd (hr.symm.trans hu) (by simp)
    · have hu := (h.resolves.kept w fun r hr => hpending ⟨r, hr⟩).symm.trans hd
      exact h.fired (hw.done rfl hu)
  · obtain ⟨signal₀, h₀, hsub⟩ := h.waiters hs
    exact hw.only h₀ (hsub w hin)

theorem Resolution.evolves (h : Resolution outcome ws ss m t signals) :
    Evolves allowed m ({ m with timetable := t, signals := signals }.wakeAll ss) where
  size := Nat.le_of_eq (Dispatcher.size_tickets_wakeAll ..).symm
  finished _ := Dispatcher.hasFinished_wakeAll ..
  waits {i on} hi hf _ hw := by
    have hq : m.dispatcher.isQueued i = true →
        (m.wakeAll ss).dispatcher.isQueued i = true := fun h => Dispatcher.isQueued_wakeAll_of h ss
    cases on with
    | entry j => exact hq hw
    | children j =>
      obtain ⟨job, hj, hjob⟩ := hw
      exact ⟨job, hj, hjob.imp (fun h => ⟨h.1, hq h.2⟩) id⟩
    | turn => exact hw
    | wait j waiter w =>
      rcases hw with ⟨hover, hqueued⟩ | hsleep
      · exact .inl ⟨h.resolves.isOver hover, hq hqueued⟩
      · by_cases hmem : w ∈ ws
        · obtain ⟨ho, hwoken⟩ := h.resolves.hit w hmem _ hsleep.pending
          refine .inl ⟨?_, Dispatcher.isQueued_wakeAll_of_mem hi hf (hwoken i rfl)⟩
          rcases h.final with rfl | rfl
          · exact .inl ho
          · exact .inr ho
        · exact .inr (h.sleeps hsleep hmem)
  heeds := h.heeds
  nextSeq := Nat.le_of_eq h.seq.symm
  cancelled h := h
  fired := h.fired
  bond h := ⟨_, h, rfl, fun _ => rfl⟩

end Resolution

theorem set_eq_updateJob {j : JobId} {job : Job} (h : m.job? j = some job) (new : Job) :
    ({ m with jobs := m.jobs.setIfInBounds j new } : Machine ε τ) = m.updateJob j fun _ => new :=
  (updateJob_eq_set h fun _ => new).symm

/-- A job changes, and with it none of the waits that are looked at. -/
theorem evolves_updateJob {j : JobId} {f : Job → Job}
    (hcancel : ∀ job, m.job? j = some job → job.cancelled = true → (f job).cancelled = true)
    (hbond : ∀ job, m.job? j = some job → (f job).completion = job.completion ∧
      (job.outcome.isSome → (f job).outcome = job.outcome))
    (hwait : ∀ job, m.job? j = some job → ∀ i k w, allowed (.wait j k w) → m.Sleeps i j k w →
      (f job).cancelled = false ∧
        ∀ on, (k, on) ∈ job.pending → m.Source k w on → (k, on) ∈ (f job).pending)
    (hchildren : ∀ job, m.job? j = some job → allowed (.children j) →
      (f job).children = job.children ∧ (f job).idleSleeper = job.idleSleeper) :
    Evolves allowed m (m.updateJob j f) where
  size := Nat.le_refl _
  finished _ := rfl
  waits {i on} _ _ ha hw := by
    cases on with
    | entry j' => exact hw
    | wait j' k w =>
      refine hw.imp id fun hs => ⟨hs.pending, ?_⟩
      obtain ⟨job, on, hj, hc, hp, hsrc⟩ := hs.listed
      rw [job?_updateJob]
      split
      · next hjj =>
        subst hjj
        obtain ⟨hc', hp'⟩ := hwait job hj i k w ha hs
        exact ⟨f job, on, by rw [hj]; rfl, hc', hp' on hp hsrc, hsrc⟩
      · exact ⟨job, on, hj, hc, hp, hsrc⟩
    | children j' =>
      obtain ⟨job, hj, h⟩ := hw
      simp only [Waits, job?_updateJob]
      split
      · next hjj =>
        subst hjj
        obtain ⟨hc, hs⟩ := hchildren job hj ha
        exact ⟨f job, by rw [hj]; rfl, by rwa [hc, hs]⟩
      · exact ⟨job, hj, h⟩
    | turn => exact hw
  heeds h := ⟨h.lt, h.done, h.only, h.untimed⟩
  nextSeq := Nat.le_refl _
  cancelled {k} hk := by
    obtain ⟨job, hjob, hc⟩ := exists_of_isCancelled hk
    unfold isCancelled
    rw [job?_updateJob]
    split
    · next hkj =>
      subst hkj
      simpa [hjob] using hcancel job hjob hc
    · simpa [hjob] using hc
  fired h := h
  bond {k b} hk := by
    obtain ⟨job, hjob, rfl⟩ := bond?_eq_some.1 hk
    unfold bond?
    rw [job?_updateJob]
    split
    · next hkj =>
      subst hkj
      obtain ⟨hc, ho⟩ := hbond job hjob
      exact ⟨(f job).bond, by rw [hjob]; rfl, hc, ho⟩
    · exact ⟨job.bond, by rw [hjob]; rfl, rfl, fun _ => rfl⟩

theorem evolves_updateJob_of {j : JobId} {f : Job → Job}
    (hcancel : ∀ job, (f job).cancelled = job.cancelled)
    (hbond : ∀ job, m.job? j = some job → (f job).completion = job.completion ∧
      (job.outcome.isSome → (f job).outcome = job.outcome))
    (hpending : ∀ job, (f job).pending = job.pending)
    (hchildren : ∀ job, (f job).children = job.children)
    (hsleeper : ∀ job, (f job).idleSleeper = job.idleSleeper) :
    Evolves allowed m (m.updateJob j f) := by
  refine evolves_updateJob (fun job _ h => (hcancel job).trans h) hbond
    (fun job hj i k w _ hs => ?_) fun job _ _ => ⟨hchildren job, hsleeper job⟩
  exact ⟨(hcancel job).trans (hs.not_cancelled hj), fun on hp _ => by rwa [hpending]⟩

end RacePuzzle.Machine
