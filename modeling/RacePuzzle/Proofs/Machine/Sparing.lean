import RacePuzzle.Proofs.Machine.Smooth

/-! Waits for a time. Whatever is done to a machine, a wait that no signal knows gets no other timer and
is not done before its time; only the clock does it. Cancellations may interrupt it. -/
namespace RacePuzzle.Machine

variable {ε τ : Type} {m m' m'' : Machine ε τ} {w : WaitId} {time : Nat}

/-- The wait is for nothing but the time: its timers go off then, and it is done only when the clock
shows it. -/
structure Due (m : Machine ε τ) (w : WaitId) (time : Nat) : Prop where
  heeds : m.Heeds w none
  timer : ∀ {k timer}, m.timetable.timer? k = some timer → timer.content = w → timer.deadline = time
  done : m.timetable.waits[w]? = some .done → m.now = time

structure Spares (m m' : Machine ε τ) : Prop where
  due : ∀ {w time}, m.Due w time → m'.Due w time

theorem Spares.refl (m : Machine ε τ) : Spares m m := ⟨id⟩

theorem Spares.trans (h : Spares m m') (h' : Spares m' m'') : Spares m m'' :=
  ⟨fun hdue => h'.due (h.due hdue)⟩

theorem Spares.ofTimetable (ht : m'.timetable = m.timetable) (hs : m'.signals = m.signals) :
    Spares m m' where
  due h := by
    refine ⟨h.heeds.congr ht hs, fun htimer => h.timer (ht ▸ htimer), fun hdone => ?_⟩
    rw [now, ht]
    exact h.done (ht ▸ hdone)

theorem heeds_none_iff : m.Heeds w none ↔ w < m.timetable.waits.size ∧
    ∀ {s : SignalId} {signal : Signal}, m.signals[s]? = some signal → w ∉ signal.waiters :=
  ⟨fun h => ⟨h.lt, fun hs hw => nomatch h.only hs hw⟩,
    fun h => ⟨h.1, nofun, fun hs hw => absurd hw (h.2 hs), nofun⟩⟩

/-- Waits are resolved, none of those for a time as done. -/
theorem Resolution.spares {outcome : Wait} {ws : List WaitId} {ss : List Ticket} {t : Timetable}
    {signals : Array Signal} (h : Resolution outcome ws ss m t signals) (hnow : t.now = m.now)
    (hdone : outcome = .done → ∀ w ∈ ws, ¬ m.Heeds w none) :
    Spares m ({ m with timetable := t, signals := signals }.wakeAll ss) := by
  refine ⟨fun {w time} hdue => ?_⟩
  refine ⟨h.heeds hdue.heeds, fun htimer => hdue.timer (h.live htimer), fun hw => ?_⟩
  refine hnow.trans (hdue.done ?_)
  have hw : t.waits[w]? = some .done := hw
  by_cases hpending : ∃ s, m.timetable.waits[w]? = some (.pending s)
  · obtain ⟨s, hs⟩ := hpending
    by_cases hmem : w ∈ ws
    · have hout := Option.some.inj ((h.resolves.hit w hmem s hs).1.symm.trans hw)
      exact absurd hdue.heeds (hdone hout w hmem)
    · exact (h.resolves.untouched w hmem).symm.trans hw
  · exact (h.resolves.kept w fun s hs => hpending ⟨s, hs⟩).symm.trans hw

theorem spares_interrupt (m : Machine ε τ) (wait : Nat × OpenWait) : Spares m (m.interrupt wait) := by
  have hnow := (spends_interrupt m wait).now
  obtain ⟨waiter, on⟩ := wait
  cases on with
  | signal w => exact (resolution_resolve m w).spares hnow nofun
  | timer => exact (resolution_cancelTimer m waiter).choose_spec.spares hnow nofun

theorem spares_interruptAll (m : Machine ε τ) (waits : List (Nat × OpenWait)) :
    Spares m (m.interruptAll waits) := by
  induction waits generalizing m with
  | nil => exact .refl m
  | cons wait rest ih => exact (spares_interrupt m wait).trans (ih (m.interrupt wait))

theorem spares_cancelOne (m : Machine ε τ) (j : JobId) (job : Job) :
    Spares m (m.cancelOne j job) := by
  have hset : Spares m
      { m with jobs := m.jobs.setIfInBounds j { job with cancelled := true, pending := [] } } :=
    .ofTimetable rfl rfl
  exact hset.trans (spares_interruptAll _ _)

theorem spares_cancel (m : Machine ε τ) (j : JobId) : Spares m (m.cancel j) :=
  cancelAll_induction .refl .trans (fun _ _ => spares_cancelOne ..) m [j]

theorem spares_fail (m : Machine ε τ) (j : JobId) (kind : ExceptionKind) : Spares m (m.fail j kind) :=
  fail_induction .refl .trans (fun _ _ => spares_cancelOne ..) (fun _ _ _ => .ofTimetable rfl rfl) m j
    kind

theorem spares_conclude (m : Machine ε τ) (j : JobId) (result : Completion) :
    Spares m (m.conclude j result) := by
  unfold conclude
  split
  · exact .refl m
  · exact spares_cancel m j
  · exact spares_fail m j _

theorem spares_passOnFailure (m : Machine ε τ) (job : Job) : Spares m (m.passOnFailure job) := by
  unfold passOnFailure
  split
  · split
    · exact .refl m
    · exact spares_fail m _ _
  · exact .refl m

/-- A signal that fires does the waits that it knows. -/
theorem spares_fire (m : Machine ε τ) (s : SignalId) : Spares m (m.fire s) := by
  have hnow := (spends_fire m s).now
  unfold fire at hnow ⊢
  split
  · next waiters hs =>
    rw [hs] at hnow
    exact (resolution_fire hs).spares hnow fun _ w hw hheeds => (heeds_none_iff.1 hheeds).2 hs hw
  · exact .refl m

theorem spares_newSignal (m : Machine ε τ) : Spares m m.newSignal.2 where
  due h := ⟨(evolves_newSignal m : Evolves (fun _ => True) m _).heeds h.heeds, h.timer, h.done⟩

theorem spares_child (m : Machine ε τ) (p : JobId) (kind : JobRole) : Spares m (m.child p kind).2 :=
  Spares.trans (spares_newSignal m) (.ofTimetable rfl rfl)

theorem spares_unlink (m : Machine ε τ) (p c : JobId) : Spares m (m.unlink p c) :=
  .ofTimetable (timetable_unlink m p c) (signals_unlink m p c)

theorem spares_settle (m : Machine ε τ) (j : JobId) : Spares m (m.settle j).2 := by
  unfold settle
  split
  · exact .refl m
  · next job _ =>
    have hended : Spares m (m.updateJob j ({ · with
      outcome := some job.finalOutcome
      failureReported := job.failureReported || job.failure.isSome })) := .ofTimetable rfl rfl
    have hfired := (hended.trans (spares_passOnFailure _ job)).trans (spares_fire _ job.completion)
    cases job.parent with
    | none => exact hfired.trans (.ofTimetable rfl rfl)
    | some p => exact (hfired.trans (spares_unlink _ p j)).trans (.ofTimetable rfl rfl)

theorem spares_close (m : Machine ε τ) (ticket : Ticket) (j : JobId) (result : Completion) :
    Spares m (m.close ticket j result).2 := by
  have hawait : Spares m ((m.conclude j result).awaitChildren ticket j).2 :=
    (spares_conclude m j result).trans (.ofTimetable rfl rfl)
  unfold close
  dsimp only
  split
  · exact hawait.trans (spares_settle _ j)
  · exact hawait

/-- The timer of a delay is for a new wait. -/
theorem spares_beginDelay (hm : m.Orderly) (ticket : Ticket) (j : JobId) (duration : Nat) :
    Spares m (m.beginDelay ticket j duration).2 := by
  cases hc : m.isCancelled j with
  | true =>
    unfold beginDelay
    rw [hc]
    exact .ofTimetable rfl rfl
  | false =>
    obtain ⟨m', hbegin, hdelay⟩ := delayBegun_beginDelay hm hc ticket duration
    have hsignals : m'.signals = m.signals := by
      unfold beginDelay at hbegin
      rw [hc] at hbegin
      exact (Prod.mk.inj hbegin).2 ▸ rfl
    rw [hbegin]
    refine ⟨fun {w time} hdue => ?_⟩
    obtain ⟨hlt, hknown⟩ := heeds_none_iff.1 hdue.heeds
    have hsame : m'.timetable.waits[w]? = m.timetable.waits[w]? :=
      (hdelay.waits w).trans (if_neg (Nat.ne_of_lt hlt))
    refine ⟨heeds_none_iff.2 ⟨?_, fun hs => hknown (hsignals ▸ hs)⟩, fun ht hcontent => ?_,
      fun hdone => hdelay.now.trans (hdue.done (hsame.symm.trans hdone))⟩
    · rw [Array.getElem?_eq_getElem hlt] at hsame
      exact (Array.getElem?_eq_some_iff.1 hsame).1
    · rw [hdelay.timer] at ht
      split at ht
      · obtain rfl := Option.some.inj ht
        exact absurd hcontent.symm (Nat.ne_of_lt hlt)
      · exact hdue.timer ht hcontent

/-- The timer of a delay goes off at its end. -/
theorem DelayBegun.due {ticket : Ticket} {j : JobId} {duration : Nat} (hm : m.Orderly)
    (h : DelayBegun ticket j duration m m') (hheeds : m'.Heeds m.timetable.waits.size none)
    (hmax : m.now + duration ≤ maxTime) : m'.Due m.timetable.waits.size (m.now + duration) := by
  refine ⟨hheeds, fun ht hcontent => ?_, fun hdone => ?_⟩
  · rw [h.timer] at ht
    split at ht
    · obtain rfl := Option.some.inj ht
      exact Nat.min_eq_left hmax
    · exact absurd hcontent (Nat.ne_of_lt (hm.timed ht))
  · rw [h.waits, if_pos rfl] at hdone
    cases hdone

/-- A signal that is waited for knows a new wait. -/
theorem spares_beginSignalWait (m : Machine ε τ) (ticket : Ticket) (j : JobId) (s : SignalId) :
    Spares m (m.beginSignalWait ticket j s).2 := by
  refine ⟨fun {w time} hdue => ?_⟩
  obtain ⟨hlt, hknown⟩ := heeds_none_iff.1 hdue.heeds
  have hwaits : ∀ w : WaitId, (m.beginSignalWait ticket j s).2.timetable.waits[w]? =
      if w = m.timetable.waits.size then some (.pending (some ticket)) else m.timetable.waits[w]? :=
    getElem?_waits_withWait m ticket j (.signal m.timetable.waits.size)
  have hsize : (m.beginSignalWait ticket j s).2.timetable.waits.size = m.timetable.waits.size + 1 :=
    size_waits_withWait m ticket j (.signal m.timetable.waits.size)
  refine ⟨heeds_none_iff.2 ⟨hsize ▸ Nat.lt_succ_of_lt hlt, fun {s' signal} hs hw => ?_⟩, hdue.timer,
    fun hdone => ?_⟩
  · have hs : (m.signals.modify s fun signal =>
        { signal with waiters := signal.waiters ++ [m.timetable.waits.size] })[s']? = some signal := hs
    rw [Array.getElem?_modify] at hs
    split at hs
    · obtain ⟨old, hold, rfl⟩ := Option.map_eq_some_iff.1 hs
      rcases List.mem_append.1 hw with hw | hw
      · exact hknown hold hw
      · exact Nat.ne_of_lt hlt (List.mem_singleton.1 hw)
    · exact hknown hs hw
  · rw [hwaits, if_neg (Nat.ne_of_lt hlt)] at hdone
    exact (spends_beginSignalWait m ticket j s).now.trans (hdue.done hdone)

theorem spares_beginJoin (m : Machine ε τ) (ticket : Ticket) (j : JobId) (s : SignalId) :
    Spares m (m.beginJoin ticket j s).2 := by
  unfold beginJoin
  split
  · exact .refl m
  · split
    · exact .refl m
    · exact spares_beginSignalWait m ticket j s

theorem spares_beginAwait (m : Machine ε τ) (ticket : Ticket) (j : JobId) (s : SignalId) :
    Spares m (m.beginAwait ticket j s).2 := by
  unfold beginAwait
  split
  · exact .refl m
  · exact spares_beginJoin m ticket j s

theorem spares_resumption {ticket : Ticket} {on : Suspension} {result : Except Interruption Unit}
    (h : m.resumption ticket on = (some result, m')) : Spares m m' := by
  unfold resumption at h
  cases on with
  | wait j k w =>
    dsimp only at h
    split at h
    · exact (Prod.mk.inj h).2 ▸ .refl m
    · exact (Prod.mk.inj h).2 ▸ .ofTimetable rfl rfl
    · cases (Prod.mk.inj h).1
  | entry j => exact (Prod.mk.inj h).2 ▸ .refl m
  | children j => exact (Prod.mk.inj h).2 ▸ .ofTimetable rfl rfl
  | turn => exact (Prod.mk.inj h).2 ▸ .refl m

/-- A wait for a time that is still to come has a timer, and the clock does the wait when it shows the
time. -/
theorem Due.advance (h : m.Due w time) (hpending : m.timetable.waits[w]? ≠ some .done)
    {next : Nat} (hnext : m.timetable.clock.next? = some next)
    (hpast : ∀ {k timer}, m.timetable.timer? k = some timer → m.now ≤ timer.deadline) :
    m.advance.2.Due w time := by
  have hadvanced := advanced_advance hnext
  refine ⟨(evolves_advance hnext : Evolves (fun _ => True) m _).heeds h.heeds,
    fun ht => h.timer (of_timer?_advance hnext ht), fun hdone => ?_⟩
  rcases hadvanced.waits w with hsame | ⟨k, timer, ht, hcontent, hdeadline, -⟩
  · exact absurd (hsame.symm.trans hdone) hpending
  · have hnow : m.now ≤ next := hdeadline ▸ hpast ht
    rw [hadvanced.now, Nat.max_eq_right hnow, ← hdeadline]
    exact h.timer ht hcontent

end RacePuzzle.Machine
