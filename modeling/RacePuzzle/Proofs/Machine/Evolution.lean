import RacePuzzle.Proofs.Machine.Waiting

/-! Every operation of the machine keeps its sleepers: whatever a task sleeps on is still there
after it, or has woken the task. -/
namespace RacePuzzle.Machine

variable {ε τ : Type} {m : Machine ε τ} {allowed : Suspension → Prop}

theorem resolution_resolve (m : Machine ε τ) (w : WaitId) :
    Resolution .cancelled [w] (m.timetable.resolve w .cancelled).1.toList m
      (m.timetable.resolve w .cancelled).2 m.signals := by
  have hres := Timetable.resolves_resolve m.timetable .cancelled w
  have hclock : (m.timetable.resolve w .cancelled).2.clock = m.timetable.clock := hres.clock
  refine ⟨?_, .inr rfl, ?_, fun h => .inl ?_, fun h => ?_, fun h => ?_, .inl,
    fun h => ⟨_, h, fun _ h => h⟩, id, nofun⟩
  · rw [hclock]
    exact hres
  · rw [hclock]
  · rw [Timetable.timer?, hclock]
    exact h
  · rw [Timetable.timer?, hclock] at h
    exact h
  · rw [hclock]
    exact h

/-- The cancellation of a timer resolves its wait, if it is still to come. -/
theorem resolution_cancelTimer (m : Machine ε τ) (waiter : Nat) :
    ∃ ws, Resolution .cancelled ws (m.timetable.cancelTimer waiter).1.toList m
      (m.timetable.cancelTimer waiter).2 m.signals := by
  have hlive : ∀ k, (m.timetable.clock.cancelTimer waiter).2.timers.live[k]? =
      if k = waiter then none else m.timetable.timer? k := fun k => TimerQueue.live_remove waiter k
  have hcomplete : m.timetable.clock.timers.Complete →
      (m.timetable.clock.cancelTimer waiter).2.timers.Complete :=
    fun h => TimerQueue.complete_remove h waiter
  rw [Timetable.cancelTimer_eq]
  cases ht : m.timetable.timer? waiter with
  | none =>
    refine ⟨[], Timetable.resolves_nil, .inr rfl, rfl, fun {k timer} h => .inl ?_, fun {k timer} h => ?_,
      hcomplete, .inl, fun h => ⟨_, h, fun _ h => h⟩, id, nofun⟩
    · refine (hlive k).trans ?_
      split
      · next hk => simp [← hk, h] at ht
      · exact h
    · have := (hlive k).symm.trans h
      split at this
      · simp at this
      · exact this
  | some timer =>
    have hres := Timetable.resolves_resolve
      { m.timetable with clock := (m.timetable.clock.cancelTimer waiter).2 } .cancelled timer.content
    have hclock := hres.clock
    dsimp only at hres hclock ⊢
    refine ⟨[timer.content], ?_, .inr rfl, ?_, fun {k timer'} h => ?_, fun {k timer'} h => ?_,
      fun h => ?_, .inl, fun h => ⟨_, h, fun _ h => h⟩, id, nofun⟩
    · rw [hclock]
      exact hres
    · rw [hclock]
      rfl
    · rw [Timetable.timer?, hclock, hlive]
      split
      · next hk =>
        subst hk
        obtain rfl := Option.some.inj (ht.symm.trans h)
        exact .inr (by simp)
      · exact .inl h
    · rw [Timetable.timer?, hclock, hlive] at h
      split at h
      · simp at h
      · exact h
    · rw [hclock]
      exact hcomplete h

theorem evolves_interrupt (m : Machine ε τ) (wait : Nat × OpenWait) :
    Evolves allowed m (m.interrupt wait) := by
  obtain ⟨waiter, on⟩ := wait
  cases on with
  | signal w => exact (resolution_resolve m w).evolves
  | timer => exact (resolution_cancelTimer m waiter).choose_spec.evolves

/-- The wait has been resolved, or its timer taken off the clock. -/
def Spent (m : Machine ε τ) : Nat × OpenWait → Prop
  | (waiter, .timer) => m.timetable.timer? waiter = none
  | (_, .signal w) => ∀ s, m.timetable.waits[w]? ≠ some (.pending s)

theorem Resolution.spent {outcome : Wait} {ws : List WaitId} {ss : List Ticket} {t : Timetable}
    {signals : Array Signal} (h : Resolution outcome ws ss m t signals) {wait : Nat × OpenWait}
    (hw : m.Spent wait) : ({ m with timetable := t, signals := signals }.wakeAll ss).Spent wait := by
  obtain ⟨waiter, on⟩ := wait
  cases on with
  | timer =>
    refine Option.eq_none_iff_forall_ne_some.2 fun timer ht => ?_
    exact absurd ((h.live ht).symm.trans hw) (by simp)
  | signal w =>
    intro s hs
    exact hw s ((h.resolves.kept w hw).symm.trans hs)

theorem Spent.interrupt {wait : Nat × OpenWait} (h : m.Spent wait) (wait' : Nat × OpenWait) :
    (m.interrupt wait').Spent wait := by
  obtain ⟨waiter, on⟩ := wait'
  cases on with
  | signal w => exact (resolution_resolve m w).spent h
  | timer => exact (resolution_cancelTimer m waiter).choose_spec.spent h

theorem spent_interrupt (m : Machine ε τ) (wait : Nat × OpenWait) :
    (m.interrupt wait).Spent wait := by
  obtain ⟨waiter, on⟩ := wait
  cases on with
  | timer =>
    have hgone : (m.timetable.clock.cancelTimer waiter).2.timers.live[waiter]? = none :=
      (TimerQueue.live_remove waiter waiter).trans (if_pos rfl)
    change (m.timetable.cancelTimer waiter).2.timer? waiter = none
    rw [Timetable.cancelTimer_eq]
    cases m.timetable.timer? waiter with
    | none => exact hgone
    | some timer =>
      have hclock := (Timetable.resolves_resolve
        { m.timetable with clock := (m.timetable.clock.cancelTimer waiter).2 } .cancelled
        timer.content).clock
      rw [Timetable.timer?, hclock]
      exact hgone
  | signal w =>
    intro s hs
    have hres := Timetable.resolves_resolve m.timetable .cancelled w
    by_cases hpending : ∃ r, m.timetable.waits[w]? = some (.pending r)
    · obtain ⟨r, hr⟩ := hpending
      exact absurd ((hres.hit w (by simp) r hr).1.symm.trans hs) (by simp)
    · exact hpending ⟨s, (hres.kept w fun r hr => hpending ⟨r, hr⟩).symm.trans hs⟩

theorem spent_interruptAll (m : Machine ε τ) {waits : List (Nat × OpenWait)} {wait : Nat × OpenWait}
    (h : wait ∈ waits) : (m.interruptAll waits).Spent wait := by
  have hkeep : ∀ (waits : List (Nat × OpenWait)) {m : Machine ε τ}, m.Spent wait →
      (m.interruptAll waits).Spent wait := by
    intro waits
    induction waits with
    | nil => exact id
    | cons wait' rest ih => exact fun h => ih (h.interrupt wait')
  induction waits generalizing m with
  | nil => simp at h
  | cons wait' rest ih =>
    rcases List.mem_cons.1 h with rfl | h
    · exact hkeep rest (spent_interrupt m wait)
    · exact ih (m.interrupt wait') h

theorem Spent.not_source {waiter w : Nat} {on : OpenWait} {s : Option Ticket}
    (h : m.Spent (waiter, on)) (hw : m.timetable.waits[w]? = some (.pending s)) :
    ¬ m.Source waiter w on := by
  cases on with
  | timer =>
    rintro ⟨timer, ht, -⟩
    exact absurd (ht.symm.trans h) (by simp)
  | signal w' =>
    rintro ⟨rfl, -⟩
    exact h s hw

theorem evolves_interruptAll (m : Machine ε τ) (waits : List (Nat × OpenWait)) :
    Evolves allowed m (m.interruptAll waits) := by
  induction waits generalizing m with
  | nil => exact .refl m
  | cons wait rest ih => exact (evolves_interrupt m wait).trans (ih (m.interrupt wait))

theorem interruptAll_set_jobs (m : Machine ε τ) (jobs : Array Job)
    (waits : List (Nat × OpenWait)) :
    ({ m with jobs := jobs } : Machine ε τ).interruptAll waits =
      { m.interruptAll waits with jobs := jobs } := by
  induction waits generalizing m with
  | nil => rfl
  | cons wait rest ih => exact ih (m.interrupt wait)

theorem job?_interruptAll (m : Machine ε τ) (waits : List (Nat × OpenWait)) (j : JobId) :
    (m.interruptAll waits).job? j = m.job? j := by
  simp only [job?, jobs_interruptAll]

/-- Once its waits are interrupted, nothing sleeps on a wait of the job. -/
theorem evolves_cancelOne {j : JobId} {job : Job} (hj : m.job? j = some job) :
    Evolves allowed m (m.cancelOne j job) := by
  have hj' : (m.interruptAll job.pending).job? j = some job := by rw [job?_interruptAll, hj]
  unfold cancelOne
  rw [interruptAll_set_jobs, ← jobs_interruptAll m job.pending, set_eq_updateJob hj']
  refine (evolves_interruptAll m job.pending).trans
    (evolves_updateJob (fun _ _ _ => rfl) (fun job' h => ?_) (fun job' h i k w _ hs => ?_)
      fun job' h _ => ?_)
  · obtain rfl := Option.some.inj (hj'.symm.trans h)
    exact ⟨rfl, fun _ => rfl⟩
  · obtain ⟨job'', on, hj'', -, hp, hsrc⟩ := hs.listed
    obtain rfl := Option.some.inj (hj'.symm.trans hj'')
    exact absurd hsrc ((spent_interruptAll m hp).not_source hs.pending)
  · obtain rfl := Option.some.inj (hj'.symm.trans h)
    exact ⟨rfl, rfl⟩

theorem evolves_cancelAll (m : Machine ε τ) (jobs : List JobId) :
    Evolves allowed m (m.cancelAll jobs) :=
  cancelAll_induction .refl .trans (fun h _ => evolves_cancelOne h) m jobs

theorem evolves_cancel (m : Machine ε τ) (j : JobId) : Evolves allowed m (m.cancel j) :=
  evolves_cancelAll m [j]

theorem evolves_recordFailure {j : JobId} {job : Job} (hj : m.job? j = some job)
    (kind : ExceptionKind) : Evolves allowed m (m.recordFailure j job kind) := by
  have hchange : m.recordFailure j job kind =
      m.updateJob j ({ · with failure := some kind, failureReported := !job.cancelled }) := by
    rw [updateJob_eq_set hj]
    rfl
  rw [hchange]
  exact evolves_updateJob_of (fun _ => rfl) (fun _ _ => ⟨rfl, fun _ => rfl⟩) (fun _ => rfl)
    (fun _ => rfl) fun _ => rfl

theorem evolves_fail (m : Machine ε τ) (j : JobId) (kind : ExceptionKind) :
    Evolves allowed m (m.fail j kind) :=
  fail_induction .refl .trans (fun h _ => evolves_cancelOne h)
    (fun kind h _ => evolves_recordFailure h kind) m j kind

theorem evolves_conclude (m : Machine ε τ) (j : JobId) (result : Completion) :
    Evolves allowed m (m.conclude j result) := by
  unfold conclude
  split
  · exact .refl m
  · exact evolves_cancel m j
  · exact evolves_fail ..

theorem evolves_passOnFailure (m : Machine ε τ) (job : Job) :
    Evolves allowed m (m.passOnFailure job) := by
  unfold passOnFailure
  split
  · split
    · exact .refl m
    · exact evolves_fail ..
  · exact .refl m

theorem resolution_fire {s : SignalId} {waiters : List WaitId}
    (hs : m.signals[s]? = some ⟨false, waiters⟩) :
    Resolution .done waiters (m.timetable.resolveAll .done waiters).1 m
      (m.timetable.resolveAll .done waiters).2 (m.signals.setIfInBounds s ⟨true, []⟩) := by
  have hlt : s < m.signals.size := (Array.getElem?_eq_some_iff.1 hs).1
  have hnow : ∀ {s'}, s' = s → ((m.signals.setIfInBounds s ⟨true, []⟩)[s']?).any (·.fired) := by
    rintro s' rfl
    simp [hlt]
  have hres := @Timetable.resolves_resolveAll .done (fun _ hw => by cases hw) m.timetable waiters
  have hclock := hres.clock
  refine ⟨?_, .inl rfl, ?_, fun h => .inl ?_, fun h => ?_, fun h => ?_, fun {s' ws} h => ?_,
    fun {s' signal} h => ?_, fun {s'} h => ?_, fun _ w hw s' hs' => hnow (Option.some.inj (hs'.only hs hw))⟩
  · rw [hclock]
    exact hres
  · rw [hclock]
  · rw [Timetable.timer?, hclock]
    exact h
  · rw [Timetable.timer?, hclock] at h
    exact h
  · rw [hclock]
    exact h
  · by_cases he : s' = s
    · subst he
      obtain rfl : waiters = ws := by simpa [hs] using h
      exact .inr fun _ h => h
    · exact .inl (by simpa [Ne.symm he] using h)
  · by_cases he : s' = s
    · subst he
      obtain rfl : ⟨true, []⟩ = signal := by simpa [hlt] using h
      exact ⟨_, hs, fun _ hw => by cases hw⟩
    · exact ⟨signal, by simpa [Ne.symm he] using h, fun _ h => h⟩
  · by_cases he : s' = s
    · exact hnow he
    · simpa [Machine.hasFired, Ne.symm he] using h

theorem evolves_fire (m : Machine ε τ) (s : SignalId) : Evolves allowed m (m.fire s) := by
  unfold fire
  split
  · next waiters hs => exact (resolution_fire hs).evolves
  · exact .refl m

theorem exists_resolution_advance {time : Nat} (h : m.timetable.clock.next? = some time) :
    ∃ ws, Resolution .done ws m.timetable.advance.2.1 m m.timetable.advance.2.2 m.signals := by
  obtain ⟨due, left, -, htaken, hclock, hres⟩ := Timetable.exists_takenDue_advance h
  refine ⟨_, hres, .inl rfl, ?_, fun {k timer} ht => ?_, fun {k timer} ht => ?_, fun hc => ?_, .inl,
    fun h => ⟨_, h, fun _ h => h⟩, id, fun _ w hw s hs => ?_⟩
  · rw [hclock]
  · rw [Timetable.timer?, hclock]
    rcases htaken.kept k with hk | ⟨hk, timer', ht', hmem⟩
    · exact .inl (hk.trans ht)
    · obtain rfl := Option.some.inj (ht'.symm.trans ht)
      exact .inr (List.mem_map.2 ⟨_, hmem, rfl⟩)
  · rw [Timetable.timer?, hclock] at ht
    rcases htaken.kept k with hk | ⟨hk, -⟩
    · exact hk.symm.trans ht
    · exact absurd (hk.symm.trans ht) (by simp)
  · rw [hclock]
    exact htaken.complete hc
  · obtain ⟨⟨k, content⟩, hmem, rfl⟩ := List.mem_map.1 hw
    obtain ⟨tie, ht, -⟩ := htaken.mem k content hmem
    exact absurd rfl (hs.untimed rfl ht)

theorem evolves_advance {time : Nat} (h : m.timetable.clock.next? = some time) :
    Evolves allowed m m.advance.2 :=
  (exists_resolution_advance h).choose_spec.evolves

theorem getElem?_push_some {α : Type} {xs : Array α} {i : Nat} {a : α} (h : xs[i]? = some a)
    (b : α) : (xs.push b)[i]? = some a := by
  have hlt : i < xs.size := (Array.getElem?_eq_some_iff.1 h).1
  rw [Array.getElem?_push, if_neg (Nat.ne_of_lt hlt), h]

theorem hasFired_iff {s : SignalId} :
    m.hasFired s = true ↔ ∃ waiters : List WaitId, m.signals[s]? = some ⟨true, waiters⟩ := by
  unfold hasFired
  constructor
  · intro h
    match hs : m.signals[s]? with
    | none => simp [hs] at h
    | some ⟨false, _⟩ => simp [hs] at h
    | some ⟨true, waiters⟩ => exact ⟨waiters, rfl⟩
  · rintro ⟨waiters, hs⟩
    simp [hs]

theorem hasFired_push {s : SignalId} (h : m.hasFired s = true) :
    m.newSignal.2.hasFired s = true := by
  obtain ⟨waiters, hs⟩ := hasFired_iff.1 h
  exact hasFired_iff.2 ⟨waiters, getElem?_push_some hs _⟩

theorem evolves_newSignal (m : Machine ε τ) : Evolves allowed m m.newSignal.2 where
  size := Nat.le_refl _
  finished _ := rfl
  waits {i on} _ _ _ h := by
    cases on with
    | entry j => exact h
    | wait j waiter w =>
      refine h.imp id fun h => ⟨h.pending, ?_⟩
      obtain ⟨job, on, hj, hc, hp, hs⟩ := h.listed
      refine ⟨job, on, hj, hc, hp, ?_⟩
      cases on with
      | timer => exact hs
      | signal w' =>
        obtain ⟨rfl, s, waiters, hs, hin⟩ := hs
        exact ⟨rfl, s, waiters, getElem?_push_some hs _, hin⟩
    | children j => exact h
    | turn => exact h
  heeds {w source} h := by
    refine ⟨h.lt, fun he hd => hasFired_push (h.done he hd), fun {s' signal} hs hin => ?_,
      h.untimed⟩
    have hs : (m.signals.push Signal.unfired)[s']? = some signal := hs
    rw [Array.getElem?_push] at hs
    split at hs
    · obtain rfl := Option.some.inj hs
      simp [Signal.unfired] at hin
    · exact h.only hs hin
  nextSeq := Nat.le_refl _
  cancelled h := h
  fired h := hasFired_push h
  bond h := ⟨_, h, rfl, fun _ => rfl⟩

theorem evolves_push_job (m : Machine ε τ) (job : Job) :
    Evolves allowed m { m with jobs := m.jobs.push job } := by
  have hold : ∀ {j j' : _}, m.job? j = some j' →
      ({ m with jobs := m.jobs.push job } : Machine ε τ).job? j = some j' :=
    fun h => getElem?_push_some h job
  refine ⟨Nat.le_refl _, fun _ => rfl, fun {i on} _ _ _ h => ?_, fun h => ⟨h.lt, h.done, h.only, h.untimed⟩,
    Nat.le_refl _, fun {j} h => ?_, id, fun {j b} h => ?_⟩
  · cases on with
    | entry j => exact h
    | wait j waiter w =>
      refine h.imp id fun h => ⟨h.pending, ?_⟩
      obtain ⟨j', on, hj, hc, hp, hs⟩ := h.listed
      exact ⟨j', on, hold hj, hc, hp, hs⟩
    | children j =>
      obtain ⟨j', hj, h⟩ := h
      exact ⟨j', hold hj, h⟩
    | turn => exact h
  · obtain ⟨j', hj, hc⟩ := exists_of_isCancelled h
    rw [isCancelled_eq (hold hj), hc]
  · obtain ⟨j', hj, rfl⟩ := bond?_eq_some.1 h
    exact ⟨j'.bond, bond?_of_job? (hold hj), rfl, fun _ => rfl⟩

/-- A new child is no business of a task that waits for the children of another job. -/
theorem evolves_child (m : Machine ε τ) (p : JobId) (kind : JobRole) :
    Evolves (· ≠ .children p) m (m.child p kind).2 := by
  refine ((evolves_newSignal m).trans (evolves_push_job m.newSignal.2 _)).trans
    (evolves_updateJob (fun _ _ h => h) (fun _ _ => ⟨rfl, fun _ => rfl⟩) (fun job hj i k w _ hs => ?_)
      fun _ _ h => absurd rfl h)
  have hc := hs.not_cancelled hj
  exact ⟨hc, fun _ hp _ => hp⟩

theorem hasFinished_spawn (d : Dispatcher τ) (task : τ) {i : Ticket} (hi : i < d.tickets.size) :
    (d.spawn task).hasFinished i = d.hasFinished i := by
  simp [Dispatcher.hasFinished, Dispatcher.spawn, Array.getElem?_push, Nat.ne_of_lt hi]

theorem isQueued_spawn (d : Dispatcher τ) (task : τ) {i : Ticket} (hi : i < d.tickets.size) :
    (d.spawn task).isQueued i = d.isQueued i := by
  simp [Dispatcher.isQueued, Dispatcher.spawn, Array.getElem?_push, Nat.ne_of_lt hi]

theorem evolves_spawn (m : Machine ε τ) (task : τ) : Evolves allowed m (m.spawn task) where
  size := by simp [spawn, Dispatcher.spawn]
  finished hi := hasFinished_spawn m.dispatcher task hi
  waits {i on} hi _ _ h := by
    have hq : (m.spawn task).dispatcher.isQueued i = m.dispatcher.isQueued i :=
      isQueued_spawn m.dispatcher task hi
    cases on with
    | entry j => exact hq.trans h
    | wait j waiter w =>
      exact h.imp (fun h => ⟨h.1, hq.trans h.2⟩) fun h => ⟨h.pending, h.listed⟩
    | children j =>
      obtain ⟨job, hj, h⟩ := h
      exact ⟨job, hj, h.imp (fun h => ⟨h.1, hq.trans h.2⟩) id⟩
    | turn => exact h
  heeds h := ⟨h.lt, h.done, h.only, h.untimed⟩
  nextSeq := Nat.le_refl _
  cancelled h := h
  fired h := h
  bond h := ⟨_, h, rfl, fun _ => rfl⟩

/-- Whoever waits for the children of a job learns that the last one has left. -/
theorem evolves_unlink {x : Option JobId} (hl : Links x m) (p c : JobId) :
    Evolves allowed m (m.unlink p c) := by
  cases hp : m.job? p with
  | none =>
    have : m.unlink p c = m := by simp [unlink, hp]
    rw [this]
    exact .refl m
  | some pj =>
    have hbase : Evolves (fun on => on ≠ .children p) m (m.unlink p c) := by
      rw [unlink_eq hl hp]
      have hstep : ∀ new : Job, new.cancelled = pj.cancelled → new.completion = pj.completion →
          new.outcome = pj.outcome → new.pending = pj.pending →
          Evolves (fun on => on ≠ .children p) m
            { m with jobs := m.jobs.setIfInBounds p new } := by
        intro new hc hcomp hout hpend
        rw [set_eq_updateJob hp]
        refine evolves_updateJob (fun job hj h => ?_) (fun job hj => ?_)
          (fun job hj i k w _ hs => ?_) fun _ _ h => absurd rfl h
        · obtain rfl := Option.some.inj (hp.symm.trans hj)
          exact hc.trans h
        · obtain rfl := Option.some.inj (hp.symm.trans hj)
          exact ⟨hcomp, fun _ => hout⟩
        · obtain rfl := Option.some.inj (hp.symm.trans hj)
          exact ⟨hc.trans (hs.not_cancelled hj), fun _ h _ => by rwa [hpend]⟩
      split
      · have hempty := hstep { pj with children := [], idleSleeper := none } rfl rfl rfl rfl
        exact hempty.trans (evolves_wakeAll _ _)
      · exact hstep _ rfl rfl rfl rfl
    refine { hbase with waits := fun {i on} hi hf _ hw => ?_ }
    by_cases hon : on = .children p
    · subst hon
      obtain ⟨job, hj, h⟩ := hw
      obtain rfl := Option.some.inj (hp.symm.trans hj)
      refine ⟨_, by rw [job?_unlink hl hp, if_pos rfl], ?_⟩
      have hq : m.dispatcher.isQueued i = true ∨ pj.idleSleeper = some i →
          (m.wakeAll pj.idleSleeper.toList).dispatcher.isQueued i = true := by
        rintro (h | h)
        · exact Dispatcher.isQueued_wakeAll_of h _
        · rw [h]
          exact Dispatcher.isQueued_wakeAll_of_mem hi hf (by simp)
      by_cases he : (pj.children.filter (· != c)).isEmpty
      · left
        refine ⟨by simpa using he, ?_⟩
        rw [unlink_eq hl hp, if_pos he]
        exact hq (h.imp And.right And.right)
      · right
        have hne : pj.children ≠ [] := fun hnil => he (by simp [hnil])
        refine ⟨by simpa using he, ?_⟩
        rw [if_neg he]
        exact (h.resolve_left fun h => hne h.1).2
    · exact hbase.waits hi hf hon hw

end RacePuzzle.Machine
