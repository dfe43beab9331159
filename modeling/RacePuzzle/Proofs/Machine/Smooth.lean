import RacePuzzle.Proofs.Machine.Closing
import RacePuzzle.Proofs.Machine.Deadline

/-! Machines on which nothing goes wrong. As long as no job is cancelled or fails, no operation but
that of the clock takes a timer off or touches a wait for one; a wait for a signal is done when the
signal fires. -/
namespace RacePuzzle.Machine

variable {ε τ : Type} {m m' m'' : Machine ε τ} {b : JobId}

/-- No job but the background `b`, in which nothing waits, has been cancelled or has failed. -/
structure Untroubled (b : JobId) (m : Machine ε τ) : Prop where
  calm : ∀ {j job}, j ≠ b → m.job? j = some job →
    job.Calm ∧ ∀ o, job.outcome = some o → o = .completed
  background : ∀ {job}, m.job? b = some job → job.pending = []

theorem Untroubled.not_cancelled (h : Untroubled b m) {j : JobId} (hj : j ≠ b) :
    m.isCancelled j = false := by
  cases hjob : m.job? j with
  | none => simp [isCancelled, hjob]
  | some job => exact (isCancelled_eq hjob).trans (h.calm hj hjob).1.cancelled

theorem Untroubled.map (h : Untroubled b m) (hmap : ∀ k, ∃ f : Job → Job,
    m'.job? k = (m.job? k).map f ∧ ∀ job, (f job).cancelled = job.cancelled ∧
      (f job).failure = job.failure ∧ (f job).outcome = job.outcome ∧
      (k = b → (f job).pending = job.pending)) : Untroubled b m' := by
  refine ⟨fun {j job} hj hjob => ?_, fun {job} hjob => ?_⟩
  · obtain ⟨f, hf, hsame⟩ := hmap j
    obtain ⟨old, hold, rfl⟩ := Option.map_eq_some_iff.1 (hf.symm.trans hjob)
    obtain ⟨hc, hfail, ho, -⟩ := hsame old
    obtain ⟨hcalm, hout⟩ := h.calm hj hold
    exact ⟨⟨hc.trans hcalm.cancelled, hfail.trans hcalm.failure⟩, fun o he => hout o (ho.symm.trans he)⟩
  · obtain ⟨f, hf, hsame⟩ := hmap b
    obtain ⟨old, hold, rfl⟩ := Option.map_eq_some_iff.1 (hf.symm.trans hjob)
    exact ((hsame old).2.2.2 rfl).trans (h.background hold)

theorem Untroubled.congr (h : Untroubled b m) (hjobs : m'.jobs = m.jobs) : Untroubled b m' :=
  h.map fun k => ⟨id, by rw [job?, hjobs, Option.map_id]; rfl, fun _ => ⟨rfl, rfl, rfl, fun _ => rfl⟩⟩

theorem Heeds.congr (ht : m'.timetable = m.timetable) (hs : m'.signals = m.signals) {w : WaitId}
    {source : Option SignalId} (h : m.Heeds w source) : m'.Heeds w source := by
  refine ⟨ht ▸ h.lt, fun he hw => ?_, fun hsignal => h.only (hs ▸ hsignal),
    fun he => fun htimer => h.untimed he (ht ▸ htimer)⟩
  exact (hasFired_congr hs _).trans (h.done he (ht ▸ hw))

def Sole (m : Machine ε τ) (waiter : Nat) (w : WaitId) : Prop :=
  ∀ ⦃k timer⦄, m.timetable.timer? k = some timer → timer.content = w → k = waiter

theorem Sole.of_timers {waiter : Nat} {w : WaitId} (h : m.Sole waiter w)
    (hold : ∀ {k timer}, m'.timetable.timer? k = some timer → m.timetable.timer? k = some timer) :
    m'.Sole waiter w :=
  fun _ _ ht => h (hold ht)

/-- The clock stands still and nothing goes wrong. -/
structure Smooth (b : JobId) (m m' : Machine ε τ) : Prop where
  now : m'.now = m.now
  timer : ∀ {k timer}, m.timetable.timer? k = some timer → m'.timetable.timer? k = some timer
  wait : ∀ {w source}, m.Heeds w source → m'.timetable.waits[w]? = m.timetable.waits[w]? ∨
    source.isSome ∧ m'.timetable.waits[w]? = some .done
  heeds : ∀ {w source}, m.Heeds w source → m'.Heeds w source
  sole : ∀ {waiter w source}, m.Heeds w source → m.Sole waiter w → m'.Sole waiter w
  untroubled : Untroubled b m'

theorem Smooth.trans (h : Smooth b m m') (h' : Smooth b m' m'') : Smooth b m m'' where
  now := h'.now.trans h.now
  timer ht := h'.timer (h.timer ht)
  wait hw := by
    rcases h'.wait (h.heeds hw) with hsame | hdone
    · rw [hsame]
      exact h.wait hw
    · exact .inr hdone
  heeds hw := h'.heeds (h.heeds hw)
  sole hw hsole := h'.sole (h.heeds hw) (h.sole hw hsole)
  untroubled := h'.untroubled

theorem Smooth.ofJobs (h : Untroubled b m') (ht : m'.timetable = m.timetable)
    (hs : m'.signals = m.signals) : Smooth b m m' where
  now := congrArg Timetable.now ht
  timer h := ht ▸ h
  wait _ := .inl (by rw [ht])
  heeds hw := hw.congr ht hs
  sole _ hsole := hsole.of_timers fun h => ht ▸ h
  untroubled := h

theorem Smooth.refl (h : Untroubled b m) : Smooth b m m := .ofJobs h rfl rfl

/-- A wait for a time goes on as it is. -/
theorem Smooth.overAt (h : Smooth b m m') {k w time : Nat} (hw : m.Heeds w none)
    (hover : m.OverAt k w time) : m'.OverAt k w time := by
  have hsame : m'.timetable.waits[w]? = m.timetable.waits[w]? :=
    (h.wait hw).resolve_right fun hno => nomatch hno.1
  cases hover with
  | done hdone =>
    rw [← h.now]
    exact .done (hsame.trans hdone)
  | timed hpending htimer hcontent hle =>
    exact .timed (hsame.trans hpending) (h.timer htimer) hcontent (h.now ▸ hle)

theorem smooth_child (h : Untroubled b m) {p : JobId} {pj : Job} (hp : m.job? p = some pj)
    (hne : p ≠ b) (hb : b < m.jobs.size) (kind : JobRole) : Smooth b m (m.child p kind).2 := by
  refine ⟨rfl, id, fun _ => .inl rfl, (evolves_child (τ := τ) m p kind).heeds, fun _ => id, ?_⟩
  refine ⟨fun {j job} hj hjob => ?_, fun {job} hjob => ?_⟩
  · rw [job?_child hp] at hjob
    split at hjob
    · obtain rfl := Option.some.inj hjob
      exact ⟨⟨h.not_cancelled hne, rfl⟩, nofun⟩
    · split at hjob
      · obtain rfl := Option.some.inj hjob
        exact ⟨⟨(h.calm hne hp).1.cancelled, (h.calm hne hp).1.failure⟩, (h.calm hne hp).2⟩
      · exact h.calm hj hjob
  · rw [job?_child hp, if_neg (Nat.ne_of_lt hb), if_neg (Ne.symm hne)] at hjob
    exact h.background hjob

theorem smooth_spawn (h : Untroubled b m) (task : τ) : Smooth b m (m.spawn task) :=
  .ofJobs (h.congr rfl) rfl rfl

theorem smooth_updateEnv (h : Untroubled b m) (f : ε → ε) : Smooth b m (m.updateEnv f) :=
  .ofJobs (h.congr rfl) rfl rfl

theorem smooth_updateJob (h : Untroubled b m) {j : JobId} {f : Job → Job}
    (hf : ∀ job, (f job).cancelled = job.cancelled ∧ (f job).failure = job.failure ∧
      (f job).outcome = job.outcome ∧ (j = b → (f job).pending = job.pending)) :
    Smooth b m (m.updateJob j f) := by
  refine .ofJobs (h.map fun k => ?_) rfl rfl
  by_cases hk : k = j
  · subst hk
    exact ⟨f, (job?_updateJob ..).trans (if_pos rfl), hf⟩
  · refine ⟨id, (job?_updateJob ..).trans ((if_neg hk).trans (by rw [Option.map_id]; rfl)), fun job => ?_⟩
    exact ⟨rfl, rfl, rfl, fun _ => rfl⟩

theorem smooth_awaitChildren (h : Untroubled b m) (ticket : Ticket) (j : JobId) :
    Smooth b m (m.awaitChildren ticket j).2 :=
  smooth_updateJob h fun _ => ⟨rfl, rfl, rfl, fun _ => rfl⟩

theorem smooth_cancel (h : Untroubled b m)
    (hnone : ∀ {job}, m.job? b = some job → job.children = []) : Smooth b m (m.cancel b) := by
  by_cases hdoes : ∃ job, m.job? b = some job ∧ job.isHeld = true ∧ job.cancelled = false
  · obtain ⟨job, hb, hheld, hc⟩ := hdoes
    rw [cancel_childless hb hheld hc (hnone hb), cancelOne, h.background hb]
    refine .ofJobs ⟨fun {j job'} hj hjob' => ?_, fun {job'} hjob' => ?_⟩ rfl rfl
    · have hjob' := (job?_set hb _ j).symm.trans hjob'
      rw [if_neg hj] at hjob'
      exact h.calm hj hjob'
    · have hjob' := (job?_set hb _ b).symm.trans hjob'
      rw [if_pos rfl] at hjob'
      exact Option.some.inj hjob' ▸ rfl
  · rw [cancel_eq_self fun job hb => ?_]
    · exact .refl h
    · by_contra hno
      simp only [not_or, Bool.not_eq_false, Bool.not_eq_true] at hno
      exact hdoes ⟨job, hb, hno.1, hno.2⟩

theorem timetable_fire (m : Machine ε τ) (s : SignalId) :
    (m.fire s).timetable = m.timetable ∨ ∃ waiters : List WaitId,
      m.signals[s]? = some ⟨false, waiters⟩ ∧
        (m.fire s).timetable = (m.timetable.resolveAll .done waiters).2 := by
  unfold fire
  split
  · next waiters hs => exact .inr ⟨waiters, hs, rfl⟩
  · exact .inl rfl

/-- A signal that fires does the waits for it and no other. -/
theorem smooth_fire (h : Untroubled b m) (s : SignalId) : Smooth b m (m.fire s) := by
  have hheeds : ∀ {w source}, m.Heeds w source → (m.fire s).Heeds w source :=
    fun hw => (evolves_fire m s : Evolves (fun _ => True) m (m.fire s)).heeds hw
  rcases timetable_fire m s with hsame | ⟨waiters, hs, hfire⟩
  · exact ⟨congrArg Timetable.now hsame, fun ht => hsame ▸ ht, fun _ => .inl (by rw [hsame]), hheeds,
      fun _ hsole => hsole.of_timers fun ht => hsame ▸ ht, h.congr (jobs_fire m s)⟩
  · have hdone : ∀ sleeper, Wait.done ≠ .pending sleeper := nofun
    have hres : Timetable.Resolves .done waiters m.timetable _ (m.fire s).timetable :=
      hfire ▸ Timetable.resolves_resolveAll hdone m.timetable waiters
    have htimer : ∀ k, (m.fire s).timetable.timer? k = m.timetable.timer? k := fun k => by
      rw [Timetable.timer?, hres.clock]
      rfl
    refine ⟨congrArg Clock.now hres.clock, fun ht => (htimer _).trans ht, fun {w source} hw => ?_,
      hheeds, fun _ hsole => hsole.of_timers fun ht => (htimer _).symm.trans ht,
      h.congr (jobs_fire m s)⟩
    · by_cases hmem : w ∈ waiters
      · by_cases hpending : ∃ sleeper, m.timetable.waits[w]? = some (.pending sleeper)
        · obtain ⟨sleeper, hwait⟩ := hpending
          exact .inr ⟨hw.only hs hmem ▸ rfl, (hres.hit w hmem sleeper hwait).1⟩
        · exact .inl (hres.kept w fun sleeper hwait => hpending ⟨sleeper, hwait⟩)
      · exact .inl (hres.untouched w hmem)

theorem timetable_unlink (m : Machine ε τ) (p c : JobId) : (m.unlink p c).timetable = m.timetable := by
  unfold unlink
  split
  · rfl
  · dsimp only
    split <;> rfl

theorem smooth_unlink (h : Untroubled b m) (p c : JobId) : Smooth b m (m.unlink p c) := by
  refine .ofJobs (h.map fun k => ?_) (timetable_unlink m p c) (signals_unlink m p c)
  obtain ⟨f, hf, hsame⟩ := exists_job?_unlink m p c k
  refine ⟨f, hf, fun job => ?_⟩
  obtain ⟨children, sleeper, hjob⟩ := hsame job
  rw [hjob]
  exact ⟨rfl, rfl, rfl, fun _ => rfl⟩

theorem announce_of_calm {j : JobId} {job : Job} (h : job.Calm) :
    m.announce j job = (m.updateJob j job.ending).fire job.completion := by
  unfold announce passOnFailure
  rw [h.failure]

/-- A job that nothing has happened to settles as completed. -/
theorem smooth_settle (h : Untroubled b m) {j : JobId} {job : Job} (hj : m.job? j = some job)
    (hne : j ≠ b) : Smooth b m (m.settle j).2 := by
  obtain ⟨hcalm, -⟩ := h.calm hne hj
  have hended : Untroubled b (m.updateJob j job.ending) := by
    refine ⟨fun {k job'} hk hjob' => ?_, fun {job'} hjob' => ?_⟩
    · rw [job?_updateJob] at hjob'
      split at hjob'
      · rw [hj] at hjob'
        obtain rfl := Option.some.inj hjob'
        refine ⟨⟨hcalm.cancelled, hcalm.failure⟩, fun o ho => ?_⟩
        exact (Option.some.inj ho).symm.trans hcalm.finalOutcome
      · exact h.calm hk hjob'
    · rw [job?_updateJob, if_neg (Ne.symm hne)] at hjob'
      exact h.background hjob'
  have hannounce : Smooth b m (m.announce j job) := by
    rw [announce_of_calm hcalm]
    exact Smooth.trans (.ofJobs hended rfl rfl) (smooth_fire hended _)
  have hleft : Smooth b m (job.parent.elim (m.announce j job) ((m.announce j job).unlink · j)) := by
    cases job.parent with
    | none => exact hannounce
    | some p => exact hannounce.trans (smooth_unlink hannounce.untroubled p j)
  rw [settle_eq_announce hj]
  exact hleft.trans (smooth_updateJob hleft.untroubled fun _ => ⟨rfl, rfl, rfl, fun _ => rfl⟩)

theorem Untroubled.settle_fst (h : Untroubled b m) {j : JobId} {job : Job} (hj : m.job? j = some job)
    (hne : j ≠ b) : (m.settle j).1 = .completed := by
  rw [settle_eq hj]
  exact (h.calm hne hj).1.finalOutcome

/-- The end of a job's own code, in which nothing has gone wrong. -/
theorem smooth_close (h : Untroubled b m) {x : Option JobId} (hl : Links x m) {j : JobId} {job : Job}
    (hj : m.job? j = some job) (hne : j ≠ b) (ticket : Ticket) :
    Smooth b m (m.close ticket j (.ok ())).2 ∧
      (m.close ticket j (.ok ())).1 = if job.children = [] then some .completed else none := by
  have hawait := smooth_awaitChildren h ticket j
  have hidle : (m.awaitChildren ticket j).1 = job.children.isEmpty := by
    rw [awaitChildren_eq hl ticket hj]
  have hclose : m.close ticket j (.ok ()) =
      if job.children = [] then
        (some ((m.awaitChildren ticket j).2.settle j).1, ((m.awaitChildren ticket j).2.settle j).2)
      else (none, (m.awaitChildren ticket j).2) := by
    simp only [close, conclude, hidle, List.isEmpty_iff]
  rw [hclose]
  split
  · obtain ⟨job', hj'⟩ : ∃ job', (m.awaitChildren ticket j).2.job? j = some job' := by
      rw [awaitChildren_eq hl ticket hj, job?_updateJob, if_pos rfl, hj]
      exact ⟨_, rfl⟩
    refine ⟨hawait.trans (smooth_settle hawait.untroubled hj' hne), ?_⟩
    exact congrArg some (hawait.untroubled.settle_fst hj' hne)
  · exact ⟨hawait, rfl⟩

theorem smooth_beginDelay (h : Untroubled b m) (hm : m.Sound) {j : JobId} {job : Job}
    (hj : m.job? j = some job) (hne : j ≠ b) (ticket : Ticket) (duration : Nat) : ∃ m',
      m.beginDelay ticket j duration =
        (.suspended (.wait j m.timetable.clock.nextSeq m.timetable.waits.size), m') ∧
      DelayBegun ticket j duration m m' ∧ Smooth b m m' := by
  have hc := h.not_cancelled hne
  obtain ⟨m', hbegun, hdelay⟩ := delayBegun_beginDelay hm.orderly hc ticket duration
  obtain ⟨on, m₁, hbegun₁, hevolves, -⟩ :=
    begun_delay hm hj ((isCancelled_eq hj).symm.trans hc) ticket duration
  obtain rfl : m' = m₁ := (Prod.mk.inj (hbegun.symm.trans hbegun₁)).2
  refine ⟨m', hbegun, hdelay, hdelay.now, fun {k timer} ht => ?_, fun {w source} hw => ?_,
    fun hw => (hevolves.evolves : Evolves (fun _ => True) m m').heeds hw,
    fun {waiter w source} hw hsole k timer ht hcontent => ?_, h.map fun k => ?_⟩
  · rw [hdelay.timer, if_neg (Nat.ne_of_lt (hm.orderly.fresh ht))]
    exact ht
  · exact .inl ((hdelay.waits w).trans (if_neg (Nat.ne_of_lt hw.lt)))
  · rw [hdelay.timer] at ht
    split at ht
    · obtain rfl := Option.some.inj ht
      exact absurd hcontent.symm (Nat.ne_of_lt hw.lt)
    · exact hsole ht hcontent
  · obtain ⟨pending, hjob⟩ := hdelay.job k
    refine ⟨_, hjob, fun job => ?_⟩
    split
    · next hk => exact ⟨rfl, rfl, rfl, fun hb => absurd (hk.symm.trans hb) hne⟩
    · exact ⟨rfl, rfl, rfl, fun _ => rfl⟩

theorem smooth_beginSignalWait (h : Untroubled b m) (hm : m.Sound) {j : JobId} {job : Job}
    (hj : m.job? j = some job) (hne : j ≠ b) {s : SignalId} (hlt : s < m.signals.size)
    (hs : m.hasFired s = false) (ticket : Ticket) :
    Smooth b m (m.beginSignalWait ticket j s).2 := by
  have hc := h.not_cancelled hne
  obtain ⟨hbegun, -⟩ := begun_signalWait hm hj ((isCancelled_eq hj).symm.trans hc) hlt hs ticket
  have hjobs : ∀ k, (m.beginSignalWait ticket j s).2.job? k = _ :=
    job?_withWait m ticket j (.signal m.timetable.waits.size)
  refine ⟨(spends_beginSignalWait m ticket j s).now, fun ht => ht, fun {w source} hw => ?_,
    fun hw => (hbegun.evolves : Evolves (fun _ => True) m _).heeds hw, fun _ => id,
    h.map fun k => ?_⟩
  · exact .inl ((getElem?_waits_withWait m ticket j (.signal m.timetable.waits.size) w).trans
      (if_neg (Nat.ne_of_lt hw.lt)))
  · by_cases hk : k = j
    · refine ⟨_, (hjobs k).trans ((if_pos hk).trans (by rw [hk])), fun job => ?_⟩
      exact ⟨rfl, rfl, rfl, fun hb => absurd (hk.symm.trans hb) hne⟩
    · refine ⟨id, (hjobs k).trans ((if_neg hk).trans (by rw [Option.map_id]; rfl)), fun job => ?_⟩
      exact ⟨rfl, rfl, rfl, fun _ => rfl⟩

/-- The timer of a delay is the only one for its wait. -/
theorem DelayBegun.sole {ticket : Ticket} {j : JobId} {duration : Nat} (hm : m.Orderly)
    (h : DelayBegun ticket j duration m m') :
    m'.Sole m.timetable.clock.nextSeq m.timetable.waits.size := by
  intro k timer ht hcontent
  rw [h.timer] at ht
  split at ht
  · next hk => exact hk
  · exact absurd hcontent (Nat.ne_of_lt (hm.timed ht))

theorem smooth_forget (h : Untroubled b m) {j : JobId} (hne : j ≠ b) (waiter : Nat) :
    Smooth b m (m.forget j waiter) :=
  smooth_updateJob h fun _ => ⟨rfl, rfl, rfl, fun hb => absurd hb hne⟩

/-- When the clock moves on, a wait for a time that it has not passed is over when it was to be. -/
theorem OverAt.advance (hm : m.Orderly) {time ending : Nat} (hnext : m.timetable.clock.next? = some time)
    {waiter : Nat} {w : WaitId} (h : m.OverAt waiter w ending)
    (hpending : m.timetable.waits[w]? ≠ some .done) (hsole : m.Sole waiter w) :
    m.advance.2.OverAt waiter w ending := by
  have hadvanced := advanced_advance hnext
  cases h with
  | done hdone => exact absurd hdone hpending
  | @timed s timer hw htimer hcontent hle =>
    have hlate : time ≤ timer.deadline := TimerQueue.le_deadline_of_peek? hm.complete hnext htimer
    rcases hadvanced.timers waiter with hsame | ⟨-, timer', htimer', rfl, hresolved⟩
    · have hkept := hsame.trans htimer
      have hw' : m.advance.2.timetable.waits[w]? = some (.pending s) := by
        rcases hadvanced.waits w with hsame | ⟨k, timer', hk, hcontent', -, hnone⟩
        · exact hsame.trans hw
        · obtain rfl := hsole hk hcontent'
          cases hnone.symm.trans hkept
      exact .timed hw' hkept hcontent (hadvanced.now ▸ Nat.max_le.2 ⟨hle, hlate⟩)
    · -- the timer of the wait goes off
      obtain rfl := Option.some.inj (htimer.symm.trans htimer')
      have hnow : m.advance.2.now = timer.deadline := hadvanced.now.trans (Nat.max_eq_right hle)
      rw [hcontent] at hresolved
      exact hnow ▸ .done (hresolved s hw)

end RacePuzzle.Machine
