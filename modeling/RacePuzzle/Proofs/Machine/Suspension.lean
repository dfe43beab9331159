import RacePuzzle.Proofs.Machine.Soundness

/-! The beginning and the end of a suspension. A wait that begins is known to whatever will resolve
it; one that is over is taken off its job, and nobody else's wait with it. -/
namespace RacePuzzle.Machine

variable {ε τ : Type} {m m' : Machine ε τ} {allowed : Suspension → Prop}

/-- In `m'` a task of the job `j` has begun a wait of a number of its own. -/
structure Begun (ticket : Ticket) (j : JobId) (on : Suspension) (m m' : Machine ε τ) : Prop where
  on_eq : on = .wait j m.timetable.clock.nextSeq m.timetable.waits.size
  seq : m'.timetable.clock.nextSeq = m.timetable.clock.nextSeq + 1
  sound : Sound m'
  evolves : ∀ {allowed}, Evolves allowed m m'
  bond : ∀ k, m'.bond? k = m.bond? k
  size : m'.signals.size = m.signals.size
  fired : ∀ s, m'.hasFired s = m.hasFired s
  env : m'.env = m.env
  dispatcher : m'.dispatcher = m.dispatcher
  waits : m'.Waits ticket on

/-- The machine with a new wait of a job, before the wait is registered with what resolves it. -/
def withWait (m : Machine ε τ) (ticket : Ticket) (j : JobId) (on : OpenWait) : Machine ε τ :=
  { m with timetable := (m.timetable.allocate.2.newWait (some ticket)).2 }.updateJob j
    fun job => { job with pending := job.pending ++ [(m.timetable.clock.nextSeq, on)] }

theorem getElem?_waits_withWait (m : Machine ε τ) (ticket : Ticket) (j : JobId) (on : OpenWait)
    (w : WaitId) : (m.withWait ticket j on).timetable.waits[w]? =
      if w = m.timetable.waits.size then some (.pending (some ticket)) else m.timetable.waits[w]? := by
  simp only [withWait, updateJob, Timetable.newWait, Timetable.waits_allocate, Array.getElem?_push]

theorem size_waits_withWait (m : Machine ε τ) (ticket : Ticket) (j : JobId) (on : OpenWait) :
    (m.withWait ticket j on).timetable.waits.size = m.timetable.waits.size + 1 := by
  simp [withWait, updateJob, Timetable.newWait]

theorem job?_withWait (m : Machine ε τ) (ticket : Ticket) (j : JobId) (on : OpenWait) (k : JobId) :
    (m.withWait ticket j on).job? k =
      if k = j then (m.job? j).map fun job =>
        { job with pending := job.pending ++ [(m.timetable.clock.nextSeq, on)] }
      else m.job? k :=
  job?_updateJob ..

theorem Cancelled.withWait (h : Cancelled [] m) {j : JobId} (hj : m.isCancelled j = false)
    (ticket : Ticket) (on : OpenWait) : Cancelled [] (m.withWait ticket j on) := by
  have hbase : Cancelled []
      { m with timetable := (m.timetable.allocate.2.newWait (some ticket)).2 } :=
    h.congr fun _ => rfl
  refine hbase.updateJob fun job hjob => ⟨rfl, rfl, fun _ hc => hc, fun hc => ?_, id⟩
  have hjob : m.job? j = some job := hjob
  rw [isCancelled_eq hjob, hc] at hj
  cases hj

/-- What the registration of a new wait may add: the wait itself, to a timer or to the waiters of
signals. -/
structure Registers (m m' : Machine ε τ) : Prop where
  timer : ∀ {k timer}, m.timetable.timer? k = some timer → m'.timetable.timer? k = some timer
  timed : ∀ {k timer}, m'.timetable.timer? k = some timer → m.timetable.timer? k = some timer ∨
    k = m.timetable.clock.nextSeq ∧ timer.content = m.timetable.waits.size
  complete : m.timetable.clock.timers.Complete → m'.timetable.clock.timers.Complete
  unfired : ∀ {s : SignalId} {waiters : List WaitId}, m.signals[s]? = some ⟨false, waiters⟩ →
    ∃ waiters', m'.signals[s]? = some (Signal.mk false waiters') ∧ ∀ w ∈ waiters, w ∈ waiters'
  waiters : ∀ {s : SignalId} {signal : Signal}, m'.signals[s]? = some signal →
    ∃ signal₀ : Signal, m.signals[s]? = some signal₀ ∧
      ∀ w ∈ signal.waiters, w ∈ signal₀.waiters ∨ w = m.timetable.waits.size
  fired : ∀ s, m'.hasFired s = m.hasFired s
  size : m'.signals.size = m.signals.size

section

variable {ticket : Ticket} {j : JobId} {on : OpenWait}

theorem Registers.evolves (h : Registers m m')
    (hwaits : ∀ w : WaitId, m'.timetable.waits[w]? = (m.withWait ticket j on).timetable.waits[w]?)
    (hjobs : ∀ k, m'.job? k = (m.withWait ticket j on).job? k)
    (hd : m'.dispatcher = m.dispatcher)
    (hseq : m'.timetable.clock.nextSeq = m.timetable.clock.nextSeq + 1) :
    Evolves allowed m m' := by
  have hold : ∀ {w : WaitId} {r : Wait}, m.timetable.waits[w]? = some r → m'.timetable.waits[w]? = some r := by
    intro w r hw
    have hlt := (Array.getElem?_eq_some_iff.1 hw).1
    rw [hwaits, getElem?_waits_withWait, if_neg (Nat.ne_of_lt hlt), hw]
  have hjob : ∀ {k job}, m.job? k = some job → ∃ job', m'.job? k = some job' ∧
      job'.bond = job.bond ∧ job'.cancelled = job.cancelled ∧
      job'.idleSleeper = job.idleSleeper ∧ ∀ p ∈ job.pending, p ∈ job'.pending := by
    intro k job hk
    rw [hjobs, job?_withWait]
    split
    · next hkj =>
      subst hkj
      rw [hk]
      exact ⟨_, rfl, rfl, rfl, rfl, fun p hp => List.mem_append_left _ hp⟩
    · exact ⟨job, hk, rfl, rfl, rfl, fun _ h => h⟩
  refine ⟨Nat.le_of_eq (by rw [hd]), fun _ => by rw [hd], fun {i on'} _ _ _ hw => ?_, fun {w source} hw => ?_,
    by omega, fun {k} hk => ?_, fun {s} hs => (h.fired s).trans hs, fun {k b} hk => ?_⟩
  · cases on' with
    | entry j' =>
      unfold Waits
      rw [hd]
      exact hw
    | children j' =>
      obtain ⟨job, hk, hsleep⟩ := hw
      obtain ⟨job', hk', hb, -, hi, -⟩ := hjob hk
      have hc : job'.children = job.children := congrArg Bond.children hb
      exact ⟨job', hk', by rwa [hc, hi, hd]⟩
    | turn => exact hw
    | wait j' k w =>
      refine hw.imp (fun hw => ⟨?_, hd ▸ hw.2⟩) fun hs => ⟨hold hs.pending, ?_⟩
      · exact hw.1.imp hold hold
      · obtain ⟨job, on', hk, hc, hp, hsrc⟩ := hs.listed
        obtain ⟨job', hk', -, hc', -, hp'⟩ := hjob hk
        refine ⟨job', on', hk', hc'.trans hc, hp' _ hp, ?_⟩
        cases on' with
        | timer =>
          obtain ⟨timer, ht, he⟩ := hsrc
          exact ⟨timer, h.timer ht, he⟩
        | signal w' =>
          obtain ⟨rfl, s, waiters, hs, hin⟩ := hsrc
          obtain ⟨waiters', hs', hsub⟩ := h.unfired hs
          exact ⟨rfl, s, waiters', hs', hsub _ hin⟩
  · refine ⟨?_, fun {s} he hd => ?_, fun {s' signal} hs hin => ?_, fun hsome {k timer} ht => ?_⟩
    · exact (Array.getElem?_eq_some_iff.1 (hold (Array.getElem?_eq_getElem hw.lt))).1
    · rw [hwaits, getElem?_waits_withWait, if_neg (Nat.ne_of_lt hw.lt)] at hd
      exact (h.fired s).trans (hw.done he hd)
    · obtain ⟨signal₀, hs₀, hsub⟩ := h.waiters hs
      exact hw.only hs₀ ((hsub w hin).resolve_right (Nat.ne_of_lt hw.lt))
    · rcases h.timed ht with ht | ⟨-, hc⟩
      · exact hw.untimed hsome ht
      · exact hc ▸ (Nat.ne_of_lt hw.lt).symm
  · obtain ⟨job, hjob₀, hc⟩ := exists_of_isCancelled hk
    obtain ⟨job', hk', -, hc', -⟩ := hjob hjob₀
    rw [isCancelled_eq hk', hc', hc]
  · obtain ⟨job, hk₀, rfl⟩ := bond?_eq_some.1 hk
    obtain ⟨job', hk', hb, -⟩ := hjob hk₀
    exact ⟨job'.bond, bond?_of_job? hk', by rw [hb], fun _ => by rw [hb]⟩

/-- A wait that begins in a job that is not cancelled, and that what resolves it knows. -/
theorem Registers.begun (on : OpenWait) (h : Registers m m') (hm : Sound m) {job : Job} (hj : m.job? j = some job)
    (hc : job.cancelled = false)
    (hwaits : m'.timetable.waits = (m.withWait ticket j on).timetable.waits)
    (hjobs : m'.jobs = (m.withWait ticket j on).jobs) (hd : m'.dispatcher = m.dispatcher)
    (henv : m'.env = m.env)
    (hseq : m'.timetable.clock.nextSeq = m.timetable.clock.nextSeq + 1)
    (hsource : m'.Source m.timetable.clock.nextSeq m.timetable.waits.size on) :
    Begun ticket j (.wait j m.timetable.clock.nextSeq m.timetable.waits.size) m m' := by
  have hjob? : ∀ k, m'.job? k = (m.withWait ticket j on).job? k := fun k => by
    simp only [job?, hjobs]
  have hbond : ∀ k, m'.bond? k = m.bond? k := by
    intro k
    unfold bond?
    rw [hjob?, job?_withWait]
    split
    · next hk =>
      subst hk
      cases m.job? k <;> rfl
    · rfl
  have hwsize : m'.timetable.waits.size = m.timetable.waits.size + 1 := by
    rw [hwaits, size_waits_withWait]
  have hsound : Sound m' := by
    refine ⟨⟨hm.tree.links.congr hbond, hm.tree.completions.congr hbond h.size h.fired⟩, ?_, ?_⟩
    · exact (hm.cancelled.withWait ((isCancelled_eq hj).trans hc) ticket on).congr hjob?
    · refine ⟨hd ▸ hm.orderly.aligned, h.complete hm.orderly.complete, fun {k timer} ht => ?_,
        fun {k timer} ht => ?_, fun {s signal w} hs hin => ?_⟩
      · rcases h.timed ht with ht | ⟨rfl, -⟩
        · have := hm.orderly.fresh ht
          omega
        · omega
      · rw [hwsize]
        rcases h.timed ht with ht | ⟨-, he⟩
        · exact Nat.lt_succ_of_lt (hm.orderly.timed ht)
        · exact Nat.lt_succ_of_le (Nat.le_of_eq he)
      · rw [hwsize]
        obtain ⟨signal₀, hs₀, hsub⟩ := h.waiters hs
        rcases hsub w hin with hin | rfl
        · exact Nat.lt_succ_of_lt (hm.orderly.registered hs₀ hin)
        · exact Nat.lt_succ_self _
  refine ⟨rfl, hseq, hsound, h.evolves (fun w => by rw [hwaits]) hjob? hd hseq, hbond, h.size,
    h.fired, henv, hd, .inr ⟨?_, ?_⟩⟩
  · rw [hwaits, getElem?_waits_withWait, if_pos rfl]
  · refine ⟨{ job with pending := job.pending ++ [(m.timetable.clock.nextSeq, on)] }, on, ?_, hc,
      by simp, hsource⟩
    rw [hjob?, job?_withWait, if_pos rfl, hj]
    rfl

end

theorem begun_delay (hm : Sound m) {j : JobId} {job : Job} (hj : m.job? j = some job)
    (hc : job.cancelled = false) (ticket : Ticket) (time : Nat) :
    ∃ on m', m.beginDelay ticket j time = (.suspended on, m') ∧ Begun ticket j on m m' ∧
      m'.Heeds m.timetable.waits.size none := by
  have hfresh : m.timetable.allocate.2.timer? m.timetable.clock.nextSeq = none := by
    refine Option.eq_none_iff_forall_ne_some.2 fun timer ht => ?_
    exact absurd (hm.orderly.fresh (k := m.timetable.clock.nextSeq) ht) (Nat.lt_irrefl _)
  have hcancelled : m.isCancelled j = false := (isCancelled_eq hj).trans hc
  unfold beginDelay
  rw [hcancelled]
  refine ⟨_, _, rfl, ?_, ⟨?_, nofun, fun {s signal} hs hin => ?_, nofun⟩⟩
  rotate_left
  · exact Nat.lt_of_lt_of_eq (Nat.lt_succ_self _) (size_waits_withWait m ticket j .timer).symm
  · exact absurd (hm.orderly.registered hs hin) (Nat.lt_irrefl _)
  have htimer := Timetable.timer?_addTimer
    (t := (m.timetable.allocate.2.newWait (some ticket)).2) hfresh (min (m.now + time) maxTime)
    m.timetable.clock.nextSeq m.timetable.waits.size
  refine Registers.begun .timer ⟨fun {k timer} ht => ?_, fun {k timer} ht => ?_, fun h => ?_,
    fun h => ⟨_, h, fun _ h => h⟩, fun h => ⟨_, h, fun _ h => .inl h⟩, fun _ => rfl, rfl⟩ hm hj hc
    rfl rfl rfl rfl ?_ ?_
  · refine (htimer k).trans ?_
    split
    · next hk => exact absurd (hfresh.symm.trans (hk ▸ ht)) (by simp)
    · exact ht
  · have := (htimer k).symm.trans ht
    split at this
    · next hk =>
      obtain rfl := Option.some.inj this
      exact .inr ⟨hk, rfl⟩
    · exact .inl this
  · have := Timetable.complete_addTimer (t := (m.timetable.allocate.2.newWait (some ticket)).2) h
      hfresh (min (m.now + time) maxTime) m.timetable.clock.nextSeq m.timetable.waits.size
    exact this
  · exact Timetable.nextSeq_addTimer ..
  · exact ⟨_, (htimer _).trans (if_pos rfl), rfl⟩

theorem hasFired_modify (signals : Array Signal) (s : SignalId) (w : WaitId) (s' : SignalId) :
    ((signals.modify s fun s => { s with waiters := s.waiters ++ [w] })[s']?).any (·.fired) =
      (signals[s']?).any (·.fired) := by
  rw [Array.getElem?_modify]
  split
  · cases signals[s']? <;> rfl
  · rfl

theorem begun_signalWait (hm : Sound m) {j : JobId} {job : Job} (hj : m.job? j = some job)
    (hc : job.cancelled = false) {s : SignalId} (hlt : s < m.signals.size)
    (hs : m.hasFired s = false) (ticket : Ticket) :
    Begun ticket j (m.beginSignalWait ticket j s).1 m (m.beginSignalWait ticket j s).2 ∧
      (m.beginSignalWait ticket j s).2.Heeds m.timetable.waits.size (some s) := by
  obtain ⟨waiters, hsignal⟩ : ∃ waiters : List WaitId, m.signals[s]? = some ⟨false, waiters⟩ := by
    have hget : m.signals[s]? = some m.signals[s] := Array.getElem?_eq_getElem hlt
    match hsig : m.signals[s] with
    | ⟨true, _⟩ => simp [hasFired, hget, hsig] at hs
    | ⟨false, waiters⟩ => exact ⟨waiters, hget.trans (congrArg some hsig)⟩
  have hsignals : (m.beginSignalWait ticket j s).2.signals =
      m.signals.modify s fun s => { s with waiters := s.waiters ++ [m.timetable.waits.size] } := rfl
  have hget : ∀ s' : SignalId, (m.beginSignalWait ticket j s).2.signals[s']? =
      if s' = s then some ⟨false, waiters ++ [m.timetable.waits.size]⟩ else m.signals[s']? := by
    intro s'
    rw [hsignals, Array.getElem?_modify]
    by_cases he : s' = s
    · subst he
      simp [hsignal]
    · simp [he, Ne.symm he]
  have hwaiters : ∀ {s' : SignalId} {signal : Signal},
      (m.beginSignalWait ticket j s).2.signals[s']? = some signal → ∃ signal₀ : Signal,
        m.signals[s']? = some signal₀ ∧ ∀ w ∈ signal.waiters, w ∈ signal₀.waiters ∨
          s' = s ∧ w = m.timetable.waits.size := by
    intro s' signal h
    rw [hget] at h
    split at h
    · next he =>
      subst he
      obtain rfl := Option.some.inj h
      refine ⟨_, hsignal, fun w hw => ?_⟩
      rcases List.mem_append.1 hw with hw | hw
      · exact .inl hw
      · exact .inr ⟨rfl, by simpa using hw⟩
    · exact ⟨signal, h, fun w hw => .inl hw⟩
  refine ⟨Registers.begun (.signal m.timetable.waits.size)
    ⟨fun h => h, fun h => .inl h, fun h => h, fun {s' ws} h => ?_, fun {s' signal} h => ?_,
      hasFired_modify m.signals s m.timetable.waits.size,
      (congrArg Array.size hsignals).trans (Array.size_modify ..)⟩
    hm hj hc rfl rfl rfl rfl rfl ⟨rfl, s, _, (hget s).trans (if_pos rfl), by simp⟩, ?_⟩
  · rw [hget]
    split
    · next he =>
      subst he
      obtain rfl : waiters = ws := by simpa [hsignal] using h
      exact ⟨_, rfl, fun w hw => List.mem_append_left _ hw⟩
    · exact ⟨ws, h, fun _ h => h⟩
  · obtain ⟨signal₀, h₀, hsub⟩ := hwaiters h
    exact ⟨signal₀, h₀, fun w hw => (hsub w hw).imp id And.right⟩
  · have hsize : (m.beginSignalWait ticket j s).2.timetable.waits.size =
        m.timetable.waits.size + 1 := size_waits_withWait m ticket j (.signal m.timetable.waits.size)
    refine ⟨Nat.lt_of_lt_of_eq (Nat.lt_succ_self _) hsize.symm, fun _ hd => ?_,
      fun {s' signal} hs' hin => ?_, fun _ {k timer} ht => ?_⟩
    · have hpending := getElem?_waits_withWait m ticket j (.signal m.timetable.waits.size)
        m.timetable.waits.size
      rw [if_pos rfl] at hpending
      exact absurd (hpending.symm.trans hd) (by simp)
    · obtain ⟨signal₀, h₀, hsub⟩ := hwaiters hs'
      rcases hsub _ hin with hin | ⟨he, -⟩
      · exact absurd (hm.orderly.registered h₀ hin) (Nat.lt_irrefl _)
      · rw [he]
    · exact Nat.ne_of_lt (hm.orderly.timed ht)

/-- A wait is taken off its job; the others have other numbers. -/
theorem evolves_forget (m : Machine ε τ) (j : JobId) (waiter : Nat) :
    Evolves (fun on => ∀ j' w, on ≠ .wait j' waiter w) m (m.forget j waiter) := by
  refine evolves_updateJob (fun _ _ h => h) (fun _ _ => ⟨rfl, fun _ => rfl⟩)
    (fun job hj i k w ha hs => ?_) fun _ _ _ => ⟨rfl, rfl⟩
  have hc := hs.not_cancelled hj
  refine ⟨hc, fun on hp _ => List.mem_filter.2 ⟨hp, ?_⟩⟩
  have hne : k ≠ waiter := fun he => ha j w (by rw [he])
  simpa using hne

theorem bond?_forget (m : Machine ε τ) (j : JobId) (waiter : Nat) (k : JobId) :
    (m.forget j waiter).bond? k = m.bond? k :=
  bond?_updateJob (f := fun job => { job with pending := job.pending.filter (·.1 != waiter) })
    (fun _ => rfl) k

theorem trimmed_forget (job : Job) (waiter : Nat) :
    Job.Trimmed job { job with pending := job.pending.filter (·.1 != waiter) } :=
  ⟨rfl, rfl, fun _ hc => hc, fun _ he => by simp [he], id⟩

theorem Sound.forget (h : Sound m) (j : JobId) (waiter : Nat) : Sound (m.forget j waiter) :=
  h.updateJob (fun _ => rfl) fun job _ => trimmed_forget job waiter

theorem evolves_awaitChildren (m : Machine ε τ) (ticket : Ticket) (j : JobId) :
    Evolves (· ≠ .children j) m (m.awaitChildren ticket j).2 := by
  refine evolves_updateJob (fun _ _ h => h) (fun _ _ => ⟨rfl, fun _ => rfl⟩)
    (fun job hj i k w _ hs => ?_) fun _ _ h => absurd rfl h
  have hc := hs.not_cancelled hj
  exact ⟨hc, fun _ hp _ => hp⟩

/-- The wait for the children either is over or leaves the task asleep on it. -/
theorem awaitChildren_cases {x : Option JobId} (hl : Links x m) {j : JobId} {job : Job}
    (hj : m.job? j = some job) (ticket : Ticket) :
    job.children = [] ∧ (m.awaitChildren ticket j).1 = true ∨
      job.children ≠ [] ∧ (m.awaitChildren ticket j).1 = false ∧
        (m.awaitChildren ticket j).2.Waits ticket (.children j) := by
  rw [awaitChildren_eq hl ticket hj]
  by_cases hc : job.children = []
  · exact .inl ⟨hc, by simp [hc]⟩
  · refine .inr ⟨hc, by simpa using hc, ?_⟩
    refine ⟨{ job with idleSleeper := some ticket }, ?_, .inr ⟨hc, rfl⟩⟩
    simp [job?_updateJob, hj, hc]

theorem evolves_settle (h : Tree none m) {j : JobId} {job : Job} (hj : m.job? j = some job)
    (hnone : job.children = []) (hopen : job.outcome = none) :
    Evolves allowed m (m.settle j).2 := by
  have hset := h.setOutcome (bond?_of_job? hj) hnone job.finalOutcome
    (job.failureReported || job.failure.isSome)
  have h₁ : Evolves allowed m _ := evolves_updateJob_of (m := m) (j := j)
    (f := ({ · with outcome := some job.finalOutcome,
                    failureReported := job.failureReported || job.failure.isSome }))
    (fun _ => rfl) (fun job' hj' => ⟨rfl, fun ho => ?_⟩) (fun _ => rfl) (fun _ => rfl) fun _ => rfl
  · rw [settle_eq hj]
    dsimp only
    generalize m.updateJob j _ = m₁ at hset h₁ ⊢
    have h₂ : Evolves allowed m ((m₁.passOnFailure job).fire job.completion) :=
      (h₁.trans (evolves_passOnFailure m₁ job)).trans (evolves_fire _ _)
    have hl₂ : Links (some j) ((m₁.passOnFailure job).fire job.completion) :=
      (hset.links.of_sameBonds (sameBonds_passOnFailure m₁ job)).congr (bond?_fire _ _)
    generalize (m₁.passOnFailure job).fire job.completion = m₂ at h₂ hl₂ ⊢
    have h₃ : Evolves allowed m (job.parent.elim m₂ (m₂.unlink · j)) := by
      cases job.parent with
      | none => exact h₂
      | some p => exact h₂.trans (evolves_unlink hl₂ p j)
    exact h₃.trans (evolves_updateJob_of (fun _ => rfl) (fun _ _ => ⟨rfl, fun _ => rfl⟩)
      (fun _ => rfl) (fun _ => rfl) fun _ => rfl)
  · obtain rfl := Option.some.inj (hj.symm.trans hj')
    simp [hopen] at ho

inductive Closes (ticket : Ticket) (j : JobId) (c : SignalId) (m : Machine ε τ) :
    Option Outcome → Machine ε τ → Prop
  /-- The job waits for its children. -/
  | waits {m' : Machine ε τ} : Sound m' → Evolves (· ≠ .children j) m m' → (∀ k, m'.bond? k = m.bond? k) →
      m'.signals = m.signals → m'.env = m.env → m'.Waits ticket (.children j) →
      Closes ticket j c m none m'
  /-- The job settles. -/
  | settles {o : Outcome} {m' : Machine ε τ} : Sound m' → Evolves (· ≠ .children j) m m' → Settles j o c m m' →
      Closes ticket j c m (some o) m'

theorem closes_close (h : Sound m) {j : JobId} {b : Bond} (hj : m.bond? j = some b)
    (hopen : b.outcome = none) (ticket : Ticket) (result : Completion) :
    Closes ticket j b.completion m (m.close ticket j result).1 (m.close ticket j result).2 := by
  have hcon := sameBonds_conclude m j result
  have hs := h.conclude j result
  have he : Evolves (· ≠ .children j) m (m.conclude j result) := evolves_conclude m j result
  unfold close
  generalize m.conclude j result = m₁ at hcon hs he ⊢
  obtain ⟨job₁, hj₁, hb₁⟩ := bond?_eq_some.1 ((hcon.bond j).trans hj)
  have hs₂ := hs.awaitChildren ticket j
  have he₂ := he.trans (evolves_awaitChildren m₁ ticket j)
  have hb₂ : ∀ k, (m₁.awaitChildren ticket j).2.bond? k = m.bond? k := fun k =>
    (bond?_awaitChildren hs.tree.links ticket j k).trans (hcon.bond k)
  have hsig₂ : (m₁.awaitChildren ticket j).2.signals = m.signals := hcon.signals
  have henv₂ : (m₁.awaitChildren ticket j).2.env = m.env := hcon.env
  rcases awaitChildren_cases hs.tree.links hj₁ ticket with ⟨hnone, hidle⟩ | ⟨-, hidle, hwaits⟩
  · simp only [hidle, if_true]
    generalize (m₁.awaitChildren ticket j).2 = m₂ at hs₂ he₂ hb₂ hsig₂ henv₂ ⊢
    obtain ⟨job₂, hj₂, hbond₂⟩ := bond?_eq_some.1 ((hb₂ j).trans hj)
    have hnone₂ : job₂.children = [] := by
      have : job₂.bond.children = job₁.bond.children := by rw [hbond₂, hb₁]
      exact this.trans hnone
    have hopen₂ : job₂.outcome = none := (congrArg Bond.outcome hbond₂).trans hopen
    have hcomp₂ : job₂.completion = b.completion := congrArg Bond.completion hbond₂
    obtain ⟨ho, hset⟩ := settles_settle hs₂.tree hj₂ hnone₂
    rw [ho]
    refine .settles (hs₂.settle hj₂ hnone₂)
      (he₂.trans (evolves_settle hs₂.tree hj₂ hnone₂ hopen₂)) ⟨hset.tree, fun k => ?_, fun s => ?_,
        hset.size.trans (congrArg Array.size hsig₂), hset.env.trans henv₂⟩
    · rw [hset.bond k, hb₂]
    · rw [hset.fired s, hcomp₂, hasFired_congr hsig₂]
  · simp only [hidle, Bool.false_eq_true, if_false]
    exact .waits hs₂ he₂ hb₂ hsig₂ henv₂ hwaits

end RacePuzzle.Machine
