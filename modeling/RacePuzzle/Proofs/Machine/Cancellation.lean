import RacePuzzle.Proofs.Machine.Settling

/-! How far cancellation reaches. A cancelled job has no wait left, the children it lists are
cancelled as well unless nobody holds them, and a job with a failure is cancelled. A cancellation that
is under way owes this to the jobs on its list. -/
namespace RacePuzzle.Machine

variable {ε τ : Type} {m m' : Machine ε τ} {x : Option JobId}

structure Cancelled (owed : List JobId) (m : Machine ε τ) : Prop where
  below : ∀ {p job c}, m.job? p = some job → job.cancelled = true → c ∈ job.children →
    m.isHeld c = true → m.isCancelled c = true ∨ c ∈ owed
  idle : ∀ {p job}, m.job? p = some job → job.cancelled = true → job.pending = []
  failed : ∀ {p job}, m.job? p = some job → job.failure.isSome →
    job.cancelled = true ∨ p ∈ owed ∧ job.isHeld = true
  known : ∀ {p job c}, m.job? p = some job → c ∈ job.children → c < m.jobs.size

theorem isCancelled_eq {j : JobId} {job : Job} (h : m.job? j = some job) :
    m.isCancelled j = job.cancelled := by
  simp [isCancelled, h]

theorem exists_of_isCancelled {j : JobId} (h : m.isCancelled j = true) :
    ∃ job, m.job? j = some job ∧ job.cancelled = true := by
  cases hj : m.job? j with
  | none => simp [isCancelled, hj] at h
  | some job => exact ⟨job, rfl, by simpa [isCancelled, hj] using h⟩

theorem isHeld_eq {j : JobId} {job : Job} (h : m.job? j = some job) : m.isHeld j = job.isHeld := by
  simp [isHeld, h]

theorem exists_of_isHeld {j : JobId} (h : m.isHeld j = true) :
    ∃ job, m.job? j = some job ∧ job.isHeld = true := by
  cases hj : m.job? j with
  | none => simp [isHeld, hj] at h
  | some job => exact ⟨job, rfl, by simpa [isHeld, hj] using h⟩

theorem Cancelled.of_failed (h : Cancelled [] m) {p : JobId} {job : Job} (hp : m.job? p = some job)
    (hf : job.failure.isSome) : job.cancelled = true :=
  (h.failed hp hf).resolve_right (by simp)

/-- What a job may become without owing its children a cancellation. -/
structure Job.Trimmed (job job' : Job) : Prop where
  cancelled : job'.cancelled = job.cancelled
  failure : job'.failure = job.failure
  children : ∀ c ∈ job'.children, c ∈ job.children
  pending : job.cancelled = true → job.pending = [] → job'.pending = []
  held : job'.isHeld = true → job.isHeld = true

theorem Job.Trimmed.refl (job : Job) : Job.Trimmed job job :=
  ⟨rfl, rfl, fun _ hc => hc, fun _ h => h, id⟩

theorem Cancelled.trimmed (h : Cancelled [] m) (hsize : m'.jobs.size = m.jobs.size)
    (hjobs : ∀ {k job'}, m'.job? k = some job' → ∃ job, m.job? k = some job ∧ Job.Trimmed job job') :
    Cancelled [] m' := by
  have hmono : ∀ {k}, m.isCancelled k = true → m'.isCancelled k = true := fun {k} hk => by
    obtain ⟨job, hjob, hc⟩ := exists_of_isCancelled hk
    have hlt : k < m'.jobs.size := hsize ▸ job?_lt hjob
    have hget : m'.job? k = some m'.jobs[k] := Array.getElem?_eq_getElem hlt
    obtain ⟨job₀, hjob₀, ht⟩ := hjobs hget
    obtain rfl := Option.some.inj (hjob.symm.trans hjob₀)
    exact (isCancelled_eq hget).trans (ht.cancelled.trans hc)
  have hheld : ∀ {k}, m'.isHeld k = true → m.isHeld k = true := fun {k} hk => by
    obtain ⟨job', hjob', hk⟩ := exists_of_isHeld hk
    obtain ⟨job, hjob, ht⟩ := hjobs hjob'
    exact (isHeld_eq hjob).trans (ht.held hk)
  refine ⟨fun {p job' c} hp hc hmem hk => ?_, fun {p job'} hp hc => ?_, fun {p job'} hp hf => ?_,
    fun {p job' c} hp hmem => ?_⟩
  · obtain ⟨job, hjob, ht⟩ := hjobs hp
    exact (h.below hjob (ht.cancelled ▸ hc) (ht.children c hmem) (hheld hk)).imp hmono id
  · obtain ⟨job, hjob, ht⟩ := hjobs hp
    have hc₀ : job.cancelled = true := ht.cancelled ▸ hc
    exact ht.pending hc₀ (h.idle hjob hc₀)
  · obtain ⟨job, hjob, ht⟩ := hjobs hp
    exact .inl (ht.cancelled.trans (h.of_failed hjob (ht.failure ▸ hf)))
  · obtain ⟨job, hjob, ht⟩ := hjobs hp
    exact hsize ▸ h.known hjob (ht.children c hmem)

theorem Cancelled.congr (h : Cancelled [] m) (hjobs : ∀ k, m'.job? k = m.job? k) :
    Cancelled [] m' :=
  h.trimmed (congrArg Array.size (Array.ext_getElem? hjobs)) fun {k job'} hk =>
    ⟨job', (hjobs k).symm.trans hk, .refl job'⟩

theorem Cancelled.set (h : Cancelled [] m) {j : JobId} {job new : Job} (hj : m.job? j = some job)
    (ht : Job.Trimmed job new) :
    Cancelled [] ({ m with jobs := m.jobs.setIfInBounds j new } : Machine ε τ) := by
  refine h.trimmed (Array.size_setIfInBounds ..) fun {k job'} hk => ?_
  rw [job?_set hj] at hk
  split at hk
  · next hkj =>
    subst hkj
    obtain rfl := Option.some.inj hk
    exact ⟨job, hj, ht⟩
  · exact ⟨job', hk, .refl job'⟩

theorem Cancelled.updateJob (h : Cancelled [] m) {j : JobId} {f : Job → Job}
    (hf : ∀ job, m.job? j = some job → Job.Trimmed job (f job)) :
    Cancelled [] (m.updateJob j f) := by
  cases hj : m.job? j with
  | none =>
    rw [updateJob_of_none hj]
    exact h
  | some job =>
    rw [updateJob_eq_set hj]
    exact h.set hj (hf job hj)

theorem isCancelled_cancelOne {j : JobId} {job : Job} (h : m.job? j = some job) (k : JobId) :
    (m.cancelOne j job).isCancelled k = true ↔ k = j ∨ m.isCancelled k = true := by
  unfold isCancelled
  rw [job?_cancelOne h]
  by_cases hk : k = j <;> simp [hk]

/-- Cancelling one job pays what is owed to it and owes its children. -/
theorem Cancelled.cancelOne {j : JobId} {rest : List JobId} (h : Cancelled (j :: rest) m)
    {job : Job} (hj : m.job? j = some job) :
    Cancelled (job.children ++ rest) (m.cancelOne j job) := by
  have howed : ∀ {c}, m.isCancelled c = true ∨ c ∈ j :: rest →
      (m.cancelOne j job).isCancelled c = true ∨ c ∈ job.children ++ rest := by
    intro c hc
    rw [isCancelled_cancelOne hj]
    rcases hc with hc | hc
    · exact .inl (.inr hc)
    · rcases List.mem_cons.1 hc with rfl | hc
      · exact .inl (.inl rfl)
      · exact .inr (List.mem_append_right _ hc)
  have hheld : ∀ {c}, (m.cancelOne j job).isHeld c = true → m.isHeld c = true := by
    intro c hc
    obtain ⟨job', hjob', hc⟩ := exists_of_isHeld hc
    rw [job?_cancelOne hj] at hjob'
    split at hjob'
    · next hcj =>
      subst hcj
      obtain rfl := Option.some.inj hjob'
      exact (isHeld_eq hj).trans hc
    · exact (isHeld_eq hjob').trans hc
  have hsize : (m.cancelOne j job).jobs.size = m.jobs.size := by
    simp only [Machine.cancelOne, jobs_interruptAll, Array.size_setIfInBounds]
  refine ⟨fun {p job' c} hp hc hmem hk => ?_, fun {p job'} hp hc => ?_, fun {p job'} hp hf => ?_,
    fun {p job' c} hp hmem => hsize ▸ ?_⟩
  · rw [job?_cancelOne hj] at hp
    split at hp
    · obtain rfl := Option.some.inj hp
      exact .inr (List.mem_append_left _ hmem)
    · exact howed (h.below hp hc hmem (hheld hk))
  · rw [job?_cancelOne hj] at hp
    split at hp
    · obtain rfl := Option.some.inj hp
      rfl
    · exact h.idle hp hc
  · rw [job?_cancelOne hj] at hp
    split at hp
    · obtain rfl := Option.some.inj hp
      exact .inl rfl
    · next hpj =>
      refine (h.failed hp hf).imp id (And.imp_left fun hmem => ?_)
      exact List.mem_append_right _ ((List.mem_cons.1 hmem).resolve_left hpj)
  · rw [job?_cancelOne hj] at hp
    split at hp
    · obtain rfl := Option.some.inj hp
      exact h.known hj hmem
    · exact h.known hp hmem

theorem Links.of_sameBonds (h : Links x m) (hs : SameBonds m m') : Links x m' :=
  h.congr hs.bond

/-- What need not be owed to a job: nobody holds it, or it is cancelled already. -/
theorem Cancelled.skip {j : JobId} {rest : List JobId} (h : Cancelled (j :: rest) m)
    (hj : m.isHeld j = true → m.isCancelled j = true) : Cancelled rest m := by
  refine ⟨fun {p job c} hp hc hmem hk => ?_, h.idle, fun {p job} hp hf => ?_, h.known⟩
  · rcases h.below hp hc hmem hk with h' | h'
    · exact .inl h'
    · rcases List.mem_cons.1 h' with rfl | h'
      · exact .inl (hj hk)
      · exact .inr h'
  · rcases h.failed hp hf with h' | ⟨h', hk⟩
    · exact .inl h'
    · rcases List.mem_cons.1 h' with rfl | h'
      · exact .inl ((isCancelled_eq hp).symm.trans (hj ((isHeld_eq hp).trans hk)))
      · exact .inr ⟨h', hk⟩

theorem cancelAll_cons (m : Machine ε τ) (job : JobId) (rest : List JobId) :
    m.cancelAll (job :: rest) =
      match m.jobs[job]? with
      | none => m.cancelAll rest
      | some j =>
        if j.isHeld && !j.cancelled then (m.cancelOne job j).cancelAll (j.children ++ rest)
        else m.cancelAll rest := by
  rw [cancelAll]
  split <;> rename_i h <;> simp only [h]
  split <;> rfl

/-- A cancellation that runs to its end owes nothing. -/
theorem Cancelled.cancelAll {owed : List JobId} (h : Cancelled owed m) :
    Cancelled [] (m.cancelAll owed) := by
  fun_induction Machine.cancelAll m owed with
  | case1 m => exact h
  | case2 m job rest hj ih =>
    refine ih (h.skip fun hheld => ?_)
    simp [isHeld, job?, hj] at hheld
  | case3 m job rest j hj hc _ ih => exact ih (h.cancelOne hj)
  | case4 m job rest j hj hc ih =>
    refine ih (h.skip fun hheld => (isCancelled_eq hj).trans ?_)
    have hheld : j.isHeld = true := (isHeld_eq hj).symm.trans hheld
    simpa [hheld] using hc

theorem Cancelled.cancel (h : Cancelled [] m) (j : JobId) : Cancelled [] (m.cancel j) :=
  Cancelled.cancelAll ⟨fun hp hc hmem hk => (h.below hp hc hmem hk).imp id nofun, h.idle,
    fun hp hf => .inl (h.of_failed hp hf), h.known⟩

/-- A failure that is recorded owes its job a cancellation. -/
theorem Cancelled.recordFailure (h : Cancelled [] m) {j : JobId} {job : Job}
    (hj : m.job? j = some job) (hheld : job.isHeld = true) (kind : ExceptionKind) :
    Cancelled [j] (m.recordFailure j job kind) := by
  have hget : ∀ {k job'}, (m.recordFailure j job kind).job? k = some job' →
      ∃ job₀, m.job? k = some job₀ ∧ job'.cancelled = job₀.cancelled ∧
        job'.children = job₀.children ∧ job'.pending = job₀.pending ∧
        job'.isHeld = job₀.isHeld ∧ (k ≠ j → job'.failure = job₀.failure) := by
    intro k job' hk
    unfold Machine.recordFailure at hk
    rw [job?_set hj] at hk
    split at hk
    · next hkj =>
      subst hkj
      obtain rfl := Option.some.inj hk
      exact ⟨job, hj, rfl, rfl, rfl, rfl, fun hne => absurd rfl hne⟩
    · exact ⟨job', hk, rfl, rfl, rfl, rfl, fun _ => rfl⟩
  have hsize : (m.recordFailure j job kind).jobs.size = m.jobs.size := Array.size_setIfInBounds ..
  refine ⟨fun {p job' c} hp hc hmem hk => ?_, fun {p job'} hp hc => ?_, fun {p job'} hp hf => ?_,
    fun {p job' c} hp hmem => hsize ▸ ?_⟩
  · obtain ⟨job₀, h₀, hc', hch, -, -, -⟩ := hget hp
    obtain ⟨cj', hcj', hk⟩ := exists_of_isHeld hk
    obtain ⟨cj, hcj, hcc, -, -, hheld', -⟩ := hget hcj'
    have hcancelled := (h.below h₀ (hc' ▸ hc) (hch ▸ hmem)
      ((isHeld_eq hcj).trans (hheld' ▸ hk))).resolve_right (by simp)
    exact .inl ((isCancelled_eq hcj').trans (hcc.trans ((isCancelled_eq hcj).symm.trans hcancelled)))
  · obtain ⟨job₀, h₀, hc', -, hpend, -, -⟩ := hget hp
    rw [hpend]
    exact h.idle h₀ (hc' ▸ hc)
  · obtain ⟨job₀, h₀, hc', -, -, hheld', hfail⟩ := hget hp
    by_cases hpj : p = j
    · subst hpj
      obtain rfl := Option.some.inj (hj.symm.trans h₀)
      exact .inr ⟨List.mem_singleton_self p, hheld'.trans hheld⟩
    · rw [hc']
      exact .inl (h.of_failed h₀ (hfail hpj ▸ hf))
  · obtain ⟨job₀, h₀, -, hch, -, -, -⟩ := hget hp
    exact h.known h₀ (hch ▸ hmem)

theorem Cancelled.fail (h : Cancelled [] m) (j : JobId) (kind : ExceptionKind) :
    Cancelled [] (m.fail j kind) := by
  have hone : ∀ {m : Machine ε τ} {j job}, Cancelled [] m → m.job? j = some job →
      (job.isHeld && job.failure.isNone) = true →
      Cancelled [] ((m.recordFailure j job kind).cancel j) := fun h hj hf =>
    (h.recordFailure hj (Bool.and_eq_true_iff.1 hf).1 kind).cancelAll
  fun_induction Machine.fail m j kind with
  | case1 => exact h
  | case2 m j job hj hf => exact hone h hj hf
  | case3 m j job hj hf => exact hone h hj hf
  | case4 m j job hj hf _ _ _ _ _ _ ih => exact ih (hone h hj hf)
  | case5 m j => exact h.cancel j

theorem Cancelled.conclude (h : Cancelled [] m) (j : JobId) (result : Completion) :
    Cancelled [] (m.conclude j result) := by
  unfold Machine.conclude
  split
  · exact h
  · exact h.cancel j
  · exact h.fail ..

theorem Cancelled.passOnFailure (h : Cancelled [] m) (job : Job) :
    Cancelled [] (m.passOnFailure job) := by
  unfold Machine.passOnFailure
  split
  · split
    · exact h
    · exact h.fail ..
  · exact h

theorem Cancelled.fire (h : Cancelled [] m) (s : SignalId) : Cancelled [] (m.fire s) :=
  h.congr (job?_fire m s)

theorem Cancelled.unlink (h : Cancelled [] m) (p c : JobId) : Cancelled [] (m.unlink p c) := by
  unfold Machine.unlink
  split
  · exact h
  · next pj hp =>
    have hp := (Option.filter_eq_some_iff.1 hp).1
    have hempty : Job.Trimmed pj { pj with children := [], idleSleeper := none } :=
      ⟨rfl, rfl, fun d hd => absurd hd List.not_mem_nil, fun _ h => h, id⟩
    dsimp only
    split
    · exact (h.set hp hempty).congr fun _ => rfl
    · exact h.set hp ⟨rfl, rfl, fun d hd => (List.mem_filter.1 hd).1, fun _ h => h, id⟩

theorem Cancelled.awaitChildren (h : Cancelled [] m) (ticket : Ticket) (j : JobId) :
    Cancelled [] (m.awaitChildren ticket j).2 := by
  refine h.updateJob fun job hj => ⟨rfl, rfl, fun c hc => ?_, fun _ h => h, id⟩
  rw [hj] at hc
  exact (List.mem_filter.1 hc).1

theorem Cancelled.settle (h : Cancelled [] m) (j : JobId) : Cancelled [] (m.settle j).2 := by
  unfold Machine.settle
  split
  · exact h
  · next job hj =>
    have hfired := ((h.updateJob (j := j)
      (f := ({ · with outcome := some job.finalOutcome,
                      failureReported := job.failureReported || job.failure.isSome }))
      fun _ _ => ⟨rfl, rfl, fun _ hc => hc, fun _ h => h, id⟩).passOnFailure job).fire job.completion
    refine Cancelled.updateJob ?_ fun _ _ => ⟨rfl, rfl, fun _ hc => hc, fun _ h => h, id⟩
    cases job.parent with
    | none => exact hfired
    | some p => exact hfired.unlink p j

theorem Cancelled.close (h : Cancelled [] m) (ticket : Ticket) (j : JobId) (result : Completion) :
    Cancelled [] (m.close ticket j result).2 := by
  have hidle := (h.conclude j result).awaitChildren ticket j
  unfold Machine.close
  dsimp only
  split
  · exact hidle.settle j
  · exact hidle

/-- What a job may become when the job `new` is made: its children are the old ones and, if `new` is
cancelled with it, the new one. -/
structure Job.Grown (n : JobId) (new job job' : Job) : Prop where
  cancelled : job'.cancelled = job.cancelled
  failure : job'.failure = job.failure
  pending : job'.pending = job.pending
  held : job'.isHeld = job.isHeld
  children : ∀ c ∈ job'.children, c ∈ job.children ∨
    c = n ∧ (job.cancelled = true → new.cancelled = true)

theorem Cancelled.grown (h : Cancelled [] m) {new : Job} (hfresh : new.failure = none)
    (hidle : new.pending = []) (hchildless : new.children = [])
    (hsize : m'.jobs.size = m.jobs.size + 1) (hnew : m'.job? m.jobs.size = some new)
    (hold : ∀ {k job}, m.job? k = some job →
      ∃ job', m'.job? k = some job' ∧ Job.Grown m.jobs.size new job job') : Cancelled [] m' := by
  -- a job is the new one, or it has grown
  have hjobs : ∀ {k job'}, m'.job? k = some job' → k = m.jobs.size ∧ job' = new ∨
      ∃ job, m.job? k = some job ∧ Job.Grown m.jobs.size new job job' := fun {k job'} hk => by
    rcases Nat.lt_succ_iff_lt_or_eq.1 (hsize ▸ job?_lt hk) with hlt | rfl
    · have hget : m.job? k = some m.jobs[k] := Array.getElem?_eq_getElem hlt
      obtain ⟨job'', hk', hg⟩ := hold hget
      obtain rfl := Option.some.inj (hk.symm.trans hk')
      exact .inr ⟨_, hget, hg⟩
    · exact .inl ⟨rfl, Option.some.inj (hk.symm.trans hnew)⟩
  refine ⟨fun {p job' c} hp hc hmem hk => .inl ?_, fun {p job'} hp hc => ?_, fun {p job'} hp hf => ?_,
    fun {p job' c} hp hmem => ?_⟩
  · rcases hjobs hp with ⟨-, rfl⟩ | ⟨job, hjob, hg⟩
    · simp [hchildless] at hmem
    · rcases hg.children c hmem with hmem | ⟨rfl, hnewc⟩
      · obtain ⟨cj', hcj', hk⟩ := exists_of_isHeld hk
        rcases hjobs hcj' with ⟨rfl, -⟩ | ⟨cj, hcj, hgc⟩
        · exact absurd (h.known hjob hmem) (Nat.lt_irrefl _)
        · have hcancelled := (h.below hjob (hg.cancelled ▸ hc) hmem
            ((isHeld_eq hcj).trans (hgc.held ▸ hk))).resolve_right (by simp)
          rw [isCancelled_eq hcj', hgc.cancelled, ← isCancelled_eq hcj]
          exact hcancelled
      · exact (isCancelled_eq hnew).trans (hnewc (hg.cancelled ▸ hc))
  · rcases hjobs hp with ⟨-, rfl⟩ | ⟨job, hjob, hg⟩
    · exact hidle
    · exact hg.pending.trans (h.idle hjob (hg.cancelled ▸ hc))
  · rcases hjobs hp with ⟨-, rfl⟩ | ⟨job, hjob, hg⟩
    · simp [hfresh] at hf
    · exact .inl (hg.cancelled.trans (h.of_failed hjob (hg.failure ▸ hf)))
  · rcases hjobs hp with ⟨-, rfl⟩ | ⟨job, hjob, hg⟩
    · simp [hchildless] at hmem
    · rw [hsize]
      rcases hg.children c hmem with hmem | ⟨rfl, -⟩
      · exact Nat.lt_succ_of_lt (h.known hjob hmem)
      · exact Nat.lt_succ_self _

theorem Cancelled.child_new (h : Cancelled [] m) {p : JobId} {pj : Job} (hp : m.job? p = some pj)
    (kind : JobRole) : Cancelled [] (m.child p kind).2 := by
  refine h.grown rfl rfl rfl (by simp [child, newJob, newSignal, Machine.updateJob])
    ((job?_child hp kind _).trans (if_pos rfl)) fun {k job} hk => ?_
  rw [job?_child hp, if_neg (Nat.ne_of_lt (job?_lt hk))]
  split
  · next hkp =>
    subst hkp
    obtain rfl := Option.some.inj (hp.symm.trans hk)
    refine ⟨_, rfl, rfl, rfl, rfl, rfl, fun c hc => (List.mem_append.1 hc).imp_right fun hc => ?_⟩
    exact ⟨List.mem_singleton.1 hc, (isCancelled_eq hp).trans⟩
  · exact ⟨job, hk, rfl, rfl, rfl, rfl, fun _ hc => .inl hc⟩

theorem Cancelled.root_new (h : Cancelled [] m) (kind : JobRole) : Cancelled [] (m.root kind).2 := by
  refine h.grown rfl rfl rfl (Array.size_push ..) (Array.getElem?_push_size ..) fun {k job} hk => ?_
  refine ⟨job, ?_, rfl, rfl, rfl, rfl, fun _ hc => .inl hc⟩
  exact (Array.getElem?_push_lt (job?_lt hk) ..).trans ((Array.getElem?_eq_getElem _).symm.trans hk)

end RacePuzzle.Machine
