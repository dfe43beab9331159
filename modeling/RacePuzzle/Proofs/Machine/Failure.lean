import RacePuzzle.Proofs.Machine.Cancellation

/-! Where failures go. A failure that is marked as reported has been recorded by the job that
listens for it, a recorded failure stays, and a job with a failure settles with it. A failure that is
under way owes this to the job that is about to hear of it. -/
namespace RacePuzzle

/-- What a job has to say about its failure, and to whom. -/
structure Report where
  kind : JobRole
  failure : Option ExceptionKind
  reported : Bool
  outcome : Option Outcome
  parent : Option JobId

def Job.report (job : Job) : Report :=
  ⟨job.kind, job.failure, job.failureReported, job.outcome, job.parent⟩

/-- What the end of `job` changes in it first: it has its outcome and is about to tell of its
failure. -/
def Job.ending (job : Job) : Job → Job :=
  ({ · with
    outcome := some job.finalOutcome
    failureReported := job.failureReported || job.failure.isSome })

/-- The job with other children, and another sleeper that waits for them. -/
def Job.relisted (job : Job) (children : List JobId) (sleeper : Option Ticket) : Job :=
  { job with children := children, idleSleeper := sleeper }

namespace Machine

variable {ε τ : Type} {m m' m'' : Machine ε τ}

def report? (m : Machine ε τ) (job : JobId) : Option Report := (m.job? job).map Job.report

def hearer? (m : Machine ε τ) (r : Report) : Option JobId :=
  match r.kind, r.parent with
  | .task, some parent =>
    if (m.report? parent).any (·.kind.absorbsFailures) then none else some parent
  | _, _ => none

theorem report?_of_job? {j : JobId} {job : Job} (h : m.job? j = some job) :
    m.report? j = some job.report := by
  rw [report?, h]
  rfl

/-- A job that keeps its kind makes no difference to who hears of a failure. -/
theorem hearer?_of_report? {j : JobId} {job : Job} (hj : m.job? j = some job) {new : Report}
    (hkind : new.kind = job.kind)
    (h : ∀ k, m'.report? k = if k = j then some new else m.report? k) (r : Report) :
    m'.hearer? r = m.hearer? r := by
  unfold hearer?
  split
  · next p _ _ =>
    rw [h]
    split
    · next hp =>
      subst hp
      rw [report?_of_job? hj, Option.any_some, Option.any_some, hkind]
      rfl
    · rfl
  · rfl

theorem report?_eq_some {j : JobId} {r : Report} :
    m.report? j = some r ↔ ∃ job, m.job? j = some job ∧ job.report = r := by
  simp [report?]

theorem listener?_eq (m : Machine ε τ) (job : Job) : m.listener? job = m.hearer? job.report := by
  have habsorb (p : JobId) :
      (m.report? p).any (·.kind.absorbsFailures) = (m.job? p).any (·.kind.absorbsFailures) := by
    rw [report?, Option.any_map]
    rfl
  unfold listener? hearer?
  simp only [habsorb]
  rfl

structure SameReports (m m' : Machine ε τ) : Prop where
  report : ∀ k, m'.report? k = m.report? k

theorem SameReports.refl (m : Machine ε τ) : SameReports m m := ⟨fun _ => rfl⟩

theorem SameReports.trans (h : SameReports m m') (h' : SameReports m' m'') : SameReports m m'' :=
  ⟨fun k => (h'.report k).trans (h.report k)⟩

theorem SameReports.ofJobs (h : m'.jobs = m.jobs) : SameReports m m' :=
  ⟨fun k => by simp only [report?, job?, h]⟩

theorem sameReports_updateJob {j : JobId} {f : Job → Job} (hf : ∀ job, (f job).report = job.report) :
    SameReports m (m.updateJob j f) := by
  refine ⟨fun k => ?_⟩
  unfold report?
  rw [job?_updateJob]
  split
  · next hk =>
    subst hk
    cases m.job? k with
    | none => rfl
    | some job => exact congrArg some (hf job)
  · rfl

theorem sameReports_cancelOne {j : JobId} {job : Job} (hj : m.job? j = some job) :
    SameReports m (m.cancelOne j job) := by
  have hset : SameReports m (m.updateJob j ({ · with cancelled := true, pending := [] })) :=
    sameReports_updateJob fun _ => rfl
  rw [updateJob_eq_set hj] at hset
  exact hset.trans (.ofJobs (jobs_interruptAll ..))

theorem sameReports_cancelAll (m : Machine ε τ) (jobs : List JobId) :
    SameReports m (m.cancelAll jobs) :=
  cancelAll_induction .refl .trans (fun h _ => sameReports_cancelOne h) m jobs

theorem sameReports_cancel (m : Machine ε τ) (j : JobId) : SameReports m (m.cancel j) :=
  sameReports_cancelAll m [j]

theorem sameReports_fire (m : Machine ε τ) (s : SignalId) : SameReports m (m.fire s) :=
  .ofJobs (jobs_fire m s)

/-- When a child leaves its parent, only the parent's list of children and its sleeper change. -/
theorem exists_job?_unlink (m : Machine ε τ) (p c k : JobId) :
    ∃ f : Job → Job, (m.unlink p c).job? k = (m.job? k).map f ∧
      ∀ job, ∃ children sleeper, f job = job.relisted children sleeper := by
  have hsame : ∃ f : Job → Job, m.job? k = (m.job? k).map f ∧
      ∀ job, ∃ children sleeper, f job = job.relisted children sleeper :=
    ⟨id, by rw [Option.map_id, id], fun job => ⟨job.children, job.idleSleeper, rfl⟩⟩
  have hset : ∀ {pj : Job} (children sleeper), m.job? p = some pj → ∃ f : Job → Job,
      ({ m with jobs := m.jobs.setIfInBounds p (pj.relisted children sleeper) } :
        Machine ε τ).job? k = (m.job? k).map f ∧
      ∀ job, ∃ children sleeper, f job = job.relisted children sleeper := by
    intro pj children sleeper hp
    rw [job?_set hp]
    split
    · next hkp =>
      subst hkp
      exact ⟨(·.relisted children sleeper), by rw [hp]; rfl, fun job => ⟨_, _, rfl⟩⟩
    · exact hsame
  unfold unlink
  cases hp : m.job? p with
  | none => exact hsame
  | some pj =>
    cases hheld : pj.isHeld with
    | false => simpa [Option.filter, hheld] using hsame
    | true =>
      simp only [Option.filter, hheld, if_true]
      split
      · exact hset [] none hp
      · exact hset _ pj.idleSleeper hp

theorem sameReports_unlink (m : Machine ε τ) (p c : JobId) : SameReports m (m.unlink p c) := by
  refine ⟨fun k => ?_⟩
  obtain ⟨f, hf, hsame⟩ := exists_job?_unlink m p c k
  unfold report?
  rw [hf]
  cases m.job? k with
  | none => rfl
  | some job =>
    obtain ⟨children, sleeper, hjob⟩ := hsame job
    simp [hjob, Job.report, Job.relisted]

theorem sameReports_awaitChildren (m : Machine ε τ) (ticket : Ticket) (j : JobId) :
    SameReports m (m.awaitChildren ticket j).2 :=
  sameReports_updateJob fun _ => rfl

theorem SameReports.hearer? (h : SameReports m m') (r : Report) : m'.hearer? r = m.hearer? r := by
  unfold Machine.hearer?
  simp only [h.report]

/-- Whoever is told of a failure that is marked as reported has one on record, or is `owed` the
message; and a failure is what its job settles with. -/
structure Heard (owed : List JobId) (m : Machine ε τ) : Prop where
  recorded : ∀ {j r}, m.report? j = some r → r.reported = true → r.failure.isSome
  told : ∀ {j r p}, m.report? j = some r → r.reported = true → m.hearer? r = some p →
    p ∈ owed ∨ ∃ pr, m.report? p = some pr ∧ pr.failure.isSome
  settled : ∀ {j r kind}, m.report? j = some r → r.outcome.isSome → r.failure = some kind →
    r.outcome = some (.failed kind)

theorem Heard.congr {owed : List JobId} (h : Heard owed m) (hs : SameReports m m') :
    Heard owed m' := by
  refine ⟨fun hj => h.recorded (hs.report _ ▸ hj), fun {j r p} hj hr hp => ?_,
    fun hj => h.settled (hs.report _ ▸ hj)⟩
  rw [hs.hearer?] at hp
  simpa only [hs.report p] using h.told (hs.report j ▸ hj) hr hp

theorem Heard.weaken {owed owed' : List JobId} (h : Heard owed m)
    (hsub : ∀ j ∈ owed, j ∈ owed') : Heard owed' m :=
  ⟨h.recorded, fun hj hr hp => (h.told hj hr hp).imp_left (hsub _), h.settled⟩

/-- Nothing is owed to a job that has a failure on record. -/
theorem Heard.skip {j : JobId} {owed : List JobId} (h : Heard (j :: owed) m) {r : Report}
    (hj : m.report? j = some r) (hf : r.failure.isSome) : Heard owed m := by
  refine ⟨h.recorded, fun hk hr hp => ?_, h.settled⟩
  rcases h.told hk hr hp with hmem | hheard
  · rcases List.mem_cons.1 hmem with rfl | hmem
    · exact .inr ⟨r, hj, hf⟩
    · exact .inl hmem
  · exact .inr hheard

theorem report?_recordFailure {j : JobId} {job : Job} (hj : m.job? j = some job)
    (kind : ExceptionKind) (k : JobId) : (m.recordFailure j job kind).report? k =
      if k = j then some { job.report with failure := some kind, reported := !job.cancelled }
      else m.report? k := by
  unfold report? recordFailure
  rw [job?_set hj]
  split <;> rfl

theorem hearer?_recordFailure {j : JobId} {job : Job} (hj : m.job? j = some job)
    (kind : ExceptionKind) (r : Report) : (m.recordFailure j job kind).hearer? r = m.hearer? r :=
  hearer?_of_report? hj rfl (report?_recordFailure hj kind) r

/-- An open job records its first failure. Its listener is owed the message, unless the job was
being cancelled already. -/
theorem Heard.recordFailure {j : JobId} {job : Job} (h : Heard [j] m) (hj : m.job? j = some job)
    (hopen : job.outcome = none) (kind : ExceptionKind) :
    Heard (if job.cancelled then [] else (m.hearer? job.report).toList)
      (m.recordFailure j job kind) := by
  refine ⟨fun {k r} hk hr => ?_, fun {k r p} hk hr hp => ?_, fun {k r kind'} hk ho hf => ?_⟩
  all_goals rw [report?_recordFailure hj] at hk
  · split at hk
    · obtain rfl := Option.some.inj hk
      rfl
    · exact h.recorded hk hr
  · rw [hearer?_recordFailure hj] at hp
    split at hk
    · obtain rfl := Option.some.inj hk
      have hnot : job.cancelled = false := by simpa using hr
      have hp : m.hearer? job.report = some p := hp
      simp [hnot, hp]
    · right
      rcases h.told hk hr hp with hmem | ⟨pr, hpr, hf⟩
      · obtain rfl := List.mem_singleton.1 hmem
        exact ⟨_, by rw [report?_recordFailure hj, if_pos rfl], rfl⟩
      · by_cases hpj : p = j
        · exact ⟨_, by rw [report?_recordFailure hj, if_pos hpj], rfl⟩
        · exact ⟨pr, by rw [report?_recordFailure hj, if_neg hpj, hpr], hf⟩
  · split at hk
    · obtain rfl := Option.some.inj hk
      have ho : job.outcome.isSome := ho
      simp [hopen] at ho
    · exact h.settled hk ho hf

theorem Links.open_parent {x : Option JobId} (h : Links x m) {j : JobId} {job : Job} {p : JobId}
    (hj : m.job? j = some job) (hp : job.parent = some p) (hx : x ≠ some j) :
    ∃ pj, m.job? p = some pj ∧ pj.outcome = none ∧ j ∈ pj.children := by
  obtain ⟨pb, hpb, hmem⟩ := h.parent (bond?_of_job? hj) hp hx
  obtain ⟨pj, hpj, rfl⟩ := bond?_eq_some.1 hpb
  refine ⟨pj, hpj, ?_, hmem⟩
  cases ho : pj.outcome with
  | none => rfl
  | some o =>
    have hnone := h.childless hpb (show pj.outcome.isSome by simp [ho])
    rw [hnone] at hmem
    cases hmem

theorem parent_of_hearer? {r : Report} {p : JobId} (h : m.hearer? r = some p) :
    r.kind = .task ∧ r.parent = some p := by
  unfold hearer? at h
  split at h
  · next parent hkind hparent =>
    split at h
    · cases h
    · exact ⟨hkind, hparent.trans h⟩
  · cases h

/-- A failure of an open job runs up until everybody who is to hear of it has. -/
theorem Heard.fail {x : Option JobId} {j : JobId} {job : Job} {kind : ExceptionKind}
    (h : Heard [j] m) (hl : Links x m)
    (hx : ∀ {k b}, x = some k → m.bond? k = some b → b.outcome.isSome)
    (hj : m.job? j = some job) (hopen : job.outcome = none) : Heard [] (m.fail j kind) := by
  have hstart : ∀ {m : Machine ε τ} {j : JobId} {job : Job}, Heard [j] m → m.job? j = some job →
      job.outcome = none →
      Heard (if job.cancelled then [] else (m.hearer? job.report).toList)
        ((m.recordFailure j job kind).cancel j) :=
    fun h hj hopen => (h.recordFailure hj hopen kind).congr (sameReports_cancel ..)
  fun_induction Machine.fail m j kind generalizing job with
  | case1 m j hnone => exact absurd (hnone.symm.trans hj) (by simp)
  | case2 m j job' hsome hf _ _ _ =>
    rename_i hc
    obtain rfl := Option.some.inj (hj.symm.trans hsome)
    have hstart := hstart h hj hopen
    rwa [if_pos hc] at hstart
  | case3 m j job' hsome hf _ _ _ hc =>
    rename_i hnone
    obtain rfl := Option.some.inj (hj.symm.trans hsome)
    rw [listener?_eq] at hnone
    have hstart := hstart h hj hopen
    rwa [if_neg hc, hnone] at hstart
  | case4 m j job' hsome hf _ _ _ hc p hp =>
    rename_i ih
    obtain rfl := Option.some.inj (hj.symm.trans hsome)
    rw [listener?_eq] at hp
    have hbonds : SameBonds m ((m.recordFailure j job kind).cancel j) :=
      SameBonds.trans (b := m.recordFailure j job kind)
        ⟨rfl, rfl, bond?_recordFailure hj kind, rfl⟩ (sameBonds_cancel ..)
    have hxj : x ≠ some j := fun he => by
      have := hx he (bond?_of_job? hj)
      have : job.outcome.isSome := this
      simp [hopen] at this
    obtain ⟨pj, hpj, hpopen, -⟩ := hl.open_parent hj (parent_of_hearer? hp).2 hxj
    obtain ⟨pj', hpj', hbond⟩ := bond?_eq_some.1
      ((hbonds.bond p).trans (bond?_of_job? hpj))
    refine ih ?_ (hl.of_sameBonds hbonds) (fun he hb => hx he (hbonds.bond _ ▸ hb)) hpj' ?_
    · have hstart := hstart h hj hopen
      rwa [if_neg hc, hp] at hstart
    · exact (congrArg Bond.outcome hbond).trans hpopen
  | case5 m j job' hsome hf =>
    obtain rfl := Option.some.inj (hj.symm.trans hsome)
    have hheld := hl.isHeld hj
    have hsomef : job.failure.isSome := by
      cases hfail : job.failure with
      | none => simp [hheld, hfail] at hf
      | some _ => rfl
    exact (h.skip (report?_of_job? hj) hsomef).congr (sameReports_cancel ..)

/-- Jobs keep their role and the failure that they have on record. -/
def FailuresKept (m m' : Machine ε τ) : Prop :=
  ∀ ⦃j r⦄, m.report? j = some r → ∃ r', m'.report? j = some r' ∧ r'.kind = r.kind ∧
    ∀ kind, r.failure = some kind → r'.failure = some kind

theorem FailuresKept.refl (m : Machine ε τ) : FailuresKept m m :=
  fun _ r h => ⟨r, h, rfl, fun _ => id⟩

theorem FailuresKept.trans (h : FailuresKept m m') (h' : FailuresKept m' m'') :
    FailuresKept m m'' := by
  intro j r hj
  obtain ⟨r', hj', hkind, hf⟩ := h hj
  obtain ⟨r'', hj'', hkind', hf'⟩ := h' hj'
  exact ⟨r'', hj'', hkind'.trans hkind, fun kind hr => hf' kind (hf kind hr)⟩

theorem SameReports.kept (h : SameReports m m') : FailuresKept m m' :=
  fun j r hj => ⟨r, (h.report j).trans hj, rfl, fun _ => id⟩

theorem failuresKept_fail (m : Machine ε τ) (j : JobId) (kind : ExceptionKind) :
    FailuresKept m (m.fail j kind) := by
  refine fail_induction .refl .trans (fun h _ => (sameReports_cancelOne h).kept)
    (fun {m j job} kind hj hnone k r hk => ?_) m j kind
  by_cases hkj : k = j
  · subst hkj
    obtain rfl := Option.some.inj ((report?_of_job? hj).symm.trans hk)
    exact ⟨{ job.report with failure := some kind, reported := !job.cancelled },
      by rw [report?_recordFailure hj, if_pos rfl], rfl,
      fun kind' hf => absurd (hnone.symm.trans hf) (by simp)⟩
  · exact ⟨r, by rw [report?_recordFailure hj, if_neg hkj, hk], rfl, fun _ => id⟩

/-- A job that somebody holds has a failure on record once it fails. -/
theorem exists_failure_fail {j : JobId} {job : Job} (hj : m.job? j = some job)
    (hheld : job.isHeld = true) (kind : ExceptionKind) :
    ∃ r, (m.fail j kind).report? j = some r ∧ r.failure.isSome := by
  have hrecorded : ((m.recordFailure j job kind).cancel j).report? j =
      some { job.report with failure := some kind, reported := !job.cancelled } := by
    rw [(sameReports_cancel ..).report, report?_recordFailure hj, if_pos rfl]
  unfold fail
  split
  · next hnone => exact absurd (hnone.symm.trans hj) (by simp)
  · next job' hsome =>
    obtain rfl := Option.some.inj (hj.symm.trans hsome)
    split
    · dsimp only
      split
      · exact ⟨_, hrecorded, rfl⟩
      · split
        · exact ⟨_, hrecorded, rfl⟩
        · next p _ =>
          obtain ⟨r, hr, -, hkept⟩ := failuresKept_fail _ p kind hrecorded
          exact ⟨r, hr, by simp [hkept kind rfl]⟩
    · next hf =>
      rw [hheld] at hf
      refine ⟨job.report, by rw [(sameReports_cancel ..).report, report?_of_job? hj], ?_⟩
      show job.failure.isSome = true
      exact Option.isSome_iff_ne_none.2 (by simpa using hf)

theorem failuresKept_conclude (m : Machine ε τ) (j : JobId) (result : Completion) :
    FailuresKept m (m.conclude j result) := by
  unfold conclude
  split
  · exact .refl m
  · exact (sameReports_cancel m j).kept
  · exact failuresKept_fail ..

theorem failuresKept_passOnFailure (m : Machine ε τ) (job : Job) :
    FailuresKept m (m.passOnFailure job) := by
  unfold passOnFailure
  split
  · split
    · exact .refl m
    · exact failuresKept_fail ..
  · exact .refl m

theorem failuresKept_updateJob {j : JobId} {f : Job → Job} (hkind : ∀ job, (f job).kind = job.kind)
    (hf : ∀ job, (f job).failure = job.failure) : FailuresKept m (m.updateJob j f) := by
  intro k r hk
  obtain ⟨job, hjob, rfl⟩ := report?_eq_some.1 hk
  unfold report?
  rw [job?_updateJob]
  split
  · next hkj =>
    subst hkj
    rw [hjob]
    exact ⟨_, rfl, hkind job, fun kind h => (hf job).trans h⟩
  · exact ⟨_, hk, rfl, fun _ => id⟩

/-- The machine in which a job that settles has its outcome, has told of its failure and has fired its
completion. Its parent has yet to strike it off. -/
def announce (m : Machine ε τ) (j : JobId) (job : Job) : Machine ε τ :=
  ((m.updateJob j job.ending).passOnFailure job).fire job.completion

theorem settle_eq_announce {j : JobId} {job : Job} (hj : m.job? j = some job) :
    (m.settle j).2 = (job.parent.elim (m.announce j job)
      ((m.announce j job).unlink · j)).updateJob j ({ · with parent := none }) := by
  rw [settle_eq hj]
  rfl

theorem failuresKept_announce (m : Machine ε τ) (j : JobId) (job : Job) :
    FailuresKept m (m.announce j job) := by
  have hending : FailuresKept m (m.updateJob j job.ending) :=
    failuresKept_updateJob (fun _ => rfl) fun _ => rfl
  exact (hending.trans (failuresKept_passOnFailure _ job)).trans (sameReports_fire ..).kept

theorem failuresKept_settle (m : Machine ε τ) (j : JobId) : FailuresKept m (m.settle j).2 := by
  cases hj : m.job? j with
  | none =>
    unfold settle
    rw [hj]
    exact .refl m
  | some job =>
    rw [settle_eq_announce hj]
    refine ((failuresKept_announce m j job).trans ?_).trans
      (failuresKept_updateJob (fun _ => rfl) fun _ => rfl)
    cases job.parent with
    | none => exact .refl _
    | some p => exact (sameReports_unlink ..).kept

/-- A job without a parent has nobody to report to. -/
theorem Heard.forgetParent (h : Heard [] m) (j : JobId) :
    Heard [] (m.updateJob j ({ · with parent := none })) := by
  have hreport : ∀ k, (m.updateJob j ({ · with parent := none })).report? k =
      (m.report? k).map fun r => if k = j then { r with parent := none } else r := by
    intro k
    unfold report?
    rw [job?_updateJob]
    by_cases hkj : k = j
    · subst hkj
      cases m.job? k <;> simp [Job.report]
    · cases m.job? k <;> simp [hkj]
  have hold : ∀ {k r'}, (m.updateJob j ({ · with parent := none })).report? k = some r' →
      ∃ r, m.report? k = some r ∧ r'.failure = r.failure ∧ r'.reported = r.reported ∧
        r'.outcome = r.outcome ∧ (r' = r ∨ r'.parent = none) := by
    intro k r' hk
    rw [hreport] at hk
    obtain ⟨r, hr, rfl⟩ := Option.map_eq_some_iff.1 hk
    refine ⟨r, hr, ?_⟩
    split
    · exact ⟨rfl, rfl, rfl, .inr rfl⟩
    · exact ⟨rfl, rfl, rfl, .inl rfl⟩
  have hhearer : ∀ r, (m.updateJob j ({ · with parent := none })).hearer? r = m.hearer? r := by
    intro r
    unfold hearer?
    split
    · next p _ _ =>
      rw [hreport]
      cases m.report? p with
      | none => rfl
      | some pr => by_cases hpj : p = j <;> simp [hpj]
    · rfl
  refine ⟨fun hk hr => ?_, fun {k r' p} hk hr hp => ?_, fun hk ho hf => ?_⟩
  · obtain ⟨r, hk, hf, hrep, -⟩ := hold hk
    rw [hf]
    exact h.recorded hk (hrep ▸ hr)
  · obtain ⟨r, hk, -, hrep, -, hsame | hnone⟩ := hold hk
    · subst hsame
      rw [hhearer] at hp
      obtain ⟨pr, hpr, hf⟩ := (h.told hk hr hp).resolve_left List.not_mem_nil
      refine .inr ⟨_, by rw [hreport, hpr]; rfl, ?_⟩
      split <;> exact hf
    · rw [(parent_of_hearer? hp).2] at hnone
      cases hnone
  · obtain ⟨r, hk, hf', -, ho', -⟩ := hold hk
    rw [ho'] at ho ⊢
    exact h.settled hk ho (hf' ▸ hf)

section Ending
variable {j : JobId} {job : Job}

theorem report?_ending (hj : m.job? j = some job) (k : JobId) :
    (m.updateJob j job.ending).report? k = if k = j then some (job.ending job).report else m.report? k := by
  unfold report?
  rw [job?_updateJob]
  split
  · rw [hj]
    rfl
  · rfl

theorem hearer?_ending (hj : m.job? j = some job) (r : Report) :
    (m.updateJob j job.ending).hearer? r = m.hearer? r :=
  hearer?_of_report? hj rfl (report?_ending hj) r

/-- The outcome of a job is set while it may have a failure that it has not told of yet. -/
theorem Heard.ending (h : Heard [] m) (hj : m.job? j = some job) :
    Heard (if job.failure.isSome && !job.failureReported then (m.hearer? job.report).toList else [])
      (m.updateJob j job.ending) := by
  refine ⟨fun {k r} hk hr => ?_, fun {k r p} hk hr hp => ?_, fun {k r kind} hk ho hf => ?_⟩
  all_goals rw [report?_ending hj] at hk
  · split at hk
    · obtain rfl := Option.some.inj hk
      have hr : (job.failureReported || job.failure.isSome) = true := hr
      show job.failure.isSome = true
      rcases Bool.or_eq_true_iff.1 hr with hrep | hsome
      · exact h.recorded (report?_of_job? hj) hrep
      · exact hsome
    · exact h.recorded hk hr
  · rw [hearer?_ending hj] at hp
    -- a job with a failure still has it
    have hkept : ∀ {pr}, m.report? p = some pr → pr.failure.isSome →
        ∃ pr', (m.updateJob j job.ending).report? p = some pr' ∧ pr'.failure.isSome := by
      intro pr hpr hf
      rw [report?_ending hj]
      split
      · next hpj =>
        subst hpj
        obtain rfl := Option.some.inj ((report?_of_job? hj).symm.trans hpr)
        exact ⟨_, rfl, hf⟩
      · exact ⟨pr, hpr, hf⟩
    split at hk
    · obtain rfl := Option.some.inj hk
      have hp : m.hearer? job.report = some p := hp
      cases hrep : job.failureReported with
      | false =>
        have hsome : job.failure.isSome = true := by
          have hr : (job.failureReported || job.failure.isSome) = true := hr
          simpa [hrep] using hr
        exact .inl (by simp [hsome, hp])
      | true =>
        obtain ⟨pr, hpr, hf⟩ :=
          (h.told (report?_of_job? hj) hrep hp).resolve_left List.not_mem_nil
        exact .inr (hkept hpr hf)
    · obtain ⟨pr, hpr, hf⟩ := (h.told hk hr hp).resolve_left List.not_mem_nil
      exact .inr (hkept hpr hf)
  · split at hk
    · obtain rfl := Option.some.inj hk
      have hf : job.failure = some kind := hf
      show some job.finalOutcome = some (.failed kind)
      simp [Job.finalOutcome, hf]
    · exact h.settled hk ho hf

/-- When an open job announces its end, everybody who is to hear of its failure has. -/
theorem Heard.announce (h : Heard [] m) (ht : Tree none m) (hj : m.job? j = some job)
    (hnone : job.children = []) : Heard [] (m.announce j job) := by
  have hended := h.ending hj
  have htree := ht.setOutcome (bond?_of_job? hj) hnone job.finalOutcome
    (job.failureReported || job.failure.isSome)
  refine Heard.congr ?_ (sameReports_fire ..)
  have hlisten : (m.updateJob j job.ending).listener? job = m.hearer? job.report := by
    rw [listener?_eq, hearer?_ending hj]
  unfold passOnFailure
  split
  · next kind p hkind hp =>
    have hp : (m.updateJob j job.ending).listener? job = some p := hp
    rw [hlisten] at hp
    split
    · next hrep =>
      rwa [if_neg (by simp [hrep])] at hended
    · next hrep =>
      obtain ⟨pj, hpj, hpopen, hmem⟩ :=
        ht.links.open_parent hj (parent_of_hearer? hp).2 (by simp)
      obtain ⟨-, -, -, hlt, -⟩ := ht.links.child (bond?_of_job? hpj) hmem
      refine Heard.fail (j := p) ?_ htree.links (fun {k b} hk hkb => ?_)
        (by rw [job?_updateJob, if_neg (Nat.ne_of_lt hlt)]; exact hpj) hpopen
      · simpa [hkind, hrep, hp] using hended
      · obtain rfl := Option.some.inj hk
        obtain ⟨job', hjob', rfl⟩ := bond?_eq_some.1 hkb
        rw [job?_updateJob, if_pos rfl, hj] at hjob'
        obtain rfl := Option.some.inj hjob'
        rfl
  · next hno =>
    have howed : (if job.failure.isSome && !job.failureReported then
        (m.hearer? job.report).toList else []) = [] := by
      cases hkind : job.failure with
      | none => rfl
      | some kind =>
        cases hp : m.hearer? job.report with
        | none => simp
        | some p => exact absurd (hlisten.trans hp) (hno kind p hkind)
    exact howed ▸ hended

/-- The failure of a job that announces its end is on record with its listener. -/
theorem Heard.failure_of_hearer? (h : Heard [] m) (ht : Tree none m) (hj : m.job? j = some job)
    {kind : ExceptionKind} (hf : job.failure = some kind) {p : JobId}
    (hp : m.hearer? job.report = some p) :
    ∃ pr, (m.announce j job).report? p = some pr ∧ pr.failure.isSome := by
  cases hrep : job.failureReported with
  | true =>
    obtain ⟨pr, hpr, hsome⟩ := (h.told (report?_of_job? hj) hrep hp).resolve_left List.not_mem_nil
    obtain ⟨kind', hkind'⟩ := Option.isSome_iff_exists.1 hsome
    obtain ⟨pr', hpr', -, hkept⟩ := failuresKept_announce m j job hpr
    exact ⟨pr', hpr', by simp [hkept kind' hkind']⟩
  | false =>
    obtain ⟨pj, hpj, -, hmem⟩ := ht.links.open_parent hj (parent_of_hearer? hp).2 (by simp)
    obtain ⟨-, -, -, hlt, -⟩ := ht.links.child (bond?_of_job? hpj) hmem
    have hlisten : (m.updateJob j job.ending).listener? job = some p := by
      rw [listener?_eq, hearer?_ending hj, hp]
    have hpended : (m.updateJob j job.ending).job? p = some pj := by
      rw [job?_updateJob, if_neg (Nat.ne_of_lt hlt), hpj]
    have hannounce : m.announce j job =
        ((m.updateJob j job.ending).fail p kind).fire job.completion := by
      unfold Machine.announce Machine.passOnFailure
      rw [hf, hlisten]
      simp only [hrep, Bool.false_eq_true, if_false]
    obtain ⟨pr, hpr, hsome⟩ := exists_failure_fail hpended (ht.links.isHeld hpj) kind
    exact ⟨pr, by rw [hannounce, (sameReports_fire ..).report, hpr], hsome⟩

end Ending

/-- After a job has settled, everybody who is to hear of a failure has. -/
theorem Heard.settle {j : JobId} {job : Job} (h : Heard [] m) (ht : Tree none m)
    (hj : m.job? j = some job) (hnone : job.children = []) : Heard [] (m.settle j).2 := by
  rw [settle_eq_announce hj]
  have hannounced : Heard [] (job.parent.elim (m.announce j job)
      ((m.announce j job).unlink · j)) := by
    cases job.parent with
    | none => exact h.announce ht hj hnone
    | some p => exact (h.announce ht hj hnone).congr (sameReports_unlink ..)
  exact hannounced.forgetParent j

def Unheard (m : Machine ε τ) (job : Job) : Prop :=
  job.failure = none ∨ m.listener? job = none

/-- A job of whose end nobody has to be told settles, and in other jobs only the parent's list of
children and its sleeper change. -/
theorem exists_job?_settle {j : JobId} {job : Job} (hj : m.job? j = some job)
    (hunheard : m.Unheard job) {k : JobId} (hk : k ≠ j) :
    ∃ f : Job → Job, (m.settle j).2.job? k = (m.job? k).map f ∧
      ∀ job, ∃ children sleeper, f job = job.relisted children sleeper := by
  have hending : (m.updateJob j job.ending).passOnFailure job = m.updateJob j job.ending := by
    unfold passOnFailure
    rw [listener?_eq, hearer?_ending hj, ← listener?_eq]
    rcases hunheard with hnone | hnone
    · rw [hnone]
    · rw [hnone]
      cases job.failure <;> rfl
  have hannounce : (m.announce j job).job? k = m.job? k := by
    unfold announce
    rw [hending, job?_fire, job?_updateJob, if_neg hk]
  rw [settle_eq_announce hj, job?_updateJob, if_neg hk, ← hannounce]
  cases job.parent with
  | none =>
    exact ⟨id, by rw [Option.map_id, id]; rfl, fun job => ⟨job.children, job.idleSleeper, rfl⟩⟩
  | some p => exact exists_job?_unlink (m.announce j job) p j k

end Machine

end RacePuzzle
