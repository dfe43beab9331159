import RacePuzzle.Machine.Settlement
import Mathlib.Tactic.Common

/-! The tree of jobs. Children point to their parent and parents list their children until these
settle; a settled job has no children, and its completion has fired. Cancellation and failure
change none of this. -/
namespace RacePuzzle

/-- What ties a job to the others: all but its cancellation, its failure and its waits. -/
structure Bond where
  holders : Nat
  outcome : Option Outcome
  children : List JobId
  parent : Option JobId
  completion : SignalId

def Job.bond (job : Job) : Bond :=
  ⟨job.holders, job.outcome, job.children, job.parent, job.completion⟩

namespace Machine

variable {ε τ : Type} {m m' : Machine ε τ}

def bond? (m : Machine ε τ) (job : JobId) : Option Bond := (m.job? job).map Job.bond

/-- The links between jobs are in order. The job `settling`, if any, has its outcome already but has
not left its parent. -/
structure Links (settling : Option JobId) (m : Machine ε τ) : Prop where
  held : ∀ {j b}, m.bond? j = some b → 0 < b.holders
  child : ∀ {p b c}, m.bond? p = some b → c ∈ b.children →
    ∃ cb, m.bond? c = some cb ∧ cb.parent = some p ∧ p < c ∧
      (cb.outcome.isSome → settling = some c)
  parent : ∀ {c cb p}, m.bond? c = some cb → cb.parent = some p → settling ≠ some c →
    ∃ b, m.bond? p = some b ∧ c ∈ b.children
  orphan : ∀ {c cb}, m.bond? c = some cb → cb.outcome.isSome → settling ≠ some c →
    cb.parent = none
  childless : ∀ {j b}, m.bond? j = some b → b.outcome.isSome → b.children = []

/-- Every job has a completion of its own, which has fired if the job has settled. -/
structure Completions (settling : Option JobId) (m : Machine ε τ) : Prop where
  lt : ∀ {j b}, m.bond? j = some b → b.completion < m.signals.size
  inj : ∀ {i j b b'}, m.bond? i = some b → m.bond? j = some b' →
    b.completion = b'.completion → i = j
  fired : ∀ {j b}, m.bond? j = some b → b.outcome.isSome → settling ≠ some j →
    m.hasFired b.completion
  settled : ∀ {j b}, m.bond? j = some b → m.hasFired b.completion → b.outcome.isSome

structure Tree (settling : Option JobId) (m : Machine ε τ) : Prop where
  links : Links settling m
  completions : Completions settling m

theorem bond?_eq_some {j : JobId} {b : Bond} :
    m.bond? j = some b ↔ ∃ job, m.job? j = some job ∧ job.bond = b :=
  Option.map_eq_some_iff

theorem bond?_of_job? {j : JobId} {job : Job} (h : m.job? j = some job) :
    m.bond? j = some job.bond :=
  bond?_eq_some.2 ⟨job, h, rfl⟩

theorem Links.isHeld {x : Option JobId} (h : Links x m) {j : JobId} {job : Job}
    (hj : m.job? j = some job) : job.isHeld = true := by
  have := h.held (bond?_of_job? hj)
  simpa [Job.isHeld, Job.bond] using this

theorem Links.exists_child (h : Links none m) {p c : JobId} {b : Bond} (hp : m.bond? p = some b)
    (hc : c ∈ b.children) :
    ∃ cb, m.bond? c = some cb ∧ cb.parent = some p ∧ p < c ∧ cb.outcome = none := by
  obtain ⟨cb, hcb, hparent, hlt, hsettled⟩ := h.child hp hc
  refine ⟨cb, hcb, hparent, hlt, Option.not_isSome_iff_eq_none.1 fun ho => ?_⟩
  cases hsettled ho

theorem Links.congr {x : Option JobId} (h : Links x m) (hb : ∀ j, m'.bond? j = m.bond? j) :
    Links x m' := by
  constructor <;> simp only [hb]
  · exact h.held
  · exact h.child
  · exact h.parent
  · exact h.orphan
  · exact h.childless

theorem Completions.congr {x : Option JobId} (h : Completions x m)
    (hb : ∀ j, m'.bond? j = m.bond? j) (hsize : m'.signals.size = m.signals.size)
    (hfired : ∀ s, m'.hasFired s = m.hasFired s) : Completions x m' := by
  constructor <;> simp only [hb, hsize, hfired]
  · exact h.lt
  · exact h.inj
  · exact h.fired
  · exact h.settled

theorem Tree.congr {x : Option JobId} (h : Tree x m) (hb : ∀ j, m'.bond? j = m.bond? j)
    (hs : m'.signals = m.signals) : Tree x m' :=
  ⟨h.links.congr hb, h.completions.congr hb (by rw [hs]) fun s => by simp only [hasFired, hs]⟩

theorem job?_lt {j : JobId} {job : Job} (h : m.job? j = some job) : j < m.jobs.size :=
  (Array.getElem?_eq_some_iff.1 h).1

theorem job?_set {j : JobId} {job : Job} (h : m.job? j = some job) (new : Job) (k : JobId) :
    ({ m with jobs := m.jobs.setIfInBounds j new } : Machine ε τ).job? k =
      if k = j then some new else m.job? k := by
  have hlt := job?_lt h
  by_cases hk : k = j
  · subst hk
    simp [job?, hlt]
  · have hkj : j ≠ k := Ne.symm hk
    simp [job?, hk, hkj]

theorem job?_updateJob (m : Machine ε τ) (j : JobId) (f : Job → Job) (k : JobId) :
    (m.updateJob j f).job? k = if k = j then (m.job? j).map f else m.job? k := by
  by_cases hk : k = j
  · subst hk
    simp [job?, updateJob, Array.getElem?_modify]
  · have hkj : j ≠ k := Ne.symm hk
    simp [job?, updateJob, Array.getElem?_modify, hk, hkj]

theorem updateJob_of_none {j : JobId} (h : m.job? j = none) (f : Job → Job) :
    m.updateJob j f = m := by
  have hjobs : m.jobs.modify j f = m.jobs := by
    refine Array.ext_getElem? fun k => ?_
    rw [Array.getElem?_modify]
    split
    · next hk =>
      subst hk
      rw [show m.jobs[j]? = none from h, Option.map_none]
    · rfl
  rw [updateJob, hjobs]

theorem updateJob_eq_set {j : JobId} {job : Job} (h : m.job? j = some job) (f : Job → Job) :
    m.updateJob j f = { m with jobs := m.jobs.setIfInBounds j (f job) } := by
  have hjobs : m.jobs.modify j f = m.jobs.setIfInBounds j (f job) := by
    have hlt := job?_lt h
    refine Array.ext_getElem? fun k => ?_
    rw [Array.getElem?_modify, Array.getElem?_setIfInBounds]
    split
    · next hk =>
      subst hk
      rw [show m.jobs[j]? = some job from h, Option.map_some]
    · rfl
  rw [updateJob, hjobs]

theorem updateJob_eq_self {j : JobId} {job : Job} (h : m.job? j = some job) {f : Job → Job}
    (hf : f job = job) : m.updateJob j f = m := by
  obtain ⟨hlt, hget⟩ := Array.getElem?_eq_some_iff.1 h
  rw [updateJob_eq_set h, hf, ← hget, Array.setIfInBounds_def, dif_pos hlt, Array.set_getElem_self]

theorem bond?_updateJob {j : JobId} {f : Job → Job} (hf : ∀ job, (f job).bond = job.bond)
    (k : JobId) : (m.updateJob j f).bond? k = m.bond? k := by
  unfold bond?
  rw [job?_updateJob]
  split
  · next hk =>
    subst hk
    cases m.job? k <;> simp [hf]
  · rfl

@[simp] theorem job?_wakeAll (m : Machine ε τ) (ss : List Ticket) (k : JobId) :
    (m.wakeAll ss).job? k = m.job? k := rfl

@[simp] theorem job?_spawn (m : Machine ε τ) (task : τ) (k : JobId) :
    (m.spawn task).job? k = m.job? k := rfl

@[simp] theorem job?_updateEnv (m : Machine ε τ) (f : ε → ε) (k : JobId) :
    (m.updateEnv f).job? k = m.job? k := rfl

@[simp] theorem job?_wake (m : Machine ε τ) (i : Ticket) (k : JobId) :
    (m.wake i).job? k = m.job? k := rfl

theorem jobs_fire (m : Machine ε τ) (s : SignalId) : (m.fire s).jobs = m.jobs := by
  unfold fire
  split <;> rfl

theorem setIfInBounds_eq_modify {α : Type} (a : Array α) (i : Nat) (new : α) :
    a.setIfInBounds i new = a.modify i fun _ => new := by
  refine Array.ext_getElem? fun k => ?_
  rw [Array.getElem?_setIfInBounds, Array.getElem?_modify]
  split
  · next he =>
    subst he
    split
    · next hlt => rw [Array.getElem?_eq_getElem hlt]; rfl
    · next hlt => rw [Array.getElem?_eq_none (Nat.le_of_not_lt hlt)]; rfl
  · rfl

theorem fire_of_unfired {s : SignalId} {waiters : List WaitId}
    (hs : m.signals[s]? = some ⟨false, waiters⟩) :
    m.fire s = ({ m with
      signals := m.signals.setIfInBounds s ⟨true, []⟩
      timetable := (m.timetable.resolveAll .done waiters).2 } : Machine ε τ).wakeAll
        (m.timetable.resolveAll .done waiters).1 := by
  rw [fire, hs]

theorem fire_of_fired {s : SignalId} {waiters : List WaitId}
    (hs : m.signals[s]? = some ⟨true, waiters⟩) : m.fire s = m := by
  rw [fire, hs]

@[simp] theorem job?_fire (m : Machine ε τ) (s : SignalId) (k : JobId) :
    (m.fire s).job? k = m.job? k := by
  simp only [job?, jobs_fire]

theorem job?_cancelOne {j : JobId} {job : Job} (h : m.job? j = some job) (k : JobId) :
    (m.cancelOne j job).job? k =
      if k = j then some { job with cancelled := true, pending := [] } else m.job? k := by
  rw [← job?_set h]
  simp only [job?, cancelOne, jobs_interruptAll]

theorem cancelOne_eq {j : JobId} {job : Job} (h : m.jobs[j]? = some job) :
    m.cancelOne j job =
      (m.updateJob j ({ · with cancelled := true, pending := [] })).interruptAll job.pending := by
  rw [updateJob_eq_set h]
  rfl

/-- A relation that a single cancellation is in holds across the cancellation of many. -/
theorem cancelAll_induction {R : Machine ε τ → Machine ε τ → Prop} (refl : ∀ m, R m m)
    (trans : ∀ {a b c}, R a b → R b c → R a c)
    (one : ∀ {m : Machine ε τ} {j job}, m.job? j = some job → job.cancelled = false →
      R m (m.cancelOne j job))
    (m : Machine ε τ) (jobs : List JobId) : R m (m.cancelAll jobs) := by
  fun_induction cancelAll m jobs with
  | case1 m => exact refl m
  | case2 m job rest h ih => exact ih
  | case3 m job rest j h hc hlt ih => exact trans (one h (by simp_all)) ih
  | case4 m job rest j h hc ih => exact ih

/-- A relation that cancellations and records of failures are in holds across a failure. -/
theorem fail_induction {R : Machine ε τ → Machine ε τ → Prop} (refl : ∀ m, R m m)
    (trans : ∀ {a b c}, R a b → R b c → R a c)
    (one : ∀ {m : Machine ε τ} {j job}, m.job? j = some job → job.cancelled = false →
      R m (m.cancelOne j job))
    (record : ∀ {m : Machine ε τ} {j job} (kind : ExceptionKind), m.job? j = some job →
      job.failure = none → R m (m.recordFailure j job kind))
    (m : Machine ε τ) (job : JobId) (kind : ExceptionKind) : R m (m.fail job kind) := by
  have cancelled := @cancelAll_induction ε τ R refl trans one
  fun_induction fail m job kind with
  | case1 m => exact refl m
  | case2 m job j h hf =>
    exact trans (record kind h (by simp_all)) (cancelled _ _)
  | case3 m job j h hf =>
    exact trans (record kind h (by simp_all)) (cancelled _ _)
  | case4 m job j h hf _ _ _ _ _ _ ih =>
    exact trans (trans (record kind h (by simp_all)) (cancelled _ _)) ih
  | case5 m job j h hf => exact cancelled _ _

theorem signals_interruptAll (m : Machine ε τ) (waits : List (Nat × OpenWait)) :
    (m.interruptAll waits).signals = m.signals := by
  induction waits generalizing m with
  | nil => rfl
  | cons wait rest ih => exact ih (m.interrupt wait)

theorem env_interruptAll (m : Machine ε τ) (waits : List (Nat × OpenWait)) :
    (m.interruptAll waits).env = m.env := by
  induction waits generalizing m with
  | nil => rfl
  | cons wait rest ih => exact ih (m.interrupt wait)

/-- A job that keeps its bond makes no difference to the bonds. -/
theorem bond?_of_job?_ite {j : JobId} {job new : Job} (h : m.job? j = some job)
    (hnew : ∀ k, m'.job? k = if k = j then some new else m.job? k) (hbond : new.bond = job.bond)
    (k : JobId) : m'.bond? k = m.bond? k := by
  unfold bond?
  rw [hnew]
  split
  · next hk =>
    subst hk
    rw [h, Option.map_some, Option.map_some, hbond]
  · rfl

theorem bond?_cancelOne {j : JobId} {job : Job} (h : m.job? j = some job) (k : JobId) :
    (m.cancelOne j job).bond? k = m.bond? k :=
  bond?_of_job?_ite h (job?_cancelOne h) rfl k

theorem bond?_recordFailure {j : JobId} {job : Job} (h : m.job? j = some job)
    (kind : ExceptionKind) (k : JobId) : (m.recordFailure j job kind).bond? k = m.bond? k :=
  bond?_of_job?_ite h (job?_set h { job with failure := some kind, failureReported := !job.cancelled })
    rfl k

/-- Neither the environment nor the signals nor any bond is touched. -/
structure SameBonds (m m' : Machine ε τ) : Prop where
  env : m'.env = m.env
  signals : m'.signals = m.signals
  bond : ∀ j, m'.bond? j = m.bond? j
  seats : m'.dispatcher.seats = m.dispatcher.seats

theorem SameBonds.refl (m : Machine ε τ) : SameBonds m m := ⟨rfl, rfl, fun _ => rfl, rfl⟩

theorem SameBonds.trans {a b c : Machine ε τ} (h : SameBonds a b) (h' : SameBonds b c) :
    SameBonds a c :=
  ⟨h'.env.trans h.env, h'.signals.trans h.signals, fun j => (h'.bond j).trans (h.bond j),
    h'.seats.trans h.seats⟩

theorem sameBonds_cancelOne {j : JobId} {job : Job} (h : m.job? j = some job) :
    SameBonds m (m.cancelOne j job) :=
  ⟨env_interruptAll .., signals_interruptAll .., bond?_cancelOne h, seats_interruptAll ..⟩

theorem sameBonds_cancelAll (m : Machine ε τ) (jobs : List JobId) :
    SameBonds m (m.cancelAll jobs) :=
  cancelAll_induction .refl .trans (fun h _ => sameBonds_cancelOne h) m jobs

theorem sameBonds_cancel (m : Machine ε τ) (job : JobId) : SameBonds m (m.cancel job) :=
  sameBonds_cancelAll m [job]

theorem sameBonds_fail (m : Machine ε τ) (job : JobId) (kind : ExceptionKind) :
    SameBonds m (m.fail job kind) :=
  fail_induction .refl .trans (fun h _ => sameBonds_cancelOne h)
    (fun kind h _ => ⟨rfl, rfl, bond?_recordFailure h kind, rfl⟩) m job kind

theorem sameBonds_conclude (m : Machine ε τ) (job : JobId) (result : Completion) :
    SameBonds m (m.conclude job result) := by
  unfold conclude
  split
  · exact .refl m
  · exact sameBonds_cancel m job
  · exact sameBonds_fail ..

theorem sameBonds_passOnFailure (m : Machine ε τ) (j : Job) :
    SameBonds m (m.passOnFailure j) := by
  unfold passOnFailure
  split
  · split
    · exact .refl m
    · exact sameBonds_fail ..
  · exact .refl m

theorem Tree.of_sameBonds {x : Option JobId} (h : Tree x m) (hs : SameBonds m m') : Tree x m' :=
  h.congr hs.bond hs.signals

theorem signals_fire_size (m : Machine ε τ) (s : SignalId) :
    (m.fire s).signals.size = m.signals.size := by
  unfold fire
  split
  · simp [wakeAll]
  · rfl

theorem env_fire (m : Machine ε τ) (s : SignalId) : (m.fire s).env = m.env := by
  unfold fire
  split <;> rfl

theorem hasFired_fire {m : Machine ε τ} {s : SignalId} (hs : s < m.signals.size) (s' : SignalId) :
    (m.fire s).hasFired s' = true ↔ s' = s ∨ m.hasFired s' = true := by
  unfold fire
  split
  · next waiters h =>
    by_cases hs' : s' = s
    · subst hs'
      simp [hasFired, wakeAll, hs]
    · simp [hasFired, wakeAll, hs', Ne.symm hs']
  · next h =>
    refine ⟨.inr, fun hor => hor.elim (fun he => ?_) id⟩
    subst he
    have hget : m.signals[s']? = some m.signals[s'] := Array.getElem?_eq_getElem hs
    match hm : m.signals[s'] with
    | ⟨false, waiters⟩ => exact absurd (hget.trans (congrArg some hm)) (h waiters)
    | ⟨true, waiters⟩ => simp [hasFired, hget, hm]

theorem bond?_fire (m : Machine ε τ) (s : SignalId) (j : JobId) :
    (m.fire s).bond? j = m.bond? j := by
  simp only [bond?, job?_fire]

/-- Firing is in order if every job that has the signal for its completion has its outcome. -/
theorem Tree.fire {x : Option JobId} (h : Tree x m) {s : SignalId} (hlt : s < m.signals.size)
    (hs : ∀ {j b}, m.bond? j = some b → b.completion = s → b.outcome.isSome) :
    Tree x (m.fire s) := by
  refine ⟨h.links.congr (bond?_fire m s), ?_⟩
  constructor <;> simp only [bond?_fire, signals_fire_size]
  · exact h.completions.lt
  · exact h.completions.inj
  · intro j b hj ho hx
    exact (hasFired_fire hlt _).2 (.inr (h.completions.fired hj ho hx))
  · intro j b hj hf
    exact ((hasFired_fire hlt _).1 hf).elim (hs hj) (h.completions.settled hj)

theorem job?_child {m : Machine ε τ} {p : JobId} {pj : Job} (hp : m.job? p = some pj)
    (kind : JobRole) (k : JobId) :
    (m.child p kind).2.job? k =
      if k = m.jobs.size then
        some ⟨kind, 1, m.isCancelled p, none, false, none, [], [], some p, none, m.signals.size⟩
      else if k = p then some { pj with children := pj.children ++ [m.jobs.size] }
      else m.job? k := by
  have hlt := job?_lt hp
  have hne : p ≠ m.jobs.size := Nat.ne_of_lt hlt
  simp only [child, newJob, newSignal, job?_updateJob]
  by_cases hk : k = p
  · subst hk
    have hp' : m.jobs[k]? = some pj := hp
    simp [job?, Array.getElem?_push, hne, hp']
  · by_cases hn : k = m.jobs.size
    · simp [job?, hn, isCancelled, Ne.symm hne]
    · simp [job?, Array.getElem?_push, hk, hn]

theorem bond?_child {m : Machine ε τ} {p : JobId} {pb : Bond} (hp : m.bond? p = some pb)
    (kind : JobRole) (k : JobId) :
    (m.child p kind).2.bond? k =
      if k = m.jobs.size then some ⟨1, none, [], some p, m.signals.size⟩
      else if k = p then some { pb with children := pb.children ++ [m.jobs.size] }
      else m.bond? k := by
  obtain ⟨pj, hpj, rfl⟩ := bond?_eq_some.1 hp
  unfold bond?
  rw [job?_child hpj]
  split
  · rfl
  · split <;> rfl

theorem bond?_lt {j : JobId} {b : Bond} (h : m.bond? j = some b) : j < m.jobs.size := by
  obtain ⟨job, hj, -⟩ := bond?_eq_some.1 h
  exact job?_lt hj

/-- What an old job has in common with what it was before `p` got a child. -/
structure Grown (p new : JobId) (k : JobId) (b b' : Bond) : Prop where
  holders : b'.holders = b.holders
  outcome : b'.outcome = b.outcome
  parent : b'.parent = b.parent
  completion : b'.completion = b.completion
  children : b'.children = if k = p then b.children ++ [new] else b.children

theorem grown_of_bond?_child {p : JobId} {pb : Bond} (hp : m.bond? p = some pb) {kind : JobRole}
    {k : JobId} {b' : Bond} (hk : (m.child p kind).2.bond? k = some b') (hne : k ≠ m.jobs.size) :
    ∃ b, m.bond? k = some b ∧ Grown p m.jobs.size k b b' := by
  rw [bond?_child hp, if_neg hne] at hk
  split at hk
  · next hkp =>
    subst hkp
    obtain rfl := Option.some.inj hk
    exact ⟨pb, hp, rfl, rfl, rfl, rfl, by simp⟩
  · next hkp => exact ⟨b', hk, rfl, rfl, rfl, rfl, by simp [hkp]⟩

theorem exists_grown_child {p : JobId} {pb : Bond} (hp : m.bond? p = some pb) (kind : JobRole)
    {k : JobId} {b : Bond} (hk : m.bond? k = some b) :
    ∃ b', (m.child p kind).2.bond? k = some b' ∧ Grown p m.jobs.size k b b' := by
  have hne : k ≠ m.jobs.size := Nat.ne_of_lt (bond?_lt hk)
  rw [bond?_child hp, if_neg hne]
  split
  · next hkp =>
    subst hkp
    obtain rfl : pb = b := Option.some.inj (hp.symm.trans hk)
    exact ⟨_, rfl, rfl, rfl, rfl, rfl, by simp⟩
  · next hkp => exact ⟨b, hk, rfl, rfl, rfl, rfl, by simp [hkp]⟩

theorem bond?_child_new {p : JobId} {pb : Bond} (hp : m.bond? p = some pb) {kind : JobRole}
    {b' : Bond} (h : (m.child p kind).2.bond? m.jobs.size = some b') :
    b' = ⟨1, none, [], some p, m.signals.size⟩ := by
  rw [bond?_child hp, if_pos rfl] at h
  exact (Option.some.inj h).symm

theorem Links.child_new {x : Option JobId} (h : Links x m) {p : JobId} {pb : Bond}
    (hp : m.bond? p = some pb) (hopen : pb.outcome = none) (kind : JobRole) :
    Links x (m.child p kind).2 := by
  have hlt := bond?_lt hp
  refine ⟨?_, ?_, ?_, ?_, ?_⟩
  · intro k b' hk
    by_cases hn : k = m.jobs.size
    · subst hn
      rw [bond?_child_new hp hk]
      exact Nat.one_pos
    · obtain ⟨b, hkb, hg⟩ := grown_of_bond?_child hp hk hn
      rw [hg.holders]
      exact h.held hkb
  · intro q b' c hq hc
    by_cases hn : q = m.jobs.size
    · subst hn
      rw [bond?_child_new hp hq] at hc
      simp at hc
    · obtain ⟨b, hqb, hg⟩ := grown_of_bond?_child hp hq hn
      have hcase : c ∈ b.children ∨ q = p ∧ c = m.jobs.size := by
        rw [hg.children] at hc
        split at hc
        · next hqp => simpa [hqp] using hc
        · exact .inl hc
      rcases hcase with hc | ⟨rfl, rfl⟩
      · obtain ⟨cb, hcb, hcp, hqc, hco⟩ := h.child hqb hc
        obtain ⟨cb', hcb', hgc⟩ := exists_grown_child hp kind hcb
        exact ⟨cb', hcb', hgc.parent.trans hcp, hqc, by rwa [hgc.outcome]⟩
      · exact ⟨_, by rw [bond?_child hp, if_pos rfl], rfl, hlt, by simp⟩
  · intro c cb' q hc hcp hxc
    by_cases hn : c = m.jobs.size
    · subst hn
      rw [bond?_child_new hp hc] at hcp
      obtain rfl : p = q := by simpa using hcp
      exact ⟨_, by rw [bond?_child hp, if_neg (Nat.ne_of_lt hlt), if_pos rfl], by simp⟩
    · obtain ⟨cb, hcb, hg⟩ := grown_of_bond?_child hp hc hn
      obtain ⟨b, hq, hmem⟩ := h.parent hcb (hg.parent ▸ hcp) hxc
      obtain ⟨b', hq', hgq⟩ := exists_grown_child hp kind hq
      refine ⟨b', hq', ?_⟩
      rw [hgq.children]
      split
      · exact List.mem_append_left _ hmem
      · exact hmem
  · intro c cb' hc ho hxc
    by_cases hn : c = m.jobs.size
    · subst hn
      rw [bond?_child_new hp hc] at ho
      simp at ho
    · obtain ⟨cb, hcb, hg⟩ := grown_of_bond?_child hp hc hn
      rw [hg.parent]
      exact h.orphan hcb (hg.outcome ▸ ho) hxc
  · intro j b' hj ho
    by_cases hn : j = m.jobs.size
    · subst hn
      rw [bond?_child_new hp hj]
    · obtain ⟨b, hjb, hg⟩ := grown_of_bond?_child hp hj hn
      rw [hg.children]
      split
      · next hjp =>
        subst hjp
        obtain rfl : pb = b := Option.some.inj (hp.symm.trans hjb)
        rw [hg.outcome, hopen] at ho
        simp at ho
      · exact h.childless hjb (hg.outcome ▸ ho)

theorem hasFired_child (m : Machine ε τ) (p : JobId) (kind : JobRole) (s : SignalId) :
    (m.child p kind).2.hasFired s = m.hasFired s := by
  by_cases hs : s = m.signals.size
  · simp [hasFired, child, newJob, newSignal, updateJob, hs, Signal.unfired]
  · simp [hasFired, child, newJob, newSignal, updateJob, Array.getElem?_push, hs]

theorem size_signals_child (m : Machine ε τ) (p : JobId) (kind : JobRole) :
    (m.child p kind).2.signals.size = m.signals.size + 1 := by
  simp [child, newJob, newSignal, updateJob]

theorem Completions.child_new {x : Option JobId} (h : Completions x m) {p : JobId} {pb : Bond}
    (hp : m.bond? p = some pb) (kind : JobRole) : Completions x (m.child p kind).2 := by
  refine ⟨?_, ?_, ?_, ?_⟩
  · intro j b' hj
    rw [size_signals_child]
    by_cases hn : j = m.jobs.size
    · subst hn
      rw [bond?_child_new hp hj]
      exact Nat.lt_succ_self _
    · obtain ⟨b, hjb, hg⟩ := grown_of_bond?_child hp hj hn
      rw [hg.completion]
      exact Nat.lt_succ_of_lt (h.lt hjb)
  · intro i j b b' hi hj he
    by_cases hni : i = m.jobs.size <;> by_cases hnj : j = m.jobs.size
    · rw [hni, hnj]
    · subst hni
      obtain ⟨b₀, hjb, hg⟩ := grown_of_bond?_child hp hj hnj
      have hlt := h.lt hjb
      rw [bond?_child_new hp hi, hg.completion] at he
      exact absurd he.symm (Nat.ne_of_lt hlt)
    · subst hnj
      obtain ⟨b₀, hib, hg⟩ := grown_of_bond?_child hp hi hni
      have hlt := h.lt hib
      rw [bond?_child_new hp hj, hg.completion] at he
      exact absurd he (Nat.ne_of_lt hlt)
    · obtain ⟨bi, hib, hgi⟩ := grown_of_bond?_child hp hi hni
      obtain ⟨bj, hjb, hgj⟩ := grown_of_bond?_child hp hj hnj
      exact h.inj hib hjb (by rw [← hgi.completion, ← hgj.completion, he])
  · intro j b' hj ho hxj
    rw [hasFired_child]
    by_cases hn : j = m.jobs.size
    · subst hn
      rw [bond?_child_new hp hj] at ho
      simp at ho
    · obtain ⟨b, hjb, hg⟩ := grown_of_bond?_child hp hj hn
      rw [hg.completion]
      exact h.fired hjb (hg.outcome ▸ ho) hxj
  · intro j b' hj hf
    rw [hasFired_child] at hf
    by_cases hn : j = m.jobs.size
    · subst hn
      have hnot : m.hasFired m.signals.size = false := by simp [hasFired]
      rw [bond?_child_new hp hj, hnot] at hf
      simp at hf
    · obtain ⟨b, hjb, hg⟩ := grown_of_bond?_child hp hj hn
      rw [hg.outcome]
      exact h.settled hjb (hg.completion ▸ hf)

theorem Tree.child_new {x : Option JobId} (h : Tree x m) {p : JobId} {pb : Bond}
    (hp : m.bond? p = some pb) (hopen : pb.outcome = none) (kind : JobRole) :
    Tree x (m.child p kind).2 :=
  ⟨h.links.child_new hp hopen kind, h.completions.child_new hp kind⟩

end Machine

end RacePuzzle
