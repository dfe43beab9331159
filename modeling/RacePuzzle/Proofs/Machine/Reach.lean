import RacePuzzle.Proofs.Machine.Kinship
import RacePuzzle.Proofs.Machine.Outline

/-! Which jobs a cancellation and a failure reach, and that they touch no others. A cancellation runs
down to all that is linked below the job. A failure climbs from task to parent as long as somebody
listens; where it stops, a cancellation runs down. -/
namespace RacePuzzle

def Job.interrupted (job : Job) : Job := { job with cancelled := true, pending := [] }

def Job.failedWith (kind : ExceptionKind) (job : Job) : Job :=
  { job with failure := some kind, failureReported := true, cancelled := true, pending := [] }

/-- A job without what cancellations and failures write. -/
def Job.unmarked (job : Job) : Job :=
  { job with cancelled := false, failure := none, failureReported := false, pending := [] }

namespace Machine

variable {ε τ : Type} {m m' : Machine ε τ}

/-- The job `p` lists `c`, and somebody holds it. -/
def Linked (m : Machine ε τ) (p c : JobId) : Prop :=
  ∃ job, m.job? p = some job ∧ c ∈ job.children ∧ m.isHeld c = true

abbrev Descendants (m : Machine ε τ) : JobId → JobId → Prop := Relation.ReflTransGen m.Linked

/-- A task tells its parent, which must be live and must be a scope or a task. -/
def Reports (m : Machine ε τ) (c p : JobId) : Prop :=
  ∃ child job, m.job? c = some child ∧ child.kind = .task ∧ child.parent = some p ∧
    m.job? p = some job ∧ job.isHeld = true ∧ (job.kind = .scope ∨ job.kind = .task)

abbrev Chain (m : Machine ε τ) : JobId → JobId → Prop := Relation.ReflTransGen m.Reports

/-- From `m` to `m'` the jobs in `reached` are cancelled, and no job changes otherwise. -/
structure Interrupts (reached : JobId → Prop) (m m' : Machine ε τ) : Prop where
  interrupted : ∀ {x}, reached x → m'.job? x = (m.job? x).map Job.interrupted
  spared : ∀ {x}, ¬ reached x → m'.job? x = m.job? x

/-- From `m` to `m'` the jobs in `chain` record the failure and those in `reached` are cancelled, and no
job changes otherwise. -/
structure Fails (kind : ExceptionKind) (chain reached : JobId → Prop) (m m' : Machine ε τ) :
    Prop where
  failed : ∀ {x}, chain x → m'.job? x = (m.job? x).map (Job.failedWith kind)
  interrupted : ∀ {x}, ¬ chain x → reached x → m'.job? x = (m.job? x).map Job.interrupted
  spared : ∀ {x}, ¬ reached x → m'.job? x = m.job? x

def SameTree (m m' : Machine ε τ) : Prop :=
  ∀ x, (m'.job? x).map Job.unmarked = (m.job? x).map Job.unmarked

theorem SameTree.refl (m : Machine ε τ) : SameTree m m := fun _ => rfl

theorem SameTree.symm (h : SameTree m m') : SameTree m' m := fun x => (h x).symm

theorem SameTree.trans {a b c : Machine ε τ} (h : SameTree a b) (h' : SameTree b c) :
    SameTree a c := fun x => (h' x).trans (h x)

theorem SameTree.exists_job (h : SameTree m m') {x : JobId} {job : Job} (hx : m.job? x = some job) :
    ∃ job', m'.job? x = some job' ∧ job'.kind = job.kind ∧ job'.isHeld = job.isHeld ∧
      job'.children = job.children ∧ job'.parent = job.parent := by
  have he := h x
  rw [hx, Option.map_some] at he
  obtain ⟨job', hjob', he⟩ := Option.map_eq_some_iff.1 he
  simp only [Job.unmarked, Job.mk.injEq] at he
  obtain ⟨hkind, hholders, -, -, -, -, -, hchildren, hparent, -⟩ := he
  exact ⟨job', hjob', hkind, by rw [Job.isHeld, hholders, Job.isHeld], hchildren, hparent⟩

theorem sameTree_set {j : JobId} {job : Job} (hj : m.job? j = some job) (new : Job)
    (hnew : new.unmarked = job.unmarked) :
    SameTree m ({ m with jobs := m.jobs.setIfInBounds j new } : Machine ε τ) := by
  intro x
  rw [job?_set hj]
  split
  · next hx =>
    subst hx
    rw [hj, Option.map_some, Option.map_some, hnew]
  · rfl

theorem sameTree_cancelOne {j : JobId} {job : Job} (hj : m.job? j = some job) :
    SameTree m (m.cancelOne j job) := by
  intro x
  rw [job?_cancelOne hj, ← job?_set hj]
  exact sameTree_set hj { job with cancelled := true, pending := [] } rfl x

theorem sameTree_cancel (m : Machine ε τ) (j : JobId) : SameTree m (m.cancel j) :=
  cancelAll_induction .refl .trans (fun h _ => sameTree_cancelOne h) m [j]

theorem SameTree.isHeld (h : SameTree m m') : m'.isHeld = m.isHeld := by
  have one : ∀ {m m' : Machine ε τ}, SameTree m m' → ∀ x, m.isHeld x = true → m'.isHeld x = true := by
    intro m m' h x hx
    obtain ⟨job, hjob, hheld⟩ := exists_of_isHeld hx
    obtain ⟨job', hjob', -, hsame, -⟩ := h.exists_job hjob
    rw [isHeld_eq hjob', hsame, hheld]
  funext x
  exact Bool.eq_iff_iff.2 ⟨one h.symm x, one h x⟩

theorem SameTree.linked (h : SameTree m m') : m'.Linked = m.Linked := by
  have one : ∀ {m m' : Machine ε τ}, SameTree m m' → ∀ p c, m.Linked p c → m'.Linked p c := by
    rintro m m' h p c ⟨job, hjob, hc, hheld⟩
    obtain ⟨job', hjob', -, -, hchildren, -⟩ := h.exists_job hjob
    exact ⟨job', hjob', hchildren ▸ hc, h.isHeld ▸ hheld⟩
  funext p c
  exact propext ⟨one h.symm p c, one h p c⟩

theorem SameTree.reports (h : SameTree m m') : m'.Reports = m.Reports := by
  have one : ∀ {m m' : Machine ε τ}, SameTree m m' → ∀ c p, m.Reports c p → m'.Reports c p := by
    rintro m m' h c p ⟨child, job, hchild, hkind, hparent, hjob, hheld, hp⟩
    obtain ⟨child', hchild', hckind, -, -, hcparent⟩ := h.exists_job hchild
    obtain ⟨job', hjob', hjkind, hjheld, -, -⟩ := h.exists_job hjob
    exact ⟨child', job', hchild', hckind.trans hkind, hcparent.trans hparent, hjob',
      hjheld.trans hheld, hjkind ▸ hp⟩
  funext c p
  exact propext ⟨one h.symm c p, one h c p⟩

/-- A cancellation that is still to be done for the jobs `owed` will reach the job. -/
def Doomed (m : Machine ε τ) (owed : List JobId) (x : JobId) : Prop :=
  ∃ j ∈ owed, m.isHeld j = true ∧ m.Descendants j x

theorem doomed_skip {j : JobId} (hj : m.isHeld j = false) (rest : List JobId) :
    m.Doomed (j :: rest) = m.Doomed rest := by
  funext x
  simp [Doomed, hj]

/-- Below a cancelled job all are cancelled but for what a cancellation under way will reach. -/
theorem Cancelled.doomed_or_isCancelled {owed : List JobId} (h : Cancelled owed m) {j x : JobId}
    (hbelow : m.Descendants j x) (hj : m.isCancelled j = true) :
    m.Doomed owed x ∨ m.isCancelled x = true := by
  induction hbelow using Relation.ReflTransGen.head_induction_on with
  | refl => exact .inr hj
  | head hlink hbelow ih =>
    obtain ⟨job, hjob, hc, hheld⟩ := hlink
    rcases h.below hjob ((isCancelled_eq hjob).symm.trans hj) hc hheld with hcancelled | howed
    · exact ih hcancelled
    · exact .inl ⟨_, howed, hheld, hbelow⟩

/-- A cancelled job is as a cancellation would leave it. -/
theorem Cancelled.map_interrupted {owed : List JobId} (h : Cancelled owed m) {x : JobId}
    (hx : m.isCancelled x = true) : (m.job? x).map Job.interrupted = m.job? x := by
  obtain ⟨job, hjob, hc⟩ := exists_of_isCancelled hx
  have hidle := h.idle hjob hc
  rw [hjob, Option.map_some, Job.interrupted, ← hc, ← hidle]

theorem doomed_cancelOne {j : JobId} {job : Job} (hj : m.job? j = some job)
    (hheld : job.isHeld = true) {rest : List JobId} {x : JobId} (hx : x ≠ j) :
    (m.cancelOne j job).Doomed (job.children ++ rest) x ↔ m.Doomed (j :: rest) x := by
  have hsame := sameTree_cancelOne hj
  unfold Doomed Descendants
  rw [hsame.linked, hsame.isHeld]
  simp only [List.mem_append, List.mem_cons]
  constructor
  · rintro ⟨c, hc | hc, hcheld, hbelow⟩
    · exact ⟨j, .inl rfl, (isHeld_eq hj).trans hheld, hbelow.head ⟨job, hj, hc, hcheld⟩⟩
    · exact ⟨c, .inr hc, hcheld, hbelow⟩
  · rintro ⟨c, rfl | hc, hcheld, hbelow⟩
    · rcases hbelow.cases_head with rfl | ⟨d, ⟨job', hj', hd, hdheld⟩, hbelow⟩
      · exact absurd rfl hx
      · obtain rfl := Option.some.inj (hj.symm.trans hj')
        exact ⟨d, .inl hd, hdheld, hbelow⟩
    · exact ⟨c, .inr hc, hcheld, hbelow⟩

theorem interrupts_cancelAll {owed : List JobId} (h : Cancelled owed m) :
    Interrupts (m.Doomed owed) m (m.cancelAll owed) := by
  fun_induction Machine.cancelAll m owed with
  | case1 m =>
    refine ⟨fun {x} hx => ?_, fun _ => rfl⟩
    obtain ⟨_, hj, _⟩ := hx
    cases hj
  | case2 m j rest hj ih =>
    have hheld : m.isHeld j = false := by simp [Machine.isHeld, job?, hj]
    rw [doomed_skip hheld]
    exact ih (h.skip fun hh => by simp [hheld] at hh)
  | case3 m j rest job hj hc _ ih =>
    have hheld : job.isHeld = true := (Bool.and_eq_true_iff.1 hc).1
    have ih := ih (h.cancelOne hj)
    have hnow : ∀ x, (m.cancelOne j job).job? x =
        if x = j then some job.interrupted else m.job? x := job?_cancelOne hj
    refine ⟨fun {x} hx => ?_, fun {x} hx => ?_⟩
    · by_cases hxj : x = j
      · have hdone : ((m.cancelOne j job).job? x).map Job.interrupted =
            (m.cancelOne j job).job? x := by
          rw [hnow, if_pos hxj]
          rfl
        have hgoal : (m.job? x).map Job.interrupted = (m.cancelOne j job).job? x := by
          rw [hnow, if_pos hxj, hxj, show m.job? j = some job from hj]
          rfl
        by_cases hd : (m.cancelOne j job).Doomed (job.children ++ rest) x
        · rw [ih.interrupted hd, hdone, hgoal]
        · rw [ih.spared hd, hgoal]
      · rw [ih.interrupted ((doomed_cancelOne hj hheld hxj).2 hx), hnow, if_neg hxj]
    · have hxj : x ≠ j := fun he =>
        hx ⟨j, List.mem_cons_self, (isHeld_eq hj).trans hheld, he ▸ .refl⟩
      rw [ih.spared fun hd => hx ((doomed_cancelOne hj hheld hxj).1 hd), hnow, if_neg hxj]
  | case4 m j rest job hj hc ih =>
    cases hheld : m.isHeld j with
    | false =>
      rw [doomed_skip hheld]
      exact ih (h.skip fun hh => by simp [hheld] at hh)
    | true =>
      -- cancelled before, and so is what lies below
      have hcancelled : m.isCancelled j = true := by
        have : job.isHeld = true := (isHeld_eq hj).symm.trans hheld
        rw [isCancelled_eq hj]
        simpa [this] using hc
      have hskip : Cancelled rest m := h.skip fun _ => hcancelled
      have ih := ih hskip
      refine ⟨fun {x} hx => ?_, fun {x} hx => ?_⟩
      · by_cases hd : m.Doomed rest x
        · exact ih.interrupted hd
        · obtain ⟨i, hi, hiheld, hbelow⟩ := hx
          rcases List.mem_cons.1 hi with rfl | hi
          · have := (hskip.doomed_or_isCancelled hbelow hcancelled).resolve_left hd
            rw [ih.spared hd, hskip.map_interrupted this]
          · exact absurd ⟨i, hi, hiheld, hbelow⟩ hd
      · refine ih.spared fun hd => hx ?_
        obtain ⟨i, hi, hbelow⟩ := hd
        exact ⟨i, List.mem_cons_of_mem _ hi, hbelow⟩

theorem doomed_singleton {j : JobId} (hj : m.isHeld j = true) : m.Doomed [j] = m.Descendants j := by
  funext x
  simp [Doomed, hj]

theorem interrupts_cancel {j : JobId} (h : Cancelled [j] m) (hj : m.isHeld j = true) :
    Interrupts (m.Descendants j) m (m.cancel j) :=
  doomed_singleton hj ▸ interrupts_cancelAll h

theorem Linked.lt (hk : Kinship m) {p c : JobId} (h : m.Linked p c) : p < c := by
  obtain ⟨job, hjob, hc, -⟩ := h
  exact hk.younger hjob hc

theorem Descendants.le (hk : Kinship m) {j x : JobId} (h : m.Descendants j x) : j ≤ x := by
  induction h with
  | refl => exact Nat.le_refl j
  | tail _ hlink ih => exact Nat.le_trans ih (Nat.le_of_lt (hlink.lt hk))

theorem Reports.lt (hk : Kinship m) {c p : JobId} (h : m.Reports c p) : p < c := by
  obtain ⟨child, -, hchild, -, hparent, -⟩ := h
  exact hk.older hchild hparent

theorem Chain.le (hk : Kinship m) {j x : JobId} (h : m.Chain j x) : x ≤ j := by
  induction h with
  | refl => exact Nat.le_refl j
  | tail _ hreport ih => exact Nat.le_trans (Nat.le_of_lt (hreport.lt hk)) ih

theorem Reports.unique {c p q : JobId} (h : m.Reports c p) (h' : m.Reports c q) : p = q := by
  obtain ⟨child, -, hchild, -, hparent, -⟩ := h
  obtain ⟨child', -, hchild', -, hparent', -⟩ := h'
  obtain rfl := Option.some.inj (hchild.symm.trans hchild')
  exact Option.some.inj (hparent.symm.trans hparent')

theorem Reports.isHeld {c p : JobId} (h : m.Reports c p) : m.isHeld p = true := by
  obtain ⟨-, job, -, -, -, hjob, hheld, -⟩ := h
  exact (isHeld_eq hjob).trans hheld

theorem Reports.linked (hk : Kinship m) {c p : JobId} (hc : m.isHeld c = true) (h : m.Reports c p) :
    m.Linked p c := by
  obtain ⟨child, job, hchild, -, hparent, hjob, hheld, -⟩ := h
  exact ⟨job, hjob, hk.listed hchild ((isHeld_eq hchild).symm.trans hc) hparent hjob hheld, hc⟩

theorem Chain.below (hk : Kinship m) {j x : JobId} (hj : m.isHeld j = true) (h : m.Chain j x) :
    m.Descendants x j := by
  induction h using Relation.ReflTransGen.head_induction_on with
  | refl => exact .refl
  | head hreport _ ih => exact (ih hreport.isHeld).tail (hreport.linked hk hj)

/-- A failure does not climb to a cancelled job. -/
theorem Reports.isCancelled (hk : Kinship m) (h : Cancelled [] m) {c p : JobId}
    (hc : m.isHeld c = true) (hn : m.isCancelled c = false) (hr : m.Reports c p) :
    m.isCancelled p = false := by
  obtain ⟨job, hjob, hmem, -⟩ := hr.linked hk hc
  rw [isCancelled_eq hjob]
  by_contra hcancelled
  have := (h.below hjob (Bool.not_eq_false _ ▸ hcancelled) hmem hc).resolve_right List.not_mem_nil
  rw [hn] at this
  cases this

/-- A listener that is live is one that the failure climbs to, and there is no other. -/
theorem reports_iff_listener? {c p : JobId} {child : Job} (hc : m.job? c = some child) :
    m.Reports c p ↔ m.listener? child = some p ∧ m.isHeld p = true := by
  constructor
  · rintro ⟨child', job, hc', hkind, hparent, hjob, hheld, hp⟩
    obtain rfl := Option.some.inj (hc.symm.trans hc')
    have habsorbs : job.kind.absorbsFailures = false := by
      rcases hp with hp | hp <;> rw [hp] <;> rfl
    exact ⟨by simp [listener?, hkind, hparent, hjob, habsorbs], (isHeld_eq hjob).trans hheld⟩
  · rintro ⟨hlisten, hp⟩
    obtain ⟨job, hjob, hheld⟩ := exists_of_isHeld hp
    unfold listener? at hlisten
    split at hlisten
    · next q hkind hparent =>
      split at hlisten
      · cases hlisten
      · next habsorbs =>
        obtain rfl := Option.some.inj hlisten
        rw [hjob] at habsorbs
        refine ⟨child, job, hc, hkind, hparent, hjob, hheld, ?_⟩
        cases hk : job.kind <;> simp [hk, JobRole.absorbsFailures] at habsorbs ⊢
    · cases hlisten

theorem sameTree_recordFailure {j : JobId} {job : Job} (hj : m.job? j = some job)
    (kind : ExceptionKind) : SameTree m (m.recordFailure j job kind) :=
  sameTree_set hj { job with failure := some kind, failureReported := !job.cancelled } rfl

theorem fails_one (h : Cancelled [] m) {j : JobId} {job : Job} (hj : m.job? j = some job)
    (hheld : job.isHeld = true) (hc : job.cancelled = false) (kind : ExceptionKind) :
    Fails kind (· = j) (m.Descendants j) m ((m.recordFailure j job kind).cancel j) := by
  have hsame := sameTree_recordFailure hj kind
  have hcancel := interrupts_cancel (h.recordFailure hj hheld kind)
    (hsame.isHeld ▸ (isHeld_eq hj).trans hheld)
  have hbelow : (m.recordFailure j job kind).Descendants = m.Descendants := by rw [Descendants, hsame.linked]
  rw [hbelow] at hcancel
  have hnow : ∀ x, (m.recordFailure j job kind).job? x =
      if x = j then some { job with failure := some kind, failureReported := true } else m.job? x := by
    intro x
    rw [recordFailure, job?_set hj, hc]
    rfl
  refine ⟨fun {x} hx => ?_, fun {x} hx hb => ?_, fun {x} hb => ?_⟩
  · subst hx
    rw [hcancel.interrupted .refl, hnow, if_pos rfl, hj]
    rfl
  · rw [hcancel.interrupted hb, hnow, if_neg hx]
  · have hx : x ≠ j := fun he => hb (he ▸ .refl)
    rw [hcancel.spared hb, hnow, if_neg hx]

/-- A failure that climbs: the jobs from the listener on come after the job itself. -/
theorem Fails.climb (hk : Kinship m) {m₁ m₂ : Machine ε τ} {kind : ExceptionKind} {j p last : JobId}
    (hj : m.isHeld j = true) (hr : m.Reports j p) (hlast : m.Chain p last)
    (h : Fails kind (· = j) (m.Descendants j) m m₁)
    (h' : Fails kind (m.Chain p) (m.Descendants last) m₁ m₂) :
    Fails kind (m.Chain j) (m.Descendants last) m m₂ := by
  have hlt : p < j := hr.lt hk
  have hbelow : m.Descendants last j := Chain.below hk hj (hlast.head hr)
  refine ⟨fun {x} hx => ?_, fun {x} hx hb => ?_, fun {x} hb => ?_⟩
  · rcases hx.cases_head with rfl | ⟨q, hq, hx⟩
    · have hself : ¬ m.Chain p j := fun hchain => absurd (Chain.le hk hchain) (Nat.not_le.2 hlt)
      rw [h'.interrupted hself hbelow, h.failed rfl, Option.map_map]
      rfl
    · obtain rfl := hr.unique hq
      have habove : ¬ m.Descendants j x := fun hb =>
        absurd (Nat.le_trans (Descendants.le hk hb) (Chain.le hk hx)) (Nat.not_le.2 hlt)
      rw [h'.failed hx, h.spared habove]
  · have hxj : x ≠ j := fun he => hx (he ▸ .refl)
    rw [h'.interrupted (fun hchain => hx (hchain.head hr)) hb]
    by_cases hjx : m.Descendants j x
    · rw [h.interrupted hxj hjx, Option.map_map]
      rfl
    · rw [h.spared hjx]
  · rw [h'.spared hb, h.spared fun hjx => hb (hbelow.trans hjx)]

theorem fail_of_not_isHeld {j : JobId} (hj : m.isHeld j = false) (kind : ExceptionKind) :
    m.fail j kind = m := by
  have hcancel : m.cancel j = m := by
    rw [cancel, cancelAll_cons]
    split
    · rw [cancelAll]
    · next job hjob =>
      have hheld : job.isHeld = false := (isHeld_eq hjob).symm.trans hj
      simp [hheld, cancelAll]
  rw [fail_eq, hcancel]
  split
  · rfl
  · next job hjob =>
    have hheld : job.isHeld = false := (isHeld_eq hjob).symm.trans hj
    simp [hheld]

theorem chain_eq_self {j : JobId} (hnone : ∀ p, ¬ m.Reports j p) : m.Chain j = (· = j) := by
  funext x
  refine propext ⟨fun hx => ?_, fun hx => hx ▸ .refl⟩
  rcases hx.cases_head with rfl | ⟨p, hp, -⟩
  · rfl
  · exact absurd hp (hnone p)

/-- The failure of a job of which nobody hears ends there. -/
theorem Fails.alone {j : JobId} {kind : ExceptionKind} (h : Fails kind (· = j) (m.Descendants j) m m')
    (hnone : ∀ p, ¬ m.Reports j p) : ∃ last, m.Chain j last ∧ (∀ p, ¬ m.Reports last p) ∧
      Fails kind (m.Chain j) (m.Descendants last) m m' :=
  ⟨j, .refl, hnone, (chain_eq_self hnone).symm ▸ h⟩

/-- A failure climbs to a last job, since parents are older than their children. -/
theorem exists_fails_fail (hk : Kinship m) (h : Cancelled [] m) {j : JobId} (hj : m.isHeld j = true)
    (hn : m.isCancelled j = false) (kind : ExceptionKind) :
    ∃ last, m.Chain j last ∧ (∀ p, ¬ m.Reports last p) ∧
      Fails kind (m.Chain j) (m.Descendants last) m (m.fail j kind) := by
  induction j using Nat.strongRecOn generalizing m with
  | ind j ih =>
    obtain ⟨job, hjob, hheld⟩ := exists_of_isHeld hj
    have hc : job.cancelled = false := (isCancelled_eq hjob).symm.trans hn
    have hf : job.failure.isNone := by
      by_contra hsome
      have := h.of_failed hjob (Option.isSome_iff_ne_none.2 (by simpa using hsome))
      simp [hc] at this
    have hone := fails_one h hjob hheld hc kind
    have hsame : SameTree m ((m.recordFailure j job kind).cancel j) :=
      (sameTree_recordFailure hjob kind).trans (sameTree_cancel _ j)
    have hfail := fail_eq m j kind
    rw [show m.jobs[j]? = some job from hjob] at hfail
    simp only [hheld, hf, hc, Bool.and_self, if_true, Bool.false_eq_true, if_false] at hfail
    cases hlisten : m.listener? job with
    | none =>
      rw [hlisten] at hfail
      rw [hfail]
      refine hone.alone fun p hp => ?_
      rw [reports_iff_listener? hjob, hlisten] at hp
      cases hp.1
    | some p =>
      rw [hlisten] at hfail
      dsimp only at hfail
      cases hpheld : m.isHeld p with
      | false =>
        rw [hfail, fail_of_not_isHeld (hsame.isHeld ▸ hpheld)]
        refine hone.alone fun q hq => ?_
        rw [reports_iff_listener? hjob, hlisten] at hq
        rw [Option.some.inj hq.1, hq.2] at hpheld
        cases hpheld
      | true =>
        have hr : m.Reports j p := (reports_iff_listener? hjob).2 ⟨hlisten, hpheld⟩
        have hlt := hr.lt hk
        have hkin : Kinship ((m.recordFailure j job kind).cancel j) :=
          (hk.congr (bond?_recordFailure hjob kind)).congr (sameBonds_cancel _ j).bond
        have hcancelled := (h.recordFailure hjob hheld kind).cancelAll
        have hnp : ((m.recordFailure j job kind).cancel j).isCancelled p = false := by
          have habove : ¬ m.Descendants j p := fun hb => absurd (Descendants.le hk hb) (Nat.not_le.2 hlt)
          rw [isCancelled, hone.spared habove]
          exact hr.isCancelled hk h hj hn
        obtain ⟨last, hchain, hend, hfails⟩ :=
          ih p hlt hkin hcancelled (hsame.isHeld ▸ hpheld) hnp
        have hbelow : Descendants ((m.recordFailure j job kind).cancel j) = m.Descendants := by
          rw [Descendants, hsame.linked]
        have hchains : Chain ((m.recordFailure j job kind).cancel j) = m.Chain := by
          rw [Chain, hsame.reports]
        rw [hbelow, hchains] at hfails
        rw [hchains] at hchain
        rw [hsame.reports] at hend
        exact ⟨last, hchain.head hr, hend, hfail ▸ hone.climb hk hj hr hchain hfails⟩

/-- A cancellation reaches exactly the job and its linked descendants. A failure of a job that is not
cancelled is recorded exactly along the chain of those who hear of it, and cancels exactly what lies
below the last of them. -/
theorem cancel_and_fail_reach (h : Reachable m) {j : JobId} (hj : m.isHeld j = true) :
    Interrupts (m.Descendants j) m (m.cancel j) ∧
      (m.isCancelled j = false → ∀ kind, ∃ last, m.Chain j last ∧ (∀ p, ¬ m.Reports last p) ∧
        Fails kind (m.Chain j) (m.Descendants last) m (m.fail j kind)) := by
  have hcancelled : Cancelled [j] m :=
    ⟨fun hp hc hmem hk => (h.cancelled.below hp hc hmem hk).imp id nofun, h.cancelled.idle,
      fun hp hf => .inl (h.cancelled.of_failed hp hf), h.cancelled.known⟩
  exact ⟨interrupts_cancel hcancelled hj, exists_fails_fail h.kinship h.cancelled hj⟩

/-- Two tasks of a supervisor, of which the first has a task of its own. -/
def supervisedFamily : Machine Unit Unit :=
  ((((Machine.start ()).root .supervisor).2.child 0 .task).2.child 0 .task).2.child 1 .task |>.2

theorem failure_stays_below_supervisor :
    supervisedFamily.Reachable ∧ supervisedFamily.isHeld 3 = true ∧
      supervisedFamily.isCancelled 3 = false ∧
      Interrupts (supervisedFamily.Descendants 3) supervisedFamily (supervisedFamily.cancel 3) ∧
      ((supervisedFamily.fail 3 .custom).job? 1 =
        (supervisedFamily.job? 1).map (Job.failedWith .custom)) := by
  have hreach : supervisedFamily.Reachable :=
    ⟨(), .tail (.tail (.tail (.single (.root .supervisor)) (.child .task (by decide)))
      (.child .task (by decide))) (.child .task (by decide))⟩
  have hheld : supervisedFamily.isHeld 3 = true := by decide
  have hn : supervisedFamily.isCancelled 3 = false := by decide
  obtain ⟨hcancel, hfail⟩ := cancel_and_fail_reach hreach hheld
  obtain ⟨last, -, -, hfails⟩ := hfail hn .custom
  have hreport : supervisedFamily.Reports 3 1 :=
    ⟨_, _, rfl, rfl, rfl, rfl, by decide, .inr (by decide)⟩
  exact ⟨hreach, hheld, hn, hcancel, hfails.failed (.single hreport)⟩

end Machine

end RacePuzzle
