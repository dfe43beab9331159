import RacePuzzle.Proofs.Machine.Failure
import RacePuzzle.Proofs.Machine.Suspension

/-! The end of a job that nothing has happened to. If it has no children left it settles at once with
what its own code ended with, and the other jobs do not notice but for the parent's list. -/
namespace RacePuzzle

/-- Nothing has happened to the job from outside. -/
structure Job.Calm (job : Job) : Prop where
  cancelled : job.cancelled = false
  failure : job.failure = none

theorem Job.Calm.finalOutcome {job : Job} (h : job.Calm) : job.finalOutcome = .completed := by
  simp [Job.finalOutcome, h.failure, h.cancelled]

namespace Machine

variable {ε τ : Type} {m : Machine ε τ} {j : JobId} {job : Job}

theorem listener?_of_kind (h : job.kind ≠ .task) (m : Machine ε τ) : m.listener? job = none := by
  unfold listener?
  split
  · next hkind _ => exact absurd hkind h
  · rfl

theorem cancel_childless (hj : m.job? j = some job) (hheld : job.isHeld = true)
    (hc : job.cancelled = false) (hnone : job.children = []) : m.cancel j = m.cancelOne j job := by
  have hget : m.jobs[j]? = some job := hj
  rw [cancel, cancelAll_cons, hget]
  simp only [hheld, hc, hnone]
  unfold cancelAll
  rfl

/-- A job that nobody holds, or that has been cancelled before, is not cancelled. -/
theorem cancel_eq_self (h : ∀ job, m.job? j = some job → job.isHeld = false ∨ job.cancelled = true) :
    m.cancel j = m := by
  have hnil : m.cancelAll [] = m := by
    unfold cancelAll
    rfl
  rw [cancel, cancelAll_cons]
  split
  · exact hnil
  · next job hj =>
    have hno : (job.isHeld && !job.cancelled) = false := by
      rcases h job hj with hheld | hc
      · simp [hheld]
      · simp [hc]
    rw [hno]
    exact hnil

/-- What is left of a calm job without children when its own code has ended with `result`. -/
structure Concluded (j : JobId) (job : Job) (result : Completion) (m m' : Machine ε τ) : Prop where
  job : ∃ job', m'.job? j = some job' ∧ job'.kind = job.kind ∧ job'.bond = job.bond ∧
    job'.finalOutcome.completion = result ∧ (job'.failure = none ∨ job.kind ≠ .task)
  other : ∀ {k}, k ≠ j → m'.job? k = m.job? k

theorem concluded_conclude (hj : m.job? j = some job) (hheld : job.isHeld = true)
    (hcalm : job.Calm) (hnone : job.children = []) {result : Completion}
    (hunheard : result = .ok () ∨ job.kind ≠ .task) :
    Concluded j job result m (m.conclude j result) := by
  have hcancel : ∀ {m : Machine ε τ} {job : Job}, m.job? j = some job → job.isHeld = true →
      job.cancelled = false → job.children = [] → ∀ k, (m.cancel j).job? k =
        if k = j then some { job with cancelled := true, pending := [] } else m.job? k :=
    fun hj hheld hc hnone k => by rw [cancel_childless hj hheld hc hnone, job?_cancelOne hj]
  cases result with
  | ok _ =>
    refine ⟨⟨job, hj, rfl, rfl, ?_, .inl hcalm.failure⟩, fun _ => rfl⟩
    rw [hcalm.finalOutcome]
    rfl
  | error kind =>
    have hkind : job.kind ≠ .task := hunheard.resolve_left (by simp)
    have hcancelled := hcancel hj hheld hcalm.cancelled hnone
    by_cases hk : kind = .cancellation
    · subst hk
      refine ⟨⟨_, (hcancelled j).trans (if_pos rfl), rfl, rfl, ?_, .inr hkind⟩, fun hne => ?_⟩
      · simp [Job.finalOutcome, hcalm.failure, Outcome.completion]
      · exact (hcancelled _).trans (if_neg hne)
    · have hrecorded : ∀ k, (m.recordFailure j job kind).job? k = if k = j then
          some { job with failure := some kind, failureReported := !job.cancelled } else m.job? k :=
        fun k => by rw [recordFailure, job?_set hj]
      have hfail : m.conclude j (.error kind) = (m.recordFailure j job kind).cancel j := by
        have hconclude : m.conclude j (.error kind) = m.fail j kind := by
          unfold conclude
          split
          · next he => cases he
          · next he => exact absurd (Except.error.inj he) hk
          · next he =>
            obtain rfl := Except.error.inj he
            rfl
        rw [hconclude]
        unfold fail
        split
        · next habsent => exact absurd (habsent.symm.trans hj) (by simp)
        · next job' hsome =>
          obtain rfl := Option.some.inj (hj.symm.trans hsome)
          rw [dif_pos (by simp [hheld, hcalm.failure])]
          simp only [hcalm.cancelled, listener?_of_kind hkind]
          rfl
      have hfailed := hcancel ((hrecorded j).trans (if_pos rfl)) hheld hcalm.cancelled hnone
      rw [hfail]
      refine ⟨⟨_, (hfailed j).trans (if_pos rfl), rfl, rfl, ?_, .inr hkind⟩, fun hne => ?_⟩
      · simp [Job.finalOutcome, Outcome.completion]
      · exact ((hfailed _).trans (if_neg hne)).trans ((hrecorded _).trans (if_neg hne))

/-- How a calm job without children ends: at once, with the result of its own code. -/
structure Quits (j : JobId) (result : Completion) (m : Machine ε τ) (outcome : Outcome)
    (m' : Machine ε τ) : Prop where
  completion : outcome.completion = result
  settled : ∃ job', m'.job? j = some job' ∧ job'.outcome = some outcome
  other : ∀ {k}, k ≠ j → ∃ f : Job → Job, m'.job? k = (m.job? k).map f ∧
    ∀ job, ∃ children sleeper, f job = job.relisted children sleeper

theorem exists_quits_close (hs : m.Sound) (hj : m.job? j = some job) (hcalm : job.Calm)
    (hnone : job.children = []) {result : Completion}
    (hunheard : result = .ok () ∨ job.kind ≠ .task) (ticket : Ticket) :
    ∃ outcome m', m.close ticket j result = (some outcome, m') ∧ Quits j result m outcome m' := by
  obtain ⟨⟨job₁, hj₁, hkind₁, hbond₁, hresult₁, hheard₁⟩, hother₁⟩ :=
    concluded_conclude hj (hs.tree.links.isHeld hj) hcalm hnone hunheard
  have hs₁ := hs.conclude j result
  have hnone₁ : job₁.children = [] := (congrArg Bond.children hbond₁).trans hnone
  have hidle := awaitChildren_eq hs₁.tree.links ticket hj₁
  have hs₂ := hs₁.awaitChildren ticket j
  rw [hnone₁] at hidle
  rw [hidle] at hs₂
  generalize hm₂ : (m.conclude j result).updateJob j _ = m₂ at hidle hs₂
  have hj₂ : m₂.job? j = some { job₁ with idleSleeper := none } := by
    rw [← hm₂, job?_updateJob, if_pos rfl, hj₁]
    rfl
  have hother₂ : ∀ {k}, k ≠ j → m₂.job? k = m.job? k := fun hk => by
    rw [← hm₂, job?_updateJob, if_neg hk, hother₁ hk]
  obtain ⟨houtcome, hsettles⟩ := settles_settle hs₂.tree hj₂ hnone₁
  refine ⟨(m₂.settle j).1, (m₂.settle j).2, ?_, ?_, ?_, fun {k} hk => ?_⟩
  · unfold close
    rw [hidle]
    rfl
  · rw [houtcome]
    exact hresult₁
  · obtain ⟨job', hjob', hbond'⟩ := bond?_eq_some.1 (hsettles.bond.new (bond?_of_job? hj₂))
    refine ⟨job', hjob', ?_⟩
    have ho : job'.outcome = _ := congrArg Bond.outcome hbond'
    rw [ho, houtcome]
    simp [Bond.afterSettling]
  · rw [← hother₂ hk]
    refine exists_job?_settle hj₂ (hheard₁.imp id fun hkind => ?_) hk
    exact listener?_of_kind (hkind₁ ▸ hkind) m₂

end Machine

end RacePuzzle
