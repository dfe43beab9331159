import RacePuzzle.Proofs.Machine.Outline

/-! Two machines in step. They have the same outline, and their signals come in pairs of which both
have fired or neither, with the same waits to resolve; each may have signals beside these. Whatever
happens to both of them leaves them in step. -/
namespace RacePuzzle

variable {R : SignalId → SignalId → Prop} {a a' : Array Signal} {s s' : SignalId}

/-- `R` pairs signals that are in the same state, no signal with two others. -/
structure Paired (R : SignalId → SignalId → Prop) (a a' : Array Signal) : Prop where
  same : ∀ {s s'}, R s s' → ∃ signal, a[s]? = some signal ∧ a'[s']? = some signal
  left : ∀ {s₁ s₂ s'}, R s₁ s' → R s₂ s' → s₁ = s₂
  right : ∀ {s s₁ s₂}, R s s₁ → R s s₂ → s₁ = s₂

theorem Paired.lt (h : Paired R a a') (hs : R s s') : s < a.size ∧ s' < a'.size := by
  obtain ⟨signal, hget, hget'⟩ := h.same hs
  exact ⟨(Array.getElem?_eq_some_iff.1 hget).1, (Array.getElem?_eq_some_iff.1 hget').1⟩

theorem Paired.modify (h : Paired R a a') (hs : R s s') (f : Signal → Signal) :
    Paired R (a.modify s f) (a'.modify s' f) := by
  refine ⟨fun {k k'} hk => ?_, h.left, h.right⟩
  obtain ⟨signal, hget, hget'⟩ := h.same hk
  rw [Array.getElem?_modify, Array.getElem?_modify, hget, hget']
  by_cases he : s = k
  · subst he
    rw [if_pos rfl, if_pos (h.right hs hk)]
    exact ⟨_, rfl, rfl⟩
  · have he' : s' ≠ k' := fun he' => he (h.left hs (he' ▸ hk))
    rw [if_neg he, if_neg he']
    exact ⟨signal, rfl, rfl⟩

theorem Paired.set (h : Paired R a a') (hs : R s s') (new : Signal) :
    Paired R (a.setIfInBounds s new) (a'.setIfInBounds s' new) := by
  rw [Machine.setIfInBounds_eq_modify, Machine.setIfInBounds_eq_modify]
  exact h.modify hs _

/-- The pairs, and the next signal of each side with that of the other. -/
def Extended (R : SignalId → SignalId → Prop) (a a' : Array Signal) : SignalId → SignalId → Prop :=
  fun s s' => R s s' ∨ s = a.size ∧ s' = a'.size

theorem Paired.push (h : Paired R a a') (new : Signal) :
    Paired (Extended R a a') (a.push new) (a'.push new) := by
  refine ⟨?_, ?_, ?_⟩
  · rintro s s' (hs | ⟨rfl, rfl⟩)
    · obtain ⟨hlt, hlt'⟩ := h.lt hs
      rw [Array.getElem?_push, Array.getElem?_push, if_neg (Nat.ne_of_lt hlt),
        if_neg (Nat.ne_of_lt hlt')]
      exact h.same hs
    · exact ⟨new, by simp, by simp⟩
  · rintro s₁ s₂ s' (h₁ | ⟨rfl, rfl⟩) (h₂ | ⟨rfl, he⟩)
    · exact h.left h₁ h₂
    · exact absurd he (Nat.ne_of_lt (h.lt h₁).2)
    · exact absurd rfl (Nat.ne_of_lt (h.lt h₂).2)
    · rfl
  · rintro s s₁ s₂ (h₁ | ⟨rfl, rfl⟩) (h₂ | ⟨he, rfl⟩)
    · exact h.right h₁ h₂
    · exact absurd he (Nat.ne_of_lt (h.lt h₁).1)
    · exact absurd rfl (Nat.ne_of_lt (h.lt h₂).1)
    · rfl

theorem Paired.pushLeft (h : Paired R a a') (new : Signal) : Paired R (a.push new) a' := by
  refine ⟨fun {s s'} hs => ?_, h.left, h.right⟩
  rw [Array.getElem?_push, if_neg (Nat.ne_of_lt (h.lt hs).1)]
  exact h.same hs

namespace Machine

variable {ε τ α : Type} {m m' m₁ m₁' m₂ : Machine ε τ}

def completion? (m : Machine ε τ) (job : JobId) : Option SignalId :=
  (m.job? job).map (·.completion)

structure SameSignals (m m' : Machine ε τ) : Prop where
  signals : m'.signals = m.signals
  completion : ∀ j, m'.completion? j = m.completion? j

theorem SameSignals.refl (m : Machine ε τ) : SameSignals m m := ⟨rfl, fun _ => rfl⟩

theorem SameSignals.trans (h : SameSignals m m₁) (h' : SameSignals m₁ m₂) : SameSignals m m₂ :=
  ⟨h'.signals.trans h.signals, fun j => (h'.completion j).trans (h.completion j)⟩

theorem SameSignals.ofJobs (hs : m'.signals = m.signals) (hj : m'.jobs = m.jobs) :
    SameSignals m m' :=
  ⟨hs, fun j => by rw [completion?, completion?, job?, job?, hj]⟩

theorem completion?_eq_bond? (m : Machine ε τ) (job : JobId) :
    m.completion? job = (m.bond? job).map (·.completion) := by
  rw [bond?, Option.map_map]
  rfl

theorem SameBonds.sameSignals (h : SameBonds m m') : SameSignals m m' :=
  ⟨h.signals, fun j => by rw [completion?_eq_bond?, completion?_eq_bond?, h.bond]⟩

theorem sameSignals_updateJob {f : Job → Job} (hf : ∀ job, (f job).completion = job.completion)
    (m : Machine ε τ) (job : JobId) : SameSignals m (m.updateJob job f) := by
  refine ⟨rfl, fun k => ?_⟩
  rw [completion?, job?_updateJob]
  split
  · next hk =>
    subst hk
    rw [completion?, Option.map_map]
    exact congrArg (Option.map · _) (funext hf)
  · rfl

theorem sameSignals_set {job : JobId} {j new : Job} (hj : m.job? job = some j)
    (hnew : new.completion = j.completion) :
    SameSignals m { m with jobs := m.jobs.setIfInBounds job new } := by
  refine ⟨rfl, fun k => ?_⟩
  rw [completion?, completion?, job?_set hj]
  split
  · next hk => rw [hk, hj, Option.map_some, Option.map_some, hnew]
  · rfl

theorem sameSignals_unlink (m : Machine ε τ) (parent child : JobId) :
    SameSignals m (m.unlink parent child) := by
  unfold unlink
  split
  · exact .refl m
  · next p hp =>
    have hp := (Option.filter_eq_some_iff.1 hp).1
    dsimp only
    split
    · have hset : SameSignals m { m with
          jobs := m.jobs.setIfInBounds parent { p with children := [], idleSleeper := none } } :=
        sameSignals_set hp rfl
      exact hset.trans (.ofJobs rfl rfl)
    · exact sameSignals_set hp rfl

/-- `m` and `m'` are in the same state, except for signals without a pair. -/
structure InStep (R : SignalId → SignalId → Prop) (m m' : Machine ε τ) : Prop where
  outline : m'.outline = m.outline
  signals : Paired R m.signals m'.signals
  completion : ∀ {j s s'}, m.completion? j = some s → m'.completion? j = some s' → R s s'

/-- Two results are the same, and the machines that go with them are in step. -/
structure SameResult (R : SignalId → SignalId → Prop) (r r' : α × Machine ε τ) : Prop where
  result : r'.1 = r.1
  machine : InStep R r.2 r'.2

section

theorem InStep.timetable (h : InStep R m m') : m'.timetable = m.timetable :=
  congrArg (fun o : Machine Unit Unit => o.timetable) h.outline

theorem InStep.now (h : InStep R m m') : m'.now = m.now := congrArg Timetable.now h.timetable

theorem InStep.isCancelled (h : InStep R m m') (job : JobId) :
    m'.isCancelled job = m.isCancelled job := by
  rw [← isCancelled_outline, h.outline, isCancelled_outline]

theorem InStep.job? (h : InStep R m m') (job : JobId) :
    (m'.job? job).map Job.outline = (m.job? job).map Job.outline := by
  rw [← job?_outline, h.outline, job?_outline]

theorem InStep.hasFired (h : InStep R m m') (hs : R s s') : m'.hasFired s' = m.hasFired s := by
  obtain ⟨signal, hget, hget'⟩ := h.signals.same hs
  rw [Machine.hasFired, Machine.hasFired, hget, hget']

/-- What leaves the signals alone and comes to the same outline leaves the machines in step. -/
theorem InStep.along (h : InStep R m m') (hm : SameSignals m m₁) (hm' : SameSignals m' m₁')
    (ho : m₁'.outline = m₁.outline) : InStep R m₁ m₁' := by
  refine ⟨ho, hm.signals ▸ hm'.signals ▸ h.signals, fun {j s s'} hs hs' => ?_⟩
  exact h.completion ((hm.completion j).symm.trans hs) ((hm'.completion j).symm.trans hs')

/-- An act that the outline determines and that leaves the signals alone. -/
theorem InStep.act (h : InStep R m m') {f : Machine ε τ → Machine ε τ}
    {g : Machine Unit Unit → Machine Unit Unit} (hg : ∀ m, (f m).outline = g m.outline)
    (hf : ∀ m, SameSignals m (f m)) : InStep R (f m) (f m') :=
  h.along (hf m) (hf m') (by rw [hg, hg, h.outline])

theorem InStep.updateJob (h : InStep R m m') {f : Job → Job}
    (hf : ∀ job, (f job).outline = f job.outline)
    (hc : ∀ job, (f job).completion = job.completion) (job : JobId) :
    InStep R (m.updateJob job f) (m'.updateJob job f) :=
  h.act (f := (·.updateJob job f)) (g := (·.updateJob job f)) (fun m => outline_updateJob m hf job)
    fun m => sameSignals_updateJob hc m job

theorem InStep.cancel (h : InStep R m m') (job : JobId) : InStep R (m.cancel job) (m'.cancel job) :=
  h.act (f := (·.cancel job)) (g := (·.cancel job)) (outline_cancel · job)
    fun m => (sameBonds_cancel m job).sameSignals

theorem InStep.conclude (h : InStep R m m') (job : JobId) (result : Completion) :
    InStep R (m.conclude job result) (m'.conclude job result) :=
  h.act (f := (·.conclude job result)) (g := (·.conclude job result)) (outline_conclude · job result)
    fun m => (sameBonds_conclude m job result).sameSignals

theorem completion?_fire (m : Machine ε τ) (s : SignalId) (j : JobId) :
    (m.fire s).completion? j = m.completion? j := by
  rw [completion?, completion?, job?_fire]

theorem InStep.fire (h : InStep R m m') (hs : R s s') : InStep R (m.fire s) (m'.fire s') := by
  obtain ⟨⟨fired, waiters⟩, hget, hget'⟩ := h.signals.same hs
  cases fired with
  | true => rwa [fire_of_fired hget, fire_of_fired hget']
  | false =>
    refine ⟨?_, ?_, fun hc hc' => ?_⟩
    · rw [fire_of_unfired hget, fire_of_unfired hget', outline_wakeAll, outline_wakeAll, h.timetable]
      exact congrArg (fun o : Machine Unit Unit => ({ o with
        timetable := (m.timetable.resolveAll .done waiters).2 } : Machine Unit Unit).wakeAll
          (m.timetable.resolveAll .done waiters).1) h.outline
    · rw [fire_of_unfired hget, fire_of_unfired hget']
      exact h.signals.set hs _
    · exact h.completion ((completion?_fire m s _).symm.trans hc) ((completion?_fire m' s' _).symm.trans hc')

theorem sameSignals_awaitChildren (m : Machine ε τ) (ticket : Ticket) (job : JobId) :
    SameSignals m (m.awaitChildren ticket job).2 := by
  refine sameSignals_updateJob ?_ m job
  exact fun _ => rfl

theorem InStep.awaitChildren (h : InStep R m m') (ticket : Ticket) (job : JobId) :
    SameResult R (m.awaitChildren ticket job) (m'.awaitChildren ticket job) := by
  have hm := awaitChildren_outline m ticket job
  have hm' := awaitChildren_outline m' ticket job
  rw [h.outline, hm] at hm'
  obtain ⟨hidle, ho⟩ := Prod.mk.inj hm'
  exact ⟨hidle.symm, h.along (sameSignals_awaitChildren ..) (sameSignals_awaitChildren ..) ho.symm⟩

theorem InStep.unlink (h : InStep R m m') (parent child : JobId) :
    InStep R (m.unlink parent child) (m'.unlink parent child) :=
  h.act (f := (·.unlink parent child)) (g := (·.unlink parent child)) (outline_unlink · parent child)
    (sameSignals_unlink · parent child)

theorem completion?_of_job? {job : JobId} {j : Job} (hj : m.job? job = some j) :
    m.completion? job = some j.completion := by
  rw [completion?, hj]
  rfl

/-- A job of one machine is a job of the other, with the completion that goes with its own. -/
theorem InStep.exists_job? (h : InStep R m m') {job : JobId} {j : Job} (hj : m.job? job = some j) :
    ∃ s', m'.job? job = some { j with completion := s' } ∧ R j.completion s' := by
  have hsame := h.job? job
  rw [hj] at hsame
  obtain ⟨j', hj', ho⟩ := Option.map_eq_some_iff.1 hsame
  have he : { j with completion := j'.completion } = j' := by
    cases j
    cases j'
    simpa [Job.outline] using ho.symm
  exact ⟨j'.completion, he ▸ hj', h.completion (completion?_of_job? hj) (completion?_of_job? hj')⟩

theorem InStep.job?_eq_none (h : InStep R m m') {job : JobId} (hj : m.job? job = none) :
    m'.job? job = none := by
  have hsame := h.job? job
  rw [hj] at hsame
  exact Option.map_eq_none_iff.1 hsame

theorem InStep.passOnFailure (h : InStep R m m') (j : Job) (s' : SignalId) :
    InStep R (m.passOnFailure j) (m'.passOnFailure { j with completion := s' }) := by
  refine h.along (sameBonds_passOnFailure m j).sameSignals (sameBonds_passOnFailure m' _).sameSignals ?_
  rw [outline_passOnFailure, outline_passOnFailure, h.outline]
  rfl

theorem InStep.leave (h : InStep R m m') (parent : Option JobId) (child : JobId) :
    InStep R (parent.elim m (m.unlink · child)) (parent.elim m' (m'.unlink · child)) := by
  cases parent with
  | none => exact h
  | some parent => exact h.unlink parent child

theorem InStep.settle (h : InStep R m m') (job : JobId) :
    SameResult R (m.settle job) (m'.settle job) := by
  cases hj : m.job? job with
  | none =>
    rw [Machine.settle, hj, Machine.settle, h.job?_eq_none hj]
    exact ⟨rfl, h⟩
  | some j =>
    obtain ⟨s', hj', hs⟩ := h.exists_job? hj
    rw [settle_eq hj, settle_eq hj']
    refine ⟨rfl, ?_⟩
    have hended := h.updateJob (f := ({ · with
      outcome := some j.finalOutcome
      failureReported := j.failureReported || j.failure.isSome })) (fun _ => rfl) (fun _ => rfl) job
    have hfired := (hended.passOnFailure j s').fire hs
    refine InStep.updateJob (f := ({ · with parent := none })) ?_ (fun _ => rfl) (fun _ => rfl) job
    exact hfired.leave j.parent job

theorem InStep.close (h : InStep R m m') (ticket : Ticket) (job : JobId) (result : Completion) :
    SameResult R (m.close ticket job result) (m'.close ticket job result) := by
  have hwait := (h.conclude job result).awaitChildren ticket job
  unfold Machine.close
  generalize (m.conclude job result).awaitChildren ticket job = r at hwait
  generalize (m'.conclude job result).awaitChildren ticket job = r' at hwait
  obtain ⟨idle, m₁⟩ := r
  obtain ⟨idle', m₁'⟩ := r'
  obtain ⟨hidle, hm₁⟩ := hwait
  obtain rfl : idle' = idle := hidle
  cases idle' with
  | true =>
    have hsettle := hm₁.settle job
    exact ⟨congrArg some hsettle.result, hsettle.machine⟩
  | false => exact ⟨rfl, hm₁⟩

theorem sameSignals_withWait (m : Machine ε τ) (ticket : Ticket) (job : JobId) (on : OpenWait) :
    SameSignals m (m.withWait ticket job on) := by
  have htimetable : SameSignals m
      { m with timetable := (m.timetable.allocate.2.newWait (some ticket)).2 } := .ofJobs rfl rfl
  refine htimetable.trans (sameSignals_updateJob ?_ _ job)
  exact fun _ => rfl

theorem sameSignals_beginDelay (m : Machine ε τ) (ticket : Ticket) (job : JobId) (duration : Nat) :
    SameSignals m (m.beginDelay ticket job duration).2 := by
  cases hc : m.isCancelled job with
  | true =>
    rw [beginDelay, hc]
    exact .ofJobs rfl rfl
  | false =>
    rw [beginDelay_eq m hc]
    exact (sameSignals_withWait m ticket job .timer).trans (.ofJobs rfl rfl)

theorem InStep.beginDelay (h : InStep R m m') (ticket : Ticket) (job : JobId) (duration : Nat) :
    SameResult R (m.beginDelay ticket job duration) (m'.beginDelay ticket job duration) := by
  have hm := beginDelay_outline m ticket job duration
  have hm' := beginDelay_outline m' ticket job duration
  rw [h.outline, hm] at hm'
  obtain ⟨hstart, ho⟩ := Prod.mk.inj hm'
  exact ⟨hstart.symm, h.along (sameSignals_beginDelay ..) (sameSignals_beginDelay ..) ho.symm⟩

theorem InStep.beginSignalWait (h : InStep R m m') (hs : R s s') (ticket : Ticket) (job : JobId) :
    SameResult R (m.beginSignalWait ticket job s) (m'.beginSignalWait ticket job s') := by
  have hm := beginSignalWait_outline m ticket job s 0
  have hm' := beginSignalWait_outline m' ticket job s' 0
  rw [h.outline, hm] at hm'
  obtain ⟨hstart, ho⟩ := Prod.mk.inj hm'
  have hjobs (m : Machine ε τ) (s : SignalId) (j : JobId) :
      (m.beginSignalWait ticket job s).2.completion? j = m.completion? j :=
    (sameSignals_withWait m ticket job (.signal m.timetable.waits.size)).completion j
  refine ⟨hstart.symm, ho.symm, ?_, fun hc hc' => h.completion ((hjobs m s _).symm.trans hc)
    ((hjobs m' s' _).symm.trans hc')⟩
  have hwaits : m'.timetable.waits.size = m.timetable.waits.size := by rw [h.timetable]
  rw [beginSignalWait_eq, beginSignalWait_eq, hwaits]
  exact h.signals.modify hs fun signal =>
    { signal with waiters := signal.waiters ++ [m.timetable.waits.size] }

theorem InStep.beginJoin (h : InStep R m m') (hs : R s s') (ticket : Ticket) (job : JobId) :
    SameResult R (m.beginJoin ticket job s) (m'.beginJoin ticket job s') := by
  unfold Machine.beginJoin
  rw [h.isCancelled, h.hasFired hs]
  split
  · exact ⟨rfl, h⟩
  · split
    · exact ⟨rfl, h⟩
    · have hwait := h.beginSignalWait hs ticket job
      exact ⟨congrArg WaitStart.suspended hwait.result, hwait.machine⟩

theorem InStep.beginAwait (h : InStep R m m') (hs : R s s') (ticket : Ticket) (job : JobId) :
    SameResult R (m.beginAwait ticket job s) (m'.beginAwait ticket job s') := by
  unfold Machine.beginAwait
  rw [h.hasFired hs]
  split
  · exact ⟨rfl, h⟩
  · exact h.beginJoin hs ticket job

theorem sameSignals_resumption (m : Machine ε τ) (ticket : Ticket) (on : Suspension) :
    SameSignals m (m.resumption ticket on).2 := by
  cases on with
  | entry job | turn => exact .refl m
  | wait job waiter wait =>
    unfold resumption
    dsimp only
    split
    · exact .refl m
    · refine sameSignals_updateJob ?_ m job
      exact fun _ => rfl
    · exact .ofJobs rfl rfl
  | children job => exact sameSignals_awaitChildren m ticket job

theorem InStep.resumption (h : InStep R m m') (ticket : Ticket) (on : Suspension) :
    SameResult R (m.resumption ticket on) (m'.resumption ticket on) := by
  have hm := resumption_outline m ticket on
  have hm' := resumption_outline m' ticket on
  rw [h.outline, hm] at hm'
  obtain ⟨hresult, ho⟩ := Prod.mk.inj hm'
  exact ⟨hresult.symm, h.along (sameSignals_resumption ..) (sameSignals_resumption ..) ho.symm⟩

theorem InStep.advance (h : InStep R m m') : InStep R m.advance.2 m'.advance.2 := by
  have hm := advance_outline m
  have hm' := advance_outline m'
  rw [h.outline, hm] at hm'
  exact h.along (.ofJobs rfl rfl) (.ofJobs rfl rfl) (Prod.mk.inj hm').2.symm

theorem InStep.newSignal (h : InStep R m m') :
    InStep (Extended R m.signals m'.signals) m.newSignal.2 m'.newSignal.2 :=
  ⟨h.outline, h.signals.push _, fun hs hs' => .inl (h.completion hs hs')⟩

/-- One machine alone may get a signal that nothing refers to. -/
theorem InStep.newSignalLeft (h : InStep R m m') : InStep R m.newSignal.2 m' :=
  ⟨h.outline, h.signals.pushLeft _, h.completion⟩

theorem completion?_child (m : Machine ε τ) (parent : JobId) (kind : JobRole) (j : JobId) :
    (m.child parent kind).2.completion? j =
      if j = m.jobs.size then some m.signals.size else m.completion? j := by
  have hparent := (sameSignals_updateJob
    (f := fun p => { p with children := p.children ++ [m.jobs.size] }) (fun _ => rfl)
    (m.newJob kind (some parent)).2 parent).completion j
  refine hparent.trans ?_
  have hnew : (m.newJob kind (some parent)).2.jobs = m.jobs.push ⟨kind, 1, m.isCancelled parent, none,
    false, none, [], [], some parent, none, m.signals.size⟩ := rfl
  rw [completion?, Machine.job?, hnew, Array.getElem?_push]
  split <;> rfl

theorem InStep.child (h : InStep R m m') (parent : JobId) (kind : JobRole) :
    (m'.child parent kind).1 = (m.child parent kind).1 ∧
      InStep (Extended R m.signals m'.signals) (m.child parent kind).2 (m'.child parent kind).2 := by
  have hjobs : m'.jobs.size = m.jobs.size := by
    have := congrArg (fun o : Machine Unit Unit => o.jobs.size) h.outline
    simpa [Machine.outline] using this
  refine ⟨hjobs, ?_, h.signals.push _, fun {j s s'} hs hs' => ?_⟩
  · rw [outline_child, outline_child, h.outline]
  · rw [completion?_child] at hs hs'
    rw [hjobs] at hs'
    split at hs
    · next hj =>
      rw [if_pos hj] at hs'
      exact .inr ⟨(Option.some.inj hs).symm, (Option.some.inj hs').symm⟩
    · next hj =>
      rw [if_neg hj] at hs'
      exact .inl (h.completion hs hs')

end

end Machine

end RacePuzzle
