import RacePuzzle.Proofs.Machine.JobTree

/-! The settlement of a job, stage by stage: it gets its outcome, tells of its failure, fires its
completion, leaves its parent's list and forgets its parent. -/
namespace RacePuzzle.Machine

variable {ε τ : Type} {m m' : Machine ε τ}

/-- In `m'` the bond of every job is what `g` makes of it. -/
def Rebound (g : JobId → Bond → Bond) (m m' : Machine ε τ) : Prop :=
  ∀ k, m'.bond? k = (m.bond? k).map (g k)

section Rebound

variable {g : JobId → Bond → Bond}

theorem Rebound.old (h : Rebound g m m') {k : JobId} {b' : Bond} (hk : m'.bond? k = some b') :
    ∃ b, m.bond? k = some b ∧ g k b = b' := by
  rw [h k] at hk
  exact Option.map_eq_some_iff.1 hk

theorem Rebound.new (h : Rebound g m m') {k : JobId} {b : Bond} (hk : m.bond? k = some b) :
    m'.bond? k = some (g k b) := by
  rw [h k, hk]
  rfl

theorem Rebound.size (h : Rebound g m m') : m'.jobs.size = m.jobs.size := by
  have hlt : ∀ (m : Machine ε τ) (k : Nat), k < m.jobs.size ↔ (m.bond? k).isSome := by
    intro m k
    simp [bond?, job?]
  have hiff : ∀ k, k < m'.jobs.size ↔ k < m.jobs.size := by
    intro k
    rw [hlt, hlt, h k, Option.isSome_map]
  have h₁ := hiff m.jobs.size
  have h₂ := hiff m'.jobs.size
  omega

theorem Rebound.held (h : Rebound g m m') {x : Option JobId} (hm : Links x m)
    (hg : ∀ k b, (g k b).holders = b.holders) {k : JobId} {b' : Bond}
    (hk : m'.bond? k = some b') : 0 < b'.holders := by
  obtain ⟨b, hb, rfl⟩ := h.old hk
  rw [hg]
  exact hm.held hb

theorem Rebound.lt (h : Rebound g m m') {x : Option JobId} (hm : Completions x m)
    (hg : ∀ k b, (g k b).completion = b.completion) (hs : m'.signals = m.signals) {k : JobId}
    {b' : Bond} (hk : m'.bond? k = some b') : b'.completion < m'.signals.size := by
  obtain ⟨b, hb, rfl⟩ := h.old hk
  rw [hg, hs]
  exact hm.lt hb

theorem Rebound.inj (h : Rebound g m m') {x : Option JobId} (hm : Completions x m)
    (hg : ∀ k b, (g k b).completion = b.completion) {i k : JobId} {b b' : Bond}
    (hi : m'.bond? i = some b) (hk : m'.bond? k = some b') (he : b.completion = b'.completion) :
    i = k := by
  obtain ⟨bi, hbi, rfl⟩ := h.old hi
  obtain ⟨bk, hbk, rfl⟩ := h.old hk
  rw [hg, hg] at he
  exact hm.inj hbi hbk he

end Rebound

theorem rebound_updateJob {j : JobId} {f : Job → Job} {g : Bond → Bond}
    (hf : ∀ job, (f job).bond = g job.bond) :
    Rebound (fun k b => if k = j then g b else b) m (m.updateJob j f) := by
  intro k
  unfold bond?
  rw [job?_updateJob]
  by_cases hk : k = j
  · subst hk
    cases m.job? k <;> simp [hf]
  · cases m.job? k <;> simp [hk]

theorem hasFired_congr (h : m'.signals = m.signals) (s : SignalId) :
    m'.hasFired s = m.hasFired s := by
  simp only [hasFired, h]

/-- The job gets its outcome; its completion has yet to fire and its parent still lists it. -/
theorem Tree.setOutcome (h : Tree none m) {j : JobId} {b : Bond} (hj : m.bond? j = some b)
    (hnone : b.children = []) (o : Outcome) (r : Bool) :
    Tree (some j) (m.updateJob j ({ · with outcome := some o, failureReported := r })) := by
  have hr : Rebound _ m _ := rebound_updateJob (j := j)
    (f := ({ · with outcome := some o, failureReported := r }))
    (g := ({ · with outcome := some o })) (fun _ => rfl)
  have hother : ∀ {k : JobId}, some j ≠ some k → k ≠ j := fun hx he => hx (by rw [he])
  refine ⟨⟨?_, ?_, ?_, ?_, ?_⟩, ⟨?_, ?_, ?_, ?_⟩⟩
  · exact hr.held h.links fun k b => by split <;> rfl
  · intro p b' c hp hc
    obtain ⟨b₀, hp₀, rfl⟩ := hr.old hp
    have hc₀ : c ∈ b₀.children := by split at hc <;> exact hc
    obtain ⟨cb, hcb, hpar, hlt, hout⟩ := h.links.child hp₀ hc₀
    refine ⟨_, hr.new hcb, ?_, hlt, fun ho => ?_⟩
    · split <;> exact hpar
    · split at ho
      · next hcj => rw [hcj]
      · exact absurd (hout ho) (by simp)
  · intro c cb' p hc hpar hx
    obtain ⟨cb, hcb, rfl⟩ := hr.old hc
    rw [if_neg (hother hx)] at hpar
    obtain ⟨pb, hp, hmem⟩ := h.links.parent hcb hpar (by simp)
    refine ⟨_, hr.new hp, ?_⟩
    split <;> exact hmem
  · intro c cb' hc ho hx
    obtain ⟨cb, hcb, rfl⟩ := hr.old hc
    rw [if_neg (hother hx)] at ho ⊢
    exact h.links.orphan hcb ho (by simp)
  · intro k b' hk ho
    obtain ⟨b₀, hk₀, rfl⟩ := hr.old hk
    split at ho
    · next hkj =>
      subst hkj
      obtain rfl : b = b₀ := Option.some.inj (hj.symm.trans hk₀)
      simpa using hnone
    · next hkj =>
      rw [if_neg hkj]
      exact h.links.childless hk₀ ho
  · exact hr.lt h.completions (fun k b => by split <;> rfl) rfl
  · exact hr.inj h.completions fun k b => by split <;> rfl
  · intro k b' hk ho hx
    obtain ⟨b₀, hk₀, rfl⟩ := hr.old hk
    rw [if_neg (hother hx)] at ho ⊢
    exact h.completions.fired hk₀ ho (by simp)
  · intro k b' hk hf
    obtain ⟨b₀, hk₀, rfl⟩ := hr.old hk
    split at hf
    · next hkj => simp [hkj]
    · next hkj =>
      rw [if_neg hkj]
      exact h.completions.settled hk₀ hf

theorem signals_unlink (m : Machine ε τ) (p c : JobId) : (m.unlink p c).signals = m.signals := by
  unfold unlink
  split
  · rfl
  · dsimp only
    split <;> rfl

theorem env_unlink (m : Machine ε τ) (p c : JobId) : (m.unlink p c).env = m.env := by
  unfold unlink
  split
  · rfl
  · dsimp only
    split <;> rfl

theorem Links.isHeld_child {x : Option JobId} (h : Links x m) {p : JobId} {pj : Job}
    (hp : m.job? p = some pj) {c : JobId} (hc : c ∈ pj.children) : m.isHeld c = true := by
  obtain ⟨cb, hcb, -⟩ := h.child (bond?_of_job? hp) hc
  obtain ⟨cj, hcj, -⟩ := bond?_eq_some.1 hcb
  simp [Machine.isHeld, hcj, h.isHeld hcj]

/-- A child is struck off its parent's list, and nothing else; the parent's sleeper is woken when
the list is empty. -/
theorem unlink_eq {x : Option JobId} (h : Links x m) {p : JobId} {pj : Job}
    (hp : m.job? p = some pj) (c : JobId) :
    m.unlink p c =
      if (pj.children.filter (· != c)).isEmpty then
        { m with jobs := m.jobs.setIfInBounds p { pj with children := [], idleSleeper := none } }
          |>.wakeAll pj.idleSleeper.toList
      else
        let left := { pj with children := pj.children.filter (· != c) }
        { m with jobs := m.jobs.setIfInBounds p left } := by
  have hfilter : (pj.children.filter fun d => d != c && m.isHeld d) =
      pj.children.filter (· != c) :=
    List.filter_congr fun d hd => by rw [h.isHeld_child hp hd, Bool.and_true]
  unfold unlink
  rw [hp]
  simp only [Option.filter_some, h.isHeld hp, if_true, hfilter]

theorem job?_unlink {x : Option JobId} (h : Links x m) {p : JobId} {pj : Job}
    (hp : m.job? p = some pj) (c k : JobId) :
    (m.unlink p c).job? k =
      if k = p then
        some { pj with
          children := pj.children.filter (· != c),
          idleSleeper := if (pj.children.filter (· != c)).isEmpty then none else pj.idleSleeper }
      else m.job? k := by
  rw [unlink_eq h hp]
  split
  · next he =>
    rw [job?_wakeAll, job?_set hp]
    simp [List.isEmpty_iff.1 he]
  · next he => rw [job?_set hp]

theorem rebound_unlink {x : Option JobId} (h : Links x m) {p : JobId} {pb : Bond}
    (hp : m.bond? p = some pb) (c : JobId) :
    Rebound (fun k b => if k = p then { b with children := b.children.filter (· != c) } else b) m
      (m.unlink p c) := by
  intro k
  obtain ⟨pj, hpj, rfl⟩ := bond?_eq_some.1 hp
  unfold bond?
  rw [job?_unlink h hpj]
  by_cases hk : k = p
  · subst hk
    rw [hpj]
    simp [Job.bond]
  · cases m.job? k <;> simp [hk]

theorem mem_children_ite {p k c j : JobId} {b : Bond}
    (hc : c ∈ (if k = p then { b with children := b.children.filter (· != j) } else b).children) :
    c ∈ b.children := by
  split at hc
  · exact (List.mem_filter.1 hc).1
  · exact hc

theorem Tree.unlink {j : JobId} (h : Tree (some j) m) {p : JobId} {pb : Bond}
    (hp : m.bond? p = some pb) : Tree (some j) (m.unlink p j) := by
  have hr := rebound_unlink h.links hp j
  refine ⟨⟨?_, ?_, ?_, ?_, ?_⟩, ⟨?_, ?_, ?_, ?_⟩⟩
  · exact hr.held h.links fun k b => by split <;> rfl
  · intro q b' c hq hc
    obtain ⟨b, hq₀, rfl⟩ := hr.old hq
    obtain ⟨cb, hcb, hpar, hlt, hout⟩ := h.links.child hq₀ (mem_children_ite hc)
    refine ⟨_, hr.new hcb, ?_, hlt, fun ho => hout ?_⟩
    · split <;> exact hpar
    · split at ho <;> exact ho
  · intro c cb' q hc hpar hx
    have hcj : c ≠ j := fun he => hx (by rw [he])
    obtain ⟨cb, hcb, rfl⟩ := hr.old hc
    have hpar₀ : cb.parent = some q := by split at hpar <;> exact hpar
    obtain ⟨qb, hq, hmem⟩ := h.links.parent hcb hpar₀ hx
    refine ⟨_, hr.new hq, ?_⟩
    split
    · exact List.mem_filter.2 ⟨hmem, by simpa using hcj⟩
    · exact hmem
  · intro c cb' hc ho hx
    obtain ⟨cb, hcb, rfl⟩ := hr.old hc
    have ho₀ : cb.outcome.isSome := by split at ho <;> exact ho
    have := h.links.orphan hcb ho₀ hx
    split <;> exact this
  · intro k b' hk ho
    obtain ⟨b, hk₀, rfl⟩ := hr.old hk
    have ho₀ : b.outcome.isSome := by split at ho <;> exact ho
    have := h.links.childless hk₀ ho₀
    split <;> simp [this]
  · exact hr.lt h.completions (fun k b => by split <;> rfl) (signals_unlink ..)
  · exact hr.inj h.completions fun k b => by split <;> rfl
  · intro k b' hk ho hx
    obtain ⟨b, hk₀, rfl⟩ := hr.old hk
    have ho₀ : b.outcome.isSome := by split at ho <;> exact ho
    rw [hasFired_congr (signals_unlink ..)]
    have := h.completions.fired hk₀ ho₀ hx
    split <;> exact this
  · intro k b' hk hf
    obtain ⟨b, hk₀, rfl⟩ := hr.old hk
    have hf₀ : m.hasFired b.completion := by
      rw [hasFired_congr (signals_unlink ..)] at hf
      split at hf <;> exact hf
    have := h.completions.settled hk₀ hf₀
    split <;> exact this

/-- Nobody lists a job that has left its parent's list. -/
theorem Tree.unlisted {j : JobId} (h : Tree (some j) m) {b p pb : _} (hj : m.bond? j = some b)
    (hpar : b.parent = some p) (hp : m.bond? p = some pb) {q : JobId} {qb : Bond}
    (hq : (m.unlink p j).bond? q = some qb) : j ∉ qb.children := by
  intro hmem
  obtain ⟨qb₀, hq₀, rfl⟩ := (rebound_unlink h.links hp j).old hq
  obtain ⟨b', hj', hpar', -⟩ := h.links.child hq₀ (mem_children_ite hmem)
  obtain rfl : b = b' := Option.some.inj (hj.symm.trans hj')
  obtain rfl : p = q := Option.some.inj (hpar.symm.trans hpar')
  simp at hmem

/-- The job, which nobody lists any more and whose completion has fired, forgets its parent. -/
theorem Tree.forgetParent {j : JobId} (h : Tree (some j) m) {b : Bond} (hj : m.bond? j = some b)
    (hfree : ∀ {p pb}, m.bond? p = some pb → j ∉ pb.children)
    (hfired : m.hasFired b.completion) :
    Tree none (m.updateJob j ({ · with parent := none })) := by
  have hr : Rebound _ m _ := rebound_updateJob (j := j) (f := ({ · with parent := none }))
    (g := ({ · with parent := none })) (fun _ => rfl)
  have hother : ∀ {k : JobId}, k ≠ j → some j ≠ some k := fun hx he => hx (Option.some.inj he).symm
  refine ⟨⟨?_, ?_, ?_, ?_, ?_⟩, ⟨?_, ?_, ?_, ?_⟩⟩
  · exact hr.held h.links fun k b => by split <;> rfl
  · intro p b' c hp hc
    obtain ⟨b₀, hp₀, rfl⟩ := hr.old hp
    have hc₀ : c ∈ b₀.children := by split at hc <;> exact hc
    have hcj : c ≠ j := fun he => hfree hp₀ (he ▸ hc₀)
    obtain ⟨cb, hcb, hpar, hlt, hout⟩ := h.links.child hp₀ hc₀
    have hnew := hr.new hcb
    rw [if_neg hcj] at hnew
    exact ⟨cb, hnew, hpar, hlt, fun ho => absurd (Option.some.inj (hout ho)).symm hcj⟩
  · intro c cb' p hc hpar _
    obtain ⟨cb, hcb, rfl⟩ := hr.old hc
    split at hpar
    · simp at hpar
    · next hcj =>
      obtain ⟨pb, hp, hmem⟩ := h.links.parent hcb hpar (hother hcj)
      refine ⟨_, hr.new hp, ?_⟩
      split <;> exact hmem
  · intro c cb' hc ho _
    obtain ⟨cb, hcb, rfl⟩ := hr.old hc
    split at ho
    · next hcj => rw [if_pos hcj]
    · next hcj =>
      rw [if_neg hcj]
      exact h.links.orphan hcb ho (hother hcj)
  · intro k b' hk ho
    obtain ⟨b₀, hk₀, rfl⟩ := hr.old hk
    have ho₀ : b₀.outcome.isSome := by split at ho <;> exact ho
    have := h.links.childless hk₀ ho₀
    split <;> exact this
  · exact hr.lt h.completions (fun k b => by split <;> rfl) rfl
  · exact hr.inj h.completions fun k b => by split <;> rfl
  · intro k b' hk ho _
    obtain ⟨b₀, hk₀, rfl⟩ := hr.old hk
    split at ho
    · next hkj =>
      subst hkj
      obtain rfl : b = b₀ := Option.some.inj (hj.symm.trans hk₀)
      rw [if_pos rfl]
      exact hfired
    · next hkj =>
      rw [if_neg hkj]
      exact h.completions.fired hk₀ ho (hother hkj)
  · intro k b' hk hf
    obtain ⟨b₀, hk₀, rfl⟩ := hr.old hk
    have hf₀ : m.hasFired b₀.completion := by split at hf <;> exact hf
    have := h.completions.settled hk₀ hf₀
    split <;> exact this

/-- Settling in stages. -/
theorem settle_eq {j : JobId} {job : Job} (hj : m.job? j = some job) :
    m.settle j =
      let reported := job.failureReported || job.failure.isSome
      let m := m.updateJob j
        ({ · with outcome := some job.finalOutcome, failureReported := reported })
      let m := (m.passOnFailure job).fire job.completion
      let m := job.parent.elim m (m.unlink · j)
      (job.finalOutcome, m.updateJob j ({ · with parent := none })) := by
  unfold settle
  rw [hj]

def Bond.afterSettling (j : JobId) (o : Outcome) (k : JobId) (b : Bond) : Bond :=
  { b with
    outcome := if k = j then some o else b.outcome
    children := b.children.filter (· != j)
    parent := if k = j then none else b.parent }

/-- What the settlement of a job with the completion `c` does, as far as bonds and signals go. -/
structure Settles (j : JobId) (o : Outcome) (c : SignalId) (m m' : Machine ε τ) : Prop where
  tree : Tree none m'
  bond : Rebound (Bond.afterSettling j o) m m'
  fired : ∀ s, m'.hasFired s = true ↔ s = c ∨ m.hasFired s = true
  size : m'.signals.size = m.signals.size
  env : m'.env = m.env

theorem Links.filter_children {x : Option JobId} (h : Links x m) {j k : JobId} {b kb : Bond}
    (hj : m.bond? j = some b) (hk : m.bond? k = some kb) (hpar : b.parent ≠ some k) :
    kb.children.filter (· != j) = kb.children := by
  refine List.filter_eq_self.2 fun c hc => ?_
  obtain ⟨cb, hcb, hcp, -⟩ := h.child hk hc
  have hcj : c ≠ j := by
    rintro rfl
    obtain rfl : b = cb := Option.some.inj (hj.symm.trans hcb)
    exact hpar hcp
  simpa using hcj

/-- The job has its outcome and its completion has fired, but it still stands below its parent. -/
structure Concludes (j : JobId) (job : Job) (m m' : Machine ε τ) : Prop where
  tree : Tree (some j) m'
  bond : Rebound (fun k b => if k = j then { b with outcome := some job.finalOutcome } else b) m m'
  fired : ∀ s, m'.hasFired s = true ↔ s = job.completion ∨ m.hasFired s = true
  size : m'.signals.size = m.signals.size
  env : m'.env = m.env

theorem concludes_fire (h : Tree none m) {j : JobId} {job : Job} (hj : m.job? j = some job)
    (hnone : job.children = []) (reported : Bool) :
    Concludes j job m (((m.updateJob j
      ({ · with outcome := some job.finalOutcome, failureReported := reported })).passOnFailure
        job).fire job.completion) := by
  have hb : m.bond? j = some job.bond := bond?_of_job? hj
  have hset := h.setOutcome hb hnone job.finalOutcome reported
  have hr₁ : Rebound _ m _ := rebound_updateJob (m := m) (j := j)
    (f := ({ · with outcome := some job.finalOutcome, failureReported := reported }))
    (g := ({ · with outcome := some job.finalOutcome })) (fun _ => rfl)
  generalize hm₁ : m.updateJob j _ = m₁ at hset hr₁ ⊢
  have hs₁ : m₁.signals = m.signals := by rw [← hm₁]; rfl
  have he₁ : m₁.env = m.env := by rw [← hm₁]; rfl
  have hpass := sameBonds_passOnFailure m₁ job
  have hj₁ : m₁.bond? j = some { job.bond with outcome := some job.finalOutcome } := by
    simpa using hr₁.new hb
  have hlt : job.completion < (m₁.passOnFailure job).signals.size := by
    rw [hpass.signals]
    exact hset.completions.lt hj₁
  refine ⟨?_, fun k => ?_, fun s => ?_, ?_, ?_⟩
  · refine (hset.of_sameBonds hpass).fire hlt fun {k kb} hk hc => ?_
    rw [hpass.bond] at hk
    obtain rfl : k = j := hset.completions.inj hk hj₁ hc
    obtain rfl := Option.some.inj (hj₁.symm.trans hk)
    rfl
  · rw [bond?_fire, hpass.bond]
    exact hr₁ k
  · rw [hasFired_fire hlt, hasFired_congr (hpass.signals.trans hs₁)]
  · rw [signals_fire_size, hpass.signals, hs₁]
  · rw [env_fire, hpass.env, he₁]

theorem Concludes.bond?_eq {j : JobId} {job : Job} (h : Concludes j job m m')
    (hj : m.job? j = some job) :
    m'.bond? j = some { job.bond with outcome := some job.finalOutcome } := by
  simpa using h.bond.new (bond?_of_job? hj)

theorem Concludes.settles_of_root {j : JobId} {job : Job} (h : Concludes j job m m')
    (hm : Tree none m) (hj : m.job? j = some job) (hpar : job.parent = none) :
    Settles j job.finalOutcome job.completion m (m'.updateJob j ({ · with parent := none })) := by
  have hj' := h.bond?_eq hj
  have hfree : ∀ {p pb}, m'.bond? p = some pb → j ∉ pb.children := by
    intro p pb hp hmem
    obtain ⟨cb, hcb, hcp, -⟩ := h.tree.links.child hp hmem
    obtain rfl := Option.some.inj (hj'.symm.trans hcb)
    simp [Job.bond, hpar] at hcp
  refine ⟨h.tree.forgetParent hj' hfree ((h.fired _).2 (.inl rfl)), fun k => ?_, h.fired, h.size, h.env⟩
  rw [rebound_updateJob (g := ({ · with parent := none })) (fun _ => rfl) k, h.bond k, Option.map_map]
  refine Option.map_congr fun kb hk => ?_
  have hfilter := hm.links.filter_children (bond?_of_job? hj) hk (by simp [Job.bond, hpar])
  by_cases hkj : k = j <;> simp [hkj, Bond.afterSettling, hfilter]

theorem Concludes.settles_of_child {j p : JobId} {job : Job} (h : Concludes j job m m')
    (hm : Tree none m) (hj : m.job? j = some job) (hpar : job.parent = some p) :
    Settles j job.finalOutcome job.completion m
      ((m'.unlink p j).updateJob j ({ · with parent := none })) := by
  have hb : m.bond? j = some job.bond := bond?_of_job? hj
  have hj' := h.bond?_eq hj
  obtain ⟨pb, hp, -⟩ := hm.links.parent hb hpar (by simp)
  have hp' := h.bond.new hp
  have hr := rebound_unlink h.tree.links hp' j
  have hfree : ∀ {q qb}, (m'.unlink p j).bond? q = some qb → j ∉ qb.children :=
    fun hq => h.tree.unlisted hj' hpar hp' hq
  have hfired : ∀ s, (m'.unlink p j).hasFired s = true ↔
      s = job.completion ∨ m.hasFired s = true := by
    intro s
    rw [hasFired_congr (signals_unlink ..), h.fired]
  refine ⟨(h.tree.unlink hp').forgetParent (hr.new hj') hfree ((hfired _).2 (.inl (by split <;> rfl))),
    fun k => ?_, hfired, (congrArg Array.size (signals_unlink ..)).trans h.size,
    (env_unlink ..).trans h.env⟩
  rw [rebound_updateJob (g := ({ · with parent := none })) (fun _ => rfl) k, hr k, h.bond k,
    Option.map_map, Option.map_map]
  refine Option.map_congr fun kb hk => ?_
  by_cases hkp : k = p
  · subst hkp
    by_cases hkj : k = j <;> simp [hkj, Bond.afterSettling]
  · have hfilter := hm.links.filter_children hb hk fun he =>
      hkp (Option.some.inj (hpar.symm.trans he)).symm
    by_cases hkj : k = j <;> simp [hkp, hkj, Bond.afterSettling, hfilter]

theorem settles_settle (h : Tree none m) {j : JobId} {job : Job} (hj : m.job? j = some job)
    (hnone : job.children = []) :
    (m.settle j).1 = job.finalOutcome ∧
      Settles j job.finalOutcome job.completion m (m.settle j).2 := by
  have hconcludes := concludes_fire h hj hnone (job.failureReported || job.failure.isSome)
  rw [settle_eq hj]
  refine ⟨rfl, ?_⟩
  cases hpar : job.parent with
  | none => exact hconcludes.settles_of_root h hj hpar
  | some p => exact hconcludes.settles_of_child h hj hpar

/-- With every job held, the wait for the children changes no list of children. -/
theorem awaitChildren_eq {x : Option JobId} (h : Links x m) (ticket : Ticket) {j : JobId} {job : Job}
    (hj : m.job? j = some job) :
    m.awaitChildren ticket j = (job.children.isEmpty,
      m.updateJob j
        ({ · with idleSleeper := if job.children.isEmpty then none else some ticket })) := by
  have hfilter : job.children.filter m.isHeld = job.children :=
    List.filter_eq_self.2 fun c hc => h.isHeld_child hj hc
  have hupdate : ∀ s : Option Ticket,
      m.updateJob j ({ · with children := job.children, idleSleeper := s }) =
        m.updateJob j ({ · with idleSleeper := s }) := by
    intro s
    rw [updateJob_eq_set hj, updateJob_eq_set hj]
  unfold awaitChildren
  rw [hj]
  simp only [Option.elim_some, hfilter, hupdate]

end RacePuzzle.Machine
