import RacePuzzle.Proofs.Machine.Operations

/-! The ties between jobs on any machine that operations lead to, also where jobs settle before their
children or are held by nobody. Parents are older than their children, and a parent that is still held
lists every held child. -/
namespace RacePuzzle.Machine

variable {ε τ : Type} {m m' : Machine ε τ}

structure Kinship (m : Machine ε τ) : Prop where
  younger : ∀ {p job c}, m.job? p = some job → c ∈ job.children → p < c
  older : ∀ {c job p}, m.job? c = some job → job.parent = some p → p < c
  listed : ∀ {c child p job}, m.job? c = some child → child.isHeld = true → child.parent = some p →
    m.job? p = some job → job.isHeld = true → c ∈ job.children

/-- What the job `k` may become when ties are only undone: a child that is struck off the list is not
held, or it has another parent or none. -/
structure Loosened (m' : Machine ε τ) (k : JobId) (job job' : Job) : Prop where
  parent : ∀ {p}, job'.parent = some p → job.parent = some p
  held : job'.isHeld = true → job.isHeld = true
  children : ∀ {c}, c ∈ job'.children → c ∈ job.children
  struck : ∀ {c child}, c ∈ job.children → c ∉ job'.children → m'.job? c = some child →
    child.isHeld = true → child.parent ≠ some k

theorem loosened_of_children {k : JobId} {job job' : Job} (hc : job'.children = job.children)
    (hp : ∀ {p}, job'.parent = some p → job.parent = some p)
    (hh : job'.isHeld = true → job.isHeld = true) : Loosened m' k job job' :=
  ⟨hp, hh, fun h => hc ▸ h, fun h hn => absurd (hc ▸ h) hn⟩

theorem Kinship.loosened (h : Kinship m)
    (hjobs : ∀ {k job'}, m'.job? k = some job' → ∃ job, m.job? k = some job ∧ Loosened m' k job job') :
    Kinship m' := by
  refine ⟨fun {p job' c} hp hc => ?_, fun {c job' p} hc hp => ?_,
    fun {c child' p job'} hc hheld hp hj hpheld => ?_⟩
  · obtain ⟨job, hjob, hl⟩ := hjobs hp
    exact h.younger hjob (hl.children hc)
  · obtain ⟨job, hjob, hl⟩ := hjobs hc
    exact h.older hjob (hl.parent hp)
  · obtain ⟨child, hchild, hlc⟩ := hjobs hc
    obtain ⟨job, hjob, hlp⟩ := hjobs hj
    have hmem := h.listed hchild (hlc.held hheld) (hlc.parent hp) hjob (hlp.held hpheld)
    by_contra hstruck
    exact hlp.struck hmem hstruck hc hheld hp

theorem Kinship.congr (h : Kinship m) (hb : ∀ j, m'.bond? j = m.bond? j) : Kinship m' := by
  refine h.loosened fun {k job'} hk => ?_
  obtain ⟨job, hjob, he⟩ := bond?_eq_some.1 ((hb k).symm.trans (bond?_of_job? hk))
  have hholders : job.holders = job'.holders := congrArg Bond.holders he
  refine ⟨job, hjob, loosened_of_children (congrArg Bond.children he).symm (fun hp => ?_) ?_⟩
  · exact (congrArg Bond.parent he).trans hp
  · simp only [Job.isHeld, hholders, imp_self]

theorem Kinship.updateJob (h : Kinship m) {j : JobId} {f : Job → Job}
    (hf : ∀ job, m.job? j = some job → Loosened (m.updateJob j f) j job (f job)) :
    Kinship (m.updateJob j f) := by
  refine h.loosened fun {k job'} hk => ?_
  rw [job?_updateJob] at hk
  split at hk
  · next hkj =>
    subst hkj
    obtain ⟨job, hjob, rfl⟩ := Option.map_eq_some_iff.1 hk
    exact ⟨job, hjob, hf job hjob⟩
  · exact ⟨job', hk, loosened_of_children rfl id id⟩

/-- The wait for the children strikes those off that nobody holds. -/
theorem Kinship.awaitChildren (h : Kinship m) (ticket : Ticket) (j : JobId) :
    Kinship (m.awaitChildren ticket j).2 := by
  refine h.updateJob fun job hj => ?_
  refine ⟨id, id, fun {c} hc => ?_, fun {c child} hc hn hchild hheld => ?_⟩
  · rw [hj] at hc
    exact (List.mem_filter.1 hc).1
  · rw [hj] at hn
    have hheld' : m.isHeld c = true := by
      rw [job?_updateJob] at hchild
      split at hchild
      · next hcj =>
        obtain rfl := hcj
        rw [hj] at hchild
        obtain rfl := Option.some.inj hchild
        exact (isHeld_eq hj).trans hheld
      · exact (isHeld_eq hchild).trans hheld
    exact absurd (List.mem_filter.2 ⟨hc, hheld'⟩) hn

/-- A job that leaves its parent `p` strikes off itself and the jobs that nobody holds. -/
theorem exists_of_job?_unlink {p c k : JobId} {job' : Job} (hk : (m.unlink p c).job? k = some job') :
    ∃ job, m.job? k = some job ∧ job'.parent = job.parent ∧ job'.isHeld = job.isHeld ∧
      (job'.children = job.children ∨
        k = p ∧ job'.children = job.children.filter fun d => d != c && m.isHeld d) := by
  unfold unlink at hk
  split at hk
  · exact ⟨job', hk, rfl, rfl, .inl rfl⟩
  · next pj hp =>
    have hp := (Option.filter_eq_some_iff.1 hp).1
    dsimp only at hk
    split at hk
    · next hempty =>
      rw [job?_wakeAll, job?_set hp] at hk
      split at hk
      · next hkp =>
        obtain rfl := Option.some.inj hk
        exact ⟨pj, hkp ▸ hp, rfl, rfl, .inr ⟨hkp, (List.isEmpty_iff.1 hempty).symm⟩⟩
      · exact ⟨job', hk, rfl, rfl, .inl rfl⟩
    · rw [job?_set hp] at hk
      split at hk
      · next hkp =>
        obtain rfl := Option.some.inj hk
        exact ⟨pj, hkp ▸ hp, rfl, rfl, .inr ⟨hkp, rfl⟩⟩
      · exact ⟨job', hk, rfl, rfl, .inl rfl⟩

theorem Kinship.forgetParent (h : Kinship m) (j : JobId) :
    Kinship (m.updateJob j ({ · with parent := none })) :=
  h.updateJob fun _ _ => loosened_of_children rfl nofun id

/-- A job leaves the tree from both ends, its parent's and its own. -/
theorem Kinship.leave (h : Kinship m) (p j : JobId) :
    Kinship ((m.unlink p j).updateJob j ({ · with parent := none })) := by
  have hjobs : ∀ {k job'},
      ((m.unlink p j).updateJob j ({ · with parent := none })).job? k = some job' →
      ∃ job, m.job? k = some job ∧ job'.isHeld = job.isHeld ∧
        (k = j ∧ job'.parent = none ∨ k ≠ j ∧ job'.parent = job.parent) ∧
        (job'.children = job.children ∨
          k = p ∧ job'.children = job.children.filter fun d => d != j && m.isHeld d) := by
    intro k job' hk
    rw [job?_updateJob] at hk
    split at hk
    · next hkj =>
      subst hkj
      obtain ⟨job'', hleft, rfl⟩ := Option.map_eq_some_iff.1 hk
      obtain ⟨job, hjob, -, hheld, hchildren⟩ := exists_of_job?_unlink hleft
      exact ⟨job, hjob, hheld, .inl ⟨rfl, rfl⟩, hchildren⟩
    · next hkj =>
      obtain ⟨job, hjob, hparent, hheld, hchildren⟩ := exists_of_job?_unlink hk
      exact ⟨job, hjob, hheld, .inr ⟨hkj, hparent⟩, hchildren⟩
  refine h.loosened fun {k job'} hk => ?_
  obtain ⟨job, hjob, hheld, hparent, hchildren⟩ := hjobs hk
  refine ⟨job, hjob, fun {q} hq => ?_, fun hh => hheld ▸ hh, fun {c} hc => ?_,
    fun {c child} hc hn hchild hcheld => ?_⟩
  · rcases hparent with ⟨-, hnone⟩ | ⟨-, hsame⟩
    · rw [hnone] at hq
      cases hq
    · exact hsame.symm.trans hq
  · rcases hchildren with hsame | ⟨-, hfilter⟩
    · exact hsame ▸ hc
    · exact (List.mem_filter.1 (hfilter ▸ hc)).1
  · obtain ⟨child₀, hchild₀, hcheld₀, hcparent, -⟩ := hjobs hchild
    rcases hchildren with hsame | ⟨rfl, hfilter⟩
    · exact absurd (hsame ▸ hc) hn
    · -- struck off though it is held: it is the job that leaves
      have hcj : c = j := by
        by_contra hne
        have hcheld : m.isHeld c = true := (isHeld_eq hchild₀).trans (hcheld₀ ▸ hcheld)
        exact hn (hfilter ▸ List.mem_filter.2 ⟨hc, by simp [hne, hcheld]⟩)
      rcases hcparent with ⟨-, hnone⟩ | ⟨hne, -⟩
      · simp [hnone]
      · exact absurd hcj hne

theorem Kinship.settle (h : Kinship m) (j : JobId) : Kinship (m.settle j).2 := by
  cases hj : m.job? j with
  | none =>
    unfold Machine.settle
    rw [hj]
    exact h
  | some job =>
    rw [settle_eq hj]
    dsimp only
    have hended := h.updateJob (j := j) (f := ({ · with
      outcome := some job.finalOutcome,
      failureReported := job.failureReported || job.failure.isSome }))
      fun _ _ => loosened_of_children rfl id id
    have hfired := (hended.congr (sameBonds_passOnFailure _ job).bond).congr
      (bond?_fire _ job.completion)
    cases job.parent with
    | none => exact hfired.forgetParent j
    | some p => exact hfired.leave p j

theorem Kinship.conclude (h : Kinship m) (j : JobId) (result : Completion) :
    Kinship (m.conclude j result) :=
  h.congr (sameBonds_conclude m j result).bond

theorem Kinship.close (h : Kinship m) (ticket : Ticket) (j : JobId) (result : Completion) :
    Kinship (m.close ticket j result).2 := by
  have hidle := (h.conclude j result).awaitChildren ticket j
  unfold Machine.close
  dsimp only
  split
  · exact hidle.settle j
  · exact hidle

/-- A new job has no children yet, and its parent lists it. -/
theorem Kinship.born (h : Kinship m) {new : Job} (hchildless : new.children = [])
    (hnew : m'.job? m.jobs.size = some new)
    (hold : ∀ {k job'}, k ≠ m.jobs.size → m'.job? k = some job' → ∃ job, m.job? k = some job ∧
      job'.parent = job.parent ∧ job'.isHeld = job.isHeld ∧
      job'.children = if new.parent = some k then job.children ++ [m.jobs.size] else job.children)
    (hparent : ∀ p, new.parent = some p → p < m.jobs.size) : Kinship m' := by
  have hnewborn : ∀ {job'}, m'.job? m.jobs.size = some job' → job' = new := fun hk =>
    Option.some.inj (hk.symm.trans hnew)
  refine ⟨fun {p job' c} hp hc => ?_, fun {c job' p} hc hp => ?_,
    fun {c child' p job'} hc hheld hp hj hpheld => ?_⟩
  · by_cases hpn : p = m.jobs.size
    · subst hpn
      rw [hnewborn hp, hchildless] at hc
      cases hc
    · obtain ⟨job, hjob, -, -, hchildren⟩ := hold hpn hp
      rw [hchildren] at hc
      split at hc
      · rcases List.mem_append.1 hc with hc | hc
        · exact h.younger hjob hc
        · exact List.mem_singleton.1 hc ▸ job?_lt hjob
      · exact h.younger hjob hc
  · by_cases hcn : c = m.jobs.size
    · subst hcn
      exact hparent p (hnewborn hc ▸ hp)
    · obtain ⟨job, hjob, hsame, -, -⟩ := hold hcn hc
      exact h.older hjob (hsame ▸ hp)
  · have hpn : p ≠ m.jobs.size := by
      rintro rfl
      by_cases hcn : c = m.jobs.size
      · subst hcn
        exact absurd (hparent _ (hnewborn hc ▸ hp)) (Nat.lt_irrefl _)
      · obtain ⟨child, hchild, hsame, -, -⟩ := hold hcn hc
        exact absurd (h.older hchild (hsame ▸ hp)) (Nat.lt_asymm (job?_lt hchild))
    obtain ⟨job, hjob, -, hjheld, hchildren⟩ := hold hpn hj
    rw [hchildren]
    by_cases hcn : c = m.jobs.size
    · subst hcn
      rw [if_pos (hnewborn hc ▸ hp)]
      exact List.mem_append_right _ (List.mem_singleton_self _)
    · obtain ⟨child, hchild, hsame, hcheld, -⟩ := hold hcn hc
      have hmem := h.listed hchild (hcheld ▸ hheld) (hsame ▸ hp) hjob (hjheld ▸ hpheld)
      split
      · exact List.mem_append_left _ hmem
      · exact hmem

theorem Kinship.child (h : Kinship m) {p : JobId} {pj : Job} (hp : m.job? p = some pj)
    (kind : JobRole) : Kinship (m.child p kind).2 := by
  refine h.born rfl ((job?_child hp kind _).trans (if_pos rfl)) (fun {k job'} hne hk => ?_) fun q hq => ?_
  · rw [job?_child hp, if_neg hne] at hk
    split at hk
    · next hkp =>
      obtain rfl := Option.some.inj hk
      exact ⟨pj, hkp ▸ hp, rfl, rfl, (if_pos (congrArg some hkp.symm)).symm⟩
    · next hkp => exact ⟨job', hk, rfl, rfl, by simp [Ne.symm hkp]⟩
  · obtain rfl := Option.some.inj hq
    exact job?_lt hp

theorem Kinship.root (h : Kinship m) (kind : JobRole) : Kinship (m.root kind).2 := by
  refine h.born rfl (Array.getElem?_push_size ..) (fun {k job'} hne hk => ?_) nofun
  have hlt : k < m.jobs.size := by
    have hsize : (m.root kind).2.jobs.size = m.jobs.size + 1 := Array.size_push ..
    have hle : k < m.jobs.size + 1 := hsize ▸ job?_lt hk
    omega
  refine ⟨job', ?_, rfl, rfl, by simp⟩
  exact (Array.getElem?_eq_getElem hlt).trans ((Array.getElem?_push_lt hlt ..).symm.trans hk)

theorem Kinship.beginWait (h : Kinship m) (ticket : Ticket) (j : JobId)
    (pending : WaitId → OpenWait) (register : Machine ε τ → Nat → WaitId → Machine ε τ)
    (hregister : ∀ (m : Machine ε τ) waiter wait, (register m waiter wait).jobs = m.jobs) :
    Kinship (m.beginWait ticket j pending register).2 := by
  have hopened := Kinship.updateJob (m := { m with
    timetable := (m.timetable.allocate.2.newWait (some ticket)).2 }) (h.congr fun _ => rfl) (j := j)
    (f := fun job => { job with
      pending := job.pending ++
        [(m.timetable.allocate.1, pending (m.timetable.allocate.2.newWait (some ticket)).1)] })
    fun _ _ => loosened_of_children rfl id id
  exact hopened.congr fun k => by simp only [bond?, job?, Machine.beginWait, hregister]

theorem Kinship.beginDelay (h : Kinship m) (ticket : Ticket) (j : JobId) (duration : Nat) :
    Kinship (m.beginDelay ticket j duration).2 := by
  unfold Machine.beginDelay
  split
  · exact h.congr fun _ => rfl
  · exact h.beginWait ticket j (fun _ => .timer) (fun m waiter wait =>
      { m with timetable := m.timetable.addTimer waiter _ waiter wait }) fun _ _ _ => rfl

theorem Kinship.beginJoin (h : Kinship m) (ticket : Ticket) (j : JobId) (s : SignalId) :
    Kinship (m.beginJoin ticket j s).2 := by
  unfold Machine.beginJoin
  split
  · exact h
  · split
    · exact h
    · exact h.beginWait ticket j .signal (fun m _ wait =>
        { m with signals := m.signals.modify s fun s => { s with waiters := s.waiters ++ [wait] } })
        fun _ _ _ => rfl

theorem Kinship.beginAwait (h : Kinship m) (ticket : Ticket) (j : JobId) (s : SignalId) :
    Kinship (m.beginAwait ticket j s).2 := by
  unfold Machine.beginAwait
  split
  · exact h
  · exact h.beginJoin ticket j s

theorem Kinship.resumption (h : Kinship m) (ticket : Ticket) (on : Suspension) :
    Kinship (m.resumption ticket on).2 := by
  cases on with
  | entry j => exact h
  | wait j waiter w =>
    unfold Machine.resumption
    dsimp only
    split
    · exact h
    · exact h.congr (bond?_forget m j waiter)
    · exact h.congr fun _ => rfl
  | children j => exact h.awaitChildren ticket j
  | turn => exact h

theorem Operation.kinship (h : Operation m m') (hk : Kinship m) : Kinship m' := by
  cases h with
  | root kind => exact hk.root kind
  | child kind hheld =>
    obtain ⟨pj, hp, -⟩ := exists_of_isHeld hheld
    exact hk.child hp kind
  | hold j =>
    refine hk.updateJob fun job _ => ?_
    split
    · next hheld => exact loosened_of_children rfl id fun _ => hheld
    · exact loosened_of_children rfl id id
  | release j =>
    refine hk.updateJob fun job _ => loosened_of_children rfl id fun hheld => ?_
    simp only [Job.isHeld, decide_eq_true_eq] at hheld ⊢
    omega
  | cancel j => exact hk.congr (sameBonds_cancel m j).bond
  | fail j kind => exact hk.congr (sameBonds_fail m j kind).bond
  | close ticket j result => exact hk.close ticket j result
  | awaitChildren ticket j => exact hk.awaitChildren ticket j
  | settle j => exact hk.settle j
  | beginDelay ticket j duration => exact hk.beginDelay ticket j duration
  | beginJoin ticket j s => exact hk.beginJoin ticket j s
  | beginAwait ticket j s => exact hk.beginAwait ticket j s
  | resumption ticket on => exact hk.resumption ticket on
  | newSignal => exact hk.congr fun _ => rfl
  | fire s => exact hk.congr (bond?_fire m s)
  | advance => exact hk.congr fun _ => rfl
  | schedule timetable dispatcher env => exact hk.congr fun _ => rfl

theorem Reachable.kinship (h : Reachable m) : Kinship m := by
  obtain ⟨env, h⟩ := h
  induction h with
  | refl => exact ⟨nofun, nofun, nofun⟩
  | tail _ hop ih => exact hop.kinship ih

end RacePuzzle.Machine
