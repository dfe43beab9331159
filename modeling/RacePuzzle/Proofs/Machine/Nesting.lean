import RacePuzzle.Proofs.Machine.Recast

/-! Machines of which the second has one more scope, right inside its outermost one, that stands for the
outermost scope of the first. Whatever happens to both of them leaves them alike, and nothing happens to
the outermost scope of the first as long as it has no tasks of its own. -/
namespace RacePuzzle

def inward : Nat → Nat
  | 0 => 2
  | 1 => 1
  | n + 2 => n + 3

theorem inward_of_two_le {n : Nat} (h : 2 ≤ n) : inward n = n + 1 := by
  obtain ⟨k, rfl⟩ := Nat.exists_eq_add_of_le' h
  rfl

@[simp] theorem inward_inj {i j : Nat} : inward i = inward j ↔ i = j := by
  rcases i with _ | _ | i <;> rcases j with _ | _ | j <;> simp [inward]

/-- The second array has what the first has and one entry more, each entry as `f` says. -/
structure Nests {α β : Type} (f : Nat → α → β) (a : Array α) (a' : Array β) : Prop where
  two : 2 ≤ a.size
  size : a'.size = a.size + 1
  get : ∀ i, a'[inward i]? = (a[i]?).map (f i)

namespace Nests

variable {α β : Type} {f : Nat → α → β} {a : Array α} {a' : Array β}

theorem inward_size (h : Nests f a a') : inward a.size = a'.size :=
  (inward_of_two_le h.two).trans h.size.symm

theorem modify (h : Nests f a a') (i : Nat) {k : α → α} {k' : β → β}
    (hk : ∀ x, f i (k x) = k' (f i x)) : Nests f (a.modify i k) (a'.modify (inward i) k') := by
  refine ⟨by simpa using h.two, by simpa using h.size, fun j => ?_⟩
  rw [Array.getElem?_modify, Array.getElem?_modify, h.get]
  simp only [inward_inj]
  split
  · next hij =>
    subst hij
    rw [Option.map_map, Option.map_map]
    exact congrArg (Option.map · _) (funext fun x => (hk x).symm)
  · rfl

theorem push (h : Nests f a a') (x : α) : Nests f (a.push x) (a'.push (f a.size x)) := by
  refine ⟨by simpa using Nat.le_succ_of_le h.two, by simpa using h.size, fun j => ?_⟩
  rw [Array.getElem?_push, Array.getElem?_push, ← h.inward_size, h.get]
  simp only [inward_inj]
  split
  · next hj =>
    subst hj
    rfl
  · rfl

end Nests

def Job.nested (i : JobId) (j : Job) : Job :=
  { j with
    children := j.children.map inward
    parent := if i = 0 then some 0 else j.parent.map inward
    completion := inward j.completion }

/-- The outermost job is a scope without tasks, and neither is it cancelled nor has it failed. -/
structure Aloof (jobs : Array Job) : Prop where
  root : ∃ job : Job, jobs[0]? = some job ∧ job.kind = .scope ∧ job.cancelled = false ∧
    job.failure = none
  tasks : ∀ {c : JobId} {job : Job}, jobs[c]? = some job → job.kind = .task → job.parent ≠ some 0
  children : ∀ {p c : JobId} {job : Job}, jobs[p]? = some job → c ∈ job.children → 2 ≤ c

/-- A job that changes stays of its kind and in its place, and the outermost one is not harmed. -/
structure Job.Keeps (i : JobId) (j new : Job) : Prop where
  kind : new.kind = j.kind
  parent : new.parent = j.parent ∨ new.parent = none
  children : ∀ c ∈ new.children, c ∈ j.children ∨ 2 ≤ c
  root : i = 0 → new.cancelled = j.cancelled ∧ new.failure = j.failure

namespace Aloof

variable {jobs : Array Job}

theorem modify (h : Aloof jobs) (i : JobId) {f : Job → Job} (hf : ∀ j : Job, j.Keeps i (f j)) :
    Aloof (jobs.modify i f) := by
  have hget {k : JobId} {new : Job} (hk : (jobs.modify i f)[k]? = some new) :
      ∃ j, jobs[k]? = some j ∧ (new = j ∨ k = i ∧ j.Keeps i new) := by
    rw [Array.getElem?_modify] at hk
    split at hk
    · next hik =>
      obtain ⟨j, hj, rfl⟩ := Option.map_eq_some_iff.1 hk
      exact ⟨j, hj, .inr ⟨hik.symm, hf j⟩⟩
    · exact ⟨new, hk, .inl rfl⟩
  refine ⟨?_, fun {c new} hc hkind => ?_, fun {p c new} hp hmem => ?_⟩
  · obtain ⟨job, hjob, hkind, hcancelled, hfailure⟩ := h.root
    by_cases hi : i = 0
    · obtain ⟨hc, hf'⟩ := (hf job).root hi
      exact ⟨f job, by rw [Array.getElem?_modify, if_pos hi, hjob]; rfl, (hf job).kind.trans hkind,
        hc.trans hcancelled, hf'.trans hfailure⟩
    · exact ⟨job, by rw [Array.getElem?_modify, if_neg hi, hjob], hkind, hcancelled, hfailure⟩
  · obtain ⟨j, hj, rfl | ⟨-, hkeeps⟩⟩ := hget hc
    · exact h.tasks hj hkind
    · rcases hkeeps.parent with he | he
      · rw [he]
        exact h.tasks hj (hkeeps.kind.symm.trans hkind)
      · rw [he]
        exact nofun
  · obtain ⟨j, hj, rfl | ⟨-, hkeeps⟩⟩ := hget hp
    · exact h.children hj hmem
    · exact (hkeeps.children c hmem).elim (h.children hj) id

theorem push (h : Aloof jobs) {new : Job} (hnew : new.kind = .task → new.parent ≠ some 0)
    (hchildren : new.children = []) : Aloof (jobs.push new) := by
  have hget {k : JobId} {j : Job} (hk : (jobs.push new)[k]? = some j) :
      jobs[k]? = some j ∨ j = new := by
    rw [Array.getElem?_push] at hk
    split at hk
    · exact .inr (Option.some.inj hk).symm
    · exact .inl hk
  refine ⟨?_, fun hc hkind => ?_, fun hp hmem => ?_⟩
  · obtain ⟨job, hjob, hroot⟩ := h.root
    have hne : 0 ≠ jobs.size := Nat.ne_of_lt (Array.getElem?_eq_some_iff.1 hjob).1
    exact ⟨job, by rw [Array.getElem?_push, if_neg hne, hjob], hroot⟩
  · rcases hget hc with hc | rfl
    · exact h.tasks hc hkind
    · exact hnew hkind
  · rcases hget hp with hp | rfl
    · exact h.children hp hmem
    · rw [hchildren] at hmem
      cases hmem

end Aloof

def Suspension.inward : Suspension → Suspension
  | .entry job => .entry (RacePuzzle.inward job)
  | .wait job k w => .wait (RacePuzzle.inward job) k w
  | .children job => .children (RacePuzzle.inward job)
  | .turn => .turn

def WaitStart.inward : WaitStart → WaitStart
  | .suspended on => .suspended on.inward
  | start => start

namespace Machine

variable {ε ε' τ τ' : Type} {F : τ → τ'} {m : Machine ε τ} {m' : Machine ε' τ'}

/-- The second machine has a scope more, and `F` says what its tasks are. -/
structure Nested (F : τ → τ') (m : Machine ε τ) (m' : Machine ε' τ') : Prop where
  timetable : m'.timetable = m.timetable
  signals : Nests (fun _ signal => signal) m.signals m'.signals
  jobs : Nests Job.nested m.jobs m'.jobs
  dispatcher : m'.dispatcher = m.dispatcher.recast F
  aloof : Aloof m.jobs

namespace Nested

theorem now (h : Nested F m m') : m'.now = m.now := congrArg Timetable.now h.timetable

theorem job? (h : Nested F m m') (job : JobId) :
    m'.job? (inward job) = (m.job? job).map (Job.nested job) := h.jobs.get job

theorem isCancelled (h : Nested F m m') (job : JobId) :
    m'.isCancelled (inward job) = m.isCancelled job := by
  rw [Machine.isCancelled, h.job?, Option.any_map]
  rfl

theorem isHeld (h : Nested F m m') (job : JobId) : m'.isHeld (inward job) = m.isHeld job := by
  rw [Machine.isHeld, h.job?, Option.any_map]
  rfl

theorem hasFired (h : Nested F m m') (signal : SignalId) :
    m'.hasFired (inward signal) = m.hasFired signal := by
  rw [Machine.hasFired, h.signals.get, Option.map_id']
  rfl

theorem completion (h : Nested F m m') (job : JobId) :
    (m'.job? (inward job)).map (·.completion) = ((m.job? job).map (·.completion)).map inward := by
  rw [h.job?, Option.map_map, Option.map_map]
  rfl

theorem filter_isHeld (h : Nested F m m') (jobs : List JobId) :
    (jobs.map inward).filter m'.isHeld = (jobs.filter m.isHeld).map inward := by
  rw [List.filter_map]
  exact congrArg (List.map inward) (List.filter_congr fun job _ => h.isHeld job)

/-- Whoever hears of a failure hears of it on both machines. -/
theorem listener? (h : Nested F m m') {job : JobId} {j : Job} (hj : j.kind = .task → job ≠ 0) :
    m'.listener? (j.nested job) = (m.listener? j).map inward := by
  have habsorbs (p : JobId) : (m'.job? (inward p)).any (·.kind.absorbsFailures) =
      (m.job? p).any (·.kind.absorbsFailures) := by
    rw [h.job?, Option.any_map]
    rfl
  have hkind : (j.nested job).kind = j.kind := rfl
  unfold Machine.listener?
  rw [hkind]
  cases hk : j.kind with
  | task =>
    have hparent : (j.nested job).parent = j.parent.map inward := if_neg (hj hk)
    rw [hparent]
    cases j.parent with
    | none => rfl
    | some p =>
      simp only [Option.map_some, habsorbs]
      split <;> rfl
  | scope | supervisor | background => rfl

theorem withTimetable (h : Nested F m m') (t : Timetable) :
    Nested F { m with timetable := t } { m' with timetable := t } := { h with timetable := rfl }

theorem withDispatcher (h : Nested F m m') (d : Dispatcher τ) :
    Nested F { m with dispatcher := d } { m' with dispatcher := d.recast F } :=
  { h with dispatcher := rfl }

theorem withEnv (h : Nested F m m') (env : ε) (env' : ε') :
    Nested F { m with env := env } { m' with env := env' } := { h with }

theorem wake (h : Nested F m m') (ticket : Ticket) : Nested F (m.wake ticket) (m'.wake ticket) :=
  { h with
    dispatcher := (congrArg (Dispatcher.wake · ticket) h.dispatcher).trans
      (Dispatcher.recast_wake ..).symm }

theorem wakeAll (h : Nested F m m') (tickets : List Ticket) :
    Nested F (m.wakeAll tickets) (m'.wakeAll tickets) :=
  { h with
    dispatcher := (congrArg (Dispatcher.wakeAll · tickets) h.dispatcher).trans
      (Dispatcher.recast_wakeAll ..).symm }

theorem spawn (h : Nested F m m') (task : τ) : Nested F (m.spawn task) (m'.spawn (F task)) :=
  { h with
    dispatcher := (congrArg (Dispatcher.spawn · (F task)) h.dispatcher).trans
      (Dispatcher.recast_spawn ..).symm }

theorem updateJob (h : Nested F m m') (job : JobId) {f g : Job → Job}
    (hfg : ∀ j, (f j).nested job = g (j.nested job)) (hf : ∀ j : Job, j.Keeps job (f j)) :
    Nested F (m.updateJob job f) (m'.updateJob (inward job) g) :=
  { h with
    jobs := h.jobs.modify job hfg
    aloof := h.aloof.modify job hf }

theorem modifySignal (h : Nested F m m') (signal : SignalId) (f : Signal → Signal) :
    Nested F { m with signals := m.signals.modify signal f }
      { m' with signals := m'.signals.modify (inward signal) f } :=
  { h with signals := h.signals.modify signal fun _ => rfl }

theorem newSignal (h : Nested F m m') :
    m'.newSignal.1 = inward m.newSignal.1 ∧ Nested F m.newSignal.2 m'.newSignal.2 :=
  ⟨h.signals.inward_size.symm, { h with signals := h.signals.push .unfired }⟩

theorem fire (h : Nested F m m') (signal : SignalId) :
    Nested F (m.fire signal) (m'.fire (inward signal)) := by
  have hsame : m'.signals[inward signal]? = m.signals[signal]? :=
    (h.signals.get signal).trans Option.map_id'
  rcases hs : m.signals[signal]? with _ | ⟨fired, waiters⟩
  · rw [hs] at hsame
    rw [Machine.fire, Machine.fire, hs, hsame]
    exact h
  · rw [hs] at hsame
    cases fired with
    | true => rwa [fire_of_fired hs, fire_of_fired hsame]
    | false =>
      rw [fire_of_unfired hs, fire_of_unfired hsame, h.timetable, setIfInBounds_eq_modify,
        setIfInBounds_eq_modify]
      exact ((h.modifySignal signal fun _ => ⟨true, []⟩).withTimetable _).wakeAll _

theorem interrupt (h : Nested F m m') (wait : Nat × OpenWait) :
    Nested F (m.interrupt wait) (m'.interrupt wait) := by
  unfold Machine.interrupt
  rw [h.timetable]
  exact (h.withTimetable _).wakeAll _

theorem interruptAll (h : Nested F m m') (waits : List (Nat × OpenWait)) :
    Nested F (m.interruptAll waits) (m'.interruptAll waits) := by
  induction waits generalizing m m' with
  | nil => exact h
  | cons wait rest ih => exact ih (h.interrupt wait)

theorem job_of (h : Nested F m m') {job : JobId} {j : Job} (hj : m.jobs[job]? = some j) :
    m'.jobs[inward job]? = some (j.nested job) := by
  rw [h.jobs.get, hj]
  rfl

theorem cancelOne (h : Nested F m m') {job : JobId} {j : Job} (hj : m.jobs[job]? = some j)
    (hne : job ≠ 0) : Nested F (m.cancelOne job j) (m'.cancelOne (inward job) (j.nested job)) := by
  rw [cancelOne_eq hj, cancelOne_eq (h.job_of hj)]
  have hmarked := h.updateJob job (f := ({ · with cancelled := true, pending := [] }))
    (g := ({ · with cancelled := true, pending := [] })) (fun _ => rfl)
    fun _ => ⟨rfl, .inl rfl, fun _ => .inl, fun he => absurd he hne⟩
  exact hmarked.interruptAll j.pending

theorem cancelAll (h : Nested F m m') {jobs : List JobId} (hjobs : 0 ∉ jobs) :
    Nested F (m.cancelAll jobs) (m'.cancelAll (jobs.map inward)) := by
  fun_induction Machine.cancelAll m jobs generalizing m' with
  | case1 m =>
    rw [List.map_nil, Machine.cancelAll]
    exact h
  | case2 m job rest hj ih =>
    rw [List.map_cons, cancelAll_cons, h.jobs.get, hj]
    exact ih h (mt (.tail _) hjobs)
  | case3 m job rest j hj hc hlt ih =>
    have hne : job ≠ 0 := fun he => hjobs (he ▸ .head _)
    have hchildren : 0 ∉ j.children ++ rest := fun hmem =>
      (List.mem_append.1 hmem).elim (fun hmem => absurd (h.aloof.children hj hmem) (by decide))
        (mt (.tail _) hjobs)
    have ih := ih (h.cancelOne hj hne) hchildren
    rw [List.map_append] at ih
    have hc' : ((j.nested job).isHeld && !(j.nested job).cancelled) = true := hc
    rw [List.map_cons, cancelAll_cons, h.job_of hj]
    dsimp only
    rw [if_pos hc']
    exact ih
  | case4 m job rest j hj hc ih =>
    have hc' : ¬ ((j.nested job).isHeld && !(j.nested job).cancelled) = true := hc
    rw [List.map_cons, cancelAll_cons, h.job_of hj]
    dsimp only
    rw [if_neg hc']
    exact ih h (mt (.tail _) hjobs)

theorem cancel (h : Nested F m m') {job : JobId} (hne : job ≠ 0) :
    Nested F (m.cancel job) (m'.cancel (inward job)) :=
  h.cancelAll (mt List.mem_singleton.1 hne.symm)

/-- Nobody tells the outermost job of a failure. -/
theorem listener_ne_zero {j : Job} (hj : j.kind = .task → j.parent ≠ some 0) {parent : JobId}
    (hlistener : m.listener? j = some parent) : parent ≠ 0 := by
  unfold Machine.listener? at hlistener
  split at hlistener
  · next p hkind hparent =>
    split at hlistener
    · cases hlistener
    · rintro rfl
      exact hj hkind (hparent.trans hlistener)
  · cases hlistener

theorem recordFailure (h : Nested F m m') {job : JobId} {j : Job} (hj : m.jobs[job]? = some j)
    (hne : job ≠ 0) (kind : ExceptionKind) :
    Nested F ((m.recordFailure job j kind).cancel job)
      ((m'.recordFailure (inward job) (j.nested job) kind).cancel (inward job)) := by
  have hrecorded := h.updateJob job
    (f := ({ · with failure := some kind, failureReported := !j.cancelled }))
    (g := ({ · with failure := some kind, failureReported := !j.cancelled })) (fun _ => rfl)
    fun _ => ⟨rfl, .inl rfl, fun _ => .inl, fun he => absurd he hne⟩
  rw [updateJob_eq_set hj, updateJob_eq_set (h.job_of hj)] at hrecorded
  exact hrecorded.cancel hne

theorem fail (h : Nested F m m') {job : JobId} (hne : job ≠ 0) (kind : ExceptionKind) :
    Nested F (m.fail job kind) (m'.fail (inward job) kind) := by
  fun_induction Machine.fail m job kind generalizing m' with
  | case1 m job hj =>
    rw [fail_eq, h.jobs.get, hj]
    exact h
  | case2 m job j hj hf _ _ _ =>
    rename_i hc
    have hf' : ((j.nested job).isHeld && (j.nested job).failure.isNone) = true := hf
    have hc' : (j.nested job).cancelled = true := hc
    rw [fail_eq, h.job_of hj]
    dsimp only
    rw [if_pos hf', if_pos hc']
    exact h.recordFailure hj hne kind
  | case3 m job j hj hf _ _ _ hc =>
    rename_i hnone
    have hf' : ((j.nested job).isHeld && (j.nested job).failure.isNone) = true := hf
    have hc' : ¬ (j.nested job).cancelled = true := hc
    rw [fail_eq, h.job_of hj]
    dsimp only
    rw [if_pos hf', if_neg hc', h.listener? fun _ => hne, hnone]
    exact h.recordFailure hj hne kind
  | case4 m job j hj hf _ _ _ hc parent hparent =>
    rename_i ih
    have hf' : ((j.nested job).isHeld && (j.nested job).failure.isNone) = true := hf
    have hc' : ¬ (j.nested job).cancelled = true := hc
    rw [fail_eq m', h.job_of hj]
    dsimp only
    rw [if_pos hf', if_neg hc', h.listener? fun _ => hne, hparent]
    exact ih (h.recordFailure hj hne kind) (listener_ne_zero (h.aloof.tasks hj) hparent)
  | case5 m job j hj hf =>
    have hf' : ¬ ((j.nested job).isHeld && (j.nested job).failure.isNone) = true := hf
    rw [fail_eq, h.job_of hj]
    dsimp only
    rw [if_neg hf']
    exact h.cancel hne

theorem conclude (h : Nested F m m') {job : JobId} (hne : job ≠ 0) (result : Completion) :
    Nested F (m.conclude job result) (m'.conclude (inward job) result) := by
  cases result with
  | ok => exact h
  | error kind =>
    cases kind with
    | cancellation => exact h.cancel hne
    | _ => exact h.fail hne _

theorem awaitChildren (h : Nested F m m') (ticket : Ticket) (job : JobId) :
    (m'.awaitChildren ticket (inward job)).1 = (m.awaitChildren ticket job).1 ∧
      Nested F (m.awaitChildren ticket job).2 (m'.awaitChildren ticket (inward job)).2 := by
  have hchildren : ((m'.job? (inward job)).elim [] (·.children)).filter m'.isHeld =
      (((m.job? job).elim [] (·.children)).filter m.isHeld).map inward := by
    rw [← h.filter_isHeld, h.job?]
    cases m.job? job <;> rfl
  have hold : ∀ c ∈ ((m.job? job).elim [] (·.children)).filter m.isHeld, 2 ≤ c := fun c hc => by
    have hmem := (List.mem_filter.1 hc).1
    cases hj : m.job? job with
    | none =>
      rw [hj] at hmem
      cases hmem
    | some j =>
      rw [hj] at hmem
      exact h.aloof.children hj hmem
  unfold Machine.awaitChildren
  dsimp only
  rw [hchildren]
  generalize ((m.job? job).elim [] (·.children)).filter m.isHeld = children at hold ⊢
  rw [List.isEmpty_map]
  exact ⟨rfl, h.updateJob job (fun _ => rfl)
    fun _ => ⟨rfl, .inl rfl, fun c hc => .inr (hold c hc), fun _ => ⟨rfl, rfl⟩⟩⟩

theorem unlink (h : Nested F m m') (parent child : JobId) :
    Nested F (m.unlink parent child) (m'.unlink (inward parent) (inward child)) := by
  cases hp : m.job? parent with
  | none => 
    rw [Machine.unlink, Machine.unlink, h.job?, hp]
    exact h
  | some p =>
    have hset (children : List JobId) (hchildren : ∀ c ∈ children, c ∈ p.children)
        (sleeper : Option Ticket) : Nested F
        { m with jobs := (m.jobs.setIfInBounds parent
            { p with children := children, idleSleeper := sleeper }) }
        { m' with jobs := (m'.jobs.setIfInBounds (inward parent)
            { p.nested parent with children := children.map inward, idleSleeper := sleeper }) } := by
      have hupdated := h.updateJob parent
        (f := ({ · with children := children, idleSleeper := sleeper }))
        (g := ({ · with children := children.map inward, idleSleeper := sleeper })) (fun _ => rfl)
        fun _ => ⟨rfl, .inl rfl, fun c hc => .inr (h.aloof.children hp (hchildren c hc)),
          fun _ => ⟨rfl, rfl⟩⟩
      rwa [updateJob_eq_set hp, updateJob_eq_set (h.job_of hp)] at hupdated
    have hothers : (p.nested parent).children.filter (fun c => c != inward child && m'.isHeld c) =
        (p.children.filter fun c => c != child && m.isHeld c).map inward := by
      rw [show (p.nested parent).children = p.children.map inward from rfl, List.filter_map]
      refine congrArg (List.map inward) (List.filter_congr fun c _ => ?_)
      rw [Function.comp_apply, h.isHeld]
      exact congrArg (· && _) (by simp only [bne, Bool.not_inj_iff, beq_eq_beq, inward_inj])
    unfold Machine.unlink
    rw [h.job?, hp, Option.map_some]
    cases hheld : p.isHeld with
    | false =>
      have hheld' : (p.nested parent).isHeld = false := hheld
      simp only [Option.filter_some, hheld, hheld', Bool.false_eq_true, if_false]
      exact h
    | true =>
      have hheld' : (p.nested parent).isHeld = true := hheld
      simp only [Option.filter_some, hheld, hheld', if_true]
      rw [hothers, List.isEmpty_map]
      split
      · exact (hset [] (fun _ hc => absurd hc List.not_mem_nil) none).wakeAll _
      · exact hset _ (fun c hc => (List.mem_filter.1 hc).1) p.idleSleeper

theorem passOnFailure (h : Nested F m m') (job : JobId) {j : Job}
    (hj : j.kind = .task → job ≠ 0 ∧ j.parent ≠ some 0) :
    Nested F (m.passOnFailure j) (m'.passOnFailure (j.nested job)) := by
  have hfailure : (j.nested job).failure = j.failure := rfl
  have hreported : (j.nested job).failureReported = j.failureReported := rfl
  unfold Machine.passOnFailure
  rw [h.listener? fun hkind => (hj hkind).1, hfailure, hreported]
  cases j.failure with
  | none => exact h
  | some kind =>
    cases hlistener : m.listener? j with
    | none => exact h
    | some parent =>
      dsimp only [Option.map_some]
      split
      · exact h
      · exact h.fail (listener_ne_zero (fun hkind => (hj hkind).2) hlistener) kind

theorem settle (h : Nested F m m') {job : JobId} (hne : job ≠ 0) :
    (m'.settle (inward job)).1 = (m.settle job).1 ∧
      Nested F (m.settle job).2 (m'.settle (inward job)).2 := by
  cases hj : m.job? job with
  | none =>
    rw [Machine.settle, Machine.settle, h.job?, hj]
    exact ⟨rfl, h⟩
  | some j =>
    rw [settle_eq hj, settle_eq (h.job_of hj)]
    refine ⟨rfl, Nested.updateJob ?_ job (fun j => ?_)
      fun _ => ⟨rfl, .inr rfl, fun _ => .inl, fun _ => ⟨rfl, rfl⟩⟩⟩
    · have hended := h.updateJob job (f := ({ · with
          outcome := some j.finalOutcome
          failureReported := j.failureReported || j.failure.isSome }))
        (g := ({ · with
          outcome := some j.finalOutcome
          failureReported := j.failureReported || j.failure.isSome })) (fun _ => rfl)
        fun _ => ⟨rfl, .inl rfl, fun _ => .inl, fun _ => ⟨rfl, rfl⟩⟩
      have hfired := (hended.passOnFailure job (j := j)
        fun hkind => ⟨hne, h.aloof.tasks hj hkind⟩).fire j.completion
      have hparent : (j.nested job).parent = j.parent.map inward := if_neg hne
      rw [hparent]
      cases j.parent with
      | none => exact hfired
      | some parent => exact hfired.unlink parent job
    · simp only [Job.nested, if_neg hne, Option.map_none]

theorem close (h : Nested F m m') (ticket : Ticket) {job : JobId} (hne : job ≠ 0)
    (result : Completion) :
    (m'.close ticket (inward job) result).1 = (m.close ticket job result).1 ∧
      Nested F (m.close ticket job result).2 (m'.close ticket (inward job) result).2 := by
  obtain ⟨hidle, hwaited⟩ := (h.conclude hne result).awaitChildren ticket job
  unfold Machine.close
  dsimp only
  rw [hidle]
  split
  · obtain ⟨houtcome, hsettled⟩ := hwaited.settle hne
    exact ⟨congrArg some houtcome, hsettled⟩
  · exact ⟨rfl, hwaited⟩

theorem beginWait (h : Nested F m m') (ticket : Ticket) (job : JobId) (pending : WaitId → OpenWait)
    {register : Machine ε τ → Nat → WaitId → Machine ε τ}
    {register' : Machine ε' τ' → Nat → WaitId → Machine ε' τ'}
    (hregister : ∀ {m : Machine ε τ} {m' : Machine ε' τ'} waiter wait, Nested F m m' →
      Nested F (register m waiter wait) (register' m' waiter wait)) :
    (m'.beginWait ticket (inward job) pending register').1 =
        (m.beginWait ticket job pending register).1.inward ∧
      Nested F (m.beginWait ticket job pending register).2
        (m'.beginWait ticket (inward job) pending register').2 := by
  unfold Machine.beginWait
  rw [h.timetable]
  refine ⟨rfl, hregister _ _ ((h.withTimetable _).updateJob job (fun _ => rfl) fun _ => ?_)⟩
  exact ⟨rfl, .inl rfl, fun _ => .inl, fun _ => ⟨rfl, rfl⟩⟩

theorem beginDelay (h : Nested F m m') (ticket : Ticket) (job : JobId) (duration : Nat) :
    (m'.beginDelay ticket (inward job) duration).1 = (m.beginDelay ticket job duration).1.inward ∧
      Nested F (m.beginDelay ticket job duration).2
        (m'.beginDelay ticket (inward job) duration).2 := by
  unfold Machine.beginDelay
  rw [h.isCancelled, h.now]
  split
  · exact ⟨rfl, h.wake ticket⟩
  · have hregister (deadline : Nat) {m : Machine ε τ} {m' : Machine ε' τ'} (waiter wait : Nat)
        (h : Nested F m m') : Nested F
          { m with timetable := m.timetable.addTimer waiter deadline waiter wait }
          { m' with timetable := m'.timetable.addTimer waiter deadline waiter wait } := by
      rw [h.timetable]
      exact h.withTimetable _
    obtain ⟨hon, hbegun⟩ := h.beginWait ticket job (fun _ => .timer) (hregister _)
    exact ⟨congrArg WaitStart.suspended hon, hbegun⟩

theorem beginJoin (h : Nested F m m') (ticket : Ticket) (job : JobId) (signal : SignalId) :
    (m'.beginJoin ticket (inward job) (inward signal)).1 =
        (m.beginJoin ticket job signal).1.inward ∧
      Nested F (m.beginJoin ticket job signal).2
        (m'.beginJoin ticket (inward job) (inward signal)).2 := by
  unfold Machine.beginJoin
  rw [h.isCancelled, h.hasFired]
  split
  · exact ⟨rfl, h⟩
  · split
    · exact ⟨rfl, h⟩
    · obtain ⟨hon, hbegun⟩ := h.beginWait ticket job .signal
        fun {m m'} _ wait (h : Nested F m m') => h.modifySignal signal
          fun s => { s with waiters := s.waiters ++ [wait] }
      exact ⟨congrArg WaitStart.suspended hon, hbegun⟩

theorem beginAwait (h : Nested F m m') (ticket : Ticket) (job : JobId) (signal : SignalId) :
    (m'.beginAwait ticket (inward job) (inward signal)).1 =
        (m.beginAwait ticket job signal).1.inward ∧
      Nested F (m.beginAwait ticket job signal).2
        (m'.beginAwait ticket (inward job) (inward signal)).2 := by
  unfold Machine.beginAwait
  rw [h.hasFired]
  split
  · exact ⟨rfl, h⟩
  · exact h.beginJoin ticket job signal

theorem resumption (h : Nested F m m') (ticket : Ticket) (on : Suspension) :
    (m'.resumption ticket on.inward).1 = (m.resumption ticket on).1 ∧
      Nested F (m.resumption ticket on).2 (m'.resumption ticket on.inward).2 := by
  cases on with
  | entry job =>
    unfold Machine.resumption Suspension.inward
    dsimp only
    rw [h.isCancelled]
    exact ⟨rfl, h⟩
  | wait job waiter wait =>
    unfold Machine.resumption Suspension.inward
    dsimp only
    rw [h.timetable, h.isCancelled]
    split
    · exact ⟨rfl, h⟩
    · exact ⟨rfl, h.updateJob job (fun _ => rfl)
        fun _ => ⟨rfl, .inl rfl, fun _ => .inl, fun _ => ⟨rfl, rfl⟩⟩⟩
    · exact ⟨rfl, h.withTimetable _⟩
  | children job =>
    obtain ⟨hidle, hwaited⟩ := h.awaitChildren ticket job
    unfold Machine.resumption Suspension.inward
    dsimp only
    rw [hidle]
    exact ⟨rfl, hwaited⟩
  | turn => exact ⟨rfl, h⟩

theorem advance (h : Nested F m m') : Nested F m.advance.2 m'.advance.2 := by
  unfold Machine.advance
  dsimp only
  rw [h.timetable]
  exact (h.withTimetable _).wakeAll _

theorem child (h : Nested F m m') (parent : JobId) (kind : JobRole) (hkind : kind = .task → parent ≠ 0) :
    (m'.child (inward parent) kind).1 = inward (m.child parent kind).1 ∧
      Nested F (m.child parent kind).2 (m'.child (inward parent) kind).2 := by
  have htwo := h.jobs.two
  have hne : m.jobs.size ≠ 0 := by omega
  have hjob : inward m.jobs.size = m'.jobs.size := h.jobs.inward_size
  have hnested : Job.nested m.jobs.size
      ⟨kind, 1, m.isCancelled parent, none, false, none, [], [], some parent, none,
        m.signals.size⟩ =
      ⟨kind, 1, m'.isCancelled (inward parent), none, false, none, [], [], some (inward parent),
        none, m'.signals.size⟩ := by
    rw [← h.signals.inward_size, h.isCancelled, Job.nested, if_neg hne]
    rfl
  have hjobs := h.jobs.push
    ⟨kind, 1, m.isCancelled parent, none, false, none, [], [], some parent, none, m.signals.size⟩
  rw [hnested] at hjobs
  have hmade : Nested F (m.newJob kind (some parent)).2 (m'.newJob kind (some (inward parent))).2 :=
    { h with
      signals := h.signals.push .unfired
      jobs := hjobs
      aloof := h.aloof.push (fun hk hp => hkind hk (Option.some.inj hp)) rfl }
  refine ⟨hjob.symm, ?_⟩
  rw [child_eq, child_eq]
  refine hmade.updateJob parent (fun j => ?_)
    fun _ => ⟨rfl, .inl rfl, fun c hc => ?_, fun _ => ⟨rfl, rfl⟩⟩
  · have hmap : (j.children ++ [m.jobs.size]).map inward = j.children.map inward ++ [m'.jobs.size] := by
      rw [List.map_append, List.map_singleton, hjob]
    exact congrArg (fun children => { j.nested parent with children := children }) hmap
  · refine (List.mem_append.1 hc).imp id fun hc => ?_
    rw [List.mem_singleton.1 hc]
    exact htwo

end Nested

end Machine

end RacePuzzle
