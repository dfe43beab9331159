import RacePuzzle.Proofs.Machine.Outline
import RacePuzzle.Proofs.Machine.Seating
import RacePuzzle.Proofs.Machine.Settling

/-! Two machines of which the second has what shows of the first. Whatever happens to jobs, signals and
waits that are hidden leaves the second machine as it is; what happens to others happens to it too. -/
namespace RacePuzzle

namespace Casting

variable {C C' : Casting}

/-- An open wait shows where its wait does, and its waiter has the number of the wait. -/
inductive Opens (C : Casting) : Nat × OpenWait → Option (Nat × OpenWait) → Prop
  | timer {w o} : C.wait w o → Opens C (w, .timer) (o.map (·, .timer))
  | signal {w o} : C.wait w o → Opens C (w, .signal w) (o.map fun w' => (w', .signal w'))

theorem Opens.mono {p : Nat × OpenWait} {q : Option (Nat × OpenWait)} (h : C.Opens p q)
    (hC : C.Extends C') : C'.Opens p q := by
  cases h with
  | timer hw => exact .timer (hC.wait hw)
  | signal hw => exact .signal (hC.wait hw)

theorem Opens.wait {p q : Nat × OpenWait} (h : C.Opens p (some q)) : C.wait p.1 (some q.1) := by
  generalize ho : some q = o at h
  cases h with
  | timer hw | signal hw =>
    obtain ⟨w', rfl, rfl⟩ := Option.map_eq_some_iff.1 ho.symm
    exact hw

end Casting

variable {C C' : Casting}

/-- Both signals have fired or neither, and the waits that show wait for both. -/
structure Signal.Sees (C : Casting) (s : Signal) (o : Option Signal) : Prop where
  fired : ∀ s' ∈ o, s'.fired = s.fired
  waiters : Sifted C.wait s.waiters (o.elim [] (·.waiters))

theorem Signal.Sees.mono {s : Signal} {o : Option Signal} (h : s.Sees C o) (hC : C.Extends C') :
    s.Sees C' o :=
  ⟨h.fired, h.waiters.mono fun _ _ => hC.wait⟩

structure Job.Alike (j j' : Job) : Prop where
  kind : j'.kind = j.kind
  holders : j'.holders = j.holders
  cancelled : j'.cancelled = j.cancelled
  failure : j'.failure = j.failure
  failureReported : j'.failureReported = j.failureReported
  outcome : j'.outcome = j.outcome

theorem Job.Alike.finalOutcome {j j' : Job} (h : j.Alike j') : j'.finalOutcome = j.finalOutcome := by
  rw [Job.finalOutcome, h.failure, h.cancelled]
  rfl

theorem Job.Alike.isHeld {j j' : Job} (h : j.Alike j') : j'.isHeld = j.isHeld := by
  rw [Job.isHeld, h.holders]
  rfl

/-- What shows of a job. A job that shows has hidden children only if it is the background, for which
nobody waits; a hidden job is below another one or below the background. -/
structure Job.Sees (C : Casting) (j : Job) (o : Option Job) : Prop where
  alike : o.elim True j.Alike
  held : j.isHeld = true
  pending : Sifted C.Opens j.pending (o.elim [] (·.pending))
  children : Sifted C.job j.children (o.elim [] (·.children))
  exposed : o.isSome → j.kind ≠ .background → ∀ c ∈ j.children, ∃ c', C.job c (some c')
  parent : o.elim (∀ p ∈ j.parent, p = C.host ∨ C.job p none)
    fun j' => Option.Rel (fun p p' => C.job p (some p')) j.parent j'.parent
  sleeper : Sifted C.seat j.idleSleeper.toList (o.elim [] (·.idleSleeper.toList))
  awake : j.kind = .background → j.idleSleeper = none
  completion : C.signal j.completion (o.map (·.completion))

theorem Job.Sees.mono {j : Job} {o : Option Job} (h : j.Sees C o) (hC : C.Extends C') :
    j.Sees C' o where
  alike := h.alike
  held := h.held
  pending := h.pending.mono fun _ _ hp => hp.mono hC
  children := h.children.mono fun _ _ => hC.job
  exposed ho hkind c hc := (h.exposed ho hkind c hc).imp fun _ => hC.job
  parent := by
    have hparent := h.parent
    cases o with
    | none => exact fun p hp => (hparent p hp).imp hC.host.symm.subst hC.job
    | some j' =>
      rw [Option.elim_some] at hparent ⊢
      generalize j.parent = p at hparent ⊢
      generalize j'.parent = p' at hparent ⊢
      cases hparent with
      | none => exact .none
      | some hp => exact .some (hC.job hp)
  sleeper := h.sleeper.mono fun _ _ => hC.seat
  awake := h.awake
  completion := hC.signal h.completion

namespace Job.Sees

variable {j : Job} {o : Option Job}

theorem cancel (h : j.Sees C o) :
    Job.Sees C { j with cancelled := true, pending := [] }
      (o.map ({ · with cancelled := true, pending := [] })) := by
  cases o with
  | none => exact { h with pending := .nil }
  | some j' => exact { h with alike := { h.alike with cancelled := rfl }, pending := .nil }

theorem fail (h : j.Sees C o) (kind : ExceptionKind) :
    Job.Sees C { j with failure := some kind, failureReported := !j.cancelled }
      (o.map fun j' => { j' with failure := some kind, failureReported := !j'.cancelled }) := by
  cases o with
  | none => exact { h with }
  | some j' =>
    have hreported : (!j'.cancelled) = !j.cancelled := congrArg (!·) h.alike.cancelled
    exact { h with alike := { h.alike with failure := rfl, failureReported := hreported } }

theorem settle (h : j.Sees C o) (outcome : Outcome) (reported : Bool) :
    Job.Sees C { j with outcome := some outcome, failureReported := reported }
      (o.map ({ · with outcome := some outcome, failureReported := reported })) := by
  cases o with
  | none => exact { h with }
  | some j' => exact { h with alike := { h.alike with outcome := rfl, failureReported := rfl } }

theorem orphan (h : j.Sees C o) :
    Job.Sees C { j with parent := none } (o.map ({ · with parent := none })) := by
  cases o with
  | none => exact { h with parent := nofun }
  | some j' => exact { h with alike := { h.alike with }, parent := .none }

theorem await (h : j.Sees C o) (children children' : List JobId) (sleeper sleeper' : Option Ticket)
    (hchildren : Sifted C.job children (o.elim [] fun _ => children'))
    (hexposed : o.isSome → j.kind ≠ .background → ∀ c ∈ children, ∃ c', C.job c (some c'))
    (hsleeper : Sifted C.seat sleeper.toList (o.elim [] fun _ => sleeper'.toList))
    (hawake : j.kind = .background → sleeper = none) :
    Job.Sees C { j with children := children, idleSleeper := sleeper }
      (o.map ({ · with children := children', idleSleeper := sleeper' })) := by
  cases o with
  | none =>
    exact { h with children := hchildren, exposed := nofun, sleeper := hsleeper, awake := hawake }
  | some j' =>
    exact { h with
      alike := { h.alike with }
      children := hchildren
      exposed := hexposed
      sleeper := hsleeper
      awake := hawake }

/-- A hidden child is added, below the background or below a hidden job. -/
theorem addHidden (h : j.Sees C o) {c : JobId} (hc : C.job c none)
    (hhost : j.kind = .background ∨ o = none) :
    Job.Sees C { j with children := j.children ++ [c] } o := by
  have hchildren := h.children.append (.single hc)
  rw [Option.toList_none, List.append_nil] at hchildren
  cases o with
  | none => exact { h with children := hchildren, exposed := nofun }
  | some j' =>
    have hkind := hhost.resolve_right nofun
    exact { h with
      alike := { h.alike with }, children := hchildren, exposed := fun _ hne => absurd hkind hne }

theorem addShown {j' : Job} (h : j.Sees C (some j')) {c c' : JobId} (hc : C.job c (some c')) :
    Job.Sees C { j with children := j.children ++ [c] }
      (some { j' with children := j'.children ++ [c'] }) := by
  have hexposed : j.kind ≠ .background → ∀ d ∈ j.children ++ [c], ∃ d', C.job d (some d') := by
    intro hkind d hd
    rcases List.mem_append.1 hd with hd | hd
    · exact h.exposed rfl hkind d hd
    · exact ⟨c', (List.mem_singleton.1 hd).symm ▸ hc⟩
  exact { h with
    alike := { h.alike with }
    children := h.children.append (.single hc)
    exposed := fun _ => hexposed }

theorem pend (h : j.Sees C o) (pending pending' : List (Nat × OpenWait))
    (hpending : Sifted C.Opens pending (o.elim [] fun _ => pending')) :
    Job.Sees C { j with pending := pending } (o.map ({ · with pending := pending' })) := by
  cases o with
  | none => exact { h with pending := hpending }
  | some j' => exact { h with alike := { h.alike with }, pending := hpending }

end Job.Sees

/-- What one sees of the environment and of the tasks of a machine. -/
structure View (ε τ : Type) where
  env : Casting → ε → ε → Prop
  task : Casting → τ → Option τ → Prop
  env_mono : ∀ {C C' e e'}, C.Extends C' → env C e e' → env C' e e'
  task_mono : ∀ {C C' x o}, C.Extends C' → task C x o → task C' x o

namespace Machine

variable {ε τ : Type} {V : View ε τ} {m m' : Machine ε τ} {job : JobId} {o : Option JobId}
  {j : Job}

/-- What shows of `m` is in `m'`. -/
structure Conceals (V : View ε τ) (C : Casting) (m m' : Machine ε τ) : Prop where
  times : C.Times m.timetable m'.timetable
  signals : C.signal.Lists (Signal.Sees C) m.signals m'.signals
  jobs : C.job.Lists (Job.Sees C) m.jobs m'.jobs
  host : ∀ i, (m.jobs[i]?).map (·.kind) = some .background ↔ i = C.host
  stage : ∃ host', C.job C.host (some host')
  dispatcher : m.dispatcher.Sees (V.task C) C.seat m'.dispatcher
  env : V.env C m.env m'.env

namespace Conceals

theorem wake {ticket : Ticket} {p : Option Ticket} (h : Conceals V C m m') (hp : C.seat ticket p) :
    Conceals V C (m.wake ticket) (p.elim m' m'.wake) := by
  have hwake := h.dispatcher.wake hp
  cases p with
  | none => exact { h with dispatcher := hwake }
  | some ticket' => exact { h with dispatcher := hwake }

theorem wakeAll (h : Conceals V C m m') {l k : List Ticket} (hl : Sifted C.seat l k) :
    Conceals V C (m.wakeAll l) (m'.wakeAll k) :=
  { h with dispatcher := h.dispatcher.wakeAll hl }

theorem rouse (h : Conceals V C m m') {r r' : List Ticket × Timetable} (hr : C.Rouses r r') :
    Conceals V C ({ m with timetable := r.2 }.wakeAll r.1) ({ m' with timetable := r'.2 }.wakeAll r'.1) := by
  have htimes : Conceals V C { m with timetable := r.2 } { m' with timetable := r'.2 } :=
    { h with times := hr.times }
  exact htimes.wakeAll hr.sleepers

theorem exists_job (h : Conceals V C m m') (hj : C.job job o) :
    ∃ j, m.jobs[job]? = some j ∧ j.Sees C (o.bind (m'.jobs[·]?)) :=
  h.jobs.exists_get hj

theorem exists_jobs {job' : JobId} (h : Conceals V C m m') (hj : C.job job (some job')) :
    ∃ j j', m.jobs[job]? = some j ∧ m'.jobs[job']? = some j' ∧ j.Sees C (some j') :=
  h.jobs.exists_get_shown hj

theorem exists_shown {job' : JobId} (h : Conceals V C m m') (hcast : C.job job (some job'))
    (hj : m.jobs[job]? = some j) : ∃ j', m'.jobs[job']? = some j' ∧ j.Sees C (some j') := by
  obtain ⟨k, j', hk, hj', hsees⟩ := h.exists_jobs hcast
  obtain rfl := Option.some.inj (hj.symm.trans hk)
  exact ⟨j', hj', hsees⟩

end Conceals

theorem map_kind_updateJob (m : Machine ε τ) (job : JobId) {f : Job → Job}
    (hkind : ∀ j, (f j).kind = j.kind) (i : JobId) :
    ((m.updateJob job f).jobs[i]?).map (·.kind) = (m.jobs[i]?).map (·.kind) := by
  rw [updateJob, Array.getElem?_modify]
  split
  · simp only [Option.map_map, Function.comp_def, hkind]
  · rfl

namespace Conceals

theorem updateJob (h : Conceals V C m m') (hcast : C.job job o) {f g : Job → Job}
    (hkind : ∀ j, (f j).kind = j.kind)
    (hf : ∀ {x y}, m.jobs[job]? = some x → o.bind (m'.jobs[·]?) = y → x.Sees C y →
      (f x).Sees C (y.map g)) :
    Conceals V C (m.updateJob job f) (o.elim m' (m'.updateJob · g)) := by
  have hjobs := h.jobs.modify hcast hf
  have hhost i := (map_kind_updateJob m job hkind i).symm ▸ h.host i
  cases o with
  | none => exact { h with jobs := hjobs, host := hhost }
  | some job' => exact { h with jobs := hjobs, host := hhost }

/-- A job changes, and what it shows as changes with it. -/
theorem updateShown {job' : JobId} (h : Conceals V C m m') (hcast : C.job job (some job'))
    {f g : Job → Job} (hkind : ∀ j, (f j).kind = j.kind)
    (hf : ∀ {x y}, m.jobs[job]? = some x → m'.jobs[job']? = some y → x.Sees C (some y) →
      (f x).Sees C (some (g y))) :
    Conceals V C (m.updateJob job f) (m'.updateJob job' g) := by
  refine h.updateJob hcast hkind fun {x y} hx hy hs => ?_
  obtain ⟨x', hx', hsees⟩ := h.exists_shown hcast hx
  obtain rfl : some x' = y := hx'.symm.trans hy
  exact hf hx hx' hsees

/-- A job changes and shows as it did. -/
theorem updateLeft (h : Conceals V C m m') (hcast : C.job job o) {f : Job → Job}
    (hkind : ∀ j, (f j).kind = j.kind)
    (hf : ∀ {x}, m.jobs[job]? = some x → x.Sees C (o.bind (m'.jobs[·]?)) →
      (f x).Sees C (o.bind (m'.jobs[·]?))) :
    Conceals V C (m.updateJob job f) m' :=
  { h with
    jobs := h.jobs.modifyLeft hcast hf
    host := fun i => (map_kind_updateJob m job hkind i).symm ▸ h.host i }

theorem isCancelled {job' : JobId} (h : Conceals V C m m') (hj : C.job job (some job')) :
    m'.isCancelled job' = m.isCancelled job := by
  obtain ⟨j, j', hj, hj', hsees⟩ := h.exists_jobs hj
  rw [Machine.isCancelled, Machine.isCancelled, Machine.job?, Machine.job?, hj, hj']
  exact hsees.alike.cancelled

theorem isHeld (h : Conceals V C m m') (hcast : C.job job o) : m.isHeld job = true := by
  obtain ⟨j, hj, hsees⟩ := h.exists_job hcast
  rw [Machine.isHeld, Machine.job?, hj]
  exact hsees.held

theorem isHeld_shown {job' : JobId} (h : Conceals V C m m') (hcast : C.job job (some job')) :
    m'.isHeld job' = true := by
  obtain ⟨j, j', -, hj', hsees⟩ := h.exists_jobs hcast
  rw [Machine.isHeld, Machine.job?, hj', Option.any_some, hsees.alike.isHeld]
  exact hsees.held

theorem interrupt (h : Conceals V C m m') {p : Nat × OpenWait} {q : Option (Nat × OpenWait)}
    (hp : C.Opens p q) : Conceals V C (m.interrupt p) (q.elim m' m'.interrupt) := by
  cases hp with
  | @timer w o hw =>
    have hr := h.rouse (h.times.cancelTimer hw)
    cases o with
    | none => exact hr
    | some w' => exact hr
  | @signal w o hw =>
    have hr := h.rouse (h.times.resolve hw .cancelled nofun)
    cases o with
    | none => exact hr
    | some w' => exact hr

theorem interruptAll (h : Conceals V C m m') {l l' : List (Nat × OpenWait)} (hl : Sifted C.Opens l l') :
    Conceals V C (m.interruptAll l) (m'.interruptAll l') := by
  induction hl generalizing m m' with
  | nil => exact h
  | hidden hp _ ih => exact ih (h.interrupt hp)
  | shown hp _ ih => exact ih (h.interrupt hp)

theorem cancelOne (h : Conceals V C m m') (hcast : C.job job o) (hj : m.jobs[job]? = some j) :
    Conceals V C (m.cancelOne job j)
      (o.elim m' fun job' => (m'.jobs[job']?).elim m' (m'.cancelOne job')) := by
  have hmarked := h.updateJob hcast (f := ({ · with cancelled := true, pending := [] }))
    (g := ({ · with cancelled := true, pending := [] })) (fun _ => rfl) fun _ _ hs => hs.cancel
  have hcancelled := hmarked.interruptAll (h.jobs.get hcast hj).pending
  rw [cancelOne_eq hj]
  cases o with
  | none => exact hcancelled
  | some job' =>
    obtain ⟨j', hj', -⟩ := h.exists_shown hcast hj
    rw [Option.elim_some, hj', Option.elim_some, cancelOne_eq hj']
    rwa [Option.bind_some, hj'] at hcancelled

/-- Jobs and all below them are cancelled on both sides, and hidden ones in between. -/
theorem cancelAll (h : Conceals V C m m') {jobs jobs' : List JobId} (hjobs : Sifted C.job jobs jobs') :
    Conceals V C (m.cancelAll jobs) (m'.cancelAll jobs') := by
  fun_induction Machine.cancelAll m jobs generalizing m' jobs' with
  | case1 m =>
    cases hjobs
    rw [Machine.cancelAll]
    exact h
  | case2 m job rest hnone ih =>
    obtain ⟨o, -, hcast, -, -⟩ := hjobs.uncons
    obtain ⟨j, hj, -⟩ := h.exists_job hcast
    cases hnone.symm.trans hj
  | case3 m job rest j hj hopen _ ih =>
    obtain ⟨o, rest', hcast, hrest, rfl⟩ := hjobs.uncons
    have hone := h.cancelOne hcast hj
    cases o with
    | none => exact ih hone ((h.jobs.get hcast hj).children.append hrest)
    | some job' =>
      obtain ⟨j', hj', hsees⟩ := h.exists_shown hcast hj
      rw [Option.elim_some, hj', Option.elim_some] at hone
      have hopen' : (j'.isHeld && !j'.cancelled) = true := by
        rwa [hsees.alike.cancelled, hsees.alike.isHeld]
      rw [Option.toList_some, List.singleton_append, cancelAll_cons, hj']
      dsimp only
      rw [if_pos hopen']
      exact ih hone (hsees.children.append hrest)
  | case4 m job rest j hj hclosed ih =>
    obtain ⟨o, rest', hcast, hrest, rfl⟩ := hjobs.uncons
    cases o with
    | none => exact ih h hrest
    | some job' =>
      obtain ⟨j', hj', hsees⟩ := h.exists_shown hcast hj
      have hclosed' : ¬ (j'.isHeld && !j'.cancelled) = true := by
        rwa [hsees.alike.cancelled, hsees.alike.isHeld]
      rw [Option.toList_some, List.singleton_append, cancelAll_cons, hj']
      dsimp only
      rw [if_neg hclosed']
      exact ih h hrest

theorem cancel (h : Conceals V C m m') (hcast : C.job job o) :
    Conceals V C (m.cancel job) (o.elim m' m'.cancel) := by
  have hall := h.cancelAll (.single hcast)
  cases o with
  | none =>
    rwa [Option.toList_none, Machine.cancelAll] at hall
  | some job' => exact hall

/-- Whoever hears of the failure of a hidden job is hidden: the background does not listen. -/
theorem listenerHidden (h : Conceals V C m m') (hsees : j.Sees C none) {parent : JobId}
    (hlistener : m.listener? j = some parent) : C.job parent none := by
  unfold listener? at hlistener
  split at hlistener
  · next p hkind heq =>
    split at hlistener
    · cases hlistener
    · next habsorbs =>
      obtain rfl := Option.some.inj hlistener
      rcases hsees.parent p heq with hhost | hhidden
      · obtain ⟨j, hj, hbackground⟩ := Option.map_eq_some_iff.1 ((h.host p).2 hhost)
        refine absurd ?_ habsorbs
        rw [Machine.job?, hj, Option.any_some, hbackground]
        rfl
      · exact hhidden
  · cases hlistener

/-- Whoever hears of the failure of a job that shows does so on both sides. -/
theorem listenerShown {j' : Job} (h : Conceals V C m m') (hsees : j.Sees C (some j')) :
    Option.Rel (fun p p' => C.job p (some p')) (m.listener? j) (m'.listener? j') := by
  have hparent := hsees.parent
  rw [Option.elim_some] at hparent
  unfold listener?
  rw [hsees.alike.kind]
  generalize j.parent = p at hparent ⊢
  generalize j'.parent = p' at hparent ⊢
  cases hparent with
  | none => cases j.kind <;> exact .none
  | @some p p' hp =>
    obtain ⟨pj, pj', hpj, hpj', hpsees⟩ := h.exists_jobs hp
    have hsame : (m'.job? p').any (·.kind.absorbsFailures) = (m.job? p).any (·.kind.absorbsFailures) := by
      rw [Machine.job?, Machine.job?, hpj, hpj', Option.any_some, Option.any_some, hpsees.alike.kind]
    cases j.kind with
    | task =>
      dsimp only
      rw [hsame]
      split
      · exact .none
      · exact .some hp
    | _ => exact .none

end Conceals

theorem recordFailure_eq (m : Machine ε τ) (hj : m.jobs[job]? = some j) (kind : ExceptionKind) :
    m.recordFailure job j kind =
      m.updateJob job fun j => { j with failure := some kind, failureReported := !j.cancelled } := by
  rw [updateJob_eq_set hj]
  rfl

namespace Conceals

theorem recordFailure (h : Conceals V C m m') (hcast : C.job job o) (hj : m.jobs[job]? = some j)
    (kind : ExceptionKind) :
    Conceals V C (m.recordFailure job j kind)
      (o.elim m' fun job' => (m'.jobs[job']?).elim m' fun j' => m'.recordFailure job' j' kind) := by
  have hrecorded := h.updateJob hcast
    (f := fun j => { j with failure := some kind, failureReported := !j.cancelled })
    (g := fun j => { j with failure := some kind, failureReported := !j.cancelled })
    (fun _ => rfl) fun _ _ hs => hs.fail kind
  rw [recordFailure_eq m hj]
  cases o with
  | none => exact hrecorded
  | some job' =>
    obtain ⟨j', hj', -⟩ := h.exists_shown hcast hj
    rw [Option.elim_some, hj', Option.elim_some, recordFailure_eq m' hj']
    exact hrecorded

/-- A job that shows fails, and is cancelled for that. -/
theorem failOne {job' : JobId} {j' : Job} (h : Conceals V C m m') (hcast : C.job job (some job'))
    (hj : m.jobs[job]? = some j) (hj' : m'.jobs[job']? = some j') (kind : ExceptionKind) :
    Conceals V C ((m.recordFailure job j kind).cancel job) ((m'.recordFailure job' j' kind).cancel job') := by
  have hfailed := (h.recordFailure hcast hj kind).cancel hcast
  rwa [Option.elim_some, Option.elim_some, hj', Option.elim_some] at hfailed

theorem failHidden (h : Conceals V C m m') (hcast : C.job job none) (kind : ExceptionKind) :
    Conceals V C (m.fail job kind) m' := by
  fun_induction Machine.fail m job kind with
  | case1 m job hnone => exact h
  | case2 m job j hj _ _ _ _ _ => exact (h.recordFailure hcast hj kind).cancel hcast
  | case3 m job j hj _ _ _ _ _ _ => exact (h.recordFailure hcast hj kind).cancel hcast
  | case4 m job j hj _ _ _ _ _ parent hlistener ih =>
    have hhidden := h.listenerHidden (h.jobs.get hcast hj) hlistener
    exact ih ((h.recordFailure hcast hj kind).cancel hcast) hhidden
  | case5 m job j hj _ => exact h.cancel hcast

end Conceals

/-- The failure of a job, told by a job that is equally far. -/
theorem fail_of_alike {job' : JobId} {j' : Job} (hj' : m'.jobs[job']? = some j') (halike : j.Alike j')
    (kind : ExceptionKind) :
    m'.fail job' kind =
      if j.isHeld && j.failure.isNone then
        if j.cancelled then (m'.recordFailure job' j' kind).cancel job'
        else
          match m'.listener? j' with
          | none => (m'.recordFailure job' j' kind).cancel job'
          | some parent => ((m'.recordFailure job' j' kind).cancel job').fail parent kind
      else m'.cancel job' := by
  have hfail := m'.fail_eq job' kind
  rw [hj'] at hfail
  dsimp only at hfail
  rw [halike.isHeld, halike.failure, halike.cancelled] at hfail
  exact hfail

namespace Conceals

theorem failShown {job' : JobId} (h : Conceals V C m m') (hcast : C.job job (some job'))
    (kind : ExceptionKind) : Conceals V C (m.fail job kind) (m'.fail job' kind) := by
  fun_induction Machine.fail m job kind generalizing m' job' with
  | case1 m job hnone =>
    obtain ⟨j, hj, -⟩ := h.exists_job hcast
    cases hnone.symm.trans hj
  | case2 m job j hj hfirst _ _ _ =>
    rename_i hcancelled
    obtain ⟨j', hj', hsees⟩ := h.exists_shown hcast hj
    rw [fail_of_alike hj' hsees.alike, if_pos hfirst, if_pos hcancelled]
    exact h.failOne hcast hj hj' kind
  | case3 m job j hj hfirst _ _ _ hcancelled =>
    rename_i hlistener
    obtain ⟨j', hj', hsees⟩ := h.exists_shown hcast hj
    have hhears := h.listenerShown hsees
    rw [hlistener] at hhears
    rw [fail_of_alike hj' hsees.alike, if_pos hfirst, if_neg hcancelled]
    generalize m'.listener? j' = l at hhears ⊢
    cases hhears
    exact h.failOne hcast hj hj' kind
  | case4 m job j hj hfirst _ _ _ hcancelled parent hlistener =>
    rename_i ih
    obtain ⟨j', hj', hsees⟩ := h.exists_shown hcast hj
    have hhears := h.listenerShown hsees
    rw [hlistener] at hhears
    rw [fail_of_alike hj' hsees.alike, if_pos hfirst, if_neg hcancelled]
    generalize m'.listener? j' = l at hhears ⊢
    cases hhears with
    | some hparent => exact ih (h.failOne hcast hj hj' kind) hparent
  | case5 m job j hj hlater =>
    obtain ⟨j', hj', hsees⟩ := h.exists_shown hcast hj
    rw [fail_of_alike hj' hsees.alike, if_neg hlater]
    exact h.cancel hcast

theorem fail (h : Conceals V C m m') (hcast : C.job job o) (kind : ExceptionKind) :
    Conceals V C (m.fail job kind) (o.elim m' (m'.fail · kind)) := by
  cases o with
  | none => exact h.failHidden hcast kind
  | some job' => exact h.failShown hcast kind

theorem conclude (h : Conceals V C m m') (hcast : C.job job o) (result : Completion) :
    Conceals V C (m.conclude job result) (o.elim m' (m'.conclude · result)) := by
  match result with
  | .ok () => cases o <;> exact h
  | .error .cancellation => exact h.cancel hcast
  | .error .generic | .error .custom => exact h.fail hcast _

theorem ne_host (h : Conceals V C m m') (hcast : C.job job none) : job ≠ C.host := by
  rintro rfl
  obtain ⟨host', hhost⟩ := h.stage
  cases h.jobs.fits.unique hhost hcast

theorem host_iff (h : Conceals V C m m') (hj : m.jobs[job]? = some j) :
    j.kind = .background ↔ job = C.host := by
  rw [← h.host job, hj, Option.map_some, Option.some.injEq]

end Conceals

theorem awaitChildren_of_job (m : Machine ε τ) (hj : m.jobs[job]? = some j) (ticket : Ticket) :
    m.awaitChildren ticket job =
      ((j.children.filter m.isHeld).isEmpty, m.updateJob job ({ · with
        children := j.children.filter m.isHeld
        idleSleeper := if (j.children.filter m.isHeld).isEmpty then none else some ticket })) := by
  rw [awaitChildren, Machine.job?, hj]
  rfl

/-- The children that the job has left when one of them settles. -/
def others (m : Machine ε τ) (child : JobId) (j : Job) : List JobId :=
  j.children.filter fun c => c != child && m.isHeld c

theorem unlink_eq_updateJob (m : Machine ε τ) (hj : m.jobs[job]? = some j) (hheld : j.isHeld = true)
    (child : JobId) :
    m.unlink job child = (m.updateJob job ({ · with
        children := m.others child j
        idleSleeper := if (m.others child j).isEmpty then none else j.idleSleeper })).wakeAll
      (if (m.others child j).isEmpty then j.idleSleeper.toList else []) := by
  rw [updateJob_eq_set hj, unlink, Machine.job?, hj, Option.filter_some_pos hheld]
  dsimp only
  rw [← others]
  cases hothers : m.others child j with
  | nil => rfl
  | cons c cs => rfl

namespace Conceals

/-- A hidden job has other children, and another task waits for them. -/
theorem relistHidden (h : Conceals V C m m') (hcast : C.job job none) {children : List JobId}
    (hchildren : Sifted C.job children []) {sleeper : Option Ticket}
    (hsleeper : Sifted C.seat sleeper.toList []) :
    Conceals V C (m.updateJob job ({ · with children := children, idleSleeper := sleeper })) m' := by
  refine h.updateLeft hcast (fun _ => rfl) fun {x} hx hs => ?_
  refine hs.await children [] sleeper none hchildren nofun hsleeper fun hkind => ?_
  exact absurd ((h.host_iff hx).1 hkind) (h.ne_host hcast)

theorem awaitChildrenHidden (h : Conceals V C m m') (hcast : C.job job none) {ticket : Ticket}
    (hticket : C.seat ticket none) :
    Conceals V C (m.awaitChildren ticket job).2 m' := by
  obtain ⟨j, hj, hsees⟩ := h.exists_job hcast
  have hchildren : Sifted C.job (j.children.filter m.isHeld) [] :=
    hsees.children.filter (q := m'.isHeld) fun _ _ _ hc => (h.isHeld hc).trans (h.isHeld_shown hc).symm
  rw [awaitChildren_of_job m hj]
  refine h.relistHidden hcast hchildren ?_
  split
  · exact .nil
  · exact .single hticket

/-- Of the children that a job still has some show or none is left, unless it is the background. -/
theorem isEmpty_children (h : Conceals V C m m') {j' : Job} (hsees : j.Sees C (some j'))
    (hkind : j.kind ≠ .background) {l l' : List JobId} (hl : Sifted C.job l l')
    (hsub : ∀ c ∈ l, c ∈ j.children) : l'.isEmpty = l.isEmpty := by
  refine hl.isEmpty_eq fun c hc hhidden => ?_
  obtain ⟨c', hshown⟩ := hsees.exposed rfl hkind c (hsub c hc)
  cases h.jobs.fits.unique hshown hhidden

/-- Both machines wait for the children of a job that shows, or neither does. -/
theorem awaitChildrenShown {job' : JobId} (h : Conceals V C m m') (hcast : C.job job (some job'))
    (hne : job ≠ C.host) {ticket ticket' : Ticket} (hticket : C.seat ticket (some ticket')) :
    (m'.awaitChildren ticket' job').1 = (m.awaitChildren ticket job).1 ∧
      Conceals V C (m.awaitChildren ticket job).2 (m'.awaitChildren ticket' job').2 := by
  obtain ⟨j, j', hj, hj', hsees⟩ := h.exists_jobs hcast
  have hkind : j.kind ≠ .background := fun hkind => hne ((h.host_iff hj).1 hkind)
  have hchildren : Sifted C.job (j.children.filter m.isHeld) (j'.children.filter m'.isHeld) :=
    hsees.children.filter fun _ _ _ hc => (h.isHeld hc).trans (h.isHeld_shown hc).symm
  have hsub : ∀ c ∈ j.children.filter m.isHeld, c ∈ j.children := fun c hc => (List.mem_filter.1 hc).1
  have hexposed : ∀ c ∈ j.children.filter m.isHeld, ∃ c', C.job c (some c') := fun c hc =>
    hsees.exposed rfl hkind c (hsub c hc)
  have hidle := h.isEmpty_children hsees hkind hchildren hsub
  rw [awaitChildren_of_job m hj, awaitChildren_of_job m' hj', hidle]
  refine ⟨rfl, h.updateShown hcast (fun _ => rfl) fun {x y} hx hy hs => ?_⟩
  obtain rfl := Option.some.inj (hj.symm.trans hx)
  obtain rfl := Option.some.inj (hj'.symm.trans hy)
  refine hs.await _ _ _ _ hchildren (fun _ _ => hexposed) ?_ fun h => absurd h hkind
  split
  · exact .nil
  · exact .single hticket

theorem unlinkHidden (h : Conceals V C m m') (hcast : C.job job none) (child : JobId) :
    Conceals V C (m.unlink job child) m' := by
  obtain ⟨j, hj, hsees⟩ := h.exists_job hcast
  have hchildren : Sifted C.job (m.others child j) [] :=
    .of_hidden fun c hc => hsees.children.hidden_of_mem (List.mem_filter.1 hc).1
  rw [unlink_eq_updateJob m hj hsees.held]
  have hleft : Conceals V C (m.updateJob job ({ · with
      children := m.others child j
      idleSleeper := if (m.others child j).isEmpty then none else j.idleSleeper })) m' := by
    refine h.relistHidden hcast hchildren ?_
    split
    · exact .nil
    · exact hsees.sleeper
  refine hleft.wakeAll (k := []) ?_
  split
  · exact hsees.sleeper
  · exact .nil

/-- A hidden child leaves the background. -/
theorem unlinkHost (h : Conceals V C m m') {child : JobId} (hchild : C.job child none) :
    Conceals V C (m.unlink C.host child) m' := by
  obtain ⟨host', hcast⟩ := h.stage
  obtain ⟨j, j', hj, hj', hsees⟩ := h.exists_jobs hcast
  have hkind := (h.host_iff hj).2 rfl
  have hchildren : Sifted C.job (m.others child j) j'.children := by
    have hkept := hsees.children.filter (p := fun c => c != child && m.isHeld c) (q := fun _ => true)
      fun c c' _ hc => by
        have hne : c ≠ child := by
          rintro rfl
          cases h.jobs.fits.unique hc hchild
        simp only [h.isHeld hc, Bool.and_true, bne_iff_ne, ne_eq, hne, not_false_eq_true]
    rwa [List.filter_true] at hkept
  rw [unlink_eq_updateJob m hj hsees.held, hsees.awake hkind, ite_self]
  refine Conceals.wakeAll (k := []) ?_ ?_
  · refine h.updateLeft hcast (fun _ => rfl) fun {x} hx hs => ?_
    obtain rfl := Option.some.inj (hj.symm.trans hx)
    rw [Option.bind_some, hj'] at hs ⊢
    refine hs.await _ j'.children none j'.idleSleeper hchildren (fun _ h => absurd hkind h) ?_ fun _ => rfl
    have hsleeper := hs.sleeper
    rwa [hs.awake hkind] at hsleeper
  · split <;> exact .nil

/-- The children that are left when one that shows has settled. -/
theorem othersShown (h : Conceals V C m m') {j' : Job} (hsees : j.Sees C (some j'))
    {child child' : JobId} (hchild : C.job child (some child')) :
    Sifted C.job (m.others child j) (m'.others child' j') := by
  refine hsees.children.filter fun c c' _ hc => ?_
  have hiff : c = child ↔ c' = child' := h.jobs.fits.eq_iff hc hchild
  rw [h.isHeld hc, h.isHeld_shown hc, Bool.and_true, Bool.and_true, Bool.eq_iff_iff, bne_iff_ne,
    bne_iff_ne, ne_eq, ne_eq, hiff]

/-- Who waits for the children of a job is woken on both sides, or on none. -/
theorem idleSleepers (h : Conceals V C m m') {j' : Job} (hsees : j.Sees C (some j')) {l l' : List JobId}
    (hl : Sifted C.job l l') (hsub : ∀ c ∈ l, c ∈ j.children) :
    j.idleSleeper = none ∧ j'.idleSleeper = none ∨ l'.isEmpty = l.isEmpty := by
  by_cases hkind : j.kind = .background
  · have hsleeper := hsees.sleeper
    rw [hsees.awake hkind] at hsleeper
    cases hidle : j'.idleSleeper with
    | none => exact .inl ⟨hsees.awake hkind, rfl⟩
    | some ticket =>
      rw [Option.elim_some, hidle] at hsleeper
      cases hsleeper
  · exact .inr (h.isEmpty_children hsees hkind hl hsub)

/-- A child that shows leaves its parent on both sides. -/
theorem unlinkShown {job' : JobId} (h : Conceals V C m m') (hcast : C.job job (some job'))
    {child child' : JobId} (hchild : C.job child (some child')) :
    Conceals V C (m.unlink job child) (m'.unlink job' child') := by
  obtain ⟨j, j', hj, hj', hsees⟩ := h.exists_jobs hcast
  have hchildren := h.othersShown hsees hchild
  have hsub : ∀ c ∈ m.others child j, c ∈ j.children := fun c hc => (List.mem_filter.1 hc).1
  have hexposed : j.kind ≠ .background → ∀ c ∈ m.others child j, ∃ c', C.job c (some c') :=
    fun hkind c hc => hsees.exposed rfl hkind c (hsub c hc)
  have hsame := h.idleSleepers hsees hchildren hsub
  rw [unlink_eq_updateJob m hj hsees.held, unlink_eq_updateJob m' hj' (hsees.alike.isHeld.trans hsees.held)]
  refine Conceals.wakeAll (h.updateShown hcast ?_ fun {x y} hx hy hs => ?_) ?_
  · exact fun _ => rfl
  · obtain rfl := Option.some.inj (hj.symm.trans hx)
    obtain rfl := Option.some.inj (hj'.symm.trans hy)
    refine hs.await _ _ _ _ hchildren (fun _ => hexposed) ?_ fun hkind => ?_
    · rcases hsame with ⟨hidle, hidle'⟩ | hempty
      · rw [hidle, hidle', ite_self, ite_self]
        exact .nil
      · rw [hempty]
        split
        · exact .nil
        · exact hs.sleeper
    · rw [hs.awake hkind, ite_self]
  · rcases hsame with ⟨hidle, hidle'⟩ | hempty
    · rw [hidle, hidle', Option.toList_none, ite_self, ite_self]
      exact .nil
    · rw [hempty]
      split
      · exact hsees.sleeper
      · exact .nil

theorem passOnFailure (h : Conceals V C m m') {y : Option Job} (hsees : j.Sees C y) :
    Conceals V C (m.passOnFailure j) (y.elim m' m'.passOnFailure) := by
  unfold Machine.passOnFailure
  cases y with
  | none =>
    split
    · next kind p _ hlistener =>
      split
      · exact h
      · exact h.failHidden (h.listenerHidden hsees hlistener) kind
    · exact h
  | some j' =>
    have hhears := h.listenerShown hsees
    rw [Option.elim_some, hsees.alike.failure, hsees.alike.failureReported]
    generalize m.listener? j = l at hhears ⊢
    generalize m'.listener? j' = l' at hhears ⊢
    cases hhears with
    | none => cases j.failure <;> exact h
    | some hp =>
      cases j.failure with
      | none => exact h
      | some kind =>
        dsimp only
        split
        · exact h
        · exact h.failShown hp kind

theorem fire (h : Conceals V C m m') {s : SignalId} {p : Option SignalId} (hs : C.signal s p) :
    Conceals V C (m.fire s) (p.elim m' m'.fire) := by
  have hfired : ∀ {o : Option Signal}, Signal.Sees C ⟨true, []⟩ (o.map fun _ => ⟨true, []⟩) := by
    intro o
    cases o with
    | none => exact ⟨nofun, .nil⟩
    | some s => exact ⟨fun _ he => Option.some.inj he ▸ rfl, .nil⟩
  unfold Machine.fire
  cases p with
  | none =>
    obtain ⟨⟨fired, waiters⟩, hget, hsees⟩ := h.signals.exists_get hs
    rw [hget]
    cases fired with
    | true => exact h
    | false =>
      have hset : Conceals V C { m with signals := m.signals.setIfInBounds s ⟨true, []⟩ } m' :=
        { h with signals := h.signals.setLeft hs (hfired (o := none)) }
      exact hset.rouse (hset.times.resolveAll hsees.waiters .done nofun)
  | some s' =>
    obtain ⟨⟨fired, waiters⟩, ⟨fired', waiters'⟩, hget, hget', hsees⟩ := h.signals.exists_get_shown hs
    obtain rfl : fired' = fired := hsees.fired _ rfl
    rw [Option.elim_some, hget, hget']
    cases fired' with
    | true => exact h
    | false =>
      have hset : Conceals V C { m with signals := m.signals.setIfInBounds s ⟨true, []⟩ }
          { m' with signals := m'.signals.setIfInBounds s' ⟨true, []⟩ } :=
        { h with signals := h.signals.setShown hs (hfired (o := some ⟨true, []⟩)) }
      exact hset.rouse (hset.times.resolveAll hsees.waiters .done nofun)

theorem hasFired {s s' : SignalId} (h : Conceals V C m m') (hs : C.signal s (some s')) :
    m'.hasFired s' = m.hasFired s := by
  obtain ⟨x, x', hx, hx', hsees⟩ := h.signals.exists_get_shown hs
  rw [Machine.hasFired, Machine.hasFired, hx, hx', Option.any_some, Option.any_some, hsees.fired x' rfl]

/-- A hidden job leaves its parent. -/
theorem leaveHidden (h : Conceals V C m m') (hsees : j.Sees C none) (hcast : C.job job none) :
    Conceals V C (j.parent.elim m (m.unlink · job)) m' := by
  cases hparent : j.parent with
  | none => exact h
  | some p =>
    rcases hsees.parent p hparent with rfl | hhidden
    · exact h.unlinkHost hcast
    · exact h.unlinkHidden hhidden job

theorem leaveShown {j' : Job} {job' : JobId} (h : Conceals V C m m') (hsees : j.Sees C (some j'))
    (hcast : C.job job (some job')) :
    Conceals V C (j.parent.elim m (m.unlink · job)) (j'.parent.elim m' (m'.unlink · job')) := by
  have hparent := hsees.parent
  rw [Option.elim_some] at hparent
  generalize j.parent = p at hparent ⊢
  generalize j'.parent = p' at hparent ⊢
  cases hparent with
  | none => exact h
  | some hp => exact h.unlinkShown hp hcast

theorem settleHidden (h : Conceals V C m m') (hcast : C.job job none) :
    Conceals V C (m.settle job).2 m' := by
  obtain ⟨j, hj, hsees⟩ := h.exists_job hcast
  have hended := h.updateLeft hcast (f := ({ · with
    outcome := some j.finalOutcome
    failureReported := j.failureReported || j.failure.isSome })) (fun _ => rfl)
    fun _ hs => hs.settle j.finalOutcome (j.failureReported || j.failure.isSome)
  have hfired := (hended.passOnFailure hsees).fire hsees.completion
  rw [settle_eq hj]
  exact (hfired.leaveHidden hsees hcast).updateLeft hcast (fun _ => rfl) fun _ hs => hs.orphan

theorem settleShown {job' : JobId} (h : Conceals V C m m') (hcast : C.job job (some job')) :
    (m'.settle job').1 = (m.settle job).1 ∧ Conceals V C (m.settle job).2 (m'.settle job').2 := by
  obtain ⟨j, j', hj, hj', hsees⟩ := h.exists_jobs hcast
  have hended := h.updateJob hcast (f := ({ · with
    outcome := some j.finalOutcome
    failureReported := j.failureReported || j.failure.isSome })) (fun _ => rfl)
    fun _ _ hs => hs.settle j.finalOutcome (j.failureReported || j.failure.isSome)
  have hfired := (hended.passOnFailure hsees).fire hsees.completion
  rw [settle_eq hj, settle_eq hj', hsees.alike.finalOutcome, hsees.alike.failureReported,
    hsees.alike.failure]
  refine ⟨rfl, ?_⟩
  exact (hfired.leaveShown hsees hcast).updateJob hcast (fun _ => rfl) fun _ _ hs => hs.orphan

theorem closeHidden (h : Conceals V C m m') (hcast : C.job job none) {ticket : Ticket}
    (hticket : C.seat ticket none) (result : Completion) :
    Conceals V C (m.close ticket job result).2 m' := by
  have hwait := (h.conclude hcast result).awaitChildrenHidden hcast hticket
  unfold Machine.close
  dsimp only
  split
  · exact hwait.settleHidden hcast
  · exact hwait

theorem closeShown {job' : JobId} (h : Conceals V C m m') (hcast : C.job job (some job'))
    (hne : job ≠ C.host) {ticket ticket' : Ticket} (hticket : C.seat ticket (some ticket'))
    (result : Completion) :
    (m'.close ticket' job' result).1 = (m.close ticket job result).1 ∧
      Conceals V C (m.close ticket job result).2 (m'.close ticket' job' result).2 := by
  obtain ⟨hidle, hwait⟩ := (h.conclude hcast result).awaitChildrenShown hcast hne hticket
  unfold Machine.close
  dsimp only [Option.elim_some] at hidle hwait ⊢
  rw [hidle]
  split
  · obtain ⟨houtcome, hsettled⟩ := hwait.settleShown hcast
    exact ⟨congrArg some houtcome, hsettled⟩
  · exact ⟨rfl, hwait⟩

end Conceals

end Machine

end RacePuzzle
