import RacePuzzle.Proofs.Machine.Suspension
import Mathlib.Data.List.Permutation

/-! Waits for signals. Each is known in two places: to the signal, which resolves it when it fires, and to
the job whose task waits, which interrupts it when it is cancelled. Whatever comes first, and whenever
the task is polled after that, both places agree on what has become of the wait. -/
namespace RacePuzzle

structure SignalWait where
  ticket : Ticket
  job : JobId
  signal : SignalId
  waiter : Nat
  wait : WaitId
  deriving DecidableEq

def SignalWait.on (x : SignalWait) : Suspension := .wait x.job x.waiter x.wait

namespace Machine

variable {ε τ : Type}

/-- What may happen to a machine while tasks wait for signals. Tasks start, end and are woken as they may;
no time passes. -/
inductive Incident (m : Machine ε τ) : Machine ε τ → Prop
  | root (kind : JobRole) : Incident m (m.root kind).2
  | child (p : JobId) (kind : JobRole) : Incident m (m.child p kind).2
  | hold (j : JobId) : Incident m (m.hold j)
  | release (j : JobId) : Incident m (m.release j)
  | cancel (j : JobId) : Incident m (m.cancel j)
  | fail (j : JobId) (kind : ExceptionKind) : Incident m (m.fail j kind)
  | close (ticket : Ticket) (j : JobId) (result : Completion) : Incident m (m.close ticket j result).2
  | settle (j : JobId) : Incident m (m.settle j).2
  | newSignal : Incident m m.newSignal.2
  | schedule (d : Dispatcher τ) (env : ε) : Incident m { m with dispatcher := d, env := env }

/-- The machine is come to by incidents, by signals that fire and by polls of waits: the waits of `log`
have begun, in this order, and those of `given` have given their result; the signals of `fired` have been
fired. A task that waits is polled again when the wait is over, which is when it is woken. -/
inductive Waited : (log : List SignalWait) → (given : List SignalWait) → (fired : List SignalId) →
    Machine ε τ → Prop
  | start (env : ε) : Waited [] [] [] (.start env)
  | incident {log given fired m m'} : Waited log given fired m → Incident m m' → Waited log given fired m'
  | fire {log given fired m s} : Waited log given fired m → s < m.signals.size →
      Waited log given (s :: fired) (m.fire s)
  | join {log given fired m ticket j s k w m'} : Waited log given fired m →
      j < m.jobs.size → s < m.signals.size → m.beginJoin ticket j s = (.suspended (.wait j k w), m') →
      Waited (log ++ [⟨ticket, j, s, k, w⟩]) given fired m'
  | await {log given fired m ticket j s k w m'} : Waited log given fired m →
      j < m.jobs.size → s < m.signals.size → m.beginAwait ticket j s = (.suspended (.wait j k w), m') →
      Waited (log ++ [⟨ticket, j, s, k, w⟩]) given fired m'
  | resume {log given fired m} {x : SignalWait} (ticket : Ticket) : Waited log given fired m → x ∈ log →
      m.timetable.IsOver x.wait → Waited log (x :: given) fired (m.resumption ticket x.on).2

variable {m m' : Machine ε τ} {log given : List SignalWait} {fired : List SignalId} {x y : SignalWait} {j : JobId}
  {job : Job} {s : SignalId}

/-- How far a wait has come. While it is pending, its job lists it. -/
inductive Standing (m : Machine ε τ) (x : SignalWait) : Prop
  | pending : m.timetable.waits[x.wait]? = some (.pending (some x.ticket)) → m.hasFired x.signal = false →
      (∃ job, m.job? x.job = some job ∧ job.cancelled = false ∧
        (x.waiter, .signal x.wait) ∈ job.pending) → Standing m x
  | done : m.timetable.waits[x.wait]? = some .done → m.hasFired x.signal = true → Standing m x
  | cancelled : m.timetable.waits[x.wait]? = some .cancelled → m.isCancelled x.job = true → Standing m x

/-- A wait stands where it stood, as long as its job keeps listing it while it is pending. -/
theorem Standing.carry (h : m.Standing x)
    (hwait : m'.timetable.waits[x.wait]? = m.timetable.waits[x.wait]?)
    (hfired : m'.hasFired x.signal = m.hasFired x.signal)
    (hjob : ∀ job, m.job? x.job = some job → ∃ job', m'.job? x.job = some job' ∧ job'.cancelled = job.cancelled ∧
      (m.timetable.waits[x.wait]? = some (.pending (some x.ticket)) →
        (x.waiter, .signal x.wait) ∈ job.pending → (x.waiter, .signal x.wait) ∈ job'.pending)) :
    m'.Standing x := by
  cases h with
  | pending hw hf hlisted =>
    obtain ⟨job, hk, hc, hmem⟩ := hlisted
    obtain ⟨job', hk', hc', hkeep⟩ := hjob job hk
    exact .pending (hwait.trans hw) (hfired.trans hf) ⟨job', hk', hc'.trans hc, hkeep hw hmem⟩
  | done hw hf => exact .done (hwait.trans hw) (hfired.trans hf)
  | cancelled hw hc =>
    obtain ⟨job, hk, hc⟩ := exists_of_isCancelled hc
    obtain ⟨job', hk', hc', -⟩ := hjob job hk
    exact .cancelled (hwait.trans hw) ((isCancelled_eq hk').trans (hc'.trans hc))

/-- Signals and jobs know the waits of `log` and no others. -/
structure Tracks (log given : List SignalWait) (fired : List SignalId) (m : Machine ε τ) : Prop where
  lt : ∀ {x}, x ∈ log → x.wait < m.timetable.waits.size ∧ x.waiter < m.timetable.clock.nextSeq ∧
    x.signal < m.signals.size
  waits : (log.map (·.wait)).Nodup
  waiters : (log.map (·.waiter)).Nodup
  standing : ∀ {x}, x ∈ log → m.Standing x
  signal : ∀ {s : SignalId} {waiters : List WaitId}, m.signals[s]? = some ⟨false, waiters⟩ →
    waiters = (log.filter (·.signal = s)).map (·.wait)
  pending : ∀ {j job k on}, m.job? j = some job → (k, on) ∈ job.pending →
    ∃ x ∈ log, x.job = j ∧ x.waiter = k ∧ on = .signal x.wait
  cleared : ∀ {j job}, m.job? j = some job → job.cancelled = true → job.pending = []
  given : ∀ {x}, x ∈ given → x ∈ log ∧ ∀ job, m.job? x.job = some job → ∀ on, (x.waiter, on) ∉ job.pending
  fired : ∀ {s}, s ∈ fired → m.hasFired s = true

theorem tracks_start (env : ε) : Tracks [] [] [] (.start env : Machine ε τ) where
  lt h := by cases h
  waits := .nil
  waiters := .nil
  standing h := by cases h
  signal h := by simp [Machine.start] at h
  pending h := by simp [Machine.start, job?] at h
  cleared h := by simp [Machine.start, job?] at h
  given h := by cases h
  fired h := by cases h

namespace Tracks

theorem eq_of_wait (h : Tracks log given fired m) (hx : x ∈ log) (hy : y ∈ log) (he : x.wait = y.wait) :
    x = y :=
  List.inj_on_of_nodup_map h.waits hx hy he

theorem eq_of_waiter (h : Tracks log given fired m) (hx : x ∈ log) (hy : y ∈ log) (he : x.waiter = y.waiter) :
    x = y :=
  List.inj_on_of_nodup_map h.waiters hx hy he

/-- No wait begins. A job lists waits that it has listed before, unless it lists none. -/
theorem carry (h : Tracks log given fired m) (hsize : m'.timetable.waits.size = m.timetable.waits.size)
    (hseq : m'.timetable.clock.nextSeq = m.timetable.clock.nextSeq) (hsignals : m.signals.size ≤ m'.signals.size)
    (hstanding : ∀ {x}, x ∈ log → m'.Standing x)
    (hsignal : ∀ {s : SignalId} {waiters : List WaitId}, m'.signals[s]? = some ⟨false, waiters⟩ →
      waiters = (log.filter (·.signal = s)).map (·.wait))
    (hjobs : ∀ {k job'}, m'.job? k = some job' → job'.pending = [] ∨
      ∃ job, m.job? k = some job ∧ job'.cancelled = job.cancelled ∧ ∀ p ∈ job'.pending, p ∈ job.pending)
    (hfired : ∀ {s}, m.hasFired s = true → m'.hasFired s = true) : Tracks log given fired m' := by
  refine ⟨fun hx => ?_, h.waits, h.waiters, hstanding, hsignal, fun hk hmem => ?_, fun hk hc => ?_,
    fun hx => ⟨(h.given hx).1, fun job' hk on hmem => ?_⟩, fun hs => hfired (h.fired hs)⟩
  · rw [hsize, hseq]
    obtain ⟨hw, hn, hs⟩ := h.lt hx
    exact ⟨hw, hn, Nat.lt_of_lt_of_le hs hsignals⟩
  · rcases hjobs hk with hnone | ⟨job, hk, -, hsub⟩
    · exact absurd (hnone ▸ hmem) List.not_mem_nil
    · exact h.pending hk (hsub _ hmem)
  · rcases hjobs hk with hnone | ⟨job, hk, hc', hsub⟩
    · exact hnone
    · have hnone := h.cleared hk (hc'.symm.trans hc)
      exact List.eq_nil_iff_forall_not_mem.2 fun p hp => List.not_mem_nil (hnone ▸ hsub p hp)
  · rcases hjobs hk with hnone | ⟨job, hk, -, hsub⟩
    · exact absurd (hnone ▸ hmem) List.not_mem_nil
    · exact (h.given hx).2 job hk on (hsub _ hmem)

theorem congr (h : Tracks log given fired m) (htimetable : m'.timetable = m.timetable)
    (hsignals : m'.signals = m.signals) (hjobs : m'.jobs = m.jobs) : Tracks log given fired m' := by
  have hjob (k : JobId) : m'.job? k = m.job? k := congrArg (·[k]?) hjobs
  refine h.carry (by rw [htimetable]) (by rw [htimetable]) (by rw [hsignals]) (fun {x} hx => ?_)
    (fun hs => h.signal (hsignals ▸ hs)) (fun {k job'} hk => .inr ⟨job', (hjob k).symm.trans hk, rfl, fun _ => id⟩)
    fun {s} hs => (hasFired_congr hsignals s).trans hs
  exact (h.standing hx).carry (by rw [htimetable]) (hasFired_congr hsignals _)
    fun job hk => ⟨job, (hjob _).trans hk, rfl, fun _ => id⟩

theorem wakeAll (h : Tracks log given fired m) (ss : List Ticket) : Tracks log given fired (m.wakeAll ss) :=
  h.congr rfl rfl rfl

theorem drop (h : Tracks log given fired m) {f : Job → Job}
    (hcancelled : ∀ job, m.job? j = some job → (f job).cancelled = job.cancelled)
    (hsub : ∀ job, m.job? j = some job → ∀ p ∈ (f job).pending, p ∈ job.pending)
    (hkeep : ∀ job, m.job? j = some job → ∀ x ∈ log,
      m.timetable.waits[x.wait]? = some (.pending (some x.ticket)) →
        (x.waiter, .signal x.wait) ∈ job.pending → (x.waiter, .signal x.wait) ∈ (f job).pending) :
    Tracks log given fired (m.updateJob j f) := by
  refine h.carry rfl rfl (Nat.le_refl _) (fun {x} hx => (h.standing hx).carry rfl rfl fun job hk => ?_) h.signal
    (fun {k job'} hk => .inr ?_) id
  · rw [job?_updateJob]
    split
    · next hxj =>
      subst hxj
      exact ⟨f job, by rw [hk]; rfl, hcancelled job hk, hkeep job hk x hx⟩
    · exact ⟨job, hk, rfl, fun _ => id⟩
  · rw [job?_updateJob] at hk
    split at hk
    · next hkj =>
      subst hkj
      obtain ⟨job, hj, rfl⟩ := Option.map_eq_some_iff.1 hk
      exact ⟨job, hj, hcancelled job hj, hsub job hj⟩
    · exact ⟨job', hk, rfl, fun _ => id⟩

theorem updateJob (h : Tracks log given fired m) {j : JobId} {f : Job → Job}
    (hf : ∀ job, m.job? j = some job → (f job).cancelled = job.cancelled ∧ (f job).pending = job.pending) :
    Tracks log given fired (m.updateJob j f) :=
  h.drop (fun job hj => (hf job hj).1) (fun job hj _ hp => (hf job hj).2 ▸ hp)
    fun job hj _ _ _ hmem => (hf job hj).2.symm ▸ hmem

theorem setJob (h : Tracks log given fired m) (hj : m.job? j = some job) {new : Job}
    (hcancelled : new.cancelled = job.cancelled) (hpending : new.pending = job.pending) :
    Tracks log given fired { m with jobs := m.jobs.setIfInBounds j new } := by
  rw [set_eq_updateJob hj]
  refine h.updateJob fun job' hj' => ?_
  obtain rfl := Option.some.inj (hj.symm.trans hj')
  exact ⟨hcancelled, hpending⟩

theorem newSignal (h : Tracks log given fired m) : Tracks log given fired m.newSignal.2 := by
  have hsignals (s : SignalId) : m.newSignal.2.signals[s]? =
      if s = m.signals.size then some .unfired else m.signals[s]? := Array.getElem?_push
  have hfired {s : SignalId} (hs : s < m.signals.size) : m.newSignal.2.hasFired s = m.hasFired s := by
    rw [hasFired, hsignals, if_neg (Nat.ne_of_lt hs)]
    rfl
  have hsize : m.newSignal.2.signals.size = m.signals.size + 1 := Array.size_push ..
  refine h.carry rfl rfl (hsize ▸ Nat.le_succ _) (fun {x} hx => ?_) (fun {s waiters} hs => ?_)
    (fun {k job} hk => .inr ⟨job, hk, rfl, fun _ => id⟩) hasFired_push
  · exact (h.standing hx).carry rfl (hfired (h.lt hx).2.2) fun job hk => ⟨job, hk, rfl, fun _ => id⟩
  · rw [hsignals] at hs
    split at hs
    · next hnew =>
      obtain rfl : [] = waiters := (Signal.mk.inj (Option.some.inj hs)).2
      have hnone : log.filter (·.signal = s) = [] := List.filter_eq_nil_iff.2 fun x hx => by
        simpa [hnew] using Nat.ne_of_lt (h.lt hx).2.2
      rw [hnone]
      rfl
    · exact h.signal hs

theorem pushJob (h : Tracks log given fired m) (hpending : job.pending = []) :
    Tracks log given fired { m with jobs := m.jobs.push job } := by
  have hjobs (k : JobId) : ({ m with jobs := m.jobs.push job } : Machine ε τ).job? k =
      if k = m.jobs.size then some job else m.job? k := Array.getElem?_push
  have hold {k : JobId} {job' : Job} (hk : m.job? k = some job') :
      ({ m with jobs := m.jobs.push job } : Machine ε τ).job? k = some job' :=
    (hjobs k).trans ((if_neg (Nat.ne_of_lt (job?_lt hk))).trans hk)
  refine h.carry rfl rfl (Nat.le_refl _)
    (fun {x} hx => (h.standing hx).carry rfl rfl fun job' hk => ⟨job', hold hk, rfl, fun _ => id⟩) h.signal
    (fun {k job'} hk => ?_) id
  rw [hjobs] at hk
  split at hk
  · exact .inl (Option.some.inj hk ▸ hpending)
  · exact .inr ⟨job', hk, rfl, fun _ => id⟩

theorem newJob (h : Tracks log given fired m) (kind : JobRole) (parent : Option JobId) :
    Tracks log given fired (m.newJob kind parent).2 := h.newSignal.pushJob rfl

theorem child (h : Tracks log given fired m) (p : JobId) (kind : JobRole) :
    Tracks log given fired (m.child p kind).2 :=
  (h.newJob kind (some p)).updateJob fun _ _ => ⟨rfl, rfl⟩

end Tracks

/-- The waits for signals among those that a job interrupts are resolved as cancelled. -/
theorem resolves_interruptAll (m : Machine ε τ) {waits : List (Nat × OpenWait)}
    (h : ∀ p ∈ waits, ∃ w, p.2 = .signal w) : ∃ ws ss,
      Timetable.Resolves .cancelled ws m.timetable ss (m.interruptAll waits).timetable ∧
        ∀ w, w ∈ ws ↔ ∃ k, (k, .signal w) ∈ waits := by
  induction waits generalizing m with
  | nil => exact ⟨[], [], Timetable.resolves_nil, by simp⟩
  | cons p rest ih =>
    obtain ⟨k, on⟩ := p
    obtain ⟨w, hw⟩ := h _ List.mem_cons_self
    obtain rfl : on = .signal w := hw
    obtain ⟨ws, ss, hrest, hmem⟩ := ih (m.interrupt (k, .signal w)) fun p hp => h p (List.mem_cons_of_mem _ hp)
    refine ⟨_, _, (Timetable.resolves_resolve m.timetable .cancelled w).trans nofun hrest, fun v => ?_⟩
    rw [List.mem_append, List.mem_singleton, hmem]
    simp only [List.mem_cons, Prod.mk.injEq, OpenWait.signal.injEq]
    constructor
    · rintro (rfl | ⟨k', hk'⟩)
      · exact ⟨k, .inl ⟨rfl, rfl⟩⟩
      · exact ⟨k', .inr hk'⟩
    · rintro ⟨k', ⟨-, rfl⟩ | hk'⟩
      · exact .inl rfl
      · exact .inr ⟨k', hk'⟩

namespace Tracks

theorem cancelOne (h : Tracks log given fired m) (hj : m.job? j = some job) :
    Tracks log given fired (m.cancelOne j job) := by
  have hjobs := job?_cancelOne hj
  have hcancels := isCancelled_cancelOne hj
  have hsignals : (m.cancelOne j job).signals = m.signals := signals_interruptAll ..
  have hsignal : ∀ p ∈ job.pending, ∃ w, p.2 = .signal w := fun p hp =>
    let ⟨x, _, _, _, hon⟩ := h.pending hj hp
    ⟨x.wait, hon⟩
  obtain ⟨ws, ss, hresolves, hws⟩ := resolves_interruptAll
    { m with jobs := m.jobs.setIfInBounds j { job with cancelled := true, pending := [] } } hsignal
  have htimetable : Timetable.Resolves .cancelled ws m.timetable ss (m.cancelOne j job).timetable := hresolves
  have hfired (s : SignalId) : (m.cancelOne j job).hasFired s = m.hasFired s := hasFired_congr hsignals s
  have hkept {x : SignalWait} {outcome : Wait} (hx : m.timetable.waits[x.wait]? = some outcome)
      (hover : ∀ s, outcome ≠ .pending s) : (m.cancelOne j job).timetable.waits[x.wait]? = some outcome :=
    (htimetable.kept _ fun s hs => hover s (Option.some.inj (hx.symm.trans hs))).trans hx
  refine h.carry htimetable.size (congrArg _ htimetable.clock) (hsignals ▸ Nat.le_refl _) (fun {x} hx => ?_)
    (fun hs => h.signal (hsignals ▸ hs)) (fun {k job'} hk => ?_) fun {s} hs => (hfired s).trans hs
  · cases h.standing hx with
    | pending hw hf hlisted =>
      obtain ⟨job', hk, hc, hmem⟩ := hlisted
      by_cases hxj : x.job = j
      · obtain rfl : job = job' := Option.some.inj (hj.symm.trans (hxj ▸ hk))
        exact .cancelled (htimetable.hit _ ((hws _).2 ⟨_, hmem⟩) _ hw).1 ((hcancels _).2 (.inl hxj))
      · have hout : x.wait ∉ ws := fun hin => by
          obtain ⟨k, hlist⟩ := (hws _).1 hin
          obtain ⟨y, hy, hyj, -, hon⟩ := h.pending hj hlist
          obtain rfl := h.eq_of_wait hx hy (OpenWait.signal.inj hon)
          exact hxj hyj
        refine .pending ((htimetable.untouched _ hout).trans hw) ((hfired _).trans hf) ⟨job', ?_, hc, hmem⟩
        rw [hjobs, if_neg hxj, hk]
    | done hw hf => exact .done (hkept hw (by simp)) ((hfired _).trans hf)
    | cancelled hw hc => exact .cancelled (hkept hw nofun) ((hcancels _).2 (.inr hc))
  · rw [hjobs] at hk
    split at hk
    · exact .inl ((Option.some.inj hk) ▸ rfl)
    · exact .inr ⟨job', hk, rfl, fun _ => id⟩

theorem cancelAll (h : Tracks log given fired m) (jobs : List JobId) : Tracks log given fired (m.cancelAll jobs) :=
  cancelAll_induction (R := fun m m' => Tracks log given fired m → Tracks log given fired m') (fun _ => id)
    (fun f g h => g (f h)) (fun hj _ h => h.cancelOne hj) m jobs h

theorem cancel (h : Tracks log given fired m) (j : JobId) : Tracks log given fired (m.cancel j) := h.cancelAll [j]

theorem fail (h : Tracks log given fired m) (j : JobId) (kind : ExceptionKind) :
    Tracks log given fired (m.fail j kind) :=
  fail_induction (R := fun m m' => Tracks log given fired m → Tracks log given fired m') (fun _ => id)
    (fun f g h => g (f h)) (fun hj _ h => h.cancelOne hj) (fun _ hj _ h => h.setJob hj rfl rfl) m j kind h

theorem mem_waiters (h : Tracks log given fired m) {waiters : List WaitId}
    (hs : m.signals[s]? = some ⟨false, waiters⟩) (hx : x ∈ log) : x.wait ∈ waiters ↔ x.signal = s := by
  rw [h.signal hs]
  constructor
  · intro hmem
    obtain ⟨y, hy, he⟩ := List.mem_map.1 hmem
    obtain ⟨hy, hsignal⟩ := List.mem_filter.1 hy
    obtain rfl := h.eq_of_wait hy hx he
    simpa using hsignal
  · exact fun hsignal => List.mem_map_of_mem (List.mem_filter.2 ⟨hx, by simpa using hsignal⟩)

theorem resolves_fire {waiters : List WaitId} (hs : m.signals[s]? = some ⟨false, waiters⟩) :
    Timetable.Resolves .done waiters m.timetable (m.timetable.resolveAll .done waiters).1
      (m.fire s).timetable := by
  rw [fire_of_unfired hs]
  exact @Timetable.resolves_resolveAll .done nofun m.timetable waiters

theorem getElem?_signals_fire {waiters : List WaitId} (hs : m.signals[s]? = some ⟨false, waiters⟩)
    (s' : SignalId) : (m.fire s).signals[s']? = if s' = s then some ⟨true, []⟩ else m.signals[s']? := by
  have hlt := (Array.getElem?_eq_some_iff.1 hs).1
  rw [fire_of_unfired hs]
  by_cases he : s' = s
  · simp [Machine.wakeAll, he, hlt]
  · simp [Machine.wakeAll, he, Ne.symm he]

/-- The waits for the signal are done, unless they have been cancelled. -/
theorem standing_fire (h : Tracks log given fired m) {waiters : List WaitId}
    (hs : m.signals[s]? = some ⟨false, waiters⟩) (hx : x ∈ log) : (m.fire s).Standing x := by
  have hlt := (Array.getElem?_eq_some_iff.1 hs).1
  have hresolves := resolves_fire hs
  have hkept {outcome : Wait} (hw : m.timetable.waits[x.wait]? = some outcome)
      (hover : ∀ s, outcome ≠ .pending s) : (m.fire s).timetable.waits[x.wait]? = some outcome :=
    (hresolves.kept _ fun s hs => hover s (Option.some.inj (hw.symm.trans hs))).trans hw
  cases h.standing hx with
  | pending hw hf hlisted =>
    by_cases hxs : x.signal = s
    · exact .done (hresolves.hit _ ((h.mem_waiters hs hx).2 hxs) _ hw).1 ((hasFired_fire hlt _).2 (.inl hxs))
    · have hout : x.wait ∉ waiters := fun hin => hxs ((h.mem_waiters hs hx).1 hin)
      have hf' : (m.fire s).hasFired x.signal = false := by
        rw [hasFired, getElem?_signals_fire hs, if_neg hxs]
        exact hf
      refine .pending ((hresolves.untouched _ hout).trans hw) hf' ?_
      rw [job?_fire]
      exact hlisted
  | done hw hf => exact .done (hkept hw (by simp)) ((hasFired_fire hlt _).2 (.inr hf))
  | cancelled hw hc =>
    refine .cancelled (hkept hw (by simp)) ?_
    rw [isCancelled, job?_fire]
    exact hc

theorem fire (h : Tracks log given fired m) (s : SignalId) : Tracks log given fired (m.fire s) := by
  match hs : m.signals[s]? with
  | none =>
    have hsame : m.fire s = m := by rw [Machine.fire, hs]
    exact hsame.symm ▸ h
  | some ⟨true, waiters⟩ => exact (fire_of_fired hs).symm ▸ h
  | some ⟨false, waiters⟩ =>
    have hlt := (Array.getElem?_eq_some_iff.1 hs).1
    have hresolves := resolves_fire hs
    refine h.carry hresolves.size (congrArg _ hresolves.clock) (signals_fire_size .. ▸ Nat.le_refl _)
      (h.standing_fire hs) (fun {s' waiters'} hs' => ?_)
      (fun {k job'} hk => .inr ⟨job', (job?_fire ..).symm.trans hk, rfl, fun _ => id⟩)
      fun hf => (hasFired_fire hlt _).2 (.inr hf)
    rw [getElem?_signals_fire hs] at hs'
    split at hs'
    · cases hs'
    · exact h.signal hs'

theorem fired_fire (h : Tracks log given fired m) (hlt : s < m.signals.size) :
    Tracks log given (s :: fired) (m.fire s) := by
  obtain ⟨hlt', hwaits, hwaiters, hstanding, hsignal, hpending, hcleared, hover, hfired⟩ := h.fire s
  refine ⟨hlt', hwaits, hwaiters, hstanding, hsignal, hpending, hcleared, hover, fun {s'} hs => ?_⟩
  rcases List.mem_cons.1 hs with rfl | hs
  · exact (hasFired_fire hlt _).2 (.inl rfl)
  · exact hfired hs

theorem conclude (h : Tracks log given fired m) (j : JobId) (result : Completion) :
    Tracks log given fired (m.conclude j result) := by
  unfold Machine.conclude
  split
  · exact h
  · exact h.cancel j
  · exact h.fail ..

theorem awaitChildren (h : Tracks log given fired m) (ticket : Ticket) (j : JobId) :
    Tracks log given fired (m.awaitChildren ticket j).2 := h.updateJob fun _ _ => ⟨rfl, rfl⟩

theorem passOnFailure (h : Tracks log given fired m) (job : Job) :
    Tracks log given fired (m.passOnFailure job) := by
  unfold Machine.passOnFailure
  split
  · split
    · exact h
    · exact h.fail ..
  · exact h

theorem unlink (h : Tracks log given fired m) (p c : JobId) : Tracks log given fired (m.unlink p c) := by
  unfold Machine.unlink
  split
  · exact h
  · next pj hp =>
    have hp := (Option.filter_eq_some_iff.1 hp).1
    dsimp only
    split
    · refine Tracks.wakeAll ?_ _
      exact h.setJob hp rfl rfl
    · exact h.setJob hp rfl rfl

theorem settle (h : Tracks log given fired m) (j : JobId) : Tracks log given fired (m.settle j).2 := by
  unfold Machine.settle
  split
  · exact h
  · next job _ =>
    have hfired (f : Job → Job)
        (hf : ∀ job, (f job).cancelled = job.cancelled ∧ (f job).pending = job.pending) :=
      ((h.updateJob (j := j) (f := f) fun job _ => hf job).passOnFailure job).fire job.completion
    refine Tracks.updateJob ?_ fun _ _ => ⟨rfl, rfl⟩
    cases job.parent with
    | none => exact hfired _ fun _ => ⟨rfl, rfl⟩
    | some p =>
      refine Tracks.unlink (hfired _ ?_) p j
      exact fun _ => ⟨rfl, rfl⟩

theorem close (h : Tracks log given fired m) (ticket : Ticket) (j : JobId) (result : Completion) :
    Tracks log given fired (m.close ticket j result).2 := by
  have hwaited := (h.conclude j result).awaitChildren ticket j
  unfold Machine.close
  dsimp only
  split
  · exact hwaited.settle j
  · exact hwaited

theorem incident (h : Tracks log given fired m) (hm : Incident m m') : Tracks log given fired m' := by
  cases hm with
  | root kind => exact h.newJob kind none
  | child p kind => exact h.child p kind
  | hold j =>
    refine h.updateJob fun job _ => ?_
    split
    · exact ⟨rfl, rfl⟩
    · exact ⟨rfl, rfl⟩
  | release j => exact h.updateJob fun _ _ => ⟨rfl, rfl⟩
  | cancel j => exact h.cancel j
  | fail j kind => exact h.fail j kind
  | close ticket j result => exact h.close ticket j result
  | settle j => exact h.settle j
  | newSignal => exact h.newSignal
  | schedule d env => exact h.congr rfl rfl rfl

end Tracks

def nextWait (m : Machine ε τ) (ticket : Ticket) (j : JobId) (s : SignalId) : SignalWait :=
  ⟨ticket, j, s, m.timetable.clock.nextSeq, m.timetable.waits.size⟩

theorem getElem?_waits_beginSignalWait (m : Machine ε τ) (ticket : Ticket) (j : JobId) (s : SignalId)
    (w : WaitId) : (m.beginSignalWait ticket j s).2.timetable.waits[w]? =
      if w = m.timetable.waits.size then some (.pending (some ticket)) else m.timetable.waits[w]? :=
  getElem?_waits_withWait m ticket j (.signal m.timetable.waits.size) w

theorem hasFired_beginSignalWait (m : Machine ε τ) (ticket : Ticket) (j : JobId) (s s' : SignalId) :
    (m.beginSignalWait ticket j s).2.hasFired s' = m.hasFired s' :=
  hasFired_modify m.signals s m.timetable.waits.size s'

theorem job?_beginSignalWait (hj : m.job? j = some job) (ticket : Ticket) (s : SignalId) (k : JobId) :
    (m.beginSignalWait ticket j s).2.job? k =
      if k = j then some { job with pending := job.pending ++ [(m.timetable.clock.nextSeq,
        .signal m.timetable.waits.size)] } else m.job? k := by
  refine (job?_withWait m ticket j (.signal m.timetable.waits.size) k).trans ?_
  rw [hj]
  rfl

theorem exists_job_beginSignalWait (hj : m.job? j = some job) (ticket : Ticket) (s : SignalId) {k : JobId}
    {old : Job} (hk : m.job? k = some old) :
    ∃ new, (m.beginSignalWait ticket j s).2.job? k = some new ∧ new.cancelled = old.cancelled ∧
      ∀ p ∈ old.pending, p ∈ new.pending := by
  rw [job?_beginSignalWait hj]
  split
  · next hkj =>
    subst hkj
    obtain rfl := Option.some.inj (hj.symm.trans hk)
    exact ⟨_, rfl, rfl, fun p hp => List.mem_append_left _ hp⟩
  · exact ⟨old, hk, rfl, fun _ hp => hp⟩

namespace Tracks

theorem nodup_snoc {f : SignalWait → Nat} (h : (log.map f).Nodup) (hlt : ∀ y ∈ log, f y < f x) :
    ((log ++ [x]).map f).Nodup := by
  rw [List.map_append]
  refine List.nodup_append.2 ⟨h, List.nodup_singleton _, fun n hn n' hn' he => ?_⟩
  obtain ⟨y, hy, rfl⟩ := List.mem_map.1 hn
  obtain rfl : n' = f x := List.mem_singleton.1 hn'
  exact absurd he (Nat.ne_of_lt (hlt y hy))

/-- The new wait is pending, and the others stand as they stood. -/
theorem standing_beginSignalWait (h : Tracks log given fired m) (hj : m.job? j = some job)
    (hc : job.cancelled = false) (hf : m.hasFired s = false) (ticket : Ticket)
    (hx : x ∈ log ++ [m.nextWait ticket j s]) : (m.beginSignalWait ticket j s).2.Standing x := by
  have hwaits := m.getElem?_waits_beginSignalWait ticket j s
  have hfired := m.hasFired_beginSignalWait ticket j s
  rcases List.mem_append.1 hx with hx | hx
  · refine (h.standing hx).carry ((hwaits x.wait).trans (if_neg (Nat.ne_of_lt (h.lt hx).1))) (hfired _)
      fun old hk => ?_
    obtain ⟨new, hk', hc', hkeep⟩ := exists_job_beginSignalWait hj ticket s hk
    exact ⟨new, hk', hc', fun _ => hkeep _⟩
  · obtain rfl := List.mem_singleton.1 hx
    exact .pending ((hwaits _).trans (if_pos rfl)) ((hfired s).trans hf)
      ⟨_, (job?_beginSignalWait hj ticket s j).trans (if_pos rfl), hc,
        List.mem_append_right _ List.mem_cons_self⟩

/-- The signal knows the new wait as its last one. -/
theorem signal_beginSignalWait (h : Tracks log given fired m) (ticket : Ticket) (j : JobId) {s s' : SignalId}
    {waiters : List WaitId} (hs : (m.beginSignalWait ticket j s).2.signals[s']? = some ⟨false, waiters⟩) :
    waiters = ((log ++ [m.nextWait ticket j s]).filter (·.signal = s')).map (·.wait) := by
  have hsignals : (m.beginSignalWait ticket j s).2.signals[s']? =
      if s = s' then m.signals[s']?.map fun signal =>
        { signal with waiters := signal.waiters ++ [m.timetable.waits.size] }
      else m.signals[s']? := Array.getElem?_modify
  rw [hsignals] at hs
  rw [List.filter_append, List.map_append]
  split at hs
  · next he =>
    subst he
    obtain ⟨⟨fired, waiters'⟩, hs', hnew⟩ := Option.map_eq_some_iff.1 hs
    obtain ⟨rfl, rfl⟩ := Signal.mk.inj hnew
    rw [h.signal hs']
    simp [nextWait]
  · next he =>
    rw [h.signal hs]
    simp [nextWait, he]

/-- A wait begins that is known to its signal and to its job. -/
theorem beginSignalWait (h : Tracks log given fired m) (hj : m.job? j = some job) (hc : job.cancelled = false)
    (hlt : s < m.signals.size) (hf : m.hasFired s = false) (ticket : Ticket) :
    Tracks (log ++ [m.nextWait ticket j s]) given fired (m.beginSignalWait ticket j s).2 := by
  have hjobs := job?_beginSignalWait hj ticket s
  refine ⟨fun {x} hx => ?_, nodup_snoc h.waits fun x hx => (h.lt hx).1,
    nodup_snoc h.waiters fun x hx => (h.lt hx).2.1, h.standing_beginSignalWait hj hc hf ticket,
    h.signal_beginSignalWait ticket j, fun {k job' n on} hk hmem => ?_,
    fun {k job'} hk hcancelled => ?_, fun {x} hx => ?_,
    fun hs => (m.hasFired_beginSignalWait ..).trans (h.fired hs)⟩
  · have hsize : (m.beginSignalWait ticket j s).2.timetable.waits.size = m.timetable.waits.size + 1 :=
      size_waits_withWait m ticket j (.signal m.timetable.waits.size)
    have hseq : (m.beginSignalWait ticket j s).2.timetable.clock.nextSeq = m.timetable.clock.nextSeq + 1 := rfl
    have hsignal : (m.beginSignalWait ticket j s).2.signals.size = m.signals.size := Array.size_modify
    rw [hsize, hseq, hsignal]
    rcases List.mem_append.1 hx with hx | hx
    · obtain ⟨hw, hk, hs⟩ := h.lt hx
      exact ⟨Nat.lt_succ_of_lt hw, Nat.lt_succ_of_lt hk, hs⟩
    · obtain rfl := List.mem_singleton.1 hx
      exact ⟨Nat.lt_succ_self _, Nat.lt_succ_self _, hlt⟩
  · rw [hjobs] at hk
    split at hk
    · next hkj =>
      obtain rfl := Option.some.inj hk
      rcases List.mem_append.1 hmem with hmem | hmem
      · obtain ⟨x, hx, hxj⟩ := h.pending hj hmem
        exact ⟨x, List.mem_append_left _ hx, hkj ▸ hxj⟩
      · obtain ⟨rfl, rfl⟩ := Prod.mk.inj (List.mem_singleton.1 hmem)
        exact ⟨_, List.mem_append_right _ List.mem_cons_self, hkj.symm, rfl, rfl⟩
    · obtain ⟨x, hx, hxj⟩ := h.pending hk hmem
      exact ⟨x, List.mem_append_left _ hx, hxj⟩
  · rw [hjobs] at hk
    split at hk
    · obtain rfl := Option.some.inj hk
      exact absurd (hc.symm.trans hcancelled) (by decide)
    · exact h.cleared hk hcancelled
  · obtain ⟨hx, hgone⟩ := h.given hx
    refine ⟨List.mem_append_left _ hx, fun job' hk on hmem => ?_⟩
    rw [hjobs] at hk
    split at hk
    · next hkj =>
      obtain rfl := Option.some.inj hk
      rcases List.mem_append.1 hmem with hmem | hmem
      · exact hgone job (hkj ▸ hj) on hmem
      · exact absurd (congrArg Prod.fst (List.mem_singleton.1 hmem)) (Nat.ne_of_lt (h.lt hx).2.1)
    · exact hgone job' hk on hmem

theorem forget (h : Tracks log given fired m) (hx : x ∈ log) (hover : m.timetable.IsOver x.wait) :
    Tracks log (x :: given) fired (m.forget x.job x.waiter) := by
  have hdropped : Tracks log given fired (m.forget x.job x.waiter) := by
    refine h.drop (fun _ _ => rfl) (fun job _ p hp => List.mem_of_mem_filter hp) fun job hj y hy hw hmem => ?_
    have hne : y.waiter ≠ x.waiter := fun he => by
      obtain rfl := h.eq_of_waiter hy hx he
      exact hover.not_pending _ hw
    exact List.mem_filter.2 ⟨hmem, by simpa using hne⟩
  refine ⟨hdropped.lt, h.waits, h.waiters, hdropped.standing, hdropped.signal, hdropped.pending, hdropped.cleared,
    fun {y} hy => ?_, hdropped.fired⟩
  rcases List.mem_cons.1 hy with rfl | hy
  · refine ⟨hx, fun job' hk on hmem => ?_⟩
    rw [Machine.forget, job?_updateJob, if_pos rfl] at hk
    obtain ⟨job, -, rfl⟩ := Option.map_eq_some_iff.1 hk
    simp at hmem
  · exact hdropped.given hy

theorem resume (h : Tracks log given fired m) (hx : x ∈ log) (hover : m.timetable.IsOver x.wait)
    (ticket : Ticket) : Tracks log (x :: given) fired (m.resumption ticket x.on).2 := by
  rcases hover with hdone | hcancelled
  · simp only [SignalWait.on, resumption, hdone]
    exact h.forget hx (.inl hdone)
  · simp only [SignalWait.on, resumption, hcancelled]
    refine ⟨h.lt, h.waits, h.waiters, h.standing, h.signal, h.pending, h.cleared, fun {y} hy => ?_, h.fired⟩
    rcases List.mem_cons.1 hy with rfl | hy
    · refine ⟨hx, fun job hk on hmem => ?_⟩
      have hc : job.cancelled = true := by
        cases h.standing hx with
        | pending hw => cases hcancelled.symm.trans hw
        | done hw => cases hcancelled.symm.trans hw
        | cancelled _ hc => rwa [isCancelled_eq hk] at hc
      rw [h.cleared hk hc] at hmem
      cases hmem
    · exact h.given hy

end Tracks

/-- Who may wait for a signal that has not fired begins to. -/
theorem beginJoin_suspended {ticket : Ticket} {on : Suspension}
    (h : m.beginJoin ticket j s = (.suspended on, m')) :
    m.isCancelled j = false ∧ m.hasFired s = false ∧ m.beginSignalWait ticket j s = (on, m') := by
  unfold beginJoin at h
  split at h
  · cases h
  · next hc =>
    split at h
    · cases h
    · next hf =>
      obtain ⟨hon, hm⟩ := Prod.mk.inj h
      exact ⟨by simpa using hc, by simpa using hf, Prod.ext (WaitStart.suspended.inj hon) hm⟩

theorem beginAwait_suspended {ticket : Ticket} {on : Suspension}
    (h : m.beginAwait ticket j s = (.suspended on, m')) : m.beginJoin ticket j s = (.suspended on, m') := by
  unfold beginAwait at h
  split at h
  · cases h
  · exact h

theorem Tracks.join (h : Tracks log given fired m) {ticket : Ticket} {k : Nat} {w : WaitId} (hj : j < m.jobs.size)
    (hs : s < m.signals.size) (hjoin : m.beginJoin ticket j s = (.suspended (.wait j k w), m')) :
    Tracks (log ++ [⟨ticket, j, s, k, w⟩]) given fired m' := by
  obtain ⟨hc, hf, hbegun⟩ := beginJoin_suspended hjoin
  have hget : m.job? j = some m.jobs[j] := Array.getElem?_eq_getElem hj
  have hwait := h.beginSignalWait hget ((isCancelled_eq hget).symm.trans hc) hs hf ticket
  rw [hbegun] at hwait
  obtain ⟨-, rfl, rfl⟩ := Suspension.wait.inj (congrArg Prod.fst hbegun)
  exact hwait

theorem Waited.tracks (h : Waited log given fired m) : Tracks log given fired m := by
  induction h with
  | start env => exact tracks_start env
  | incident _ hm ih => exact ih.incident hm
  | fire _ hlt ih => exact ih.fired_fire hlt
  | join _ hj hs hjoin ih => exact ih.join hj hs hjoin
  | await _ hj hs hawait ih => exact ih.join hj hs (beginAwait_suspended hawait)
  | resume ticket _ hx hover ih => exact ih.resume hx hover ticket

/-- The wait is for the signal and has not been cancelled. -/
def Awaits (m : Machine ε τ) (s : SignalId) (x : SignalWait) : Prop :=
  x.signal = s ∧ m.timetable.waits[x.wait]? ≠ some .cancelled

instance (m : Machine ε τ) (s : SignalId) (x : SignalWait) : Decidable (m.Awaits s x) :=
  inferInstanceAs (Decidable (_ ∧ _))

/-- Those whom a signal wakes when it fires. -/
theorem Tracks.fst_resolveAll (h : Tracks log given fired m) {waiters : List WaitId}
    (hs : m.signals[s]? = some ⟨false, waiters⟩) :
    (m.timetable.resolveAll .done waiters).1 = (log.filter (m.Awaits s ·)).map (·.ticket) := by
  have hf : m.hasFired s = false := by rw [hasFired, hs]; rfl
  have hnodup : waiters.Nodup := by
    rw [h.signal hs]
    exact h.waits.sublist (List.filter_sublist.map _)
  rw [Timetable.fst_resolveAll _ _ hnodup, h.signal hs, List.filterMap_map, ← List.filterMap_eq_map,
    List.filterMap_filter, List.filterMap_filter]
  refine List.filterMap_congr fun x hx => ?_
  by_cases hxs : x.signal = s
  · cases h.standing hx with
    | pending hw => simp [Timetable.resolve, Awaits, hw, hxs]
    | done _ hfired => exact absurd (hf.symm.trans (hxs ▸ hfired)) (by decide)
    | cancelled hw => simp [Timetable.resolve, Awaits, hw]
  · simp [Awaits, hxs]

/-- What becomes of the waits of `log`, when those of `given` have given their result and the signals of
`fired` have been fired. -/
structure Answers (log given : List SignalWait) (fired : List SignalId) (m : Machine ε τ) : Prop where
  /-- No wait begins twice. -/
  nodup : log.Nodup
  /-- Until its signal fires, a wait is cancelled with its job and not otherwise. -/
  cancelled : ∀ x ∈ log, m.hasFired x.signal = false →
    (m.timetable.waits[x.wait]? = some .cancelled ↔ m.isCancelled x.job = true)
  /-- A signal that fires wakes those who wait for it, in the order in which they began to. -/
  wakes : ∀ s, m.hasFired s = false → s < m.signals.size →
    (m.fire s).hasFired s = true ∧
      (m.fire s).dispatcher = m.dispatcher.wakeAll ((log.filter (m.Awaits s ·)).map (·.ticket))
  /-- With these waits it is done, and it leaves the others alone. -/
  resolves : ∀ s, m.hasFired s = false → s < m.signals.size → ∀ x ∈ log,
    (m.fire s).timetable.waits[x.wait]? = if m.Awaits s x then some .done else m.timetable.waits[x.wait]?
  fired : ∀ s ∈ fired, m.hasFired s = true
  again : ∀ s, m.hasFired s = true → m.fire s = m
  join : ∀ ticket j s, (m.beginJoin ticket j s).1 = .through ↔ m.hasFired s = true ∧ m.isCancelled j = false
  await : ∀ ticket j s, (m.beginAwait ticket j s).1 = .through ↔ m.hasFired s = true
  resumed : ∀ x ∈ log, ∀ ticket, (m.resumption ticket x.on).1 = some (.ok ()) →
    m.hasFired x.signal = true ∧ m.isCancelled x.job = false
  /-- Jobs know of no other waits. -/
  pending : ∀ j job, m.job? j = some job → ∀ k on, (k, on) ∈ job.pending →
    ∃ x ∈ log, x.job = j ∧ x.waiter = k
  given : ∀ x ∈ given, ∀ job, m.job? x.job = some job → ∀ on, (x.waiter, on) ∉ job.pending

theorem Tracks.cancelled_iff (h : Tracks log given fired m) (hx : x ∈ log) (hf : m.hasFired x.signal = false) :
    m.timetable.waits[x.wait]? = some .cancelled ↔ m.isCancelled x.job = true := by
  cases h.standing hx with
  | pending hw _ hlisted =>
    obtain ⟨job, hk, hc, -⟩ := hlisted
    simp [hw, isCancelled_eq hk, hc]
  | done _ hfired => exact absurd (hf.symm.trans hfired) (by decide)
  | cancelled hw hc => exact iff_of_true hw hc

theorem Tracks.resolves (h : Tracks log given fired m) {waiters : List WaitId}
    (hs : m.signals[s]? = some ⟨false, waiters⟩) (hx : x ∈ log) :
    (m.fire s).timetable.waits[x.wait]? =
      if m.Awaits s x then some .done else m.timetable.waits[x.wait]? := by
  have hresolves := resolves_fire hs
  have hf : m.hasFired s = false := by rw [hasFired, hs]; rfl
  split
  · next hawaits =>
    obtain ⟨hxs, hopen⟩ := hawaits
    cases h.standing hx with
    | pending hw => exact (hresolves.hit _ ((h.mem_waiters hs hx).2 hxs) _ hw).1
    | done _ hfired => exact absurd (hf.symm.trans (hxs ▸ hfired)) (by decide)
    | cancelled hw => exact absurd hw hopen
  · next hawaits =>
    by_cases hxs : x.signal = s
    · have hw : m.timetable.waits[x.wait]? = some .cancelled := by
        by_contra hopen
        exact hawaits ⟨hxs, hopen⟩
      exact hresolves.kept _ fun _ hpending => by cases hw.symm.trans hpending
    · exact hresolves.untouched _ fun hin => hxs ((h.mem_waiters hs hx).1 hin)

theorem beginJoin_through (m : Machine ε τ) (ticket : Ticket) (j : JobId) (s : SignalId) :
    (m.beginJoin ticket j s).1 = .through ↔ m.hasFired s = true ∧ m.isCancelled j = false := by
  unfold beginJoin
  split
  · next hc => simp [hc]
  · next hc =>
    split
    · next hf => simp [hc, hf]
    · next hf => simp [hf]

theorem beginAwait_through (m : Machine ε τ) (ticket : Ticket) (j : JobId) (s : SignalId) :
    (m.beginAwait ticket j s).1 = .through ↔ m.hasFired s = true := by
  unfold beginAwait
  split
  · next hf => simp [hf]
  · next hf => simp [hf, beginJoin_through]

theorem Tracks.resumed (h : Tracks log given fired m) (hx : x ∈ log) {ticket : Ticket}
    (hok : (m.resumption ticket x.on).1 = some (.ok ())) :
    m.hasFired x.signal = true ∧ m.isCancelled x.job = false := by
  cases h.standing hx with
  | pending hw => simp [SignalWait.on, resumption, hw] at hok
  | cancelled hw => simp [SignalWait.on, resumption, hw] at hok
  | done hw hf =>
    refine ⟨hf, Bool.eq_false_iff.2 fun hc => ?_⟩
    simp [SignalWait.on, resumption, hw, hc] at hok

/-- However waits for signals are polled while signals fire and jobs are cancelled, the first firing of a
signal wakes those who wait for it then, a wait succeeds for a job that is not cancelled and a signal that has
fired, and a job forgets a wait that has given its result. -/
theorem signal_waits_are_answered (h : Waited log given fired m) : Answers log given fired m := by
  have ht := h.tracks
  have hunfired {s : SignalId} (hf : m.hasFired s = false) (hlt : s < m.signals.size) :
      ∃ waiters, m.signals[s]? = some (Signal.mk false waiters) := by
    have hget : m.signals[s]? = some m.signals[s] := Array.getElem?_eq_getElem hlt
    match hsignal : m.signals[s] with
    | ⟨true, _⟩ => simp [hasFired, hget, hsignal] at hf
    | ⟨false, waiters⟩ => exact ⟨waiters, hget.trans (congrArg some hsignal)⟩
  refine ⟨ht.waits.of_map _, fun x hx hf => ht.cancelled_iff hx hf, fun s hf hlt => ?_, fun s hf hlt x hx => ?_,
    fun s hs => ht.fired hs, fun s hf => ?_, beginJoin_through m, beginAwait_through m,
    fun x hx _ hok => ht.resumed hx hok, fun j job hj k on hmem => ?_, fun x hx => (ht.given hx).2⟩
  · obtain ⟨waiters, hs⟩ := hunfired hf hlt
    refine ⟨(hasFired_fire hlt s).2 (.inl rfl), ?_⟩
    rw [fire_of_unfired hs, ht.fst_resolveAll hs]
    rfl
  · obtain ⟨waiters, hs⟩ := hunfired hf hlt
    exact ht.resolves hs hx
  · obtain ⟨waiters, hs⟩ := hasFired_iff.1 hf
    exact fire_of_fired hs
  · obtain ⟨x, hx, hxj, hxk, -⟩ := ht.pending hj hmem
    exact ⟨x, hx, hxj, hxk⟩

def parted : Machine Unit Unit := (((Machine.start ()).root .scope).2.child 0 .task).2.newSignal.2

/-- Their tasks wait for the same signal, and the child is cancelled before it fires. -/
def partedByCancel : Machine Unit Unit :=
  (((parted.beginJoin 0 0 2).2.beginAwait 1 1 2).2.cancel 1).fire 2

/-- The wait of the job is done and the one of the child is not; neither is left with its job. -/
theorem partedByCancel_answered :
    Answers [⟨0, 0, 2, 0, 0⟩, ⟨1, 1, 2, 1, 1⟩] [⟨1, 1, 2, 1, 1⟩, ⟨0, 0, 2, 0, 0⟩] [2]
      ((partedByCancel.resumption 0 (.wait 0 0 0)).2.resumption 1 (.wait 1 1 1)).2 ∧
    (partedByCancel.resumption 0 (.wait 0 0 0)).1 = some (.ok ()) ∧
    (partedByCancel.resumption 1 (.wait 1 1 1)).1 = some (.error .cancelled) := by
  have hjobs : Waited [] [] [] parted :=
    (((Waited.start ()).incident (.root .scope)).incident (.child 0 .task)).incident .newSignal
  have hjoin : Waited [⟨0, 0, 2, 0, 0⟩] [] [] (parted.beginJoin 0 0 2).2 :=
    hjobs.join (by decide) (by decide) rfl
  have hawait :
      Waited [⟨0, 0, 2, 0, 0⟩, ⟨1, 1, 2, 1, 1⟩] [] [] ((parted.beginJoin 0 0 2).2.beginAwait 1 1 2).2 :=
    hjoin.await (by decide) (by decide) rfl
  have hfired : Waited [⟨0, 0, 2, 0, 0⟩, ⟨1, 1, 2, 1, 1⟩] [] [2] partedByCancel :=
    (hawait.incident (.cancel 1)).fire (by cbv)
  have hdone : partedByCancel.timetable.waits[0]? = some .done := by cbv
  have hcancelled :
      (partedByCancel.resumption 0 (.wait 0 0 0)).2.timetable.waits[1]? = some .cancelled := by cbv
  have hover := (hfired.resume 0 List.mem_cons_self (.inl hdone)).resume 1
    (List.mem_cons_of_mem _ List.mem_cons_self) (.inr hcancelled)
  exact ⟨signal_waits_are_answered hover, by cbv, by cbv⟩

end Machine

end RacePuzzle
