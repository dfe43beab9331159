import RacePuzzle.Proofs.Machine.Failure
import RacePuzzle.Proofs.Evaluation.CancelledJobs
import RacePuzzle.Proofs.Evaluation.StructuredConcurrency

/-! No failure is swallowed. Every step of a run leaves each failure where it is to be heard, so a job
that hears of a failure has one on record before the task that reports it leaves; and what a task
does below a job that absorbs failures stays below the task. -/
namespace RacePuzzle

open Interpreter Machine

variable {t : Statement} {L : Ledger} {m m' : ProgramMachine} {s s' : Snapshot}

theorem sameReports_record (m : ProgramMachine) (id : StatementId) (mark : Mark) :
    SameReports m (record id mark m) :=
  .ofJobs rfl

theorem sameReports_print (m : ProgramMachine) (id : StatementId) (value : String) :
    SameReports m (print id value m) := by
  unfold print
  split
  · exact sameReports_record ..
  · exact .refl m

theorem sameReports_printResult (m : ProgramMachine) (id : StatementId) (j : JobId) (text : String) :
    SameReports m (printResult id j text m).2 := by
  unfold printResult
  dsimp only
  split
  · exact (sameReports_record ..).trans (sameReports_print ..)
  · exact sameReports_record ..

theorem sameReports_catchException (m : ProgramMachine) (id : StatementId) (kind : ExceptionKind)
    (result : Completion) : SameReports m (catchException id kind result m).2 := by
  unfold catchException
  split
  · exact .refl m
  · split
    · exact sameReports_print ..
    · exact .refl m

theorem sameReports_beginDelay (m : ProgramMachine) (ticket : Ticket) (j : JobId) (time : Nat) :
    SameReports m (m.beginDelay ticket j time).2 := by
  unfold beginDelay
  split
  · exact .ofJobs rfl
  · exact (sameReports_updateJob (f := fun job =>
      { job with pending := job.pending ++ [(m.timetable.clock.nextSeq, .timer)] })
      fun _ => rfl).trans (.ofJobs rfl)

theorem sameReports_beginJoin (m : ProgramMachine) (ticket : Ticket) (j : JobId) (s : SignalId) :
    SameReports m (m.beginJoin ticket j s).2 := by
  unfold beginJoin
  split
  · exact .refl m
  · split
    · exact .refl m
    · exact (sameReports_updateJob (f := fun job => { job with pending := job.pending ++
        [(m.timetable.clock.nextSeq, .signal m.timetable.waits.size)] }) fun _ => rfl).trans
          (.ofJobs rfl)

theorem sameReports_beginAwait (m : ProgramMachine) (ticket : Ticket) (j : JobId) (s : SignalId) :
    SameReports m (m.beginAwait ticket j s).2 := by
  unfold beginAwait
  split
  · exact .refl m
  · exact sameReports_beginJoin ..

theorem sameReports_afterWait {frames : List ProgramFrame} {k : ProgramMachine → ProgramReached}
    (hk : ∀ m, SameReports m (k m).2) (r : WaitStart × ProgramMachine) :
    SameReports r.2 (Interpreter.afterWait frames k r).2 := by
  obtain ⟨start, m⟩ := r
  cases start with
  | through => exact hk m
  | refused _ => exact .refl m
  | suspended _ => exact .refl m

theorem sameReports_performAction (ticket : Ticket) (j : JobId) (id : StatementId) (action : Action)
    (m : ProgramMachine) : SameReports m (performAction ticket j id action m).2 := by
  have hdone : ∀ m : ProgramMachine, SameReports m (Reached.done m).2 := fun m => .refl m
  have hrefer : ∀ var, SameReports m (refer id var m).2 := fun var => sameReports_record ..
  have hperforms := performs_performAction ticket j id action m
  generalize performAction ticket j id action m = r at hperforms ⊢
  cases hperforms with
  | delay => exact (sameReports_beginDelay ..).trans (sameReports_afterWait hdone _)
  | print => exact sameReports_print ..
  | throwException => exact .refl m
  | job => exact .ofJobs rfl
  | joinNothing _ | cancelNothing _ | completeNothing _ | awaitNothing _ _ => exact hrefer _
  | join _ _ =>
    exact (hrefer _).trans ((sameReports_beginJoin ..).trans (sameReports_afterWait hdone _))
  | cancel _ _ => exact (hrefer _).trans (sameReports_cancel ..)
  | cancelBare _ | completeJob _ => exact (hrefer _).trans (sameReports_fire ..)
  | await _ _ =>
    exact (hrefer _).trans ((sameReports_beginAwait ..).trans
      (sameReports_afterWait (fun m => sameReports_printResult m ..) _))
  | printText _ => exact (hrefer _).trans (sameReports_print ..)

theorem sameReports_resumption (m : ProgramMachine) (ticket : Ticket) (on : Suspension) :
    SameReports m (m.resumption ticket on).2 := by
  cases on with
  | entry j => exact .refl m
  | wait j waiter w =>
    unfold resumption
    dsimp only
    split
    · exact .refl m
    · exact sameReports_updateJob fun _ => rfl
    · exact .ofJobs rfl
  | children j => exact sameReports_awaitChildren ..
  | turn => exact .refl m

/-- The machine `m₁` in which the job, whose own code has ended, is about to settle. -/
def Machine.Ended (m : ProgramMachine) (j : JobId) (m₁ : ProgramMachine) : Prop :=
  m₁ = m ∨ ∃ result ticket, m₁ = ((m.conclude j result).awaitChildren ticket j).2

theorem Machine.Ended.bond {j : JobId} {m₁ : ProgramMachine} (h : m.Ended j m₁) (hs : m.Sound)
    (k : JobId) : m₁.bond? k = m.bond? k := by
  rcases h with rfl | ⟨result, ticket, rfl⟩
  · rfl
  · exact (bond?_awaitChildren (hs.conclude j result).tree.links ticket j k).trans
      ((sameBonds_conclude m j result).bond k)

theorem Machine.Ended.reports {j : JobId} {m₁ : ProgramMachine} (h : m.Ended j m₁) :
    ∃ result, SameReports (m.conclude j result) m₁ := by
  rcases h with rfl | ⟨result, ticket, rfl⟩
  · exact ⟨.ok (), .refl _⟩
  · exact ⟨result, sameReports_awaitChildren ..⟩

/-- How a step changes what the jobs have to report. -/
inductive Reporting (m m' : ProgramMachine) : Prop
  | nothing : SameReports m m' → Reporting m m'
  /-- A job is made. -/
  | made {m₁ : ProgramMachine} {p pj kind} : m₁.jobs = m.jobs → m₁.job? p = some pj →
      SameReports (m₁.child p kind).2 m' → Reporting m m'
  /-- The own code of an open job ends. -/
  | concluded {j job result} : m.job? j = some job → job.outcome = none →
      SameReports (m.conclude j result) m' → Reporting m m'
  /-- An open job settles, whose own code has just ended if it had not. -/
  | settled {m₁ : ProgramMachine} {j job job₁} : m.job? j = some job → job.outcome = none →
      m.Ended j m₁ → Tree none m₁ → m₁.job? j = some job₁ → job₁.children = [] → m' = (m₁.settle j).2 →
      Reporting m m'

theorem report?_child {p : JobId} {pj : Job} (hp : m.job? p = some pj) (kind : JobRole)
    (k : JobId) : (m.child p kind).2.report? k =
      if k = m.jobs.size then some ⟨kind, none, false, none, some p⟩ else m.report? k := by
  unfold report?
  rw [job?_child hp]
  split
  · rfl
  · split
    · next hkp =>
      subst hkp
      rw [hp]
      rfl
    · rfl

theorem failuresKept_child {p : JobId} {pj : Job} (hp : m.job? p = some pj) (kind : JobRole) :
    FailuresKept m (m.child p kind).2 := by
  intro j r hj
  obtain ⟨job, hjob, -⟩ := report?_eq_some.1 hj
  refine ⟨r, ?_, rfl, fun _ => id⟩
  rw [report?_child hp, if_neg (Nat.ne_of_lt (job?_lt hjob)), hj]

/-- A new job has nothing to tell, and nobody has told it anything. -/
theorem Machine.Heard.child {p : JobId} {pj : Job} (h : Heard [] m) (hl : Links none m)
    (hp : m.job? p = some pj) (kind : JobRole) : Heard [] (m.child p kind).2 := by
  refine ⟨fun {k r} hk hr => ?_, fun {k r q} hk hr hq => ?_, fun {k r kind'} hk ho hf => ?_⟩
  all_goals
    rw [report?_child hp] at hk
    split at hk
  · obtain rfl := Option.some.inj hk
    cases hr
  · exact h.recorded hk hr
  · obtain rfl := Option.some.inj hk
    cases hr
  · obtain ⟨job, hjob, rfl⟩ := report?_eq_some.1 hk
    obtain ⟨hkind, hparent⟩ := parent_of_hearer? hq
    obtain ⟨b, hb, -⟩ := hl.parent (bond?_of_job? hjob) hparent (by simp)
    have hne : q ≠ m.jobs.size := Nat.ne_of_lt (bond?_lt hb)
    have hsame : (m.child p kind).2.hearer? job.report = m.hearer? job.report := by
      unfold hearer?
      rw [hkind, hparent]
      simp only [report?_child hp, if_neg hne]
    rw [hsame] at hq
    obtain ⟨pr, hpr, hf⟩ := (h.told hk hr hq).resolve_left List.not_mem_nil
    exact .inr ⟨pr, by rw [report?_child hp, if_neg hne, hpr], hf⟩
  · obtain rfl := Option.some.inj hk
    cases hf
  · exact h.settled hk ho hf

theorem Machine.Heard.conclude {j : JobId} {job : Job} (h : Heard [] m) (hl : Links none m)
    (hj : m.job? j = some job) (hopen : job.outcome = none) (result : Completion) :
    Heard [] (m.conclude j result) := by
  unfold Machine.conclude
  split
  · exact h
  · exact h.congr (sameReports_cancel ..)
  · exact (h.weaken (by simp)).fail hl (fun hx => by cases hx) hj hopen

theorem Reporting.heard (h : Reporting m m') (hs : m.Sound) (hm : Heard [] m) : Heard [] m' := by
  cases h with
  | nothing hsame => exact hm.congr hsame
  | made hjobs hp hchild =>
    have hbond : ∀ j, bond? _ j = m.bond? j := fun j => congrArg (Option.map Job.bond ·[j]?) hjobs
    exact ((hm.congr (.ofJobs hjobs)).child (hs.tree.links.congr hbond) hp _).congr hchild
  | concluded hj hopen hsame => exact (hm.conclude hs.tree.links hj hopen _).congr hsame
  | settled hj hopen hm₁ htree hj₁ hnone hm' =>
    obtain ⟨result, hsame⟩ := hm₁.reports
    exact hm' ▸ ((hm.conclude hs.tree.links hj hopen result).congr hsame).settle htree hj₁ hnone

theorem Reporting.kept (h : Reporting m m') : FailuresKept m m' := by
  cases h with
  | nothing hsame => exact hsame.kept
  | made hjobs hp hchild =>
    exact ((SameReports.ofJobs hjobs).kept.trans (failuresKept_child hp _)).trans hchild.kept
  | concluded hj hopen hsame => exact (failuresKept_conclude ..).trans hsame.kept
  | settled hj hopen hm₁ htree hj₁ hnone hm' =>
    obtain ⟨result, hsame⟩ := hm₁.reports
    exact hm' ▸ ((failuresKept_conclude ..).trans hsame.kept).trans (failuresKept_settle ..)

theorem reporting_enter {j : JobId} {job : Job} {id : StatementId} {head : Head}
    {inner : List Statement} (hj : m.job? j = some job)
    (hbackground : ∃ bg, m.job? m.env.background = some bg) :
    Reporting m (enter j id head inner (record id .began m)).2 := by
  obtain ⟨bg, hbg⟩ := hbackground
  have hbegan : (record id .began m).jobs = m.jobs := rfl
  have hnew : ∀ {p pj kind} {m' : ProgramMachine}, m.job? p = some pj →
      m'.jobs = ((record id .began m).child p kind).2.jobs → Reporting m m' :=
    fun hp hjobs => .made hbegan hp (.ofJobs hjobs)
  cases head with
  | launch => exact hnew hj rfl
  | scopeLaunch => exact hnew hbg rfl
  | launchJob var => exact hnew hj rfl
  | async var text => exact hnew hj rfl
  | coroutineScope => exact hnew hj rfl
  | supervisorScope => exact hnew hj rfl
  | tryCatch kind => exact .nothing (.ofJobs rfl)

theorem reporting_close {j : JobId} {job : Job} (hs : m.Sound) (hj : m.job? j = some job)
    (hopen : job.outcome = none) (ticket : Ticket) (result : Completion) :
    Reporting m (Interpreter.close ticket j result m).2 := by
  have htree := ((hs.conclude j result).awaitChildren ticket j).tree
  have hlinks := (hs.conclude j result).tree.links
  obtain ⟨job₀, hj₀, -⟩ := bond?_eq_some.1
    (((sameBonds_conclude m j result).bond j).trans (bond?_of_job? hj))
  obtain ⟨job₁, hj₁, hsame⟩ := bond?_eq_some.1
    ((bond?_awaitChildren hlinks ticket j j).trans (bond?_of_job? hj₀))
  have hidle := awaitChildren_cases hlinks hj₀ ticket
  unfold Interpreter.close Reached.afterClose Machine.close
  match hc : (m.conclude j result).awaitChildren ticket j with
  | (true, m₁) =>
    rw [hc] at htree hj₁ hidle
    have hnone : job₀.children = [] := (hidle.resolve_right (by simp)).1
    exact .settled hj hopen (.inr ⟨result, ticket, by rw [hc]⟩) htree hj₁
      ((congrArg Bond.children hsame).trans hnone) rfl
  | (false, m₁) => exact .concluded hj hopen (hc ▸ sameReports_awaitChildren ..)

theorem Snapshot.Upheld.exists_open (h : s.Upheld t L) {j : JobId} {frames : List ProgramFrame}
    (hr : Runs t L s.machine.env.trace.toList (some j) frames)
    (hle : RacePuzzle.opened j frames ≤ s.opened j) :
    ∃ job, s.machine.job? j = some job ∧ job.outcome = none := by
  obtain ⟨b, hb, hopen⟩ := h.isOpen_of_runs hr hle
  obtain ⟨job, hjob, rfl⟩ := bond?_eq_some.1 hb
  exact ⟨job, hjob, hopen⟩

theorem Snapshot.Upheld.exists_background (h : s.Upheld t L) :
    ∃ bg, s.machine.job? s.machine.env.background = some bg := by
  have hlt : 1 < s.machine.jobs.size := h.ledger.two
  rw [h.background]
  exact ⟨_, Array.getElem?_eq_getElem hlt⟩

section Code

variable {seat : SeatId} {ticket : Ticket} {frames frames' outer : List ProgramFrame}
  {result result' : Completion}

theorem Snapshot.Upheld.reporting_settle {j : JobId}
    (h : Upheld t L ⟨m, .running seat ticket (.settle j :: outer) result⟩) :
    Reporting m (m.settle j).2 := by
  cases (h.polled rfl).ready with
  | runs hr => cases hr
  | settling hr hb hnone =>
    obtain ⟨job, hjob, hopen⟩ := h.exists_open hr (by simp [Snapshot.opened, Focus.opened,
      ProgramFrame.opens?])
    obtain ⟨job', hjob', rfl⟩ := bond?_eq_some.1 hb
    obtain rfl := Option.some.inj (hjob.symm.trans hjob')
    exact .settled hjob hopen (.inl rfl) h.sound.tree hjob hnone rfl

theorem Snapshot.Upheld.reporting_code (h : Upheld t L ⟨m, .running seat ticket frames result⟩)
    (hs : Thread.Step ticket ⟨frames, result, m⟩ ⟨frames', result', m'⟩) : Reporting m m' := by
  cases hs with
  | pass _ => exact .nothing (.refl m)
  | bodyEnd => exact .nothing (.refl m)
  | @act j id action _ _ _ _ _ he =>
    have hact := sameReports_performAction ticket j id action (record id .began m)
    rw [he] at hact
    exact .nothing ((sameReports_record ..).trans hact)
  | enter =>
    obtain ⟨⟨h₁, -⟩, hr, -⟩ := h.begin
    obtain ⟨job, hjob, -⟩ := h₁.exists_open hr (Nat.le_add_left _ _)
    exact reporting_enter hjob h.exists_background
  | leave => exact .nothing (sameReports_record ..)
  | @catching id kind _ _ _ _ _ he =>
    have hcatch := sameReports_catchException m id kind result
    rw [he] at hcatch
    exact .nothing hcatch
  | close he =>
    obtain ⟨-, hr, -⟩ := h.runs_close
    obtain ⟨job, hjob, hopen⟩ := h.exists_open hr (Nat.le_add_left _ _)
    have hclose := reporting_close h.sound hjob hopen ticket result
    rwa [he] at hclose
  | settle => exact h.reporting_settle
  | @awaited id j text _ _ _ _ he =>
    have hprint := sameReports_printResult m id j text
    rw [he] at hprint
    exact .nothing hprint
  | program => exact .nothing ((sameReports_cancel ..).trans (.ofJobs rfl))

/-- The own code of a job has ended, and the job waits for its children. -/
theorem sameReports_suspendClose {j : JobId} {on : Suspension} {inner : List ProgramFrame}
    (he : Interpreter.close ticket j result m = (.suspended on inner, m')) :
    SameReports (m.conclude j result) m' := by
  have hsame := sameReports_awaitChildren (m.conclude j result) ticket j
  unfold Interpreter.close Reached.afterClose Machine.close at he
  match hc : (m.conclude j result).awaitChildren ticket j with
  | (true, m₁) => simp [hc] at he
  | (false, m₁) =>
    rw [hc] at he hsame
    obtain ⟨-, rfl⟩ := Prod.mk.inj he
    exact hsame

theorem Snapshot.Upheld.reporting_suspend {on : Suspension}
    (h : Upheld t L ⟨m, .running seat ticket frames result⟩)
    (hs : Thread.Suspends ticket ⟨frames, result, m⟩ on frames' m')
    (d : Dispatcher (Task ProgramFrame)) : Reporting m { m' with dispatcher := d } := by
  cases hs with
  | @act j id action _ _ _ _ _ _ he =>
    have hact := sameReports_performAction ticket j id action (record id .began m)
    rw [he] at hact
    exact .nothing (((sameReports_record ..).trans hact).trans (.ofJobs rfl))
  | close he =>
    obtain ⟨-, hr, -⟩ := h.runs_close
    obtain ⟨job, hjob, hopen⟩ := h.exists_open hr (Nat.le_add_left _ _)
    exact .concluded hjob hopen ((sameReports_suspendClose he).trans (.ofJobs rfl))

end Code

theorem Snapshot.Upheld.reporting (h : s.Upheld t L) (hs : Step s s') :
    Reporting s.machine s'.machine := by
  have hresume : ∀ {m m' : ProgramMachine} {d ticket on result},
      ({ m with dispatcher := d } : ProgramMachine).resumption ticket on = (result, m') →
      SameReports m m' := by
    intro m m' d ticket on result hres
    have hsame := sameReports_resumption ({ m with dispatcher := d } : ProgramMachine) ticket on
    have hdispatch : SameReports m { m with dispatcher := d } := .ofJobs rfl
    rw [hres] at hsame
    exact hdispatch.trans hsame
  cases hs with
  | skip => exact .nothing (.ofJobs rfl)
  | sleepOn _ _ hres => exact .nothing ((hresume hres).trans (.ofJobs rfl))
  | goOn _ _ hres => exact .nothing (hresume hres)
  | code hstep => exact h.reporting_code hstep
  | suspend hsus => exact h.reporting_suspend hsus _
  | finish => exact .nothing (.ofJobs rfl)
  | tick => exact .nothing (.ofJobs rfl)

theorem heard_loaded (t : Statement) : Heard [] t.loaded := by
  have hnone : ∀ {j r}, t.loaded.report? j = some r →
      r.failure = none ∧ r.reported = false ∧ r.outcome = none := by
    intro j r hj
    obtain ⟨job, hjob, rfl⟩ := report?_eq_some.1 hj
    obtain ⟨-, kind, rfl⟩ := of_job?_loaded hjob
    exact ⟨rfl, rfl, rfl⟩
  refine ⟨fun hj hr => ?_, fun hj hr => ?_, fun hj ho => ?_⟩
  · simp [(hnone hj).2.1] at hr
  · simp [(hnone hj).2.1] at hr
  · simp [(hnone hj).2.2] at ho

/-- Nobody misses a failure, in any state of a run. -/
theorem History.heard (h : History t L s) : Heard [] s.machine := by
  induction h with
  | start => exact heard_loaded t
  | next hh hs _ _ ih => exact (hh.upheld.reporting hs).heard hh.upheld.sound ih

theorem History.failuresKept (h : History t L s) (hs : Snapshot.Steps s s') :
    FailuresKept s.machine s'.machine := by
  induction hs with
  | refl => exact .refl _
  | tail hsteps hstep ih =>
    obtain ⟨L₁, h₁, -⟩ := h.steps hsteps
    exact ih.trans (h₁.upheld.reporting hstep).kept

theorem below_congr (hb : ∀ j, m'.bond? j = m.bond? j) {j k : JobId} :
    m'.Below j k ↔ m.Below j k := by
  have hlink : ∀ {a b : ProgramMachine}, (∀ j, b.bond? j = a.bond? j) → ∀ {j k : JobId},
      b.Below j k → a.Below j k := by
    intro a b hb j k h
    refine Relation.ReflTransGen.mono (fun p c hlink => ?_) j k h
    obtain ⟨job, hjob, hmem⟩ := hlink
    obtain ⟨job', hjob', hsame⟩ := bond?_eq_some.1 ((hb p).symm.trans (bond?_of_job? hjob))
    have hchildren : job'.children = job.children := congrArg Bond.children hsame
    exact ⟨job', hjob', hchildren ▸ hmem⟩
  exact ⟨hlink hb, hlink fun j => (hb j).symm⟩

/-- A cancellation that starts from `jobs` reaches nothing but what is below them. -/
theorem job?_cancelAll_of_not_below {jobs : List JobId} {k : JobId}
    (hk : ∀ j ∈ jobs, ¬ m.Below j k) : (m.cancelAll jobs).job? k = m.job? k := by
  fun_induction Machine.cancelAll m jobs with
  | case1 m => rfl
  | case2 m j rest hj ih => exact ih fun i hi => hk i (List.mem_cons_of_mem _ hi)
  | case3 m j rest job hj hc _ ih =>
    have hne : k ≠ j := fun he => hk j List.mem_cons_self (he ▸ .refl)
    rw [ih fun i hi => ?_, job?_cancelOne hj, if_neg hne]
    rw [below_congr (bond?_cancelOne hj)]
    rcases List.mem_append.1 hi with hi | hi
    · exact fun hbelow => hk j List.mem_cons_self (.head ⟨job, hj, hi⟩ hbelow)
    · exact hk i (List.mem_cons_of_mem _ hi)
  | case4 m j rest job hj hc ih => exact ih fun i hi => hk i (List.mem_cons_of_mem _ hi)

/-- The own code of a job that nobody listens to ends, and nothing happens but below the job. -/
theorem job?_conclude_of_not_below {j k : JobId} {job : Job} (hj : m.job? j = some job)
    (hnobody : m.listener? job = none) (hk : ¬ m.Below j k) (result : Completion) :
    (m.conclude j result).job? k = m.job? k := by
  have hcancel : ∀ {m : ProgramMachine}, ¬ m.Below j k → (m.cancel j).job? k = m.job? k :=
    fun hk => job?_cancelAll_of_not_below (by simpa using hk)
  have hne : k ≠ j := fun he => hk (he ▸ .refl)
  have hrecorded : ∀ kind, ((m.recordFailure j job kind).cancel j).job? k = m.job? k := by
    intro kind
    rw [hcancel (by rwa [below_congr (bond?_recordFailure hj kind)])]
    unfold recordFailure
    rw [job?_set hj, if_neg hne]
  unfold Machine.conclude
  split
  · rfl
  · exact hcancel hk
  · unfold Machine.fail
    split
    · rfl
    · next job' hsome =>
      obtain rfl := Option.some.inj (hj.symm.trans hsome)
      split
      · simp only [hnobody, ite_self]
        exact hrecorded _
      · exact hcancel hk

/-- Whether a job is cancelled, and the failure that it has on record. -/
def Machine.standing? (m : ProgramMachine) (j : JobId) : Option (Bool × Option ExceptionKind) :=
  (m.job? j).map fun job => (job.cancelled, job.failure)

/-- A job that nobody listens to settles, and no other job is cancelled or fails. -/
theorem standing?_settle {j k : JobId} {job : Job} (hj : m.job? j = some job)
    (hnobody : m.listener? job = none) (hk : k ≠ j) :
    (m.settle j).2.standing? k = m.standing? k := by
  obtain ⟨f, hf, hsame⟩ := exists_job?_settle hj (.inr hnobody) hk
  unfold standing?
  rw [hf]
  cases m.job? k with
  | none => rfl
  | some job' =>
    obtain ⟨children, sleeper, hjob'⟩ := hsame job'
    simp [hjob', Job.relisted]

/-- The machine `m₁` in which the job `j`, just settled, is about to leave its parent `p`; then comes
the machine `m`. -/
structure Machine.Leaving (p j : JobId) (m₁ m : ProgramMachine) : Prop where
  settled : (m₁.job? j).any (·.outcome.isSome) = true
  listed : (m₁.job? p).any (j ∈ ·.children) = true
  left : m = (m₁.unlink p j).updateJob j ({ · with parent := none })

/-- The job has the failure on record, and that is what it settles with. -/
def Machine.FailsWith (m : ProgramMachine) (j : JobId) (kind : ExceptionKind) : Prop :=
  ∃ job, m.job? j = some job ∧ job.failure = some kind ∧
    ∀ outcome, job.outcome = some outcome → outcome = .failed kind

theorem Machine.Heard.failsWith (h : Heard [] m) {j : JobId} {r : Report} {kind : ExceptionKind}
    (hj : m.report? j = some r) (hf : r.failure = some kind) : m.FailsWith j kind := by
  obtain ⟨job, hjob, rfl⟩ := report?_eq_some.1 hj
  exact ⟨job, hjob, hf, fun o ho => Option.some.inj
    (ho.symm.trans (h.settled hj (show job.outcome.isSome by simp [ho]) hf))⟩

/-- An open task below `p` has failed after the step. -/
structure Snapshot.Fails (s s' : Snapshot) (p j : JobId) : Prop where
  task : ∃ job, s.machine.job? j = some job ∧ job.kind = .task ∧ job.outcome = none ∧
    job.parent = some p
  failed : ∃ job kind, s'.machine.job? j = some job ∧ job.outcome = some (.failed kind)

/-- The step in which a task fails is its settlement. -/
theorem Snapshot.Fails.settled {p j : JobId} (hfails : s.Fails s' p j) (h : s.Upheld t L)
    (hs : Step s s') : ∃ (m₁ : ProgramMachine) (job₁ : Job), s.machine.Ended j m₁ ∧
      Tree none m₁ ∧ m₁.job? j = some job₁ ∧ job₁.children = [] ∧ s'.machine = (m₁.settle j).2 := by
  obtain ⟨⟨job, hjob, -, hopen, -⟩, job', kind, hjob', ho'⟩ := hfails
  have hbond := bond?_of_job? hjob
  -- whoever has the bond of the open job has no outcome yet
  have hnot : ∀ {b}, s'.machine.bond? j = some b → b.outcome ≠ none := by
    intro b hb
    obtain rfl := Option.some.inj ((bond?_of_job? hjob').symm.trans hb)
    exact fun he => absurd (ho'.symm.trans he) (by simp)
  have hsame : ∀ {m : ProgramMachine} {r}, m.report? j = some r → r.outcome = none →
      ¬ SameReports m s'.machine := by
    intro m r hr hopen₂ hsame
    have hreport := hsame.report j
    rw [report?_of_job? hjob', hr] at hreport
    have : job'.outcome = r.outcome := congrArg Report.outcome (Option.some.inj hreport)
    rw [ho', hopen₂] at this
    cases this
  cases h.reporting hs with
  | nothing hreports => exact absurd hreports (hsame (report?_of_job? hjob) hopen)
  | @made m₁ q qj kind hjobs hq hchild =>
    have hold : m₁.job? j = some job := (congrArg (·[j]?) hjobs).trans hjob
    refine absurd hchild (hsame (r := job.report) ?_ hopen)
    rw [report?_child hq, if_neg (Nat.ne_of_lt (job?_lt hold)), report?_of_job? hold]
  | @concluded i _ result hi hiopen hreports =>
    obtain ⟨job₂, hjob₂, hbond₂⟩ := bond?_eq_some.1
      (((sameBonds_conclude s.machine i result).bond j).trans hbond)
    exact absurd hreports
      (hsame (report?_of_job? hjob₂) ((congrArg Bond.outcome hbond₂).trans hopen))
  | @settled m₁ i _ job₁ hi hiopen hm₁ htree hj₁ hnone hm' =>
    obtain ⟨-, hsettles⟩ := settles_settle htree hj₁ hnone
    have hb := hsettles.bond.new ((hm₁.bond h.sound j).trans hbond)
    rw [← hm'] at hb
    have hji : j = i := by
      by_contra hne
      exact hnot hb (by simp [Bond.afterSettling, hne, Job.bond, hopen])
    subst hji
    exact ⟨m₁, job₁, hm₁, htree, hj₁, hnone, hm'⟩

/-- What ties the jobs when one announces its end: it has its outcome, and that is all. -/
theorem bond?_announce {j : JobId} {job : Job} (hj : m.job? j = some job) (k : JobId) :
    (m.announce j job).bond? k =
      if k = j then some { job.bond with outcome := some job.finalOutcome } else m.bond? k := by
  unfold announce
  rw [bond?_fire, (sameBonds_passOnFailure ..).bond]
  unfold bond?
  rw [job?_updateJob]
  split
  · rw [hj]
    rfl
  · rfl

/-- What is known of a task that has just settled with a failure, when it was about to settle. -/
theorem Snapshot.Fails.about {p j : JobId} {m₁ : ProgramMachine} {job₁ : Job}
    (hfails : s.Fails s' p j) (hs : s.machine.Sound) (hended : s.machine.Ended j m₁)
    (htree : Tree none m₁) (hj₁ : m₁.job? j = some job₁) (hnone : job₁.children = [])
    (hm' : s'.machine = (m₁.settle j).2) :
    job₁.kind = .task ∧ job₁.parent = some p ∧ ∃ kind, job₁.failure = some kind := by
  obtain ⟨⟨job, hjob, htask, -, hparent⟩, job', kind, hjob', ho'⟩ := hfails
  obtain ⟨result, hsame⟩ := hended.reports
  obtain ⟨r, hr, hkind, -⟩ := ((failuresKept_conclude ..).trans hsame.kept) (report?_of_job? hjob)
  obtain rfl := Option.some.inj ((report?_of_job? hj₁).symm.trans hr)
  have hb := (hended.bond hs j).trans (bond?_of_job? hjob)
  have hbond : job₁.bond = job.bond := Option.some.inj ((bond?_of_job? hj₁).symm.trans hb)
  refine ⟨hkind.trans htask, (congrArg Bond.parent hbond).trans hparent, ?_⟩
  have hsettled := (settles_settle htree hj₁ hnone).2.bond.new (bond?_of_job? hj₁)
  rw [← hm', bond?_of_job? hjob'] at hsettled
  have hfinal : job'.outcome = some job₁.finalOutcome := by
    simpa [Bond.afterSettling, Job.bond] using congrArg Bond.outcome (Option.some.inj hsettled)
  rw [ho'] at hfinal
  cases hfailure : job₁.failure with
  | some kind => exact ⟨kind, rfl⟩
  | none =>
    rw [Job.finalOutcome, hfailure] at hfinal
    cases hc : job₁.cancelled <;> simp [hc] at hfinal

/-- A parent that does not absorb failures hears of the failure of a task before the task leaves it. -/
theorem Snapshot.Fails.heard {p j : JobId} {pj : Job} (hfails : s.Fails s' p j)
    (h : History t L s) (hs : Step s s') (hp : s.machine.job? p = some pj)
    (habsorbs : pj.kind.absorbsFailures = false) :
    ∃ m₁ kind, Leaving p j m₁ s'.machine ∧ m₁.FailsWith p kind ∧
      ∀ s'', Steps s' s'' → s''.machine.FailsWith p kind := by
  have hsound := h.upheld.sound
  obtain ⟨m₀, job₁, hended, htree, hj₁, hnone, hm'⟩ := hfails.settled h.upheld hs
  obtain ⟨htask, hparent, kind, hfailure⟩ :=
    hfails.about hsound hended htree hj₁ hnone hm'
  obtain ⟨⟨job, hjob, -, hopen, -⟩, -⟩ := hfails
  obtain ⟨result, hsame⟩ := hended.reports
  have hheard : Heard [] m₀ := (h.heard.conclude hsound.tree.links hjob hopen result).congr hsame
  obtain ⟨pr, hpr, hpkind, -⟩ := ((failuresKept_conclude ..).trans hsame.kept) (report?_of_job? hp)
  have hhearer : m₀.hearer? job₁.report = some p := by
    have hnot : pr.kind.absorbsFailures = false := by rw [hpkind]; exact habsorbs
    simp [hearer?, Job.report, htask, hparent, hpr, hnot]
  obtain ⟨pr', hpr', hsome⟩ := hheard.failure_of_hearer? htree hj₁ hfailure hhearer
  obtain ⟨kind', hkind'⟩ := Option.isSome_iff_exists.1 hsome
  have hannounced := hheard.announce htree hj₁ hnone
  obtain ⟨qj, hq, -, hmem⟩ := htree.links.open_parent hj₁ hparent (by simp)
  obtain ⟨-, -, -, hlt, -⟩ := htree.links.child (bond?_of_job? hq) hmem
  have hleft : s'.machine =
      ((m₀.announce j job₁).unlink p j).updateJob j ({ · with parent := none }) := by
    rw [hm', settle_eq_announce hj₁, hparent]
    rfl
  refine ⟨m₀.announce j job₁, kind', ⟨?_, ?_, hleft⟩, hannounced.failsWith hpr' hkind',
    fun s'' hs'' => ?_⟩
  · have hb := bond?_announce hj₁ j
    rw [if_pos rfl] at hb
    obtain ⟨job₂, hjob₂, hbond₂⟩ := bond?_eq_some.1 hb
    have ho : job₂.outcome = some job₁.finalOutcome := congrArg Bond.outcome hbond₂
    simp [hjob₂, ho]
  · have hb := bond?_announce hj₁ p
    rw [if_neg (Nat.ne_of_lt hlt), bond?_of_job? hq] at hb
    obtain ⟨job₂, hjob₂, hbond₂⟩ := bond?_eq_some.1 hb
    have hc : job₂.children = qj.children := congrArg Bond.children hbond₂
    simp [hjob₂, hc, hmem]
  · obtain ⟨L', h', -⟩ := h.step hs
    have hkept : FailuresKept (m₀.announce j job₁) s'.machine :=
      hleft ▸ (sameReports_unlink ..).kept.trans (failuresKept_updateJob (fun _ => rfl) fun _ => rfl)
    obtain ⟨r, hr, -, hrf⟩ := (hkept.trans (h'.failuresKept hs'')) hpr'
    obtain ⟨L'', h'', -⟩ := h'.steps hs''
    exact h''.heard.failsWith hr (hrf kind' hkind')

theorem le_of_below {j k : JobId} (h : Links none m) (hb : m.Below j k) : j ≤ k := by
  induction hb with
  | refl => exact Nat.le_refl j
  | tail _ hlink ih =>
    obtain ⟨job, hjob, hmem⟩ := hlink
    obtain ⟨-, -, -, hlt, -⟩ := h.child (bond?_of_job? hjob) hmem
    exact Nat.le_trans ih (Nat.le_of_lt hlt)

/-- Neither the parent of a job nor its other children are below the job. -/
theorem not_below_of_beside {p j k : JobId} {job pj : Job} (h : Links none m)
    (hj : m.job? j = some job) (hparent : job.parent = some p) (hp : m.job? p = some pj)
    (hk : k = p ∨ k ≠ j ∧ k ∈ pj.children) : ¬ m.Below j k := by
  obtain ⟨qj, hq, -, hmem⟩ := h.open_parent hj hparent (by simp)
  obtain ⟨-, -, -, hlt, -⟩ := h.child (bond?_of_job? hq) hmem
  have hnot : ¬ m.Below j p := fun hb => absurd (le_of_below h hb) (Nat.not_le_of_lt hlt)
  rcases hk with rfl | ⟨hne, hk⟩
  · exact hnot
  · intro hb
    rcases Relation.ReflTransGen.cases_tail hb with he | ⟨q, hbq, qj, hq, hmem⟩
    · exact hne he
    · obtain ⟨b, hb, hqp, -⟩ := h.child (bond?_of_job? hq) hmem
      obtain ⟨b', hb', hpp, -⟩ := h.child (bond?_of_job? hp) hk
      obtain rfl := Option.some.inj (hb.symm.trans hb')
      obtain rfl := Option.some.inj (hqp.symm.trans hpp)
      exact hnot hbq

/-- A parent that absorbs failures and its other children do not notice that a task fails. -/
theorem Snapshot.Fails.apart {p j : JobId} {pj : Job} (hfails : s.Fails s' p j)
    (h : s.Upheld t L) (hs : Step s s') (hp : s.machine.job? p = some pj)
    (habsorbs : pj.kind.absorbsFailures = true) {k : JobId}
    (hk : k = p ∨ k ≠ j ∧ k ∈ pj.children) :
    s'.machine.standing? k = s.machine.standing? k := by
  obtain ⟨m₁, job₁, hended, htree, hj₁, hnone, hm'⟩ := hfails.settled h hs
  obtain ⟨htask, hparent, -⟩ := hfails.about h.sound hended htree hj₁ hnone hm'
  obtain ⟨⟨job, hjob, htask₀, -, hparent₀⟩, -⟩ := hfails
  have hnobody : ∀ {m : ProgramMachine} {job : Job} {pr}, m.report? p = some pr →
      pr.kind = pj.kind → job.parent = some p → m.listener? job = none := by
    intro m job pr hpr hkind hpar
    rw [listener?_eq]
    unfold hearer?
    split
    · next q _ hq =>
      obtain rfl : p = q := Option.some.inj (hpar.symm.trans hq)
      simp [hpr, hkind, habsorbs]
    · rfl
  have hbelow := not_below_of_beside h.sound.tree.links hjob hparent₀ hp hk
  have hne : k ≠ j := fun he => hbelow (he ▸ .refl)
  obtain ⟨result, hsame⟩ := hended.reports
  obtain ⟨pr, hpr, hpkind, -⟩ := ((failuresKept_conclude ..).trans hsame.kept) (report?_of_job? hp)
  have hbefore : m₁.standing? k = s.machine.standing? k := by
    unfold standing?
    rcases hended with rfl | ⟨result, ticket, rfl⟩
    · rfl
    · have hawait := job?_updateJob (s.machine.conclude j result) j
      unfold awaitChildren
      rw [hawait, if_neg hne, job?_conclude_of_not_below hjob
        (hnobody (report?_of_job? hp) rfl hparent₀) hbelow]
  rw [hm', standing?_settle hj₁ (hnobody hpr hpkind hparent) hne, hbefore]

def failingTask : Statement :=
  .block 0 .coroutineScope [.block 1 .launch [.leaf 2 (.throwException .custom)]]

def failingTask.begun : ProgramMachine :=
  let launched := failingTask.loaded.runReady 0 []
  { launched with dispatcher := ((Snapshot.withoutFirst launched []).checkOut 1).2 }

def failingTask.thrown : ProgramMachine := record 2 .began begun

theorem failingTask.fails :
    ∃ s', Snapshot.Step ⟨thrown, .running 1 1 [.close 3] (.error .custom)⟩ s' ∧
    Snapshot.Fails ⟨thrown, .running 1 1 [.close 3] (.error .custom)⟩ s' 2 3 := by
  have hclose : (Interpreter.close 1 3 (.error .custom) thrown).1 = .ended (.error .custom) := by cbv
  have hbefore : (thrown.job? 3).map (fun job => (job.kind, job.outcome, job.parent)) =
      some (.task, none, some 2) := by cbv
  have hafter : ((Interpreter.close 1 3 (.error .custom) thrown).2.job? 3).map (·.outcome) =
      some (some (.failed .custom)) := by cbv
  obtain ⟨job, hjob, hb⟩ := Option.map_eq_some_iff.1 hbefore
  obtain ⟨job', hjob', ho⟩ := Option.map_eq_some_iff.1 hafter
  simp only [Prod.mk.injEq] at hb
  exact ⟨_, .code (.close (Prod.ext hclose rfl)), ⟨job, hjob, hb.1, hb.2.1, hb.2.2⟩,
    job', .custom, hjob', ho⟩

end RacePuzzle
