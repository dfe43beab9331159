import RacePuzzle.Proofs.Machine.Closing
import RacePuzzle.Proofs.Machine.Deadline
import RacePuzzle.Proofs.Evaluation.Completion
import RacePuzzle.Proofs.Evaluation.Direct

/-! Programs that start no task run as they read. What the run has printed and what its one task has
yet to do make up the direct course of the program, in every state of the run. -/
namespace RacePuzzle

open Interpreter

variable {t : Statement} {L : Ledger} {m m' : ProgramMachine} {s s' : Snapshot}

/-- No job but the background has been cancelled or has failed before its end, and none is a task's. -/
structure CalmJobs (m : ProgramMachine) : Prop where
  calm : ∀ {j job}, j ≠ 1 → m.job? j = some job → job.outcome = none → job.Calm ∧ job.kind ≠ .task

theorem CalmJobs.of_old (h : CalmJobs m) (hold : ∀ {j job'}, m'.job? j = some job' →
    job'.outcome = none → ∃ job, m.job? j = some job ∧ job.outcome = none ∧ job'.kind = job.kind ∧
      job'.cancelled = job.cancelled ∧ job'.failure = job.failure) : CalmJobs m' := by
  refine ⟨fun {j job'} hj hjob' ho' => ?_⟩
  obtain ⟨job, hjob, ho, hkind, hc, hf⟩ := hold hjob' ho'
  obtain ⟨hcalm, hnot⟩ := h.calm hj hjob ho
  exact ⟨⟨hc.trans hcalm.cancelled, hf.trans hcalm.failure⟩, hkind ▸ hnot⟩

theorem CalmJobs.congr (h : CalmJobs m) (hjobs : m'.jobs = m.jobs) : CalmJobs m' :=
  h.of_old fun hj ho => ⟨_, (congrArg (·[_]?) hjobs).symm.trans hj, ho, rfl, rfl, rfl⟩

theorem CalmJobs.map (h : CalmJobs m) (hmap : ∀ k, ∃ f : Job → Job, m'.job? k = (m.job? k).map f ∧
    ∀ job, (f job).outcome = job.outcome ∧ (f job).kind = job.kind ∧
      (f job).cancelled = job.cancelled ∧ (f job).failure = job.failure) : CalmJobs m' := by
  refine h.of_old fun {k _} hk ho => ?_
  obtain ⟨f, hf, hsame⟩ := hmap k
  obtain ⟨job, hjob, rfl⟩ := Option.map_eq_some_iff.1 (hf.symm.trans hk)
  obtain ⟨houtcome, hrest⟩ := hsame job
  exact ⟨job, hjob, houtcome.symm.trans ho, hrest⟩

theorem CalmJobs.not_cancelled (h : CalmJobs m) {j : JobId} (hj : j ≠ 1) (hopen : IsOpen m j) :
    m.isCancelled j = false := by
  obtain ⟨b, hb, ho⟩ := hopen
  obtain ⟨job, hjob, rfl⟩ := Machine.bond?_eq_some.1 hb
  exact (Machine.isCancelled_eq hjob).trans (h.calm hj hjob ho).1.cancelled

theorem CalmJobs.child (h : CalmJobs m) {p : JobId} (hp : p ≠ 1) (hopen : IsOpen m p) {kind : JobRole}
    (hkind : kind ≠ .task) : CalmJobs (m.child p kind).2 := by
  have hnot := h.not_cancelled hp hopen
  obtain ⟨b, hb, -⟩ := hopen
  obtain ⟨pj, hpj, rfl⟩ := Machine.bond?_eq_some.1 hb
  refine ⟨fun {j job} hj hjob ho => ?_⟩
  rw [Machine.job?_child hpj] at hjob
  split at hjob
  · obtain rfl := Option.some.inj hjob
    exact ⟨⟨hnot, rfl⟩, hkind⟩
  · split at hjob
    · obtain rfl := Option.some.inj hjob
      obtain ⟨hcalm, hnot⟩ := h.calm hp hpj ho
      exact ⟨⟨hcalm.cancelled, hcalm.failure⟩, hnot⟩
    · exact h.calm hj hjob ho

theorem CalmJobs.quits (h : CalmJobs m) {j : JobId} {result : Completion} {o : Outcome}
    (hq : Machine.Quits j result m o m') : CalmJobs m' := by
  refine h.of_old fun {k job'} hk ho => ?_
  by_cases hkj : k = j
  · subst hkj
    obtain ⟨job, hjob, hsome⟩ := hq.settled
    obtain rfl := Option.some.inj (hk.symm.trans hjob)
    cases hsome.symm.trans ho
  · obtain ⟨f, hf, hsame⟩ := hq.other hkj
    obtain ⟨job, hjob, rfl⟩ := Option.map_eq_some_iff.1 (hf.symm.trans hk)
    obtain ⟨children, sleeper, hjob'⟩ := hsame job
    rw [hjob'] at ho ⊢
    exact ⟨job, hjob, ho, rfl, rfl, rfl⟩

def ProgramFrame.IsPlain : ProgramFrame → Prop
  | .rest _ body => ∀ s ∈ Statement.bodyNodes body, s.startsNoTask = true
  | .leave _ | .catching .. | .close _ | .program => True
  | .settle _ | .awaited .. => False

/-- The frames, going on at `time` with `result`, complete what the run has printed to the direct
course of the program. -/
structure Foresees (t : Statement) (m : ProgramMachine) (frames : List ProgramFrame)
    (result : Completion) (time : Nat) : Prop where
  running : m.env.ending = none
  course : (framesCourse frames result time).after (prints m) = t.direct 0
  last : ∃ inner, frames = inner ++ [.program]
  plain : ∀ frame ∈ frames, frame.IsPlain
  calm : CalmJobs m

theorem exists_last_of_cons {frame : ProgramFrame} {outer : List ProgramFrame}
    (h : ∃ inner, frame :: outer = inner ++ [.program]) (hne : frame ≠ .program) :
    ∃ inner, outer = inner ++ [.program] := by
  obtain ⟨inner, hinner⟩ := h
  cases inner with
  | nil => exact absurd (List.cons.inj hinner).1 hne
  | cons _ inner => exact ⟨inner, (List.cons.inj hinner).2⟩

/-- The one task, suspended, goes on at the time; no timer is set but that for which it waits. -/
inductive WakesAlone (m : ProgramMachine) : Suspension → Nat → Prop
  | entry {j} : (∀ k, m.timetable.timer? k = none) → WakesAlone m (.entry j) m.now
  | wait {j k w time} : m.OverAt k w time →
      (∀ k', k' ≠ k ∨ m.timetable.waits[w]? = some .done → m.timetable.timer? k' = none) →
      WakesAlone m (.wait j k w) time

/-- Where the run of a program that starts no task stands. -/
inductive Onward (t : Statement) (s : Snapshot) : Prop
  | runs {seat ticket frames result} : s.focus = .running seat ticket frames result →
      (∀ k, s.machine.timetable.timer? k = none) →
      Foresees t s.machine frames result s.machine.now → Onward t s
  | waits {task time} : s.focus = .idle → s.machine.dispatcher.task? 0 = some task →
      WakesAlone s.machine task.on time → Foresees t s.machine task.frames (.ok ()) time → Onward t s
  | ended : s.focus.frames = [] → (∀ i, s.machine.dispatcher.task? i = none) →
      s.machine.env.ending = some ((t.direct 0).result, (t.direct 0).time) →
      prints s.machine = (t.direct 0).events → Onward t s

/-- The run has one seat, and it is on course. -/
structure Alone (t : Statement) (s : Snapshot) : Prop where
  seats : s.machine.dispatcher.seats.size = 1
  onward : Onward t s

section Code

variable {seat : SeatId} {ticket : Ticket} {frames frames' outer : List ProgramFrame}
  {result result' : Completion} {time time' : Nat}

/-- The task goes on to `frames'` and prints `events` on its way. -/
theorem Foresees.goesOn (h : Foresees t m frames result time) (events : List TimedPrint)
    (hending : m'.env.ending = m.env.ending) (hprints : prints m' = prints m ++ events)
    (hcourse : framesCourse frames result time = (framesCourse frames' result' time').after events)
    (hlast : ∃ inner, frames' = inner ++ [.program]) (hplain : ∀ frame ∈ frames', frame.IsPlain)
    (hcalm : CalmJobs m') : Foresees t m' frames' result' time' := by
  refine ⟨hending.trans h.running, ?_, hlast, hplain, hcalm⟩
  rw [hprints, ← Course.after_after, ← hcourse, h.course]

/-- The innermost frame ends and hands the result on. -/
theorem Foresees.pops {frame : ProgramFrame} (h : Foresees t m (frame :: outer) result time)
    (hframe : frame ≠ .program) (hcourse : frame.course result time = ⟨[], result', time⟩)
    (hending : m'.env.ending = m.env.ending) (hprints : prints m' = prints m)
    (hcalm : CalmJobs m') : Foresees t m' outer result' time := by
  refine h.goesOn [] hending (by rw [hprints, List.append_nil]) ?_
    (exists_last_of_cons h.last hframe) (fun f hf => h.plain f (List.mem_cons_of_mem _ hf)) hcalm
  rw [framesCourse_cons, hcourse]
  rfl

theorem Foresees.begin {j : JobId} {st : Statement} {body : List Statement}
    (h : Foresees t m (.rest j (st :: body) :: outer) (.ok ()) time) :
    (∀ s ∈ st.nodes, s.startsNoTask = true) ∧
      (∃ inner, .leave st.id :: .rest j body :: outer = inner ++ [ProgramFrame.program]) ∧
      (∀ frame ∈ .leave st.id :: .rest j body :: outer, frame.IsPlain) := by
  have hplain : ∀ s ∈ Statement.bodyNodes (st :: body), s.startsNoTask = true :=
    h.plain _ List.mem_cons_self
  simp only [Statement.bodyNodes, List.mem_append] at hplain
  obtain ⟨inner, hinner⟩ := exists_last_of_cons h.last (by simp)
  refine ⟨fun s hs => hplain s (.inl hs), ⟨.leave st.id :: .rest j body :: inner, by rw [hinner]; rfl⟩,
    fun frame hf => ?_⟩
  rcases List.mem_cons.1 hf with rfl | hf
  · trivial
  · rcases List.mem_cons.1 hf with rfl | hf
    · exact fun s hs => hplain s (.inr hs)
    · exact h.plain frame (List.mem_cons_of_mem _ hf)

/-- No task is in its seat while the only one is polled. -/
theorem task?_eq_none_of_alone (h : Snapshot.Upheld t L ⟨m, .running seat ticket frames result⟩)
    (hseats : m.dispatcher.seats.size = 1) (i : SeatId) : m.dispatcher.task? i = none := by
  have hpolled := h.polled rfl
  have hseat : seat = 0 := Nat.lt_one_iff.1 (hseats ▸ hpolled.lt)
  cases hi : m.dispatcher.task? i with
  | none => rfl
  | some task =>
    have hzero : i = 0 := Nat.lt_one_iff.1 (hseats ▸ Dispatcher.lt_of_task? hi)
    have hout := hpolled.out
    rw [hseat, ← hzero, hi] at hout
    exact hout

/-- The jobs that the frames of a task will end are no younger than that in which it runs. -/
theorem le_of_opened {L : Ledger} (h : L.Fits t m) {tr : List TraceEntry} {q : Option JobId}
    {frames : List ProgramFrame} (hr : Runs t L tr q frames) {j p : Nat} (hq : q = some p)
    (hj : 0 < opened j frames) : j ≤ p := by
  induction hr generalizing p with
  | nothing => cases hq
  | program => simp [ProgramFrame.opens?] at hj
  | rest _ _ _ ih => exact ih hq hj
  | leave _ _ _ _ ih => exact ih hq hj
  | catching _ _ ih => exact ih hq hj
  | awaited _ _ ih => exact ih hq hj
  | @task k =>
    obtain rfl := Option.some.inj hq
    by_cases hjk : k = j
    · exact Nat.le_of_eq hjk.symm
    · simp [ProgramFrame.opens?, hjk] at hj
  | @scope k o _ _ _ _ hk ho _ _ ih =>
    obtain rfl := Option.some.inj hq
    by_cases hjk : k = j
    · exact Nat.le_of_eq hjk.symm
    · rw [opened_cons _ (.close k)] at hj
      simp only [ProgramFrame.opens?, Option.some.injEq, hjk, if_false, Nat.add_zero] at hj
      exact Nat.le_trans (ih rfl hj) (Nat.le_of_lt (h.made hk ho).1)

/-- A job of the only task has no children left when its own code ends. -/
theorem childless_of_alone {j : JobId} {job : Job}
    (h : Snapshot.Upheld t L ⟨m, .running seat ticket (.close j :: outer) result⟩)
    (hseats : m.dispatcher.seats.size = 1) (hj : m.job? j = some job) : job.children = [] := by
  obtain ⟨htwo, hr, -⟩ := h.runs_close
  refine List.eq_nil_iff_forall_not_mem.2 fun c hc => ?_
  obtain ⟨cb, hcb, -, hlt, hnone⟩ := h.sound.tree.links.exists_child (Machine.bond?_of_job? hj) hc
  have hwork : m.work (fun task => opened c task.frames) = 0 := by
    by_contra hpos
    obtain ⟨i, task, hi, -⟩ := Dispatcher.exists_of_work_pos _ (Nat.pos_of_ne_zero hpos)
    cases hi.symm.trans (task?_eq_none_of_alone h hseats i)
  have hone := h.opened_eq_one (Nat.le_of_lt (Nat.lt_of_le_of_lt htwo hlt)) ⟨cb, hcb, hnone⟩
  rw [Snapshot.Upheld.opened_running, hwork, Nat.zero_add] at hone
  exact absurd (le_of_opened h.ledger hr rfl (by omega)) (Nat.not_le_of_lt hlt)

/-- The job in which the only task begins a statement is not cancelled. -/
theorem Foresees.not_cancelled {j : JobId} {st : Statement} {body : List Statement}
    (hf : Foresees t m (.rest j (st :: body) :: outer) (.ok ()) time)
    (h : Snapshot.Upheld t L ⟨m, .running seat ticket (.rest j (st :: body) :: outer) (.ok ())⟩) :
    m.isCancelled j = false := by
  obtain ⟨⟨h₁, -⟩, hr, -⟩ := h.begin
  have hopen : IsOpen m j := h₁.isOpen_of_runs hr (Nat.le_add_left _ _)
  exact hf.calm.not_cancelled hr.job_ne hopen

theorem Foresees.act {j : JobId} {id : StatementId} {action : Action} {body : List Statement}
    (hf : Foresees t m (.rest j (.leaf id action :: body) :: outer) (.ok ()) m.now)
    (h : Snapshot.Upheld t L
      ⟨m, .running seat ticket (.rest j (.leaf id action :: body) :: outer) (.ok ())⟩)
    (he : performAction ticket j id action (record id .began m) = (.ended result, m')) :
    m'.timetable = m.timetable ∧ m'.dispatcher = m.dispatcher ∧
      Foresees t m' (.leave id :: .rest j body :: outer) result m'.now := by
  obtain ⟨hplain, hlast, hframes⟩ := hf.begin
  have hcourse := framesCourse_rest_cons j (.leaf id action) body outer m.now
  have hkind : (Statement.leaf id action).startsNoTask = true :=
    hplain _ (Statement.self_mem_nodes _)
  cases action with
  | delay d =>
    have hc : (record id .began m).isCancelled j = false := hf.not_cancelled h
    have hm : (record id .began m).Orderly := h.sound.orderly.updateEnv _
    obtain ⟨m₁, hbegun, -⟩ := Machine.delayBegun_beginDelay hm hc ticket d
    simp [performAction, hbegun, Interpreter.afterWait, Reached.afterWait] at he
  | print text =>
    obtain ⟨hresult, rfl⟩ := Prod.mk.inj he
    obtain rfl : Except.ok () = result := Progress.ended.inj hresult
    have hending : (record id .began m).env.ending = none := hf.running
    refine ⟨timetable_print .., ?_, ?_⟩
    · unfold print
      split <;> rfl
    · have hnow : (print id text (record id .began m)).now = m.now :=
        congrArg Timetable.now (timetable_print ..)
      rw [hnow]
      refine hf.goesOn [⟨text, m.now⟩] (ending_print ..) ?_ hcourse hlast hframes (hf.calm.congr (jobs_print ..))
      rw [prints_print hending, prints_record_began]
      rfl
  | throwException kind =>
    obtain ⟨hresult, rfl⟩ := Prod.mk.inj he
    obtain rfl : Except.error kind = result := Progress.ended.inj hresult
    exact ⟨rfl, rfl, hf.goesOn [] rfl (by simp) hcourse hlast hframes
      (hf.calm.congr rfl)⟩
  | _ => cases hkind

theorem Foresees.enter {j : JobId} {id : StatementId} {head : Head} {inner body : List Statement}
    (hf : Foresees t m (.rest j (.block id head inner :: body) :: outer) (.ok ()) m.now)
    (h : Snapshot.Upheld t L
      ⟨m, .running seat ticket (.rest j (.block id head inner :: body) :: outer) (.ok ())⟩) :
    (enter j id head inner (record id .began m)).2.timetable = m.timetable ∧
      (enter j id head inner (record id .began m)).2.dispatcher = m.dispatcher ∧
      Foresees t (enter j id head inner (record id .began m)).2
        ((enter j id head inner (record id .began m)).1 ++ .leave id :: .rest j body :: outer)
        (.ok ()) m.now := by
  obtain ⟨hplain, hlast, hframes⟩ := hf.begin
  have hcourse := framesCourse_rest_cons j (.block id head inner) body outer m.now
  have hkind : (Statement.block id head inner).startsNoTask = true :=
    hplain _ (Statement.self_mem_nodes _)
  have hinner : ∀ s ∈ Statement.bodyNodes inner, s.startsNoTask = true := fun s hs =>
    hplain s (by rw [Statement.nodes]; exact List.mem_cons_of_mem _ hs)
  obtain ⟨⟨h₁, -⟩, hr, -⟩ := h.begin
  have hopen : IsOpen m j := h₁.isOpen_of_runs hr (Nat.le_add_left _ _)
  obtain ⟨front, hfront⟩ := hlast
  -- code inside the block goes on with frames of its own
  have hinto : ∀ {inside : List ProgramFrame} {m' : ProgramMachine},
      m'.env = (record id .began m).env → CalmJobs m' → (∀ frame ∈ inside, frame.IsPlain) →
      framesCourse (inside ++ .leave id :: .rest j body :: outer) (.ok ()) m.now =
        ((Statement.block id head inner).direct m.now).inside (.leave id :: .rest j body :: outer) →
      Foresees t m' (inside ++ .leave id :: .rest j body :: outer) (.ok ()) m.now := by
    intro inside m' henv hcalm hinside hc
    refine hf.goesOn [] (by rw [henv]; rfl) ?_ ?_
      ⟨inside ++ front, by rw [List.append_assoc, ← hfront]; rfl⟩ (fun frame hmem => ?_) hcalm
    · rw [prints_congr henv, prints_record_began, List.append_nil]
    · rw [hc, Course.after_nil, hcourse]
      rfl
    · rcases List.mem_append.1 hmem with hmem | hmem
      · exact hinside frame hmem
      · exact hframes frame hmem
  have hscope : ∀ {kind : JobRole}, kind ≠ .task →
      (Statement.block id head inner).direct m.now = Statement.directBody m.now inner →
      Foresees t ((record id .began m).child j kind).2
        (.rest ((record id .began m).child j kind).1 inner ::
          .close ((record id .began m).child j kind).1 :: .leave id :: .rest j body :: outer)
        (.ok ()) m.now := by
    intro kind hkind hdirect
    have hcalm : CalmJobs ((record id .began m).child j kind).2 :=
      (hf.calm.congr rfl : CalmJobs (record id .began m)).child hr.job_ne hopen hkind
    have hinside : ∀ frame ∈ [ProgramFrame.rest ((record id .began m).child j kind).1 inner,
        .close ((record id .began m).child j kind).1], frame.IsPlain := by
      simpa [ProgramFrame.IsPlain] using hinner
    refine hinto ?_ hcalm hinside ?_
    · rfl
    · rw [hdirect]
      exact framesCourse_scope ..
  cases head with
  | coroutineScope => exact ⟨rfl, rfl, hscope (by simp) rfl⟩
  | supervisorScope => exact ⟨rfl, rfl, hscope (by simp) rfl⟩
  | tryCatch kind =>
    have hinside : ∀ frame ∈ [ProgramFrame.rest j inner, .catching id kind], frame.IsPlain := by
      simpa [ProgramFrame.IsPlain] using hinner
    exact ⟨rfl, rfl, hinto rfl (hf.calm.congr rfl) hinside (framesCourse_tryCatch ..)⟩
  | _ => cases hkind

/-- A handler catches what it is for, and prints that it did. -/
theorem Foresees.catching {id : StatementId} {kind : ExceptionKind}
    (hf : Foresees t m (.catching id kind :: outer) result m.now)
    (he : catchException id kind result m = (.ended result', m')) :
    m'.timetable = m.timetable ∧ Foresees t m' outer result' m.now := by
  have hlast := exists_last_of_cons hf.last (by simp)
  unfold catchException at he
  cases result with
  | ok _ =>
    obtain ⟨hresult, rfl⟩ := Prod.mk.inj he
    obtain rfl := Progress.ended.inj hresult
    exact ⟨rfl, hf.pops (by simp) rfl rfl rfl hf.calm⟩
  | error thrown =>
    by_cases hc : kind.catches thrown = true
    · simp only [hc, if_true] at he
      obtain ⟨hresult, rfl⟩ := Prod.mk.inj he
      obtain rfl := Progress.ended.inj hresult
      refine ⟨timetable_print .., hf.goesOn _ (ending_print ..) (prints_print hf.running ..) ?_ hlast
        (fun f hmem => hf.plain f (List.mem_cons_of_mem _ hmem)) (hf.calm.congr (jobs_print ..))⟩
      rw [framesCourse_cons]
      simp [ProgramFrame.course, Course.caught, Course.inside, hc]
    · simp only [hc] at he
      obtain ⟨hresult, rfl⟩ := Prod.mk.inj he
      obtain rfl := Progress.ended.inj hresult
      exact ⟨rfl, hf.pops (by simp) (by simp [ProgramFrame.course, Course.caught, hc]) rfl rfl hf.calm⟩

/-- A scope ends at once, and its job leaves nothing behind. -/
theorem Foresees.close {j : JobId}
    (hf : Foresees t m (.close j :: outer) result m.now)
    (h : Snapshot.Upheld t L ⟨m, .running seat ticket (.close j :: outer) result⟩)
    (hseats : m.dispatcher.seats.size = 1) :
    ∃ m', Interpreter.close ticket j result m = (.ended result, m') ∧
      Foresees t m' outer result m.now := by
  obtain ⟨-, hr, -⟩ := h.runs_close
  have hopen : IsOpen m j := h.isOpen_of_runs hr (Nat.le_add_left _ _)
  obtain ⟨b, hb, ho⟩ := hopen
  obtain ⟨job, hj, rfl⟩ := Machine.bond?_eq_some.1 hb
  obtain ⟨hcalm, hkind⟩ := hf.calm.calm hr.job_ne hj ho
  obtain ⟨outcome, m', hclose, hquits⟩ := Machine.exists_quits_close h.sound hj hcalm
    (childless_of_alone h hseats hj) (.inr hkind : result = .ok () ∨ _) ticket
  have hends : Interpreter.close ticket j result m = (.ended result, m') := by
    simp [Interpreter.close, Reached.afterClose, hclose, hquits.completion]
  have henv : m'.env = m.env := (congrArg (fun r => r.2.env) hends).symm.trans (Snapshot.env_close ..)
  exact ⟨m', hends, hf.pops (by simp) rfl (congrArg (·.ending) henv) (prints_congr henv)
    (hf.calm.quits hquits)⟩

theorem Foresees.ends (hf : Foresees t m (.program :: outer) result m.now)
    (h : Snapshot.Upheld t L ⟨m, .running seat ticket (.program :: outer) result⟩)
    (hseats : m.dispatcher.seats.size = 1) :
    Onward t ⟨endProgram result m, .running seat ticket outer result⟩ := by
  have hnothing : outer = [] := by
    cases (h.polled rfl).ready with
    | runs hr => cases hr; rfl
  subst hnothing
  have hdirect : t.direct 0 = ⟨prints m, result, m.now⟩ :=
    hf.course.symm.trans (congrArg (Course.mk · result m.now) (List.append_nil _))
  have henv := (Machine.sameBonds_cancel m m.env.background).env
  refine .ended rfl (fun i => ?_) ?_ ?_
  · rw [Dispatcher.task?_of_seats (Snapshot.seats_endProgram result m)]
    exact task?_eq_none_of_alone h hseats i
  · rw [hdirect]
    rfl
  · rw [hdirect]
    exact congrArg (fun env => env.trace.toList.filterMap TraceEntry.event?) henv

theorem Alone.code (ha : Alone t ⟨m, .running seat ticket frames result⟩)
    (h : Snapshot.Upheld t L ⟨m, .running seat ticket frames result⟩)
    (hs : Thread.Step ticket ⟨frames, result, m⟩ ⟨frames', result', m'⟩) :
    Alone t ⟨m', .running seat ticket frames' result'⟩ := by
  obtain ⟨hseats, honward⟩ := ha
  cases honward with
  | waits hidle => cases hidle
  | ended hnil =>
    obtain rfl : frames = [] := hnil
    cases hs
  | runs hfocus htimers hf =>
    obtain ⟨rfl, rfl, rfl, rfl⟩ := Focus.running.inj hfocus
    -- the code goes on with the clock as it is
    have hgoes : m'.dispatcher = m.dispatcher → m'.timetable = m.timetable →
        Foresees t m' frames' result' m'.now → Alone t ⟨m', .running seat ticket frames' result'⟩ :=
      fun hd ht hf' => ⟨hd ▸ hseats, .runs rfl (fun k => by rw [ht]; exact htimers k) hf'⟩
    have hsame : ∀ {m' : ProgramMachine}, m'.timetable = m.timetable → m'.now = m.now :=
      fun ht => congrArg Timetable.now ht
    cases hs with
    | @pass frame outer kind m hframe =>
      have hne : frame ≠ .program := by rintro rfl; cases hframe
      exact hgoes rfl rfl (hf.pops hne (course_of_passesErrors hframe kind m.now) rfl rfl hf.calm)
    | bodyEnd => exact hgoes rfl rfl (hf.pops (by simp) rfl rfl rfl hf.calm)
    | act he =>
      obtain ⟨ht, hd, hf'⟩ := hf.act h he
      exact hgoes hd ht hf'
    | enter =>
      obtain ⟨ht, hd, hf'⟩ := hf.enter h
      exact hgoes hd ht ((hsame ht).symm ▸ hf')
    | leave =>
      exact hgoes rfl rfl (hf.pops (by simp) rfl rfl (prints_record_ended ..) (hf.calm.congr rfl))
    | catching he =>
      obtain ⟨ht, hf'⟩ := hf.catching he
      exact ⟨(congrArg Array.size (Snapshot.seats_catchException he)).trans hseats,
        .runs rfl (fun k => by rw [ht]; exact htimers k) ((hsame ht).symm ▸ hf')⟩
    | @close j outer result m result' m' he =>
      obtain ⟨m₁, hends, hf'⟩ := hf.close h hseats
      obtain ⟨hresult, rfl⟩ := Prod.mk.inj (hends.symm.trans he)
      obtain rfl := Progress.ended.inj hresult
      have hspends := Snapshot.spends_close ticket j result m
      rw [hends] at hspends
      refine ⟨(congrArg Array.size (Snapshot.seats_close_ended hends)).trans hseats,
        .runs rfl (fun k => ?_) (hspends.now.symm ▸ hf')⟩
      refine Option.eq_none_iff_forall_ne_some.2 fun timer hk => ?_
      rcases hspends.timers hk with hold | ⟨_, hnone, -⟩
      · cases (htimers k).symm.trans hold
      · cases hnone
    | settle => exact (hf.plain _ List.mem_cons_self).elim
    | awaited he => exact (hf.plain _ List.mem_cons_self).elim
    | program =>
      exact ⟨(congrArg Array.size (Snapshot.seats_endProgram result m)).trans hseats,
        hf.ends h hseats⟩

/-- Nothing but a delay suspends the task. -/
theorem Alone.suspend (ha : Alone t ⟨m, .running seat ticket frames result⟩)
    (hh : History t L ⟨m, .running seat ticket frames result⟩)
    (hmax : t.delays.sum ≤ Machine.maxTime) {on : Suspension}
    (hs : Thread.Suspends ticket ⟨frames, result, m⟩ on frames' m') :
    Alone t ⟨{ m' with dispatcher := m'.dispatcher.checkIn seat ⟨on, frames'⟩ }, .idle⟩ := by
  have h := hh.upheld
  obtain ⟨hseats, honward⟩ := ha
  cases honward with
  | waits hidle => cases hidle
  | ended hnil =>
    obtain rfl : frames = [] := hnil
    nomatch hs
  | runs hfocus htimers hf =>
    obtain ⟨rfl, rfl, rfl, rfl⟩ := Focus.running.inj hfocus
    cases hs with
    | close he =>
      obtain ⟨m₁, hends, -⟩ := hf.close h hseats
      cases hends.symm.trans he
    | @act j id action body outer m on inner m' he =>
      obtain ⟨hplain, hlast, hframes⟩ := hf.begin
      have hcourse := framesCourse_rest_cons j (.leaf id action) body outer m.now
      have hkind : (Statement.leaf id action).startsNoTask = true :=
        hplain _ (Statement.self_mem_nodes _)
      cases action with
      | delay d =>
        have hc : (record id .began m).isCancelled j = false := hf.not_cancelled h
        have hm : (record id .began m).Orderly := h.sound.orderly.updateEnv _
        obtain ⟨m₁, hbegun, hdelay⟩ := Machine.delayBegun_beginDelay hm hc ticket d
        have he' := he
        simp only [performAction, hbegun, Interpreter.afterWait, Reached.afterWait] at he
        obtain ⟨hsus, rfl⟩ := Prod.mk.inj he
        obtain ⟨rfl, rfl⟩ := Progress.suspended.inj hsus
        obtain ⟨hcost, -⟩ := deadline_le hh
        have hprice := Snapshot.cost_step h (.suspend (.act he')) .delayTimes
        have hd : (record id .began m).now + d ≤ Machine.maxTime := by
          have hd : Snapshot.price .delayTimes ⟨m, .running seat ticket
            (.rest j (.leaf id (.delay d) :: body) :: outer) (.ok ())⟩ = d := rfl
          have hnow : (record id .began m).now = m.now := rfl
          simp only at hcost
          omega
        have hseat : seat = 0 := Nat.lt_one_iff.1 (hseats ▸ (h.polled rfl).lt)
        have hlt : seat < m₁.dispatcher.seats.size := by
          rw [hdelay.dispatcher]
          exact (h.polled rfl).lt
        have htask : ∀ task, (m₁.dispatcher.checkIn seat task).task? 0 = some task := fun task => by
          rw [Dispatcher.task?_checkIn hlt, if_pos hseat.symm]
        refine ⟨?_, 
          .waits rfl (htask _) (.wait ((hdelay.overAt hd).congr rfl) fun k hk => ?_) ?_⟩
        · exact (Dispatcher.size_seats_checkIn ..).trans
            ((congrArg (fun d => d.seats.size) hdelay.dispatcher).trans hseats)
        · have hwait := (hdelay.waits m.timetable.waits.size).trans (if_pos rfl)
          have hk := hk.resolve_right fun hdone => by cases hwait.symm.trans hdone
          exact (hdelay.timer k).trans ((if_neg hk).trans (htimers k))
        · refine hf.goesOn [] (congrArg (·.ending) hdelay.env) ?_ hcourse hlast hframes
            (hf.calm.map fun k => ?_)
          · rw [List.append_nil]
            exact (prints_congr hdelay.env).trans (prints_record_began ..)
          · obtain ⟨pending, hjob⟩ := hdelay.job k
            exact ⟨_, hjob, fun job => by split <;> simp⟩
      | print text => cases he
      | throwException kind => cases he
      | _ => cases hkind

end Code

section Idle

variable {id : SeatId} {rest : List SeatId} {d : Dispatcher (Task ProgramFrame)} {ticket : Ticket}
  {task : Task ProgramFrame}

theorem Foresees.dispatch {frames : List ProgramFrame} {result : Completion} {time : Nat}
    (h : Foresees t m frames result time) :
    Foresees t { m with dispatcher := d } frames result time :=
  ⟨h.running, h.course, h.last, h.plain, h.calm.congr rfl⟩

theorem WakesAlone.dispatch {on : Suspension} {time : Nat} (h : WakesAlone m on time) :
    WakesAlone { m with dispatcher := d } on time := by
  cases h with
  | entry htimers => exact .entry htimers
  | wait hover htimers => exact .wait (hover.congr rfl) htimers

theorem Alone.redispatch (ha : Alone t ⟨m, .idle⟩) (hsize : d.seats.size = m.dispatcher.seats.size)
    (htask : ∀ i, d.task? i = m.dispatcher.task? i) :
    Alone t ⟨{ m with dispatcher := d }, .idle⟩ := by
  obtain ⟨hseats, honward⟩ := ha
  refine ⟨hsize.trans hseats, ?_⟩
  cases honward with
  | runs hfocus => cases hfocus
  | waits _ hseat hwakes hf => exact .waits rfl ((htask 0).trans hseat) hwakes.dispatch hf.dispatch
  | ended _ hnone hending hprints => exact .ended rfl (fun i => (htask i).trans (hnone i)) hending hprints

theorem Alone.skip (ha : Alone t ⟨m, .idle⟩) (h : Snapshot.Upheld t L ⟨m, .idle⟩)
    (hr : m.dispatcher.ready = id :: rest)
    (hout : (Snapshot.withoutFirst m rest).checkOut id = (none, d)) :
    Alone t ⟨{ m with dispatcher := d }, .idle⟩ := by
  obtain ⟨hd, -, hseats, -⟩ := Dispatcher.checkOut_none h.sound.orderly.aligned hr hout
  exact ha.redispatch hd.size (Dispatcher.task?_of_seats hseats)

theorem Alone.sleepOn (ha : Alone t ⟨m, .idle⟩) (h : Snapshot.Upheld t L ⟨m, .idle⟩)
    (hr : m.dispatcher.ready = id :: rest)
    (hout : (Snapshot.withoutFirst m rest).checkOut id = (some (ticket, task), d))
    (hres : ({ m with dispatcher := d } : ProgramMachine).resumption ticket task.on = (none, m')) :
    Alone t ⟨{ m' with dispatcher := m'.dispatcher.checkIn id task }, .idle⟩ := by
  obtain ⟨rfl, -⟩ := h.resumption_none hr hout hres
  have haligned := h.sound.orderly.aligned
  obtain ⟨hd, -, -, -, -⟩ := Dispatcher.checkOut_some haligned hr hout
  exact ha.redispatch ((Dispatcher.size_seats_checkIn ..).trans hd.size)
    (Dispatcher.task?_checkIn_of_checkOut haligned hr hout)

/-- The job of a suspended task is not cancelled. -/
theorem not_cancelled_of_seated (h : Snapshot.Upheld t L ⟨m, .idle⟩) (hcalm : CalmJobs m) {i : SeatId}
    (hi : m.dispatcher.task? i = some task) {j : JobId} (hon : task.on.job? = some j) :
    m.isCancelled j = false := by
  obtain ⟨p, frames, hp, hr, -, hle⟩ := h.exists_runs hi
  obtain rfl := Option.some.inj (hon.symm.trans hp)
  exact hcalm.not_cancelled hr.job_ne (h.isOpen_of_runs hr (hle j))

theorem Alone.goOn {result : Except Interruption Unit} (ha : Alone t ⟨m, .idle⟩)
    (h : Snapshot.Upheld t L ⟨m, .idle⟩) (hr : m.dispatcher.ready = id :: rest)
    (hout : (Snapshot.withoutFirst m rest).checkOut id = (some (ticket, task), d))
    (hres : ({ m with dispatcher := d } : ProgramMachine).resumption ticket task.on =
      (some result, m')) :
    Alone t ⟨m', .running id ticket task.frames (Suspension.handed result)⟩ := by
  obtain ⟨hd, rfl, htask, -, -⟩ := Dispatcher.checkOut_some h.sound.orderly.aligned hr hout
  obtain ⟨hseats, honward⟩ := ha
  cases honward with
  | runs hfocus => cases hfocus
  | ended _ hnone => cases (hnone ticket).symm.trans htask
  | @waits task' time _ hseat hwakes hf =>
    obtain rfl : ticket = 0 := Nat.lt_one_iff.1 (hseats ▸ Dispatcher.lt_of_task? htask)
    obtain rfl : task' = task := Option.some.inj (hseat.symm.trans htask)
    obtain ⟨on, frames⟩ := task'
    have hcalm : ∀ {j}, on.job? = some j →
        ({ m with dispatcher := d } : ProgramMachine).isCancelled j = false :=
      fun hon => not_cancelled_of_seated h hf.calm htask hon
    cases hwakes with
    | @entry j htimers =>
      simp only [Machine.resumption, hcalm rfl] at hres
      obtain ⟨hresult, rfl⟩ := Prod.mk.inj hres
      obtain rfl := Option.some.inj hresult
      exact ⟨hd.size.trans hseats, .runs rfl htimers hf.dispatch⟩
    | @wait j k w _ hover htimers =>
      cases hover with
      | timed hw =>
        simp only [Machine.resumption, hw] at hres
        cases (Prod.mk.inj hres).1
      | done hw =>
        simp only [Machine.resumption, hw, hcalm rfl] at hres
        obtain ⟨hresult, rfl⟩ := Prod.mk.inj hres
        obtain rfl := Option.some.inj hresult
        refine ⟨hd.size.trans hseats, .runs rfl (fun k' => htimers k' (.inr hw)) ?_⟩
        refine ⟨hf.running, hf.course, hf.last, hf.plain, hf.calm.map fun i => ?_⟩
        refine ⟨fun job => if i = j then { job with pending := job.pending.filter (·.1 != k) } else job,
          ?_, fun job => by dsimp only; split <;> simp⟩
        refine (Machine.job?_updateJob _ j _ i).trans ?_
        split
        · next hij => simp [hij, Machine.job?]
        · simp [Machine.job?]

theorem Alone.tick {time : Nat} (ha : Alone t ⟨m, .idle⟩) (h : Snapshot.Upheld t L ⟨m, .idle⟩)
    (hready : m.dispatcher.ready = []) (hnext : m.timetable.clock.next? = some time) :
    Alone t ⟨m.advance.2, .idle⟩ := by
  have hunqueued := h.sound.orderly.aligned.isQueued_of_ready hready
  obtain ⟨hseats, honward⟩ := ha
  have hsame : m.advance.2.dispatcher.seats = m.dispatcher.seats := Machine.seats_wakeAll ..
  refine ⟨(congrArg Array.size hsame).trans hseats, ?_⟩
  have htask := Dispatcher.task?_of_seats hsame
  cases honward with
  | runs hfocus => cases hfocus
  | ended _ hnone hending hprints =>
    exact .ended rfl (fun i => (htask i).trans (hnone i)) hending hprints
  | @waits task _ _ hseat hwakes hf =>
    obtain ⟨on, frames⟩ := task
    have hwaits := (h.seated hseat).waits
    cases hwakes with
    | entry _ => cases (hunqueued 0).symm.trans hwaits
    | @wait j k w _ hover htimers =>
      obtain ⟨k', timer, hlive, htime⟩ := TimerQueue.exists_live_of_peek? hnext
      cases hover with
      | done hw => cases (htimers k' (.inr hw)).symm.trans hlive
      | @timed source own hw hown hcontent hle =>
        have honly : ∀ {i timer}, m.timetable.timer? i = some timer → i = k := fun hi => by
          by_contra hne
          cases (htimers _ (.inl hne)).symm.trans hi
        obtain rfl := honly hlive
        obtain rfl : timer = own := Option.some.inj (hlive.symm.trans hown)
        have hadvanced := Machine.advanced_advance hnext
        have hgone : m.advance.2.timetable.timer? k' = none := by
          obtain ⟨i, timer', hi, hnone⟩ := hadvanced.goesOff
          exact honly hi ▸ hnone
        have hdone : m.advance.2.timetable.waits[w]? = some .done := by
          rcases hadvanced.timers k' with hkept | ⟨-, timer', htimer', -, hresolved⟩
          · cases hgone.symm.trans (hkept.trans hlive)
          · obtain rfl : timer = timer' := Option.some.inj (hlive.symm.trans htimer')
            rw [hcontent] at hresolved
            exact hresolved source hw
        have hnow : m.advance.2.now = timer.deadline := by
          rw [hadvanced.now, ← htime, Nat.max_eq_right hle]
        have hnone : ∀ i, m.advance.2.timetable.timer? i = none := fun i => by
          by_cases hi : i = k'
          · exact hi ▸ hgone
          · rcases hadvanced.timers i with hkept | ⟨hnone, -⟩
            · exact hkept.trans (htimers i (.inl hi))
            · exact hnone
        exact .waits rfl ((htask 0).trans hseat) (.wait (.done hdone) fun i _ => hnone i)
          (hnow ▸ ⟨hf.running, hf.course, hf.last, hf.plain, hf.calm.congr rfl⟩)

theorem Alone.finish {seat : SeatId} {result : Completion}
    (ha : Alone t ⟨m, .running seat ticket [] result⟩) :
    Alone t ⟨{ m with dispatcher := m.dispatcher.finish ticket }, .idle⟩ := by
  obtain ⟨hseats, honward⟩ := ha
  have hsame := Dispatcher.seats_finish m.dispatcher ticket
  refine ⟨(congrArg Array.size hsame).trans hseats, ?_⟩
  cases honward with
  | runs hfocus _ hf =>
    obtain ⟨-, -, rfl, -⟩ := Focus.running.inj hfocus
    obtain ⟨inner, hinner⟩ := hf.last
    cases inner <;> cases hinner
  | waits hidle => cases hidle
  | ended _ hnone hending hprints =>
    exact .ended rfl (fun i => (Dispatcher.task?_of_seats hsame i).trans (hnone i)) hending hprints

end Idle

theorem alone_initial (ht : t.SpawnFree) : Alone t t.initial := by
  have hbody : Statement.directBody 0 [t] = t.direct 0 := by
    have hcons : Statement.directBody 0 [t] =
        (t.direct 0).andThen fun now => Statement.directBody now [] := rfl
    rw [hcons]
    unfold Course.andThen
    split
    · next hresult => simp [Statement.directBody, ← hresult]
    · rfl
  have hforesees : Foresees t t.loaded [.rest 0 [t], .program] (.ok ()) 0 := by
    refine ⟨rfl, ?_, ⟨[.rest 0 [t]], rfl⟩, fun frame hf => ?_, ⟨fun {j job} hj hjob _ => ?_⟩⟩
    · have hcourse : framesCourse [.rest 0 [t], .program] (.ok ()) 0 =
          (Statement.directBody 0 [t]).inside [.program] := rfl
      rw [hcourse, hbody]
      exact congrArg (Course.mk · _ _) (List.append_nil _)
    · rcases List.mem_cons.1 hf with rfl | hf
      · simpa [ProgramFrame.IsPlain, Statement.bodyNodes, Statement.SpawnFree] using ht
      · obtain rfl := List.mem_singleton.1 hf
        trivial
    · match j with
      | 0 =>
        obtain rfl := Option.some.inj hjob
        exact ⟨⟨rfl, rfl⟩, fun hkind : JobRole.scope = .task => nomatch hkind⟩
      | 1 => exact absurd rfl hj
      | j + 2 => cases hjob
  exact ⟨rfl, .waits rfl rfl (.entry (timer?_loaded t)) hforesees⟩

theorem Alone.step (hmax : t.delays.sum ≤ Machine.maxTime) (hh : History t L s) (ha : Alone t s)
    (hs : Snapshot.Step s s') : Alone t s' := by
  have h := hh.upheld
  cases hs with
  | skip hr hout => exact ha.skip h hr hout
  | sleepOn hr hout hres => exact ha.sleepOn h hr hout hres
  | goOn hr hout hres => exact ha.goOn h hr hout hres
  | code hs => exact ha.code h hs
  | suspend hs => exact ha.suspend hh hmax hs
  | finish => exact ha.finish
  | tick hr hnext => exact ha.tick h hr hnext

theorem History.alone (ht : t.SpawnFree) (hmax : t.delays.sum ≤ Machine.maxTime)
    (h : History t L s) : Alone t s := by
  induction h with
  | start => exact alone_initial ht
  | next hh hs _ _ ih => exact ih.step hmax hh hs

/-- The one task does not wait in vain. -/
theorem Alone.ends_of_stuck (ha : Alone t ⟨m, .idle⟩) (h : Stuck t L m) : m.env.ending.isSome := by
  obtain ⟨-, honward⟩ := ha
  cases honward with
  | runs hfocus => cases hfocus
  | ended _ _ hending => exact hending ▸ rfl
  | @waits task _ _ hseat hwakes _ =>
    obtain ⟨on, frames⟩ := task
    have hupheld := h.history.upheld
    have hwaits := (hupheld.seated hseat).waits
    have hunqueued := h.isQueued 0
    cases hwakes with
    | entry _ => cases hunqueued.symm.trans hwaits
    | wait hover _ =>
      cases hover with
      | done hw =>
        rcases hwaits with ⟨-, hq⟩ | hsleeps
        · cases hunqueued.symm.trans hq
        · cases hw.symm.trans hsleeps.pending
      | timed _ htimer =>
        have hnone := TimerQueue.live_eq_none_of_peek? hupheld.sound.orderly.complete h.next
        cases (hnone _).symm.trans htimer

/-- A program that starts no task runs as it reads, given the time of all its delays, a timeslice for
each and two polls for each statement. -/
theorem evaluateWithin_eq_direct (t : Statement) (ht : t.SpawnFree) (limits : Limits)
    (hmax : limits.horizon ≤ Machine.maxTime) (hhorizon : t.delays.sum ≤ limits.horizon)
    (hpolls : 2 * t.size + 1 ≤ limits.maxPolls) (hslices : t.delays.length ≤ limits.maxTimeslices) :
    t.evaluateWithin limits = (t.direct 0).evaluation := by
  obtain ⟨k, r, hr, hstops⟩ :=
    Machine.exists_restsAt_runFor limits Statement.hasEnded limits.maxTimeslices t.loaded
  obtain ⟨L, hL⟩ := (Statement.RestsAt.reaches ⟨k, hr⟩ : t.Reaches ⟨r, .idle⟩).history
  have hstops : Machine.StopsWith limits Statement.hasEnded k r (t.runWith limits).1
      (t.runWith limits).2 := hstops
  have halone := hL.alone ht (Nat.le_trans hhorizon hmax)
  have hfinished : (t.runWith limits).1 = .finished ∧ (t.runWith limits).2 = r := by
    rcases stops_within hhorizon hpolls hslices hr hstops with hfinished | hstuck
    · rw [hfinished] at hstops
      exact ⟨hfinished, hstops.2⟩
    · rw [hstuck] at hstops
      obtain ⟨hdone, hnext, -⟩ := hstops
      exact absurd (halone.ends_of_stuck ⟨hL, hr.ready, hnext⟩) (by simpa [Statement.hasEnded] using hdone)
  obtain ⟨hreason, rfl⟩ := hfinished
  rw [hreason] at hstops
  cases halone.onward with
  | runs hfocus => cases hfocus
  | waits _ _ _ hf =>
    have hended : Option.isSome _ = true := hstops.1
    rw [hf.running] at hended
    cases hended
  | ended _ _ hending hprints =>
    rw [evaluateWithin_of_finished hreason hending]
    exact congrArg (Evaluation.mk · _ _) hprints

def caughtThrow : Statement :=
  .block 0 .coroutineScope
    [.leaf 1 (.delay 10), .leaf 2 (.print "a"),
      .block 3 (.tryCatch .custom)
        [.block 4 .supervisorScope [.leaf 5 (.delay 5), .leaf 6 (.throwException .custom)],
          .leaf 7 (.print "b")],
      .leaf 8 (.throwException .cancellation)]

theorem caught_throw_runs_as_it_reads :
    caughtThrow.evaluateWithin .default = (caughtThrow.direct 0).evaluation ∧
      (caughtThrow.direct 0).evaluation =
        ⟨[⟨"a", 10⟩, ⟨"Got exception", 15⟩], .uncaughtCancellation, 15⟩ := by
  have hfree : caughtThrow.SpawnFree := by decide
  exact ⟨evaluateWithin_eq_direct caughtThrow hfree .default (by decide) (by decide) (by decide)
    (by decide), by cbv⟩

end RacePuzzle
