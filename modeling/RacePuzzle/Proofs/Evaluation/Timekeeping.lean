import RacePuzzle.Proofs.Evaluation.Punctual

/-! Every step of a fork-join run keeps time. -/
namespace RacePuzzle

open Interpreter

variable {t : Statement} {L L' : Ledger} {m m' : ProgramMachine} {s s' : Snapshot} {D D' : JobId → Nat}
  {done : List Statement} {begun time : Nat} {frames frames' outer : List ProgramFrame}
  {seat : SeatId} {ticket : Ticket} {result result' : Completion}

/-- The next step ends no statement, nor the program. -/
def Snapshot.IsMid (s : Snapshot) : Prop :=
  ∀ result, (∀ id, ¬ s.Ends (.leave id) result) ∧ ¬ s.Ends .program result

theorem Snapshot.isMid_idle (m : ProgramMachine) : IsMid ⟨m, .idle⟩ :=
  fun _ => ⟨fun _ ⟨_, _, _, hf⟩ => (nomatch hf), fun ⟨_, _, _, hf⟩ => (nomatch hf)⟩

theorem Snapshot.isMid_running {frame : ProgramFrame} (hleave : ∀ id, frame ≠ .leave id)
    (hprogram : frame ≠ .program) :
    IsMid ⟨m, .running seat ticket (frame :: outer) result⟩ := by
  refine fun _ => ⟨fun id h => ?_, fun h => ?_⟩
  · obtain ⟨_, _, _, hf⟩ := h
    exact hleave id (List.cons.inj (Focus.running.inj hf).2.2.1).1
  · obtain ⟨_, _, _, hf⟩ := h
    exact hprogram (List.cons.inj (Focus.running.inj hf).2.2.1).1

theorem Snapshot.IsMid.ended (hmid : s.IsMid) (h : s.Upheld t L) (hs : Snapshot.Step s s')
    {id : StatementId} {time : Nat} (he : ⟨id, .ended, time⟩ ∈ s'.machine.env.trace.toList) :
    ⟨id, .ended, time⟩ ∈ s.machine.env.trace.toList := by
  rcases (Snapshot.notes_step h hs).of_mem_trace he with he | hentry
  · exact he
  · exact absurd hentry.ends ((hmid _).1 _)

theorem Snapshot.IsMid.ending (hmid : s.IsMid) (h : s.Upheld t L) (hs : Snapshot.Step s s') :
    s'.machine.env.ending = s.machine.env.ending := by
  rcases (Snapshot.notes_step h hs).ending with hsame | ⟨result, hends⟩
  · exact hsame
  · exact absurd hends (hmid result).2

/-- The tasks go on, and some statements end and jobs settle. -/
theorem Punctual.onward (ht : t.Valid) (hp : Punctual t L D s) (h : s.Upheld t L)
    (hs' : s'.Upheld t L') (hl : Later L s.machine D L' s'.machine D')
    (hsmooth : Machine.Smooth 1 s.machine s'.machine)
    (hended : ∀ {owner before st rest time}, t.Placed owner before (st :: rest) →
      ⟨st.id, .ended, time⟩ ∈ s'.machine.env.trace.toList →
      ⟨st.id, .ended, time⟩ ∈ s.machine.env.trace.toList ∨
        ∃ begun, Arrives s'.machine.env.trace.toList before begun ∧
          Took t L' s'.machine D' before begun st time)
    (hsettled : ∀ {g id head inner owner before rest}, L'.JobOf g (.block id head inner) →
      HasSettled s'.machine g → t.Placed owner before (.block id head inner :: rest) →
      HasSettled s.machine g ∨ ∃ ended, Arrives s'.machine.env.trace.toList (before ++ inner) ended ∧
        Completes L' D' g ended (D' g))
    (hseated : ∀ {i task}, s'.machine.dispatcher.task? i = some task →
      s.machine.dispatcher.task? i = some task ∨ Sleeper t L' s'.machine D' task.on task.frames)
    (hrunning : ∀ {seat ticket frames result}, s'.focus = .running seat ticket frames result →
      result = .ok () ∧ OnTime t L' s'.machine D' frames)
    (hending : ∀ {result time}, s'.machine.env.ending = some (result, time) →
      s.machine.env.ending = some (result, time) ∨
        result = .ok () ∧ ⟨t.id, .ended, time⟩ ∈ s'.machine.env.trace.toList) :
    Punctual t L' D' s' where
  untroubled := hsmooth.untroubled
  account := hp.account.later hl h rfl hs' rfl hended hsettled
  running := hrunning
  seated hi := by
    rcases hseated hi with hold | hnew
    · exact (hp.seated hold).later ht (h.seated hold).rests hl hsmooth
    · exact hnew
  ending he := by
    rcases hending he with hold | hnew
    · obtain ⟨hok, hmem⟩ := hp.ending hold
      exact ⟨hok, hl.kept.trace.subset hmem⟩
    · exact hnew

/-- The tasks go on, and no statement ends or job settles. -/
theorem Punctual.carry (ht : t.Valid) (hp : Punctual t L D s) (h : s.Upheld t L)
    (hs : Snapshot.Step s s') (hL : L <+: L') (hf : Follows t L' s.machine s') (hmid : s.IsMid)
    (hsmooth : Machine.Smooth 1 s.machine s'.machine)
    (hopen : ∀ {g}, HasSettled s'.machine g → HasSettled s.machine g)
    (hseated : ∀ {i task}, s'.machine.dispatcher.task? i = some task →
      s.machine.dispatcher.task? i = some task ∨ Sleeper t L' s'.machine D task.on task.frames)
    (hrunning : ∀ {seat ticket frames result}, s'.focus = .running seat ticket frames result →
      result = .ok () ∧ OnTime t L' s'.machine D frames) : Punctual t L' D s' := by
  have hl : Later L s.machine D L' s'.machine D :=
    ⟨hL, hf.kept, Nat.le_of_eq hsmooth.now.symm, fun _ => rfl, fun hg => .inl (hopen hg)⟩
  exact hp.onward ht h hf.upheld hl hsmooth (fun _ he => .inl (hmid.ended h hs he))
    (fun _ hg _ => .inl (hopen hg)) hseated hrunning fun he => .inl ((hmid.ending h hs).symm.trans he)

section Leaf

variable {j : JobId} {id : StatementId} {action : Action} {body : List Statement}

theorem delay_le (h : History t L
    ⟨m, .running seat ticket (.rest j (.leaf id (.delay time) :: body) :: outer) (.ok ())⟩) :
    m.now + time ≤ t.delays.sum := by
  have hcost : time ≤ Snapshot.cost .delayTimes
      ⟨m, .running seat ticket (.rest j (.leaf id (.delay time) :: body) :: outer) (.ok ())⟩ := by
    rw [Snapshot.cost, Snapshot.total_running, framesWork_cons, Tariff.frame, Tariff.body_leaf]
    have hentry : Tariff.delayTimes.entry (.leaf id (.delay time)) = time := rfl
    omega
  exact Nat.le_trans (Nat.add_le_add_left hcost _) (deadline_le h).1

inductive Acted (t : Statement) (L : Ledger) (m : ProgramMachine) (D : JobId → Nat)
    (done : List Statement) (st : Statement) (outer : List ProgramFrame) : ProgramReached → Prop
  | ended {m' : ProgramMachine} : Machine.Smooth 1 m m' → Took t L m' D done m.now st m.now →
      Acted t L m D done st outer (.ended (.ok ()), m')
  | suspended {on inner} {m' : ProgramMachine} : Machine.Smooth 1 m m' →
      (Within t L m' done m.now st outer →
        Sleeper t L m' D on (inner ++ .leave st.id :: outer)) →
      Acted t L m D done st outer (.suspended on inner, m')

theorem Acted.after {st : Statement} {r : ProgramReached} (h : Acted t L m' D done st outer r)
    (hsmooth : Machine.Smooth 1 m m') : Acted t L m D done st outer r := by
  cases h with
  | ended hsmooth' htook => exact .ended (hsmooth.trans hsmooth') (hsmooth.now ▸ htook)
  | suspended hsmooth' hsleeper => exact .suspended (hsmooth.trans hsmooth') (hsmooth.now ▸ hsleeper)

structure Acting (m : ProgramMachine) (j : JobId) : Prop where
  untroubled : Machine.Untroubled 1 m
  sound : m.Sound
  job : ∃ job, m.job? j = some job
  ne : j ≠ 1
  running : m.env.ending = none

theorem smooth_record (hu : Machine.Untroubled 1 m) (id : StatementId) (mark : Mark) :
    Machine.Smooth 1 m (record id mark m) :=
  Machine.smooth_updateEnv hu _

theorem Acting.record (h : Acting m j) (id : StatementId) (mark : Mark) :
    Acting (record id mark m) j :=
  ⟨(smooth_record h.untroubled id mark).untroubled, h.sound.updateEnv _, h.job, h.ne, h.running⟩

theorem mem_trace_record (id : StatementId) (mark : Mark) (m : ProgramMachine) :
    ⟨id, mark, m.now⟩ ∈ (record id mark m).env.trace.toList := by
  simp [record, Machine.updateEnv]

theorem print_of_running (h : m.env.ending = none) (id : StatementId) (value : String) :
    print id value m = record id (.printed value) m := by
  simp [print, h]

theorem Acting.delay (h : Acting m j) (hmax : m.now + time ≤ Machine.maxTime) (ticket : Ticket) :
    Acted t L m D done (.leaf id (.delay time)) outer (performAction ticket j id (.delay time) m) := by
  obtain ⟨job, hj⟩ := h.job
  obtain ⟨m', hbegun, hdelay, hsmooth⟩ :=
    Machine.smooth_beginDelay h.untroubled h.sound hj h.ne ticket time
  have hperform : performAction ticket j id (.delay time) m =
      (.suspended (.wait j m.timetable.clock.nextSeq m.timetable.waits.size) [], m') := by
    simp only [performAction, hbegun]
    rfl
  rw [hperform]
  exact .suspended hsmooth fun hin =>
    .delay hin (hdelay.overAt hmax) (hdelay.sole h.sound.orderly)

theorem Acting.print (h : Acting m j) {text : String}
    (hprints : Prints t L (Interpreter.record id (.printed text) m) D m.now action text m.now) :
    Acted t L m D done (.leaf id action) outer (.done (Interpreter.print id text m)) := by
  rw [print_of_running h.running]
  exact .ended (smooth_record h.untroubled id _) (.prints hprints (mem_trace_record ..))

theorem signal?_of_job? {handle : Referent} {g : JobId} {gjob : Job} (h : handle.job? = some g)
    (hg : m.job? g = some gjob) : signal? handle m = some gjob.completion := by
  cases handle with
  | task g' =>
    cases h
    simp [signal?, hg]
  | deferred g' value =>
    cases h
    simp [signal?, hg]
  | bare signal => cases h

/-- The handle of a job stands for the variable, and the job has not settled later than now. -/
structure Refers (t : Statement) (L : Ledger) (m : ProgramMachine) (D : JobId → Nat) (var : String)
    (handle : Referent) (g : JobId) : Prop where
  lookup : m.env.handles.lookup var = some handle
  standsFor : StandsFor t L var handle
  job : handle.job? = some g
  exists_job : ∃ gjob, m.job? g = some gjob
  past : HasSettled m g → D g ≤ m.now

theorem Refers.record {var : String} {handle : Referent} {g : JobId} (h : Refers t L m D var handle g)
    (id : StatementId) (mark : Mark) : Refers t L (record id mark m) D var handle g :=
  ⟨h.lookup, h.standsFor, h.job, h.exists_job, h.past⟩

/-- A task of the job waits for the completion of a job that is open. -/
theorem Acting.exists_wait (h : Acting m j) {g : JobId} {gjob : Job} (hg : m.job? g = some gjob)
    (hf : m.hasFired gjob.completion = false) (ticket : Ticket) : ∃ k w m',
      m.beginSignalWait ticket j gjob.completion = (.wait j k w, m') ∧ Machine.Smooth 1 m m' ∧
        m'.timetable.waits[w]? ≠ some .cancelled ∧ Lasts m' D g := by
  obtain ⟨job, hj⟩ := h.job
  have hcompletions := h.sound.tree.completions
  have hlt : gjob.completion < m.signals.size := hcompletions.lt (Machine.bond?_of_job? hg)
  have hc := (h.untroubled.calm h.ne hj).1.cancelled
  obtain ⟨hbegun, -⟩ := Machine.begun_signalWait h.sound hj hc hlt hf ticket
  have hsmooth := Machine.smooth_beginSignalWait h.untroubled h.sound hj h.ne hlt hf ticket
  refine ⟨_, _, _, Prod.ext hbegun.on_eq rfl, hsmooth, fun hw => ?_, fun hsettled => ?_⟩
  · have hpending := (Machine.getElem?_waits_withWait m ticket j (.signal m.timetable.waits.size)
      m.timetable.waits.size).trans (if_pos rfl)
    cases hpending.symm.trans hw
  · obtain ⟨gjob', hg', hsome⟩ := (hasSettled_congr hbegun.bond).1 hsettled
    obtain rfl := Option.some.inj (hg.symm.trans hg')
    have hfired : m.hasFired gjob.completion = true :=
      hcompletions.fired (Machine.bond?_of_job? hg) hsome (by simp)
    cases hf.symm.trans hfired

theorem Acting.hasSettled (h : Acting m j) {g : JobId} {gjob : Job} (hg : m.job? g = some gjob)
    (hf : m.hasFired gjob.completion = true) : HasSettled m g :=
  ⟨gjob, hg, h.sound.tree.completions.settled (Machine.bond?_of_job? hg) hf⟩

theorem Acting.join (h : Acting m j) {var : String} {handle : Referent} {g : JobId}
    (hr : Refers t L m D var handle g) (ticket : Ticket) :
    Acted t L m D done (.leaf id (.join var)) outer (performAction ticket j id (.join var) m) := by
  obtain ⟨gjob, hgjob⟩ := hr.exists_job
  have hact := h.record id (.referred (some handle))
  have hsmooth := smooth_record h.untroubled id (.referred (some handle))
  have hgjob' : (Interpreter.record id (.referred (some handle)) m).job? g = some gjob := hgjob
  have hperform : performAction ticket j id (.join var) m = afterWait [] .done
      ((Interpreter.record id (.referred (some handle)) m).beginJoin ticket j gjob.completion) := by
    simp only [performAction, refer, hr.lookup, Option.bind_some, signal?_of_job? hr.job hgjob']
  rw [hperform, Machine.beginJoin, if_neg (by simp [hact.untroubled.not_cancelled h.ne])]
  split
  · next hfired =>
    have hsettled := hact.hasSettled hgjob' hfired
    have htook : Took t L (Interpreter.record id (.referred (some handle)) m) D done m.now
        (.leaf id (.join var)) (max m.now (D g)) := .join hr.standsFor hr.job hsettled
    rw [Nat.max_eq_left (hr.past hsettled)] at htook
    exact .ended hsmooth htook
  · next hfired =>
    obtain ⟨k, w, m', hwait, hwaits, hw, hlasts⟩ :=
      hact.exists_wait hgjob' (by simpa using hfired) ticket
    rw [hwait]
    exact .suspended (hsmooth.trans hwaits) fun hin => .join hin hr.standsFor hr.job hlasts hw

theorem printResult_of_settled (hu : Machine.Untroubled 1 m) {g : JobId} (hne : g ≠ 1)
    (hg : HasSettled m g) (id : StatementId) (value : String) :
    printResult id g value m =
      .done (Interpreter.print id value (record id (.awaited (some .completed)) m)) := by
  obtain ⟨gjob, hgjob, hsome⟩ := hg
  obtain ⟨o, ho⟩ := Option.isSome_iff_exists.1 hsome
  obtain rfl := (hu.calm hne hgjob).2 o ho
  unfold printResult
  simp only [hgjob, Option.bind_some, ho]
  rfl

theorem Acting.printAwait (h : Acting m j) {var : String} {handle : Referent} {g : JobId}
    (hr : Refers t L m D var handle g) (ticket : Ticket) (text : String) :
    Acted t L m D done (.leaf id (.printAwait var text)) outer
      (performAction ticket j id (.printAwait var text) m) := by
  obtain ⟨gjob, hgjob⟩ := hr.exists_job
  have hact := h.record id (.referred (some handle))
  have hsmooth := smooth_record h.untroubled id (.referred (some handle))
  have hgjob' : (Interpreter.record id (.referred (some handle)) m).job? g = some gjob := hgjob
  cases handle with
  | bare signal => cases hr.job
  | task g' =>
    have hperform : performAction ticket j id (.printAwait var text) m =
        .done (Interpreter.print id text (Interpreter.record id (.referred (some (.task g'))) m)) := by
      simp only [performAction, refer, hr.lookup]
    rw [hperform]
    exact (hact.print (.text hr.standsFor)).after hsmooth
  | deferred g' value =>
    obtain rfl : g' = g := Option.some.inj hr.job
    have hperform : performAction ticket j id (.printAwait var text) m =
        afterWait [.awaited id g' value] (printResult id g' value)
          ((Interpreter.record id (.referred (some (.deferred g' value))) m).beginAwait ticket j
            gjob.completion) := by
      simp only [performAction, refer, hr.lookup, hgjob', Option.map_some]
    rw [hperform]
    by_cases hfired : (Interpreter.record id (.referred (some (.deferred g' value))) m).hasFired
      gjob.completion = true
    · have hsettled := hact.hasSettled hgjob' hfired
      have hne : g' ≠ 1 := by
        cases hr.standsFor with
        | deferred htwo _ _ => exact Nat.ne_of_gt htwo
      have hshown : Prints t L (Interpreter.record id (.printed value) (Interpreter.record id
          (.awaited (some .completed))
            (Interpreter.record id (.referred (some (.deferred g' value))) m))) D m.now
          (.printAwait var text) value (max m.now (D g')) := .result hr.standsFor hsettled
      rw [Nat.max_eq_left (hr.past hsettled)] at hshown
      simp only [Machine.beginAwait, hfired, if_true, afterWait, Reached.afterWait,
        printResult_of_settled hact.untroubled hne hsettled]
      exact ((hact.record id _).print hshown).after
        (hsmooth.trans (smooth_record hact.untroubled id _))
    · obtain ⟨k, w, m', hwait, hwaits, hw, hlasts⟩ :=
        hact.exists_wait hgjob' (by simpa using hfired) ticket
      simp only [Machine.beginAwait, Machine.beginJoin, hfired, hact.untroubled.not_cancelled h.ne,
        hwait]
      exact .suspended (hsmooth.trans hwaits) fun hin => .await hin hr.standsFor hlasts hw

/-- A handle that a leaf uses has been bound to a job. -/
theorem Punctual.exists_refers (ht : t.Valid) (hp : Punctual t L D s) (h : History t L s)
    {owner : Option Statement} (hplace : t.Placed owner done (.leaf id action :: body))
    (hdone : ∀ d ∈ done, Logged s.machine.env.trace.toList d.id .ended) {var : String}
    (hu : action.uses? = some var) : ∃ handle g, Refers t L s.machine D var handle g := by
  obtain ⟨d, hd, hdeclares⟩ := ht.exists_declaration hplace hu
  obtain ⟨owner', before', rest', hdplace, -⟩ := hplace.exists_before hd
  obtain ⟨⟨id', mark, time⟩, hmem, hid, rfl⟩ := hdone d hd
  obtain rfl : id' = d.id := hid
  obtain ⟨begun, -, htook⟩ := hp.account.ended hdplace hmem
  obtain ⟨g, hg⟩ : ∃ g, L.JobOf g d := by
    cases htook with
    | task hg _ _ => exact ⟨_, hg⟩
    | scope hg _ _ => exact ⟨_, hg⟩
    | delay => cases hdeclares
    | prints hprints _ => cases hprints <;> cases hdeclares
    | join => cases hdeclares
    | tryCatch => cases hdeclares
  obtain ⟨htwo, o, ho, hblock⟩ := hg
  have hb := h.bindings ht
  obtain ⟨handle, hhandle, hjob⟩ := hb.bound htwo ho hblock hdeclares
  have hlt : g < s.machine.jobs.size := h.upheld.ledger.length ▸ (List.getElem?_eq_some_iff.1 ho).1
  exact ⟨handle, g, hb.lookup hhandle, hb.standsFor hhandle, hjob,
    ⟨_, Array.getElem?_eq_getElem hlt⟩, hp.account.past⟩

theorem Punctual.not_ended (ht : t.Valid) (hfork : t.ForkJoin) (hp : Punctual t L D s)
    (h : History t L s) (hacts : s.ActsIn t L j (.leaf id action)) : s.machine.env.ending = none := by
  by_contra hsome
  obtain ⟨⟨result, time⟩, he⟩ := Option.ne_none_iff_exists'.1 hsome
  obtain ⟨-, hmem⟩ := hp.ending he
  obtain ⟨body, hat⟩ := hacts.place
  have hleaf := hat.head_mem_nodes
  obtain ⟨root, inner, rfl, -⟩ := ht.root
  obtain ⟨g, o, htwo, ho, hblock, hopen⟩ := hacts.isOpenIn ht h.upheld (Statement.self_mem_nodes _) rfl
    (by simp) (hfork.attached_eq.symm ▸ hleaf) (by simp)
  exact not_isOpen_of_ended ht h htwo ho hblock rfl ⟨_, hmem, rfl, rfl⟩ hopen

theorem Punctual.acted (ht : t.Valid) (hfork : t.ForkJoin) (hmax : t.delays.sum ≤ Machine.maxTime)
    (hp : Punctual t L D
      ⟨m, .running seat ticket (.rest j (.leaf id action :: body) :: outer) (.ok ())⟩)
    (h : History t L ⟨m, .running seat ticket (.rest j (.leaf id action :: body) :: outer) (.ok ())⟩)
    {owner : Option Statement} (hplace : t.Placed owner done (.leaf id action :: body)) :
    Acted t L m D done (.leaf id action) (.rest j body :: outer)
      (performAction ticket j id action (record id .began m)) := by
  have hbegins : Snapshot.Begins ⟨m, .running seat ticket (.rest j (.leaf id action :: body) :: outer)
    (.ok ())⟩ j (.leaf id action) := ⟨_, _, _, _, rfl⟩
  have hacts := h.upheld.actsIn_of_begins hbegins
  obtain ⟨b, hb, -⟩ := hacts.isOpen
  obtain ⟨job, hj, -⟩ := Machine.bond?_eq_some.1 hb
  have hact : Acting (record id .began m) j := Acting.record
    ⟨hp.untroubled, h.upheld.sound, ⟨job, hj⟩, hacts.ne, hp.not_ended ht hfork h hacts⟩ id .began
  have hrefers := fun {var} (hu : action.uses? = some var) =>
    hp.exists_refers ht h hplace (hacts.preceded ht _ _ _ hplace) hu
  have hacted : Acted t L (record id .began m) D done (.leaf id action) (.rest j body :: outer)
      (performAction ticket j id action (record id .began m)) := by
    cases action with
    | delay d =>
      have hle : m.now + d ≤ t.delays.sum := delay_le h
      exact hact.delay (Nat.le_trans hle hmax) ticket
    | print text => exact hact.print .print
    | join var =>
      obtain ⟨handle, g, hr⟩ := hrefers rfl
      exact hact.join (hr.record id .began) ticket
    | printAwait var text =>
      obtain ⟨handle, g, hr⟩ := hrefers rfl
      exact hact.printAwait (hr.record id .began) ticket text
    | _ => cases hfork _ hplace.head_mem_nodes
  exact hacted.after (smooth_record hp.untroubled id .began)

end Leaf

section Code

variable {j : JobId} {id : StatementId} {body : List Statement}

theorem Punctual.carry_code (ht : t.Valid)
    (hp : Punctual t L D ⟨m, .running seat ticket frames result⟩)
    (h : History t L ⟨m, .running seat ticket frames result⟩)
    (hs : Thread.Step ticket ⟨frames, result, m⟩ ⟨frames', result', m'⟩) (hL : L <+: L')
    (hf : Follows t L' m ⟨m', .running seat ticket frames' result'⟩)
    (hmid : Snapshot.IsMid ⟨m, .running seat ticket frames result⟩) (hsmooth : Machine.Smooth 1 m m')
    (hseats : m'.dispatcher.seats = m.dispatcher.seats)
    (hopen : ∀ {g}, HasSettled m' g → HasSettled m g) (hok : result' = .ok ())
    (hon : OnTime t L' m' D frames') : Punctual t L' D ⟨m', .running seat ticket frames' result'⟩ := by
  refine hp.carry ht h.upheld (.code hs) hL hf hmid hsmooth hopen (fun hi => .inl ?_) fun hf => ?_
  · exact (Dispatcher.task?_of_seats hseats _).symm.trans hi
  · obtain ⟨-, -, rfl, rfl⟩ := Focus.running.inj hf
    exact ⟨hok, hon⟩

theorem Punctual.act (ht : t.Valid) (hfork : t.ForkJoin) (hmax : t.delays.sum ≤ Machine.maxTime)
    {action : Action} (hp : Punctual t L D
      ⟨m, .running seat ticket (.rest j (.leaf id action :: body) :: outer) (.ok ())⟩)
    (h : History t L ⟨m, .running seat ticket (.rest j (.leaf id action :: body) :: outer) (.ok ())⟩)
    (he : performAction ticket j id action (record id .began m) = (.ended result, m'))
    (hf : Follows t L m ⟨m', .running seat ticket (.leave id :: .rest j body :: outer) result⟩) :
    Punctual t L D ⟨m', .running seat ticket (.leave id :: .rest j body :: outer) result⟩ := by
  obtain ⟨-, hon⟩ := hp.running rfl
  have hacts := h.upheld.acts
  rw [he] at hacts
  cases hon with
  | arrived _ hchain harrives =>
    cases hchain with
    | rest hplace hout hchain =>
      have hacted := hp.acted ht hfork hmax h hplace
      rw [he] at hacted
      cases hacted with
      | ended hsmooth htook =>
        cases hacts with
        | ended hquiet =>
          refine hp.carry_code ht h (.act he) (List.prefix_refl L) hf
            (Snapshot.isMid_running (by simp) (by simp)) hsmooth hquiet.seats
            (hasSettled_congr hquiet.bond).1 rfl
            (.leaving ⟨⟨_, _, hplace⟩, harrives.mono hf.kept.trace, .leave hplace hout hchain⟩ ?_)
          exact hsmooth.now.symm ▸ htook

theorem Punctual.bodyEnd (ht : t.Valid)
    (hp : Punctual t L D ⟨m, .running seat ticket (.rest j [] :: outer) (.ok ())⟩)
    (h : History t L ⟨m, .running seat ticket (.rest j [] :: outer) (.ok ())⟩)
    (hf : Follows t L m ⟨m, .running seat ticket outer (.ok ())⟩) :
    Punctual t L D ⟨m, .running seat ticket outer (.ok ())⟩ := by
  obtain ⟨-, hon⟩ := hp.running rfl
  cases hon with
  | arrived _ hchain harrives =>
    cases hchain with
    | rest _ hout hchain =>
      refine hp.carry_code ht h .bodyEnd (List.prefix_refl L) hf
        (Snapshot.isMid_running (by simp) (by simp)) (.refl hp.untroubled) rfl (fun hg => hg) rfl
        (.arrived hout hchain ?_)
      simpa using harrives

theorem Punctual.leave (ht : t.Valid)
    (hp : Punctual t L D ⟨m, .running seat ticket (.leave id :: outer) (.ok ())⟩)
    (h : History t L ⟨m, .running seat ticket (.leave id :: outer) (.ok ())⟩)
    (hf : Follows t L m ⟨record id .ended m, .running seat ticket outer (.ok ())⟩) :
    Punctual t L D ⟨record id .ended m, .running seat ticket outer (.ok ())⟩ := by
  obtain ⟨-, hon⟩ := hp.running rfl
  generalize hframes : ProgramFrame.leave id :: outer = frames at hon
  cases hon with
  | @leaving done begun st outer' hin htook =>
    cases hframes
    have hl : Later L m D L (record st.id .ended m) D :=
      ⟨List.prefix_refl L, hf.kept, Nat.le_refl _, fun _ => rfl, .inl⟩
    refine hp.onward ht h.upheld hf.upheld hl (smooth_record hp.untroubled _ _) (fun hplace hmem => ?_)
      (fun _ hg _ => .inl hg) .inl (fun hf => ?_) .inl
    · have htrace : (record st.id .ended m).env.trace.toList =
          m.env.trace.toList ++ [⟨st.id, .ended, m.now⟩] := by
        simp [record, Machine.updateEnv]
      rw [htrace] at hmem
      rcases List.mem_append.1 hmem with hold | hnew
      · exact .inl hold
      · obtain ⟨hid, -, rfl⟩ := TraceEntry.mk.inj (List.mem_singleton.1 hnew)
        obtain ⟨owner, body, hplace'⟩ := hin.placed
        obtain rfl := ht.eq_of_id hplace.head_mem_nodes hplace'.head_mem_nodes hid
        obtain ⟨-, rfl⟩ := ht.place_unique hplace hplace'
        exact .inr ⟨begun, hin.arrives.mono hf.kept.trace, htook.later hl⟩
    · obtain ⟨-, -, rfl, rfl⟩ := Focus.running.inj hf
      obtain ⟨st', hid, hout, hchain⟩ := hin.chain.next
      refine ⟨rfl, .arrived hout hchain (arrives_concat.2 ?_)⟩
      rw [hid]
      exact mem_trace_record ..
  | arrived hout _ _ =>
    subst hframes
    exact hout.elim
  | _ => cases hframes

/-- A block that has not ended began after what precedes it. -/
theorem Runs.exists_begun (ht : t.Valid) {tr : List TraceEntry}
    (hr : Runs t L tr (some j) (.leave id :: outer)) {owner : Option Statement} {st : Statement}
    (hplace : t.Placed owner done (st :: body)) (hid : st.id = id) :
    ∃ begun, Arrives tr done begun := by
  obtain ⟨body', hat⟩ := hr.at_of_mem ht hplace.head_mem_nodes hid
  exact exists_arrives (hat.preceded ht.ids _ _ _ hplace)

theorem Punctual.catching (ht : t.Valid) {kind : ExceptionKind}
    (hp : Punctual t L D ⟨m, .running seat ticket (.catching id kind :: outer) result⟩)
    (h : History t L ⟨m, .running seat ticket (.catching id kind :: outer) result⟩)
    (he : catchException id kind result m = (.ended result', m'))
    (hf : Follows t L m ⟨m', .running seat ticket outer result'⟩) :
    Punctual t L D ⟨m', .running seat ticket outer result'⟩ := by
  obtain ⟨rfl, hon⟩ := hp.running rfl
  have hready := (h.upheld.polled rfl).ready
  have he' := he
  obtain ⟨hresult, rfl⟩ := Prod.mk.inj he
  obtain rfl := Progress.ended.inj hresult
  cases hon with
  | arrived _ hchain harrives =>
    cases hchain with
    | catching hplace hchain =>
      obtain ⟨begun, hbegun⟩ : ∃ begun, Arrives m.env.trace.toList _ begun := by
        cases hready with
        | runs hr =>
          cases hr with
          | catching _ hr => exact hr.exists_begun ht hplace rfl
      exact hp.carry_code ht h (.catching he') (List.prefix_refl L) hf
        (Snapshot.isMid_running (by simp) (by simp)) (.refl hp.untroubled) rfl (fun hg => hg) rfl
        (.leaving ⟨⟨_, _, hplace⟩, hbegun, hchain⟩ (.tryCatch harrives))

theorem Punctual.awaited (ht : t.Valid) (hfork : t.ForkJoin) {g : JobId} {value : String}
    (hp : Punctual t L D ⟨m, .running seat ticket (.awaited id g value :: outer) (.ok ())⟩)
    (h : History t L ⟨m, .running seat ticket (.awaited id g value :: outer) (.ok ())⟩)
    (he : printResult id g value m = (.ended result', m'))
    (hf : Follows t L m ⟨m', .running seat ticket outer result'⟩) :
    Punctual t L D ⟨m', .running seat ticket outer result'⟩ := by
  obtain ⟨-, hon⟩ := hp.running rfl
  generalize hframes : ProgramFrame.awaited id g value :: outer = frames at hon
  cases hon with
  | @awaited done begun _ var text _ _ outer' hin hstands hsettled hnow =>
    cases hframes
    have he' := he
    have hne : g ≠ 1 := by
      cases hstands with
      | deferred htwo _ _ => exact Nat.ne_of_gt htwo
    have hends : Snapshot.Ends ⟨m, .running seat ticket (.awaited id g value :: .leave id :: outer')
      (.ok ())⟩ (.awaited id g value) (.ok ()) := ⟨_, _, _, rfl⟩
    obtain ⟨k, st, hid, hacts, -⟩ := h.upheld.actsIn_of_awaited hends
    obtain ⟨owner, body, hplace⟩ := hin.placed
    obtain ⟨body', hat⟩ := hacts.place
    obtain rfl := ht.eq_of_id hat.head_mem_nodes hplace.head_mem_nodes hid
    have hrunning : m.env.ending = none := hp.not_ended ht hfork h hacts
    rw [printResult_of_settled hp.untroubled hne hsettled,
      print_of_running (m := record id (.awaited (some .completed)) m) hrunning] at he
    obtain ⟨hresult, rfl⟩ := Prod.mk.inj he
    obtain rfl := Progress.ended.inj hresult
    have hnoted := smooth_record hp.untroubled id (.awaited (some .completed))
    have hshown : Prints t L m D begun (.printAwait var text) value (max begun (D g)) :=
      .result hstands hsettled
    have hl : Later L m D L (record id (.printed value) (record id (.awaited (some .completed)) m)) D :=
      ⟨List.prefix_refl L, hf.kept, Nat.le_refl _, fun _ => rfl, .inl⟩
    rw [← hnow] at hshown
    exact hp.carry_code ht h (.awaited he') (List.prefix_refl L) hf
      (Snapshot.isMid_running (by simp) (by simp))
      (hnoted.trans (smooth_record hnoted.untroubled id _)) rfl (fun hg => hg) rfl
      (.leaving (hin.later hl) (.prints (hshown.later hl) (mem_trace_record ..)))
  | arrived hout _ _ =>
    subst hframes
    exact hout.elim
  | _ => cases hframes

/-- Nothing is started in the background. -/
theorem Statement.ForkJoin.idle_background (hfork : t.ForkJoin) (h : s.Upheld t L) {job : Job}
    (hj : s.machine.job? 1 = some job) : job.children = [] := by
  refine List.eq_nil_iff_forall_not_mem.2 fun c hc => ?_
  obtain ⟨-, -, -, hlt, -⟩ := h.sound.tree.links.child (Machine.bond?_of_job? hj) hc
  obtain ⟨-, o, ho, hparent⟩ := h.listed (Machine.bond?_of_job? hj) hc hlt
  obtain ⟨-, id, head, inner, hmade⟩ := h.ledger.made hlt ho
  exact hfork.ne_scopeLaunch hmade.mem_nodes (hmade.detached hparent)

theorem Punctual.program (ht : t.Valid) (hfork : t.ForkJoin)
    (hp : Punctual t L D ⟨m, .running seat ticket (.program :: outer) result⟩)
    (h : History t L ⟨m, .running seat ticket (.program :: outer) result⟩)
    (hf : Follows t L m ⟨endProgram result m, .running seat ticket outer result⟩) :
    Punctual t L D ⟨endProgram result m, .running seat ticket outer result⟩ := by
  obtain ⟨rfl, hon⟩ := hp.running rfl
  have hquiet := quiet_endProgram h.upheld.sound h.upheld.handles (.ok ())
  have hsmooth : Machine.Smooth 1 m (endProgram (.ok ()) m) := by
    have hcancel := Machine.smooth_cancel hp.untroubled (hfork.idle_background h.upheld)
    rw [endProgram, show m.env.background = 1 from h.upheld.background]
    exact hcancel.trans (Machine.smooth_updateEnv hcancel.untroubled _)
  have hl : Later L m D L (endProgram (.ok ()) m) D := ⟨List.prefix_refl L, hf.kept,
    Nat.le_of_eq hsmooth.now.symm, fun _ => rfl, fun hg => .inl ((hasSettled_congr hquiet.bond).1 hg)⟩
  have henv := (Machine.sameBonds_cancel m m.env.background).env
  have htrace : (endProgram (.ok ()) m).env.trace = m.env.trace :=
    congrArg (fun env => env.trace) henv
  cases hon with
  | arrived _ hchain harrives =>
    cases hchain with
    | program =>
      refine hp.onward ht h.upheld hf.upheld hl hsmooth (fun _ hmem => .inl ?_)
        (fun _ hg _ => .inl ((hasSettled_congr hquiet.bond).1 hg))
        (fun hi => .inl ((Dispatcher.task?_of_seats hquiet.seats _).symm.trans hi))
        (fun hf => ?_) fun he => .inr ?_
      · exact htrace ▸ hmem
      · obtain ⟨-, -, rfl, rfl⟩ := Focus.running.inj hf
        exact ⟨rfl, .ended⟩
      · obtain ⟨rfl, rfl⟩ := Prod.mk.inj (Option.some.inj he)
        exact ⟨rfl, htrace.symm ▸ harrives⟩

end Code

end RacePuzzle
