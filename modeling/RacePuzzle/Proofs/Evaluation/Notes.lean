import RacePuzzle.Proofs.Evaluation.History

/-! What a run writes down. Every entry of the trace and every handle comes from the statement that
acts, and a join or an await that goes through found its signal fired. -/
namespace RacePuzzle

open Interpreter

/-- Nothing but the trace grows in the environment, by entries of which `P` is true. -/
structure Writes (P : TraceEntry → Prop) (m m' : ProgramMachine) : Prop where
  trace : ∃ new, m'.env.trace.toList = m.env.trace.toList ++ new ∧ ∀ e ∈ new, P e
  handles : m'.env.handles = m.env.handles
  ending : m'.env.ending = m.env.ending

variable {P : TraceEntry → Prop} {t : Statement} {L : Ledger} {m m' m'' : ProgramMachine}

theorem Writes.ofEnv (h : m'.env = m.env) : Writes P m m' :=
  ⟨⟨[], by simp [h], by simp⟩, by rw [h], by rw [h]⟩

theorem Writes.refl (m : ProgramMachine) : Writes P m m := .ofEnv rfl

theorem Writes.trans (h : Writes P m m') (h' : Writes P m' m'') : Writes P m m'' := by
  obtain ⟨new, he, hnew⟩ := h.trace
  obtain ⟨new', he', hnew'⟩ := h'.trace
  refine ⟨⟨new ++ new', by rw [he', he, List.append_assoc], fun e hmem => ?_⟩,
    h'.handles.trans h.handles, h'.ending.trans h.ending⟩
  exact (List.mem_append.1 hmem).elim (hnew e) (hnew' e)

theorem writes_record {id : StatementId} {mark : Mark} (hP : ∀ time, P ⟨id, mark, time⟩) :
    Writes P m (record id mark m) := by
  refine ⟨⟨[⟨id, mark, m.now⟩], by simp [record, Machine.updateEnv], fun e he => ?_⟩, rfl, rfl⟩
  obtain rfl := List.mem_singleton.1 he
  exact hP _

theorem writes_print {id : StatementId} {value : String}
    (hP : ∀ time, P ⟨id, .printed value, time⟩) : Writes P m (print id value m) := by
  unfold print
  split
  · exact writes_record hP
  · exact .refl m

theorem writes_printResult {id : StatementId} {j : JobId} {text : String}
    (hawaited : ∀ time, P ⟨id, .awaited ((m.job? j).bind (·.outcome)), time⟩)
    (hprinted : ∀ time, P ⟨id, .printed text, time⟩) :
    Writes P m (printResult id j text m).2 := by
  unfold printResult
  dsimp only
  split
  · exact (writes_record hawaited).trans (writes_print hprinted)
  · exact writes_record hawaited

theorem writes_catchException {id : StatementId} {kind : ExceptionKind} {result : Completion}
    (hP : ∀ time, P ⟨id, .printed handlerText, time⟩) :
    Writes P m (catchException id kind result m).2 := by
  unfold catchException
  split
  · exact .refl m
  · split
    · exact writes_print hP
    · exact .refl m

theorem trace_bind (id : StatementId) (var : String) (handle : Referent) (m : ProgramMachine) :
    (Interpreter.bind id var handle m).env.trace.toList =
      m.env.trace.toList ++ [⟨id, .bound handle, m.now⟩] := by
  simp [Interpreter.bind, record, Machine.updateEnv, Machine.now]

def prints (m : ProgramMachine) : List TimedPrint :=
  m.env.trace.toList.filterMap TraceEntry.event?

theorem prints_congr (h : m'.env = m.env) : prints m' = prints m := by
  rw [prints, prints, h]

theorem prints_record (id : StatementId) (mark : Mark) (m : ProgramMachine) :
    prints (record id mark m) = prints m ++ (TraceEntry.event? ⟨id, mark, m.now⟩).toList := by
  rw [prints, prints, record, Machine.updateEnv, Array.toList_push, List.filterMap_append]
  rfl

def Mark.IsSilent : Mark → Prop
  | .printed _ => False
  | _ => True

theorem prints_record_silent {mark : Mark} (hm : mark.IsSilent) (id : StatementId)
    (m : ProgramMachine) : prints (record id mark m) = prints m := by
  rw [prints_record]
  cases mark with
  | printed => exact hm.elim
  | _ => exact List.append_nil _

@[simp] theorem prints_record_began (id : StatementId) (m : ProgramMachine) :
    prints (record id .began m) = prints m :=
  @prints_record_silent .began trivial id m

@[simp] theorem prints_record_ended (id : StatementId) (m : ProgramMachine) :
    prints (record id .ended m) = prints m :=
  @prints_record_silent .ended trivial id m

theorem prints_print (h : m.env.ending = none) (id : StatementId) (value : String) :
    prints (print id value m) = prints m ++ [⟨value, m.now⟩] := by
  simp [print, h, prints_record, TraceEntry.event?]

theorem jobs_print (id : StatementId) (value : String) (m : ProgramMachine) :
    (print id value m).jobs = m.jobs := by
  unfold print
  split <;> rfl

theorem timetable_print (id : StatementId) (value : String) (m : ProgramMachine) :
    (print id value m).timetable = m.timetable := by
  unfold print
  split <;> rfl

theorem ending_print (id : StatementId) (value : String) (m : ProgramMachine) :
    (print id value m).env.ending = m.env.ending := by
  unfold print
  split <;> rfl

def Fired (m : ProgramMachine) (handle : Referent) : Prop :=
  ∀ s, signal? handle m = some s → m.hasFired s = true

inductive Action.Awaits : Action → String → Referent → Prop
  | join {var handle} : Awaits (.join var) var handle
  | printAwait {var text job result} : Awaits (.printAwait var text) var (.deferred job result)

/-- Nothing keeps the action waiting. -/
def Action.GoesThrough (action : Action) (m : ProgramMachine) : Prop :=
  ∀ var handle, action.Awaits var handle → m.env.handles.lookup var = some handle →
    Fired m handle

inductive Noted (m : ProgramMachine) (action : Action) : Mark → Prop
  | bound {var} : action = .job var → Noted m action (.bound (.bare m.signals.size))
  | referred {var} : action.uses? = some var →
      Noted m action (.referred (m.env.handles.lookup var))
  | awaited {var text target result} : action = .printAwait var text →
      m.env.handles.lookup var = some (.deferred target result) → action.GoesThrough m →
      Noted m action (.awaited ((m.job? target).bind (·.outcome)))
  | printed {value} : action.GoesThrough m → Noted m action (.printed value)

/-- The beginning of a leaf changes nothing that it notes. -/
theorem Noted.of_began {id : StatementId} {action : Action} {mark : Mark}
    (h : Noted (record id .began m) action mark) : Noted m action mark := by
  cases h with
  | bound he => exact .bound he
  | referred hu => exact .referred hu
  | awaited he hl hgoes => exact .awaited he hl hgoes
  | printed hgoes => exact .printed hgoes

def NotedBy (m : ProgramMachine) (id : StatementId) (action : Action) (e : TraceEntry) : Prop :=
  e.statement = id ∧ Noted m action e.mark

structure ActionNotes (m : ProgramMachine) (id : StatementId) (action : Action)
    (r : ProgramReached) : Prop where
  trace : ∃ new, r.2.env.trace.toList = m.env.trace.toList ++ new ∧
    ∀ e ∈ new, NotedBy m id action e
  handles : action.declares? = none ∧ r.2.env.handles = m.env.handles ∨
    ∃ var, action = .job var ∧
      r.2.env.handles = (var, .bare m.signals.size) :: m.env.handles ∧
      Logged r.2.env.trace.toList id (.bound (.bare m.signals.size))
  ending : r.2.env.ending = m.env.ending
  through : r.1 = .ended (.ok ()) → action.GoesThrough m

variable {id : StatementId} {action : Action}

theorem ActionNotes.ofWrites {r : ProgramReached} (hd : action.declares? = none)
    (h : Writes (NotedBy m id action) m r.2)
    (ht : r.1 = .ended (.ok ()) → action.GoesThrough m) : ActionNotes m id action r :=
  ⟨h.trace, .inl ⟨hd, h.handles⟩, h.ending, ht⟩

theorem writes_refer {var : String} (hu : action.uses? = some var) :
    Writes (NotedBy m id action) m (refer id var m).2 :=
  writes_record fun _ => ⟨rfl, .referred hu⟩

theorem env_beginDelay (m : ProgramMachine) (ticket : Ticket) (j : JobId) (time : Nat) :
    (m.beginDelay ticket j time).2.env = m.env := by
  unfold Machine.beginDelay
  split <;> rfl

/-- A join goes through only when its signal has fired. -/
theorem beginJoin_cases (m : ProgramMachine) (ticket : Ticket) (j : JobId) (s : SignalId) :
    (m.beginJoin ticket j s).2.env = m.env ∧
      ((m.beginJoin ticket j s).1 = .through → m.hasFired s = true) := by
  unfold Machine.beginJoin
  split
  · exact ⟨rfl, nofun⟩
  · split
    · next hf => exact ⟨rfl, fun _ => hf⟩
    · exact ⟨rfl, nofun⟩

theorem beginAwait_cases (m : ProgramMachine) (ticket : Ticket) (j : JobId) (s : SignalId) :
    (m.beginAwait ticket j s).2.env = m.env ∧
      ((m.beginAwait ticket j s).1 = .through →
        m.hasFired s = true ∧ (m.beginAwait ticket j s).2 = m) := by
  unfold Machine.beginAwait
  split
  · next hf => exact ⟨rfl, fun _ => ⟨hf, rfl⟩⟩
  · next hf =>
    obtain ⟨henv, hfired⟩ := beginJoin_cases m ticket j s
    exact ⟨henv, fun he => absurd (hfired he) hf⟩

/-- Before anything is awaited, the action has nothing to wait for. -/
theorem goesThrough_of_not_awaits (h : ∀ var handle, ¬ action.Awaits var handle) :
    action.GoesThrough m :=
  fun _ _ ha => absurd ha (h _ _)

theorem notes_afterWait {frames : List ProgramFrame} {k : ProgramMachine → ProgramReached}
    {r : WaitStart × ProgramMachine} (hd : action.declares? = none)
    (hw : Writes (NotedBy m id action) m r.2)
    (hk : r.1 = .through → ActionNotes m id action (k r.2)) :
    ActionNotes m id action (afterWait frames k r) := by
  obtain ⟨start, m'⟩ := r
  cases start with
  | through => exact hk rfl
  | refused why => exact .ofWrites hd hw fun he => by cases he
  | suspended on => exact .ofWrites hd hw fun he => by cases he

/-- An action goes through when the signal that it waits for has fired. -/
theorem goesThrough_of_hasFired {var : String} {handle : Referent} {s : SignalId}
    (hawaits : action.Awaits var handle) (hl : m.env.handles.lookup var = some handle)
    (hs : signal? handle m = some s) (hf : m.hasFired s = true) : action.GoesThrough m := by
  intro var' handle' hawaits' hl' s' hs'
  obtain rfl : var' = var := by cases hawaits <;> cases hawaits' <;> rfl
  obtain rfl := Option.some.inj (hl.symm.trans hl')
  obtain rfl := Option.some.inj (hs.symm.trans hs')
  exact hf

theorem notes_performAction (ticket : Ticket) (j : JobId) (id : StatementId) (action : Action)
    (m : ProgramMachine) : ActionNotes m id action (performAction ticket j id action m) := by
  have hperforms := performs_performAction ticket j id action m
  generalize performAction ticket j id action m = r at hperforms ⊢
  -- an action that goes through whatever its handle stands for
  have hfree : (∀ var handle, ¬ action.Awaits var handle) → ∀ {m' result},
      action.declares? = none → Writes (NotedBy m id action) m m' →
      ActionNotes m id action (.ended result, m') :=
    fun hnot _ _ hd hw => .ofWrites hd hw fun _ => goesThrough_of_not_awaits hnot
  cases hperforms with
  | @delay time =>
    have henv := env_beginDelay m ticket j time
    exact notes_afterWait rfl (.ofEnv henv) fun _ => hfree (by rintro _ _ ⟨⟩) rfl (.ofEnv henv)
  | @print text =>
    have hgoes : (Action.print text).GoesThrough m := goesThrough_of_not_awaits (by rintro _ _ ⟨⟩)
    exact .ofWrites rfl (writes_print fun _ => ⟨rfl, .printed hgoes⟩) fun _ => hgoes
  | throwException => exact hfree (by rintro _ _ ⟨⟩) rfl (.refl m)
  | @job var =>
    have htrace := trace_bind id var (.bare m.signals.size) m.newSignal.2
    refine ⟨⟨[⟨id, .bound (.bare m.signals.size), m.now⟩], htrace, fun e he => ?_⟩,
      .inr ⟨var, rfl, rfl, _, htrace ▸ List.mem_append_right _ (List.mem_singleton_self _), rfl, rfl⟩,
      rfl, fun _ => goesThrough_of_not_awaits (by rintro _ _ ⟨⟩)⟩
    obtain rfl := List.mem_singleton.1 he
    exact ⟨rfl, .bound rfl⟩
  | joinNothing hnone =>
    refine .ofWrites rfl (writes_refer rfl) fun _ var' handle ha hl s hs => ?_
    cases ha
    cases (hnone handle hl).symm.trans hs
  | @join var handle s hl hs =>
    obtain ⟨henv, hfired⟩ := beginJoin_cases (refer id var m).2 ticket j s
    have hw : Writes (NotedBy m id (.join var)) m _ := (writes_refer rfl).trans (.ofEnv henv)
    exact notes_afterWait rfl hw fun he => .ofWrites rfl hw fun _ =>
      goesThrough_of_hasFired .join hl hs (hfired he)
  | cancelNothing _ => exact hfree (by rintro _ _ ⟨⟩) rfl (writes_refer rfl)
  | @cancel var handle target _ _ =>
    exact hfree (by rintro _ _ ⟨⟩) rfl ((writes_refer rfl).trans (.ofEnv (Machine.sameBonds_cancel ..).env))
  | cancelBare _ => exact hfree (by rintro _ _ ⟨⟩) rfl ((writes_refer rfl).trans (.ofEnv (Machine.env_fire ..)))
  | completeNothing _ => exact hfree (by rintro _ _ ⟨⟩) rfl (writes_refer rfl)
  | completeJob _ => exact hfree (by rintro _ _ ⟨⟩) rfl ((writes_refer rfl).trans (.ofEnv (Machine.env_fire ..)))
  | awaitNothing hl hnone =>
    refine .ofWrites rfl (writes_refer rfl) fun _ var' handle ha hl' s hs => ?_
    cases ha
    cases hl.symm.trans hl'
    cases hnone.symm.trans hs
  | @await var text target result s hl hs =>
    obtain ⟨henv, hfired⟩ := beginAwait_cases (refer id var m).2 ticket j s
    have hw : Writes (NotedBy m id (.printAwait var text)) m _ :=
      (writes_refer rfl).trans (.ofEnv henv)
    refine notes_afterWait rfl hw fun he => ?_
    have hgoes : (Action.printAwait var text).GoesThrough m :=
      goesThrough_of_hasFired .printAwait hl hs (hfired he).1
    rw [(hfired he).2]
    exact .ofWrites rfl ((writes_refer rfl).trans (writes_printResult
      (fun _ => ⟨rfl, .awaited rfl hl hgoes⟩) fun _ => ⟨rfl, .printed hgoes⟩)) fun _ => hgoes
  | @printText var text hother =>
    have hgoes : (Action.printAwait var text).GoesThrough m := by
      intro var' handle ha hl
      cases ha
      exact absurd hl (hother _ _)
    exact .ofWrites rfl ((writes_refer rfl).trans (writes_print fun _ => ⟨rfl, .printed hgoes⟩))
      fun _ => hgoes

namespace Snapshot

/-- The task that is polled is about to begin the statement in the job. -/
def Begins (s : Snapshot) (j : JobId) (st : Statement) : Prop :=
  ∃ seat ticket body outer, s.focus = .running seat ticket (.rest j (st :: body) :: outer) (.ok ())

/-- The innermost frame of the task that is polled, with what it gets. -/
def Ends (s : Snapshot) (frame : ProgramFrame) (result : Completion) : Prop :=
  ∃ seat ticket outer, s.focus = .running seat ticket (frame :: outer) result

inductive Binds (s : Snapshot) : String → Referent → Prop
  | bare {j id var} : s.Begins j (.leaf id (.job var)) → Binds s var (.bare s.machine.signals.size)
  | task {j id var inner} : s.Begins j (.block id (.launchJob var) inner) →
      Binds s var (.task s.machine.jobs.size)
  | deferred {j id var text inner} : s.Begins j (.block id (.async var text) inner) →
      Binds s var (.deferred s.machine.jobs.size text)

inductive Entry (s : Snapshot) : TraceEntry → Prop
  | began {j st time} : s.Begins j st → Entry s ⟨st.id, .began, time⟩
  | bound {j st var handle time} : s.Begins j st → s.Binds var handle →
      Entry s ⟨st.id, .bound handle, time⟩
  | acted {j id action mark time} : s.Begins j (.leaf id action) → Noted s.machine action mark →
      Entry s ⟨id, mark, time⟩
  | ended {id time} : s.Ends (.leave id) (.ok ()) → Entry s ⟨id, .ended, time⟩
  | caught {id kind result time} : s.Ends (.catching id kind) result →
      Entry s ⟨id, .printed handlerText, time⟩
  | awaited {id j text time} : s.Ends (.awaited id j text) (.ok ()) →
      Entry s ⟨id, .awaited ((s.machine.job? j).bind (·.outcome)), time⟩
  | shown {id j text time} : s.Ends (.awaited id j text) (.ok ()) → Entry s ⟨id, .printed text, time⟩

/-- What a step leaves in the environment. -/
structure Notes (s s' : Snapshot) : Prop where
  trace : ∃ new, s'.machine.env.trace.toList = s.machine.env.trace.toList ++ new ∧
    ∀ e ∈ new, s.Entry e
  handles : (∀ j st, s.Begins j st → st.declares? = none) ∧
      s'.machine.env.handles = s.machine.env.handles ∨
    ∃ var handle, s.Binds var handle ∧
      s'.machine.env.handles = (var, handle) :: s.machine.env.handles ∧
      ∀ j st, s.Begins j st → Logged s'.machine.env.trace.toList st.id (.bound handle)
  ending : s'.machine.env.ending = s.machine.env.ending ∨ ∃ result, s.Ends .program result

variable {s s' : Snapshot}

theorem Notes.ofWrites (h : Writes s.Entry s.machine s'.machine)
    (hd : ∀ j st, s.Begins j st → st.declares? = none) : Notes s s' :=
  ⟨h.trace, .inl ⟨hd, h.handles⟩, .inl h.ending⟩

theorem Notes.ofEnv (h : s'.machine.env = s.machine.env)
    (hd : ∀ j st, s.Begins j st → st.declares? = none) : Notes s s' := .ofWrites (.ofEnv h) hd

/-- An entry of the trace is an old one, or one that the step leaves. -/
theorem Notes.of_mem_trace (h : Notes s s') {e : TraceEntry}
    (he : e ∈ s'.machine.env.trace.toList) :
    e ∈ s.machine.env.trace.toList ∨ s.Entry e := by
  obtain ⟨new, htrace, hnew⟩ := h.trace
  rw [htrace] at he
  exact (List.mem_append.1 he).imp_right (hnew e)

theorem Notes.logged (h : Notes s s') {id : StatementId} {mark : Mark}
    (hl : Logged s.machine.env.trace.toList id mark) : Logged s'.machine.env.trace.toList id mark := by
  obtain ⟨new, htrace, -⟩ := h.trace
  exact hl.mono ⟨new, htrace.symm⟩

theorem Entry.begins {time : Nat} (h : s.Entry ⟨id, .began, time⟩) :
    ∃ j st, st.id = id ∧ s.Begins j st := by
  generalize hmark : Mark.began = mark at h
  cases h with
  | began hbegins => exact ⟨_, _, rfl, hbegins⟩
  | acted _ hnoted =>
    subst hmark
    nomatch hnoted
  | _ => cases hmark

theorem Entry.ends {time : Nat} (h : s.Entry ⟨id, .ended, time⟩) : s.Ends (.leave id) (.ok ()) := by
  generalize hmark : Mark.ended = mark at h
  cases h with
  | ended hends => exact hends
  | acted _ hnoted =>
    subst hmark
    nomatch hnoted
  | _ => cases hmark

section Code

variable {seat : SeatId} {ticket : Ticket} {frames frames' : List ProgramFrame}
  {result result' : Completion}

theorem notes_leaf {j : JobId} {id : StatementId} {action : Action} {body : List Statement}
    {outer : List ProgramFrame} {s' : Snapshot}
    (henv : s'.machine.env =
      (performAction ticket j id action (record id .began m)).2.env) :
    Notes ⟨m, .running seat ticket (.rest j (.leaf id action :: body) :: outer) (.ok ())⟩ s' := by
  have hbegins : Begins
      ⟨m, .running seat ticket (.rest j (.leaf id action :: body) :: outer) (.ok ())⟩ j
      (.leaf id action) := ⟨seat, ticket, body, outer, rfl⟩
  have hacts := notes_performAction ticket j id action (record id .began m)
  obtain ⟨new, he, hnew⟩ := hacts.trace
  refine ⟨⟨⟨id, .began, m.now⟩ :: new, ?_, fun e hmem => ?_⟩, ?_, .inl ?_⟩
  · rw [henv, he]
    simp [record, Machine.updateEnv]
  · rcases List.mem_cons.1 hmem with rfl | hmem
    · exact .began hbegins
    · obtain ⟨rfl, hnoted⟩ := hnew e hmem
      exact .acted hbegins hnoted.of_began
  · rcases hacts.handles with ⟨hdecl, hsame⟩ | ⟨var, rfl, hh, hlogged⟩
    · refine .inl ⟨fun k st hb => ?_, by rw [henv, hsame]; rfl⟩
      obtain ⟨_, _, _, _, hf⟩ := hb
      cases hf
      exact hdecl
    · refine .inr ⟨var, _, .bare hbegins, by rw [henv, hh]; rfl, fun k st hb => ?_⟩
      obtain ⟨_, _, _, _, hf⟩ := hb
      cases hf
      rw [henv]
      exact hlogged
  · rw [henv, hacts.ending]
    rfl

theorem notes_enter {j : JobId} {id : StatementId} {head : Head} {inner body : List Statement}
    {outer : List ProgramFrame} {f : Focus} :
    Notes ⟨m, .running seat ticket (.rest j (.block id head inner :: body) :: outer) (.ok ())⟩
      ⟨(enter j id head inner (record id .began m)).2, f⟩ := by
  have hbegins : Begins
      ⟨m, .running seat ticket (.rest j (.block id head inner :: body) :: outer) (.ok ())⟩ j
      (.block id head inner) := ⟨seat, ticket, body, outer, rfl⟩
  have hbegan : Writes
      (Entry ⟨m, .running seat ticket (.rest j (.block id head inner :: body) :: outer) (.ok ())⟩) m
      (record id .began m) := writes_record fun _ => .began hbegins
  have hbind : ∀ {var handle},
      Binds ⟨m, .running seat ticket (.rest j (.block id head inner :: body) :: outer) (.ok ())⟩
        var handle →
      Notes ⟨m, .running seat ticket (.rest j (.block id head inner :: body) :: outer) (.ok ())⟩
        ⟨Interpreter.bind id var handle (launch j inner (record id .began m)).2, f⟩ := by
    intro var handle hb
    have htrace : (Interpreter.bind id var handle (launch j inner (record id .began m)).2).env.trace.toList =
        m.env.trace.toList ++ [⟨id, .began, m.now⟩, ⟨id, .bound handle, m.now⟩] := by
      rw [trace_bind]
      simp [launch, Machine.spawn, Machine.child, Machine.newJob, Machine.newSignal,
        Machine.updateJob, record, Machine.updateEnv, Machine.now]
    refine ⟨⟨_, htrace, fun e hmem => ?_⟩, .inr ⟨var, handle, hb, rfl, fun k st hk => ?_⟩, .inl rfl⟩
    · simp only [List.mem_cons, List.not_mem_nil, or_false] at hmem
      rcases hmem with rfl | rfl
      · exact .began hbegins
      · exact .bound hbegins hb
    · obtain ⟨_, _, _, _, hf⟩ := hk
      cases hf
      exact ⟨⟨id, .bound handle, m.now⟩, htrace ▸ by simp, rfl, rfl⟩
  have honly : head.declares? = none → ∀ k st,
      Begins ⟨m, .running seat ticket (.rest j (.block id head inner :: body) :: outer) (.ok ())⟩ k st →
      st.declares? = none := by
    rintro hd k st ⟨_, _, _, _, hf⟩
    cases hf
    exact hd
  cases head with
  | launch => exact .ofWrites (hbegan.trans (.ofEnv rfl)) (honly rfl)
  | scopeLaunch => exact .ofWrites (hbegan.trans (.ofEnv rfl)) (honly rfl)
  | launchJob var => exact hbind (.task hbegins)
  | async var text => exact hbind (.deferred hbegins)
  | coroutineScope => exact .ofWrites (hbegan.trans (.ofEnv rfl)) (honly rfl)
  | supervisorScope => exact .ofWrites (hbegan.trans (.ofEnv rfl)) (honly rfl)
  | tryCatch kind => exact .ofWrites (hbegan.trans (.ofEnv rfl)) (honly rfl)

theorem env_settle (m : ProgramMachine) (j : JobId) : (m.settle j).2.env = m.env := by
  unfold Machine.settle
  split
  · rfl
  · next job _ =>
    have hfire := Machine.env_fire ((m.updateJob j ({ · with
      outcome := some job.finalOutcome
      failureReported := job.failureReported || job.failure.isSome })).passOnFailure job) job.completion
    rw [(Machine.sameBonds_passOnFailure _ job).env] at hfire
    cases hp : job.parent with
    | none => exact hfire
    | some p => exact (Machine.env_unlink ..).trans hfire

theorem env_close (m : ProgramMachine) (ticket : Ticket) (j : JobId) (result : Completion) :
    (Interpreter.close ticket j result m).2.env = m.env := by
  have hconclude : ((m.conclude j result).awaitChildren ticket j).2.env = m.env :=
    (Machine.sameBonds_conclude m j result).env
  unfold Interpreter.close Reached.afterClose Machine.close
  split
  · next outcome m' he =>
    dsimp only at he
    split at he
    · obtain rfl := (Prod.mk.inj he).2
      exact (env_settle _ j).trans hconclude
    · cases (Prod.mk.inj he).1
  · next m' he =>
    dsimp only at he
    split at he
    · cases (Prod.mk.inj he).1
    · obtain rfl := (Prod.mk.inj he).2
      exact hconclude

theorem env_resumption (m : ProgramMachine) (ticket : Ticket) (on : Suspension) :
    (m.resumption ticket on).2.env = m.env := by
  unfold Machine.resumption
  cases on with
  | wait j k w =>
    dsimp only
    split <;> rfl
  | _ => rfl

theorem notes_code (hs : Thread.Step ticket ⟨frames, result, m⟩ ⟨frames', result', m'⟩) :
    Notes ⟨m, .running seat ticket frames result⟩ ⟨m', .running seat ticket frames' result'⟩ := by
  cases hs with
  | pass _ => exact .ofEnv rfl fun _ _ ⟨_, _, _, _, hf⟩ => nomatch hf
  | bodyEnd => exact .ofEnv rfl fun _ _ ⟨_, _, _, _, hf⟩ => nomatch hf
  | act he => exact notes_leaf (by rw [he])
  | enter => exact notes_enter
  | leave => 
    exact .ofWrites (writes_record fun _ => .ended ⟨_, _, _, rfl⟩)
      fun _ _ ⟨_, _, _, _, hf⟩ => nomatch hf
  | @catching id kind outer _ _ _ _ he =>
    have hends : Ends ⟨m, .running seat ticket (.catching id kind :: frames') result⟩
        (.catching id kind) result := ⟨_, _, _, rfl⟩
    have hw := @writes_catchException _ m id kind result fun _ => Entry.caught hends
    rw [he] at hw
    exact .ofWrites hw fun _ _ ⟨_, _, _, _, hf⟩ => nomatch hf
  | @close j outer _ _ _ _ he =>
    have henv := env_close m ticket j result
    rw [he] at henv
    exact .ofEnv henv fun _ _ ⟨_, _, _, _, hf⟩ => nomatch hf
  | @settle j => exact .ofEnv (env_settle m j) fun _ _ ⟨_, _, _, _, hf⟩ => nomatch hf
  | @awaited id j text outer _ _ _ he =>
    have hends : Ends ⟨m, .running seat ticket (.awaited id j text :: frames') (.ok ())⟩
        (.awaited id j text) (.ok ()) := ⟨_, _, _, rfl⟩
    have hw := @writes_printResult _ m id j text (fun _ => Entry.awaited hends)
      fun _ => Entry.shown hends
    rw [he] at hw
    exact .ofWrites hw fun _ _ ⟨_, _, _, _, hf⟩ => nomatch hf
  | program =>
    have henv := (Machine.sameBonds_cancel m m.env.background).env
    refine ⟨⟨[], ?_, by simp⟩, .inl ⟨fun _ _ ⟨_, _, _, _, hf⟩ => (nomatch hf), ?_⟩,
      .inr ⟨_, _, _, _, rfl⟩⟩
    · simp [endProgram, Machine.updateEnv, henv]
    · simp [endProgram, Machine.updateEnv, henv]

end Code

theorem notes_step (h : s.Upheld t L) (hs : Step s s') : Notes s s' := by
  cases hs with
  | skip hr hout => exact .ofEnv rfl fun _ _ ⟨_, _, _, _, hf⟩ => nomatch hf
  | sleepOn hr hout hres =>
    obtain ⟨rfl, -⟩ := h.resumption_none hr hout hres
    exact .ofEnv rfl fun _ _ ⟨_, _, _, _, hf⟩ => nomatch hf
  | @goOn m id rest d ticket task result m' hr hout hres =>
    have henv := env_resumption { m with dispatcher := d } ticket task.on
    rw [hres] at henv
    exact .ofEnv henv fun _ _ ⟨_, _, _, _, hf⟩ => nomatch hf
  | code hs => exact notes_code hs
  | suspend hs =>
    cases hs with
    | act he => exact notes_leaf (by rw [he])
    | close he =>
      exact .ofEnv ((congrArg (fun r => r.2.env) he).symm.trans (env_close ..))
        fun _ _ ⟨_, _, _, _, hf⟩ => nomatch hf
  | finish => exact .ofEnv rfl fun _ _ ⟨_, _, _, _, hf⟩ => nomatch hf
  | tick hr hnext => exact .ofEnv rfl fun _ _ ⟨_, _, _, _, hf⟩ => nomatch hf

end Snapshot

end RacePuzzle
