import RacePuzzle.Proofs.Evaluation.Stack

/-! What the leaves of a program do to the machine: they make no job and settle none, and a wait
that they begin has a cause. -/
namespace RacePuzzle

open Interpreter

/-- What a handle stands for exists, and a bare signal is no job's completion. -/
def Known (m : ProgramMachine) : Referent → Prop
  | .task j | .deferred j _ => 2 ≤ j ∧ j < m.jobs.size
  | .bare s => s < m.signals.size ∧ ∀ j b, m.bond? j = some b → b.completion ≠ s

def HandlesKnown (m : ProgramMachine) : Prop :=
  ∀ p ∈ m.env.handles, Known m p.2

/-- A change of the machine in which no job is made and none settles. -/
structure Quiet (m m' : ProgramMachine) : Prop where
  sound : m'.Sound
  evolves : ∀ {allowed}, m.Evolves allowed m'
  bond : ∀ j, m'.bond? j = m.bond? j
  seats : m'.dispatcher.seats = m.dispatcher.seats
  trace : m.env.trace.toList <+: m'.env.trace.toList
  background : m'.env.background = m.env.background
  handles : HandlesKnown m'

theorem size_of_bond {m m' : ProgramMachine} (h : ∀ j, m'.bond? j = m.bond? j) :
    m'.jobs.size = m.jobs.size :=
  Machine.Rebound.size (g := fun _ b => b) fun k => by rw [h k, Option.map_id']

theorem Known.of_bond {m m' : ProgramMachine} (hb : ∀ j, m'.bond? j = m.bond? j)
    (hs : m.signals.size ≤ m'.signals.size) {handle : Referent} (h : Known m handle) :
    Known m' handle := by
  cases handle with
  | task j => exact ⟨h.1, size_of_bond hb ▸ h.2⟩
  | deferred j result => exact ⟨h.1, size_of_bond hb ▸ h.2⟩
  | bare s => exact ⟨Nat.lt_of_lt_of_le h.1 hs, fun j b hj => h.2 j b ((hb j).symm.trans hj)⟩

theorem Quiet.refl {m : ProgramMachine} (hm : m.Sound) (hh : HandlesKnown m) : Quiet m m :=
  ⟨hm, .refl m, fun _ => rfl, rfl, List.prefix_refl _, rfl, hh⟩

theorem Quiet.trans {m m' m'' : ProgramMachine} (h : Quiet m m') (h' : Quiet m' m'') :
    Quiet m m'' where
  sound := h'.sound
  evolves := h.evolves.trans h'.evolves
  bond j := (h'.bond j).trans (h.bond j)
  seats := h'.seats.trans h.seats
  trace := h.trace.trans h'.trace
  background := h'.background.trans h.background
  handles := h'.handles

theorem Quiet.ofMachine {m m' : ProgramMachine} (hh : HandlesKnown m) (hs : m'.Sound)
    (he : ∀ {allowed}, m.Evolves allowed m') (hb : ∀ j, m'.bond? j = m.bond? j)
    (hseats : m'.dispatcher.seats = m.dispatcher.seats) (henv : m'.env = m.env)
    (hsize : m.signals.size ≤ m'.signals.size) : Quiet m m' := by
  refine ⟨hs, he, hb, hseats, henv ▸ List.prefix_refl _, by rw [henv], fun p hp => ?_⟩
  rw [henv] at hp
  exact (hh p hp).of_bond hb hsize

theorem quiet_record {m : ProgramMachine} (hm : m.Sound) (hh : HandlesKnown m)
    (id : StatementId) (mark : Mark) : Quiet m (record id mark m) where
  sound := hm.updateEnv _
  evolves := Machine.evolves_updateEnv m _
  bond _ := rfl
  seats := rfl
  trace := by
    simp only [record, Machine.updateEnv, Array.toList_push]
    exact List.prefix_append _ _
  background := rfl
  handles := hh

theorem logged_record (m : ProgramMachine) (id : StatementId) (mark : Mark) :
    Logged (record id mark m).env.trace.toList id mark :=
  ⟨⟨id, mark, m.now⟩, by simp [record, Machine.updateEnv], rfl, rfl⟩

theorem quiet_print {m : ProgramMachine} (hm : m.Sound) (hh : HandlesKnown m) (id : StatementId)
    (value : String) : Quiet m (print id value m) := by
  unfold print
  split
  · exact quiet_record hm hh ..
  · exact .refl hm hh

theorem quiet_bind {m : ProgramMachine} (hm : m.Sound) (hh : HandlesKnown m) (id : StatementId)
    (var : String) {handle : Referent} (hk : Known m handle) : Quiet m (bind id var handle m) := by
  have hm' := hm.updateEnv fun env => { env with handles := (var, handle) :: env.handles }
  have hh' : HandlesKnown
      (m.updateEnv fun env => { env with handles := (var, handle) :: env.handles }) := by
    intro p hp
    rcases List.mem_cons.1 hp with rfl | hp
    · exact hk
    · exact hh p hp
  exact Quiet.trans ⟨hm', Machine.evolves_updateEnv m _, fun _ => rfl, rfl, List.prefix_refl _, rfl,
    hh'⟩ (quiet_record hm' hh' ..)

theorem quiet_endProgram {m : ProgramMachine} (hm : m.Sound) (hh : HandlesKnown m)
    (result : Completion) : Quiet m (endProgram result m) := by
  have hs := Machine.sameBonds_cancel m m.env.background
  have hc : Quiet m (m.cancel m.env.background) := .ofMachine hh (hm.cancel _)
    (Machine.evolves_cancel m _) hs.bond hs.seats hs.env (Nat.le_of_eq (by rw [hs.signals]))
  exact hc.trans ⟨hc.sound.updateEnv _, Machine.evolves_updateEnv _ _, fun _ => rfl, rfl,
    List.prefix_refl _, rfl, hc.handles⟩

theorem quiet_catchException {m m' : ProgramMachine} (hm : m.Sound) (hh : HandlesKnown m)
    {id : StatementId} {kind : ExceptionKind} {result result' : Completion}
    (h : catchException id kind result m = (.ended result', m')) : Quiet m m' := by
  unfold catchException at h
  split at h
  · obtain rfl : m = m' := congrArg Prod.snd h
    exact .refl hm hh
  · split at h
    · obtain rfl : print id handlerText m = m' := congrArg Prod.snd h
      exact quiet_print hm hh ..
    · obtain rfl : m = m' := congrArg Prod.snd h
      exact .refl hm hh

theorem quiet_printResult {m : ProgramMachine} (hm : m.Sound) (hh : HandlesKnown m)
    (id : StatementId) (j : JobId) (text : String) : Quiet m (printResult id j text m).2 := by
  have hr := quiet_record hm hh id (.awaited ((m.job? j).bind (·.outcome)))
  unfold printResult
  dsimp only
  split
  · exact hr.trans (quiet_print hr.sound hr.handles ..)
  · exact hr

def Referent.job? : Referent → Option JobId
  | .task j | .deferred j _ => some j
  | .bare _ => none

theorem mem_of_lookup {l : List (String × Referent)} {var : String} {handle : Referent}
    (h : l.lookup var = some handle) : (var, handle) ∈ l := by
  induction l with
  | nil => simp at h
  | cons p rest ih =>
    rw [List.lookup_cons] at h
    split at h
    · next he =>
      obtain rfl := Option.some.inj h
      have : var = p.1 := by simpa using he
      exact List.mem_cons.2 (.inl (by rw [this]))
    · exact List.mem_cons_of_mem _ (ih h)

/-- A handle that is bound is found, and it is the one if there is no other. -/
theorem lookup_of_mem {l : List (String × Referent)} {var : String} {handle : Referent}
    (h : (var, handle) ∈ l) (hone : ∀ other, (var, other) ∈ l → other = handle) :
    l.lookup var = some handle := by
  cases hl : l.lookup var with
  | none => exact absurd (List.lookup_eq_none_iff.1 hl _ h) (by simp)
  | some other => rw [hone other (mem_of_lookup hl)]

theorem known_of_lookup {m : ProgramMachine} (hh : HandlesKnown m) {var : String}
    {handle : Referent} (h : m.env.handles.lookup var = some handle) : Known m handle :=
  hh _ (mem_of_lookup h)

theorem Known.signal_lt {m : ProgramMachine} (hm : m.Sound) {handle : Referent}
    (h : Known m handle) {s : SignalId} (hs : signal? handle m = some s) : s < m.signals.size := by
  have hjob : ∀ {g}, (m.job? g).map (·.completion) = some s → s < m.signals.size := by
    intro g hg
    obtain ⟨job, hjob, rfl⟩ := Option.map_eq_some_iff.1 hg
    exact hm.tree.completions.lt (Machine.bond?_of_job? hjob)
  cases handle with
  | task g => exact hjob hs
  | deferred g result => exact hjob hs
  | bare σ =>
    obtain rfl := Option.some.inj hs
    exact h.1

theorem signal?_refer (handle : Referent) (id : StatementId) (var : String) (m : ProgramMachine) :
    signal? handle (refer id var m).2 = signal? handle m := by
  cases handle <;> rfl

/-- What an action does, by what the handle that it uses stands for. -/
inductive Performs (ticket : Ticket) (j : JobId) (id : StatementId) (m : ProgramMachine) :
    Action → ProgramReached → Prop
  | delay {time} :
      Performs ticket j id m (.delay time) (afterWait [] .done (m.beginDelay ticket j time))
  | print {text} : Performs ticket j id m (.print text) (.done (Interpreter.print id text m))
  | throwException {kind} :
      Performs ticket j id m (.throwException kind) (.ended (.error kind), m)
  | job {var} : Performs ticket j id m (.job var)
      (.done (Interpreter.bind id var (.bare m.signals.size) m.newSignal.2))
  | joinNothing {var} :
      (∀ handle, m.env.handles.lookup var = some handle → signal? handle m = none) →
      Performs ticket j id m (.join var) (.done (refer id var m).2)
  | join {var handle s} : m.env.handles.lookup var = some handle → signal? handle m = some s →
      Performs ticket j id m (.join var)
        (afterWait [] .done ((refer id var m).2.beginJoin ticket j s))
  | cancelNothing {var} : m.env.handles.lookup var = none →
      Performs ticket j id m (.cancel var) (.done (refer id var m).2)
  | cancel {var handle target} : m.env.handles.lookup var = some handle →
      handle.job? = some target →
      Performs ticket j id m (.cancel var) (.done ((refer id var m).2.cancel target))
  | cancelBare {var s} : m.env.handles.lookup var = some (.bare s) →
      Performs ticket j id m (.cancel var) (.done ((refer id var m).2.fire s))
  | completeNothing {var} : (∀ s, m.env.handles.lookup var ≠ some (.bare s)) →
      Performs ticket j id m (.completeJob var) (.done (refer id var m).2)
  | completeJob {var s} : m.env.handles.lookup var = some (.bare s) →
      Performs ticket j id m (.completeJob var) (.done ((refer id var m).2.fire s))
  | awaitNothing {var text target result} :
      m.env.handles.lookup var = some (.deferred target result) →
      signal? (.deferred target result) m = none →
      Performs ticket j id m (.printAwait var text) (.done (refer id var m).2)
  | await {var text target result s} :
      m.env.handles.lookup var = some (.deferred target result) →
      signal? (.deferred target result) m = some s →
      Performs ticket j id m (.printAwait var text)
        (afterWait [.awaited id target result] (printResult id target result)
          ((refer id var m).2.beginAwait ticket j s))
  | printText {var text} :
      (∀ target result, m.env.handles.lookup var ≠ some (.deferred target result)) →
      Performs ticket j id m (.printAwait var text)
        (.done (Interpreter.print id text (refer id var m).2))

theorem performs_performAction (ticket : Ticket) (j : JobId) (id : StatementId) (action : Action)
    (m : ProgramMachine) : Performs ticket j id m action (performAction ticket j id action m) := by
  cases action with
  | delay time => exact .delay
  | print text => exact .print
  | throwException kind => exact .throwException
  | job var => exact .job
  | join var =>
    unfold performAction
    dsimp only
    split
    · next hnone =>
      refine .joinNothing fun handle hl => ?_
      have hnone : (m.env.handles.lookup var).bind (signal? · (refer id var m).2) = none := hnone
      rwa [hl, Option.bind_some, signal?_refer] at hnone
    · next s hsome =>
      obtain ⟨handle, hl, hs⟩ := Option.bind_eq_some_iff.1 hsome
      exact .join hl ((signal?_refer ..).symm.trans hs)
  | cancel var =>
    unfold performAction
    dsimp only
    split
    · next hl => exact .cancelNothing hl
    · next target hl => exact .cancel hl rfl
    · next target result hl => exact .cancel hl rfl
    · next s hl => exact .cancelBare hl
  | completeJob var =>
    unfold performAction
    dsimp only
    split
    · next s hl => exact .completeJob hl
    · next hother => exact .completeNothing hother
  | printAwait var text =>
    unfold performAction
    dsimp only
    split
    · next target result hl =>
      split
      · next hnone => exact .awaitNothing hl hnone
      · next s hsome => exact .await hl hsome
    · next hother => exact .printText hother

/-- What a wait that could not go through at once leaves. -/
structure Suspended (t : Statement) (ticket : Ticket) (j : JobId) (id : StatementId)
    (on : Suspension) (inner : List ProgramFrame) (m m' : ProgramMachine) : Prop where
  quiet : Quiet m m'
  waits : m'.Waits ticket on
  wait : ∃ w, on = .wait j m.timetable.clock.nextSeq w ∧ Needs t m' w id inner
  seq : m.timetable.clock.nextSeq < m'.timetable.clock.nextSeq

inductive Acts (t : Statement) (ticket : Ticket) (j : JobId) (id : StatementId)
    (m : ProgramMachine) : ProgramReached → Prop
  | ended {result m'} : Quiet m m' → Acts t ticket j id m (.ended result, m')
  | suspended {on inner m'} : Suspended t ticket j id on inner m m' →
      Acts t ticket j id m (.suspended on inner, m')

variable {t : Statement} {ticket : Ticket} {j : JobId} {id : StatementId}

theorem Acts.after {m m' : ProgramMachine} {r : ProgramReached} (hq : Quiet m m')
    (hseq : m'.timetable.clock.nextSeq = m.timetable.clock.nextSeq) (h : Acts t ticket j id m' r) :
    Acts t ticket j id m r := by
  cases h with
  | ended h => exact .ended (hq.trans h)
  | suspended h =>
    obtain ⟨w, he, hn⟩ := h.wait
    exact .suspended ⟨hq.trans h.quiet, h.waits, ⟨w, by rw [he, hseq], hn⟩, hseq ▸ h.seq⟩

theorem Acts.ofBegun {m m' : ProgramMachine} (hh : HandlesKnown m) {on : Suspension}
    {inner : List ProgramFrame} (h : Machine.Begun ticket j on m m')
    (hn : Needs t m' m.timetable.waits.size id inner) :
    Acts t ticket j id m (.suspended on inner, m') :=
  .suspended ⟨.ofMachine hh h.sound h.evolves h.bond (by rw [h.dispatcher]) h.env
    (Nat.le_of_eq h.size.symm), h.waits, ⟨_, h.on_eq, hn⟩, by rw [h.seq]; exact Nat.lt_succ_self _⟩

theorem acts_delay {m : ProgramMachine} (hm : m.Sound) (hh : HandlesKnown m)
    (hj : j < m.jobs.size) {time : Nat} (hmem : .leaf id (.delay time) ∈ t.nodes) :
    Acts t ticket j id m (performAction ticket j id (.delay time) m) := by
  have hget : m.job? j = some m.jobs[j] := Array.getElem?_eq_getElem hj
  cases hc : m.isCancelled j with
  | true =>
    simp only [performAction, Machine.beginDelay, hc, if_true]
    exact .ended (.ofMachine hh (hm.wakeAll [ticket]) (Machine.evolves_wake m ticket) (fun _ => rfl)
      (Machine.seats_wake ..) rfl (Nat.le_refl _))
  | false =>
    have hopen := (Machine.isCancelled_eq hget).symm.trans hc
    obtain ⟨on, m', he, hb, hw⟩ := Machine.begun_delay hm hget hopen ticket time
    simp only [performAction, he]
    exact .ofBegun hh hb (.delay hmem hw)

theorem acts_signalWait {m : ProgramMachine} (hm : m.Sound) (hh : HandlesKnown m)
    (hj : j < m.jobs.size) {handle : Referent} (hk : Known m handle) {s : SignalId}
    (hs : signal? handle m = some s) (hc : m.isCancelled j = false) (hf : m.hasFired s = false)
    {inner : List ProgramFrame}
    (hn : ∀ {m' : ProgramMachine}, m'.env = m.env → signal? handle m' = some s →
      m'.Heeds m.timetable.waits.size (some s) → Needs t m' m.timetable.waits.size id inner) :
    Acts t ticket j id m (.suspended (m.beginSignalWait ticket j s).1 inner,
      (m.beginSignalWait ticket j s).2) := by
  have hget : m.job? j = some m.jobs[j] := Array.getElem?_eq_getElem hj
  have hopen := (Machine.isCancelled_eq hget).symm.trans hc
  obtain ⟨hb, hw⟩ := Machine.begun_signalWait hm hget hopen (hk.signal_lt hm hs) hf ticket
  refine .ofBegun hh hb (hn hb.env ?_ hw)
  have hbond := hb.bond
  generalize (m.beginSignalWait ticket j s).2 = m' at hbond
  have hjob : ∀ g, (m'.job? g).map (·.completion) = (m.job? g).map (·.completion) := by
    intro g
    have := congrArg (Option.map Bond.completion) (hbond g)
    simpa [Machine.bond?, Option.map_map, Function.comp_def, Job.bond] using this
  cases handle with
  | task g => exact (hjob g).trans hs
  | deferred g result => exact (hjob g).trans hs
  | bare σ => exact hs

/-- The same, unless the job is cancelled or the signal has fired; in that case the action goes on with `k`. -/
theorem acts_beginJoin {m : ProgramMachine} (hm : m.Sound) (hh : HandlesKnown m)
    (hj : j < m.jobs.size) {handle : Referent} (hk : Known m handle) {s : SignalId}
    (hs : signal? handle m = some s) {inner : List ProgramFrame} {k : ProgramMachine → ProgramReached}
    (hthrough : Acts t ticket j id m (k m))
    (hn : ∀ {m' : ProgramMachine}, m'.env = m.env → signal? handle m' = some s →
      m'.Heeds m.timetable.waits.size (some s) → Needs t m' m.timetable.waits.size id inner) :
    Acts t ticket j id m (afterWait inner k (m.beginJoin ticket j s)) := by
  unfold Machine.beginJoin
  split
  · exact .ended (.refl hm hh)
  · next hc =>
    split
    · exact hthrough
    · next hf => exact acts_signalWait hm hh hj hk hs (by simpa using hc) (by simpa using hf) hn

/-- An action that needs the signal of a handle goes on where the handle has been looked up. -/
theorem acts_referred {m : ProgramMachine} (hm : m.Sound) (hh : HandlesKnown m)
    (hj : j < m.jobs.size) {var : String} {handle : Referent}
    (hl : m.env.handles.lookup var = some handle) {s : SignalId} (hs : signal? handle m = some s)
    {k : ProgramMachine → ProgramReached}
    (h : ∀ {m₁ : ProgramMachine}, m₁.Sound → HandlesKnown m₁ → j < m₁.jobs.size →
      Logged m₁.env.trace.toList id (.referred (some handle)) → Known m₁ handle →
      signal? handle m₁ = some s → Acts t ticket j id m₁ (k m₁)) :
    Acts t ticket j id m (k (refer id var m).2) := by
  have hr : Quiet m (refer id var m).2 := quiet_record hm hh id _
  have hlog : Logged (refer id var m).2.env.trace.toList id (.referred (some handle)) :=
    hl ▸ logged_record m id (.referred (m.env.handles.lookup var))
  exact .after hr rfl (h hr.sound hr.handles (size_of_bond hr.bond ▸ hj) hlog
    (known_of_lookup hr.handles hl) ((signal?_refer handle id var m).trans hs))

theorem acts_join {m : ProgramMachine} (hm : m.Sound) (hh : HandlesKnown m) (hj : j < m.jobs.size)
    {var : String} (hmem : .leaf id (.join var) ∈ t.nodes) {handle : Referent}
    (hl : m.env.handles.lookup var = some handle) {s : SignalId}
    (hs : signal? handle m = some s) :
    Acts t ticket j id m (afterWait [] .done ((refer id var m).2.beginJoin ticket j s)) := by
  refine acts_referred (k := fun m => afterWait [] .done (m.beginJoin ticket j s)) hm hh hj hl hs
    fun hm hh hj hlog hk hs => ?_
  exact acts_beginJoin hm hh hj hk hs (.ended (.refl hm hh))
    fun henv hs' hw => .join hmem (henv ▸ hlog) hs' hw

theorem acts_printResult {m : ProgramMachine} (hm : m.Sound) (hh : HandlesKnown m) (target : JobId)
    (text : String) : Acts t ticket j id m (printResult id target text m) := by
  have hprint := quiet_printResult hm hh id target text
  obtain ⟨result, m', h⟩ : ∃ result m', printResult id target text m = (.ended result, m') := by
    unfold printResult
    dsimp only
    split
    · exact ⟨_, _, rfl⟩
    · exact ⟨_, _, rfl⟩
  rw [h] at hprint ⊢
  exact .ended hprint

theorem acts_await {m : ProgramMachine} (hm : m.Sound) (hh : HandlesKnown m)
    (hj : j < m.jobs.size) {var text : String} (hmem : .leaf id (.printAwait var text) ∈ t.nodes)
    {target : JobId} {result : String}
    (hl : m.env.handles.lookup var = some (.deferred target result)) {s : SignalId}
    (hs : signal? (.deferred target result) m = some s) :
    Acts t ticket j id m (afterWait [.awaited id target result] (printResult id target result)
      ((refer id var m).2.beginAwait ticket j s)) := by
  refine acts_referred (k := fun m => afterWait [.awaited id target result] (printResult id target result)
    (m.beginAwait ticket j s)) hm hh hj hl hs fun {m₁} hm hh hj hlog hk hs => ?_
  have hprint : Acts t ticket j id m₁ (printResult id target result m₁) :=
    acts_printResult hm hh target result
  unfold Machine.beginAwait
  split
  · exact hprint
  · exact acts_beginJoin hm hh hj hk hs hprint fun henv hs' hw => .await hmem (henv ▸ hlog) hs' hw

theorem quiet_cancel {m : ProgramMachine} (hm : m.Sound) (hh : HandlesKnown m) (target : JobId) :
    Quiet m (m.cancel target) :=
  have hs := Machine.sameBonds_cancel m target
  .ofMachine hh (hm.cancel target) (Machine.evolves_cancel m target) hs.bond hs.seats hs.env
    (Nat.le_of_eq (by rw [hs.signals]))

theorem quiet_fire {m : ProgramMachine} (hm : m.Sound) (hh : HandlesKnown m) {s : SignalId}
    (hk : Known m (.bare s)) : Quiet m (m.fire s) :=
  .ofMachine hh (hm.fire hk.1 (hk.2 _ _)) (Machine.evolves_fire m s) (Machine.bond?_fire m s)
    (Machine.seats_fire m s) (Machine.env_fire m s) (Nat.le_of_eq (Machine.signals_fire_size m s).symm)

theorem acts_performAction {m : ProgramMachine} (hm : m.Sound) (hh : HandlesKnown m)
    (hj : j < m.jobs.size) {action : Action} (hmem : .leaf id action ∈ t.nodes) :
    Acts t ticket j id m (performAction ticket j id action m) := by
  have hr : ∀ var, Quiet m (refer id var m).2 := fun var => quiet_record hm hh id _
  have hfire : ∀ {var s}, m.env.handles.lookup var = some (.bare s) →
      Quiet m ((refer id var m).2.fire s) := fun {var s} hl =>
    (hr var).trans (quiet_fire (hr var).sound (hr var).handles (known_of_lookup (hr var).handles hl))
  have hperforms := performs_performAction ticket j id action m
  generalize performAction ticket j id action m = r at hperforms ⊢
  cases hperforms with
  | delay => exact acts_delay hm hh hj hmem
  | print => exact .ended (quiet_print hm hh ..)
  | throwException => exact .ended (.refl hm hh)
  | @job var =>
    have hs := hm.newSignal
    have hq : Quiet m m.newSignal.2 := .ofMachine hh hs (Machine.evolves_newSignal m)
      (fun _ => rfl) rfl rfl (by simp [Machine.newSignal])
    refine .ended (hq.trans (quiet_bind hs hq.handles id var ⟨?_, fun g b hg => ?_⟩))
    · simp [Machine.newSignal]
    · exact Nat.ne_of_lt (hm.tree.completions.lt hg)
  | joinNothing _ | cancelNothing _ | completeNothing _ | awaitNothing _ _ => exact .ended (hr _)
  | join hl hs => exact acts_join hm hh hj hmem hl hs
  | cancel _ _ => exact .ended ((hr _).trans (quiet_cancel (hr _).sound (hr _).handles _))
  | cancelBare hl | completeJob hl => exact .ended (hfire hl)
  | await hl hs => exact acts_await hm hh hj hmem hl hs
  | printText _ => exact .ended ((hr _).trans (quiet_print (hr _).sound (hr _).handles ..))

end RacePuzzle
