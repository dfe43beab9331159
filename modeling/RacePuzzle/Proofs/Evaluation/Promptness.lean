import RacePuzzle.Proofs.Evaluation.Sparing
import RacePuzzle.Proofs.Evaluation.Timekeeping
import RacePuzzle.Proofs.Evaluation.Wakeups
import Mathlib.Data.List.Chain

/-! Tasks on time. A statement that waits for no job ends a known time after it began, and what follows it
begins when it has ended, whatever other tasks do in between: only the clock makes a delay go on, and it
does so when the delay is over. -/
namespace RacePuzzle

open Interpreter

/-- How long a statement takes that waits for nothing but the time. -/
def Statement.lasts? : Statement → Option Nat
  | .leaf _ (.delay time) => some time
  | .leaf _ (.print _) | .leaf _ (.job _) | .leaf _ (.completeJob _) | .leaf _ (.cancel _) => some 0
  | .block _ .launch _ | .block _ .scopeLaunch _ => some 0
  | .block _ (.launchJob _) _ | .block _ (.async ..) _ => some 0
  | _ => none

variable {t : Statement} {L L' : Ledger} {m m' : ProgramMachine} {s s' : Snapshot}
  {tr tr' : List TraceEntry} {now : Nat} {frame frame' : ProgramFrame}
  {frames frames' outer : List ProgramFrame} {seat : SeatId} {ticket : Ticket}
  {result result' : Completion} {j : JobId} {id : StatementId} {action : Action} {head : Head}
  {body inner : List Statement}

def Comes (t : Statement) (tr : List TraceEntry) (now : Nat) (body : List Statement) : Prop :=
  ∃ owner before, t.Placed owner before body ∧ Arrives tr before now

def Lasted (t : Statement) (tr : List TraceEntry) (id : StatementId) (now : Nat) : Prop :=
  ∃ st ∈ t.nodes, st.id = id ∧ ∀ d, st.lasts? = some d →
    ∃ begun, ⟨id, .began, begun⟩ ∈ tr ∧ now = begun + d

theorem Comes.mono (htr : tr <+: tr') (h : Comes t tr now body) : Comes t tr' now body := by
  obtain ⟨owner, before, hplace, harrives⟩ := h
  exact ⟨owner, before, hplace, harrives.mono htr⟩

theorem Lasted.mono (htr : tr <+: tr') (h : Lasted t tr id now) : Lasted t tr' id now := by
  obtain ⟨st, hst, hid, hlasts⟩ := h
  refine ⟨st, hst, hid, fun d hd => ?_⟩
  obtain ⟨begun, hbegun, hnow⟩ := hlasts d hd
  exact ⟨begun, htr.subset hbegun, hnow⟩

/-- A statement that waits for more than the time takes as long as it likes. -/
theorem Lasted.ofSlow {st : Statement} (hst : st ∈ t.nodes) (hid : st.id = id)
    (hslow : st.lasts? = none) : Lasted t tr id now :=
  ⟨st, hst, hid, fun _ hd => nomatch hslow.symm.trans hd⟩

theorem Comes.inside (h : Comes t tr now (.block id head inner :: body)) : Comes t tr now inner := by
  obtain ⟨owner, before, hplace, harrives⟩ := h
  exact ⟨_, before, hplace.inside, harrives⟩

theorem Comes.head_mem_nodes {st : Statement} (h : Comes t tr now (st :: body)) : st ∈ t.nodes := by
  obtain ⟨owner, before, hplace, -⟩ := h
  exact hplace.head_mem_nodes

/-- What the innermost frame goes on with is on time. -/
def Prompt (t : Statement) (tr : List TraceEntry) (now : Nat) : List ProgramFrame → Prop
  | .rest _ body :: _ => Comes t tr now body
  | .leave id :: _ => Lasted t tr id now
  | _ => True

theorem Prompt.mono (htr : tr <+: tr') (h : Prompt t tr now frames) : Prompt t tr' now frames := by
  unfold Prompt at h ⊢
  split
  · exact Comes.mono htr h
  · exact Lasted.mono htr h
  · trivial

/-- Which frames stand around which: frames that end a wait or a block stand in a statement that does not
take its own time, and the rest of a body stands around the end of its first statement. -/
structure Encloses (t : Statement) (frame outer : ProgramFrame) : Prop where
  leave : ∀ id, outer = .leave id → ∃ st ∈ t.nodes, st.id = id ∧ st.lasts? = none
  rest : ∀ j body, outer = .rest j body → ∃ id, frame = .leave id

/-- The frames of a task, each around the one before it. -/
abbrev Nested (t : Statement) (frames : List ProgramFrame) : Prop := frames.IsChain (Encloses t)

theorem encloses_close (frame : ProgramFrame) (j : JobId) : Encloses t frame (.close j) := ⟨nofun, nofun⟩

theorem encloses_catching (frame : ProgramFrame) (id : StatementId) (kind : ExceptionKind) :
    Encloses t frame (.catching id kind) := ⟨nofun, nofun⟩

theorem encloses_rest (id : StatementId) (j : JobId) (body : List Statement) :
    Encloses t (.leave id) (.rest j body) := ⟨nofun, fun _ _ _ => ⟨id, rfl⟩⟩

theorem encloses_leave {st : Statement} (hst : st ∈ t.nodes) (hslow : st.lasts? = none)
    (frame : ProgramFrame) : Encloses t frame (.leave st.id) :=
  ⟨fun _ he => ⟨st, hst, ProgramFrame.leave.inj he, hslow⟩, nofun⟩

/-- Another frame in the place of one that ends no statement. -/
theorem Nested.replace (h : Nested t (frame :: outer)) (hframe : ∀ id, frame ≠ .leave id)
    (frame' : ProgramFrame) : Nested t (frame' :: outer) := by
  obtain ⟨hhead, htail⟩ := List.isChain_cons.1 h
  refine List.isChain_cons.2 ⟨fun outer hmem => ?_, htail⟩
  obtain ⟨hleave, hrest⟩ := hhead outer hmem
  refine ⟨hleave, fun j body he => ?_⟩
  obtain ⟨id, he⟩ := hrest j body he
  exact absurd he (hframe id)

/-- A frame that ends no statement gives way to frames that are on time at any time. -/
theorem Nested.prompt (h : Nested t (frame :: outer)) (hframe : ∀ id, frame ≠ .leave id) :
    Prompt t tr now outer := by
  match outer, h with
  | [], _ => trivial
  | next :: _, h =>
    obtain ⟨hleave, hrest⟩ := (List.isChain_cons_cons.1 h).1
    cases next with
    | rest j body =>
      obtain ⟨id, he⟩ := hrest j body rfl
      exact absurd he (hframe id)
    | leave id =>
      obtain ⟨st, hst, hid, hslow⟩ := hleave id rfl
      exact .ofSlow hst hid hslow
    | _ => trivial

theorem Nested.begin {st : Statement} (h : Nested t (.rest j (st :: body) :: outer)) :
    Nested t (.leave st.id :: .rest j body :: outer) :=
  List.isChain_cons_cons.2 ⟨encloses_rest .., h.replace (by simp) _⟩

theorem nested_task (j : JobId) (inner : List Statement) : Nested t [.rest j inner, .close j] :=
  List.isChain_pair.2 (encloses_close ..)

/-- A suspended task is on time when it goes on: one that enters goes on now, and one in a statement that
takes its own time when that is over. -/
structure Sits (t : Statement) (m : ProgramMachine) (task : Task ProgramFrame) : Prop where
  nested : Nested t task.frames
  entry : ∀ {j}, task.on = .entry j → Prompt t m.env.trace.toList m.now task.frames
  wait : ∀ {j k w id outer}, task.on = .wait j k w → task.frames = .leave id :: outer →
    ∃ st ∈ t.nodes, st.id = id ∧ ∀ d, st.lasts? = some d →
      ∃ begun, ⟨id, .began, begun⟩ ∈ m.env.trace.toList ∧ m.Due w (begun + d)

theorem Sits.later {task : Task ProgramFrame} (h : Sits t m task)
    (htr : m.env.trace.toList <+: m'.env.trace.toList) (hnow : m'.now = m.now)
    (hspares : Machine.Spares m m') : Sits t m' task := by
  refine ⟨h.nested, fun hon => hnow.symm ▸ (h.entry hon).mono htr, fun hon hframes => ?_⟩
  obtain ⟨st, hst, hid, hlasts⟩ := h.wait hon hframes
  refine ⟨st, hst, hid, fun d hd => ?_⟩
  obtain ⟨begun, hbegun, hdue⟩ := hlasts d hd
  exact ⟨begun, htr.subset hbegun, hspares.due hdue⟩

theorem Sits.lasted {task : Task ProgramFrame} (h : Sits t m task) {j : JobId} {k : Nat} {w : WaitId}
    (hon : task.on = .wait j k w) (hframes : task.frames = .leave id :: outer)
    (hdone : m.timetable.waits[w]? = some .done) : Lasted t m.env.trace.toList id m.now := by
  obtain ⟨st, hst, hid, hlasts⟩ := h.wait hon hframes
  refine ⟨st, hst, hid, fun d hd => ?_⟩
  obtain ⟨begun, hbegun, hdue⟩ := hlasts d hd
  exact ⟨begun, hbegun, hdue.done hdone⟩

/-- A task goes on when what it waits for is over. -/
theorem Sits.prompt {task : Task ProgramFrame} (h : Sits t m task) (hrests : Rests t L m task.on task.frames)
    {d : Dispatcher (Task ProgramFrame)} {r : Except Interruption Unit}
    (hres : ({ m with dispatcher := d } : ProgramMachine).resumption ticket task.on = (some r, m'))
    (hok : Suspension.handed r = .ok ()) : Prompt t m.env.trace.toList m.now task.frames := by
  obtain ⟨on, frames⟩ := task
  cases hrests with
  | entry _ _ => exact h.entry rfl
  | children _ => trivial
  | wait hruns hneeds =>
    have hdone := done_of_resumption hres hok
    cases hneeds with
    | delay _ _ | join _ _ _ _ => exact h.lasted rfl rfl hdone
    | await _ _ _ _ => trivial

/-- All that has begun and ended did so on time, and so will the tasks that go on. -/
structure Snapshot.InTime (t : Statement) (s : Snapshot) : Prop where
  begun : ∀ {id time}, ⟨id, .began, time⟩ ∈ s.machine.env.trace.toList →
    ∃ st body, st.id = id ∧ Comes t s.machine.env.trace.toList time (st :: body)
  ended : ∀ {id time}, ⟨id, .ended, time⟩ ∈ s.machine.env.trace.toList →
    Lasted t s.machine.env.trace.toList id time
  running : ∀ {seat ticket frames result}, s.focus = .running seat ticket frames result →
    Nested t frames ∧ (result = .ok () → Prompt t s.machine.env.trace.toList s.machine.now frames)
  seated : ∀ {i task}, s.machine.dispatcher.task? i = some task → Sits t s.machine task

namespace Snapshot

/-- A step on which the clock stands still: the task that is polled is on time after it, and so is every
task that is new in its seat. -/
theorem InTime.onward (hp : s.InTime t) (h : s.Upheld t L) (hs : Step s s')
    (hticks : ¬ Ticks s s')
    (hrunning : ∀ {seat ticket frames result}, s'.focus = .running seat ticket frames result →
      Nested t frames ∧
        (result = .ok () → Prompt t s'.machine.env.trace.toList s'.machine.now frames))
    (hseated : ∀ {i task}, s'.machine.dispatcher.task? i = some task →
      s.machine.dispatcher.task? i = some task ∨ Sits t s'.machine task) : s'.InTime t := by
  obtain ⟨hnow, ⟨new, htrace, htimes⟩, -⟩ := (stamps_step h hs).resolve_right fun hboth => hticks hboth.1
  have hspares := (spares_step h hs).resolve_right hticks
  have htr : s.machine.env.trace.toList <+: s'.machine.env.trace.toList := ⟨new, htrace.symm⟩
  have hentry : ∀ {e}, e ∈ s'.machine.env.trace.toList → e ∈ s.machine.env.trace.toList ∨
      s.Entry e ∧ e.time = s.machine.now := fun {e} he => by
    rcases (notes_step h hs).of_mem_trace he with hold | hentry
    · exact .inl hold
    · rw [htrace] at he
      exact (List.mem_append.1 he).imp_right fun hnew => ⟨hentry, (htimes e hnew).1⟩
  refine ⟨fun {id time} he => ?_, fun {id time} he => ?_, hrunning, fun hi => ?_⟩
  · rcases hentry he with hold | ⟨hentry, rfl⟩
    · obtain ⟨st, body, hid, hcomes⟩ := hp.begun hold
      exact ⟨st, body, hid, hcomes.mono htr⟩
    · obtain ⟨j, st, rfl, _, _, body, _, hf⟩ := hentry.begins
      exact ⟨st, body, rfl, Comes.mono htr ((hp.running hf).2 rfl)⟩
  · rcases hentry he with hold | ⟨hentry, rfl⟩
    · exact (hp.ended hold).mono htr
    · obtain ⟨_, _, _, hf⟩ := hentry.ends
      exact Lasted.mono htr ((hp.running hf).2 rfl)
  · exact (hseated hi).elim (fun hold => (hp.seated hold).later htr hnow hspares) id

/-- How a delay begins: the job is cancelled and the delay is refused, or its time goes by. -/
theorem delay_cases (hm : m.Sound) (hj : j < m.jobs.size) (ticket : Ticket) (id : StatementId)
    (time : Nat) :
    (∃ kind m', performAction ticket j id (.delay time) m = (.ended (.error kind), m')) ∨
    ∃ k m', performAction ticket j id (.delay time) m =
        (.suspended (.wait j k m.timetable.waits.size) [], m') ∧
      (m.now + time ≤ Machine.maxTime → m'.Due m.timetable.waits.size (m.now + time)) := by
  have hget : m.job? j = some m.jobs[j] := Array.getElem?_eq_getElem hj
  cases hc : m.isCancelled j with
  | true =>
    refine .inl ⟨.cancellation, m.wake ticket, ?_⟩
    simp only [performAction, Machine.beginDelay, hc, if_true]
    rfl
  | false =>
    obtain ⟨m', hbegin, hdelay⟩ :=
      Machine.delayBegun_beginDelay hm.orderly hc ticket time
    obtain ⟨on, m₁, hbegin₁, -, hheeds⟩ :=
      Machine.begun_delay hm hget ((Machine.isCancelled_eq hget).symm.trans hc) ticket time
    obtain rfl : m' = m₁ := (Prod.mk.inj (hbegin.symm.trans hbegin₁)).2
    refine .inr ⟨m.timetable.clock.nextSeq, m', ?_, hdelay.due hm.orderly hheeds⟩
    simp only [performAction, hbegin]
    rfl

/-- A leaf that takes its own time and ends at once takes no time, and one that is suspended goes on when
its time is over. -/
theorem lasts_performAction (hm : m.Sound) (hj : j < m.jobs.size) {d : Nat}
    (hmax : ∀ time, action = .delay time → m.now + time ≤ Machine.maxTime)
    (hd : (Statement.leaf id action).lasts? = some d) {progress : Progress ProgramFrame}
    (he : performAction ticket j id action m = (progress, m')) :
    (progress = .ended (.ok ()) → d = 0) ∧
      ∀ {i k w left}, progress = .suspended (.wait i k w) left → m'.Due w (m.now + d) := by
  have hdone : ∀ {m₁ : ProgramMachine}, d = 0 → Reached.done m₁ = (progress, m') →
      (progress = .ended (.ok ()) → d = 0) ∧
        ∀ {i k w left}, progress = .suspended (.wait i k w) left → m'.Due w (m.now + d) := by
    intro m₁ hzero he
    obtain ⟨rfl, rfl⟩ := Prod.mk.inj he
    exact ⟨fun _ => hzero, nofun⟩
  cases action with
  | delay time =>
    obtain rfl : time = d := Option.some.inj hd
    rcases delay_cases hm hj ticket id time with ⟨kind, m₁, hperform⟩ | ⟨k, m₁, hperform, hdue⟩
    · obtain ⟨rfl, rfl⟩ := Prod.mk.inj (hperform.symm.trans he)
      exact ⟨nofun, nofun⟩
    · obtain ⟨rfl, rfl⟩ := Prod.mk.inj (hperform.symm.trans he)
      refine ⟨nofun, fun hsus => ?_⟩
      obtain ⟨hon, -⟩ := Progress.suspended.inj hsus
      cases hon
      exact hdue (hmax time rfl)
  | print | job => exact hdone (Option.some.inj hd).symm he
  | cancel | completeJob =>
    have hzero : d = 0 := (Option.some.inj hd).symm
    unfold performAction at he
    dsimp only at he
    split at he <;> exact hdone hzero he
  | throwException | join | printAwait => cases hd

section Code

theorem not_ticks_of_running {f : Focus} (hf : f = .running seat ticket frames result) :
    ¬ Ticks ⟨m, f⟩ s' :=
  fun hticks => nomatch hf.symm.trans hticks.idle

/-- A step of code that starts no task: the frames that it leaves are on time. -/
theorem InTime.ofCode (hp : InTime t ⟨m, .running seat ticket frames result⟩)
    (h : Upheld t L ⟨m, .running seat ticket frames result⟩)
    (hs : Thread.Step ticket ⟨frames, result, m⟩ ⟨frames', result', m'⟩)
    (hseats : m'.dispatcher.seats = m.dispatcher.seats) (hnested : Nested t frames')
    (hprompt : result' = .ok () → Prompt t m'.env.trace.toList m'.now frames') :
    InTime t ⟨m', .running seat ticket frames' result'⟩ := by
  refine hp.onward h (.code hs) (not_ticks_of_running rfl) (fun hf => ?_) fun hi => .inl ?_
  · obtain ⟨-, -, rfl, rfl⟩ := Focus.running.inj hf
    exact ⟨hnested, hprompt⟩
  · exact (Dispatcher.task?_of_seats hseats _).symm.trans hi

theorem InTime.takeOff (hp : InTime t ⟨m, .running seat ticket (frame :: outer) result⟩)
    (h : Upheld t L ⟨m, .running seat ticket (frame :: outer) result⟩)
    (hs : Thread.Step ticket ⟨frame :: outer, result, m⟩ ⟨outer, result', m'⟩)
    (hseats : m'.dispatcher.seats = m.dispatcher.seats)
    (hframe : result' = .ok () → ∀ id, frame ≠ .leave id) :
    InTime t ⟨m', .running seat ticket outer result'⟩ := by
  have hnested := (hp.running rfl).1
  exact hp.ofCode h hs hseats hnested.tail fun hok => hnested.prompt (hframe hok)

theorem InTime.leave (hp : InTime t ⟨m, .running seat ticket (.leave id :: outer) (.ok ())⟩)
    (h : Upheld t L ⟨m, .running seat ticket (.leave id :: outer) (.ok ())⟩) :
    InTime t ⟨record id .ended m, .running seat ticket outer (.ok ())⟩ := by
  refine hp.ofCode h .leave rfl (hp.running rfl).1.tail fun _ => ?_
  cases (h.polled rfl).ready with
  | runs hr =>
    cases hr with
    | @leave j st body outer hat hbegan hout hruns =>
      obtain ⟨o, before, -, hplace, -⟩ := hat.place
      exact ⟨o.block, _, hplace.next, arrives_concat.2 (mem_trace_record st.id .ended m)⟩

theorem InTime.act (hp : InTime t ⟨m, .running seat ticket
      (.rest j (.leaf id action :: body) :: outer) (.ok ())⟩)
    (h : Upheld t L ⟨m, .running seat ticket (.rest j (.leaf id action :: body) :: outer) (.ok ())⟩)
    (hmax : ∀ time, action = .delay time → m.now + time ≤ Machine.maxTime)
    (he : performAction ticket j id action (record id .began m) = (.ended result, m')) :
    InTime t ⟨m', .running seat ticket (.leave id :: .rest j body :: outer) result⟩ := by
  have hstep : Thread.Step ticket ⟨.rest j (.leaf id action :: body) :: outer, .ok (), m⟩
      ⟨.leave id :: .rest j body :: outer, result, m'⟩ := .act he
  obtain ⟨hnested, hprompt⟩ := hp.running rfl
  have hacts := h.acts
  rw [he] at hacts
  cases hacts with
  | ended hquiet =>
    refine hp.ofCode h hstep hquiet.seats hnested.begin fun hok => ?_
    obtain ⟨⟨h₁, -⟩, hr, -⟩ := h.begin
    have hj := (h₁.isOpen_of_runs hr (Nat.le_add_left _ _)).lt
    refine ⟨_, (hprompt rfl).head_mem_nodes, rfl, fun d hd => ?_⟩
    obtain ⟨hzero, -⟩ := lasts_performAction h₁.sound hj hmax hd he
    refine ⟨m.now, hquiet.trace.subset (mem_trace_record id .began m), ?_⟩
    rw [hzero (hok ▸ rfl), (stamps_code hstep).now]
    rfl

/-- The tasks in their seats when a block has begun: the old ones, and one for its body. -/
theorem task?_enter {i : SeatId} {task : Task ProgramFrame}
    (hi : (Interpreter.enter j id head inner m).2.dispatcher.task? i = some task) :
    m.dispatcher.task? i = some task ∨
      task = ⟨.entry m.jobs.size, [.rest m.jobs.size inner, .close m.jobs.size]⟩ := by
  have hlaunch : ∀ {p : JobId}, (launch p inner m).2.dispatcher.task? i = some task →
      m.dispatcher.task? i = some task ∨
        task = ⟨.entry m.jobs.size, [.rest m.jobs.size inner, .close m.jobs.size]⟩ := by
    intro p hi
    have hi := (Dispatcher.task?_spawn ..).symm.trans hi
    split at hi
    · exact .inr (Option.some.inj hi).symm
    · exact .inl hi
  cases head with
  | launch | scopeLaunch | launchJob | async => exact hlaunch hi
  | coroutineScope | supervisorScope | tryCatch => exact .inl hi

theorem nested_enter (hmem : .block id head inner ∈ t.nodes)
    (hnested : Nested t (.leave id :: outer)) :
    Nested t ((Interpreter.enter j id head inner m).1 ++ .leave id :: outer) := by
  have hslow : ∀ {frame}, (Statement.block id head inner).lasts? = none →
      (∀ k, Encloses t (.rest k inner) frame) →
      ∀ k, Nested t (.rest k inner :: frame :: .leave id :: outer) := fun hlasts hframe k =>
    List.isChain_cons_cons.2 ⟨hframe k,
      List.isChain_cons_cons.2 ⟨encloses_leave hmem hlasts _, hnested⟩⟩
  cases head with
  | launch | scopeLaunch | launchJob | async => exact hnested
  | coroutineScope | supervisorScope => exact hslow rfl (fun _ => encloses_close ..) _
  | tryCatch => exact hslow rfl (fun _ => encloses_catching ..) _

/-- A block that starts a task has ended at once, and any other goes on with its body. -/
theorem prompt_enter (hcomes : Comes t
      (Interpreter.enter j id head inner (record id .began m)).2.env.trace.toList m.now
      (.block id head inner :: body)) :
    Prompt t (Interpreter.enter j id head inner (record id .began m)).2.env.trace.toList m.now
      ((Interpreter.enter j id head inner (record id .began m)).1 ++ .leave id :: outer) := by
  obtain ⟨new, htrace, -⟩ := (stamps_enter j id head inner (record id .began m)).trace
  have hbegan : ⟨id, .began, m.now⟩ ∈
      (Interpreter.enter j id head inner (record id .began m)).2.env.trace.toList :=
    htrace ▸ List.mem_append_left _ (mem_trace_record id .began m)
  have hinstant : (Statement.block id head inner).lasts? = some 0 →
      Lasted t (Interpreter.enter j id head inner (record id .began m)).2.env.trace.toList id m.now := by
    intro hlasts
    refine ⟨_, hcomes.head_mem_nodes, rfl, fun d hd => ⟨m.now, hbegan, ?_⟩⟩
    obtain rfl := Option.some.inj (hlasts.symm.trans hd)
    rfl
  cases head with
  | launch | scopeLaunch | launchJob | async => exact hinstant rfl
  | coroutineScope | supervisorScope | tryCatch => exact hcomes.inside

theorem InTime.enter (hp : InTime t ⟨m, .running seat ticket
      (.rest j (.block id head inner :: body) :: outer) (.ok ())⟩)
    (h : Upheld t L ⟨m, .running seat ticket (.rest j (.block id head inner :: body) :: outer) (.ok ())⟩)
    (hf : Follows t L' m ⟨(Interpreter.enter j id head inner (record id .began m)).2,
      .running seat ticket ((Interpreter.enter j id head inner (record id .began m)).1 ++
        .leave id :: .rest j body :: outer) (.ok ())⟩) :
    InTime t ⟨(Interpreter.enter j id head inner (record id .began m)).2,
      .running seat ticket ((Interpreter.enter j id head inner (record id .began m)).1 ++
        .leave id :: .rest j body :: outer) (.ok ())⟩ := by
  obtain ⟨hnested, hprompt⟩ := hp.running rfl
  have hstep : Thread.Step ticket ⟨.rest j (.block id head inner :: body) :: outer, .ok (), m⟩
      ⟨(Interpreter.enter j id head inner (record id .began m)).1 ++ .leave id :: .rest j body :: outer,
        .ok (), (Interpreter.enter j id head inner (record id .began m)).2⟩ := .enter
  have hcomes : Comes t (Interpreter.enter j id head inner (record id .began m)).2.env.trace.toList
      m.now (.block id head inner :: body) := Comes.mono hf.kept.trace (hprompt rfl)
  have hnow : (Interpreter.enter j id head inner (record id .began m)).2.now = m.now :=
    (stamps_code hstep).now
  refine hp.onward h (.code hstep) (not_ticks_of_running rfl) (fun hf' => ?_) fun hi => ?_
  · obtain ⟨-, -, rfl, rfl⟩ := Focus.running.inj hf'
    exact ⟨nested_enter hcomes.head_mem_nodes hnested.begin, fun _ => hnow.symm ▸ prompt_enter hcomes⟩
  · rcases task?_enter hi with hold | rfl
    · exact .inl hold
    · exact .inr ⟨nested_task .., fun _ => hnow.symm ▸ hcomes.inside, nofun⟩

theorem InTime.code (hp : InTime t ⟨m, .running seat ticket frames result⟩)
    (h : Upheld t L ⟨m, .running seat ticket frames result⟩)
    (hmax : ∀ {time}, Snapshot.delay? ⟨m, .running seat ticket frames result⟩ = some time →
      m.now + time ≤ Machine.maxTime)
    (hs : Thread.Step ticket ⟨frames, result, m⟩ ⟨frames', result', m'⟩)
    (hf : Follows t L' m ⟨m', .running seat ticket frames' result'⟩) :
    InTime t ⟨m', .running seat ticket frames' result'⟩ := by
  cases hs with
  | pass hframe => exact hp.takeOff h (.pass hframe) rfl nofun
  | bodyEnd => exact hp.takeOff h .bodyEnd rfl (by simp)
  | act he => exact hp.act h (fun time hdelay => hmax (hdelay ▸ rfl)) he
  | enter => exact hp.enter h hf
  | leave => exact hp.leave h
  | catching he => exact hp.takeOff h (.catching he) (seats_catchException he) (by simp)
  | close he => exact hp.takeOff h (.close he) (seats_close_ended he) (by simp)
  | settle => exact hp.takeOff h .settle (Machine.seats_settle ..) (by simp)
  | @awaited id j text _ _ _ _ he =>
    have hseats := seats_printResult id j text m
    rw [he] at hseats
    exact hp.takeOff h (.awaited he) hseats (by simp)
  | program => exact hp.takeOff h .program (seats_endProgram ..) (by simp)

theorem InTime.checkIn {on : Suspension}
    (hp : InTime t ⟨m, .running seat ticket frames result⟩)
    (h : Upheld t L ⟨m, .running seat ticket frames result⟩)
    (hs : Thread.Suspends ticket ⟨frames, result, m⟩ on frames' m')
    (hseats : m'.dispatcher.seats = m.dispatcher.seats) (hsits : Sits t m' ⟨on, frames'⟩) :
    InTime t ⟨{ m' with dispatcher := m'.dispatcher.checkIn seat ⟨on, frames'⟩ }, .idle⟩ := by
  refine hp.onward h (.suspend hs) (not_ticks_of_running rfl) nofun fun {i task} hi => ?_
  have hlt : seat < m'.dispatcher.seats.size := hseats ▸ (h.polled rfl).lt
  have hi := (Dispatcher.task?_checkIn hlt _ i).symm.trans hi
  split at hi
  · obtain rfl := Option.some.inj hi
    exact .inr (hsits.later (List.prefix_refl _) rfl (.ofTimetable rfl rfl))
  · exact .inl ((Dispatcher.task?_of_seats hseats i).symm.trans hi)

theorem InTime.suspendAct {on : Suspension} {left : List ProgramFrame}
    (hp : InTime t ⟨m, .running seat ticket (.rest j (.leaf id action :: body) :: outer) (.ok ())⟩)
    (h : Upheld t L ⟨m, .running seat ticket (.rest j (.leaf id action :: body) :: outer) (.ok ())⟩)
    (hmax : ∀ time, action = .delay time → m.now + time ≤ Machine.maxTime)
    (he : performAction ticket j id action (record id .began m) = (.suspended on left, m')) :
    InTime t ⟨{ m' with
      dispatcher := m'.dispatcher.checkIn seat ⟨on, left ++ .leave id :: .rest j body :: outer⟩ },
      .idle⟩ := by
  obtain ⟨hnested, hprompt⟩ := hp.running rfl
  obtain ⟨⟨h₁, -⟩, hr, -⟩ := h.begin
  have hj := (h₁.isOpen_of_runs hr (Nat.le_add_left _ _)).lt
  have hbegin : Nested t (.leave id :: .rest j body :: outer) := hnested.begin
  have hacts := h.acts
  rw [he] at hacts
  cases hacts with
  | suspended hsus =>
    obtain ⟨w, rfl, hneeds⟩ := hsus.wait
    refine hp.checkIn h (.act he) hsus.quiet.seats ⟨?_, nofun, fun {_ _ _ id' _} hon hframes => ?_⟩
    · cases hneeds with
      | delay _ _ | join _ _ _ _ => exact hbegin
      | await hmem _ _ _ => exact List.isChain_cons_cons.2 ⟨encloses_leave hmem rfl _, hbegin⟩
    · cases hon
      have hid : id = id' := by
        cases hneeds <;> cases hframes
        · rfl
        · rfl
      subst hid
      refine ⟨_, (hprompt rfl).head_mem_nodes, rfl, fun d hd => ⟨m.now, ?_, ?_⟩⟩
      · exact hsus.quiet.trace.subset (mem_trace_record id .began m)
      · exact (lasts_performAction h₁.sound hj hmax hd he).2 rfl

theorem InTime.suspendClose {on : Suspension} {left : List ProgramFrame}
    (hp : InTime t ⟨m, .running seat ticket (.close j :: outer) result⟩)
    (h : Upheld t L ⟨m, .running seat ticket (.close j :: outer) result⟩)
    (he : Interpreter.close ticket j result m = (.suspended on left, m')) :
    InTime t ⟨{ m' with dispatcher := m'.dispatcher.checkIn seat ⟨on, left ++ outer⟩ }, .idle⟩ := by
  have hstep : Thread.Suspends ticket ⟨.close j :: outer, result, m⟩ on (left ++ outer) m' := .close he
  have hseats := Machine.seats_close m ticket j result
  unfold Interpreter.close Reached.afterClose at he
  split at he
  · cases he
  · next hc =>
    rw [hc] at hseats
    obtain ⟨hsus, rfl⟩ := Prod.mk.inj he
    obtain ⟨rfl, rfl⟩ := Progress.suspended.inj hsus
    exact hp.checkIn h hstep hseats ⟨(hp.running rfl).1.replace (by simp) _, nofun, nofun⟩

end Code

section Idle

variable {i : SeatId} {rest : List SeatId} {task : Task ProgramFrame}
  {d : Dispatcher (Task ProgramFrame)}

theorem not_ticks_of_ready (hready : m.dispatcher.ready = i :: rest) : ¬ Ticks ⟨m, .idle⟩ s' :=
  fun hticks => nomatch hready.symm.trans hticks.ready

theorem InTime.redispatch {f : Focus} (hp : InTime t ⟨m, f⟩) (h : Upheld t L ⟨m, f⟩)
    (hs : Step ⟨m, f⟩ ⟨{ m with dispatcher := d }, .idle⟩)
    (hticks : ¬ Ticks ⟨m, f⟩ ⟨{ m with dispatcher := d }, .idle⟩)
    (htask : ∀ i, d.task? i = m.dispatcher.task? i) :
    InTime t ⟨{ m with dispatcher := d }, .idle⟩ :=
  hp.onward h hs hticks nofun fun hi => .inl ((htask _).symm.trans hi)

theorem InTime.goOn {r : Except Interruption Unit} (hp : InTime t ⟨m, .idle⟩) (h : Upheld t L ⟨m, .idle⟩)
    (hready : m.dispatcher.ready = i :: rest)
    (hout : (withoutFirst m rest).checkOut i = (some (ticket, task), d))
    (hres : ({ m with dispatcher := d } : ProgramMachine).resumption ticket task.on = (some r, m')) :
    InTime t ⟨m', .running i ticket task.frames (Suspension.handed r)⟩ := by
  obtain ⟨-, rfl, htask, hothers, -⟩ := Dispatcher.checkOut_some h.sound.orderly.aligned hready hout
  have henv := env_resumption { m with dispatcher := d } ticket task.on
  have hd := Machine.dispatcher_resumption { m with dispatcher := d } ticket task.on
  rw [hres] at henv hd
  have htrace : m'.env.trace = m.env.trace := congrArg ProgramEnv.trace henv
  have hnow : m'.now = m.now := (spends_resumption hres).now
  have hsits := hp.seated htask
  refine hp.onward h (.goOn hready hout hres) (not_ticks_of_ready hready) (fun hf => ?_)
    fun {i' task'} hi => .inl ?_
  · obtain ⟨-, -, rfl, rfl⟩ := Focus.running.inj hf
    refine ⟨hsits.nested, fun hok => ?_⟩
    dsimp only
    rw [htrace, hnow]
    exact hsits.prompt (h.seated htask).rests hres hok
  · have hi : m'.dispatcher.task? i' = some _ := hi
    rw [show m'.dispatcher = d from hd, hothers] at hi
    split at hi
    · cases hi
    · exact hi

theorem InTime.sleepOn (hp : InTime t ⟨m, .idle⟩) (h : Upheld t L ⟨m, .idle⟩)
    (hready : m.dispatcher.ready = i :: rest)
    (hout : (withoutFirst m rest).checkOut i = (some (ticket, task), d))
    (hres : ({ m with dispatcher := d } : ProgramMachine).resumption ticket task.on = (none, m')) :
    InTime t ⟨{ m' with dispatcher := m'.dispatcher.checkIn i task }, .idle⟩ := by
  have hstep : Step ⟨m, .idle⟩ ⟨{ m' with dispatcher := m'.dispatcher.checkIn i task }, .idle⟩ :=
    .sleepOn hready hout hres
  obtain ⟨rfl, -⟩ := h.resumption_none hready hout hres
  exact hp.redispatch (m := m) (d := d.checkIn i task) h hstep (not_ticks_of_ready hready)
    (Dispatcher.task?_checkIn_of_checkOut h.sound.orderly.aligned hready hout)

theorem InTime.tick {time : Nat} (hp : InTime t ⟨m, .idle⟩) (h : History t L ⟨m, .idle⟩)
    (hready : m.dispatcher.ready = []) (hnext : m.timetable.clock.next? = some time) :
    InTime t ⟨m.advance.2, .idle⟩ := by
  refine ⟨hp.begun, hp.ended, nofun, fun {i task} hi => ?_⟩
  have hold := (Dispatcher.task?_of_seats (Machine.seats_wakeAll ..) i).symm.trans hi
  have hqueued := h.upheld.sound.orderly.aligned.isQueued_of_ready hready i
  have hwaits := (h.upheld.seated hold).waits
  have hsits := hp.seated hold
  refine ⟨hsits.nested, fun hon => ?_, fun hon hframes => ?_⟩
  · rw [hon] at hwaits
    cases hqueued.symm.trans hwaits
  · obtain ⟨st, hst, hid, hlasts⟩ := hsits.wait hon hframes
    refine ⟨st, hst, hid, fun d hd => ?_⟩
    obtain ⟨begun, hbegun, hdue⟩ := hlasts d hd
    rw [hon] at hwaits
    have hsleeps := hwaits.resolve_left fun ⟨_, hq⟩ => nomatch hqueued.symm.trans hq
    refine ⟨begun, hbegun, hdue.advance ?_ hnext fun ht => (h.timely.timers ht).1⟩
    rw [hsleeps.pending]
    nofun

end Idle

/-- Every step of a run is on time, if no delay that begins is cut off at the largest time. -/
theorem InTime.step (hp : s.InTime t) (h : History t L s) (hs : Step s s')
    (hf : Follows t L' s.machine s')
    (hmax : ∀ {time}, s.delay? = some time → s.machine.now + time ≤ Machine.maxTime) :
    s'.InTime t := by
  have hup := h.upheld
  cases hs with
  | skip hready hout =>
    obtain ⟨-, -, hseats, -⟩ := Dispatcher.checkOut_none hup.sound.orderly.aligned hready hout
    exact hp.redispatch hup (.skip hready hout) (not_ticks_of_ready hready)
      (Dispatcher.task?_of_seats hseats)
  | sleepOn hready hout hres => exact hp.sleepOn hup hready hout hres
  | goOn hready hout hres => exact hp.goOn hup hready hout hres
  | code hs => exact hp.code hup hmax hs hf
  | suspend hs =>
    cases hs with
    | act he => exact hp.suspendAct hup (fun time hdelay => hmax (hdelay ▸ rfl)) he
    | close he => exact hp.suspendClose hup he
  | finish =>
    exact hp.redispatch hup .finish (not_ticks_of_running rfl)
      (Dispatcher.task?_of_seats (Dispatcher.seats_finish ..))
  | tick hready hnext => exact hp.tick h hready hnext

end Snapshot

end RacePuzzle
