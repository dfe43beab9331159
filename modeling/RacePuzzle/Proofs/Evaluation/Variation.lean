import RacePuzzle.Proofs.Evaluation.Course
import RacePuzzle.Proofs.Evaluation.Notes
import RacePuzzle.Proofs.Machine.Pace
import RacePuzzle.Proofs.Machine.Recast

/-! Programs whose delays are multiplied by one number and whose awaits have other texts of their own.
Such a program takes the course of the original at another pace, as long as no deadline is too late for the
clock and no await prints the text of its own. -/
namespace RacePuzzle

open Interpreter

/-- A pace for the delays, and new texts for awaits. -/
structure Variation where
  pace : Nat
  text : String → String

def Action.vary (ν : Variation) : Action → Action
  | .delay time => .delay (ν.pace * time)
  | .printAwait var text => .printAwait var (ν.text text)
  | action => action

namespace Statement

mutual
def vary (ν : Variation) : Statement → Statement
  | .leaf id action => .leaf id (action.vary ν)
  | .block id head body => .block id head (varyBody ν body)
def varyBody (ν : Variation) : List Statement → List Statement
  | [] => []
  | s :: rest => s.vary ν :: varyBody ν rest
end

end Statement

def ProgramFrame.vary (ν : Variation) : ProgramFrame → ProgramFrame
  | .rest job body => .rest job (Statement.varyBody ν body)
  | frame => frame

def Focus.vary (ν : Variation) : Focus → Focus
  | .idle => .idle
  | .running seat ticket frames result => .running seat ticket (frames.map (ProgramFrame.vary ν)) result

theorem Focus.idle_of_vary {ν : Variation} {focus : Focus} (h : focus.vary ν = .idle) : focus = .idle := by
  cases focus with
  | idle => rfl
  | running => cases h

def TraceEntry.paced (k : Nat) (e : TraceEntry) : TraceEntry := { e with time := k * e.time }

def ProgramEnv.paced (k : Nat) (env : ProgramEnv) : ProgramEnv :=
  { env with
    trace := env.trace.map (TraceEntry.paced k)
    ending := env.ending.map fun ending => (ending.1, k * ending.2) }

def Limits.paced (k : Nat) (limits : Limits) : Limits := { limits with horizon := k * limits.horizon }

def Evaluation.paced (k : Nat) (e : Evaluation) : Evaluation :=
  { e with
    events := e.events.map fun event => { event with time := k * event.time }
    endTime := k * e.endTime }

namespace Variation

variable {ν : Variation} {m m' : ProgramMachine} {s s' s₁ : Snapshot} {ticket : Ticket}

def machine (ν : Variation) (m : ProgramMachine) : ProgramMachine :=
  m.recast (Task.recast (ProgramFrame.vary ν)) (ProgramEnv.paced ν.pace)

/-- The second machine runs the varied program and has come as far as the first one. -/
structure Follows (ν : Variation) (m m' : ProgramMachine) : Prop where
  paced : (ν.machine m).Paced ν.pace m'

structure FollowsIn (ν : Variation) (r r' : ProgramReached) : Prop where
  progress : r'.1 = r.1.recast (ProgramFrame.vary ν)
  machine : ν.Follows r.2 r'.2

/-- The action does the same when it is varied. -/
def Suits (ν : Variation) (m : ProgramMachine) : Action → Prop
  | .delay time => min (ν.pace * m.now + ν.pace * time) Machine.maxTime =
      ν.pace * min (m.now + time) Machine.maxTime
  | .printAwait var text => ν.text text = text ∨
      ∃ job result, m.env.handles.lookup var = some (.deferred job result)
  | _ => True

namespace Follows

theorem of_eq {m₁ : ProgramMachine} (he : ν.machine m = m₁) (h : m₁.Paced ν.pace m') : ν.Follows m m' :=
  ⟨he ▸ h⟩

/-- An operation that commutes with recasting is followed if it keeps the pace. -/
theorem of_recast {α : Type} {r r' recast : α × ProgramMachine} (he : recast = Prod.map id ν.machine r)
    (h : r'.1 = recast.1 ∧ recast.2.Paced ν.pace r'.2) : r'.1 = r.1 ∧ ν.Follows r.2 r'.2 := by
  subst he
  exact ⟨h.1, ⟨h.2⟩⟩

theorem env (h : ν.Follows m m') : m'.env = m.env.paced ν.pace := h.paced.env

theorem now (h : ν.Follows m m') : m'.now = ν.pace * m.now := h.paced.now

theorem job? (h : ν.Follows m m') (job : JobId) : m'.job? job = m.job? job := h.paced.job? job

theorem handles (h : ν.Follows m m') : m'.env.handles = m.env.handles :=
  (congrArg ProgramEnv.handles h.env).trans rfl

theorem background (h : ν.Follows m m') : m'.env.background = m.env.background :=
  (congrArg ProgramEnv.background h.env).trans rfl

theorem hasEnded (h : ν.Follows m m') : Statement.hasEnded m' = Statement.hasEnded m :=
  (congrArg (fun env => env.ending.isSome) h.env).trans Option.isSome_map

theorem withEnv (h : ν.Follows m m') {env env' : ProgramEnv} (henv : env' = env.paced ν.pace) :
    ν.Follows { m with env := env } { m' with env := env' } :=
  henv ▸ ⟨h.paced.withEnv _⟩

theorem record (h : ν.Follows m m') (id : StatementId) (mark : Mark) :
    ν.Follows (record id mark m) (record id mark m') := by
  refine h.withEnv ?_
  rw [h.env, h.now]
  simp [ProgramEnv.paced, TraceEntry.paced]

theorem print (h : ν.Follows m m') (id : StatementId) (value : String) :
    ν.Follows (print id value m) (print id value m') := by
  have hsame : m'.env.ending.isNone = m.env.ending.isNone :=
    (congrArg (fun env => env.ending.isNone) h.env).trans Option.isNone_map
  unfold Interpreter.print
  rw [hsame]
  split
  · exact h.record id _
  · exact h

theorem bind (h : ν.Follows m m') (id : StatementId) (var : String) (handle : Referent) :
    ν.Follows (bind id var handle m) (bind id var handle m') := by
  refine Follows.record (h.withEnv ?_) id _
  rw [h.env]
  rfl

theorem refer (h : ν.Follows m m') (id : StatementId) (var : String) :
    (refer id var m').1 = (refer id var m).1 ∧ ν.Follows (refer id var m).2 (refer id var m').2 := by
  unfold Interpreter.refer
  rw [h.handles]
  exact ⟨rfl, h.record id _⟩

theorem signal? (h : ν.Follows m m') (handle : Referent) : signal? handle m' = signal? handle m := by
  cases handle with
  | task job | deferred job => exact congrArg (Option.map _) (h.job? job)
  | bare => rfl

theorem cancel (h : ν.Follows m m') (job : JobId) : ν.Follows (m.cancel job) (m'.cancel job) :=
  of_eq (Machine.recast_cancel ..) (h.paced.cancel job)

theorem fire (h : ν.Follows m m') (signal : SignalId) : ν.Follows (m.fire signal) (m'.fire signal) :=
  of_eq (Machine.recast_fire ..) (h.paced.fire signal)

theorem newSignal (h : ν.Follows m m') :
    m'.newSignal.1 = m.newSignal.1 ∧ ν.Follows m.newSignal.2 m'.newSignal.2 :=
  ⟨h.paced.newSignal.1, ⟨h.paced.newSignal.2⟩⟩

theorem child (h : ν.Follows m m') (parent : JobId) (role : JobRole) :
    (m'.child parent role).1 = (m.child parent role).1 ∧
      ν.Follows (m.child parent role).2 (m'.child parent role).2 :=
  ⟨(h.paced.child parent role).1, ⟨(h.paced.child parent role).2⟩⟩

theorem launch (h : ν.Follows m m') (parent : JobId) (body : List Statement) :
    (launch parent (Statement.varyBody ν body) m').1 = (launch parent body m).1 ∧
      ν.Follows (launch parent body m).2 (launch parent (Statement.varyBody ν body) m').2 := by
  obtain ⟨hjob, hchild⟩ := h.child parent .task
  unfold Interpreter.launch
  dsimp only
  rw [hjob]
  exact ⟨rfl, of_eq (Machine.recast_spawn ..) (hchild.paced.spawn _)⟩

theorem settle (h : ν.Follows m m') (job : JobId) :
    (m'.settle job).1 = (m.settle job).1 ∧ ν.Follows (m.settle job).2 (m'.settle job).2 :=
  of_recast (Machine.settle_recast ..) (h.paced.settle job)

theorem beginJoin (h : ν.Follows m m') (ticket : Ticket) (job : JobId) (signal : SignalId) :
    (m'.beginJoin ticket job signal).1 = (m.beginJoin ticket job signal).1 ∧
      ν.Follows (m.beginJoin ticket job signal).2 (m'.beginJoin ticket job signal).2 :=
  of_recast (Machine.beginJoin_recast ..) (h.paced.beginJoin ticket job signal)

theorem beginAwait (h : ν.Follows m m') (ticket : Ticket) (job : JobId) (signal : SignalId) :
    (m'.beginAwait ticket job signal).1 = (m.beginAwait ticket job signal).1 ∧
      ν.Follows (m.beginAwait ticket job signal).2 (m'.beginAwait ticket job signal).2 :=
  of_recast (Machine.beginAwait_recast ..) (h.paced.beginAwait ticket job signal)

theorem resumption (h : ν.Follows m m') (ticket : Ticket) (on : Suspension) {m₁ : ProgramMachine}
    {result : Option (Except Interruption Unit)} (hres : m.resumption ticket on = (result, m₁)) :
    ∃ m₁', m'.resumption ticket on = (result, m₁') ∧ ν.Follows m₁ m₁' := by
  obtain ⟨hresult, hresumed⟩ : (m'.resumption ticket on).1 = (m.resumption ticket on).1 ∧
      ν.Follows (m.resumption ticket on).2 (m'.resumption ticket on).2 :=
    of_recast (Machine.resumption_recast ..) (h.paced.resumption ticket on)
  rw [hres] at hresult hresumed
  exact ⟨(m'.resumption ticket on).2, Prod.ext hresult rfl, hresumed⟩

theorem advance (h : ν.Follows m m') : ν.Follows m.advance.2 m'.advance.2 :=
  of_eq (Machine.recast_advance ..) h.paced.advance

theorem dispatcher (h : ν.Follows m m') :
    m'.dispatcher = m.dispatcher.recast (Task.recast (ProgramFrame.vary ν)) :=
  h.paced.dispatcher

theorem ready (h : ν.Follows m m') : m'.dispatcher.ready = m.dispatcher.ready :=
  (congrArg Dispatcher.ready h.dispatcher).trans rfl

theorem polls (h : ν.Follows m m') : m'.dispatcher.polls = m.dispatcher.polls :=
  (congrArg Dispatcher.polls h.dispatcher).trans rfl

theorem next? (h : ν.Follows m m') :
    m'.timetable.clock.next? = m.timetable.clock.next?.map (ν.pace * ·) :=
  h.paced.timetable.clock.next?

theorem withDispatcher (h : ν.Follows m m') {d : Dispatcher (Task ProgramFrame)}
    {d' : Dispatcher (Task ProgramFrame)} (hd : d' = d.recast (Task.recast (ProgramFrame.vary ν))) :
    ν.Follows { m with dispatcher := d } { m' with dispatcher := d' } :=
  hd ▸ ⟨h.paced.withDispatcher _⟩

theorem finish (h : ν.Follows m m') (ticket : Ticket) :
    ν.Follows { m with dispatcher := m.dispatcher.finish ticket }
      { m' with dispatcher := m'.dispatcher.finish ticket } :=
  h.withDispatcher (congrArg (Dispatcher.finish · ticket) h.dispatcher)

theorem checkIn (h : ν.Follows m m') (id : SeatId) (task : Task ProgramFrame) :
    ν.Follows { m with dispatcher := m.dispatcher.checkIn id task }
      { m' with dispatcher := m'.dispatcher.checkIn id (task.recast (ProgramFrame.vary ν)) } :=
  h.withDispatcher ((congrArg (Dispatcher.checkIn · id _) h.dispatcher).trans
    (Dispatcher.recast_checkIn ..).symm)

theorem checkOut (h : ν.Follows m m') (id : SeatId) (rest : List SeatId) :
    (Snapshot.withoutFirst m' rest).checkOut id =
      Prod.map (Option.map (Prod.map (fun ticket => ticket) (Task.recast (ProgramFrame.vary ν))))
        (Dispatcher.recast (Task.recast (ProgramFrame.vary ν)))
        ((Snapshot.withoutFirst m rest).checkOut id) := by
  unfold Snapshot.withoutFirst
  rw [h.dispatcher]
  exact Dispatcher.checkOut_recast (Task.recast (ProgramFrame.vary ν)) { m.dispatcher with ready := rest } id

theorem done (h : ν.Follows m m') : ν.FollowsIn (.done m) (.done m') := ⟨rfl, h⟩

theorem afterWait (frames : List ProgramFrame) {k k' : ProgramMachine → ProgramReached}
    {r r' : WaitStart × ProgramMachine} (hstart : r'.1 = r.1) (hm : ν.Follows r.2 r'.2)
    (hk : ∀ {m m'}, ν.Follows m m' → ν.FollowsIn (k m) (k' m')) :
    ν.FollowsIn (afterWait frames k r) (afterWait (frames.map (ProgramFrame.vary ν)) k' r') := by
  obtain ⟨start, m⟩ := r
  obtain ⟨start', m'⟩ := r'
  obtain rfl : start' = start := hstart
  cases start' with
  | through => exact hk hm
  | refused why => exact ⟨rfl, hm⟩
  | suspended on => exact ⟨rfl, hm⟩

theorem printResult (h : ν.Follows m m') (id : StatementId) (job : JobId) (result : String) :
    ν.FollowsIn (printResult id job result m) (printResult id job result m') := by
  unfold Interpreter.printResult
  dsimp only
  rw [h.job?]
  split
  · exact ((h.record id _).print id result).done
  · exact ⟨rfl, h.record id _⟩

theorem performAction (h : ν.Follows m m') (ticket : Ticket) (job : JobId) (id : StatementId)
    (action : Action) (hsuits : ν.Suits m action) :
    ν.FollowsIn (performAction ticket job id action m)
      (performAction ticket job id (action.vary ν) m') := by
  cases action with
  | delay time =>
    obtain ⟨hstart, hbegun⟩ := of_recast (Machine.beginDelay_recast ..)
      (h.paced.beginDelay ticket job hsuits)
    exact afterWait [] hstart hbegun done
  | print text => exact (h.print id text).done
  | throwException kind => exact ⟨rfl, h⟩
  | job var =>
    obtain ⟨hsignal, hnew⟩ := h.newSignal
    unfold Interpreter.performAction Action.vary
    dsimp only
    rw [hsignal]
    exact (hnew.bind id var _).done
  | join var =>
    obtain ⟨hhandle, hreferred⟩ := h.refer id var
    unfold Interpreter.performAction Action.vary
    dsimp only
    have hsignal : (Interpreter.refer id var m).1.bind
          (Interpreter.signal? · (Interpreter.refer id var m').2) =
        (Interpreter.refer id var m).1.bind (Interpreter.signal? · (Interpreter.refer id var m).2) :=
      congrArg (Option.bind _) (funext hreferred.signal?)
    rw [hhandle, hsignal]
    split
    · exact hreferred.done
    · next signal _ =>
      obtain ⟨hstart, hjoined⟩ := hreferred.beginJoin ticket job signal
      exact afterWait [] hstart hjoined done
  | cancel var =>
    obtain ⟨hhandle, hreferred⟩ := h.refer id var
    unfold Interpreter.performAction Action.vary
    dsimp only
    rw [hhandle]
    split
    · exact hreferred.done
    · exact (hreferred.cancel _).done
    · exact (hreferred.cancel _).done
    · exact (hreferred.fire _).done
  | completeJob var =>
    obtain ⟨hhandle, hreferred⟩ := h.refer id var
    unfold Interpreter.performAction Action.vary
    dsimp only
    rw [hhandle]
    split
    · exact (hreferred.fire _).done
    · exact hreferred.done
  | printAwait var text =>
    obtain ⟨hhandle, hreferred⟩ := h.refer id var
    unfold Interpreter.performAction Action.vary
    dsimp only
    have hlookup : (Interpreter.refer id var m).1 = m.env.handles.lookup var := rfl
    rw [hhandle]
    split
    · next target result _ =>
      rw [hreferred.job?]
      split
      · exact hreferred.done
      · next signal _ =>
        obtain ⟨hstart, hawaited⟩ := hreferred.beginAwait ticket job signal
        exact afterWait [_] hstart hawaited fun h => h.printResult id target result
    · next hother =>
      -- The await prints a text of its own, which stays as it is.
      have htext : ν.text text = text := hsuits.resolve_right fun ⟨target, result, hdeferred⟩ =>
        hother target result (hlookup.trans hdeferred)
      rw [htext]
      exact (hreferred.print id text).done

theorem close (h : ν.Follows m m') (ticket : Ticket) (job : JobId) (result : Completion) :
    ν.FollowsIn (Interpreter.close ticket job result m) (Interpreter.close ticket job result m') := by
  have hfollows : (m'.close ticket job result).1 = (m.close ticket job result).1 ∧
      ν.Follows (m.close ticket job result).2 (m'.close ticket job result).2 :=
    of_recast (Machine.close_recast ..) (h.paced.close ticket job result)
  unfold Interpreter.close Reached.afterClose
  generalize m.close ticket job result = r at hfollows ⊢
  generalize m'.close ticket job result = r' at hfollows ⊢
  obtain ⟨outcome, m₁⟩ := r
  obtain ⟨outcome', m₁'⟩ := r'
  obtain ⟨rfl : outcome' = outcome, hclosed⟩ := hfollows
  cases outcome' <;> exact ⟨rfl, hclosed⟩

theorem catchException (h : ν.Follows m m') (id : StatementId) (kind : ExceptionKind)
    (result : Completion) :
    ν.FollowsIn (catchException id kind result m) (catchException id kind result m') := by
  unfold Interpreter.catchException
  split
  · exact h.done
  · split
    · exact (h.print id _).done
    · exact ⟨rfl, h⟩

theorem endProgram (h : ν.Follows m m') (result : Completion) :
    ν.Follows (endProgram result m) (endProgram result m') := by
  have hcancelled := h.cancel m.env.background
  unfold Interpreter.endProgram
  rw [h.background]
  refine hcancelled.withEnv ?_
  rw [hcancelled.env, h.now]
  rfl

theorem enter (h : ν.Follows m m') (job : JobId) (id : StatementId) (head : Head) (body : List Statement) :
    (enter job id head (Statement.varyBody ν body) m').1 =
        (enter job id head body m).1.map (ProgramFrame.vary ν) ∧
      ν.Follows (enter job id head body m).2 (enter job id head (Statement.varyBody ν body) m').2 := by
  unfold Interpreter.enter
  cases head with
  | launch => exact ⟨rfl, (h.launch job body).2⟩
  | scopeLaunch =>
    dsimp only
    rw [h.background]
    exact ⟨rfl, (h.launch m.env.background body).2⟩
  | launchJob var =>
    obtain ⟨hjob, hlaunched⟩ := h.launch job body
    dsimp only
    rw [hjob]
    exact ⟨rfl, hlaunched.bind id var _⟩
  | async var result =>
    obtain ⟨hjob, hlaunched⟩ := h.launch job body
    dsimp only
    rw [hjob]
    exact ⟨rfl, hlaunched.bind id var _⟩
  | coroutineScope =>
    obtain ⟨hscope, hchild⟩ := h.child job .scope
    dsimp only
    rw [hscope]
    exact ⟨rfl, hchild⟩
  | supervisorScope =>
    obtain ⟨hscope, hchild⟩ := h.child job .supervisor
    dsimp only
    rw [hscope]
    exact ⟨rfl, hchild⟩
  | tryCatch kind => exact ⟨rfl, h⟩

end Follows

section Steps

variable {seat : SeatId} {frames frames₁ : List ProgramFrame} {result result₁ : Completion}
  {on : Suspension} {m₁ : ProgramMachine} {r : ProgramReached}

theorem FollowsIn.ended (h : ν.FollowsIn (.ended result, m) r) :
    ∃ m', r = (.ended result, m') ∧ ν.Follows m m' :=
  ⟨r.2, Prod.ext h.progress rfl, h.machine⟩

theorem FollowsIn.suspended (h : ν.FollowsIn (.suspended on frames, m) r) :
    ∃ m', r = (.suspended on (frames.map (ProgramFrame.vary ν)), m') ∧ ν.Follows m m' :=
  ⟨r.2, Prod.ext h.progress rfl, h.machine⟩

theorem Follows.code (h : ν.Follows m m')
    (hs : Thread.Step ticket ⟨frames, result, m⟩ ⟨frames₁, result₁, m₁⟩)
    (hsuits : ∀ {job id action}, Snapshot.Begins ⟨m, .running seat ticket frames result⟩ job
      (.leaf id action) → ν.Suits m action) :
    ∃ m₁', Thread.Step ticket ⟨frames.map (ProgramFrame.vary ν), result, m'⟩
      ⟨frames₁.map (ProgramFrame.vary ν), result₁, m₁'⟩ ∧ ν.Follows m₁ m₁' := by
  cases hs with
  | @pass frame _ _ _ hframe =>
    have hframe' : (frame.vary ν).passesErrors = true := by cases frame <;> exact hframe
    exact ⟨m', .pass hframe', h⟩
  | bodyEnd => exact ⟨m', .bodyEnd, h⟩
  | @act job id action body outer _ _ _ he =>
    have hin := (h.record id .began).performAction ticket job id action (hsuits ⟨_, _, _, _, rfl⟩)
    rw [he] at hin
    obtain ⟨m₁', he', h₁⟩ := hin.ended
    exact ⟨m₁', .act he', h₁⟩
  | @enter job id head inner body outer =>
    obtain ⟨hframes, h₁⟩ := (h.record id .began).enter job id head inner
    refine ⟨_, ?_, h₁⟩
    rw [List.map_append, ← hframes]
    exact .enter
  | @leave id => exact ⟨_, .leave, h.record id .ended⟩
  | @catching id kind _ _ _ _ _ he =>
    have hin := h.catchException id kind result
    rw [he] at hin
    obtain ⟨m₁', he', h₁⟩ := hin.ended
    exact ⟨m₁', .catching he', h₁⟩
  | @close job _ _ _ _ _ he =>
    have hin := h.close ticket job result
    rw [he] at hin
    obtain ⟨m₁', he', h₁⟩ := hin.ended
    exact ⟨m₁', .close he', h₁⟩
  | @settle job =>
    obtain ⟨houtcome, h₁⟩ := h.settle job
    refine ⟨_, ?_, h₁⟩
    rw [← houtcome]
    exact .settle
  | @awaited id job text _ _ _ _ he =>
    have hin := h.printResult id job text
    rw [he] at hin
    obtain ⟨m₁', he', h₁⟩ := hin.ended
    exact ⟨m₁', .awaited he', h₁⟩
  | program => exact ⟨_, .program, h.endProgram result⟩

theorem Follows.suspends (h : ν.Follows m m')
    (hs : Thread.Suspends ticket ⟨frames, result, m⟩ on frames₁ m₁)
    (hsuits : ∀ {job id action}, Snapshot.Begins ⟨m, .running seat ticket frames result⟩ job
      (.leaf id action) → ν.Suits m action) :
    ∃ m₁', Thread.Suspends ticket ⟨frames.map (ProgramFrame.vary ν), result, m'⟩ on
      (frames₁.map (ProgramFrame.vary ν)) m₁' ∧ ν.Follows m₁ m₁' := by
  cases hs with
  | @act job id action body outer _ _ _ _ he =>
    have hin := (h.record id .began).performAction ticket job id action (hsuits ⟨_, _, _, _, rfl⟩)
    rw [he] at hin
    obtain ⟨m₁', he', h₁⟩ := hin.suspended
    refine ⟨m₁', ?_, h₁⟩
    rw [List.map_append]
    exact .act he'
  | @close job _ _ _ _ _ _ he =>
    have hin := h.close ticket job result
    rw [he] at hin
    obtain ⟨m₁', he', h₁⟩ := hin.suspended
    refine ⟨m₁', ?_, h₁⟩
    rw [List.map_append]
    exact .close he'

/-- The second state is that of the varied program where the first one is that of the original. -/
structure Mirrors (ν : Variation) (s s' : Snapshot) : Prop where
  machine : ν.Follows s.machine s'.machine
  focus : s'.focus = s.focus.vary ν

/-- Every step has a counterpart, if what begins with it suits. -/
theorem Mirrors.step (h : ν.Mirrors s s') (hs : Snapshot.Step s s₁)
    (hsuits : ∀ {job id action}, s.Begins job (.leaf id action) → ν.Suits s.machine action) :
    ∃ s₁', Snapshot.Step s' s₁' ∧ ν.Mirrors s₁ s₁' := by
  obtain ⟨m', focus'⟩ := s'
  obtain ⟨hm, rfl⟩ : ν.Follows s.machine m' ∧ focus' = s.focus.vary ν := ⟨h.machine, h.focus⟩
  cases hs with
  | @skip m id rest d hr hout =>
    have hout' := hm.checkOut id rest
    rw [hout] at hout'
    exact ⟨_, .skip (hm.ready.trans hr) hout', hm.withDispatcher rfl, rfl⟩
  | @sleepOn m id rest d ticket task m₁ hr hout hres =>
    have hout' := hm.checkOut id rest
    rw [hout] at hout'
    obtain ⟨m₁', hres', h₁⟩ := (hm.withDispatcher (d := d) rfl).resumption ticket task.on hres
    exact ⟨_, .sleepOn (hm.ready.trans hr) hout' hres', h₁.checkIn id task, rfl⟩
  | @goOn m id rest d ticket task result m₁ hr hout hres =>
    have hout' := hm.checkOut id rest
    rw [hout] at hout'
    obtain ⟨m₁', hres', h₁⟩ := (hm.withDispatcher (d := d) rfl).resumption ticket task.on hres
    exact ⟨_, .goOn (hm.ready.trans hr) hout' hres', h₁, rfl⟩
  | code hs =>
    obtain ⟨m₁', hs', h₁⟩ := hm.code hs hsuits
    exact ⟨_, .code hs', h₁, rfl⟩
  | suspend hs =>
    obtain ⟨m₁', hs', h₁⟩ := hm.suspends hs hsuits
    exact ⟨_, .suspend hs', h₁.checkIn _ _, rfl⟩
  | @finish m id ticket result => exact ⟨_, .finish, hm.finish ticket, rfl⟩
  | @tick m time hr hnext =>
    have hnext' := hm.next?
    rw [hnext] at hnext'
    exact ⟨_, .tick (hm.ready.trans hr) hnext', hm.advance, rfl⟩

end Steps

variable {t : Statement} {L : Ledger}

/-- Whatever leaf begins in a run of the program suits the variation. -/
def Fits (ν : Variation) (t : Statement) : Prop :=
  ∀ {L s s₁ job id action}, History t L s → Snapshot.Step s s₁ → s.Begins job (.leaf id action) →
    ν.Suits s.machine action

theorem Mirrors.busySteps (hfits : ν.Fits t) (h : ν.Mirrors s s') (hL : History t L s)
    (hs : Snapshot.BusySteps s s₁) : ∃ s₁', Snapshot.BusySteps s' s₁' ∧ ν.Mirrors s₁ s₁' := by
  induction hs with
  | refl => exact ⟨s', .refl, h⟩
  | tail hsteps hstep ih =>
    obtain ⟨s₁', hsteps', h₁⟩ := ih
    obtain ⟨L₁, hL₁, -⟩ := hL.steps (Snapshot.BusySteps.steps hsteps)
    obtain ⟨s₂', hstep', h₂⟩ := h₁.step hstep.step (hfits hL₁ hstep.step)
    refine ⟨s₂', hsteps'.tail ⟨hstep', fun hidle => ?_⟩, h₂⟩
    rw [h₁.machine.ready]
    exact hstep.ready (Focus.idle_of_vary (h₁.focus.symm.trans hidle))

namespace Follows

theorem drain (h : ν.Follows m m') (hfits : ν.Fits t) (hL : History t L ⟨m, .idle⟩) :
    ν.Follows m.drain m'.drain := by
  have hstart : ν.Mirrors ⟨m, .idle⟩ ⟨m', .idle⟩ := ⟨h, rfl⟩
  obtain ⟨⟨r, focus⟩, hsteps, hr, rfl⟩ := hstart.busySteps hfits hL (Snapshot.busySteps_drain m)
  have hready : r.dispatcher.ready = [] := hr.ready.trans (Machine.ready_drain m)
  exact Snapshot.BusySteps.eq_drain hsteps hready ▸ hr

theorem stopOr (h : ν.Follows m m') (limits : Limits) {next next' : StopReason × ProgramMachine}
    (hnext : ∀ time, m.timetable.clock.next? = some time →
      next'.1 = next.1 ∧ ν.Follows next.2 next'.2) :
    (m'.stopOr (limits.paced ν.pace) Statement.hasEnded next').1 =
        (m.stopOr limits Statement.hasEnded next).1 ∧
      ν.Follows (m.stopOr limits Statement.hasEnded next).2
        (m'.stopOr (limits.paced ν.pace) Statement.hasEnded next').2 := by
  have hpolls : (limits.paced ν.pace).maxPolls = limits.maxPolls := rfl
  have hhorizon (time : Nat) : (limits.paced ν.pace).horizon < ν.pace * time ↔ limits.horizon < time :=
    Nat.mul_lt_mul_left h.paced.timetable.pos
  unfold Machine.stopOr
  rw [h.hasEnded, h.polls, hpolls, h.next?]
  split
  · exact ⟨rfl, h⟩
  · split
    · exact ⟨rfl, h⟩
    · cases hfirst : m.timetable.clock.next? with
      | none => exact ⟨rfl, h⟩
      | some time =>
        simp only [Option.map_some, Option.elim_some, hhorizon]
        split
        · exact ⟨rfl, h⟩
        · exact hnext time hfirst

theorem runFor (h : ν.Follows m m') (hfits : ν.Fits t) (hL : History t L ⟨m, .idle⟩) (limits : Limits)
    (n : Nat) :
    (m'.runFor (limits.paced ν.pace) Statement.hasEnded n).1 = (m.runFor limits Statement.hasEnded n).1 ∧
      ν.Follows (m.runFor limits Statement.hasEnded n).2
        (m'.runFor (limits.paced ν.pace) Statement.hasEnded n).2 := by
  have hdrained := h.drain hfits hL
  induction n generalizing L m m' with
  | zero =>
    rw [Machine.runFor_zero, Machine.runFor_zero]
    exact hdrained.stopOr limits fun _ _ => ⟨rfl, hdrained.advance⟩
  | succ n ih =>
    rw [Machine.runFor_succ, Machine.runFor_succ]
    refine hdrained.stopOr limits fun time hnext => ?_
    obtain ⟨L₁, hL₁, -⟩ := hL.steps (Snapshot.steps_drain m)
    obtain ⟨L₂, hL₂, -⟩ := hL₁.step (.tick (Machine.ready_drain m) hnext)
    exact ih hdrained.advance hL₂ (hdrained.advance.drain hfits hL₂)

end Follows

theorem follows_loaded (hpos : 0 < ν.pace) (t : Statement) : ν.Follows t.loaded (t.vary ν).loaded := by
  have hloaded : ν.machine t.loaded = (t.vary ν).loaded := by
    unfold Statement.loaded machine
    rw [Machine.recast_spawn]
    simp [Machine.recast, Dispatcher.recast, Machine.root, Machine.newJob, Machine.newSignal,
      Machine.start, Dispatcher.empty, Machine.updateEnv, ProgramEnv.paced, Task.recast,
      ProgramFrame.vary, Statement.varyBody]
  exact .of_eq hloaded (.intro (.start hpos))

end Variation

/-- A variation that fits changes nothing about an evaluation but the pace. -/
theorem Statement.evaluateWithin_vary {ν : Variation} {t : Statement} (hpos : 0 < ν.pace) (hfits : ν.Fits t)
    (limits : Limits) : (t.vary ν).evaluateWithin (limits.paced ν.pace) =
      (t.evaluateWithin limits).paced ν.pace := by
  obtain ⟨hreason, hmachine⟩ : ((t.vary ν).runWith (limits.paced ν.pace)).1 = (t.runWith limits).1 ∧
      ν.Follows (t.runWith limits).2 ((t.vary ν).runWith (limits.paced ν.pace)).2 :=
    (Variation.follows_loaded hpos t).runFor hfits .start limits limits.maxTimeslices
  unfold evaluateWithin
  generalize t.runWith limits = r at hreason hmachine ⊢
  generalize (t.vary ν).runWith (limits.paced ν.pace) = r' at hreason hmachine ⊢
  obtain ⟨reason, m⟩ := r
  obtain ⟨reason', m'⟩ := r'
  obtain rfl : reason' = reason := hreason
  have hevents : m'.env.trace.toList.filterMap TraceEntry.event? =
      (m.env.trace.toList.filterMap TraceEntry.event?).map fun event =>
        { event with time := ν.pace * event.time } := by
    have htrace : m'.env.trace = m.env.trace.map (TraceEntry.paced ν.pace) :=
      (congrArg ProgramEnv.trace hmachine.env).trans rfl
    rw [htrace, Array.toList_map, List.filterMap_map, List.map_filterMap]
    refine List.filterMap_congr fun e _ => ?_
    obtain ⟨s, mark, time⟩ := e
    cases mark <;> rfl
  have hending : m'.env.ending = m.env.ending.map fun ending => (ending.1, ν.pace * ending.2) :=
    (congrArg ProgramEnv.ending hmachine.env).trans rfl
  dsimp only
  rw [hevents, hending]
  cases reason' with
  | finished =>
    cases m.env.ending with
    | none => rfl
    | some ending => rfl
  | stuck | pastHorizon | outOfBudget => rfl

end RacePuzzle
