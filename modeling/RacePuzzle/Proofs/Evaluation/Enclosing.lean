import RacePuzzle.Proofs.Evaluation.Course
import RacePuzzle.Proofs.Evaluation.Finale
import RacePuzzle.Proofs.Machine.Closing
import RacePuzzle.Proofs.Machine.Nesting

/-! A program in one more scope. If the program is a scope itself, the run goes the same way up to its end,
where nothing is left to happen in the scope around it: this settles at once and passes on the result. -/
namespace RacePuzzle

open Interpreter

/-- The program in a scope `w`. -/
def Statement.enclosed (w : StatementId) (t : Statement) : Statement := .block w .coroutineScope [t]

def Referent.inward : Referent → Referent
  | .task job => .task (RacePuzzle.inward job)
  | .deferred job result => .deferred (RacePuzzle.inward job) result
  | .bare signal => .bare (RacePuzzle.inward signal)

/-- The frame inside the scope `w`, which ends before the program does. -/
def ProgramFrame.enclosed (w : StatementId) : ProgramFrame → List ProgramFrame
  | .rest job body => [.rest (inward job) body]
  | .leave id => [.leave id]
  | .catching id kind => [.catching id kind]
  | .close job => [.close (inward job)]
  | .settle job => [.settle (inward job)]
  | .awaited id job text => [.awaited id (inward job) text]
  | .program => [.close 2, .leave w, .rest 0 [], .program]

def Task.enclosed (w : StatementId) (task : Task ProgramFrame) : Task ProgramFrame :=
  ⟨task.on.inward, task.frames.flatMap (ProgramFrame.enclosed w)⟩

def Progress.enclosed (w : StatementId) : Progress ProgramFrame → Progress ProgramFrame
  | .ended result => .ended result
  | .suspended on frames => .suspended on.inward (frames.flatMap (ProgramFrame.enclosed w))

def Focus.enclosed (w : StatementId) : Focus → Focus
  | .idle => .idle
  | .running seat ticket frames result =>
    .running seat ticket (frames.flatMap (ProgramFrame.enclosed w)) result

theorem Focus.idle_of_enclosed {w : StatementId} {focus : Focus} (h : focus.enclosed w = .idle) :
    focus = .idle := by
  cases focus with
  | idle => rfl
  | running => cases h

/-- The second machine runs the program in a scope `w` and has come as far as the first one. -/
structure Tracks (w : StatementId) (m m' : ProgramMachine) : Prop where
  nested : m.Nested (Task.enclosed w) m'
  background : m'.env.background = inward m.env.background
  handles : m'.env.handles = m.env.handles.map (Prod.map id Referent.inward)
  shows : ShowsSame m m'

structure TracksIn (w : StatementId) (r r' : ProgramReached) : Prop where
  progress : r'.1 = r.1.enclosed w
  machine : Tracks w r.2 r'.2

namespace Tracks

variable {w : StatementId} {m m' m₁ m₁' : ProgramMachine}

theorem keep (h : Tracks w m m') (hnested : m₁.Nested (Task.enclosed w) m₁') (henv : m₁.env = m.env)
    (henv' : m₁'.env = m'.env) : Tracks w m₁ m₁' where
  nested := hnested
  background := by rw [henv, henv', h.background]
  handles := by rw [henv, henv', h.handles]
  shows := by
    refine ⟨?_, by rw [henv, henv', h.shows.ending]⟩
    rw [prints_congr henv, prints_congr henv', h.shows.prints]

theorem record (h : Tracks w m m') (id : StatementId) (mark mark' : Mark)
    (hmark : ∀ time, TraceEntry.event? ⟨id, mark', time⟩ = TraceEntry.event? ⟨id, mark, time⟩) :
    Tracks w (record id mark m) (record id mark' m') where
  nested := h.nested.withEnv _ _
  background := h.background
  handles := h.handles
  shows := by
    refine ⟨?_, h.shows.ending⟩
    rw [prints_record, prints_record, h.shows.prints, h.nested.now, hmark]

theorem print (h : Tracks w m m') (id : StatementId) (value : String) :
    Tracks w (print id value m) (print id value m') := by
  unfold Interpreter.print
  rw [h.shows.ending]
  split
  · exact h.record id _ _ fun _ => rfl
  · exact h

theorem bind (h : Tracks w m m') (id : StatementId) (var : String) (handle : Referent) :
    Tracks w (bind id var handle m) (bind id var handle.inward m') := by
  refine record ?_ id _ _ fun _ => rfl
  exact {
    nested := h.nested.withEnv _ _
    background := h.background
    handles := congrArg ((var, handle.inward) :: ·) h.handles
    shows := ⟨h.shows.prints, h.shows.ending⟩ }

theorem refer (h : Tracks w m m') (id : StatementId) (var : String) :
    (refer id var m').1 = (refer id var m).1.map Referent.inward ∧
      Tracks w (refer id var m).2 (refer id var m').2 := by
  refine ⟨?_, h.record id _ _ fun _ => rfl⟩
  have hlookup := lookup_map Function.injective_id Referent.inward m.env.handles var
  rwa [← h.handles] at hlookup

theorem signal? (h : Tracks w m m') (handle : Referent) :
    signal? handle.inward m' = (signal? handle m).map inward := by
  cases handle with
  | task job | deferred job => exact h.nested.completion job
  | bare => rfl

theorem cancel (h : Tracks w m m') {job : JobId} (hne : job ≠ 0) :
    Tracks w (m.cancel job) (m'.cancel (inward job)) :=
  h.keep (h.nested.cancel hne) (Machine.sameBonds_cancel ..).env (Machine.sameBonds_cancel ..).env

theorem fire (h : Tracks w m m') (signal : SignalId) :
    Tracks w (m.fire signal) (m'.fire (inward signal)) :=
  h.keep (h.nested.fire signal) (Machine.env_fire ..) (Machine.env_fire ..)

theorem newSignal (h : Tracks w m m') :
    m'.newSignal.1 = inward m.newSignal.1 ∧ Tracks w m.newSignal.2 m'.newSignal.2 :=
  ⟨h.nested.newSignal.1, h.keep h.nested.newSignal.2 rfl rfl⟩

theorem child (h : Tracks w m m') (parent : JobId) (role : JobRole)
    (hrole : role = .task → parent ≠ 0) :
    (m'.child (inward parent) role).1 = inward (m.child parent role).1 ∧
      Tracks w (m.child parent role).2 (m'.child (inward parent) role).2 :=
  ⟨(h.nested.child parent role hrole).1, h.keep (h.nested.child parent role hrole).2 rfl rfl⟩

theorem launch (h : Tracks w m m') {parent : JobId} (hne : parent ≠ 0) (body : List Statement) :
    (launch (inward parent) body m').1 = inward (launch parent body m).1 ∧
      Tracks w (launch parent body m).2 (launch (inward parent) body m').2 := by
  obtain ⟨hjob, hchild⟩ := h.child parent .task fun _ => hne
  unfold Interpreter.launch
  dsimp only
  rw [hjob]
  exact ⟨rfl, hchild.keep (hchild.nested.spawn _) rfl rfl⟩

theorem settle (h : Tracks w m m') {job : JobId} (hne : job ≠ 0) :
    (m'.settle (inward job)).1 = (m.settle job).1 ∧
      Tracks w (m.settle job).2 (m'.settle (inward job)).2 :=
  ⟨(h.nested.settle hne).1, h.keep (h.nested.settle hne).2 (Snapshot.env_settle ..) (Snapshot.env_settle ..)⟩

theorem beginJoin (h : Tracks w m m') (ticket : Ticket) (job : JobId) (signal : SignalId) :
    (m'.beginJoin ticket (inward job) (inward signal)).1 =
        (m.beginJoin ticket job signal).1.inward ∧
      Tracks w (m.beginJoin ticket job signal).2
        (m'.beginJoin ticket (inward job) (inward signal)).2 :=
  ⟨(h.nested.beginJoin ticket job signal).1, h.keep (h.nested.beginJoin ticket job signal).2
    (beginJoin_cases ..).1 (beginJoin_cases ..).1⟩

theorem beginAwait (h : Tracks w m m') (ticket : Ticket) (job : JobId) (signal : SignalId) :
    (m'.beginAwait ticket (inward job) (inward signal)).1 =
        (m.beginAwait ticket job signal).1.inward ∧
      Tracks w (m.beginAwait ticket job signal).2
        (m'.beginAwait ticket (inward job) (inward signal)).2 :=
  ⟨(h.nested.beginAwait ticket job signal).1, h.keep (h.nested.beginAwait ticket job signal).2
    (beginAwait_cases ..).1 (beginAwait_cases ..).1⟩

theorem resumption (h : Tracks w m m') (ticket : Ticket) (on : Suspension)
    {result : Option (Except Interruption Unit)} (hres : m.resumption ticket on = (result, m₁)) :
    ∃ m₁', m'.resumption ticket on.inward = (result, m₁') ∧ Tracks w m₁ m₁' := by
  obtain ⟨hresult, hnested⟩ := h.nested.resumption ticket on
  have hresumed := h.keep hnested (Snapshot.env_resumption ..) (Snapshot.env_resumption ..)
  rw [hres] at hresult hresumed
  exact ⟨(m'.resumption ticket on.inward).2, Prod.ext hresult rfl, hresumed⟩

theorem advance (h : Tracks w m m') : Tracks w m.advance.2 m'.advance.2 :=
  h.keep h.nested.advance rfl rfl

theorem ready (h : Tracks w m m') : m'.dispatcher.ready = m.dispatcher.ready :=
  (congrArg Dispatcher.ready h.nested.dispatcher).trans rfl

theorem withDispatcher (h : Tracks w m m') {d d' : Dispatcher (Task ProgramFrame)}
    (hd : d' = d.recast (Task.enclosed w)) :
    Tracks w { m with dispatcher := d } { m' with dispatcher := d' } :=
  h.keep (hd ▸ h.nested.withDispatcher d) rfl rfl

theorem finish (h : Tracks w m m') (ticket : Ticket) :
    Tracks w { m with dispatcher := m.dispatcher.finish ticket }
      { m' with dispatcher := m'.dispatcher.finish ticket } :=
  h.withDispatcher (congrArg (Dispatcher.finish · ticket) h.nested.dispatcher)

theorem checkIn (h : Tracks w m m') (id : SeatId) (task : Task ProgramFrame) :
    Tracks w { m with dispatcher := m.dispatcher.checkIn id task }
      { m' with dispatcher := m'.dispatcher.checkIn id (task.enclosed w) } :=
  h.withDispatcher ((congrArg (Dispatcher.checkIn · id _) h.nested.dispatcher).trans
    (Dispatcher.recast_checkIn ..).symm)

theorem checkOut (h : Tracks w m m') (id : SeatId) (rest : List SeatId) :
    (Snapshot.withoutFirst m' rest).checkOut id =
      Prod.map (Option.map (Prod.map (fun ticket => ticket) (Task.enclosed w)))
        (Dispatcher.recast (Task.enclosed w)) ((Snapshot.withoutFirst m rest).checkOut id) := by
  unfold Snapshot.withoutFirst
  rw [h.nested.dispatcher]
  exact Dispatcher.checkOut_recast (Task.enclosed w) { m.dispatcher with ready := rest } id

theorem done (h : Tracks w m m') : TracksIn w (.done m) (.done m') := ⟨rfl, h⟩

theorem afterWait (frames : List ProgramFrame) {k k' : ProgramMachine → ProgramReached}
    {r r' : WaitStart × ProgramMachine} (hstart : r'.1 = r.1.inward) (hm : Tracks w r.2 r'.2)
    (hk : ∀ {m m'}, Tracks w m m' → TracksIn w (k m) (k' m')) :
    TracksIn w (afterWait frames k r)
      (afterWait (frames.flatMap (ProgramFrame.enclosed w)) k' r') := by
  obtain ⟨start, m⟩ := r
  obtain ⟨start', m'⟩ := r'
  obtain rfl : start' = start.inward := hstart
  cases start with
  | through => exact hk hm
  | refused why => exact ⟨rfl, hm⟩
  | suspended on => exact ⟨rfl, hm⟩

theorem printResult (h : Tracks w m m') (id : StatementId) (job : JobId) (result : String) :
    TracksIn w (printResult id job result m) (printResult id (inward job) result m') := by
  have hsame : (m'.job? (inward job)).bind (·.outcome) = (m.job? job).bind (·.outcome) := by
    rw [h.nested.job?]
    cases m.job? job <;> rfl
  have hrecorded := h.record id (.awaited ((m.job? job).bind (·.outcome)))
    (.awaited ((m.job? job).bind (·.outcome))) fun _ => rfl
  unfold Interpreter.printResult
  dsimp only
  rw [hsame]
  split
  · exact (hrecorded.print id result).done
  · exact ⟨rfl, hrecorded⟩

theorem performAction (h : Tracks w m m') (hh : HandlesKnown m) (ticket : Ticket) (job : JobId)
    (id : StatementId) (action : Action) :
    TracksIn w (performAction ticket job id action m)
      (performAction ticket (inward job) id action m') := by
  cases action with
  | delay time =>
    obtain ⟨hstart, hbegun⟩ := h.nested.beginDelay ticket job time
    exact afterWait [] hstart (h.keep hbegun (env_beginDelay ..) (env_beginDelay ..)) done
  | print text => exact (h.print id text).done
  | throwException kind => exact ⟨rfl, h⟩
  | job var =>
    obtain ⟨hsignal, hnew⟩ := h.newSignal
    unfold Interpreter.performAction
    dsimp only
    rw [hsignal]
    exact (hnew.bind id var (.bare _)).done
  | join var =>
    obtain ⟨hhandle, hreferred⟩ := h.refer id var
    have hsignal : (Interpreter.refer id var m').1.bind
          (Interpreter.signal? · (Interpreter.refer id var m').2) =
        ((Interpreter.refer id var m).1.bind
          (Interpreter.signal? · (Interpreter.refer id var m).2)).map inward := by
      rw [hhandle]
      cases (Interpreter.refer id var m).1 with
      | none => rfl
      | some handle => exact hreferred.signal? handle
    unfold Interpreter.performAction
    dsimp only
    rw [hsignal]
    cases (Interpreter.refer id var m).1.bind
      (Interpreter.signal? · (Interpreter.refer id var m).2) with
    | none => exact hreferred.done
    | some signal =>
      obtain ⟨hstart, hjoined⟩ := hreferred.beginJoin ticket job signal
      exact afterWait [] hstart hjoined done
  | cancel var =>
    obtain ⟨hhandle, hreferred⟩ := h.refer id var
    unfold Interpreter.performAction
    dsimp only
    rw [hhandle]
    cases hl : (Interpreter.refer id var m).1 with
    | none => exact hreferred.done
    | some handle =>
      have hknown : Known m handle := known_of_lookup hh hl
      cases handle with
      | task target | deferred target =>
        exact (hreferred.cancel (Nat.ne_zero_of_lt hknown.1)).done
      | bare signal => exact (hreferred.fire signal).done
  | completeJob var =>
    obtain ⟨hhandle, hreferred⟩ := h.refer id var
    unfold Interpreter.performAction
    dsimp only
    rw [hhandle]
    cases (Interpreter.refer id var m).1 with
    | none => exact hreferred.done
    | some handle =>
      cases handle with
      | task | deferred => exact hreferred.done
      | bare signal => exact (hreferred.fire signal).done
  | printAwait var text =>
    obtain ⟨hhandle, hreferred⟩ := h.refer id var
    unfold Interpreter.performAction
    dsimp only
    rw [hhandle]
    cases (Interpreter.refer id var m).1 with
    | none => exact (hreferred.print id text).done
    | some handle =>
      cases handle with
      | task | bare => exact (hreferred.print id text).done
      | deferred target result =>
        have hcompletion := hreferred.nested.completion target
        dsimp only [Option.map_some, Referent.inward]
        rw [hcompletion]
        cases ((Interpreter.refer id var m).2.job? target).map (·.completion) with
        | none => exact hreferred.done
        | some signal =>
          obtain ⟨hstart, hawaited⟩ := hreferred.beginAwait ticket job signal
          exact afterWait [.awaited id target result] hstart hawaited fun h =>
            h.printResult id target result

theorem close (h : Tracks w m m') (ticket : Ticket) {job : JobId} (hne : job ≠ 0)
    (result : Completion) :
    TracksIn w (Interpreter.close ticket job result m)
      (Interpreter.close ticket (inward job) result m') := by
  obtain ⟨houtcome, hnested⟩ := h.nested.close ticket hne result
  have henv := Snapshot.env_close m ticket job result
  have henv' := Snapshot.env_close m' ticket (inward job) result
  unfold Interpreter.close Reached.afterClose at henv henv' ⊢
  generalize m.close ticket job result = r at houtcome hnested henv ⊢
  generalize m'.close ticket (inward job) result = r' at houtcome hnested henv' ⊢
  obtain ⟨outcome, m₁⟩ := r
  obtain ⟨outcome', m₁'⟩ := r'
  obtain rfl : outcome' = outcome := houtcome
  cases outcome' <;> exact ⟨rfl, h.keep hnested henv henv'⟩

theorem catchException (h : Tracks w m m') (id : StatementId) (kind : ExceptionKind)
    (result : Completion) :
    TracksIn w (catchException id kind result m) (catchException id kind result m') := by
  unfold Interpreter.catchException
  split
  · exact h.done
  · split
    · exact (h.print id _).done
    · exact ⟨rfl, h⟩

theorem enter (h : Tracks w m m') (job : JobId) (id : StatementId) (head : Head)
    (body : List Statement) (hhead : job = 0 → head = .coroutineScope)
    (hbackground : m.env.background = 1) :
    (enter (inward job) id head body m').1 =
        (enter job id head body m).1.flatMap (ProgramFrame.enclosed w) ∧
      Tracks w (enter job id head body m).2 (enter (inward job) id head body m').2 := by
  have hne (hother : head ≠ .coroutineScope) : job ≠ 0 := mt hhead hother
  unfold Interpreter.enter
  cases head with
  | launch => exact ⟨rfl, (h.launch (hne nofun) body).2⟩
  | scopeLaunch =>
    dsimp only
    rw [h.background]
    exact ⟨rfl, (h.launch (by rw [hbackground]; decide) body).2⟩
  | launchJob var =>
    obtain ⟨hjob, hlaunched⟩ := h.launch (hne nofun) body
    dsimp only
    rw [hjob]
    exact ⟨rfl, hlaunched.bind id var (.task _)⟩
  | async var result =>
    obtain ⟨hjob, hlaunched⟩ := h.launch (hne nofun) body
    dsimp only
    rw [hjob]
    exact ⟨rfl, hlaunched.bind id var (.deferred _ result)⟩
  | coroutineScope =>
    obtain ⟨hscope, hchild⟩ := h.child job .scope nofun
    dsimp only
    rw [hscope]
    exact ⟨rfl, hchild⟩
  | supervisorScope =>
    obtain ⟨hscope, hchild⟩ := h.child job .supervisor nofun
    dsimp only
    rw [hscope]
    exact ⟨rfl, hchild⟩
  | tryCatch kind => exact ⟨rfl, h⟩

end Tracks

variable {w id : StatementId} {body : List Statement} {L L' : Ledger} {m m' m₁ : ProgramMachine}
  {s s' s₁ : Snapshot}

section Steps

variable {seat : SeatId} {ticket : Ticket} {frames frames₁ : List ProgramFrame}
  {result result₁ : Completion} {on : Suspension} {r : ProgramReached}

theorem TracksIn.ended (h : TracksIn w (.ended result, m) r) :
    ∃ m', r = (.ended result, m') ∧ Tracks w m m' :=
  ⟨r.2, Prod.ext h.progress rfl, h.machine⟩

theorem TracksIn.suspended (h : TracksIn w (.suspended on frames, m) r) :
    ∃ m', r = (.suspended on.inward (frames.flatMap (ProgramFrame.enclosed w)), m') ∧
      Tracks w m m' :=
  ⟨r.2, Prod.ext h.progress rfl, h.machine⟩

theorem Tracks.code (h : Tracks w m m')
    (hup : Snapshot.Upheld (.block id .coroutineScope body) L ⟨m, .running seat ticket frames result⟩)
    (hno : ∀ outer, frames ≠ .program :: outer)
    (hs : Thread.Step ticket ⟨frames, result, m⟩ ⟨frames₁, result₁, m₁⟩) :
    ∃ m₁', Thread.Step ticket ⟨frames.flatMap (ProgramFrame.enclosed w), result, m'⟩
      ⟨frames₁.flatMap (ProgramFrame.enclosed w), result₁, m₁'⟩ ∧ Tracks w m₁ m₁' := by
  cases hs with
  | @pass frame _ _ _ hframe =>
    cases frame with
    | rest | leave | awaited => exact ⟨m', .pass rfl, h⟩
    | _ => cases hframe
  | bodyEnd => exact ⟨m', .bodyEnd, h⟩
  | @act job id' action rest outer _ _ _ he =>
    have hin := (h.record id' .began .began fun _ => rfl).performAction
      hup.handles ticket job id' action
    rw [he] at hin
    obtain ⟨m₁', he', h₁⟩ := hin.ended
    exact ⟨m₁', .act he', h₁⟩
  | @enter job id' head inner rest outer =>
    have hhead : job = 0 → head = .coroutineScope := by
      rintro rfl
      have hroot := hup.ledger.eq_root rfl hup.begin.2.2
      exact (Statement.block.inj hroot).2.1
    obtain ⟨hframes, h₁⟩ := (h.record id' .began .began fun _ => rfl).enter
      job id' head inner hhead hup.background
    refine ⟨_, ?_, h₁⟩
    rw [List.flatMap_append, ← hframes]
    exact .enter
  | leave => exact ⟨_, .leave, h.record _ _ _ fun _ => rfl⟩
  | @catching id' kind _ _ _ _ _ he =>
    have hin := h.catchException id' kind result
    rw [he] at hin
    obtain ⟨m₁', he', h₁⟩ := hin.ended
    exact ⟨m₁', .catching he', h₁⟩
  | @close job _ _ _ _ _ he =>
    have hin := h.close ticket (Nat.ne_zero_of_lt hup.runs_close.1) result
    rw [he] at hin
    obtain ⟨m₁', he', h₁⟩ := hin.ended
    exact ⟨m₁', .close he', h₁⟩
  | @settle job =>
    have htwo : 2 ≤ job := by
      cases (hup.polled rfl).ready with
      | runs hr => cases hr
      | settling hr _ _ =>
        cases hr with
        | task hj _ _ _ | scope hj _ _ _ => exact hj
    obtain ⟨houtcome, h₁⟩ := h.settle (Nat.ne_zero_of_lt htwo)
    refine ⟨_, ?_, h₁⟩
    rw [← houtcome]
    exact .settle
  | @awaited id' job text _ _ _ _ he =>
    have hin := h.printResult id' job text
    rw [he] at hin
    obtain ⟨m₁', he', h₁⟩ := hin.ended
    exact ⟨m₁', .awaited he', h₁⟩
  | program => exact absurd rfl (hno _)

theorem Tracks.suspends (h : Tracks w m m')
    (hup : Snapshot.Upheld (.block id .coroutineScope body) L ⟨m, .running seat ticket frames result⟩)
    (hs : Thread.Suspends ticket ⟨frames, result, m⟩ on frames₁ m₁) :
    ∃ m₁', Thread.Suspends ticket ⟨frames.flatMap (ProgramFrame.enclosed w), result, m'⟩ on.inward
      (frames₁.flatMap (ProgramFrame.enclosed w)) m₁' ∧ Tracks w m₁ m₁' := by
  cases hs with
  | @act job id' action rest outer _ _ _ _ he =>
    have hin := (h.record id' .began .began fun _ => rfl).performAction
      hup.handles ticket job id' action
    rw [he] at hin
    obtain ⟨m₁', he', h₁⟩ := hin.suspended
    refine ⟨m₁', ?_, h₁⟩
    rw [List.flatMap_append]
    exact .act he'
  | @close job _ _ _ _ _ _ he =>
    have hin := h.close ticket (Nat.ne_zero_of_lt hup.runs_close.1) result
    rw [he] at hin
    obtain ⟨m₁', he', h₁⟩ := hin.suspended
    refine ⟨m₁', ?_, h₁⟩
    rw [List.flatMap_append]
    exact .close he'

end Steps

/-- The second state is that of the enclosed program where the first one is that of the original. -/
structure Snapshot.Tracks (w : StatementId) (s s' : Snapshot) : Prop where
  machine : RacePuzzle.Tracks w s.machine s'.machine
  focus : s'.focus = s.focus.enclosed w

/-- Every step before the end has a counterpart. -/
theorem Snapshot.Tracks.step (h : s.Tracks w s') (hup : s.Upheld (.block id .coroutineScope body) L)
    (hno : ∀ result, ¬ s.Ends .program result) (hs : Snapshot.Step s s₁) :
    ∃ s₁', Snapshot.Step s' s₁' ∧ s₁.Tracks w s₁' := by
  obtain ⟨m', focus'⟩ := s'
  obtain ⟨hm, rfl⟩ : RacePuzzle.Tracks w s.machine m' ∧ focus' = s.focus.enclosed w :=
    ⟨h.machine, h.focus⟩
  cases hs with
  | @skip m id rest d hr hout =>
    have hout' := hm.checkOut id rest
    rw [hout] at hout'
    exact ⟨_, .skip (hm.ready.trans hr) hout', hm.withDispatcher rfl, rfl⟩
  | @sleepOn m id rest d ticket task m₁ hr hout hres =>
    have hout' := hm.checkOut id rest
    rw [hout] at hout'
    obtain ⟨m₁', hres', h₁⟩ := (hm.withDispatcher (d := d) rfl).resumption ticket task.on hres
    exact ⟨_, .sleepOn (hm.ready.trans hr) hout' hres', h₁.checkIn id task, rfl⟩
  | @goOn m id rest d ticket task result m₁ hr hout hres =>
    have hout' := hm.checkOut id rest
    rw [hout] at hout'
    obtain ⟨m₁', hres', h₁⟩ := (hm.withDispatcher (d := d) rfl).resumption ticket task.on hres
    exact ⟨_, .goOn (hm.ready.trans hr) hout' hres', h₁, rfl⟩
  | code hs =>
    obtain ⟨m₁', hs', h₁⟩ := hm.code hup (fun outer he => hno _ ⟨_, _, outer, by rw [he]⟩) hs
    exact ⟨_, .code hs', h₁, rfl⟩
  | suspend hs =>
    obtain ⟨m₁', hs', h₁⟩ := hm.suspends hup hs
    exact ⟨_, .suspend hs', h₁.checkIn _ _, rfl⟩
  | @finish m id ticket result => exact ⟨_, .finish, hm.finish ticket, rfl⟩
  | @tick m time hr hnext =>
    have hnext' : m'.timetable.clock.next? = some time :=
      (congrArg (·.clock.next?) hm.nested.timetable).trans hnext
    exact ⟨_, .tick (hm.ready.trans hr) hnext', hm.advance, rfl⟩

/-- A scope in which nothing is left to happen settles at once with the result of its code. -/
theorem Tracks.exists_close_root (h : Tracks w m m') (hsound : m'.Sound)
    (hnil : ∀ {job}, m.job? 0 = some job → job.children = []) (ticket : Ticket) (result : Completion) :
    ∃ m₁', Interpreter.close ticket 2 result m' = (.ended result, m₁') := by
  obtain ⟨root, hroot, hkind, hcancelled, hfailure⟩ := h.nested.aloof.root
  have hjob : m'.job? 2 = some (root.nested 0) := h.nested.job_of hroot
  have hchildren : (root.nested 0).children = [] := congrArg (List.map inward) (hnil hroot)
  have hrole : (root.nested 0).kind ≠ .task := fun htask => by cases hkind.symm.trans htask
  obtain ⟨outcome, m₁', hclose, hquits⟩ := Machine.exists_quits_close hsound hjob
    ⟨hcancelled, hfailure⟩ hchildren (.inr hrole) ticket
  refine ⟨m₁', ?_⟩
  unfold Interpreter.close Reached.afterClose
  rw [hclose, ← hquits.completion]

/-- The statement `w` ends with what its body ended with. -/
theorem exists_steps_leave (ticket : Ticket) (w : StatementId) (job : JobId) (outer : List ProgramFrame)
    (result : Completion) (m : ProgramMachine) :
    ∃ m₁, Thread.Steps ticket ⟨.leave w :: .rest job [] :: outer, result, m⟩ ⟨outer, result, m₁⟩ ∧
      ShowsSame m m₁ ∧ m₁.now = m.now := by
  cases result with
  | ok =>
    exact ⟨Interpreter.record w .ended m, .head .leave (.single .bodyEnd),
      ⟨prints_record_ended w m, rfl⟩, rfl⟩
  | error kind => exact ⟨m, .head (.pass rfl) (.single (.pass rfl)), .refl m, rfl⟩

/-- When the program ends, the enclosed program ends as well. -/
theorem Snapshot.Tracks.ends (h : s.Tracks w s')
    (hL : History (.block id .coroutineScope body) L s)
    (hL' : History ((Statement.block id .coroutineScope body).enclosed w) L' s')
    (hs : Snapshot.Step s s₁) {result : Completion} (hends : s.Ends .program result) :
    ∃ s₁', Snapshot.BusySteps s' s₁' ∧ ShowsSame s₁.machine s₁'.machine ∧
      s₁.machine.env.ending.isSome := by
  have hended := isSome_ending_of_program hs hends
  obtain ⟨m, focus⟩ := s
  obtain ⟨m', focus'⟩ := s'
  obtain ⟨seat, ticket, outer, rfl⟩ :
      ∃ seat ticket outer, focus = .running seat ticket (.program :: outer) result := hends
  obtain ⟨hm, rfl⟩ : RacePuzzle.Tracks w m m' ∧ focus' = Focus.enclosed w
    (.running seat ticket (.program :: outer) result) := ⟨h.machine, h.focus⟩
  obtain rfl : s₁ = ⟨endProgram result m, .running seat ticket outer result⟩ :=
    hs.unique (.code .program)
  have hup := hL.upheld
  have hnil {job : Job} (hjob : m.job? 0 = some job) : job.children = [] := by
    refine List.eq_nil_iff_forall_not_mem.2 fun c hc => ?_
    have htwo : 2 ≤ c := hm.nested.aloof.children hjob hc
    obtain ⟨hopen, o, ho, hparent⟩ := hup.listed (Machine.bond?_of_job? hjob) hc htwo
    exact hL.not_isOpen_of_ends rfl rfl htwo ho hparent hopen
  obtain ⟨m₁', hclose⟩ := hm.exists_close_root hL'.upheld.sound hnil ticket result
  have hstep : Thread.Step ticket ⟨(ProgramFrame.program :: outer).flatMap (ProgramFrame.enclosed w),
      result, m'⟩ ⟨.leave w :: .rest 0 [] :: .program :: outer.flatMap (ProgramFrame.enclosed w),
      result, m₁'⟩ := .close hclose
  have henv : m₁'.env = m'.env := by
    have henv := Snapshot.env_close m' ticket 2 result
    rwa [hclose] at henv
  obtain ⟨m₂', hleave, hshows, hnow⟩ := exists_steps_leave ticket w 0
    (.program :: outer.flatMap (ProgramFrame.enclosed w)) result m₁'
  have hsame : m₂'.now = m.now :=
    hnow.trans ((Snapshot.stamps_code hstep).now.trans hm.nested.now)
  refine ⟨⟨endProgram result m₂', _⟩, .ofThread (.head hstep (hleave.tail .program)), ?_, hended⟩
  exact showsSame_endProgram ((hm.shows.trans (.ofEnv henv)).trans hshows) hsame result

/-- The enclosed program has come as far as the original, or both have ended and shown the same. -/
inductive Snapshot.Matches (w : StatementId) (s s' : Snapshot) : Prop
  | going : s.Tracks w s' → Matches w s s'
  | ended : s.machine.env.ending.isSome → ShowsSame s.machine s'.machine → Matches w s s'

namespace Snapshot.Matches

theorem shows (h : s.Matches w s') : ShowsSame s.machine s'.machine := by
  cases h with
  | going h => exact h.machine.shows
  | ended _ h => exact h

theorem busySteps (h : s.Matches w s') (hL : History (.block id .coroutineScope body) L s)
    (hL' : History ((Statement.block id .coroutineScope body).enclosed w) L' s')
    (hs : BusySteps s s₁) : ∃ s₁', BusySteps s' s₁' ∧ s₁.Matches w s₁' := by
  induction hs with
  | refl => exact ⟨s', .refl, h⟩
  | @tail s₁ s₂ hsteps hstep ih =>
    obtain ⟨s₁', hsteps', h₁⟩ := ih
    obtain ⟨L₁, hL₁, -⟩ := hL.steps (BusySteps.steps hsteps)
    obtain ⟨L₁', hL₁', -⟩ := hL'.steps (BusySteps.steps hsteps')
    cases h₁ with
    | going h₁ =>
      by_cases hends : ∃ result, s₁.Ends .program result
      · obtain ⟨result, hends⟩ := hends
        obtain ⟨s₂', hmore, hshows, hended⟩ := h₁.ends hL₁ hL₁' hstep.step hends
        exact ⟨s₂', hsteps'.trans hmore, .ended hended hshows⟩
      · obtain ⟨s₂', hstep', h₂⟩ := h₁.step hL₁.upheld (not_exists.1 hends) hstep.step
        refine ⟨s₂', hsteps'.tail ⟨hstep', fun hidle => ?_⟩, .going h₂⟩
        rw [h₁.machine.ready]
        exact hstep.ready (Focus.idle_of_enclosed (h₁.focus.symm.trans hidle))
    | ended hended hshows =>
      have hsame := hL₁.showsSame_step hended hstep.step
      exact ⟨s₁', hsteps', .ended (hsame.ending ▸ hended) (hsame.symm.trans hshows)⟩

theorem drain (h : s.Matches w s') (hL : History (.block id .coroutineScope body) L ⟨m, .idle⟩)
    (hL' : History ((Statement.block id .coroutineScope body).enclosed w) L' ⟨m', .idle⟩)
    (hs : BusySteps ⟨m, .idle⟩ s) (hs' : BusySteps ⟨m', .idle⟩ s') :
    Matches w ⟨m.drain, .idle⟩ ⟨m'.drain, .idle⟩ := by
  obtain ⟨L₁, hL₁, -⟩ := hL.steps (BusySteps.steps hs)
  obtain ⟨L₁', hL₁', -⟩ := hL'.steps (BusySteps.steps hs')
  obtain ⟨⟨r, focus⟩, hsteps, h₁⟩ := h.busySteps hL₁ hL₁' hs.to_drain
  cases h₁ with
  | going h₁ =>
    obtain rfl : focus = .idle := h₁.focus
    have hready : r.dispatcher.ready = [] := h₁.machine.ready.trans (Machine.ready_drain m)
    obtain rfl := BusySteps.eq_drain (hs'.trans hsteps) hready
    exact .going h₁
  | ended hended hshows =>
    obtain ⟨L₂', hL₂', -⟩ := hL₁'.steps (BusySteps.steps hsteps)
    have hlast := hL₂'.showsSame_steps (hshows.ending ▸ hended)
      (BusySteps.steps (BusySteps.to_drain (hs'.trans hsteps)))
    exact .ended hended (hshows.trans hlast)

theorem stopOr (h : Matches w ⟨m, .idle⟩ ⟨m', .idle⟩) (limits : Limits)
    {next next' : StopReason × ProgramMachine}
    (hnext : ∀ time, m.timetable.clock.next? = some time → RacePuzzle.Tracks w m m' →
      Agree next next') :
    Agree (m.stopOr limits Statement.hasEnded next) (m'.stopOr limits Statement.hasEnded next') := by
  have hshows := h.shows
  have hsame : Statement.hasEnded m' = Statement.hasEnded m :=
    congrArg Option.isSome hshows.ending
  unfold Machine.stopOr
  rw [hsame]
  split
  · exact .of_shows rfl hshows
  · next hrunning =>
    cases h with
    | ended hended _ => exact absurd hended hrunning
    | going h =>
      have hpolls : m'.dispatcher.polls = m.dispatcher.polls :=
        (congrArg Dispatcher.polls h.machine.nested.dispatcher).trans rfl
      have htimetable : m'.timetable = m.timetable := h.machine.nested.timetable
      rw [hpolls, htimetable]
      split
      · exact .of_shows rfl hshows
      · cases hfirst : m.timetable.clock.next? with
        | none => exact .of_shows rfl hshows
        | some time =>
          simp only [Option.elim_some]
          split
          · exact .of_shows rfl hshows
          · exact hnext time hfirst h.machine

theorem runFor (h : Matches w ⟨m.drain, .idle⟩ ⟨m'.drain, .idle⟩)
    (hL : History (.block id .coroutineScope body) L ⟨m, .idle⟩)
    (hL' : History ((Statement.block id .coroutineScope body).enclosed w) L' ⟨m', .idle⟩)
    (limits : Limits) (n : Nat) :
    Agree (m.runFor limits Statement.hasEnded n) (m'.runFor limits Statement.hasEnded n) := by
  induction n generalizing L L' m m' with
  | zero =>
    rw [Machine.runFor_zero, Machine.runFor_zero]
    exact h.stopOr limits fun _ _ hgoing => .of_shows rfl hgoing.advance.shows
  | succ n ih =>
    rw [Machine.runFor_succ, Machine.runFor_succ]
    refine h.stopOr limits fun time hnext hgoing => ?_
    have hnext' : m'.drain.timetable.clock.next? = some time :=
      (congrArg (·.clock.next?) hgoing.nested.timetable).trans hnext
    obtain ⟨L₁, hL₁, -⟩ := hL.steps (steps_drain m)
    obtain ⟨L₁', hL₁', -⟩ := hL'.steps (steps_drain m')
    obtain ⟨L₂, hL₂, -⟩ := hL₁.step (.tick (Machine.ready_drain m) hnext)
    obtain ⟨L₂', hL₂', -⟩ := hL₁'.step (.tick (Machine.ready_drain m') hnext')
    have hticked : Matches w ⟨m.drain.advance.2, .idle⟩ ⟨m'.drain.advance.2, .idle⟩ :=
      .going ⟨hgoing.advance, rfl⟩
    exact ih (hticked.drain hL₂ hL₂' .refl .refl) hL₂ hL₂'

end Snapshot.Matches

/-- The machine on which the program is about to begin, with its task out of its seat. -/
def Statement.begun (t : Statement) : ProgramMachine :=
  { t.loaded with dispatcher := ⟨#[⟨0, false, false⟩], #[⟨none, 0⟩], [], 1⟩ }

theorem busySteps_begun (t : Statement) : Snapshot.BusySteps t.initial
    ⟨t.begun, .running 0 0 [.rest 0 [t], .program] (.ok ())⟩ := by
  have hstep : Snapshot.Step ⟨t.loaded, .idle⟩ ⟨t.begun,
      .running 0 0 (Task.mk (.entry 0) [.rest 0 [t], .program]).frames (Suspension.handed (.ok ()))⟩ :=
    .goOn (d := t.begun.dispatcher) rfl rfl rfl
  exact .single (.of_ready hstep rfl)

/-- The enclosed program has come as far as the original when it has entered the scope `w`. -/
theorem tracks_begun (w : StatementId) (t : Statement) : RacePuzzle.Tracks w t.begun
    (enter 0 w .coroutineScope [t] (record w .began (t.enclosed w).begun)).2 where
  nested := {
    timetable := rfl
    signals := by
      refine ⟨Nat.le_refl 2, rfl, fun i => ?_⟩
      rcases i with _ | _ | i <;> rfl
    jobs := by
      refine ⟨Nat.le_refl 2, rfl, fun i => ?_⟩
      rcases i with _ | _ | i <;> rfl
    dispatcher := by
      unfold Dispatcher.recast Statement.begun
      rw [List.map_toArray]
      rfl
    aloof := by
      refine ⟨⟨_, rfl, rfl, rfl, rfl⟩, fun {c job} hc hkind => ?_, fun {p c job} hp hmem => ?_⟩
      · rcases c with _ | _ | c <;> cases hc <;> cases hkind
      · rcases p with _ | _ | p <;> cases hp <;> cases hmem }
  background := rfl
  handles := rfl
  shows := ⟨rfl, rfl⟩

/-- A scope around a program that is a scope itself is unobservable. -/
theorem outer_scope_is_unobservable (w id : StatementId) (body : List Statement) (limits : Limits) :
    ((Statement.block id .coroutineScope body).enclosed w).evaluateWithin limits =
      (Statement.block id .coroutineScope body).evaluateWithin limits := by
  have hbegun (t : Statement) : Snapshot.Tracks w
      ⟨t.begun, .running 0 0 [.rest 0 [t], .program] (.ok ())⟩
      ⟨(enter 0 w .coroutineScope [t] (record w .began (t.enclosed w).begun)).2,
        .running 0 0 [.rest 2 [t], .close 2, .leave w, .rest 0 [], .program] (.ok ())⟩ :=
    ⟨tracks_begun w t, rfl⟩
  have hdrained := (Snapshot.Matches.going (hbegun (.block id .coroutineScope body))).drain
    .start .start (busySteps_begun _) ((busySteps_begun _).tail (.of_running (.code .enter)))
  exact evaluateWithin_of_agree (hdrained.runFor .start .start limits limits.maxTimeslices)

end RacePuzzle
