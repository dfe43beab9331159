import Mathlib.Data.List.Forall2
import RacePuzzle.Proofs.Evaluation.Notes
import RacePuzzle.Proofs.Machine.InStep

/-! Programs without the declarations of handles that nobody uses and without the usages of handles
that nobody declares. A slimmed program goes through the same states as the whole one, except for the
signals of bare jobs that are gone and for what is written down about statements that are gone. -/
namespace RacePuzzle

open Interpreter

/-- The handles that a program may bind, and those that it may refer to. -/
structure HandleNames where
  declared : List String
  used : List String

namespace Statement

/-- `body'` is `body` without declarations of handles that are not used and usages of handles that are
not declared. Nothing in it declares or uses other handles than `vars` says. -/
inductive Slimmed (vars : HandleNames) : List Statement → List Statement → Prop
  | nil : Slimmed vars [] []
  | leaf {id action rest rest'} : (∀ var ∈ action.declares?, var ∈ vars.declared) →
      (∀ var ∈ action.uses?, var ∈ vars.used) → Slimmed vars rest rest' →
      Slimmed vars (.leaf id action :: rest) (.leaf id action :: rest')
  | block {id head inner inner' rest rest'} : (∀ var ∈ head.declares?, var ∈ vars.declared) →
      Slimmed vars inner inner' → Slimmed vars rest rest' →
      Slimmed vars (.block id head inner :: rest) (.block id head inner' :: rest')
  | drop {id var rest rest'} : var ∈ vars.declared → var ∉ vars.used → Slimmed vars rest rest' →
      Slimmed vars (.leaf id (.job var) :: rest) rest'
  /-- A launch loses its handle. -/
  | launch {id id' head inner inner' var rest rest'} : head.declares? = some var →
      var ∈ vars.declared → var ∉ vars.used → Slimmed vars inner inner' → Slimmed vars rest rest' →
      Slimmed vars (.block id head inner :: rest) (.block id' .launch inner' :: rest')
  /-- A usage of an unbound handle goes. -/
  | unbound {id action var rest rest'} : action.uses? = some var → var ∉ vars.declared →
      (leaf id action).printedText? = none → Slimmed vars rest rest' →
      Slimmed vars (.leaf id action :: rest) rest'
  /-- An awaited print of an unbound handle is a plain one. -/
  | print {id var text rest rest'} : var ∉ vars.declared → Slimmed vars rest rest' →
      Slimmed vars (.leaf id (.printAwait var text) :: rest) (.leaf id (.print text) :: rest')

end Statement

/-- Two frames are the same but for slimmed bodies and for who acts. -/
inductive ProgramFrame.Slimmed (vars : HandleNames) : ProgramFrame → ProgramFrame → Prop
  | rest {job body body'} : Statement.Slimmed vars body body' →
      Slimmed vars (.rest job body) (.rest job body')
  | leave {s s'} : Slimmed vars (.leave s) (.leave s')
  | catching {s s' kind} : Slimmed vars (.catching s kind) (.catching s' kind)
  | close {job} : Slimmed vars (.close job) (.close job)
  | settle {job} : Slimmed vars (.settle job) (.settle job)
  | awaited {s s' job text} : Slimmed vars (.awaited s job text) (.awaited s' job text)
  | program : Slimmed vars .program .program

structure Task.Slimmed (vars : HandleNames) (task task' : Task ProgramFrame) : Prop where
  on : task'.on = task.on
  frames : List.Forall₂ (ProgramFrame.Slimmed vars) task.frames task'.frames

inductive Progress.Slimmed (vars : HandleNames) :
    Progress ProgramFrame → Progress ProgramFrame → Prop
  | ended {result} : Slimmed vars (.ended result) (.ended result)
  | suspended {on frames frames'} : List.Forall₂ (ProgramFrame.Slimmed vars) frames frames' →
      Slimmed vars (.suspended on frames) (.suspended on frames')

/-- Two handles stand for the same, by the pairs of signals `R`. -/
inductive Referent.Matches (R : SignalId → SignalId → Prop) : Referent → Referent → Prop
  | task {job} : Matches R (.task job) (.task job)
  | deferred {job text} : Matches R (.deferred job text) (.deferred job text)
  | bare {s s'} : R s s' → Matches R (.bare s) (.bare s')

/-- The two seats have the same number, and their tasks are the same but for slimmed frames. -/
structure Seat.Slimmed (vars : HandleNames) (seat seat' : Seat (Task ProgramFrame)) : Prop where
  ticket : seat'.ticket = seat.ticket
  task : Option.Rel (Task.Slimmed vars) seat.task seat'.task

/-- The two dispatchers are in the same state, but for slimmed frames. -/
structure Dispatcher.Slimmed (vars : HandleNames) (d d' : Dispatcher (Task ProgramFrame)) : Prop where
  outline : d'.outline = d.outline
  size : d'.seats.size = d.seats.size
  seat : ∀ i : SeatId, Option.Rel (Seat.Slimmed vars) d.seats[i]? d'.seats[i]?

variable {vars : HandleNames} {R R' : SignalId → SignalId → Prop} {m m' m₁ m₁' : ProgramMachine}
  {d d' : Dispatcher (Task ProgramFrame)}

namespace Dispatcher

theorem Slimmed.tickets (h : Slimmed vars d d') : d'.tickets = d.tickets :=
  congrArg (fun o : Dispatcher Unit => o.tickets) h.outline

theorem Slimmed.ready (h : Slimmed vars d d') : d'.ready = d.ready :=
  congrArg (fun o : Dispatcher Unit => o.ready) h.outline

theorem Slimmed.polls (h : Slimmed vars d d') : d'.polls = d.polls :=
  congrArg (fun o : Dispatcher Unit => o.polls) h.outline

theorem Slimmed.set (h : Slimmed vars d d') (i : SeatId) {seat seat' : Seat (Task ProgramFrame)}
    (hseat : Seat.Slimmed vars seat seat') (k : SeatId) :
    Option.Rel (Seat.Slimmed vars) (d.seats.setIfInBounds i seat)[k]?
      (d'.seats.setIfInBounds i seat')[k]? := by
  rw [Array.getElem?_setIfInBounds, Array.getElem?_setIfInBounds, h.size]
  split
  · split
    · exact .some hseat
    · exact .none
  · exact h.seat k

theorem Slimmed.spawn (h : Slimmed vars d d') {task task' : Task ProgramFrame}
    (ht : Task.Slimmed vars task task') : Slimmed vars (d.spawn task) (d'.spawn task') := by
  refine ⟨?_, ?_, fun k => ?_⟩
  · unfold Dispatcher.outline Dispatcher.spawn
    rw [h.tickets, h.ready, h.polls, h.size]
  · simp [Dispatcher.spawn, h.size]
  · change Option.Rel _ (d.seats.push ⟨some task, d.tickets.size⟩)[k]?
      (d'.seats.push ⟨some task', d'.tickets.size⟩)[k]?
    rw [Array.getElem?_push, Array.getElem?_push, h.size, h.tickets]
    split
    · exact .some ⟨rfl, .some ht⟩
    · exact h.seat k

theorem Slimmed.checkOut (h : Slimmed vars d d') (i : SeatId) :
    Option.Rel (fun p p' => p'.1 = p.1 ∧ Task.Slimmed vars p.2 p'.2) (d.checkOut i).1
      (d'.checkOut i).1 ∧ Slimmed vars (d.checkOut i).2 (d'.checkOut i).2 := by
  have hseat := h.seat i
  unfold Dispatcher.checkOut
  generalize d.seats[i]? = found at hseat
  generalize d'.seats[i]? = found' at hseat
  cases hseat with
  | none => exact ⟨.none, h⟩
  | @some seat seat' hseat =>
    obtain ⟨task, ticket⟩ := seat
    obtain ⟨task', ticket'⟩ := seat'
    obtain ⟨hticket, htask⟩ := hseat
    obtain rfl : ticket' = ticket := hticket
    have ho : ({ d' with tickets := d'.tickets.modify ticket' ({ · with queued := false }) } :
        Dispatcher (Task ProgramFrame)).outline =
        ({ d with tickets := d.tickets.modify ticket' ({ · with queued := false }) } :
        Dispatcher (Task ProgramFrame)).outline := by
      unfold Dispatcher.outline
      rw [h.tickets, h.ready, h.polls]
    cases htask with
    | none => exact ⟨.none, ho, h.size, h.seat⟩
    | some htask =>
      refine ⟨.some ⟨rfl, htask⟩, ?_, by simp [h.size], h.set i ⟨rfl, .none⟩⟩
      exact congrArg (fun o : Dispatcher Unit => { o with polls := o.polls + 1 }) ho

theorem Slimmed.checkIn (h : Slimmed vars d d') (i : SeatId) {task task' : Task ProgramFrame}
    (ht : Task.Slimmed vars task task') : Slimmed vars (d.checkIn i task) (d'.checkIn i task') := by
  have hseat := h.seat i
  unfold Dispatcher.checkIn
  generalize d.seats[i]? = found at hseat
  generalize d'.seats[i]? = found' at hseat
  cases hseat with
  | none => exact h
  | @some seat seat' hseat =>
    exact ⟨h.outline, by simp [h.size], h.set i ⟨hseat.ticket, .some ht⟩⟩

theorem Slimmed.finish (h : Slimmed vars d d') (ticket : Ticket) :
    Slimmed vars (d.finish ticket) (d'.finish ticket) := by
  refine ⟨?_, h.size, h.seat⟩
  unfold Dispatcher.outline Dispatcher.finish
  rw [h.tickets, h.ready, h.polls]

end Dispatcher

theorem Referent.Matches.mono {handle handle' : Referent} (h : Matches R handle handle')
    (hR : ∀ s s', R s s' → R' s s') : Matches R' handle handle' := by
  cases h with
  | task => exact .task
  | deferred => exact .deferred
  | bare hs => exact .bare (hR _ _ hs)

/-- `m'` runs the slimmed program where `m` runs the whole one. -/
structure Slims (vars : HandleNames) (R : SignalId → SignalId → Prop) (m m' : ProgramMachine) :
    Prop where
  inStep : m.InStep R m'
  handle : ∀ var ∈ vars.used, Option.Rel (Referent.Matches R) (m.env.handles.lookup var)
    (m'.env.handles.lookup var)
  unbound : ∀ var ∉ vars.declared, m.env.handles.lookup var = none
  background : m'.env.background = m.env.background
  ending : m'.env.ending = m.env.ending
  prints : prints m' = prints m
  size : m'.dispatcher.seats.size = m.dispatcher.seats.size
  seat : ∀ i : SeatId, Option.Rel (Seat.Slimmed vars) m.dispatcher.seats[i]? m'.dispatcher.seats[i]?

def SlimsTo (vars : HandleNames) (r r' : ProgramReached) : Prop :=
  Progress.Slimmed vars r.1 r'.1 ∧ ∃ R, Slims vars R r.2 r'.2

/-- What changes neither the environment nor the seats may make more pairs of signals. -/
theorem Slims.mono (h : Slims vars R m m') (hstep : m₁.InStep R' m₁')
    (hR : ∀ s s', R s s' → R' s s') (he : m₁.env = m.env) (he' : m₁'.env = m'.env)
    (hs : m₁.dispatcher.seats = m.dispatcher.seats)
    (hs' : m₁'.dispatcher.seats = m'.dispatcher.seats) : Slims vars R' m₁ m₁' := by
  refine ⟨hstep, fun var hvar => ?_, by rw [he]; exact h.unbound, by rw [he, he']; exact h.background,
    by rw [he, he']; exact h.ending, by rw [prints_congr he, prints_congr he']; exact h.prints,
    by rw [hs, hs']; exact h.size, by rw [hs, hs']; exact h.seat⟩
  have hold := h.handle var hvar
  rw [he, he']
  generalize m.env.handles.lookup var = handle at hold
  generalize m'.env.handles.lookup var = handle' at hold
  cases hold with
  | none => exact .none
  | some hm => exact .some (hm.mono hR)

theorem Slims.along (h : Slims vars R m m') (hstep : m₁.InStep R m₁') (he : m₁.env = m.env)
    (he' : m₁'.env = m'.env) (hs : m₁.dispatcher.seats = m.dispatcher.seats)
    (hs' : m₁'.dispatcher.seats = m'.dispatcher.seats) : Slims vars R m₁ m₁' :=
  h.mono hstep (fun _ _ => id) he he' hs hs'

theorem Slims.recordLeft (h : Slims vars R m m') (id : StatementId) (mark : Mark)
    (hm : mark.IsSilent) : Slims vars R (record id mark m) m' :=
  ⟨⟨h.inStep.outline, h.inStep.signals, h.inStep.completion⟩, h.handle, h.unbound, h.background,
    h.ending, h.prints.trans (prints_record_silent hm id m).symm, h.size, h.seat⟩

theorem Slims.recordRight (h : Slims vars R m m') (id : StatementId) (mark : Mark)
    (hm : mark.IsSilent) : Slims vars R m (record id mark m') :=
  ⟨⟨h.inStep.outline, h.inStep.signals, h.inStep.completion⟩, h.handle, h.unbound, h.background,
    h.ending, (prints_record_silent hm id m').trans h.prints, h.size, h.seat⟩

theorem Slims.record (h : Slims vars R m m') (id id' : StatementId) (mark mark' : Mark)
    (hm : mark.IsSilent) (hm' : mark'.IsSilent) :
    Slims vars R (record id mark m) (record id' mark' m') :=
  (h.recordLeft id mark hm).recordRight id' mark' hm'

theorem Slims.print (h : Slims vars R m m') (id id' : StatementId) (value : String) :
    Slims vars R (print id value m) (print id' value m') := by
  unfold Interpreter.print
  rw [h.ending]
  split
  · refine ⟨⟨h.inStep.outline, h.inStep.signals, h.inStep.completion⟩, h.handle, h.unbound,
      h.background, h.ending, ?_, h.size, h.seat⟩
    rw [prints_record, prints_record, h.prints, h.inStep.now]
    rfl
  · exact h

/-- What is not declared stays unbound when a declared handle is bound. -/
theorem Slims.unbound_cons (h : Slims vars R m m') {var : String} (hvar : var ∈ vars.declared)
    (handle : Referent) (v : String) (hv : v ∉ vars.declared) :
    ((var, handle) :: m.env.handles).lookup v = none := by
  have hne : (v == var) = false := by
    rw [beq_eq_false_iff_ne]
    rintro rfl
    exact hv hvar
  rw [List.lookup_cons, hne]
  exact h.unbound v hv

theorem Slims.bindLeft (h : Slims vars R m m') {var : String} (hdeclared : var ∈ vars.declared)
    (hvar : var ∉ vars.used) (id : StatementId) (handle : Referent) :
    Slims vars R (Interpreter.bind id var handle m) m' := by
  have hbound : Slims vars R
      (m.updateEnv fun env => { env with handles := (var, handle) :: env.handles }) m' := by
    refine ⟨⟨h.inStep.outline, h.inStep.signals, h.inStep.completion⟩, fun v hv => ?_,
      h.unbound_cons hdeclared handle, h.background, h.ending, h.prints, h.size, h.seat⟩
    have hne : (v == var) = false := by
      rw [beq_eq_false_iff_ne]
      rintro rfl
      exact hvar hv
    change Option.Rel _ (((var, handle) :: m.env.handles).lookup v) _
    rw [List.lookup_cons, hne]
    exact h.handle v hv
  exact hbound.recordLeft id (.bound handle) trivial

theorem Slims.bind (h : Slims vars R m m') {handle handle' : Referent}
    (hm : handle.Matches R handle') {var : String} (hdeclared : var ∈ vars.declared)
    (id : StatementId) :
    Slims vars R (Interpreter.bind id var handle m) (Interpreter.bind id var handle' m') := by
  have hbound : Slims vars R
      (m.updateEnv fun env => { env with handles := (var, handle) :: env.handles })
      (m'.updateEnv fun env => { env with handles := (var, handle') :: env.handles }) := by
    refine ⟨⟨h.inStep.outline, h.inStep.signals, h.inStep.completion⟩, fun v hv => ?_,
      h.unbound_cons hdeclared handle, h.background, h.ending, h.prints, h.size, h.seat⟩
    change Option.Rel _ (((var, handle) :: m.env.handles).lookup v)
      (((var, handle') :: m'.env.handles).lookup v)
    rw [List.lookup_cons, List.lookup_cons]
    split
    · exact .some hm
    · exact h.handle v hv
  exact hbound.record id id (.bound handle) (.bound handle') trivial trivial

theorem Slims.completion (h : Slims vars R m m') (job : JobId) :
    Option.Rel R ((m.job? job).map (·.completion)) ((m'.job? job).map (·.completion)) := by
  cases hj : m.job? job with
  | none =>
    rw [h.inStep.job?_eq_none hj]
    exact .none
  | some j =>
    obtain ⟨s', hj', hs⟩ := h.inStep.exists_job? hj
    rw [hj']
    exact .some hs

theorem Slims.signal? (h : Slims vars R m m') {handle handle' : Referent}
    (hm : handle.Matches R handle') :
    Option.Rel R (Interpreter.signal? handle m) (Interpreter.signal? handle' m') := by
  cases hm with
  | task => exact h.completion _
  | deferred => exact h.completion _
  | bare hs => exact .some hs

theorem Slims.cancel (h : Slims vars R m m') (job : JobId) :
    Slims vars R (m.cancel job) (m'.cancel job) :=
  h.along (h.inStep.cancel job) (Machine.sameBonds_cancel m job).env
    (Machine.sameBonds_cancel m' job).env (Machine.seats_cancel ..) (Machine.seats_cancel ..)

theorem Slims.fire (h : Slims vars R m m') {s s' : SignalId} (hs : R s s') :
    Slims vars R (m.fire s) (m'.fire s') :=
  h.along (h.inStep.fire hs) (Machine.env_fire ..) (Machine.env_fire ..) (Machine.seats_fire ..)
    (Machine.seats_fire ..)

theorem Slims.newSignal (h : Slims vars R m m') :
    Slims vars (Extended R m.signals m'.signals) m.newSignal.2 m'.newSignal.2 :=
  h.mono h.inStep.newSignal (fun _ _ => .inl) rfl rfl rfl rfl

/-- The signal of a bare job that is gone. -/
theorem Slims.newSignalLeft (h : Slims vars R m m') : Slims vars R m.newSignal.2 m' :=
  ⟨h.inStep.newSignalLeft, h.handle, h.unbound, h.background, h.ending, h.prints, h.size, h.seat⟩

theorem Slims.child (h : Slims vars R m m') (parent : JobId) (kind : JobRole) :
    Slims vars (Extended R m.signals m'.signals) (m.child parent kind).2 (m'.child parent kind).2 :=
  h.mono (h.inStep.child parent kind).2 (fun _ _ => .inl) rfl rfl rfl rfl

theorem Slims.dispatcher (h : Slims vars R m m') :
    Dispatcher.Slimmed vars m.dispatcher m'.dispatcher :=
  ⟨congrArg (fun o : Machine Unit Unit => o.dispatcher) h.inStep.outline, h.size, h.seat⟩

theorem Slims.dispatch (h : Slims vars R m m') (hd : Dispatcher.Slimmed vars d d') :
    Slims vars R { m with dispatcher := d } { m' with dispatcher := d' } := by
  refine ⟨⟨?_, h.inStep.signals, h.inStep.completion⟩, h.handle, h.unbound, h.background, h.ending,
    h.prints, hd.size, hd.seat⟩
  have ho := congrArg (fun o : Machine Unit Unit => ({ o with dispatcher := d.outline } : Machine Unit Unit))
    h.inStep.outline
  rw [Machine.outline, hd.outline]
  exact ho

theorem Slims.spawn (h : Slims vars R m m') {task task' : Task ProgramFrame}
    (ht : Task.Slimmed vars task task') : Slims vars R (m.spawn task) (m'.spawn task') :=
  h.dispatch (h.dispatcher.spawn ht)

theorem Slims.done (h : Slims vars R m m') : SlimsTo vars (Reached.done m) (Reached.done m') :=
  ⟨.ended, R, h⟩

theorem slimsTo_afterWait {frames frames' : List ProgramFrame}
    {k : ProgramMachine → ProgramReached} {r r' : WaitStart × ProgramMachine} (hr : r'.1 = r.1)
    (h : Slims vars R r.2 r'.2) (hframes : List.Forall₂ (ProgramFrame.Slimmed vars) frames frames')
    (hk : SlimsTo vars (k r.2) (k r'.2)) :
    SlimsTo vars (afterWait frames k r) (afterWait frames' k r') := by
  obtain ⟨start, m⟩ := r
  obtain ⟨start', m'⟩ := r'
  obtain rfl : start' = start := hr
  cases start' with
  | through => exact hk
  | refused why => exact ⟨.ended, R, h⟩
  | suspended on => exact ⟨.suspended hframes, R, h⟩

theorem Slims.outcome (h : Slims vars R m m') (job : JobId) :
    (m'.job? job).bind (·.outcome) = (m.job? job).bind (·.outcome) := by
  cases hj : m.job? job with
  | none => rw [h.inStep.job?_eq_none hj]
  | some j =>
    obtain ⟨s', hj', -⟩ := h.inStep.exists_job? hj
    rw [hj']
    rfl

theorem Slims.printResult (h : Slims vars R m m') (id id' : StatementId) (job : JobId)
    (text : String) :
    SlimsTo vars (printResult id job text m) (printResult id' job text m') := by
  unfold Interpreter.printResult
  rw [h.outcome]
  have hrecord := h.record id id' (.awaited ((m.job? job).bind (·.outcome)))
    (.awaited ((m.job? job).bind (·.outcome))) trivial trivial
  dsimp only
  split
  · exact (hrecord.print id id' text).done
  · exact ⟨.ended, R, hrecord⟩

theorem Slims.refer (h : Slims vars R m m') {var : String} (hvar : var ∈ vars.used) (id : StatementId) :
    ∃ handle handle' m₁ m₁', Interpreter.refer id var m = (handle, m₁) ∧
      Interpreter.refer id var m' = (handle', m₁') ∧
      Option.Rel (Referent.Matches R) handle handle' ∧ Slims vars R m₁ m₁' :=
  ⟨_, _, _, _, rfl, rfl, h.handle var hvar, h.record id id _ _ trivial trivial⟩

theorem Slims.performAction (h : Slims vars R m m') (ticket : Ticket) (job : JobId)
    (id : StatementId) {action : Action} (hdeclared : ∀ var ∈ action.declares?, var ∈ vars.declared)
    (hused : ∀ var ∈ action.uses?, var ∈ vars.used) :
    SlimsTo vars (performAction ticket job id action m) (performAction ticket job id action m') := by
  cases action with
  | delay time =>
    have hwait := h.inStep.beginDelay ticket job time
    have hm := h.along hwait.machine (env_beginDelay ..) (env_beginDelay ..)
      (Machine.seats_beginDelay ..) (Machine.seats_beginDelay ..)
    exact slimsTo_afterWait hwait.result hm .nil hm.done
  | print text => exact (h.print id id text).done
  | throwException kind => exact ⟨.ended, R, h⟩
  | job var => exact (h.newSignal.bind (.bare (.inr ⟨rfl, rfl⟩)) (hdeclared var rfl) id).done
  | join var =>
    obtain ⟨_, _, m₁, m₁', he, he', hhandle, hm⟩ := h.refer (hused var rfl) id
    simp only [Interpreter.performAction, he, he']
    cases hhandle with
    | none => exact hm.done
    | @some handle handle' hmatch =>
      have hsignal := hm.signal? hmatch
      simp only [Option.bind_some]
      generalize Interpreter.signal? handle m₁ = signal at hsignal
      generalize Interpreter.signal? handle' m₁' = signal' at hsignal
      cases hsignal with
      | none => exact hm.done
      | some hs =>
        have hwait := hm.inStep.beginJoin hs ticket job
        have hm₂ := hm.along hwait.machine (beginJoin_cases ..).1 (beginJoin_cases ..).1
          (Machine.seats_beginJoin ..) (Machine.seats_beginJoin ..)
        exact slimsTo_afterWait hwait.result hm₂ .nil hm₂.done
  | cancel var =>
    obtain ⟨_, _, m₁, m₁', he, he', hhandle, hm⟩ := h.refer (hused var rfl) id
    simp only [Interpreter.performAction, he, he']
    cases hhandle with
    | none => exact hm.done
    | some hmatch =>
      cases hmatch with
      | task => exact (hm.cancel _).done
      | deferred => exact (hm.cancel _).done
      | bare hs => exact (hm.fire hs).done
  | completeJob var =>
    obtain ⟨_, _, m₁, m₁', he, he', hhandle, hm⟩ := h.refer (hused var rfl) id
    simp only [Interpreter.performAction, he, he']
    cases hhandle with
    | none => exact hm.done
    | some hmatch =>
      cases hmatch with
      | task => exact hm.done
      | deferred => exact hm.done
      | bare hs => exact (hm.fire hs).done
  | printAwait var text =>
    obtain ⟨_, _, m₁, m₁', he, he', hhandle, hm⟩ := h.refer (hused var rfl) id
    simp only [Interpreter.performAction, he, he']
    cases hhandle with
    | none => exact (hm.print id id text).done
    | some hmatch =>
      cases hmatch with
      | task => exact (hm.print id id text).done
      | bare hs => exact (hm.print id id text).done
      | @deferred target result =>
        have hsignal := hm.completion target
        dsimp only
        generalize (m₁.job? target).map (·.completion) = signal at hsignal
        generalize (m₁'.job? target).map (·.completion) = signal' at hsignal
        cases hsignal with
        | none => exact hm.done
        | some hs =>
          have hwait := hm.inStep.beginAwait hs ticket job
          have hm₂ := hm.along hwait.machine (beginAwait_cases ..).1 (beginAwait_cases ..).1
            (Machine.seats_beginAwait ..) (Machine.seats_beginAwait ..)
          exact slimsTo_afterWait hwait.result hm₂ (.cons .awaited .nil)
            (hm₂.printResult id id target result)

theorem performAction_unbound {action : Action} {var : String} (huses : action.uses? = some var)
    (hunbound : m.env.handles.lookup var = none) {id : StatementId}
    (hsilent : (Statement.leaf id action).printedText? = none) (ticket : Ticket) (job : JobId) :
    Interpreter.performAction ticket job id action m = .done (record id (.referred none) m) := by
  cases action with
  | join v | cancel v | completeJob v =>
    obtain rfl : v = var := Option.some.inj huses
    simp only [Interpreter.performAction, refer, hunbound, Option.bind_none]
  | printAwait v text => cases hsilent
  | _ => cases huses

/-- An awaited print of an unbound handle prints at once. -/
theorem performAction_unbound_print {var : String} (hunbound : m.env.handles.lookup var = none)
    (ticket : Ticket) (job : JobId) (id : StatementId) (text : String) :
    Interpreter.performAction ticket job id (.printAwait var text) m =
      .done (Interpreter.print id text (record id (.referred none) m)) := by
  simp only [Interpreter.performAction, refer, hunbound]

theorem snd_close (ticket : Ticket) (job : JobId) (result : Completion) (m : ProgramMachine) :
    (Interpreter.close ticket job result m).2 = (m.close ticket job result).2 := by
  unfold Interpreter.close Reached.afterClose
  split <;> next he => rw [he]

theorem Slims.close (h : Slims vars R m m') (ticket : Ticket) (job : JobId) (result : Completion) :
    SlimsTo vars (Interpreter.close ticket job result m) (Interpreter.close ticket job result m') := by
  have hclose := h.inStep.close ticket job result
  have henv (m : ProgramMachine) : (m.close ticket job result).2.env = m.env :=
    (congrArg Machine.env (snd_close ticket job result m)).symm.trans (Snapshot.env_close ..)
  have hm := h.along hclose.machine (henv m) (henv m') (Machine.seats_close ..)
    (Machine.seats_close ..)
  have houtcome := hclose.result
  unfold Interpreter.close Reached.afterClose
  generalize m.close ticket job result = r at houtcome hm
  generalize m'.close ticket job result = r' at houtcome hm
  obtain ⟨outcome, m₁⟩ := r
  obtain ⟨outcome', m₁'⟩ := r'
  obtain rfl : outcome' = outcome := houtcome
  cases outcome' with
  | none => exact ⟨.suspended (.cons .settle .nil), R, hm⟩
  | some outcome => exact ⟨.ended, R, hm⟩

theorem Slims.catchException (h : Slims vars R m m') (id id' : StatementId) (kind : ExceptionKind)
    (result : Completion) :
    SlimsTo vars (catchException id kind result m) (catchException id' kind result m') := by
  unfold Interpreter.catchException
  split
  · exact h.done
  · split
    · exact (h.print id id' handlerText).done
    · exact ⟨.ended, R, h⟩

theorem slimsTo_andThen {frame frame' : ProgramFrame}
    {k k' : Completion → ProgramMachine → ProgramReached} {r r' : ProgramReached}
    (h : SlimsTo vars r r') (hframe : ProgramFrame.Slimmed vars frame frame')
    (hk : ∀ {R m m'} result, Slims vars R m m' → SlimsTo vars (k result m) (k' result m')) :
    SlimsTo vars (Reached.andThen frame k r) (Reached.andThen frame' k' r') := by
  obtain ⟨p, m⟩ := r
  obtain ⟨p', m'⟩ := r'
  obtain ⟨hp, R, hm⟩ := h
  cases hp with
  | ended => exact hk _ hm
  | suspended hframes =>
    exact ⟨.suspended (List.rel_append hframes (.cons hframe .nil)), R, hm⟩

theorem Slims.launch (h : Slims vars R m m') (parent : JobId) {body body' : List Statement}
    (hbody : Statement.Slimmed vars body body') :
    (launch parent body' m').1 = (launch parent body m).1 ∧
      ∃ R', Slims vars R' (launch parent body m).2 (launch parent body' m').2 := by
  have hjob : m'.jobs.size = m.jobs.size := (h.inStep.child parent .task).1
  refine ⟨hjob, _, (h.child parent .task).spawn ⟨congrArg Suspension.entry hjob, ?_⟩⟩
  change List.Forall₂ (ProgramFrame.Slimmed vars) [.rest m.jobs.size body, .close m.jobs.size]
    [.rest m'.jobs.size body', .close m'.jobs.size]
  rw [hjob]
  exact .cons (.rest hbody) (.cons .close .nil)

theorem Slims.perform_block (h : Slims vars R m m') (ticket : Ticket) (job : JobId)
    (id : StatementId) {head : Head} (hdeclared : ∀ var ∈ head.declares?, var ∈ vars.declared)
    {body body' : List Statement} (hbody : Statement.Slimmed vars body body')
    (hinner : ∀ {R m m'} job, Slims vars R m m' →
      SlimsTo vars (performBody ticket job body m) (performBody ticket job body' m')) :
    SlimsTo vars (perform ticket job (.block id head body) m)
      (perform ticket job (.block id head body') m') := by
  have hscope (kind : JobRole) : SlimsTo vars
      (Reached.andThen (.close (m.child job kind).1) (Interpreter.close ticket (m.child job kind).1)
        (performBody ticket (m.child job kind).1 body (m.child job kind).2))
      (Reached.andThen (.close (m'.child job kind).1) (Interpreter.close ticket (m'.child job kind).1)
        (performBody ticket (m'.child job kind).1 body' (m'.child job kind).2)) := by
    rw [(h.inStep.child job kind).1]
    exact slimsTo_andThen (hinner _ (h.child job kind)) .close fun result hm => hm.close ticket _ result
  obtain ⟨hjob, R', hlaunch⟩ := h.launch job hbody
  cases head with
  | launch => exact hlaunch.done
  | scopeLaunch =>
    obtain ⟨-, R'', hbackground⟩ := h.launch m.env.background hbody
    unfold perform
    rw [h.background]
    exact hbackground.done
  | launchJob var =>
    unfold perform
    dsimp only
    rw [hjob]
    exact (hlaunch.bind .task (hdeclared var rfl) id).done
  | async var result =>
    unfold perform
    dsimp only
    rw [hjob]
    exact (hlaunch.bind .deferred (hdeclared var rfl) id).done
  | coroutineScope => exact hscope .scope
  | supervisorScope => exact hscope .supervisor
  | tryCatch kind =>
    exact slimsTo_andThen (hinner job h) .catching fun result hm => hm.catchException id id kind result

/-- A launch whose handle nobody uses is one without a handle. -/
theorem Slims.perform_launch (h : Slims vars R m m') (ticket : Ticket) (job : JobId)
    {id id' : StatementId} {head : Head} {var : String} (hdeclares : head.declares? = some var)
    (hdeclared : var ∈ vars.declared) (hvar : var ∉ vars.used) {body body' : List Statement}
    (hbody : Statement.Slimmed vars body body') :
    SlimsTo vars (perform ticket job (.block id head body) m)
      (perform ticket job (.block id' .launch body') m') := by
  obtain ⟨-, R', hlaunch⟩ := h.launch job hbody
  cases head with
  | launchJob v =>
    obtain rfl : v = var := Option.some.inj hdeclares
    exact (hlaunch.bindLeft hdeclared hvar id _).done
  | async v result =>
    obtain rfl : v = var := Option.some.inj hdeclares
    exact (hlaunch.bindLeft hdeclared hvar id _).done
  | _ => cases hdeclares

theorem slimsTo_cons {s s' : Statement} {rest rest' : List Statement} {ticket : Ticket} {job : JobId}
    (hs : SlimsTo vars (perform ticket job s (record s.id .began m))
      (perform ticket job s' (record s'.id .began m')))
    (hrest : Statement.Slimmed vars rest rest')
    (ih : ∀ {R m m'}, Slims vars R m m' →
      SlimsTo vars (performBody ticket job rest m) (performBody ticket job rest' m')) :
    SlimsTo vars (performBody ticket job (s :: rest) m) (performBody ticket job (s' :: rest') m') := by
  unfold performBody
  generalize perform ticket job s (record s.id .began m) = r at hs
  generalize perform ticket job s' (record s'.id .began m') = r' at hs
  obtain ⟨p, m₁⟩ := r
  obtain ⟨p', m₁'⟩ := r'
  obtain ⟨hp, R, hm⟩ := hs
  cases hp with
  | @ended result =>
    cases result with
    | ok => exact ih (hm.record s.id s'.id .ended .ended trivial trivial)
    | error kind => exact ⟨.ended, R, hm⟩
  | suspended hframes =>
    exact ⟨.suspended (List.rel_append hframes (.cons .leave (.cons (.rest hrest) .nil))), R, hm⟩

/-- A body goes on behind the usage of an unbound handle. -/
theorem performBody_unbound {action : Action} {var : String} (huses : action.uses? = some var)
    (hunbound : m.env.handles.lookup var = none) {id : StatementId}
    (hsilent : (Statement.leaf id action).printedText? = none) (ticket : Ticket) (job : JobId)
    (rest : List Statement) : Interpreter.performBody ticket job (.leaf id action :: rest) m =
      Interpreter.performBody ticket job rest
        (record id .ended (record id (.referred none) (record id .began m))) := by
  have hperform : perform ticket job (.leaf id action) (record id .began m) =
      .done (record id (.referred none) (record id .began m)) :=
    performAction_unbound (m := record id .began m) huses hunbound hsilent ticket job
  rw [Interpreter.performBody, Statement.id, hperform]
  rfl

theorem Slims.performBody {body body' : List Statement} (hbody : Statement.Slimmed vars body body')
    (ticket : Ticket) (job : JobId) (h : Slims vars R m m') :
    SlimsTo vars (performBody ticket job body m) (performBody ticket job body' m') := by
  have hbegan {R : SignalId → SignalId → Prop} {m m' : ProgramMachine} (h : Slims vars R m m')
      (s s' : Statement) : Slims vars R (Interpreter.record s.id .began m)
        (Interpreter.record s'.id .began m') :=
    h.record s.id s'.id .began .began trivial trivial
  induction hbody generalizing job R m m' with
  | nil => exact h.done
  | @leaf id action _ _ hdeclared hused hrest ih =>
    refine slimsTo_cons ?_ hrest (ih job)
    exact (hbegan h (.leaf id action) (.leaf id action)).performAction ticket job id hdeclared hused
  | @block id head inner inner' _ _ hdeclared hinner hrest ih ih' =>
    refine slimsTo_cons ?_ hrest (ih' job)
    exact (hbegan h (.block id head inner) (.block id head inner')).perform_block ticket job id
      hdeclared hinner ih
  | @drop id var rest rest' hdeclared hvar hrest ih =>
    have hbound := (h.recordLeft id .began trivial).newSignalLeft.bindLeft hdeclared hvar id
      (.bare m.signals.size)
    exact ih job (hbound.recordLeft id .ended trivial)
  | @launch id id' head inner inner' var _ _ hdeclares hdeclared hvar hinner hrest ih ih' =>
    refine slimsTo_cons ?_ hrest (ih' job)
    exact (hbegan h (.block id head inner) (.block id' .launch inner')).perform_launch ticket job
      hdeclares hdeclared hvar hinner
  | @unbound id action var rest rest' huses hvar hsilent hrest ih =>
    have hreferred := (h.recordLeft id .began trivial).recordLeft id (.referred none) trivial
    rw [performBody_unbound huses (h.unbound var hvar) hsilent]
    exact ih job (hreferred.recordLeft id .ended trivial)
  | @print id var text _ _ hvar hrest ih =>
    have hbegun := hbegan h (.leaf id (.printAwait var text)) (.leaf id (.print text))
    have hreferred := hbegun.recordLeft id (.referred none) trivial
    refine slimsTo_cons ?_ hrest (ih job)
    rw [perform, performAction_unbound_print (hbegun.unbound var hvar)]
    exact (hreferred.print id id text).done

theorem Slims.endProgram (h : Slims vars R m m') (result : Completion) :
    Slims vars R (endProgram result m) (endProgram result m') := by
  unfold Interpreter.endProgram
  rw [h.background, h.inStep.now]
  have hm := h.cancel m.env.background
  exact ⟨⟨hm.inStep.outline, hm.inStep.signals, hm.inStep.completion⟩, hm.handle, hm.unbound,
    hm.background, rfl, hm.prints, hm.size, hm.seat⟩

theorem Slims.resume (h : Slims vars R m m') (ticket : Ticket) {frame frame' : ProgramFrame}
    (hframe : ProgramFrame.Slimmed vars frame frame') (result : Completion) :
    SlimsTo vars (resume ticket frame result m) (resume ticket frame' result m') := by
  cases hframe with
  | rest hbody =>
    cases result with
    | ok => exact h.performBody hbody ticket _
    | error kind => exact ⟨.ended, R, h⟩
  | @leave s s' =>
    cases result with
    | ok => exact (h.record s s' .ended .ended trivial trivial).done
    | error kind => exact ⟨.ended, R, h⟩
  | catching => exact h.catchException _ _ _ result
  | close => exact h.close ticket _ result
  | @settle job =>
    have hsettle := h.inStep.settle job
    have hm := h.along hsettle.machine (Snapshot.env_settle m job) (Snapshot.env_settle m' job)
      (Machine.seats_settle ..) (Machine.seats_settle ..)
    unfold Interpreter.resume
    dsimp only
    rw [hsettle.result]
    exact ⟨.ended, R, hm⟩
  | @awaited s s' job text =>
    cases result with
    | ok => exact h.printResult s s' job text
    | error kind => exact ⟨.ended, R, h⟩
  | program => exact ⟨.ended, R, h.endProgram result⟩

theorem Slims.unwind {frames frames' : List ProgramFrame}
    (hframes : List.Forall₂ (ProgramFrame.Slimmed vars) frames frames') (h : Slims vars R m m')
    (ticket : Ticket) (result : Completion) :
    SlimsTo vars (FrameCode.unwind ticket frames result m)
      (FrameCode.unwind ticket frames' result m') := by
  induction hframes generalizing R m m' result with
  | nil => exact ⟨.ended, R, h⟩
  | @cons frame frame' outer outer' hframe houter ih =>
    have hr : SlimsTo vars (FrameCode.resume ticket frame result m)
      (FrameCode.resume ticket frame' result m') := h.resume ticket hframe result
    unfold FrameCode.unwind
    generalize FrameCode.resume ticket frame result m = r at hr
    generalize FrameCode.resume ticket frame' result m' = r' at hr
    obtain ⟨p, m₁⟩ := r
    obtain ⟨p', m₁'⟩ := r'
    obtain ⟨hp, R', hm⟩ := hr
    cases hp with
    | ended => exact ih hm _
    | suspended hinner => exact ⟨.suspended (List.rel_append hinner houter), R', hm⟩

theorem Slims.poll (h : Slims vars R m m') (ticket : Ticket) {task task' : Task ProgramFrame}
    (ht : Task.Slimmed vars task task') :
    Option.Rel (Task.Slimmed vars) (FrameCode.poll ticket task m).1
      (FrameCode.poll ticket task' m').1 ∧
      ∃ R', Slims vars R' (FrameCode.poll ticket task m).2 (FrameCode.poll ticket task' m').2 := by
  have hresume := h.inStep.resumption ticket task.on
  have hdispatcher (m : ProgramMachine) := Machine.dispatcher_resumption m ticket task.on
  have hm := h.along hresume.machine (Snapshot.env_resumption ..) (Snapshot.env_resumption ..)
    (congrArg Dispatcher.seats (hdispatcher m)) (congrArg Dispatcher.seats (hdispatcher m'))
  have hresult := hresume.result
  unfold FrameCode.poll
  rw [ht.on]
  generalize m.resumption ticket task.on = r at hresult hm
  generalize m'.resumption ticket task.on = r' at hresult hm
  obtain ⟨result, m₁⟩ := r
  obtain ⟨result', m₁'⟩ := r'
  obtain rfl : result' = result := hresult
  cases result' with
  | none => exact ⟨.some ht, R, hm⟩
  | some result =>
    have hcode : SlimsTo vars (FrameCode.proceed ticket task.frames result m₁)
        (FrameCode.proceed ticket task'.frames result m₁') := by
      cases result with
      | ok => exact hm.unwind ht.frames ticket (.ok ())
      | error why => exact hm.unwind ht.frames ticket why.completion
    dsimp only
    generalize FrameCode.proceed ticket task.frames result m₁ = r at hcode
    generalize FrameCode.proceed ticket task'.frames result m₁' = r' at hcode
    obtain ⟨p, m₂⟩ := r
    obtain ⟨p', m₂'⟩ := r'
    obtain ⟨hp, R', hm₂⟩ := hcode
    cases hp with
    | ended => exact ⟨.none, R', hm₂⟩
    | suspended hframes => exact ⟨.some ⟨rfl, hframes⟩, R', hm₂⟩

theorem Slims.runReady (h : Slims vars R m m') (id : SeatId) (rest : List SeatId) :
    ∃ R', Slims vars R' (m.runReady id rest) (m'.runReady id rest) := by
  have hready : Dispatcher.Slimmed vars { m.dispatcher with ready := rest }
      { m'.dispatcher with ready := rest } :=
    ⟨congrArg (fun o : Dispatcher Unit => { o with ready := rest }) h.dispatcher.outline, h.size, h.seat⟩
  obtain ⟨hout, hd⟩ := hready.checkOut id
  unfold Machine.runReady
  generalize ({ m.dispatcher with ready := rest } : Dispatcher (Task ProgramFrame)).checkOut id = r at hout hd
  generalize ({ m'.dispatcher with ready := rest } : Dispatcher (Task ProgramFrame)).checkOut id = r' at hout hd
  obtain ⟨found, d⟩ := r
  obtain ⟨found', d'⟩ := r'
  have hm := h.dispatch hd
  cases hout with
  | none => exact ⟨R, hm⟩
  | @some seated seated' hseated =>
    obtain ⟨ticket, task⟩ := seated
    obtain ⟨ticket', task'⟩ := seated'
    obtain ⟨hticket, htask⟩ := hseated
    obtain rfl : ticket' = ticket := hticket
    obtain ⟨hleft, R', hpolled⟩ := hm.poll ticket' htask
    dsimp only
    generalize FrameCode.poll ticket' task { m with dispatcher := d } = r at hleft hpolled
    generalize FrameCode.poll ticket' task' { m' with dispatcher := d' } = r' at hleft hpolled
    obtain ⟨left, m₁⟩ := r
    obtain ⟨left', m₁'⟩ := r'
    cases hleft with
    | none => exact ⟨R', hpolled.dispatch (hpolled.dispatcher.finish ticket')⟩
    | some hleft => exact ⟨R', hpolled.dispatch (hpolled.dispatcher.checkIn id hleft)⟩

theorem Slims.drain (h : Slims vars R m m') : ∃ R', Slims vars R' m.drain m'.drain := by
  fun_induction Machine.drain m generalizing R m' with
  | case1 m hnil =>
    rw [Machine.drain_of_nil (h.dispatcher.ready.trans hnil)]
    exact ⟨R, h⟩
  | case2 m id rest hcons _ ih =>
    obtain ⟨R', hpolled⟩ := h.runReady id rest
    rw [Machine.drain_of_cons (h.dispatcher.ready.trans hcons)]
    exact ih hpolled

theorem Slims.advance (h : Slims vars R m m') : Slims vars R m.advance.2 m'.advance.2 :=
  h.along h.inStep.advance rfl rfl (Machine.seats_wakeAll ..) (Machine.seats_wakeAll ..)

theorem Slims.stopOr (h : Slims vars R m m') (limits : Limits) {next next' : StopReason × ProgramMachine}
    (hnext : ∃ R', next'.1 = next.1 ∧ Slims vars R' next.2 next'.2) :
    ∃ R', (m'.stopOr limits Statement.hasEnded next').1 =
        (m.stopOr limits Statement.hasEnded next).1 ∧
      Slims vars R' (m.stopOr limits Statement.hasEnded next).2
        (m'.stopOr limits Statement.hasEnded next').2 := by
  have hended : Statement.hasEnded m' = Statement.hasEnded m := congrArg Option.isSome h.ending
  unfold Machine.stopOr
  rw [hended, h.dispatcher.polls, h.inStep.timetable]
  split
  · exact ⟨R, rfl, h⟩
  · split
    · exact ⟨R, rfl, h⟩
    · cases m.timetable.clock.next? with
      | none => exact ⟨R, rfl, h⟩
      | some time =>
        simp only [Option.elim_some]
        split
        · exact ⟨R, rfl, h⟩
        · exact hnext

theorem Slims.runFor (h : Slims vars R m m') (limits : Limits) (timeslices : Nat) :
    ∃ R', (m'.runFor limits Statement.hasEnded timeslices).1 =
        (m.runFor limits Statement.hasEnded timeslices).1 ∧
      Slims vars R' (m.runFor limits Statement.hasEnded timeslices).2
        (m'.runFor limits Statement.hasEnded timeslices).2 := by
  induction timeslices generalizing R m m' with
  | zero =>
    obtain ⟨R', hrest⟩ := h.drain
    rw [Machine.runFor_zero, Machine.runFor_zero]
    refine hrest.stopOr limits ⟨R', ?_, ?_⟩
    · rfl
    · exact hrest.advance
  | succ n ih =>
    obtain ⟨R', hrest⟩ := h.drain
    rw [Machine.runFor_succ, Machine.runFor_succ]
    exact hrest.stopOr limits (ih hrest.advance)

namespace Statement

variable {t t' : Statement}

theorem slims_loaded (hbody : Slimmed vars [t] [t']) :
    Slims vars (fun s s' => s' = s ∧ s < 2) t.loaded t'.loaded := by
  refine ⟨⟨rfl, ⟨fun {s s'} hs => ?_, fun h h' => h.1.symm.trans h'.1, fun h h' => h.1.trans h'.1.symm⟩,
    fun {j s s'} hs hs' => ?_⟩, fun _ _ => .none, fun _ _ => rfl, rfl, rfl, rfl, rfl, fun i => ?_⟩
  · obtain ⟨rfl, hlt⟩ := hs
    match s', hlt with
    | 0, _ => exact ⟨.unfired, rfl, rfl⟩
    | 1, _ => exact ⟨.unfired, rfl, rfl⟩
  · match j with
    | 0 =>
      have he : 0 = s := Option.some.inj hs
      have he' : 0 = s' := Option.some.inj hs'
      exact ⟨he'.symm.trans he, he ▸ Nat.zero_lt_two⟩
    | 1 =>
      have he : 1 = s := Option.some.inj hs
      have he' : 1 = s' := Option.some.inj hs'
      exact ⟨he'.symm.trans he, he ▸ Nat.one_lt_two⟩
    | j + 2 => cases hs
  · match i with
    | 0 => exact .some ⟨rfl, .some ⟨rfl, .cons (.rest hbody) (.cons .program .nil)⟩⟩
    | i + 1 => exact .none

/-- The runs of both programs stop for the same reason, in states that match. -/
theorem slims_runWith (hbody : Slimmed vars [t] [t']) (limits : Limits) :
    ∃ R, (t'.runWith limits).1 = (t.runWith limits).1 ∧
      Slims vars R (t.runWith limits).2 (t'.runWith limits).2 :=
  (slims_loaded hbody).runFor limits limits.maxTimeslices

/-- A slimmed program evaluates to what the whole one does. -/
theorem evaluateWithin_of_slimmed (hbody : Slimmed vars [t] [t']) (limits : Limits) :
    t'.evaluateWithin limits = t.evaluateWithin limits := by
  obtain ⟨R, hreason, hm⟩ := slims_runWith hbody limits
  unfold evaluateWithin
  generalize t.runWith limits = r at hreason hm
  generalize t'.runWith limits = r' at hreason hm
  obtain ⟨reason, m⟩ := r
  obtain ⟨reason', m'⟩ := r'
  obtain rfl : reason' = reason := hreason
  have hprints : m'.env.trace.toList.filterMap TraceEntry.event? =
    m.env.trace.toList.filterMap TraceEntry.event? := hm.prints
  have hending : m'.env.ending = m.env.ending := hm.ending
  simp only [hprints, hending]

end Statement

end RacePuzzle
