import Mathlib.Algebra.Order.BigOperators.Group.List
import Mathlib.Algebra.Order.Group.Nat
import RacePuzzle.Evaluation.Evaluate
import RacePuzzle.Program.Query
import RacePuzzle.Proofs.Machine.Recast

/-! Programs with other ids, other handles and other texts. A run never looks at these, so that it goes
the same way and prints the new texts in the place of the old ones. -/
namespace RacePuzzle

open Interpreter

/-- New ids for statements, new names for handles and new texts for what is printed. -/
structure Relabeling where
  statement : StatementId → StatementId
  handle : String → String
  text : String → String

/-- Different handles stay different, and the text of the handlers stays as it is. -/
structure Relabeling.Faithful (ρ : Relabeling) : Prop where
  handle : Function.Injective ρ.handle
  text : ρ.text handlerText = handlerText

def Action.relabel (ρ : Relabeling) : Action → Action
  | .delay time => .delay time
  | .print text => .print (ρ.text text)
  | .throwException kind => .throwException kind
  | .job var => .job (ρ.handle var)
  | .join var => .join (ρ.handle var)
  | .cancel var => .cancel (ρ.handle var)
  | .printAwait var text => .printAwait (ρ.handle var) (ρ.text text)
  | .completeJob var => .completeJob (ρ.handle var)

def Head.relabel (ρ : Relabeling) : Head → Head
  | .launch => .launch
  | .scopeLaunch => .scopeLaunch
  | .coroutineScope => .coroutineScope
  | .supervisorScope => .supervisorScope
  | .launchJob var => .launchJob (ρ.handle var)
  | .async var result => .async (ρ.handle var) (ρ.text result)
  | .tryCatch kind => .tryCatch kind

namespace Statement

mutual
def relabel (ρ : Relabeling) : Statement → Statement
  | .leaf id action => .leaf (ρ.statement id) (action.relabel ρ)
  | .block id head body => .block (ρ.statement id) (head.relabel ρ) (relabelBody ρ body)
def relabelBody (ρ : Relabeling) : List Statement → List Statement
  | [] => []
  | s :: rest => s.relabel ρ :: relabelBody ρ rest
end

@[simp] theorem id_relabel (ρ : Relabeling) (s : Statement) : (s.relabel ρ).id = ρ.statement s.id := by
  cases s <;> rfl

end Statement

def ProgramFrame.relabel (ρ : Relabeling) : ProgramFrame → ProgramFrame
  | .rest job body => .rest job (Statement.relabelBody ρ body)
  | .leave s => .leave (ρ.statement s)
  | .catching s kind => .catching (ρ.statement s) kind
  | .close job => .close job
  | .settle job => .settle job
  | .awaited s job result => .awaited (ρ.statement s) job (ρ.text result)
  | .program => .program

def Referent.relabel (ρ : Relabeling) : Referent → Referent
  | .task job => .task job
  | .deferred job result => .deferred job (ρ.text result)
  | .bare signal => .bare signal

def Mark.relabel (ρ : Relabeling) : Mark → Mark
  | .began => .began
  | .ended => .ended
  | .bound handle => .bound (handle.relabel ρ)
  | .referred handle => .referred (handle.map (Referent.relabel ρ))
  | .awaited outcome => .awaited outcome
  | .printed value => .printed (ρ.text value)

def TraceEntry.relabel (ρ : Relabeling) (e : TraceEntry) : TraceEntry :=
  ⟨ρ.statement e.statement, e.mark.relabel ρ, e.time⟩

def ProgramEnv.relabel (ρ : Relabeling) (env : ProgramEnv) : ProgramEnv :=
  { env with
    handles := env.handles.map (Prod.map ρ.handle (Referent.relabel ρ))
    trace := env.trace.map (TraceEntry.relabel ρ) }

namespace Relabeling

def machine (ρ : Relabeling) (m : ProgramMachine) : ProgramMachine :=
  m.recast (Task.recast (ProgramFrame.relabel ρ)) (ProgramEnv.relabel ρ)

def reached (ρ : Relabeling) (r : ProgramReached) : ProgramReached :=
  r.recast (ProgramFrame.relabel ρ) (ProgramEnv.relabel ρ)

variable {ρ : Relabeling} (s : StatementId) (m : ProgramMachine)

theorem record_machine (mark : Mark) :
    record (ρ.statement s) (mark.relabel ρ) (ρ.machine m) = ρ.machine (record s mark m) := by
  unfold record Machine.updateEnv machine Machine.recast ProgramEnv.relabel
  simp only [Array.map_push]
  rfl

theorem print_machine (value : String) :
    print (ρ.statement s) (ρ.text value) (ρ.machine m) = ρ.machine (print s value m) := by
  have hsame : (ρ.machine m).env.ending = m.env.ending := rfl
  unfold print
  rw [hsame]
  split
  · exact record_machine s m (.printed value)
  · rfl

theorem bind_machine (var : String) (handle : Referent) :
    bind (ρ.statement s) (ρ.handle var) (handle.relabel ρ) (ρ.machine m) =
      ρ.machine (bind s var handle m) :=
  record_machine s (m.updateEnv fun env => { env with handles := (var, handle) :: env.handles })
    (.bound handle)

theorem refer_machine (h : ρ.Faithful) (var : String) :
    refer (ρ.statement s) (ρ.handle var) (ρ.machine m) =
      Prod.map (Option.map (Referent.relabel ρ)) ρ.machine (refer s var m) := by
  have hlookup := lookup_map h.handle (Referent.relabel ρ) m.env.handles var
  have hsame : (ρ.machine m).env.handles =
      m.env.handles.map (Prod.map ρ.handle (Referent.relabel ρ)) := rfl
  unfold refer
  rw [hsame, hlookup]
  exact Prod.ext rfl (record_machine s m (.referred (m.env.handles.lookup var)))

theorem signal?_machine (handle : Referent) :
    signal? (handle.relabel ρ) (ρ.machine m) = signal? handle m := by
  cases handle <;> rfl

theorem launch_machine (parent : JobId) (inner : List Statement) :
    launch parent (Statement.relabelBody ρ inner) (ρ.machine m) =
      Prod.map id ρ.machine (launch parent inner m) :=
  Prod.ext rfl (Machine.recast_spawn (Task.recast (ProgramFrame.relabel ρ)) (ProgramEnv.relabel ρ)
    (m.child parent .task).2 ⟨.entry _, [.rest _ inner, .close _]⟩).symm

theorem printResult_machine (job : JobId) (result : String) :
    printResult (ρ.statement s) job (ρ.text result) (ρ.machine m) =
      ρ.reached (printResult s job result m) := by
  have hsame : (ρ.machine m).job? job = m.job? job := rfl
  have hrecord (outcome : Option Outcome) :
      record (ρ.statement s) (.awaited outcome) (ρ.machine m) = ρ.machine (record s (.awaited outcome) m) :=
    record_machine s m (.awaited outcome)
  unfold printResult
  dsimp only
  rw [hsame, hrecord, print_machine]
  split <;> rfl

theorem afterWait_machine (frames : List ProgramFrame) {k k' : ProgramMachine → ProgramReached}
    (hk : ∀ m, k' (ρ.machine m) = ρ.reached (k m)) (r : WaitStart × ProgramMachine) :
    afterWait (frames.map (ProgramFrame.relabel ρ)) k' (Prod.map id ρ.machine r) =
      ρ.reached (afterWait frames k r) :=
  (Reached.recast_afterWait (fun _ m => m) (fun _ m => m) frames (fun _ _ => rfl) hk r).symm

theorem performAction_machine (h : ρ.Faithful) (ticket : Ticket) (job : JobId) (action : Action) :
    performAction ticket job (ρ.statement s) (action.relabel ρ) (ρ.machine m) =
      ρ.reached (performAction ticket job s action m) := by
  have hdone : ∀ m : ProgramMachine, Reached.done (ρ.machine m) = ρ.reached (.done m) := fun _ => rfl
  have hfire (m : ProgramMachine) (signal : SignalId) :
      (ρ.machine m).fire signal = ρ.machine (m.fire signal) := (Machine.recast_fire ..).symm
  cases action with
  | delay time =>
    have hdelay : (ρ.machine m).beginDelay ticket job time =
      Prod.map id ρ.machine (m.beginDelay ticket job time) := Machine.beginDelay_recast ..
    unfold performAction Action.relabel
    dsimp only
    rw [hdelay]
    exact afterWait_machine [] hdone _
  | print text => exact congrArg Reached.done (print_machine s m text)
  | throwException kind => rfl
  | job var => exact congrArg Reached.done (bind_machine s m.newSignal.2 var (.bare m.newSignal.1))
  | join var =>
    unfold performAction Action.relabel
    dsimp only
    rw [refer_machine s m h]
    generalize refer s var m = r
    obtain ⟨handle, m₁⟩ := r
    have hsignal : (handle.map (Referent.relabel ρ)).bind (signal? · (ρ.machine m₁)) =
        handle.bind (signal? · m₁) := by
      cases handle with
      | none => rfl
      | some handle => exact signal?_machine m₁ handle
    dsimp only [Prod.map]
    rw [hsignal]
    split
    · rfl
    · next signal _ =>
      have hjoin : (ρ.machine m₁).beginJoin ticket job signal =
        Prod.map id ρ.machine (m₁.beginJoin ticket job signal) := Machine.beginJoin_recast ..
      rw [hjoin]
      exact afterWait_machine [] hdone _
  | cancel var =>
    have hcancel (m : ProgramMachine) (target : JobId) :
        (ρ.machine m).cancel target = ρ.machine (m.cancel target) := (Machine.recast_cancel ..).symm
    unfold performAction Action.relabel
    dsimp only
    rw [refer_machine s m h]
    generalize refer s var m = r
    obtain ⟨handle, m₁⟩ := r
    rcases handle with _ | target | ⟨target, text⟩ | signal
    · rfl
    · exact congrArg Reached.done (hcancel m₁ target)
    · exact congrArg Reached.done (hcancel m₁ target)
    · exact congrArg Reached.done (hfire m₁ signal)
  | completeJob var =>
    unfold performAction Action.relabel
    dsimp only
    rw [refer_machine s m h]
    generalize refer s var m = r
    obtain ⟨handle, m₁⟩ := r
    rcases handle with _ | target | ⟨target, text⟩ | signal
    · rfl
    · rfl
    · rfl
    · exact congrArg Reached.done (hfire m₁ signal)
  | printAwait var text =>
    unfold performAction Action.relabel
    dsimp only
    rw [refer_machine s m h]
    generalize refer s var m = r
    obtain ⟨handle, m₁⟩ := r
    have hprint := congrArg Reached.done (print_machine (ρ := ρ) s m₁ text)
    rcases handle with _ | target | ⟨target, result⟩ | signal
    · exact hprint
    · exact hprint
    · have hsame : (ρ.machine m₁).job? target = m₁.job? target := rfl
      dsimp only [Prod.map, Option.map_some, Referent.relabel]
      rw [hsame]
      split
      · rfl
      · next signal _ =>
        have hawait : (ρ.machine m₁).beginAwait ticket job signal =
          Prod.map id ρ.machine (m₁.beginAwait ticket job signal) := Machine.beginAwait_recast ..
        rw [hawait]
        exact afterWait_machine [.awaited s target result]
          (fun m => printResult_machine s m target result) _
    · exact hprint

theorem close_machine (ticket : Ticket) (job : JobId) (result : Completion) :
    Interpreter.close ticket job result (ρ.machine m) =
      ρ.reached (Interpreter.close ticket job result m) :=
  (Reached.recast_afterClose (f := ProgramFrame.relabel ρ) (G := ProgramEnv.relabel ρ) (.settle job)
    (fun outcome m => (.ended outcome.completion, m)) (fun outcome m => (.ended outcome.completion, m))
    (fun _ _ => rfl) ticket job result m).symm

theorem catchException_machine (h : ρ.Faithful) (kind : ExceptionKind) (result : Completion) :
    catchException (ρ.statement s) kind result (ρ.machine m) =
      ρ.reached (catchException s kind result m) := by
  have hprint := print_machine (ρ := ρ) s m handlerText
  rw [h.text] at hprint
  unfold catchException
  split
  · rfl
  · split
    · exact congrArg Reached.done hprint
    · rfl

theorem andThen_machine (frame : ProgramFrame) {k k' : Completion → ProgramMachine → ProgramReached}
    (hk : ∀ result m, k' result (ρ.machine m) = ρ.reached (k result m)) (r : ProgramReached) :
    (ρ.reached r).andThen (frame.relabel ρ) k' = ρ.reached (r.andThen frame k) :=
  (Reached.recast_andThen frame hk r).symm

/-- A scope runs its body and then closes. -/
theorem scope_machine {inner : List Statement} (ticket : Ticket) (job : JobId) (kind : JobRole)
    (hinner : ∀ scope m, performBody ticket scope (Statement.relabelBody ρ inner) (ρ.machine m) =
      ρ.reached (performBody ticket scope inner m)) :
    Reached.andThen (.close ((ρ.machine m).child job kind).1)
        (Interpreter.close ticket ((ρ.machine m).child job kind).1)
        (performBody ticket ((ρ.machine m).child job kind).1 (Statement.relabelBody ρ inner)
          ((ρ.machine m).child job kind).2) =
      ρ.reached (Reached.andThen (.close (m.child job kind).1)
        (Interpreter.close ticket (m.child job kind).1)
        (performBody ticket (m.child job kind).1 inner (m.child job kind).2)) := by
  have hchild : (ρ.machine m).child job kind = Prod.map id ρ.machine (m.child job kind) := rfl
  rw [hchild]
  dsimp only [Prod.map, id]
  rw [hinner]
  exact andThen_machine (.close _) (fun result m => close_machine m ticket _ result) _

mutual
theorem perform_machine (h : ρ.Faithful) (ticket : Ticket) (job : JobId) :
    ∀ (st : Statement) (m : ProgramMachine),
      perform ticket job (st.relabel ρ) (ρ.machine m) = ρ.reached (perform ticket job st m)
  | .leaf s action, m => by
    rw [perform.eq_def, perform.eq_def]
    exact performAction_machine s m h ticket job action
  | .block s head inner, m => by
    have hinner (job : JobId) := performBody_machine h ticket job inner
    rw [Statement.relabel, perform.eq_def, perform.eq_def]
    cases head with
    | launch => exact congrArg (fun r => Reached.done r.2) (launch_machine m job inner)
    | scopeLaunch =>
      exact congrArg (fun r => Reached.done r.2) (launch_machine m m.env.background inner)
    | launchJob var =>
      dsimp only [Head.relabel]
      rw [launch_machine]
      exact congrArg Reached.done (bind_machine s _ var (.task _))
    | async var text =>
      dsimp only [Head.relabel]
      rw [launch_machine]
      exact congrArg Reached.done (bind_machine s _ var (.deferred _ text))
    | coroutineScope => exact scope_machine m ticket job .scope hinner
    | supervisorScope => exact scope_machine m ticket job .supervisor hinner
    | tryCatch kind =>
      dsimp only [Head.relabel]
      rw [hinner]
      exact andThen_machine (.catching s kind)
        (fun result m => catchException_machine s m h kind result) _
theorem performBody_machine (h : ρ.Faithful) (ticket : Ticket) (job : JobId) :
    ∀ (body : List Statement) (m : ProgramMachine),
      performBody ticket job (Statement.relabelBody ρ body) (ρ.machine m) =
        ρ.reached (performBody ticket job body m)
  | [], m => by
    rw [Statement.relabelBody, performBody, performBody]
    rfl
  | st :: rest, m => by
    have hbegan : record (st.relabel ρ).id .began (ρ.machine m) = ρ.machine (record st.id .began m) := by
      rw [Statement.id_relabel]
      exact record_machine st.id m .began
    rw [Statement.relabelBody, performBody, performBody, hbegan, perform_machine h ticket job st]
    generalize perform ticket job st (record st.id .began m) = r
    obtain ⟨p, m₁⟩ := r
    rcases p with (kind | _) | ⟨on, frames⟩
    · rfl
    · dsimp only [reached, Reached.recast, Progress.recast]
      rw [Statement.id_relabel]
      have hended : record (ρ.statement st.id) .ended (ρ.machine m₁) =
        ρ.machine (record st.id .ended m₁) := record_machine st.id m₁ .ended
      exact (congrArg (performBody ticket job (Statement.relabelBody ρ rest)) hended).trans
        (performBody_machine h ticket job rest _)
    · dsimp only [reached, Reached.recast, Progress.recast]
      rw [Statement.id_relabel, List.map_append]
      rfl
end

theorem endProgram_machine (result : Completion) :
    endProgram result (ρ.machine m) = ρ.machine (endProgram result m) := by
  have hcancel : (ρ.machine m).cancel m.env.background = ρ.machine (m.cancel m.env.background) :=
    (Machine.recast_cancel ..).symm
  have hsame : (ρ.machine m).env.background = m.env.background := rfl
  unfold endProgram
  rw [hsame, hcancel]
  rfl

theorem recasts (h : ρ.Faithful) :
    FrameCode.Recasts (ProgramFrame.relabel ρ) (ProgramEnv.relabel ρ) where
  resume ticket frame result m := by
    cases frame with
    | rest job body =>
      cases result with
      | ok => exact performBody_machine h ticket job body m
      | error kind => rfl
    | leave s =>
      cases result with
      | ok => exact congrArg Reached.done (record_machine s m .ended)
      | error kind => rfl
    | catching s kind => exact catchException_machine s m h kind result
    | close job => exact close_machine m ticket job result
    | settle job =>
      have hsettle : (ρ.machine m).settle job = Prod.map id ρ.machine (m.settle job) :=
        Machine.settle_recast ..
      exact congrArg (fun r : Outcome × ProgramMachine =>
        ((.ended r.1.completion, r.2) : ProgramReached)) hsettle
    | awaited s job text =>
      cases result with
      | ok => exact printResult_machine s m job text
      | error kind => rfl
    | program => exact Prod.ext rfl (endProgram_machine m result)
  interrupted _ _ := rfl

theorem loaded_relabel (t : Statement) : (t.relabel ρ).loaded = ρ.machine t.loaded := by
  unfold Statement.loaded machine
  rw [Machine.recast_spawn]
  simp [Machine.recast, Dispatcher.recast, Machine.root, Machine.newJob, Machine.newSignal,
    Machine.start, Dispatcher.empty, Machine.updateEnv, ProgramEnv.relabel, Task.recast,
    ProgramFrame.relabel, Statement.relabelBody]

theorem runWith_relabel (h : ρ.Faithful) (t : Statement) (limits : Limits) :
    (t.relabel ρ).runWith limits = Prod.map id ρ.machine (t.runWith limits) := by
  unfold Statement.runWith Machine.runWithin
  rw [loaded_relabel]
  exact (recasts h).runFor (fun _ => rfl) limits limits.maxTimeslices t.loaded

end Relabeling

def Evaluation.mapValues (text : String → String) (e : Evaluation) : Evaluation :=
  { e with events := e.events.map fun event => ⟨text event.value, event.time⟩ }

namespace Statement

variable {ρ : Relabeling}

theorem event?_relabel (ρ : Relabeling) (e : TraceEntry) :
    (e.relabel ρ).event? = e.event?.map fun event => ⟨ρ.text event.value, event.time⟩ := by
  obtain ⟨s, mark, time⟩ := e
  cases mark <;> rfl

theorem evaluateWithin_relabel (h : ρ.Faithful) (t : Statement) (limits : Limits) :
    (t.relabel ρ).evaluateWithin limits = (t.evaluateWithin limits).mapValues ρ.text := by
  unfold evaluateWithin
  rw [Relabeling.runWith_relabel h]
  generalize t.runWith limits = r
  obtain ⟨reason, m⟩ := r
  have hevents : (ρ.machine m).env.trace.toList.filterMap TraceEntry.event? =
      (m.env.trace.toList.filterMap TraceEntry.event?).map fun event =>
        ⟨ρ.text event.value, event.time⟩ := by
    have htrace : (ρ.machine m).env.trace = m.env.trace.map (TraceEntry.relabel ρ) := rfl
    rw [htrace, Array.toList_map, List.filterMap_map, List.map_filterMap]
    exact List.filterMap_congr fun e _ => event?_relabel ρ e
  have hending : (ρ.machine m).env.ending = m.env.ending := rfl
  dsimp only [Prod.map]
  rw [hevents, hending]
  cases reason with
  | finished =>
    cases m.env.ending with
    | none => rfl
    | some ending => rfl
  | stuck | pastHorizon | outOfBudget => rfl

mutual
/-- Only the handles of the program matter to how it is relabeled. -/
theorem relabel_congr {ρ ρ' : Relabeling} (hid : ρ.statement = ρ'.statement) (htext : ρ.text = ρ'.text) :
    ∀ t : Statement, (∀ s ∈ t.nodes, (∀ v ∈ s.declares?, ρ.handle v = ρ'.handle v) ∧
      ∀ v ∈ s.uses?, ρ.handle v = ρ'.handle v) → t.relabel ρ = t.relabel ρ'
  | .leaf s action, h => by
    obtain ⟨hdeclares, huses⟩ := h (.leaf s action) (.head _)
    have haction : action.relabel ρ = action.relabel ρ' := by
      cases action with
      | delay | throwException => rfl
      | print => simp only [Action.relabel, htext]
      | job var => simp only [Action.relabel, hdeclares var rfl]
      | join var | cancel var | completeJob var => simp only [Action.relabel, huses var rfl]
      | printAwait var => simp only [Action.relabel, huses var rfl, htext]
    rw [relabel, relabel, hid, haction]
  | .block s head inner, h => by
    obtain ⟨hdeclares, -⟩ := h (.block s head inner) (.head _)
    have hhead : head.relabel ρ = head.relabel ρ' := by
      cases head with
      | launchJob var => simp only [Head.relabel, hdeclares var rfl]
      | async var => simp only [Head.relabel, hdeclares var rfl, htext]
      | _ => rfl
    rw [relabel, relabel, hid, hhead, relabelBody_congr hid htext inner fun s hs => h s (.tail _ hs)]
theorem relabelBody_congr {ρ ρ' : Relabeling} (hid : ρ.statement = ρ'.statement) (htext : ρ.text = ρ'.text) :
    ∀ body : List Statement, (∀ s ∈ bodyNodes body, (∀ v ∈ s.declares?, ρ.handle v = ρ'.handle v) ∧
      ∀ v ∈ s.uses?, ρ.handle v = ρ'.handle v) → relabelBody ρ body = relabelBody ρ' body
  | [], _ => rfl
  | s :: rest, h => by
    rw [relabelBody, relabelBody, relabel_congr hid htext s fun s hs => h s (List.mem_append_left _ hs),
      relabelBody_congr hid htext rest fun s hs => h s (List.mem_append_right _ hs)]
end

mutual
theorem relabel_relabel (ρ ρ' : Relabeling) : ∀ t : Statement, (t.relabel ρ).relabel ρ' =
    t.relabel ⟨ρ'.statement ∘ ρ.statement, ρ'.handle ∘ ρ.handle, ρ'.text ∘ ρ.text⟩
  | .leaf s action => by cases action <;> rfl
  | .block s head inner => by
    rw [relabel, relabel, relabel, relabelBody_relabelBody ρ ρ' inner]
    cases head <;> rfl
theorem relabelBody_relabelBody (ρ ρ' : Relabeling) : ∀ body : List Statement,
    relabelBody ρ' (relabelBody ρ body) =
      relabelBody ⟨ρ'.statement ∘ ρ.statement, ρ'.handle ∘ ρ.handle, ρ'.text ∘ ρ.text⟩ body
  | [] => rfl
  | s :: rest => by
    rw [relabelBody, relabelBody, relabelBody, relabel_relabel ρ ρ' s, relabelBody_relabelBody ρ ρ' rest]
end

/-- The program without its ids: two programs with the same rest differ in ids alone. -/
def anonymous (t : Statement) : Statement := t.relabel ⟨fun _ => 0, fun var => var, fun text => text⟩

theorem evaluateWithin_anonymous (t : Statement) (limits : Limits) :
    t.anonymous.evaluateWithin limits = t.evaluateWithin limits := by
  refine (evaluateWithin_relabel ⟨fun _ _ h => h, rfl⟩ t limits).trans ?_
  have hsame (events : List TimedPrint) :
      events.map (fun event => (⟨event.value, event.time⟩ : TimedPrint)) = events := List.map_id _
  simp only [Evaluation.mapValues, hsame]

end Statement

/-- Names that are kept apart can be given to all strings, so that all of them are kept apart. -/
theorem exists_injective_of_injOn {handle : String → String} {vars : List String}
    (h : Set.InjOn handle {var | var ∈ vars}) :
    ∃ handle' : String → String, Function.Injective handle' ∧ ∀ var ∈ vars, handle' var = handle var := by
  -- The names of the other strings begin with something longer than all names that are taken.
  let long := String.ofList (List.replicate ((vars.map fun var => (handle var).length).sum + 1) 'x')
  have hlong : ∀ var ∈ vars, ∀ other, handle var ≠ long ++ other := by
    intro var hvar other he
    have hle : (handle var).length ≤ (vars.map fun var => (handle var).length).sum :=
      List.le_sum_of_mem (List.mem_map_of_mem hvar)
    have hlength : long.length = (vars.map fun var => (handle var).length).sum + 1 := by
      simp [long]
    rw [he, String.length_append, hlength] at hle
    omega
  refine ⟨fun var => if var ∈ vars then handle var else long ++ var, fun v w hvw => ?_,
    fun var hvar => if_pos hvar⟩
  dsimp only at hvw
  split at hvw <;> split at hvw
  · next hv hw => exact h hv hw hvw
  · next hv hw => exact absurd hvw (hlong v hv w)
  · next hv hw => exact absurd hvw.symm (hlong w hw v)
  · exact (String.append_right_inj long).1 hvw

/-- Neither ids nor names of handles nor texts steer a run. With other ids, with its handles renamed
apart and with its texts mapped by a function that leaves the text of the handlers alone, a program
evaluates to the same, except that each printed text is mapped. -/
theorem labels_never_steer (t t' : Statement) (handle text : String → String)
    (hhandle : Set.InjOn handle {var | var ∈ t.declared ++ t.used})
    (htext : text handlerText = handlerText)
    (hlabels : t'.anonymous = (t.relabel ⟨fun id => id, handle, text⟩).anonymous) (limits : Limits) :
    t'.evaluateWithin limits = (t.evaluateWithin limits).mapValues text := by
  obtain ⟨handle', hinjective, hagree⟩ := exists_injective_of_injOn hhandle
  have hrelabel : (t.relabel ⟨fun id => id, handle, text⟩).anonymous =
      t.relabel ⟨fun _ => 0, handle', text⟩ := by
    rw [Statement.anonymous, Statement.relabel_relabel]
    refine Statement.relabel_congr ?_ ?_ t fun s hs =>
      ⟨fun v hv => (hagree v ?_).symm, fun v hv => (hagree v ?_).symm⟩
    · rfl
    · rfl
    · exact List.mem_append_left _ (List.mem_filterMap.2 ⟨s, hs, hv⟩)
    · exact List.mem_append_right _ (List.mem_filterMap.2 ⟨s, hs, hv⟩)
  rw [← t'.evaluateWithin_anonymous, hlabels, hrelabel]
  exact Statement.evaluateWithin_relabel ⟨hinjective, htext⟩ t limits

def awaitAndJoin : Statement :=
  .block 0 .coroutineScope
    [.block 1 (.async "a" "ten") [], .block 2 (.launchJob "b") [.leaf 3 (.print "tick")],
      .leaf 4 (.printAwait "a" "none"), .leaf 5 (.join "b")]

/-- The same with handles and ids exchanged, some ids given twice, and every text louder. -/
def loudAwaitAndJoin : Statement :=
  .block 9 .coroutineScope
    [.block 7 (.async "b" "ten!") [], .block 7 (.launchJob "a") [.leaf 8 (.print "tick!")],
      .leaf 1 (.printAwait "b" "none!"), .leaf 0 (.join "a")]

def exchange (var : String) : String := if var = "a" then "b" else "a"

def louder (text : String) : String := if text = handlerText then text else text ++ "!"

theorem louder_await_and_join :
    loudAwaitAndJoin.evaluate = awaitAndJoin.evaluate.mapValues louder := by
  have hvars : ∀ var ∈ awaitAndJoin.declared ++ awaitAndJoin.used, var = "a" ∨ var = "b" := by decide
  have hhandle : Set.InjOn exchange {var | var ∈ awaitAndJoin.declared ++ awaitAndJoin.used} := by
    intro v hv w hw hvw
    rcases hvars v hv with rfl | rfl <;> rcases hvars w hw with rfl | rfl
    · rfl
    · exact absurd hvw (by decide)
    · exact absurd hvw (by decide)
    · rfl
  exact labels_never_steer awaitAndJoin loudAwaitAndJoin exchange louder hhandle (by decide)
    (by decide) .default

end RacePuzzle
