import RacePuzzle.Proofs.Evaluation.Backstage
import Mathlib.Data.List.Forall2

/-! Tasks that show. Both machines run them alike while their clocks stand at the same time, apart from the
silent work that only the first one puts into the background on the way. -/
namespace RacePuzzle

open Interpreter

variable {vars : List String} {C C' : Casting} {m m' : ProgramMachine} {ticket ticket' : Ticket}
  {job job' : JobId} {r r' : ProgramReached}

/-- Both clocks stand at the same time, and the task that is polled shows. -/
structure Casting.InTurn (C : Casting) (ticket ticket' : Ticket) : Prop where
  time : C.time' = C.time
  seat : C.seat ticket (some ticket')

theorem Casting.InTurn.grow (h : C.InTurn ticket ticket') (hC : C.Grows C') : C'.InTurn ticket ticket' :=
  ⟨hC.time'.trans (h.time.trans hC.time.symm), hC.seat h.seat⟩

/-- The code of a task ends alike, or waits alike with frames that show. -/
inductive Progress.Shows (vars : List String) (C : Casting) :
    Progress ProgramFrame → Progress ProgramFrame → Prop
  | ended {result} : Shows vars C (.ended result) (.ended result)
  | suspended {on on' frames frames'} : C.On on (some on') →
      List.Forall₂ (ProgramFrame.Shows vars C) frames frames' →
      Shows vars C (.suspended on frames) (.suspended on' frames')

/-- Code has got equally far on both machines, and more may be cast by then. -/
def ShowsTo (vars : List String) (C : Casting) (r r' : ProgramReached) : Prop :=
  ∃ C', C.Grows C' ∧ r.1.Shows vars C' r'.1 ∧ r.2.Conceals (staging vars) C' r'.2

theorem ShowsTo.after (hC : C.Grows C') (h : ShowsTo vars C' r r') : ShowsTo vars C r r' :=
  let ⟨C'', hC', hshows⟩ := h
  ⟨C'', hC.trans hC', hshows⟩

/-- Code that shows stands in frames that show. -/
theorem ShowsTo.andThen (h : ShowsTo vars C r r') {frame frame' : ProgramFrame}
    (hframe : frame.Shows vars C frame') {k k' : Completion → ProgramMachine → ProgramReached}
    (hk : ∀ {C' m m'} result, C.Grows C' → m.Conceals (staging vars) C' m' →
      ShowsTo vars C' (k result m) (k' result m')) :
    ShowsTo vars C (Reached.andThen frame k r) (Reached.andThen frame' k' r') := by
  obtain ⟨p, m⟩ := r
  obtain ⟨p', m'⟩ := r'
  obtain ⟨C', hC, hp, hm⟩ := h
  cases hp with
  | ended => exact (hk _ hC hm).after hC
  | suspended hon hframes =>
    exact ⟨C', hC, .suspended hon (List.rel_append hframes (.cons (hframe.mono hC.toExtends) .nil)), hm⟩

namespace Machine.Conceals

theorem ended (h : m.Conceals (staging vars) C m') (result : Completion) :
    ShowsTo vars C (.ended result, m) (.ended result, m') :=
  ⟨C, .refl C, .ended, h⟩

theorem done (h : m.Conceals (staging vars) C m') : ShowsTo vars C (Reached.done m) (Reached.done m') :=
  h.ended (.ok ())

theorem afterWait {r r' : WaitStart × ProgramMachine} (h : r.2.Conceals (staging vars) C r'.2)
    (hr : C.Begins r.1 r'.1) {frames frames' : List ProgramFrame}
    (hframes : List.Forall₂ (ProgramFrame.Shows vars C) frames frames')
    {k k' : ProgramMachine → ProgramReached} (hk : ShowsTo vars C (k r.2) (k' r'.2)) :
    ShowsTo vars C (Interpreter.afterWait frames k r) (Interpreter.afterWait frames' k' r') := by
  obtain ⟨start, m⟩ := r
  obtain ⟨start', m'⟩ := r'
  cases hr with
  | through => exact hk
  | @refused why => exact h.ended why.completion
  | suspended hon => exact ⟨C, .refl C, .suspended hon hframes, h⟩

theorem now_eq (h : m.Conceals (staging vars) C m') (htime : C.time' = C.time) : m'.now = m.now :=
  h.times.now'.trans (htime.trans h.times.now.symm)

theorem record (h : m.Conceals (staging vars) C m') (id : StatementId) (mark mark' : Mark)
    (hmark : mark.IsSilent) (hmark' : mark'.IsSilent) :
    (Interpreter.record id mark m).Conceals (staging vars) C (Interpreter.record id mark' m') :=
  have hleft := h.recordLeft id mark hmark
  hleft.setEnv { hleft.env with prints := (prints_record_silent hmark' id m').trans hleft.env.prints }

theorem print (h : m.Conceals (staging vars) C m') (htime : C.time' = C.time) (id : StatementId)
    (value : String) :
    (Interpreter.print id value m).Conceals (staging vars) C (Interpreter.print id value m') := by
  unfold Interpreter.print
  rw [h.env.ending]
  split
  · refine h.setEnv { h.env with prints := ?_ }
    refine (prints_record id (.printed value) m').trans (Eq.trans ?_ (prints_record id (.printed value) m).symm)
    rw [h.prints_eq, h.now_eq htime]
  · exact h

theorem bind (h : m.Conceals (staging vars) C m') (id : StatementId) {var : String} {p p' : Referent}
    (hp : p.Shows C p') :
    (Interpreter.bind id var p m).Conceals (staging vars) C (Interpreter.bind id var p' m') := by
  have hbound : (m.updateEnv fun env => { env with handles := (var, p) :: env.handles }).Conceals
      (staging vars) C (m'.updateEnv fun env => { env with handles := (var, p') :: env.handles }) := by
    refine h.setEnv { h.env with handle := fun v hv => ?_, cast := fun {v q} hq => ?_ }
    · rw [List.lookup_cons, List.lookup_cons]
      split
      · exact .some hp
      · exact h.env.handle v hv
    · rw [List.lookup_cons] at hq
      split at hq
      · exact Option.some.inj hq ▸ hp.isCast
      · exact h.env.cast hq
  exact hbound.record id (.bound p) (.bound p') trivial trivial

theorem exists_signals (h : m.Conceals (staging vars) C m') {p p' : Referent} (hp : p.Shows C p') :
    ∃ s s', signal? p m = some s ∧ signal? p' m' = some s' ∧ C.signal s (some s') := by
  cases hp with
  | task hjob | deferred hjob =>
    obtain ⟨j, j', hj, hj', hsees⟩ := h.exists_jobs hjob
    refine ⟨j.completion, j'.completion, ?_, ?_, hsees.completion⟩
    · rw [signal?, Machine.job?, hj]
      rfl
    · rw [signal?, Machine.job?, hj']
      rfl
  | bare hs => exact ⟨_, _, rfl, rfl, hs⟩

theorem refer (h : m.Conceals (staging vars) C m') {var : String} (hvar : var ∉ vars) (id : StatementId) :
    ∃ p p' m₁ m₁', Interpreter.refer id var m = (p, m₁) ∧ Interpreter.refer id var m' = (p', m₁') ∧
      Option.Rel (Referent.Shows C) p p' ∧ m₁.Conceals (staging vars) C m₁' :=
  ⟨_, _, _, _, rfl, rfl, h.env.handle var hvar, h.record id _ _ trivial trivial⟩

theorem outcome (h : m.Conceals (staging vars) C m') (hcast : C.job job (some job')) :
    (m'.job? job').bind (·.outcome) = (m.job? job).bind (·.outcome) := by
  obtain ⟨j, j', hj, hj', hsees⟩ := h.exists_jobs hcast
  rw [Machine.job?, Machine.job?, hj, hj']
  exact hsees.alike.outcome

theorem printResult (h : m.Conceals (staging vars) C m') (htime : C.time' = C.time)
    (hcast : C.job job (some job')) (id : StatementId) (text : String) :
    ShowsTo vars C (printResult id job text m) (printResult id job' text m') := by
  unfold Interpreter.printResult
  rw [h.outcome hcast]
  have hrecord := h.record id (.awaited ((m.job? job).bind (·.outcome)))
    (.awaited ((m.job? job).bind (·.outcome))) trivial trivial
  dsimp only
  split
  · exact (hrecord.print htime id text).done
  · exact hrecord.ended _

theorem performAction (h : m.Conceals (staging vars) C m') (hturn : C.InTurn ticket ticket')
    (hcast : C.job job (some job')) (id : StatementId) {action : Action}
    (hdeclared : ∀ var ∈ action.declares?, var ∉ vars) (hused : ∀ var ∈ action.uses?, var ∉ vars) :
    ShowsTo vars C (performAction ticket job id action m) (performAction ticket' job' id action m') := by
  cases action with
  | delay time =>
    obtain ⟨C', hC, hbegins, hm⟩ := h.beginDelayShown hcast hturn.seat hturn.time time
    exact (hm.afterWait hbegins .nil hm.done).after hC
  | print text => exact (h.print hturn.time id text).done
  | throwException kind => exact h.ended (.error kind)
  | job var =>
    obtain ⟨C', hC, hs, hm⟩ := h.newSignalShown
    exact (hm.bind id (.bare hs)).done.after hC
  | join var =>
    obtain ⟨_, _, m₁, m₁', he, he', hhandle, hm⟩ := h.refer (hused var rfl) id
    simp only [Interpreter.performAction, he, he']
    cases hhandle with
    | none => exact hm.done
    | @some p p' hp =>
      obtain ⟨s, s', hs, hs', hcasts⟩ := hm.exists_signals hp
      rw [Option.bind_some, Option.bind_some, hs, hs']
      obtain ⟨C', hC, hbegins, hm₂⟩ := hm.beginJoinShown hcast hturn.seat hcasts
      exact (hm₂.afterWait hbegins .nil hm₂.done).after hC
  | cancel var =>
    obtain ⟨_, _, m₁, m₁', he, he', hhandle, hm⟩ := h.refer (hused var rfl) id
    simp only [Interpreter.performAction, he, he']
    cases hhandle with
    | none => exact hm.done
    | some hp =>
      cases hp with
      | task hjob => exact (hm.cancel hjob).done
      | deferred hjob => exact (hm.cancel hjob).done
      | bare hs => exact (hm.fire hs).done
  | completeJob var =>
    obtain ⟨_, _, m₁, m₁', he, he', hhandle, hm⟩ := h.refer (hused var rfl) id
    simp only [Interpreter.performAction, he, he']
    cases hhandle with
    | none => exact hm.done
    | some hp =>
      cases hp with
      | task => exact hm.done
      | deferred => exact hm.done
      | bare hs => exact (hm.fire hs).done
  | printAwait var text =>
    obtain ⟨_, _, m₁, m₁', he, he', hhandle, hm⟩ := h.refer (hused var rfl) id
    simp only [Interpreter.performAction, he, he']
    cases hhandle with
    | none => exact (hm.print hturn.time id text).done
    | some hp =>
      cases hp with
      | task => exact (hm.print hturn.time id text).done
      | bare => exact (hm.print hturn.time id text).done
      | @deferred target target' result hjob =>
        obtain ⟨j, j', hj, hj', hsees⟩ := hm.exists_jobs hjob
        simp only [Machine.job?, hj, hj', Option.map_some]
        obtain ⟨C', hC, hbegins, hm₂⟩ := hm.beginAwaitShown hcast hturn.seat hsees.completion
        refine (hm₂.afterWait hbegins (.cons (.awaited (hC.job hjob)) .nil) ?_).after hC
        exact hm₂.printResult (hturn.grow hC).time (hC.job hjob) id result

theorem close (h : m.Conceals (staging vars) C m') (hticket : C.seat ticket (some ticket'))
    (hcast : C.job job (some job')) (hne : job ≠ C.host) (result : Completion) :
    ShowsTo vars C (Interpreter.close ticket job result m) (Interpreter.close ticket' job' result m') := by
  obtain ⟨houtcome, hclosed⟩ := h.closeShown hcast hne hticket result
  unfold Interpreter.close Reached.afterClose
  generalize m.close ticket job result = r at houtcome hclosed ⊢
  generalize m'.close ticket' job' result = r' at houtcome hclosed ⊢
  obtain ⟨outcome, m₁⟩ := r
  obtain ⟨outcome', m₁'⟩ := r'
  obtain rfl : outcome' = outcome := houtcome
  cases outcome' with
  | some outcome => exact hclosed.ended outcome.completion
  | none => exact ⟨C, .refl C, .suspended (.children hcast hne) (.cons (.settle hcast) .nil), hclosed⟩

theorem catchException (h : m.Conceals (staging vars) C m') (htime : C.time' = C.time) (id : StatementId)
    (kind : ExceptionKind) (result : Completion) :
    ShowsTo vars C (catchException id kind result m) (catchException id kind result m') := by
  unfold Interpreter.catchException
  split
  · exact h.done
  · split
    · exact (h.print htime id handlerText).done
    · exact h.ended _

theorem launch (h : m.Conceals (staging vars) C m') {parent parent' : JobId}
    (hparent : C.job parent (some parent')) {body body' : List Statement}
    (hbody : Statement.Sheds vars body body') :
    ∃ C', C.Grows C' ∧ C'.job (launch parent body m).1 (some (launch parent' body' m').1) ∧
      (launch parent body m).2.Conceals (staging vars) C' (launch parent' body' m').2 := by
  obtain ⟨C₁, hgrows, hjob, hne, hchild⟩ := h.childShown hparent .task nofun
  have hne : m.jobs.size ≠ C₁.host := hgrows.host.symm ▸ hne
  have hframes : List.Forall₂ (ProgramFrame.Shows vars C₁)
      [.rest m.jobs.size body, .close m.jobs.size] [.rest m'.jobs.size body', .close m'.jobs.size] :=
    .cons (.rest hjob hbody) (.cons (.close hjob hne) .nil)
  have htask : Task.Sees vars C₁ ⟨.entry m.jobs.size, _⟩ (some ⟨.entry m'.jobs.size, _⟩) :=
    ⟨.entry hjob, hframes⟩
  obtain ⟨C₂, hgrows', hspawned⟩ := hchild.spawnShown htask
  exact ⟨C₂, hgrows.trans hgrows', hgrows'.job hjob, hspawned⟩

theorem perform_block (h : m.Conceals (staging vars) C m') (hturn : C.InTurn ticket ticket')
    (hcast : C.job job (some job')) (id : StatementId) {head : Head}
    {body body' : List Statement} (hbody : Statement.Sheds vars body body')
    (hinner : ∀ {C m m' job job'}, m.Conceals (staging vars) C m' → C.InTurn ticket ticket' →
      C.job job (some job') →
      ShowsTo vars C (performBody ticket job body m) (performBody ticket' job' body' m')) :
    ShowsTo vars C (perform ticket job (.block id head body) m)
      (perform ticket' job' (.block id head body') m') := by
  have hscope {kind : JobRole} (hkind : kind ≠ .background) : ShowsTo vars C
      (Reached.andThen (.close (m.child job kind).1) (Interpreter.close ticket (m.child job kind).1)
        (performBody ticket (m.child job kind).1 body (m.child job kind).2))
      (Reached.andThen (.close (m'.child job' kind).1) (Interpreter.close ticket' (m'.child job' kind).1)
        (performBody ticket' (m'.child job' kind).1 body' (m'.child job' kind).2)) := by
    obtain ⟨C₁, hC, hjob, hne, hchild⟩ := h.childShown hcast kind hkind
    have hne : m.jobs.size ≠ C₁.host := hC.host.symm ▸ hne
    refine ((hinner hchild (hturn.grow hC) hjob).andThen (.close hjob hne) ?_).after hC
    intro C₂ m₂ m₂' result hC' hm
    exact hm.close (hC'.seat (hC.seat hturn.seat)) (hC'.job hjob) (hC'.host.symm ▸ hne) result
  obtain ⟨C', hC, hjob, hlaunched⟩ := h.launch hcast hbody
  cases head with
  | launch => exact hlaunched.done.after hC
  | scopeLaunch =>
    obtain ⟨C', hC, -, hlaunched⟩ := h.launch (h.env.background.symm ▸ h.env.stage) hbody
    exact hlaunched.done.after hC
  | launchJob var => exact (hlaunched.bind id (.task hjob)).done.after hC
  | async var result => exact (hlaunched.bind id (.deferred hjob)).done.after hC
  | coroutineScope => exact hscope nofun
  | supervisorScope => exact hscope nofun
  | tryCatch kind =>
    refine (hinner h hturn hcast).andThen .catching ?_
    intro C' m₁ m₁' result hC hm
    exact hm.catchException (hturn.grow hC).time id kind result

end Machine.Conceals

theorem showsTo_cons (s s' : Statement) (hid : s'.id = s.id) {rest rest' : List Statement}
    (hs : ShowsTo vars C (perform ticket job s (record s.id .began m))
      (perform ticket' job' s' (record s'.id .began m')))
    (hturn : C.InTurn ticket ticket') (hcast : C.job job (some job'))
    (hrest : Statement.Sheds vars rest rest')
    (ih : ∀ {C m m'}, m.Conceals (staging vars) C m' → C.InTurn ticket ticket' → C.job job (some job') →
      ShowsTo vars C (performBody ticket job rest m) (performBody ticket' job' rest' m')) :
    ShowsTo vars C (performBody ticket job (s :: rest) m) (performBody ticket' job' (s' :: rest') m') := by
  unfold performBody
  generalize perform ticket job s (record s.id .began m) = r at hs
  generalize perform ticket' job' s' (record s'.id .began m') = r' at hs
  obtain ⟨p, m₁⟩ := r
  obtain ⟨p', m₁'⟩ := r'
  obtain ⟨C', hC, hp, hm⟩ := hs
  rw [hid]
  cases hp with
  | @ended result =>
    cases result with
    | ok => exact (ih (hm.record s.id .ended .ended trivial trivial) (hturn.grow hC) (hC.job hcast)).after hC
    | error kind => exact (hm.ended (.error kind)).after hC
  | suspended hon hframes =>
    have houter : List.Forall₂ (ProgramFrame.Shows vars C') [.leave s.id, .rest job rest]
        [.leave s.id, .rest job' rest'] := .cons .leave (.cons (.rest (hC.job hcast) hrest) .nil)
    exact ⟨C', hC, .suspended hon (List.rel_append hframes houter), hm⟩

namespace Machine.Conceals

/-- A body goes on behind silent work that only the first machine puts into the background. -/
theorem performBody_drop (h : m.Conceals (staging vars) C m') (hturn : C.InTurn ticket ticket')
    (hcast : C.job job (some job')) {id : StatementId} {inner rest rest' : List Statement}
    (hinner : Statement.Muted vars inner)
    (ih : ∀ {C m m'}, m.Conceals (staging vars) C m' → C.InTurn ticket ticket' → C.job job (some job') →
      ShowsTo vars C (performBody ticket job rest m) (performBody ticket' job' rest' m')) :
    ShowsTo vars C (performBody ticket job (.block id .scopeLaunch inner :: rest) m)
      (performBody ticket' job' rest' m') := by
  have hbegan := h.recordLeft id .began trivial
  obtain ⟨C', hC, -, hlaunched⟩ := hbegan.launchHidden (.inl hbegan.env.background) hinner
  have hrest := ih (hlaunched.recordLeft id .ended trivial) (hturn.grow hC) (hC.job hcast)
  rw [performBody, perform]
  exact hrest.after hC

theorem performBody {body body' : List Statement} (hbody : Statement.Sheds vars body body')
    (h : m.Conceals (staging vars) C m') (hturn : C.InTurn ticket ticket')
    (hcast : C.job job (some job')) :
    ShowsTo vars C (performBody ticket job body m) (performBody ticket' job' body' m') := by
  induction hbody generalizing C m m' job job' with
  | nil => exact h.done
  | @leaf id action _ _ hdeclared hused hrest ih =>
    refine showsTo_cons (.leaf id action) (.leaf id action) rfl ?_ hturn hcast hrest ih
    exact (h.record id .began .began trivial trivial).performAction hturn hcast id hdeclared hused
  | @block id head inner inner' _ _ hdeclared hinner hrest ih ih' =>
    refine showsTo_cons (.block id head inner) (.block id head inner') rfl ?_ hturn hcast hrest ih'
    exact (h.record id .began .began trivial trivial).perform_block hturn hcast id hinner ih
  | drop hinner hrest ih => exact h.performBody_drop hturn hcast hinner ih

theorem endProgram (h : m.Conceals (staging vars) C m') (htime : C.time' = C.time) (result : Completion) :
    (endProgram result m).Conceals (staging vars) C (endProgram result m') := by
  have hcancelled := h.cancel (h.env.background.symm ▸ h.env.stage)
  rw [Option.elim_some] at hcancelled
  exact hcancelled.setEnv { hcancelled.env with
    ending := congrArg (fun now => some (result, now)) (h.now_eq htime) }

theorem settle (h : m.Conceals (staging vars) C m') (hcast : C.job job (some job')) :
    ShowsTo vars C (.ended (m.settle job).1.completion, (m.settle job).2)
      (.ended (m'.settle job').1.completion, (m'.settle job').2) := by
  obtain ⟨houtcome, hsettled⟩ := h.settleShown hcast
  rw [houtcome]
  exact hsettled.ended _

theorem resume (h : m.Conceals (staging vars) C m') (hturn : C.InTurn ticket ticket')
    {frame frame' : ProgramFrame} (hframe : frame.Shows vars C frame') (result : Completion) :
    ShowsTo vars C (resume ticket frame result m) (resume ticket' frame' result m') := by
  cases hframe with
  | rest hcast hbody =>
    cases result with
    | ok => exact h.performBody hbody hturn hcast
    | error kind => exact h.ended (.error kind)
  | @leave s =>
    cases result with
    | ok => exact (h.record s .ended .ended trivial trivial).done
    | error kind => exact h.ended (.error kind)
  | @catching s kind => exact h.catchException hturn.time s kind result
  | close hcast hne => exact h.close hturn.seat hcast hne result
  | settle hcast => exact h.settle hcast
  | @awaited s _ _ text hcast =>
    cases result with
    | ok => exact h.printResult hturn.time hcast s text
    | error kind => exact h.ended (.error kind)
  | program => exact (h.endProgram hturn.time result).ended result

theorem unwind {frames frames' : List ProgramFrame}
    (hframes : List.Forall₂ (ProgramFrame.Shows vars C) frames frames')
    (h : m.Conceals (staging vars) C m') (hturn : C.InTurn ticket ticket') (result : Completion) :
    ShowsTo vars C (FrameCode.unwind ticket frames result m)
      (FrameCode.unwind ticket' frames' result m') := by
  induction frames generalizing C m m' frames' result with
  | nil =>
    cases hframes
    exact h.ended result
  | cons frame outer ih =>
    cases hframes with
    | @cons _ frame' _ outer' hframe houter =>
      have hr : ShowsTo vars C (FrameCode.resume ticket frame result m)
        (FrameCode.resume ticket' frame' result m') := h.resume hturn hframe result
      unfold FrameCode.unwind
      generalize FrameCode.resume ticket frame result m = r at hr
      generalize FrameCode.resume ticket' frame' result m' = r' at hr
      obtain ⟨p, m₁⟩ := r
      obtain ⟨p', m₁'⟩ := r'
      obtain ⟨C', hC, hp, hm⟩ := hr
      have houter := houter.imp fun _ _ hframe => hframe.mono hC.toExtends
      cases hp with
      | @ended result' => exact (ih houter hm (hturn.grow hC) result').after hC
      | suspended hon hinner => exact ⟨C', hC, .suspended hon (List.rel_append hinner houter), hm⟩

theorem poll (h : m.Conceals (staging vars) C m') (hturn : C.InTurn ticket ticket')
    {task task' : Task ProgramFrame} (htask : task.Sees vars C (some task')) :
    ∃ C', C.Grows C' ∧
      Option.Rel (fun task task' => task.Sees vars C' (some task')) (FrameCode.poll ticket task m).1
        (FrameCode.poll ticket' task' m').1 ∧
      (FrameCode.poll ticket task m).2.Conceals (staging vars) C' (FrameCode.poll ticket' task' m').2 := by
  obtain ⟨hresult, hresumed⟩ := h.resumptionShown hturn.seat htask.on
  unfold FrameCode.poll
  generalize m.resumption ticket task.on = r at hresult hresumed ⊢
  generalize m'.resumption ticket' task'.on = r' at hresult hresumed ⊢
  obtain ⟨result, m₁⟩ := r
  obtain ⟨result', m₁'⟩ := r'
  obtain rfl : result' = result := hresult
  cases result' with
  | none => exact ⟨C, .refl C, .some htask, hresumed⟩
  | some result =>
    obtain ⟨C', hC, hp, hm⟩ : ShowsTo vars C (FrameCode.proceed ticket task.frames result m₁)
        (FrameCode.proceed ticket' task'.frames result m₁') := by
      rw [Snapshot.proceed_eq_unwind, Snapshot.proceed_eq_unwind]
      exact hresumed.unwind htask.frames hturn _
    dsimp only
    generalize FrameCode.proceed ticket task.frames result m₁ = r at hp hm ⊢
    generalize FrameCode.proceed ticket' task'.frames result m₁' = r' at hp hm ⊢
    obtain ⟨p, m₂⟩ := r
    obtain ⟨p', m₂'⟩ := r'
    cases hp with
    | ended => exact ⟨C', hC, .none, hm⟩
    | suspended hon hframes => exact ⟨C', hC, .some ⟨hon, hframes⟩, hm⟩

theorem runReadyShown (h : m.Conceals (staging vars) C m') (htime : C.time' = C.time) {id id' : SeatId}
    (hid : C.seat id (some id')) {rest rest' : List SeatId} (hrest : Sifted C.seat rest rest') :
    ∃ C', C.Grows C' ∧ (m.runReady id rest).Conceals (staging vars) C' (m'.runReady id' rest') := by
  obtain ⟨hfound, hd⟩ := (h.setReady hrest).checkOutShown hid
  unfold Machine.runReady
  generalize ({ m.dispatcher with ready := rest } : Dispatcher (Task ProgramFrame)).checkOut id = r
    at hfound hd ⊢
  generalize ({ m'.dispatcher with ready := rest' } : Dispatcher (Task ProgramFrame)).checkOut id' = r'
    at hfound hd ⊢
  obtain ⟨found, d⟩ := r
  obtain ⟨found', d'⟩ := r'
  have hm := h.dispatch hd
  cases hfound with
  | none => exact ⟨C, .refl C, hm⟩
  | @some seated seated' hseated =>
    obtain ⟨ticket, task⟩ := seated
    obtain ⟨ticket', task'⟩ := seated'
    obtain ⟨hticket, htask⟩ := hseated
    obtain ⟨C', hC, hleft, hpolled⟩ := hm.poll ⟨htime, hticket⟩ htask
    dsimp only at hleft hpolled ⊢
    generalize FrameCode.poll ticket task { m with dispatcher := d } = r at hleft hpolled ⊢
    generalize FrameCode.poll ticket' task' { m' with dispatcher := d' } = r' at hleft hpolled ⊢
    obtain ⟨left, m₁⟩ := r
    obtain ⟨left', m₁'⟩ := r'
    cases hleft with
    | none => exact ⟨C', hC, hpolled.dispatch (hpolled.dispatcher.finish (hC.seat hticket))⟩
    | some hleft =>
      exact ⟨C', hC, hpolled.dispatch (hpolled.dispatcher.checkInShown (hC.seat hid) hleft)⟩

end Machine.Conceals

end RacePuzzle
