import RacePuzzle.Proofs.Evaluation.Notes
import RacePuzzle.Proofs.Evaluation.Snapshot
import RacePuzzle.Proofs.Machine.Enlisting
import RacePuzzle.Proofs.Program.Silence

/-! Tasks that nobody hears. Two machines run a program with and without silent work in the background;
whatever a task of that work does on the first machine, the second one conceals it. -/
namespace RacePuzzle

open Interpreter

variable {vars : List String} {C C' : Casting}

inductive Referent.Shows (C : Casting) : Referent → Referent → Prop
  | task {job job'} : C.job job (some job') → Shows C (.task job) (.task job')
  | deferred {job job' text} : C.job job (some job') → Shows C (.deferred job text) (.deferred job' text)
  | bare {s s'} : C.signal s (some s') → Shows C (.bare s) (.bare s')

/-- What the handle stands for is cast, and shows or is hidden. -/
inductive Referent.IsCast (C : Casting) : Referent → Prop
  | task {job o} : C.job job o → IsCast C (.task job)
  | deferred {job o text} : C.job job o → IsCast C (.deferred job text)
  | bare {s o} : C.signal s o → IsCast C (.bare s)

theorem Referent.Shows.isCast {r r' : Referent} (h : r.Shows C r') : r.IsCast C := by
  cases h with
  | task hjob => exact .task hjob
  | deferred hjob => exact .deferred hjob
  | bare hs => exact .bare hs

theorem Referent.Shows.mono {r r' : Referent} (h : r.Shows C r') (hC : C.Extends C') :
    r.Shows C' r' := by
  cases h with
  | task hjob => exact .task (hC.job hjob)
  | deferred hjob => exact .deferred (hC.job hjob)
  | bare hs => exact .bare (hC.signal hs)

theorem Referent.IsCast.mono {r : Referent} (h : r.IsCast C) (hC : C.Extends C') : r.IsCast C' := by
  cases h with
  | task hjob => exact .task (hC.job hjob)
  | deferred hjob => exact .deferred (hC.job hjob)
  | bare hs => exact .bare (hC.signal hs)

/-- Both programs have printed the same and ended alike, and handles outside `vars` stand for the same
on both sides. -/
structure ProgramEnv.Sees (vars : List String) (C : Casting) (e e' : ProgramEnv) : Prop where
  background : e.background = C.host
  stage : C.job C.host (some e'.background)
  handle : ∀ var ∉ vars, Option.Rel (Referent.Shows C) (e.handles.lookup var) (e'.handles.lookup var)
  cast : ∀ {var r}, e.handles.lookup var = some r → r.IsCast C
  ending : e'.ending = e.ending
  prints : e'.trace.toList.filterMap TraceEntry.event? = e.trace.toList.filterMap TraceEntry.event?

theorem ProgramEnv.Sees.mono {e e' : ProgramEnv} (h : e.Sees vars C e') (hC : C.Extends C') :
    e.Sees vars C' e' where
  background := h.background.trans hC.host.symm
  stage := hC.host ▸ hC.job h.stage
  handle var hvar := by
    have hold := h.handle var hvar
    generalize e.handles.lookup var = r at hold
    generalize e'.handles.lookup var = r' at hold
    cases hold with
    | none => exact .none
    | some hr => exact .some (hr.mono hC)
  cast hr := (h.cast hr).mono hC
  ending := h.ending
  prints := h.prints

/-- The frames of a hidden task run silent bodies in hidden jobs. -/
inductive ProgramFrame.IsHidden (vars : List String) (C : Casting) : ProgramFrame → Prop
  | rest {job body} : C.job job none → Statement.Muted vars body → IsHidden vars C (.rest job body)
  | leave {s} : IsHidden vars C (.leave s)
  | close {job} : C.job job none → IsHidden vars C (.close job)
  | settle {job} : C.job job none → IsHidden vars C (.settle job)

/-- The frames of a task that shows run the same bodies in the same jobs, but for silent work. -/
inductive ProgramFrame.Shows (vars : List String) (C : Casting) : ProgramFrame → ProgramFrame → Prop
  | rest {job job' body body'} : C.job job (some job') → Statement.Sheds vars body body' →
      Shows vars C (.rest job body) (.rest job' body')
  | leave {s} : Shows vars C (.leave s) (.leave s)
  | catching {s kind} : Shows vars C (.catching s kind) (.catching s kind)
  | close {job job'} : C.job job (some job') → job ≠ C.host → Shows vars C (.close job) (.close job')
  | settle {job job'} : C.job job (some job') → Shows vars C (.settle job) (.settle job')
  | awaited {s job job' text} : C.job job (some job') →
      Shows vars C (.awaited s job text) (.awaited s job' text)
  | program : Shows vars C .program .program

theorem ProgramFrame.IsHidden.mono {frame : ProgramFrame} (h : frame.IsHidden vars C)
    (hC : C.Extends C') : frame.IsHidden vars C' := by
  cases h with
  | rest hjob hbody => exact .rest (hC.job hjob) hbody
  | leave => exact .leave
  | close hjob => exact .close (hC.job hjob)
  | settle hjob => exact .settle (hC.job hjob)

theorem ProgramFrame.Shows.mono {frame frame' : ProgramFrame} (h : frame.Shows vars C frame')
    (hC : C.Extends C') : frame.Shows vars C' frame' := by
  cases h with
  | rest hjob hbody => exact .rest (hC.job hjob) hbody
  | leave => exact .leave
  | catching => exact .catching
  | close hjob hne => exact .close (hC.job hjob) (hC.host.symm ▸ hne)
  | settle hjob => exact .settle (hC.job hjob)
  | awaited hjob => exact .awaited (hC.job hjob)
  | program => exact .program

/-- A task is hidden with all its frames, or shows with all of them. -/
structure Task.Sees (vars : List String) (C : Casting) (task : Task ProgramFrame)
    (o : Option (Task ProgramFrame)) : Prop where
  on : C.On task.on (o.map (·.on))
  frames : o.elim (∀ frame ∈ task.frames, frame.IsHidden vars C)
    fun task' => List.Forall₂ (ProgramFrame.Shows vars C) task.frames task'.frames

theorem Task.Sees.mono {task : Task ProgramFrame} {o : Option (Task ProgramFrame)}
    (h : task.Sees vars C o) (hC : C.Extends C') : task.Sees vars C' o := by
  refine ⟨h.on.mono hC, ?_⟩
  have hframes := h.frames
  cases o with
  | none => exact fun frame hframe => (hframes frame hframe).mono hC
  | some task' => exact hframes.imp fun _ _ hframe => hframe.mono hC

/-- A program and the same program without silent work in the background, which binds `vars`. -/
def staging (vars : List String) : View ProgramEnv (Task ProgramFrame) where
  env := ProgramEnv.Sees vars
  task := Task.Sees vars
  env_mono hC h := h.mono hC
  task_mono hC h := h.mono hC

variable {m m' : ProgramMachine} {ticket : Ticket} {job : JobId}

theorem Machine.Conceals.setEnv {ε τ : Type} {V : View ε τ} {m m' : Machine ε τ}
    (h : m.Conceals V C m') {e e' : ε} (he : V.env C e e') :
    ({ m with env := e } : Machine ε τ).Conceals V C { m' with env := e' } :=
  { h with env := he }

theorem Machine.Conceals.setEnvLeft {ε τ : Type} {V : View ε τ} {m m' : Machine ε τ}
    (h : m.Conceals V C m') {e : ε} (he : V.env C e m'.env) :
    ({ m with env := e } : Machine ε τ).Conceals V C m' :=
  { h with env := he }

namespace Machine.Conceals

theorem prints_eq (h : m.Conceals (staging vars) C m') : prints m' = prints m := h.env.prints

theorem recordLeft (h : m.Conceals (staging vars) C m') (id : StatementId) (mark : Mark)
    (hm : mark.IsSilent) : (record id mark m).Conceals (staging vars) C m' :=
  h.setEnvLeft { h.env with prints := h.env.prints.trans (prints_record_silent hm id m).symm }

/-- A hidden task binds a handle that is used by hidden tasks only. -/
theorem bindLeft (h : m.Conceals (staging vars) C m') (id : StatementId) {var : String}
    (hvar : var ∈ vars) {r : Referent} (hr : r.IsCast C) :
    (Interpreter.bind id var r m).Conceals (staging vars) C m' := by
  have hbound : (m.updateEnv fun env => { env with handles := (var, r) :: env.handles }).Conceals
      (staging vars) C m' := by
    refine h.setEnvLeft { h.env with handle := fun v hv => ?_, cast := fun {v p} hp => ?_ }
    · have hne : (v == var) = false := beq_eq_false_iff_ne.2 fun he => hv (he ▸ hvar)
      rw [List.lookup_cons, hne]
      exact h.env.handle v hv
    · rw [List.lookup_cons] at hp
      split at hp
      · exact Option.some.inj hp ▸ hr
      · exact h.env.cast hp
  exact hbound.recordLeft id (.bound r) trivial

/-- What stands for something has a signal that fires when it is complete. -/
theorem exists_signal (h : m.Conceals (staging vars) C m') {r : Referent} (hr : r.IsCast C) :
    ∃ s p, signal? r m = some s ∧ C.signal s p := by
  cases hr with
  | task hjob | deferred hjob =>
    obtain ⟨j, hj, hsees⟩ := h.exists_job hjob
    refine ⟨j.completion, _, ?_, hsees.completion⟩
    rw [signal?, Machine.job?, hj]
    rfl
  | bare hs => exact ⟨_, _, rfl, hs⟩

end Machine.Conceals

/-- How far a hidden task got while the other machine stood still. -/
structure Hides (vars : List String) (C : Casting) (r : ProgramReached) (m' : ProgramMachine) : Prop where
  machine : r.2.Conceals (staging vars) C m'
  left : ∀ {on frames}, r.1 = .suspended on frames →
    C.On on none ∧ ∀ frame ∈ frames, frame.IsHidden vars C

namespace Machine.Conceals

theorem hides_ended (h : m.Conceals (staging vars) C m') (result : Completion) :
    Hides vars C (.ended result, m) m' :=
  ⟨h, nofun⟩

theorem hides_afterWait {r : WaitStart × ProgramMachine} (h : r.2.Conceals (staging vars) C m')
    (hon : ∀ on, r.1 = .suspended on → C.On on none) : Hides vars C (afterWait [] .done r) m' := by
  obtain ⟨start, m⟩ := r
  cases start with
  | through => exact h.hides_ended (.ok ())
  | refused why => exact h.hides_ended why.completion
  | suspended on =>
    refine ⟨h, fun {on' frames} he => ?_⟩
    cases he
    exact ⟨hon on rfl, nofun⟩

theorem performActionHidden (h : m.Conceals (staging vars) C m') (hcast : C.job job none)
    (hticket : C.seat ticket none) {id : StatementId} {action : Action}
    (hsilent : (Statement.leaf id action).isSilent) (hvars : ∀ var ∈ action.declares?, var ∈ vars) :
    ∃ C', C.Grows C' ∧ Hides vars C' (performAction ticket job id action m) m' := by
  cases action with
  | delay time =>
    obtain ⟨C', hC, hon, hm⟩ := h.beginDelayHidden hcast hticket time
    exact ⟨C', hC, hides_afterWait hm hon⟩
  | throwException kind => exact ⟨C, .refl C, h.hides_ended (.error kind)⟩
  | job var =>
    obtain ⟨C', hC, hs, hm⟩ := h.newSignalHidden
    exact ⟨C', hC, (hm.bindLeft id (hvars var rfl) (.bare hs)).hides_ended (.ok ())⟩
  | join var =>
    have hm := h.recordLeft id (.referred (m.env.handles.lookup var)) trivial
    simp only [performAction, refer]
    cases hr : m.env.handles.lookup var with
    | none => exact ⟨C, .refl C, (hr ▸ hm).hides_ended (.ok ())⟩
    | some r =>
      rw [hr] at hm
      obtain ⟨s, p, hs, hcasts⟩ := hm.exists_signal (h.env.cast hr)
      rw [Option.bind_some, hs]
      obtain ⟨C', hC, hon, hm⟩ := hm.beginJoinHidden hcast hticket hcasts
      exact ⟨C', hC, hides_afterWait hm hon⟩
  | print text | cancel var | completeJob var | printAwait var text => cases hsilent

theorem launchHidden (h : m.Conceals (staging vars) C m') {parent : JobId}
    (hparent : parent = C.host ∨ C.job parent none) {body : List Statement}
    (hbody : Statement.Muted vars body) :
    ∃ C', C.Grows C' ∧ C'.job (launch parent body m).1 none ∧
      (launch parent body m).2.Conceals (staging vars) C' m' := by
  obtain ⟨C₁, hgrows, hjob, hchild⟩ := h.childHidden hparent .task nofun
  have hframes : ∀ frame ∈ [ProgramFrame.rest m.jobs.size body, .close m.jobs.size],
      frame.IsHidden vars C₁ := by
    intro frame hframe
    rcases List.mem_cons.1 hframe with rfl | hframe
    · exact .rest hjob hbody
    · rw [List.mem_singleton.1 hframe]
      exact .close hjob
  have htask : Task.Sees vars C₁ ⟨.entry m.jobs.size, _⟩ none := ⟨.entry (o := none) hjob, hframes⟩
  obtain ⟨C₂, hgrows', hspawned⟩ := hchild.spawnHidden htask
  exact ⟨C₂, hgrows.trans hgrows', hgrows'.job hjob, hspawned⟩

theorem enterHidden (h : m.Conceals (staging vars) C m') (hcast : C.job job none) {id : StatementId}
    {head : Head} {body : List Statement} (hsilent : (Statement.block id head body).isSilent)
    (hvars : ∀ var ∈ head.declares?, var ∈ vars) (hbody : Statement.Muted vars body) :
    ∃ C', C.Grows C' ∧ (∀ frame ∈ (enter job id head body m).1, frame.IsHidden vars C') ∧
      (enter job id head body m).2.Conceals (staging vars) C' m' := by
  have hscope {kind : JobRole} (hkind : kind ≠ .background) : ∃ C', C.Grows C' ∧
      (∀ frame ∈ [ProgramFrame.rest m.jobs.size body, .close m.jobs.size], frame.IsHidden vars C') ∧
      (m.child job kind).2.Conceals (staging vars) C' m' := by
    obtain ⟨C', hC, hjob, hm⟩ := h.childHidden (.inr hcast) kind hkind
    refine ⟨C', hC, fun frame hframe => ?_, hm⟩
    rcases List.mem_cons.1 hframe with rfl | hframe
    · exact .rest hjob hbody
    · rw [List.mem_singleton.1 hframe]
      exact .close hjob
  cases head with
  | launch =>
    obtain ⟨C', hC, -, hm⟩ := h.launchHidden (.inr hcast) hbody
    exact ⟨C', hC, nofun, hm⟩
  | scopeLaunch =>
    obtain ⟨C', hC, -, hm⟩ := h.launchHidden (.inl h.env.background) hbody
    exact ⟨C', hC, nofun, hm⟩
  | launchJob var =>
    obtain ⟨C', hC, hjob, hm⟩ := h.launchHidden (.inr hcast) hbody
    exact ⟨C', hC, nofun, hm.bindLeft id (hvars var rfl) (.task hjob)⟩
  | async var result =>
    obtain ⟨C', hC, hjob, hm⟩ := h.launchHidden (.inr hcast) hbody
    exact ⟨C', hC, nofun, hm.bindLeft id (hvars var rfl) (.deferred hjob)⟩
  | coroutineScope => exact hscope nofun
  | supervisorScope => exact hscope nofun
  | tryCatch kind => cases hsilent

theorem closeHides (h : m.Conceals (staging vars) C m') (hcast : C.job job none)
    (hticket : C.seat ticket none) (result : Completion) :
    Hides vars C (Interpreter.close ticket job result m) m' := by
  have hne := h.ne_host hcast
  have hclosed := h.closeHidden hcast hticket result
  unfold Interpreter.close Reached.afterClose
  generalize m.close ticket job result = r at hclosed
  obtain ⟨outcome, m₁⟩ := r
  cases outcome with
  | some outcome => exact hclosed.hides_ended outcome.completion
  | none =>
    refine ⟨hclosed, fun he => ?_⟩
    cases he
    refine ⟨.children (o := none) hcast hne, fun frame hframe => ?_⟩
    rw [List.mem_singleton.1 hframe]
    exact .settle hcast

end Machine.Conceals

structure Thread.Hidden (vars : List String) (C : Casting) (th : Thread) (m' : ProgramMachine) : Prop where
  machine : th.machine.Conceals (staging vars) C m'
  frames : ∀ frame ∈ th.frames, frame.IsHidden vars C

namespace Thread.Hidden

variable {th th' : Thread} {outer : List ProgramFrame} {result : Completion}

/-- What stands around the code of a hidden task is hidden as well. -/
theorem around {frame : ProgramFrame} (h : Hidden vars C ⟨frame :: outer, result, m⟩ m')
    (hC : C.Grows C') : ∀ frame ∈ outer, frame.IsHidden vars C' :=
  fun frame hframe => (h.frames frame (.tail _ hframe)).mono hC.toExtends

theorem act {id : StatementId} {action : Action} {body : List Statement}
    (h : Hidden vars C ⟨.rest job (.leaf id action :: body) :: outer, .ok (), m⟩ m')
    (hticket : C.seat ticket none) :
    ∃ C', C.Grows C' ∧ Hides vars C' (performAction ticket job id action (record id .began m)) m' ∧
      ∀ frame ∈ .leave id :: .rest job body :: outer, frame.IsHidden vars C' := by
  cases h.frames _ (.head _) with
  | rest hjob hbody =>
    obtain ⟨hsilent, hvars⟩ := hbody.head
    have hbegan : (record id .began m).Conceals (staging vars) C m' := h.machine.recordLeft id .began trivial
    obtain ⟨C', hC, hacted⟩ := hbegan.performActionHidden hjob hticket hsilent hvars
    exact ⟨C', hC, hacted, List.forall_mem_cons.2 ⟨.leave,
      List.forall_mem_cons.2 ⟨.rest (hC.job hjob) hbody.tail, h.around hC⟩⟩⟩

theorem close (h : Hidden vars C ⟨.close job :: outer, result, m⟩ m') (hticket : C.seat ticket none) :
    Hides vars C (Interpreter.close ticket job result m) m' := by
  cases h.frames _ (.head _) with
  | close hjob => exact h.machine.closeHides hjob hticket result

theorem step (h : th.Hidden vars C m') (hticket : C.seat ticket none) (hs : Step ticket th th') :
    ∃ C', C.Grows C' ∧ th'.Hidden vars C' m' := by
  cases hs with
  | pass => exact ⟨C, .refl C, h.machine, h.around (.refl C)⟩
  | bodyEnd => exact ⟨C, .refl C, h.machine, h.around (.refl C)⟩
  | act heq =>
    obtain ⟨C', hC, hacted, hframes⟩ := h.act hticket
    rw [heq] at hacted
    exact ⟨C', hC, hacted.machine, hframes⟩
  | @enter job id head inner body outer m =>
    cases h.frames _ (.head _) with
    | rest hjob hbody =>
      obtain ⟨hsilent, hvars⟩ := hbody.head
      have hbegan : (record id .began m).Conceals (staging vars) C m' := h.machine.recordLeft id .began trivial
      obtain ⟨C', hC, hinner, hentered⟩ := hbegan.enterHidden hjob hsilent hvars hbody.inside
      have hrest : ∀ frame ∈ .leave id :: .rest job body :: outer, frame.IsHidden vars C' :=
        List.forall_mem_cons.2 ⟨.leave,
          List.forall_mem_cons.2 ⟨.rest (hC.job hjob) hbody.tail, h.around hC⟩⟩
      exact ⟨C', hC, hentered, List.forall_mem_append.2 ⟨hinner, hrest⟩⟩
  | @leave id => exact ⟨C, .refl C, h.machine.recordLeft id .ended trivial, h.around (.refl C)⟩
  | close heq =>
    have hclosed := h.close hticket
    rw [heq] at hclosed
    exact ⟨C, .refl C, hclosed.machine, h.around (.refl C)⟩
  | settle =>
    cases h.frames _ (.head _) with
    | settle hjob => exact ⟨C, .refl C, h.machine.settleHidden hjob, h.around (.refl C)⟩
  -- No frame of a hidden task catches, awaits a result or ends the program.
  | catching | awaited | program => cases h.frames _ (.head _)

theorem steps (h : th.Hidden vars C m') (hticket : C.seat ticket none) (hs : Steps ticket th th') :
    ∃ C', C.Grows C' ∧ th'.Hidden vars C' m' := by
  induction hs with
  | refl => exact ⟨C, .refl C, h⟩
  | tail _ hstep ih =>
    obtain ⟨C₁, hgrows, hmid⟩ := ih
    obtain ⟨C₂, hgrows', hlast⟩ := hmid.step (hgrows.seat hticket) hstep
    exact ⟨C₂, hgrows.trans hgrows', hlast⟩

theorem suspends (h : th.Hidden vars C m') (hticket : C.seat ticket none) {on : Suspension}
    {frames : List ProgramFrame} (hs : Suspends ticket th on frames m) :
    ∃ C', C.Grows C' ∧ Hides vars C' (.suspended on frames, m) m' := by
  cases hs with
  | act heq =>
    obtain ⟨C', hC, hacted, hframes⟩ := h.act hticket
    rw [heq] at hacted
    obtain ⟨hon, hinner⟩ := hacted.left rfl
    refine ⟨C', hC, hacted.machine, fun he => ?_⟩
    cases he
    exact ⟨hon, List.forall_mem_append.2 ⟨hinner, hframes⟩⟩
  | close heq =>
    have hclosed := h.close hticket
    rw [heq] at hclosed
    obtain ⟨hon, hinner⟩ := hclosed.left rfl
    refine ⟨C, .refl C, hclosed.machine, fun he => ?_⟩
    cases he
    exact ⟨hon, List.forall_mem_append.2 ⟨hinner, h.around (.refl C)⟩⟩

theorem unwind {frames : List ProgramFrame}
    (h : Hidden vars C ⟨frames, result, m⟩ m') (hticket : C.seat ticket none) :
    ∃ C', C.Grows C' ∧ Hides vars C' (FrameCode.unwind ticket frames result m) m' := by
  have hreaches := reaches_unwind ticket frames result m
  generalize FrameCode.unwind ticket frames result m = r at hreaches ⊢
  obtain ⟨p, m₁⟩ := r
  cases p with
  | ended result' =>
    obtain ⟨C', hC, hlast⟩ := h.steps hticket hreaches
    exact ⟨C', hC, hlast.machine.hides_ended result'⟩
  | suspended on inner =>
    obtain ⟨last, hsteps, hsuspends⟩ := hreaches
    obtain ⟨C₁, hgrows, hlast⟩ := h.steps hticket hsteps
    obtain ⟨C₂, hgrows', hleft⟩ := hlast.suspends (hgrows.seat hticket) hsuspends
    rw [List.append_nil] at hleft
    exact ⟨C₂, hgrows.trans hgrows', hleft⟩

end Thread.Hidden

namespace Machine.Conceals

theorem pollHidden (h : m.Conceals (staging vars) C m') (hticket : C.seat ticket none)
    {task : Task ProgramFrame} (htask : task.Sees vars C none) :
    ∃ C', C.Grows C' ∧ (∀ task' ∈ (FrameCode.poll ticket task m).1, task'.Sees vars C' none) ∧
      (FrameCode.poll ticket task m).2.Conceals (staging vars) C' m' := by
  have hresumed := h.resumptionHidden hticket htask.on
  unfold FrameCode.poll
  generalize m.resumption ticket task.on = r at hresumed ⊢
  obtain ⟨result, m₁⟩ := r
  cases result with
  | none => exact ⟨C, .refl C, fun _ he => Option.some.inj he ▸ htask, hresumed⟩
  | some result =>
    obtain ⟨C', hC, hleft⟩ : ∃ C', C.Grows C' ∧
        Hides vars C' (FrameCode.proceed ticket task.frames result m₁) m' := by
      rw [Snapshot.proceed_eq_unwind]
      exact Thread.Hidden.unwind ⟨hresumed, htask.frames⟩ hticket
    dsimp only
    generalize FrameCode.proceed ticket task.frames result m₁ = r at hleft ⊢
    obtain ⟨p, m₂⟩ := r
    cases p with
    | ended result' => exact ⟨C', hC, nofun, hleft.machine⟩
    | suspended on frames =>
      obtain ⟨hon, hframes⟩ := hleft.left rfl
      refine ⟨C', hC, fun _ he => ?_, hleft.machine⟩
      obtain rfl := Option.some.inj he
      exact ⟨hon, hframes⟩

theorem setReady (h : m.Conceals (staging vars) C m') {rest rest' : List SeatId}
    (hrest : Sifted C.seat rest rest') :
    ({ m.dispatcher with ready := rest } : Dispatcher (Task ProgramFrame)).Sees (Task.Sees vars C) C.seat
      { m'.dispatcher with ready := rest' } :=
  ⟨h.dispatcher.tickets, h.dispatcher.seats, hrest⟩

theorem dispatch (h : m.Conceals (staging vars) C m') {d d' : Dispatcher (Task ProgramFrame)}
    (hd : d.Sees (Task.Sees vars C) C.seat d') :
    ({ m with dispatcher := d } : ProgramMachine).Conceals (staging vars) C { m' with dispatcher := d' } :=
  { h with dispatcher := hd }

theorem runReadyHidden (h : m.Conceals (staging vars) C m') {id : SeatId} (hid : C.seat id none)
    {rest : List SeatId} (hrest : Sifted C.seat rest m'.dispatcher.ready) :
    ∃ C', C.Grows C' ∧ (m.runReady id rest).Conceals (staging vars) C' m' := by
  obtain ⟨hfound, hd⟩ := (h.setReady hrest).checkOutHidden hid
  unfold Machine.runReady
  generalize ({ m.dispatcher with ready := rest } : Dispatcher (Task ProgramFrame)).checkOut id = r
    at hfound hd ⊢
  obtain ⟨found, d⟩ := r
  have hm : ({ m with dispatcher := d } : ProgramMachine).Conceals (staging vars) C m' := h.dispatch hd
  cases found with
  | none => exact ⟨C, .refl C, hm⟩
  | some seated =>
    obtain ⟨ticket, task⟩ := seated
    obtain ⟨hticket, htask⟩ := hfound _ rfl
    obtain ⟨C', hC, hleft, hpolled⟩ := hm.pollHidden hticket htask
    dsimp only
    generalize FrameCode.poll ticket task { m with dispatcher := d } = r at hleft hpolled ⊢
    obtain ⟨left, m₁⟩ := r
    cases left with
    | none => exact ⟨C', hC, hpolled.dispatch (hpolled.dispatcher.finish (hC.seat hticket))⟩
    | some left =>
      exact ⟨C', hC, hpolled.dispatch (hpolled.dispatcher.checkInHidden (hC.seat hid) (hleft _ rfl))⟩

end Machine.Conceals

end RacePuzzle
