import RacePuzzle.Proofs.Machine.Outline
import RacePuzzle.Proofs.Machine.Run

/-! Machines whose tasks and environment are made of something else. No operation looks inside these,
so that it makes no difference whether they are recast before or after it; and code that is recast as
well comes equally far. -/
namespace RacePuzzle

/-- What names stand for is found alike under other names. -/
theorem lookup_map {α β : Type} {f : String → String} (hf : Function.Injective f) (g : α → β)
    (named : List (String × α)) (name : String) :
    (named.map (Prod.map f g)).lookup (f name) = (named.lookup name).map g := by
  induction named with
  | nil => rfl
  | cons first rest ih =>
    obtain ⟨other, value⟩ := first
    have hsame : (f name == f other) = (name == other) := by
      rw [Bool.eq_iff_iff, beq_iff_eq, beq_iff_eq]
      exact hf.eq_iff
    rw [List.map_cons, Prod.map, List.lookup_cons, List.lookup_cons, hsame, ih]
    split <;> rfl

section Operations

variable {ε ε' τ τ' : Type} (F : τ → τ') (G : ε → ε')

def Seat.recast (seat : Seat τ) : Seat τ' := ⟨seat.task.map F, seat.ticket⟩

namespace Dispatcher

variable (d : Dispatcher τ)

def recast : Dispatcher τ' := { d with seats := d.seats.map (Seat.recast F) }

theorem seats_recast (i : SeatId) :
    (d.recast F).seats[i]? = (d.seats[i]?).map (Seat.recast F) :=
  Array.getElem?_map ..

theorem recast_wake (ticket : Ticket) : (d.wake ticket).recast F = (d.recast F).wake ticket := by
  have hsame : (d.recast F).tickets = d.tickets := rfl
  unfold wake
  rw [hsame]
  split
  · rfl
  · split <;> rfl

theorem recast_wakeAll (tickets : List Ticket) :
    (d.wakeAll tickets).recast F = (d.recast F).wakeAll tickets := by
  induction tickets generalizing d with
  | nil => rfl
  | cons ticket rest ih => exact (ih (d.wake ticket)).trans (by rw [recast_wake]; rfl)

theorem recast_spawn (task : τ) : (d.spawn task).recast F = (d.recast F).spawn (F task) := by
  unfold spawn recast
  simp [Seat.recast]

theorem checkOut_recast (i : SeatId) : (d.recast F).checkOut i =
    Prod.map (Option.map (Prod.map id F)) (recast F) (d.checkOut i) := by
  unfold checkOut
  rw [seats_recast]
  cases d.seats[i]? with
  | none => rfl
  | some seat =>
    obtain ⟨task, ticket⟩ := seat
    cases task with
    | none => rfl
    | some task => simp [recast, Seat.recast]

theorem recast_checkIn (i : SeatId) (task : τ) :
    (d.checkIn i task).recast F = (d.recast F).checkIn i (F task) := by
  unfold checkIn
  rw [seats_recast]
  cases d.seats[i]? with
  | none => rfl
  | some seat => simp [recast, Seat.recast]

end Dispatcher

namespace Machine

variable (m : Machine ε τ)

def recast : Machine ε' τ' := { m with dispatcher := m.dispatcher.recast F, env := G m.env }

@[simp] theorem recast_wake (ticket : Ticket) : (m.wake ticket).recast F G = (m.recast F G).wake ticket := by
  rw [recast, wake, Dispatcher.recast_wake]
  rfl

@[simp] theorem recast_wakeAll (tickets : List Ticket) :
    (m.wakeAll tickets).recast F G = (m.recast F G).wakeAll tickets := by
  rw [recast, wakeAll, Dispatcher.recast_wakeAll]
  rfl

@[simp] theorem recast_spawn (task : τ) :
    (m.spawn task).recast F G = (m.recast F G).spawn (F task) := by
  rw [recast, spawn, Dispatcher.recast_spawn]
  rfl

@[simp] theorem recast_fire (signal : SignalId) :
    (m.fire signal).recast F G = (m.recast F G).fire signal := by
  have hsame : (m.recast F G).signals = m.signals := rfl
  unfold fire
  rw [hsame]
  split
  · exact recast_wakeAll ..
  · rfl

theorem recast_interruptAll (waits : List (Nat × OpenWait)) :
    (m.interruptAll waits).recast F G = (m.recast F G).interruptAll waits := by
  induction waits generalizing m with
  | nil => rfl
  | cons wait rest ih =>
    have hone : (m.interrupt wait).recast F G = (m.recast F G).interrupt wait := recast_wakeAll ..
    exact (ih (m.interrupt wait)).trans (congrArg (interruptAll · rest) hone)

theorem recast_cancelAll (jobs : List JobId) :
    (m.cancelAll jobs).recast F G = (m.recast F G).cancelAll jobs := by
  have hsame (m : Machine ε τ) : (m.recast F G).jobs = m.jobs := rfl
  fun_induction cancelAll m jobs with
  | case1 m => rw [cancelAll]
  | case2 m job rest h ih => rw [ih, cancelAll_cons, hsame, h]
  | case3 m job rest j h hc hlt ih =>
    have hone : (m.cancelOne job j).recast F G = (m.recast F G).cancelOne job j :=
      recast_interruptAll ..
    rw [ih, hone, cancelAll_cons, hsame, h]
    exact (if_pos hc).symm
  | case4 m job rest j h hc ih =>
    rw [ih, cancelAll_cons, hsame, h]
    exact (if_neg hc).symm

@[simp] theorem recast_cancel (job : JobId) : (m.cancel job).recast F G = (m.recast F G).cancel job :=
  recast_cancelAll ..

theorem recast_fail (job : JobId) (kind : ExceptionKind) :
    (m.fail job kind).recast F G = (m.recast F G).fail job kind := by
  have hsame (m : Machine ε τ) : (m.recast F G).jobs = m.jobs := rfl
  have hlistener (m : Machine ε τ) (j : Job) : (m.recast F G).listener? j = m.listener? j := rfl
  have hrecord (m : Machine ε τ) (job : JobId) (j : Job) :
      ((m.recordFailure job j kind).cancel job).recast F G =
        ((m.recast F G).recordFailure job j kind).cancel job := recast_cancel ..
  fun_induction fail m job kind with
  | case1 m job h => rw [fail_eq, hsame, h]
  | case2 m job j h hf _ _ _ hc =>
    rw [hrecord, fail_eq, hsame, h]
    exact ((if_pos hf).trans (if_pos hc)).symm
  | case3 m job j h hf _ _ _ hc hnone =>
    rw [hrecord, fail_eq, hsame, h]
    refine ((if_pos hf).trans ((if_neg hc).trans ?_)).symm
    rw [hlistener, hnone]
  | case4 m job j h hf _ _ _ hc parent hparent ih =>
    rw [ih, hrecord, fail_eq (m.recast F G), hsame, h]
    refine ((if_pos hf).trans ((if_neg hc).trans ?_)).symm
    rw [hlistener, hparent]
  | case5 m job j h hf =>
    rw [recast_cancel, fail_eq, hsame, h]
    exact (if_neg hf).symm

theorem recast_conclude (job : JobId) (result : Completion) :
    (m.conclude job result).recast F G = (m.recast F G).conclude job result := by
  cases result with
  | ok _ => rfl
  | error kind =>
    cases kind with
    | cancellation => exact recast_cancel ..
    | _ => exact recast_fail ..

theorem recast_unlink (parent child : JobId) :
    (m.unlink parent child).recast F G = (m.recast F G).unlink parent child := by
  have hsame : (m.recast F G).job? parent = m.job? parent := rfl
  have hheld : (m.recast F G).isHeld = m.isHeld := rfl
  unfold unlink
  rw [hsame, hheld]
  split
  · rfl
  · dsimp only
    split
    · exact recast_wakeAll ..
    · rfl

theorem recast_passOnFailure (j : Job) :
    (m.passOnFailure j).recast F G = (m.recast F G).passOnFailure j := by
  have hlistener : (m.recast F G).listener? j = m.listener? j := rfl
  unfold passOnFailure
  rw [hlistener]
  split
  · split
    · rfl
    · exact recast_fail ..
  · rfl

theorem settle_recast (job : JobId) :
    (m.recast F G).settle job = Prod.map id (recast F G) (m.settle job) := by
  have hsame : (m.recast F G).job? job = m.job? job := rfl
  have hupdate (m : Machine ε τ) (f : Job → Job) :
      (m.updateJob job f).recast F G = (m.recast F G).updateJob job f := rfl
  cases hj : m.job? job with
  | none =>
    rw [settle, settle, hsame, hj]
    rfl
  | some j =>
    rw [settle_eq hj, settle_eq (hsame.trans hj)]
    dsimp only [Prod.map]
    rw [hupdate, id]
    cases j.parent with
    | none => simp only [Option.elim_none, recast_fire, recast_passOnFailure, hupdate]
    | some parent =>
      simp only [Option.elim_some, recast_unlink, recast_fire, recast_passOnFailure, hupdate]

theorem close_recast (ticket : Ticket) (job : JobId) (result : Completion) :
    (m.recast F G).close ticket job result = Prod.map id (recast F G) (m.close ticket job result) := by
  have hwait (m : Machine ε τ) : (m.recast F G).awaitChildren ticket job =
      Prod.map id (recast F G) (m.awaitChildren ticket job) := rfl
  unfold close
  rw [← recast_conclude, hwait]
  generalize (m.conclude job result).awaitChildren ticket job = r
  obtain ⟨idle, m₁⟩ := r
  cases idle with
  | true =>
    simp only [Prod.map, id, if_true]
    rw [settle_recast]
    rfl
  | false => rfl

theorem beginDelay_recast (ticket : Ticket) (job : JobId) (duration : Nat) :
    (m.recast F G).beginDelay ticket job duration =
      Prod.map id (recast F G) (m.beginDelay ticket job duration) := by
  have hsame : (m.recast F G).isCancelled job = m.isCancelled job := rfl
  unfold beginDelay
  rw [hsame]
  split
  · exact Prod.ext rfl (recast_wake ..).symm
  · rfl

theorem beginJoin_recast (ticket : Ticket) (job : JobId) (signal : SignalId) :
    (m.recast F G).beginJoin ticket job signal =
      Prod.map id (recast F G) (m.beginJoin ticket job signal) := by
  have hcancelled : (m.recast F G).isCancelled job = m.isCancelled job := rfl
  have hfired : (m.recast F G).hasFired signal = m.hasFired signal := rfl
  unfold beginJoin
  rw [hcancelled, hfired]
  split
  · rfl
  · split <;> rfl

theorem beginAwait_recast (ticket : Ticket) (job : JobId) (signal : SignalId) :
    (m.recast F G).beginAwait ticket job signal =
      Prod.map id (recast F G) (m.beginAwait ticket job signal) := by
  have hfired : (m.recast F G).hasFired signal = m.hasFired signal := rfl
  unfold beginAwait
  rw [hfired]
  split
  · rfl
  · exact beginJoin_recast ..

theorem resumption_recast (ticket : Ticket) (on : Suspension) :
    (m.recast F G).resumption ticket on = Prod.map id (recast F G) (m.resumption ticket on) := by
  cases on with
  | entry job => rfl
  | wait job waiter wait =>
    have hwaits : (m.recast F G).timetable.waits = m.timetable.waits := rfl
    unfold resumption
    dsimp only
    rw [hwaits]
    rcases m.timetable.waits[wait]? with _ | _ | _ | _ <;> rfl
  | children job => rfl
  | turn => rfl

theorem recast_advance : m.advance.2.recast F G = (m.recast F G).advance.2 :=
  recast_wakeAll F G { m with timetable := _ } _

end Machine

end Operations

variable {ε ε' φ φ' : Type} (f : φ → φ') (G : ε → ε')

def Task.recast (task : Task φ) : Task φ' := ⟨task.on, task.frames.map f⟩

def Progress.recast : Progress φ → Progress φ'
  | .ended result => .ended result
  | .suspended on frames => .suspended on (frames.map f)

namespace Reached

def recast (r : Reached ε φ) : Reached ε' φ' := (r.1.recast f, r.2.recast (Task.recast f) G)

variable {f G}

theorem recast_andThen (frame : φ) {k : Completion → FrameMachine ε φ → Reached ε φ}
    {k' : Completion → FrameMachine ε' φ' → Reached ε' φ'}
    (hk : ∀ result m, k' result (m.recast (Task.recast f) G) = (k result m).recast f G)
    (r : Reached ε φ) : (r.andThen frame k).recast f G = (r.recast f G).andThen (f frame) k' := by
  obtain ⟨p, m⟩ := r
  cases p with
  | ended result => exact (hk result m).symm
  | suspended on frames =>
    unfold andThen recast
    simp only [Progress.recast, List.map_append, List.map_cons, List.map_nil]

theorem recast_afterWait (note : Interruption → FrameMachine ε φ → FrameMachine ε φ)
    (note' : Interruption → FrameMachine ε' φ' → FrameMachine ε' φ') (frames : List φ)
    {k : FrameMachine ε φ → Reached ε φ} {k' : FrameMachine ε' φ' → Reached ε' φ'}
    (hnote : ∀ why m, note' why (m.recast (Task.recast f) G) = (note why m).recast (Task.recast f) G)
    (hk : ∀ m, k' (m.recast (Task.recast f) G) = (k m).recast f G) (r : WaitStart × FrameMachine ε φ) :
    (afterWait note frames k r).recast f G =
      afterWait note' (frames.map f) k' (Prod.map id (Machine.recast (Task.recast f) G) r) := by
  obtain ⟨start, m⟩ := r
  cases start with
  | through => exact (hk m).symm
  | refused why => exact Prod.ext rfl (hnote why m).symm
  | suspended on => rfl

theorem recast_afterClose (frame : φ) (k : Outcome → FrameMachine ε φ → Reached ε φ)
    (k' : Outcome → FrameMachine ε' φ' → Reached ε' φ')
    (hk : ∀ outcome m, k' outcome (m.recast (Task.recast f) G) = (k outcome m).recast f G)
    (ticket : Ticket) (job : JobId) (result : Completion) (m : FrameMachine ε φ) :
    (afterClose ticket job frame k result m).recast f G =
      afterClose ticket job (f frame) k' result (m.recast (Task.recast f) G) := by
  unfold afterClose
  rw [Machine.close_recast]
  generalize m.close ticket job result = r
  obtain ⟨outcome, m₁⟩ := r
  cases outcome with
  | some outcome => exact (hk outcome m₁).symm
  | none => rfl

end Reached

variable [FrameCode ε φ] [FrameCode ε' φ']

/-- Frames that are recast do the same on a machine that is recast. -/
structure FrameCode.Recasts (f : φ → φ') (G : ε → ε') : Prop where
  resume : ∀ ticket frame result (m : FrameMachine ε φ),
    FrameCode.resume ticket (f frame) result (m.recast (Task.recast f) G) =
      (FrameCode.resume ticket frame result m).recast f G
  interrupted : ∀ why (m : FrameMachine ε φ),
    FrameCode.interrupted why (m.recast (Task.recast f) G) =
      (FrameCode.interrupted why m).recast (Task.recast f) G

namespace FrameCode.Recasts

variable {f G} (h : Recasts f G) {m : FrameMachine ε φ}

include h

theorem unwind (ticket : Ticket) (frames : List φ) (result : Completion) (m : FrameMachine ε φ) :
    FrameCode.unwind ticket (frames.map f) result (m.recast (Task.recast f) G) =
      (FrameCode.unwind ticket frames result m).recast f G := by
  induction frames generalizing result m with
  | nil => rfl
  | cons frame outer ih =>
    rw [List.map_cons, FrameCode.unwind, FrameCode.unwind, h.resume]
    generalize FrameCode.resume ticket frame result m = r
    obtain ⟨p, m₁⟩ := r
    cases p with
    | ended result => exact ih result m₁
    | suspended on inner =>
      unfold Reached.recast
      simp only [Progress.recast, List.map_append]

theorem proceed (ticket : Ticket) (frames : List φ) (result : Except Interruption Unit)
    (m : FrameMachine ε φ) :
    FrameCode.proceed ticket (frames.map f) result (m.recast (Task.recast f) G) =
      (FrameCode.proceed ticket frames result m).recast f G := by
  cases result with
  | ok => exact h.unwind ..
  | error why =>
    unfold FrameCode.proceed
    dsimp only
    rw [h.interrupted, h.unwind]

theorem poll (ticket : Ticket) (task : Task φ) (m : FrameMachine ε φ) :
    FrameCode.poll ticket (task.recast f) (m.recast (Task.recast f) G) =
      Prod.map (Option.map (Task.recast f)) (Machine.recast (Task.recast f) G)
        (FrameCode.poll ticket task m) := by
  have hon : (task.recast f).on = task.on := rfl
  have hframes : (task.recast f).frames = task.frames.map f := rfl
  unfold FrameCode.poll
  rw [hon, hframes, Machine.resumption_recast]
  generalize m.resumption ticket task.on = r
  obtain ⟨result, m₁⟩ := r
  cases result with
  | none => rfl
  | some result =>
    simp only [Prod.map, id]
    rw [h.proceed]
    generalize FrameCode.proceed ticket task.frames result m₁ = r
    obtain ⟨p, m₂⟩ := r
    cases p <;> rfl

theorem runReady (i : SeatId) (rest : List SeatId) (m : FrameMachine ε φ) :
    (m.recast (Task.recast f) G).runReady i rest = (m.runReady i rest).recast (Task.recast f) G := by
  have hrest : ({ (m.recast (Task.recast f) G).dispatcher with ready := rest } : Dispatcher (Task φ')) =
      ({ m.dispatcher with ready := rest } : Dispatcher (Task φ)).recast (Task.recast f) := rfl
  unfold Machine.runReady
  rw [hrest, Dispatcher.checkOut_recast]
  generalize ({ m.dispatcher with ready := rest } : Dispatcher (Task φ)).checkOut i = r
  obtain ⟨found, d⟩ := r
  cases found with
  | none => rfl
  | some seated =>
    obtain ⟨ticket, task⟩ := seated
    have hpoll := h.poll ticket task { m with dispatcher := d }
    simp only [Prod.map, Option.map_some, id]
    have hout : ({ m.recast (Task.recast f) G with dispatcher := d.recast (Task.recast f) } :
        FrameMachine ε' φ') = ({ m with dispatcher := d } : FrameMachine ε φ).recast (Task.recast f) G := rfl
    rw [hout, hpoll]
    generalize FrameCode.poll ticket task { m with dispatcher := d } = r
    obtain ⟨left, m₁⟩ := r
    cases left with
    | none => rfl
    | some left =>
      exact congrArg (fun d => { m₁.recast (Task.recast f) G with dispatcher := d })
        (Dispatcher.recast_checkIn (Task.recast f) m₁.dispatcher i left).symm

theorem drain (m : FrameMachine ε φ) :
    (m.recast (Task.recast f) G).drain = m.drain.recast (Task.recast f) G := by
  fun_induction Machine.drain m with
  | case1 m hnil => exact Machine.drain_of_nil hnil
  | case2 m i rest hcons _ ih =>
    have hcons : (m.recast (Task.recast f) G).dispatcher.ready = i :: rest := hcons
    rw [Machine.drain_of_cons hcons, h.runReady, ih]

omit [FrameCode ε φ] [FrameCode ε' φ'] h in
theorem stopOr {isDone : FrameMachine ε φ → Bool} {isDone' : FrameMachine ε' φ' → Bool}
    (hdone : ∀ m, isDone' (m.recast (Task.recast f) G) = isDone m) (limits : Limits)
    (m : FrameMachine ε φ) (next : StopReason × FrameMachine ε φ) :
    (m.recast (Task.recast f) G).stopOr limits isDone'
        (Prod.map id (Machine.recast (Task.recast f) G) next) =
      Prod.map id (Machine.recast (Task.recast f) G) (m.stopOr limits isDone next) := by
  have hpolls : (m.recast (Task.recast f) G).dispatcher.polls = m.dispatcher.polls := rfl
  have htimetable : (m.recast (Task.recast f) G).timetable = m.timetable := rfl
  unfold Machine.stopOr
  rw [hdone, hpolls, htimetable]
  split
  · rfl
  · split
    · rfl
    · cases m.timetable.clock.next? with
      | none => rfl
      | some time =>
        simp only [Option.elim_some]
        split <;> rfl

theorem runFor {isDone : FrameMachine ε φ → Bool} {isDone' : FrameMachine ε' φ' → Bool}
    (hdone : ∀ m, isDone' (m.recast (Task.recast f) G) = isDone m) (limits : Limits) (n : Nat)
    (m : FrameMachine ε φ) : (m.recast (Task.recast f) G).runFor limits isDone' n =
      Prod.map id (Machine.recast (Task.recast f) G) (m.runFor limits isDone n) := by
  induction n generalizing m with
  | zero =>
    rw [Machine.runFor_zero, Machine.runFor_zero, h.drain, ← Machine.recast_advance]
    exact stopOr hdone limits m.drain (.outOfBudget, m.drain.advance.2)
  | succ n ih =>
    rw [Machine.runFor_succ, Machine.runFor_succ, h.drain, ← Machine.recast_advance, ih]
    exact stopOr hdone ..

end FrameCode.Recasts

end RacePuzzle
