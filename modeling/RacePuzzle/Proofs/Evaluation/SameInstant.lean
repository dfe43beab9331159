import RacePuzzle.Proofs.Evaluation.Alarms
import RacePuzzle.Proofs.Evaluation.Course
import RacePuzzle.Proofs.Evaluation.Instants

/-! Tasks that rise at the same instant. When the clock moves on, the tasks whose delays are over are polled
first, in the order in which their delays began, and before all that is woken or started meanwhile. -/
namespace RacePuzzle

open Interpreter

namespace Timetable

variable {t : Timetable} {w : WaitId} {time : Nat}

def sleeper? (t : Timetable) (w : WaitId) : Option Ticket :=
  match t.waits[w]? with
  | some (.pending sleeper) => sleeper
  | _ => none

theorem sleeper?_eq_some {i : Ticket} : t.sleeper? w = some i ↔ t.waits[w]? = some (.pending (some i)) := by
  unfold sleeper?
  split
  · next hw => simp [hw]
  · next hw => exact ⟨nofun, fun hi => absurd hi (hw (some i))⟩

theorem fst_resolve (t : Timetable) (w : WaitId) (outcome : Wait) :
    (t.resolve w outcome).1 = t.sleeper? w := by
  unfold resolve sleeper?
  match t.waits[w]? with
  | none | some (.pending _) | some .done | some .cancelled => rfl

/-- The clock wakes who sleeps on the waits that are due, in their order. -/
theorem Tidy.sleepers_advance (h : t.Tidy) (hnext : t.clock.next? = some time) :
    t.advance.2.1 = (t.due time).filterMap t.sleeper? := by
  rw [advance_eq hnext, fst_resolveAll _ _ ((h.pairwise_due time).imp fun hlt => Nat.ne_of_lt hlt)]
  exact List.filterMap_congr fun w _ => fst_resolve (t.passed time) w .done

/-- The pending waits that become done as the clock moves on are the pending ones that are due. -/
theorem done_advance_iff (hnext : t.clock.next? = some time) :
    (∃ sleeper, t.waits[w]? = some (.pending sleeper)) ∧ t.advance.2.2.waits[w]? = some .done ↔
      w ∈ t.due time ∧ ∃ sleeper, t.waits[w]? = some (.pending sleeper) := by
  have hres := (resolves_advance hnext).2.2
  constructor
  · rintro ⟨⟨sleeper, hpending⟩, hdone⟩
    refine ⟨?_, sleeper, hpending⟩
    by_contra hw
    cases hpending.symm.trans ((hres.untouched w hw).symm.trans hdone)
  · rintro ⟨hw, sleeper, hpending⟩
    exact ⟨⟨sleeper, hpending⟩, (hres.hit w hw sleeper hpending).1⟩

end Timetable

/-- A task that is asleep in a delay. -/
structure Riser where
  seat : SeatId
  job : JobId
  wait : WaitId
  delay : StatementId
  /-- The time at which the delay began. -/
  begun : Nat
  outer : List ProgramFrame

namespace Riser

def task (x : Riser) : Task ProgramFrame := ⟨.wait x.job x.wait x.wait, .leave x.delay :: x.outer⟩

def entry (x : Riser) : TraceEntry := ⟨x.delay, .began, x.begun⟩

/-- The riser sleeps on the machine until the time, in a delay that began at `place` in the trace. -/
structure SleepsUntil (time : Nat) (place : Nat → Nat) (m : ProgramMachine) (x : Riser) : Prop where
  asleep : m.dispatcher.task? x.seat = some x.task
  timer : (m.timetable.timer? x.wait).map (·.deadline) = some time
  placed : m.env.trace.toList[place x.wait]? = some x.entry

end Riser

variable {t : Statement} {L : Ledger} {r m : ProgramMachine} {s s' : Snapshot} {time : Nat} {place : Nat → Nat}

/-- Items that stand at ascending places of a list are in it in their order. -/
theorem sublist_of_places {ι α : Type} {f : ι → α} {place : ι → Nat} {xs : List ι} {l : List α}
    (hplaced : ∀ x ∈ xs, l[place x]? = some (f x)) (hascending : xs.Pairwise (place · < place ·)) :
    (xs.map f).Sublist l := by
  have hlt : ∀ x ∈ xs, place x < l.length := fun x hx => (List.getElem?_eq_some_iff.1 (hplaced x hx)).1
  let index (x : ι) (h : place x < l.length) : Fin l.length := ⟨place x, h⟩
  have hsub : ((xs.pmap index hlt).map (l[·])).Sublist l :=
    List.map_getElem_sublist (hascending.pmap hlt fun _ _ _ _ h => h)
  have hmap : (xs.pmap index hlt).map (l[·]) = xs.map f := by
    rw [List.map_pmap, ← List.pmap_eq_map hlt]
    exact List.pmap_congr_left xs fun x hx h _ => (List.getElem?_eq_some_iff.1 (hplaced x hx)).2
  exact hmap ▸ hsub

/-- Whoever sleeps on one of the waits can be listed, in the order of the waits. -/
theorem exists_risers {P : Riser → Prop} {sleeper? : WaitId → Option Ticket} {ws : List WaitId}
    (h : ∀ w ∈ ws, ∀ i, sleeper? w = some i → ∃ x, P x ∧ x.wait = w ∧ x.seat = i) :
    ∃ due : List Riser, (∀ x ∈ due, P x) ∧
      due.map Riser.wait = ws.filter (fun w => (sleeper? w).isSome) ∧
      due.map Riser.seat = ws.filterMap sleeper? := by
  induction ws with
  | nil => exact ⟨[], nofun, rfl, rfl⟩
  | cons w rest ih =>
    obtain ⟨due, hdue, hwaits, hseats⟩ := ih fun w hw => h w (.tail _ hw)
    cases hi : sleeper? w with
    | none =>
      refine ⟨due, hdue, ?_, ?_⟩
      · rw [hwaits, List.filter_cons_of_neg (by simp [hi])]
      · rw [hseats, List.filterMap_cons_none hi]
    | some i =>
      obtain ⟨x, hx, rfl, rfl⟩ := h w (.head _) i hi
      refine ⟨x :: due, List.forall_mem_cons.2 ⟨hx, hdue⟩, ?_, ?_⟩
      · rw [List.map_cons, hwaits, List.filter_cons_of_pos (by simp [hi])]
      · rw [List.map_cons, hseats, List.filterMap_cons_some hi]

/-- The risers of a timeslice: those whose delays the clock ends as it moves on from `r`. -/
structure Rise (r : ProgramMachine) (time : Nat) (due : List Riser) : Prop where
  asleep : ∀ x ∈ due, r.dispatcher.task? x.seat = some x.task
  timer : ∀ x ∈ due, (r.timetable.timer? x.wait).map (·.deadline) = some time
  /-- They sleep on the waits that are pending and become done. -/
  resolved : ∀ w, (∃ sleeper, r.timetable.waits[w]? = some (.pending sleeper)) ∧
    r.advance.2.timetable.waits[w]? = some .done ↔ ∃ x ∈ due, x.wait = w
  /-- Their delays were registered in their order. -/
  registered : due.Pairwise (·.wait < ·.wait)
  /-- Their delays were entered in their order. -/
  entered : (due.map Riser.entry).Sublist r.env.trace.toList
  /-- They and nobody else are woken, in their order. -/
  woken : r.advance.2.dispatcher.ready = due.map Riser.seat

theorem sleeps_of_due (h : History t L ⟨r, .idle⟩) (hp : Snapshot.Alarmed place ⟨r, .idle⟩)
    (hnext : r.timetable.clock.next? = some time) {w : WaitId} (hw : w ∈ r.timetable.due time)
    (hopen : ¬ r.timetable.IsOver w) :
    ∃ x : Riser, x.SleepsUntil time place r ∧ x.wait = w ∧ r.timetable.sleeper? w = some x.seat := by
  have htidy := h.tidy
  have hdue := (htidy.mem_due fun ht => TimerQueue.le_deadline_of_peek? htidy.complete hnext ht).1 hw
  obtain ⟨timer, ht, -⟩ := Option.map_eq_some_iff.1 hdue
  obtain ⟨id, begun, hplace, hsleeps⟩ := hp.placed ht
  rw [(htidy.timer ht).2.2] at hsleeps
  obtain ⟨i, j, outer, htask⟩ := hsleeps hopen
  have hwaits := (h.upheld.seated htask).waits
  have hpending := (hwaits.resolve_left fun hover => hopen hover.1).pending
  exact ⟨⟨i, j, w, id, begun, outer⟩, ⟨htask, hdue, hplace⟩, rfl, Timetable.sleeper?_eq_some.2 hpending⟩

theorem nodup_seats {due : List Riser} (hasleep : ∀ x ∈ due, m.dispatcher.task? x.seat = some x.task)
    (hregistered : due.Pairwise (·.wait < ·.wait)) : (due.map Riser.seat).Nodup := by
  refine List.pairwise_map.2 (hregistered.imp_of_mem fun {x y} hx hy hlt hseat => ?_)
  have htask : x.task = y.task := Option.some.inj ((hasleep x hx).symm.trans (hseat ▸ hasleep y hy))
  have hwait : x.wait = y.wait := (Suspension.wait.inj (congrArg Task.on htask)).2.1
  exact absurd hlt (hwait ▸ Nat.lt_irrefl _)

/-- Risers that the clock wakes are ready in their order. -/
theorem ready_advance (h : s.Upheld t L) (hready : s.machine.dispatcher.ready = []) {due : List Riser}
    (hasleep : ∀ x ∈ due, s.machine.dispatcher.task? x.seat = some x.task)
    (hregistered : due.Pairwise (·.wait < ·.wait))
    (hsleepers : s.machine.timetable.advance.2.1 = due.map Riser.seat) :
    s.machine.advance.2.dispatcher.ready = due.map Riser.seat := by
  have haligned := h.sound.orderly.aligned
  have hwoken : s.machine.advance.2.dispatcher = s.machine.dispatcher.wakeAll (due.map Riser.seat) :=
    congrArg s.machine.dispatcher.wakeAll hsleepers
  rw [hwoken, Dispatcher.ready_wakeAll haligned (nodup_seats hasleep hregistered), hready, List.nil_append]
  refine List.forall_mem_map.2 fun x hx => ?_
  have htask := hasleep x hx
  exact ⟨haligned.size ▸ Dispatcher.lt_of_task? htask, (h.seated htask).unfinished,
    haligned.isQueued_of_ready hready x.seat⟩

/-- Whenever the clock moves on, there are tasks that rise in order. -/
theorem exists_rise (h : History t L ⟨r, .idle⟩) (hready : r.dispatcher.ready = [])
    (hnext : r.timetable.clock.next? = some time) : ∃ due, Rise r time due := by
  obtain ⟨place, hp⟩ := h.alarmed
  have hascending := h.tidy.pairwise_due time
  have hriser (w : WaitId) (hw : w ∈ r.timetable.due time) (i : Ticket) (hi : r.timetable.sleeper? w = some i) :
      ∃ x : Riser, x.SleepsUntil time place r ∧ x.wait = w ∧ x.seat = i := by
    have hpending := Timetable.sleeper?_eq_some.1 hi
    obtain ⟨x, hx, hwait, hseat⟩ := sleeps_of_due h hp hnext hw fun hover => hover.not_pending _ hpending
    exact ⟨x, hx, hwait, Option.some.inj (hseat.symm.trans hi)⟩
  obtain ⟨due, hsleep, hwaits, hseats⟩ := exists_risers hriser
  have hasleep := fun x hx => (hsleep x hx).asleep
  have hregistered : due.Pairwise (·.wait < ·.wait) := List.pairwise_map.1 (hwaits ▸ hascending.filter _)
  refine ⟨due, hasleep, fun x hx => (hsleep x hx).timer, fun w => ?_, hregistered,
    sublist_of_places (fun x hx => (hsleep x hx).placed) (hregistered.imp_of_mem fun {x y} hx hy hlt => ?_),
    ready_advance h.upheld hready hasleep hregistered ((h.tidy.sleepers_advance hnext).trans hseats.symm)⟩
  · refine (Timetable.done_advance_iff hnext).trans (Iff.trans ?_ List.mem_map)
    rw [hwaits, List.mem_filter]
    refine and_congr_right fun hw => ⟨fun ⟨_, hpending⟩ => ?_, fun hsome => ?_⟩
    · obtain ⟨x, -, -, hseat⟩ := sleeps_of_due h hp hnext hw fun hover => hover.not_pending _ hpending
      exact Option.isSome_iff_exists.2 ⟨_, hseat⟩
    · obtain ⟨i, hi⟩ := Option.isSome_iff_exists.1 hsome
      exact ⟨_, Timetable.sleeper?_eq_some.1 hi⟩
  · obtain ⟨_, ht, -⟩ := Option.map_eq_some_iff.1 (hsleep x hx).timer
    obtain ⟨_, ht', -⟩ := Option.map_eq_some_iff.1 (hsleep y hy).timer
    exact hp.ordered ht ht' hlt

/-- The risers are the next to be polled, and their delays are over. -/
structure AreNext (m : ProgramMachine) (due : List Riser) : Prop where
  ready : ∃ later, m.dispatcher.ready = due.map Riser.seat ++ later
  asleep : ∀ x ∈ due, m.dispatcher.task? x.seat = some x.task
  done : ∀ x ∈ due, m.timetable.waits[x.wait]? = some .done
  nodup : (due.map Riser.seat).Nodup

namespace AreNext

variable {x : Riser} {due : List Riser}

/-- A delay that is over lets its task go on, and interrupts it if the job is cancelled. -/
theorem resumption (h : AreNext m (x :: due)) (d : Dispatcher (Task ProgramFrame)) :
    ({ m with dispatcher := d } : ProgramMachine).resumption x.seat x.task.on =
      (some (if m.isCancelled x.job then .error .cancelled else .ok ()),
        ({ m with dispatcher := d } : ProgramMachine).forget x.job x.wait) := by
  have hdone := h.done x (.head _)
  simp only [Riser.task, Machine.resumption, hdone]
  rfl

theorem turn (h : AreNext m (x :: due)) (hm : History t L ⟨m, .idle⟩) : AreNext m.turn due := by
  obtain ⟨later, hready⟩ := h.ready
  obtain ⟨⟨later', hlater⟩, htasks⟩ := ProgramFrame.onlyStirs.turn hm.upheld.sound.orderly.aligned hready
  obtain ⟨hnew, hnodup⟩ := List.nodup_cons.1 h.nodup
  refine ⟨⟨later ++ later', ?_⟩, fun y hy => ?_, fun y hy => ?_, hnodup⟩
  · exact hlater.trans (List.append_assoc ..)
  · have hne : y.seat ≠ x.seat := fun he => hnew (he ▸ List.mem_map_of_mem hy)
    exact htasks hne (h.asleep y (.tail _ hy))
  · have hdone := h.done y (.tail _ hy)
    have hkept := hm.keepsOver (Snapshot.busySteps_turn m).steps y.wait (.inl hdone)
    exact hkept.trans hdone

/-- After `k` turns the risers that have not been polled are the next. -/
theorem turns (h : AreNext m due) (hm : History t L ⟨m, .idle⟩) (k : Nat) :
    AreNext (Machine.turn^[k] m) (due.drop k) := by
  induction k with
  | zero => exact h
  | succ k ih =>
    obtain ⟨L', hk, -⟩ := hm.steps (Snapshot.busySteps_turns k m).steps
    rw [Function.iterate_succ_apply', ← List.tail_drop]
    cases hdrop : due.drop k with
    | nil => exact ⟨⟨_, rfl⟩, nofun, nofun, .nil⟩
    | cons x rest => exact (hdrop ▸ ih).turn hk

end AreNext

theorem Rise.areNext {due : List Riser} (h : Rise r time due) : AreNext r.advance.2 due where
  ready := ⟨[], h.woken.trans (List.append_nil _).symm⟩
  asleep x hx := (Dispatcher.task?_of_seats (Machine.seats_wakeAll ..) _).trans (h.asleep x hx)
  done x hx := ((h.resolved x.wait).2 ⟨x, hx, rfl⟩).2
  nodup := nodup_seats h.asleep h.registered

/-- The next thing to do in the frames is to print the text, once what is in front of it has ended. -/
inductive ComesToPrint (p : StatementId) (text : String) : List ProgramFrame → Prop
  | here {j body outer} : ComesToPrint p text (.rest j (.leaf p (.print text) :: body) :: outer)
  | bodyEnd {j outer} : ComesToPrint p text outer → ComesToPrint p text (.rest j [] :: outer)
  | leave {id outer} : ComesToPrint p text outer → ComesToPrint p text (.leave id :: outer)
  | catching {id kind outer} : ComesToPrint p text outer → ComesToPrint p text (.catching id kind :: outer)

theorem toList_trace_record (id : StatementId) (mark : Mark) (m : ProgramMachine) :
    (record id mark m).env.trace.toList = m.env.trace.toList ++ [⟨id, mark, m.now⟩] :=
  Array.toList_push

/-- Code that comes to a print prints before it is suspended. -/
theorem ComesToPrint.steps {p : StatementId} {text : String} {frames : List ProgramFrame}
    (h : ComesToPrint p text frames) (ticket : Ticket) (hm : m.env.ending = none) :
    ∃ th ends, Thread.Steps ticket ⟨frames, .ok (), m⟩ th ∧ (∀ e ∈ ends, e.mark = .ended) ∧
      th.machine.env.trace.toList =
        m.env.trace.toList ++ (ends ++ [⟨p, .began, m.now⟩, ⟨p, .printed text, m.now⟩]) := by
  induction h generalizing m with
  | @here j body outer =>
    have hprints : performAction ticket j p (.print text) (record p .began m) =
        .done (record p (.printed text) (record p .began m)) :=
      congrArg Reached.done (print_of_running (m := record p .began m) hm p text)
    refine ⟨_, [], .single (.act hprints), nofun, ?_⟩
    rw [toList_trace_record, toList_trace_record, List.append_assoc]
    rfl
  | bodyEnd _ ih =>
    obtain ⟨th, ends, hs, hends, htrace⟩ := ih hm
    exact ⟨th, ends, .head .bodyEnd hs, hends, htrace⟩
  | @leave id outer _ ih =>
    obtain ⟨th, ends, hs, hends, htrace⟩ := ih (m := record id .ended m) hm
    refine ⟨th, ⟨id, .ended, m.now⟩ :: ends, .head .leave hs, List.forall_mem_cons.2 ⟨rfl, hends⟩, ?_⟩
    rw [htrace, toList_trace_record, List.append_assoc]
    rfl
  | catching _ ih =>
    obtain ⟨th, ends, hs, hends, htrace⟩ := ih hm
    exact ⟨th, ends, .head (.catching rfl) hs, hends, htrace⟩

/-- What the trace gains in the next turn of polling. -/
def noted (m : ProgramMachine) : List TraceEntry := m.turn.env.trace.toList.drop m.env.trace.size

theorem trace_turn (h : History t L ⟨m, .idle⟩) :
    m.turn.env.trace.toList = m.env.trace.toList ++ noted m := by
  obtain ⟨-, -, hkept⟩ := h.steps (Snapshot.busySteps_turn m).steps
  obtain ⟨new, hnew⟩ := hkept.trace
  have hnew : m.env.trace.toList ++ new = m.turn.env.trace.toList := hnew
  rw [noted, ← hnew, ← Array.length_toList, List.drop_left]

/-- The riser is of no cancelled job, its next statement is to print the text, and the program has not
ended. -/
structure Riser.Prints (x : Riser) (m : ProgramMachine) (p : StatementId) (text : String) : Prop where
  uncancelled : m.isCancelled x.job = false
  next : ComesToPrint p text x.outer
  running : m.env.ending = none

/-- A riser whose next statement is a print does nothing before it. -/
theorem AreNext.prints {x : Riser} {due : List Riser} {p : StatementId} {text : String}
    (h : AreNext m (x :: due)) (hm : History t L ⟨m, .idle⟩) (hx : x.Prints m p text) :
    ∃ ends, (∀ e ∈ ends, e.mark = .ended) ∧
      ends ++ [⟨p, .began, m.now⟩, ⟨p, .printed text, m.now⟩] <+: noted m := by
  obtain ⟨later, hready⟩ := h.ready
  obtain ⟨d, hout⟩ :=
    Dispatcher.exists_checkOut hm.upheld.sound.orderly.aligned hready (h.asleep x (.head _))
  have hres := h.resumption d
  rw [hx.uncancelled, if_neg Bool.false_ne_true] at hres
  obtain ⟨th, ends, hs, hends, htrace⟩ := ComesToPrint.steps
    (m := ({ m with dispatcher := d } : ProgramMachine).forget x.job x.wait) (.leave hx.next) x.seat hx.running
  -- The turn goes on from the print, so that its trace begins with what has been noted by then.
  have hgo : Snapshot.BusySteps ⟨m, .idle⟩ ⟨th.machine, .running x.seat x.seat th.frames th.result⟩ :=
    .head (.of_ready (.goOn hready hout hres) hready) (Snapshot.BusySteps.ofThread hs)
  obtain ⟨_, hth, -⟩ := hm.steps hgo.steps
  obtain ⟨-, -, hkept⟩ := hth.steps (Snapshot.busySteps_turn_of_thread hready hout hres hs).steps
  have hprefix : th.machine.env.trace.toList <+: m.turn.env.trace.toList := hkept.trace
  rw [htrace, trace_turn hm] at hprefix
  exact ⟨ends, hends, (List.prefix_append_right_inj _).1 hprefix⟩

theorem trace_turns (h : History t L ⟨m, .idle⟩) {j k : Nat} (hle : j ≤ k) :
    (Machine.turn^[j] m).env.trace.toList <+: (Machine.turn^[k] m).env.trace.toList := by
  obtain ⟨n, rfl⟩ := Nat.exists_eq_add_of_le' hle
  obtain ⟨_, hj, -⟩ := h.steps (Snapshot.busySteps_turns j m).steps
  obtain ⟨-, -, hkept⟩ := hj.steps (Snapshot.busySteps_turns n _).steps
  rw [Function.iterate_add_apply]
  exact hkept.trace

theorem trace_turns_drain (h : History t L ⟨m, .idle⟩) (k : Nat) :
    (Machine.turn^[k] m).env.trace.toList <+: m.drain.env.trace.toList := by
  obtain ⟨_, hk, -⟩ := h.steps (Snapshot.busySteps_turns k m).steps
  obtain ⟨-, -, hkept⟩ := hk.steps (Snapshot.busySteps_turns k m).to_drain.steps
  exact hkept.trace

theorem trace_turns_succ (h : History t L ⟨m, .idle⟩) (k : Nat) :
    (Machine.turn^[k + 1] m).env.trace.toList =
      (Machine.turn^[k] m).env.trace.toList ++ noted (Machine.turn^[k] m) := by
  obtain ⟨_, hk, -⟩ := h.steps (Snapshot.busySteps_turns k m).steps
  rw [Function.iterate_succ_apply']
  exact trace_turn hk

/-- What an earlier turn notes stands before what a later one does. -/
theorem noted_in_order (h : History t L ⟨m, .idle⟩) {k l : Nat} (hlt : k < l) {e e' : TraceEntry}
    (he : e ∈ noted (Machine.turn^[k] m)) (he' : e' ∈ noted (Machine.turn^[l] m)) :
    [e, e'].Sublist (m.drain.env.trace.toList.drop m.env.trace.size) := by
  obtain ⟨before, hbefore⟩ := trace_turns h (Nat.zero_le k)
  obtain ⟨between, hbetween⟩ := trace_turns h hlt
  obtain ⟨after, hafter⟩ := trace_turns_drain h (l + 1)
  have htrace : m.drain.env.trace.toList = m.env.trace.toList ++ ((before ++ noted (Machine.turn^[k] m)) ++
      ((between ++ noted (Machine.turn^[l] m)) ++ after)) := by
    rw [← hafter, trace_turns_succ h, ← hbetween, trace_turns_succ h, ← hbefore]
    simp only [Function.iterate_zero, id, List.append_assoc]
  rw [htrace, ← Array.length_toList, List.drop_left]
  have hfirst : [e].Sublist (before ++ noted (Machine.turn^[k] m)) :=
    List.singleton_sublist.2 (List.mem_append_right _ he)
  have hsecond : [e'].Sublist ((between ++ noted (Machine.turn^[l] m)) ++ after) :=
    List.singleton_sublist.2 (List.mem_append_left _ (List.mem_append_right _ he'))
  exact hfirst.append hsecond

/-- How polling begins with the risers. -/
structure PollsInOrder (m : ProgramMachine) (time : Nat) (due : List Riser) : Prop where
  /-- As many turns as there are risers are theirs, in their order: who has been woken or started by then
  comes after those that are left. The turn lets the riser go on, or interrupts it if its job is cancelled. -/
  turns : ∀ {k} {x : Riser}, due[k]? = some x →
    (∃ later, (Machine.turn^[k] m).dispatcher.ready = (due.drop k).map Riser.seat ++ later) ∧
      (Machine.turn^[k] m).dispatcher.task? x.seat = some x.task ∧
      ((Machine.turn^[k] m).resumption x.seat x.task.on).1 =
        some (if (Machine.turn^[k] m).isCancelled x.job then .error .cancelled else .ok ())
  drained : ∃ n, due.length ≤ n ∧ Machine.turn^[n] m = m.drain
  /-- A riser whose next statement is a print does nothing before it but to end what it is in. -/
  prints : ∀ {k} {x : Riser} {p text}, due[k]? = some x → x.Prints (Machine.turn^[k] m) p text →
    ∃ ends, (∀ e ∈ ends, e.mark = .ended) ∧
      ends ++ [⟨p, .began, time⟩, ⟨p, .printed text, time⟩] <+: noted (Machine.turn^[k] m)
  /-- What an earlier riser does in its turn comes before what a later one does in its own. -/
  inOrder : ∀ {k l e e'}, k < l → e ∈ noted (Machine.turn^[k] m) → e' ∈ noted (Machine.turn^[l] m) →
    [e, e'].Sublist (m.drain.env.trace.toList.drop m.env.trace.size)
  /-- Of two risers that print next, the one whose delay was entered first prints first. -/
  printsInOrder : ∀ {k l} {x y : Riser} {p q text text'}, k < l → due[k]? = some x → due[l]? = some y →
    x.Prints (Machine.turn^[k] m) p text → y.Prints (Machine.turn^[l] m) q text' →
      [⟨p, .printed text, time⟩, ⟨q, .printed text', time⟩].Sublist
        (m.drain.env.trace.toList.drop m.env.trace.size)

/-- Where risers are next, polling begins with them. -/
theorem AreNext.pollsInOrder {due : List Riser} (h : AreNext m due) (hm : History t L ⟨m, .idle⟩)
    (hnow : m.now = time) : PollsInOrder m time due := by
  have hnext {k : Nat} {x : Riser} (hk : due[k]? = some x) :
      AreNext (Machine.turn^[k] m) (x :: due.drop (k + 1)) := by
    obtain ⟨hlt, rfl⟩ := List.getElem?_eq_some_iff.1 hk
    rw [← List.drop_eq_getElem_cons hlt]
    exact h.turns hm k
  have hprints {k : Nat} {x : Riser} {p : StatementId} {text : String} (hk : due[k]? = some x)
      (hx : x.Prints (Machine.turn^[k] m) p text) : ∃ ends, (∀ e ∈ ends, e.mark = .ended) ∧
        ends ++ [⟨p, .began, time⟩, ⟨p, .printed text, time⟩] <+: noted (Machine.turn^[k] m) := by
    have hbusy := Snapshot.busySteps_turns k m
    obtain ⟨_, hturned, -⟩ := hm.steps hbusy.steps
    have hnow : (Machine.turn^[k] m).now = time := (now_of_busySteps hm hbusy).trans hnow
    exact hnow ▸ (hnext hk).prints hturned hx
  have hprinted {k : Nat} {x : Riser} {p : StatementId} {text : String} (hk : due[k]? = some x)
      (hx : x.Prints (Machine.turn^[k] m) p text) :
      ⟨p, .printed text, time⟩ ∈ noted (Machine.turn^[k] m) := by
    obtain ⟨ends, -, hprefix⟩ := hprints hk hx
    exact hprefix.subset (by simp)
  refine ⟨fun {k x} hk => ?_, ?_, hprints, fun hlt => noted_in_order hm hlt, fun hlt hk hl hx hy =>
    noted_in_order hm hlt (hprinted hk hx) (hprinted hl hy)⟩
  · refine ⟨(h.turns hm k).ready, (hnext hk).asleep x (.head _), ?_⟩
    exact congrArg Prod.fst ((hnext hk).resumption _)
  · obtain ⟨n, hn⟩ := Machine.exists_turns_drain m
    refine ⟨n, Nat.le_of_not_lt fun hlt => ?_, hn⟩
    obtain ⟨later, hready⟩ := (h.turns hm n).ready
    rw [hn, Machine.ready_drain, List.drop_eq_getElem_cons hlt] at hready
    cases hready

/-- **Tasks rise in the order in which they fell asleep.** Whenever the clock moves on in a run, the tasks whose
delays it ends are woken in the order in which these were entered, and the polling that follows begins with
them: before all that is woken or started meanwhile, each has its turn. So of two that print next, the one
whose delay was entered first prints first. -/
theorem same_instant_in_order {limits : Limits} (h : t.RestsAt limits r)
    (hnext : r.timetable.clock.next? = some time) :
    ∃ due, Rise r time due ∧ PollsInOrder r.advance.2 time due := by
  obtain ⟨L, hr⟩ := h.reaches.history
  obtain ⟨due, hrise⟩ := exists_rise hr h.ready hnext
  obtain ⟨_, hm, -⟩ := hr.step (.tick h.ready hnext)
  refine ⟨due, hrise, hrise.areNext.pollsInOrder hm ?_⟩
  obtain ⟨_, timer, ht, rfl⟩ := TimerQueue.exists_live_of_peek? hnext
  exact (Machine.now_advance hnext).trans (Nat.max_eq_right (hr.timely.timers ht).1)

/-- Two tasks and the program itself, each of which prints after a delay. -/
def threeDelays : Statement := .block 0 .coroutineScope
  [.block 1 .launch [.leaf 2 (.delay 3), .leaf 3 (.print "A")],
    .block 4 .launch [.leaf 5 (.delay 3), .leaf 6 (.print "B")], .leaf 7 (.delay 3), .leaf 8 (.print "C")]

/-- All three fall asleep until the same time. -/
theorem threeDelays_rise : threeDelays.RestsAt .default threeDelays.loaded.drain ∧
    threeDelays.loaded.drain.timetable.clock.next? = some 3 ∧
    ∃ due, Rise threeDelays.loaded.drain 3 due ∧
      PollsInOrder threeDelays.loaded.drain.advance.2 3 due := by
  have hrests : threeDelays.RestsAt .default threeDelays.loaded.drain := ⟨_, .here⟩
  have hnext : threeDelays.loaded.drain.timetable.clock.next? = some 3 := by cbv
  exact ⟨hrests, hnext, same_instant_in_order hrests hnext⟩

end RacePuzzle
