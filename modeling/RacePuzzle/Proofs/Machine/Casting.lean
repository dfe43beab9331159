import RacePuzzle.Proofs.Machine.Roster
import RacePuzzle.Proofs.Time.Due
import RacePuzzle.Proofs.Time.Timetable
import RacePuzzle.Machine.Job

/-! What of the waits and timers of one timetable shows in another. Both resolve what shows in the
same order and give the same sleepers, apart from what is hidden. -/
namespace RacePuzzle

/-- What shows of one machine in another: a roster for each kind of things that have numbers, the job
below which hidden work may run, and the times of the two clocks. -/
structure Casting where
  job : Roster
  signal : Roster
  wait : Roster
  seat : Roster
  host : JobId
  time : Nat
  time' : Nat

namespace Casting

/-- More is cast, and all that was cast stays as it was. -/
structure Extends (C C' : Casting) : Prop where
  job : ∀ {i o}, C.job i o → C'.job i o
  signal : ∀ {i o}, C.signal i o → C'.signal i o
  wait : ∀ {i o}, C.wait i o → C'.wait i o
  seat : ∀ {i o}, C.seat i o → C'.seat i o
  host : C'.host = C.host

/-- More is cast while the two clocks stand still. -/
structure Grows (C C' : Casting) : Prop extends C.Extends C' where
  time : C'.time = C.time
  time' : C'.time' = C.time'

theorem Extends.refl (C : Casting) : C.Extends C := ⟨id, id, id, id, rfl⟩

theorem Extends.trans {C C' C'' : Casting} (h : C.Extends C') (h' : C'.Extends C'') : C.Extends C'' :=
  ⟨h'.job ∘ h.job, h'.signal ∘ h.signal, h'.wait ∘ h.wait, h'.seat ∘ h.seat, h'.host.trans h.host⟩

theorem Grows.refl (C : Casting) : C.Grows C := ⟨.refl C, rfl, rfl⟩

theorem Grows.trans {C C' C'' : Casting} (h : C.Grows C') (h' : C'.Grows C'') : C.Grows C'' :=
  ⟨h.toExtends.trans h'.toExtends, h'.time.trans h.time, h'.time'.trans h.time'⟩

def timed (C : Casting) (time time' : Nat) : Casting := { C with time := time, time' := time' }

theorem extends_timed (C : Casting) (time time' : Nat) : C.Extends (C.timed time time') :=
  ⟨id, id, id, id, rfl⟩

end Casting

namespace Wait

def sleepers : Wait → List Ticket
  | .pending sleeper => sleeper.toList
  | .done | .cancelled => []

def stage : Wait → Wait
  | .pending _ => .pending none
  | .done => .done
  | .cancelled => .cancelled

/-- Both waits are as far, and the second knows the sleeper of the first if that one shows. -/
structure Sees (seat : Roster) (w : Wait) (o : Option Wait) : Prop where
  stage : ∀ w' ∈ o, w'.stage = w.stage
  sleepers : Sifted seat w.sleepers (o.elim [] Wait.sleepers)

theorem Sees.mono {seat seat' : Roster} {w : Wait} {o : Option Wait} (h : w.Sees seat o)
    (hseat : ∀ i p, seat i p → seat' i p) : w.Sees seat' o :=
  ⟨h.stage, h.sleepers.mono hseat⟩

theorem sees_resolved {seat : Roster} {outcome : Wait} (hpending : ∀ s, outcome ≠ .pending s)
    (o : Option Unit) : outcome.Sees seat (o.map fun _ => outcome) := by
  refine ⟨fun w' hw' => ?_, ?_⟩
  · obtain ⟨-, -, rfl⟩ := Option.map_eq_some_iff.1 hw'
    rfl
  · cases outcome with
    | pending s => exact absurd rfl (hpending s)
    | done | cancelled => cases o <;> exact .nil

end Wait

/-- The numbers of waits, of their waiters and of their timers are the same. -/
structure Timetable.Tidy (t : Timetable) : Prop where
  complete : t.clock.timers.Complete
  seq : t.clock.nextSeq = t.waits.size
  timer : ∀ {k timer}, t.timer? k = some timer → k < t.waits.size ∧ timer.tie = k ∧ timer.content = k

namespace Timetable

variable {t : Timetable} {w : WaitId}

def withWait (t : Timetable) (ticket : Ticket) : Timetable := (t.allocate.2.newWait (some ticket)).2

theorem tidy_start : Timetable.start.Tidy where
  complete := TimerQueue.complete_empty
  seq := rfl
  timer ht := by
    have hempty : Timetable.start.clock.timers = .empty := rfl
    simp [timer?, hempty, TimerQueue.empty] at ht

theorem Tidy.timer?_eq_none (h : t.Tidy) (hw : t.waits.size ≤ w) : t.timer? w = none :=
  Option.eq_none_iff_forall_ne_some.2 fun _ ht => absurd (h.timer ht).1 (Nat.not_lt_of_le hw)

theorem Tidy.withWait (h : t.Tidy) (ticket : Ticket) : (t.withWait ticket).Tidy := by
  have hsize : (t.withWait ticket).waits.size = t.waits.size + 1 := Array.size_push ..
  refine ⟨h.complete, hsize ▸ congrArg (· + 1) h.seq, fun ht => ?_⟩
  rw [hsize]
  exact ⟨Nat.lt_succ_of_lt (h.timer ht).1, (h.timer ht).2⟩

theorem Tidy.addTimer (h : t.Tidy) (hw : w < t.waits.size) (hnone : t.timer? w = none) (target : Nat) :
    (t.addTimer w target w w).Tidy := by
  refine ⟨complete_addTimer h.complete hnone .., (nextSeq_addTimer ..).trans h.seq, fun {k timer} ht => ?_⟩
  rw [timer?_addTimer hnone] at ht
  split at ht
  · next hk =>
    obtain rfl := Option.some.inj ht
    exact ⟨hk ▸ hw, hk.symm, hk.symm⟩
  · exact h.timer ht

theorem Tidy.of_resolves {t' : Timetable} {outcome : Wait} {ws : List WaitId} {ss : List Ticket} (h : t.Tidy)
    (hres : Resolves outcome ws t ss t') : t'.Tidy := by
  refine ⟨hres.clock ▸ h.complete, ?_, fun {k timer} ht => ?_⟩
  · rw [hres.clock, hres.size]
    exact h.seq
  · unfold timer? at ht
    rw [hres.clock] at ht
    rw [hres.size]
    exact h.timer ht

def withoutTimer (t : Timetable) (w : WaitId) : Timetable :=
  { t with clock := (t.clock.cancelTimer w).2 }

theorem timer?_withoutTimer (t : Timetable) (w k : WaitId) :
    (t.withoutTimer w).timer? k = if k = w then none else t.timer? k :=
  TimerQueue.live_remove w k

theorem Tidy.withoutTimer (h : t.Tidy) (w : WaitId) : (t.withoutTimer w).Tidy := by
  refine ⟨TimerQueue.complete_remove h.complete w, h.seq, fun {k timer} ht => ?_⟩
  rw [timer?_withoutTimer] at ht
  split at ht
  · cases ht
  · exact h.timer ht

theorem Tidy.cancelTimer_eq (h : t.Tidy) (w : WaitId) :
    t.cancelTimer w = match t.timer? w with
      | none => (none, t.withoutTimer w)
      | some _ => (t.withoutTimer w).resolve w .cancelled := by
  rw [Timetable.cancelTimer_eq]
  cases ht : t.timer? w with
  | none => rfl
  | some timer =>
    dsimp only
    rw [(h.timer ht).2.2]
    rfl

/-- The timetable once the clock has moved on to `time`, with its waits as they were. -/
def passed (t : Timetable) (time : Nat) : Timetable :=
  { t with clock := { t.clock with
    now := max t.clock.now time, timers := (Clock.takeDue time t.clock.timers).2 } }

def due (t : Timetable) (time : Nat) : List WaitId :=
  (Clock.takeDue time t.clock.timers).1.map Prod.snd

theorem advance_eq {time : Nat} (hnext : t.clock.next? = some time) :
    t.advance.2 = (t.passed time).resolveAll .done (t.due time) := by
  have hclock : t.clock.advance = ((Clock.takeDue time t.clock.timers).1, (t.passed time).clock) := by
    rw [Clock.advance, hnext]
    rfl
  rw [advance, hclock]
  rfl

variable {time : Nat}

theorem Tidy.numbered (h : t.Tidy) : t.clock.timers.Numbered := fun ht => (h.timer ht).2.1

theorem Tidy.timer?_passed (h : t.Tidy)
    (hle : ∀ {k timer}, t.timer? k = some timer → time ≤ timer.deadline) (k : WaitId) :
    (t.passed time).timer? k = (t.timer? k).filter (·.deadline != time) :=
  Clock.live_takeDue h.complete hle k

theorem Tidy.passed (h : t.Tidy)
    (hle : ∀ {k timer}, t.timer? k = some timer → time ≤ timer.deadline) : (t.passed time).Tidy := by
  refine ⟨(Clock.takenDue_takeDue time t.clock.timers).complete h.complete, h.seq, fun {k timer} ht => ?_⟩
  rw [h.timer?_passed hle] at ht
  exact h.timer (Option.filter_eq_some_iff.1 ht).1

theorem Tidy.mem_due (h : t.Tidy)
    (hle : ∀ {k timer}, t.timer? k = some timer → time ≤ timer.deadline) {w : WaitId} :
    w ∈ t.due time ↔ (t.timer? w).map (·.deadline) = some time := by
  rw [due, List.mem_map]
  constructor
  · rintro ⟨⟨k, content⟩, hmem, rfl⟩
    obtain ⟨tie, hlive, -⟩ := (Clock.takenDue_takeDue time t.clock.timers).mem k content hmem
    have hlive : t.timer? k = some ⟨time, tie, content⟩ := hlive
    have hcontent := (h.timer hlive).2.2
    dsimp only at hcontent ⊢
    rw [hcontent, hlive]
    rfl
  · intro hdue
    obtain ⟨timer, ht, hdeadline⟩ := Option.map_eq_some_iff.1 hdue
    exact ⟨_, Clock.mem_takeDue h.complete hle ht hdeadline, (h.timer ht).2.2⟩

theorem Tidy.pairwise_due (h : t.Tidy) (time : Nat) : (t.due time).Pairwise (· < ·) := by
  have hpairs := Clock.pairwise_takeDue time h.complete h.numbered
  refine List.pairwise_map.2 (hpairs.imp_of_mem fun {p p'} hp hp' hlt => ?_)
  have hself : ∀ p ∈ (Clock.takeDue time t.clock.timers).1, p.2 = p.1 := by
    intro p hp
    obtain ⟨tie, hlive, -⟩ := (Clock.takenDue_takeDue time t.clock.timers).mem p.1 p.2 hp
    exact (h.timer hlive).2.2
  rw [hself p hp, hself p' hp']
  exact hlt

end Timetable

namespace Casting

variable {C C' : Casting} {t t' : Timetable} {w : WaitId} {o : Option WaitId} {outcome : Wait}

structure Times (C : Casting) (t t' : Timetable) : Prop where
  waits : C.wait.Lists (Wait.Sees C.seat) t.waits t'.waits
  timers : ∀ {w w'}, C.wait w (some w') →
    (t'.timer? w').map (·.deadline) = (t.timer? w).map (·.deadline)
  tidy : t.Tidy
  tidy' : t'.Tidy
  now : t.now = C.time
  now' : t'.now = C.time'

/-- Two timetables after a resolution, with the sleepers that it gives. -/
structure Rouses (C : Casting) (r r' : List Ticket × Timetable) : Prop where
  sleepers : Sifted C.seat r.1 r'.1
  times : C.Times r.2 r'.2

theorem Times.withWaits (h : C.Times t t') {waits waits' : Array Wait}
    (hwaits : C.wait.Lists (Wait.Sees C.seat) waits waits') (hsize : waits.size = t.waits.size)
    (hsize' : waits'.size = t'.waits.size) :
    C.Times { t with waits := waits } { t' with waits := waits' } where
  waits := hwaits
  timers := h.timers
  tidy := ⟨h.tidy.complete, h.tidy.seq.trans hsize.symm, fun ht => hsize ▸ h.tidy.timer ht⟩
  tidy' := ⟨h.tidy'.complete, h.tidy'.seq.trans hsize'.symm, fun ht => hsize' ▸ h.tidy'.timer ht⟩
  now := h.now
  now' := h.now'

/-- A wait is resolved, and if it shows, so is what it shows as. -/
theorem Times.resolve (h : C.Times t t') (hw : C.wait w o) (outcome : Wait)
    (hpending : ∀ s, outcome ≠ .pending s) :
    C.Rouses (Prod.map Option.toList id (t.resolve w outcome))
      (o.elim ([], t') fun w' => Prod.map Option.toList id (t'.resolve w' outcome)) := by
  cases o with
  | none =>
    obtain ⟨x, hx, hsees⟩ := h.waits.exists_get hw
    unfold Timetable.resolve
    rw [hx]
    cases x with
    | pending s =>
      refine ⟨hsees.sleepers, h.withWaits (h.waits.setLeft hw ?_) (by simp) rfl⟩
      exact Wait.sees_resolved hpending none
    | done | cancelled => exact ⟨.nil, h⟩
  | some w' =>
    obtain ⟨x, x', hx, hx', hsees⟩ := h.waits.exists_get_shown hw
    have hstage := hsees.stage x' rfl
    unfold Timetable.resolve
    rw [Option.elim_some, hx, hx']
    cases x with
    | pending s =>
      cases x' with
      | pending s' =>
        refine ⟨hsees.sleepers, h.withWaits (h.waits.setShown hw ?_) (by simp) (by simp)⟩
        exact Wait.sees_resolved hpending (some ())
      | done | cancelled => cases hstage
    | done | cancelled =>
      cases x' with
      | pending s' => cases hstage
      | done | cancelled => exact ⟨.nil, h⟩

theorem Times.resolveAll (h : C.Times t t') {ws ws' : List WaitId} (hws : Sifted C.wait ws ws')
    (outcome : Wait) (hpending : ∀ s, outcome ≠ .pending s) :
    C.Rouses (t.resolveAll outcome ws) (t'.resolveAll outcome ws') := by
  induction hws generalizing t t' with
  | nil => exact ⟨.nil, h⟩
  | hidden hw _ ih =>
    have hone := h.resolve hw outcome hpending
    have hrest := ih hone.times
    exact ⟨hone.sleepers.append hrest.sleepers, hrest.times⟩
  | shown hw _ ih =>
    have hone := h.resolve hw outcome hpending
    have hrest := ih hone.times
    exact ⟨hone.sleepers.append hrest.sleepers, hrest.times⟩

theorem Times.newHidden (h : C.Times t t') {ticket : Ticket} (hticket : C.seat ticket none) :
    Times { C with wait := C.wait.add t.waits.size none } (t.withWait ticket) t' where
  waits := h.waits.addHidden ⟨nofun, .single hticket⟩
  timers hw := by
    rcases hw with hw | ⟨-, ho⟩
    · exact h.timers hw
    · cases ho
  tidy := h.tidy.withWait ticket
  tidy' := h.tidy'
  now := h.now
  now' := h.now'

theorem Times.newShown (h : C.Times t t') {ticket ticket' : Ticket}
    (hticket : C.seat ticket (some ticket')) :
    Times { C with wait := C.wait.add t.waits.size (some t'.waits.size) } (t.withWait ticket)
      (t'.withWait ticket') where
  waits := h.waits.addShown ⟨fun _ hw => Option.some.inj hw ▸ rfl, .single hticket⟩
  timers {w w'} hw := by
    rcases hw with hw | ⟨rfl, ho⟩
    · exact h.timers hw
    · obtain rfl := Option.some.inj ho
      have hnone := h.tidy.timer?_eq_none (Nat.le_refl _)
      have hnone' := h.tidy'.timer?_eq_none (Nat.le_refl _)
      change (t'.timer? t'.waits.size).map _ = (t.timer? t.waits.size).map _
      rw [hnone, hnone']
  tidy := h.tidy.withWait ticket
  tidy' := h.tidy'.withWait ticket'
  now := h.now
  now' := h.now'

theorem Times.addTimerHidden (h : C.Times t t') (hw : C.wait w none) (hnone : t.timer? w = none)
    (target : Nat) : C.Times (t.addTimer w target w w) t' where
  waits := h.waits
  timers {v v'} hv := by
    have hne : v ≠ w := by
      rintro rfl
      cases h.waits.fits.unique hv hw
    rw [Timetable.timer?_addTimer hnone, if_neg hne]
    exact h.timers hv
  tidy := h.tidy.addTimer (h.waits.fits.lt hw) hnone target
  tidy' := h.tidy'
  now := (Timetable.now_addTimer ..).trans h.now
  now' := h.now'

theorem Times.addTimerShown (h : C.Times t t') {w' : WaitId} (hw : C.wait w (some w'))
    (hnone : t.timer? w = none) (target : Nat) :
    C.Times (t.addTimer w target w w) (t'.addTimer w' target w' w') := by
  have hnone' : t'.timer? w' = none := by
    have hsame := h.timers hw
    rw [hnone] at hsame
    exact Option.map_eq_none_iff.1 hsame
  refine ⟨h.waits, fun {v v'} hv => ?_, h.tidy.addTimer (h.waits.fits.lt hw) hnone target,
    h.tidy'.addTimer (h.waits.fits.lt' hw) hnone' target, (Timetable.now_addTimer ..).trans h.now,
    (Timetable.now_addTimer ..).trans h.now'⟩
  have hiff : v = w ↔ v' = w' := h.waits.fits.eq_iff hv hw
  rw [Timetable.timer?_addTimer hnone, Timetable.timer?_addTimer hnone', if_congr hiff rfl rfl]
  split
  · rfl
  · exact h.timers hv

theorem Times.withoutTimer (h : C.Times t t') (hw : C.wait w o) :
    C.Times (t.withoutTimer w) (o.elim t' t'.withoutTimer) := by
  cases o with
  | none =>
    refine ⟨h.waits, fun {v v'} hv => ?_, h.tidy.withoutTimer w, h.tidy', h.now, h.now'⟩
    have hne : v ≠ w := by
      rintro rfl
      cases h.waits.fits.unique hv hw
    rw [Timetable.timer?_withoutTimer, if_neg hne]
    exact h.timers hv
  | some w' =>
    refine ⟨h.waits, fun {v v'} hv => ?_, h.tidy.withoutTimer w, h.tidy'.withoutTimer w', h.now, h.now'⟩
    have hiff : v = w ↔ v' = w' := h.waits.fits.eq_iff hv hw
    rw [Option.elim_some, Timetable.timer?_withoutTimer, Timetable.timer?_withoutTimer,
      if_congr hiff rfl rfl]
    split
    · rfl
    · exact h.timers hv

theorem Times.cancelTimer (h : C.Times t t') (hw : C.wait w o) :
    C.Rouses (Prod.map Option.toList id (t.cancelTimer w))
      (o.elim ([], t') fun w' => Prod.map Option.toList id (t'.cancelTimer w')) := by
  have hgone := h.withoutTimer hw
  have hresolve := hgone.resolve hw .cancelled nofun
  rw [h.tidy.cancelTimer_eq]
  cases o with
  | none =>
    cases t.timer? w with
    | none => exact ⟨.nil, hgone⟩
    | some timer => exact hresolve
  | some w' =>
    have hsame := h.timers hw
    rw [Option.elim_some, h.tidy'.cancelTimer_eq]
    cases ht : t.timer? w with
    | none =>
      rw [ht] at hsame
      rw [Option.map_eq_none_iff.1 hsame]
      exact ⟨.nil, hgone⟩
    | some timer =>
      rw [ht] at hsame
      obtain ⟨timer', ht', -⟩ := Option.map_eq_some_iff.1 hsame
      rw [ht']
      exact hresolve

theorem Times.grow (h : C.Times t t') (hC : C.Grows C') (hwait : C'.wait = C.wait) : C'.Times t t' where
  waits := hwait ▸ h.waits.mono fun _ _ hw => hw.mono fun _ _ => hC.seat
  timers hw := h.timers (hwait ▸ hw)
  tidy := h.tidy
  tidy' := h.tidy'
  now := h.now.trans hC.time.symm
  now' := h.now'.trans hC.time'.symm

/-- A task goes on sleeping, and if it shows, so does what it shows as. -/
theorem Times.setSleeper (h : C.Times t t') (hw : C.wait w o) {ticket : Ticket} {p : Option Ticket}
    (hticket : C.seat ticket p) (hp : p.isSome = o.isSome) :
    C.Times (t.setSleeper w ticket)
      (o.elim t' fun w' => p.elim t' fun ticket' => t'.setSleeper w' ticket') := by
  unfold Timetable.setSleeper
  cases o with
  | none =>
    obtain ⟨x, hx, hsees⟩ := h.waits.exists_get hw
    obtain rfl : p = none := Option.not_isSome_iff_eq_none.1 (by simp [hp])
    rw [hx]
    cases x with
    | pending s =>
      refine h.withWaits (h.waits.setLeft hw ?_) (by simp) rfl
      exact ⟨nofun, .single hticket⟩
    | done | cancelled => exact h
  | some w' =>
    obtain ⟨x, x', hx, hx', hsees⟩ := h.waits.exists_get_shown hw
    obtain ⟨ticket', rfl⟩ := Option.isSome_iff_exists.1 hp
    have hstage := hsees.stage x' rfl
    rw [Option.elim_some, Option.elim_some, hx, hx']
    cases x with
    | pending s =>
      cases x' with
      | pending s' =>
        refine h.withWaits (h.waits.setShown hw ?_) (by simp) (by simp)
        exact ⟨fun _ hw => Option.some.inj hw ▸ rfl, .single hticket⟩
      | done | cancelled => cases hstage
    | done | cancelled =>
      cases x' with
      | pending s' => cases hstage
      | done | cancelled => exact h

variable {time : Nat}

theorem Times.le_deadline (h : C.Times t t')
    (hle : ∀ {k timer}, t.timer? k = some timer → time ≤ timer.deadline) {k : WaitId}
    {timer : LiveTimer WaitId} (ht : t'.timer? k = some timer) : time ≤ timer.deadline := by
  obtain ⟨w, hw⟩ := h.waits.fits.onto (h.tidy'.timer ht).1
  have hsame := h.timers hw
  rw [ht] at hsame
  obtain ⟨timer', ht', hdeadline⟩ := Option.map_eq_some_iff.1 hsame.symm
  exact Nat.le_trans (hle ht') (Nat.le_of_eq hdeadline)

theorem le_deadline_of_next? (htidy : t.Tidy) (hnext : t.clock.next? = some time) {k : WaitId}
    {timer : LiveTimer WaitId} (ht : t.timer? k = some timer) : time ≤ timer.deadline :=
  TimerQueue.le_deadline_of_peek? htidy.complete hnext ht

/-- The next timer that shows comes no sooner than the next timer. -/
theorem Times.exists_next_le (h : C.Times t t') {time' : Nat} (hnext' : t'.clock.next? = some time') :
    ∃ time, t.clock.next? = some time ∧ time ≤ time' := by
  obtain ⟨k', timer', ht', rfl⟩ := TimerQueue.exists_live_of_peek? hnext'
  obtain ⟨k, hk⟩ := h.waits.fits.onto (h.tidy'.timer ht').1
  have hsame := h.timers hk
  rw [show t'.timer? k' = some timer' from ht'] at hsame
  obtain ⟨timer, ht, hdeadline⟩ := Option.map_eq_some_iff.1 hsame.symm
  cases hnext : t.clock.next? with
  | none => cases (TimerQueue.live_eq_none_of_peek? h.tidy.complete hnext k).symm.trans ht
  | some time =>
    have hfirst := le_deadline_of_next? h.tidy hnext ht
    exact ⟨time, rfl, Nat.le_trans hfirst (Nat.le_of_eq hdeadline)⟩

/-- What is due on one side is due on the other, unless it is hidden. -/
theorem Times.due_iff (h : C.Times t t')
    (hle : ∀ {k timer}, t.timer? k = some timer → time ≤ timer.deadline) {w' : WaitId}
    (hw : C.wait w (some w')) : w' ∈ t'.due time ↔ w ∈ t.due time := by
  rw [h.tidy'.mem_due (h.le_deadline hle), h.tidy.mem_due hle, h.timers hw]

/-- Both clocks move on to a time that no timer comes before. -/
theorem Times.passed (h : C.Times t t')
    (hle : ∀ {k timer}, t.timer? k = some timer → time ≤ timer.deadline) (htime : C.time ≤ time)
    (htime' : C.time' ≤ time) : (C.timed time time).Times (t.passed time) (t'.passed time) := by
  have hle' : ∀ {k timer}, t'.timer? k = some timer → time ≤ timer.deadline := h.le_deadline hle
  refine ⟨h.waits, fun {w w'} hw => ?_, h.tidy.passed hle, h.tidy'.passed hle',
    Nat.max_eq_right (Nat.le_trans (Nat.le_of_eq h.now) htime),
    Nat.max_eq_right (Nat.le_trans (Nat.le_of_eq h.now') htime')⟩
  have hsame := h.timers hw
  rw [h.tidy.timer?_passed hle, h.tidy'.timer?_passed hle']
  cases ht : t.timer? w with
  | none =>
    rw [ht] at hsame
    rw [Option.map_eq_none_iff.1 hsame]
  | some timer =>
    rw [ht] at hsame
    obtain ⟨timer', ht', hdeadline⟩ := Option.map_eq_some_iff.1 hsame
    rw [ht', Option.filter_some, Option.filter_some, hdeadline]
    split
    · exact congrArg some hdeadline
    · rfl

/-- What is due comes in the same order on both sides. -/
theorem Times.due (h : C.Times t t')
    (hle : ∀ {k timer}, t.timer? k = some timer → time ≤ timer.deadline) :
    Sifted C.wait (t.due time) (t'.due time) := by
  refine .of_pairwise (h.tidy.pairwise_due time) (h.tidy'.pairwise_due time) Nat.lt_irrefl
    Nat.lt_asymm h.waits.fits.mono h.waits.fits.unique (fun w hw => ?_) (fun w' hw' => ?_)
    fun w hw w' hcast => (h.due_iff hle hcast).2 hw
  · obtain ⟨timer, ht, -⟩ := Option.map_eq_some_iff.1 ((h.tidy.mem_due hle).1 hw)
    exact h.waits.fits.total (h.tidy.timer ht).1
  · obtain ⟨timer, ht, -⟩ := Option.map_eq_some_iff.1 ((h.tidy'.mem_due (h.le_deadline hle)).1 hw')
    obtain ⟨w, hcast⟩ := h.waits.fits.onto (h.tidy'.timer ht).1
    exact ⟨w, (h.due_iff hle hcast).1 hw', hcast⟩

theorem Times.advance (h : C.Times t t') (hnext : t.clock.next? = some time)
    (hnext' : t'.clock.next? = some time) (htime : C.time ≤ time) (htime' : C.time' ≤ time) :
    (C.timed time time).Rouses t.advance.2 t'.advance.2 := by
  have hle : ∀ {k timer}, t.timer? k = some timer → time ≤ timer.deadline :=
    le_deadline_of_next? h.tidy hnext
  rw [Timetable.advance_eq hnext, Timetable.advance_eq hnext']
  exact (h.passed hle htime htime').resolveAll (h.due hle) .done nofun

/-- No timer that shows goes off where the next one does not show. -/
theorem Times.not_due (h : C.Times t t') (hnext : t.clock.next? = some time)
    (hnext' : t'.clock.next? ≠ some time) {w' : WaitId} (hw : C.wait w (some w')) :
    (t.timer? w).map (·.deadline) ≠ some time := by
  intro hdue
  obtain ⟨timer', ht', hdeadline⟩ := Option.map_eq_some_iff.1 ((h.timers hw).trans hdue)
  cases hpeek : t'.clock.next? with
  | none => cases (TimerQueue.live_eq_none_of_peek? h.tidy'.complete hpeek w').symm.trans ht'
  | some first =>
    obtain ⟨time', hnext'', hle⟩ := h.exists_next_le hpeek
    obtain rfl : time = time' := Option.some.inj (hnext.symm.trans hnext'')
    have hfirst := le_deadline_of_next? h.tidy' hpeek ht'
    exact hnext' (hpeek.trans (congrArg some (by omega)))

/-- Nothing that shows is due when the next timer does not show. -/
theorem Times.advanceHidden (h : C.Times t t') (hnext : t.clock.next? = some time)
    (hnext' : t'.clock.next? ≠ some time) (htime : C.time ≤ time) :
    (C.timed time C.time').Rouses t.advance.2 ([], t') := by
  have hle : ∀ {k timer}, t.timer? k = some timer → time ≤ timer.deadline :=
    le_deadline_of_next? h.tidy hnext
  have hpassed : (C.timed time C.time').Times (t.passed time) t' := by
    refine ⟨h.waits, fun {w w'} hw => ?_, h.tidy.passed hle, h.tidy',
      Nat.max_eq_right (Nat.le_trans (Nat.le_of_eq h.now) htime), h.now'⟩
    have hkept := h.not_due hnext hnext' hw
    rw [h.tidy.timer?_passed hle, h.timers hw]
    cases ht : t.timer? w with
    | none => rfl
    | some timer =>
      rw [ht, Option.map_some, ne_eq, Option.some.injEq] at hkept
      rw [Option.filter_some_pos (by simpa using hkept)]
  have hdue : Sifted C.wait (t.due time) [] := by
    refine .of_hidden fun w hw => ?_
    have hdue := (h.tidy.mem_due hle).1 hw
    obtain ⟨timer, ht, -⟩ := Option.map_eq_some_iff.1 hdue
    obtain ⟨o, ho⟩ := h.waits.fits.total (h.tidy.timer ht).1
    cases o with
    | none => exact ho
    | some w' => exact absurd hdue (h.not_due hnext hnext' ho)
  rw [Timetable.advance_eq hnext]
  exact hpassed.resolveAll hdue .done nofun

end Casting

end RacePuzzle
