import RacePuzzle.Proofs.Time.Due
import RacePuzzle.Proofs.Time.Timetable
import Mathlib.Data.List.Induction

/-! What becomes of timers. Each is pending until the clock comes to its deadline or it is cancelled, and
stays what it has become. The clock hands out the timers of a whole run by deadline, and those of one
deadline in the order in which they were set, whenever that was. -/
namespace RacePuzzle

/-- What is asked of a timetable that alone resolves its waits. -/
inductive TimetableCall
  /-- A number is given out for something else. -/
  | allocate
  /-- A timer is set for a new wait, under a new number that orders it among those of its deadline. -/
  | setTimer (target : Nat) (sleeper : Option Ticket)
  | setSleeper (wait : WaitId) (sleeper : Ticket)
  | cancelTimer (waiter : Nat)
  | advance

structure TimerRecord where
  waiter : Nat
  target : Nat
  wait : WaitId
  deriving DecidableEq, Repr

/-- By deadline, then in the order in which the timers were set. -/
def TimerRecord.Precedes (a b : TimerRecord) : Prop :=
  a.target < b.target ∨ a.target = b.target ∧ a.waiter < b.waiter

/-- A timetable with the timers set so far and the waiters handed out so far, both oldest first. -/
structure TimerRun where
  timetable : Timetable
  timers : List TimerRecord
  handedOut : List Nat

namespace TimerRun

def start : TimerRun := ⟨.start, [], []⟩

def after (r : TimerRun) : TimetableCall → TimerRun
  | .allocate => { r with timetable := r.timetable.allocate.2 }
  | .setTimer target sleeper =>
    let (seq, t) := r.timetable.allocate
    let (wait, t) := t.newWait sleeper
    { r with timetable := t.addTimer seq target seq wait
             timers := r.timers ++ [⟨seq, target, wait⟩] }
  | .setSleeper wait sleeper => { r with timetable := r.timetable.setSleeper wait sleeper }
  | .cancelTimer waiter => { r with timetable := (r.timetable.cancelTimer waiter).2 }
  | .advance =>
    let (waiters, _, t) := r.timetable.advance
    { r with timetable := t, handedOut := r.handedOut ++ waiters }

def afterAll (r : TimerRun) (calls : List TimetableCall) : TimerRun := calls.foldl after r

def Allows (r : TimerRun) : TimetableCall → Prop
  | .setTimer target _ => r.timetable.now ≤ target
  | _ => True

instance (r : TimerRun) : DecidablePred r.Allows
  | .setTimer target _ => inferInstanceAs (Decidable (r.timetable.now ≤ target))
  | .allocate | .setSleeper _ _ | .cancelTimer _ | .advance => .isTrue trivial

/-- No call of the list sets a timer for a time that is past by then. -/
def AllowsAll (r : TimerRun) : List TimetableCall → Prop
  | [] => True
  | call :: rest => r.Allows call ∧ (r.after call).AllowsAll rest

instance decidableAllowsAll (r : TimerRun) : DecidablePred r.AllowsAll
  | [] => .isTrue trivial
  | call :: rest =>
    have := decidableAllowsAll (r.after call) rest
    inferInstanceAs (Decidable (r.Allows call ∧ (r.after call).AllowsAll rest))

theorem allowsAll_append {r : TimerRun} {before later : List TimetableCall} :
    r.AllowsAll (before ++ later) ↔ r.AllowsAll before ∧ (r.afterAll before).AllowsAll later := by
  induction before generalizing r with
  | nil => exact (true_and _).symm.to_iff
  | cons call rest ih => exact (and_congr_right' ih).trans and_assoc.symm

end TimerRun

inductive TimerFate
  | pending
  | done
  | cancelled
  deriving DecidableEq, Repr

/-- A timer that is pending is in the queue; what it has become otherwise shows in its wait. -/
def Timetable.HasFate (t : Timetable) (timer : TimerRecord) : TimerFate → Prop
  | .pending => t.timer? timer.waiter = some ⟨timer.target, timer.waiter, timer.wait⟩ ∧
      ∃ sleeper, t.waits[timer.wait]? = some (.pending sleeper)
  | .done => t.timer? timer.waiter = none ∧ t.waits[timer.wait]? = some .done
  | .cancelled => t.timer? timer.waiter = none ∧ t.waits[timer.wait]? = some .cancelled

theorem Timetable.HasFate.unique {t : Timetable} {timer : TimerRecord} {fate fate' : TimerFate}
    (h : t.HasFate timer fate) (h' : t.HasFate timer fate') : fate = fate' := by
  cases fate <;> cases fate' <;> simp_all [Timetable.HasFate]

def TimerFate.after (fate : TimerFate) (t : Timetable) (timer : TimerRecord) : TimetableCall → TimerFate
  | .cancelTimer waiter =>
    if fate = .pending ∧ waiter = timer.waiter then .cancelled else fate
  | .advance =>
    if fate = .pending ∧ t.clock.next? = some timer.target then .done else fate
  | _ => fate

namespace TimerFate

variable {t : Timetable} {timer : TimerRecord} {fate : TimerFate} {call : TimetableCall}

theorem after_of_ne_pending (h : fate ≠ .pending) : fate.after t timer call = fate := by
  cases call with
  | cancelTimer waiter => exact if_neg fun hp => h hp.1
  | advance => exact if_neg fun hp => h hp.1
  | _ => rfl

theorem eq_pending_of_after (h : fate.after t timer call = .pending) : fate = .pending := by
  by_contra hne
  exact hne ((after_of_ne_pending hne).symm.trans h)

end TimerFate

namespace Timetable

variable {t t' : Timetable} {timer : TimerRecord} {fate : TimerFate}

theorem HasFate.congr (h : t.HasFate timer fate) (htimer : t'.timer? timer.waiter = t.timer? timer.waiter)
    (hwait : t'.waits[timer.wait]? = t.waits[timer.wait]?) : t'.HasFate timer fate := by
  cases fate <;> simpa only [HasFate, htimer, hwait] using h

theorem clock_setSleeper (t : Timetable) (wait : WaitId) (sleeper : Ticket) :
    (t.setSleeper wait sleeper).clock = t.clock := by
  unfold Timetable.setSleeper
  split <;> rfl

theorem HasFate.setSleeper (h : t.HasFate timer fate) (wait : WaitId) (sleeper : Ticket) :
    (t.setSleeper wait sleeper).HasFate timer fate := by
  unfold Timetable.setSleeper
  split
  · next former hwait =>
    by_cases he : wait = timer.wait
    · subst he
      have hlt := (Array.getElem?_eq_some_iff.1 hwait).1
      cases fate with
      | pending => exact ⟨h.1, some sleeper, by simp [hlt]⟩
      | done => cases hwait.symm.trans h.2
      | cancelled => cases hwait.symm.trans h.2
    · exact h.congr rfl (by simp [he])
  · exact h

theorem HasFate.cancelTimer (h : t.HasFate timer fate) {waiter : Nat}
    (hother : ∀ {live}, t.timer? waiter = some live → live.content = timer.wait → waiter = timer.waiter) :
    (t.cancelTimer waiter).2.HasFate timer (fate.after t timer (.cancelTimer waiter)) := by
  have hgone := timer?_cancelTimer t waiter
  by_cases hcancelled : fate = .pending ∧ waiter = timer.waiter
  · obtain ⟨rfl, rfl⟩ := hcancelled
    obtain ⟨sleeper, hpending⟩ := h.2
    rw [TimerFate.after, if_pos ⟨rfl, rfl⟩]
    refine ⟨by rw [hgone, if_pos rfl], ?_⟩
    rw [cancelTimer_eq, h.1]
    exact ((resolves_resolve { t with clock := (t.clock.cancelTimer timer.waiter).2 } .cancelled
      timer.wait).hit timer.wait
      (List.mem_singleton.2 rfl) sleeper hpending).1
  · rw [TimerFate.after, if_neg hcancelled]
    have hwait : (t.cancelTimer waiter).2.waits[timer.wait]? = t.waits[timer.wait]? := by
      rw [cancelTimer_eq]
      split
      · rfl
      · next live hlive =>
        have hres := resolves_resolve { t with clock := (t.clock.cancelTimer waiter).2 } .cancelled live.content
        by_cases hsame : live.content = timer.wait
        · refine hres.kept timer.wait fun sleeper hpending => hcancelled ⟨?_, hother hlive hsame⟩
          cases fate with
          | pending => rfl
          | done => cases h.2.symm.trans hpending
          | cancelled => cases h.2.symm.trans hpending
        · exact hres.untouched timer.wait (by simpa using Ne.symm hsame)
    refine h.congr ?_ hwait
    rw [hgone]
    split
    · next hk =>
      cases fate with
      | pending => exact absurd ⟨rfl, hk.symm⟩ hcancelled
      | done => exact h.1.symm
      | cancelled => exact h.1.symm
    · rfl

theorem advance_of_next?_eq_none (h : t.clock.next? = none) : t.advance = ([], [], t) := by
  simp [advance, Clock.advance, h, resolveAll]

theorem timer?_advance (ht : t.clock.timers.Complete) {time : Nat} (h : t.clock.next? = some time) (k : Nat) :
    t.advance.2.2.timer? k = (t.timer? k).filter (·.deadline != time) := by
  unfold timer?
  rw [(resolves_advance h).2.1]
  exact Clock.live_takeDue ht (TimerQueue.le_deadline_of_peek? ht h) k

/-- The waits of the timers that are due are done, and no others. -/
theorem HasFate.advance (h : t.HasFate timer fate) (ht : t.clock.timers.Complete)
    (hother : ∀ {k live}, t.timer? k = some live → live.content = timer.wait → k = timer.waiter) :
    t.advance.2.2.HasFate timer (fate.after t timer .advance) := by
  cases hnext : t.clock.next? with
  | none => simpa only [TimerFate.after, hnext, reduceCtorEq, and_false, if_false,
      advance_of_next?_eq_none hnext] using h
  | some time =>
    have hres := (resolves_advance hnext).2.2
    have hgone := timer?_advance ht hnext
    have hle {id : Nat} {live : LiveTimer WaitId} (hl : t.clock.timers.live[id]? = some live) :=
      TimerQueue.le_deadline_of_peek? ht hnext hl
    by_cases hdue : fate = .pending ∧ some time = some timer.target
    · rw [TimerFate.after, hnext, if_pos hdue]
      obtain ⟨rfl, hdue⟩ := hdue
      obtain rfl := Option.some.inj hdue
      obtain ⟨hlive, sleeper, hpending⟩ := h
      have hmem := Clock.mem_takeDue ht hle hlive rfl
      refine ⟨by simp [hgone, hlive], (hres.hit timer.wait (List.mem_map_of_mem hmem) sleeper hpending).1⟩
    · rw [TimerFate.after, hnext, if_neg hdue]
      have hlate {live : LiveTimer WaitId} (hlive : t.timer? timer.waiter = some live) :
          live.deadline ≠ time := by
        cases fate with
        | pending =>
          obtain rfl := Option.some.inj (h.1.symm.trans hlive)
          exact fun he => hdue ⟨rfl, congrArg some he.symm⟩
        | done => cases h.1.symm.trans hlive
        | cancelled => cases h.1.symm.trans hlive
      refine h.congr ?_ (hres.untouched timer.wait fun hmem => ?_)
      · rw [hgone]
        cases hlive : t.timer? timer.waiter with
        | none => rfl
        | some live => exact Option.filter_some_pos (by simpa using hlate hlive)
      · obtain ⟨⟨k, content⟩, hmem, rfl⟩ := List.mem_map.1 hmem
        obtain ⟨tie, hlive, -⟩ := (Clock.takenDue_takeDue time t.clock.timers).mem k _ hmem
        obtain rfl := hother hlive rfl
        exact hlate hlive rfl

end Timetable

namespace TimerRun

variable {r : TimerRun} {call : TimetableCall} {timer : TimerRecord} {fate : TimerFate}

structure Kept (r : TimerRun) : Prop where
  complete : r.timetable.clock.timers.Complete
  /-- Timers have numbers and waits of their own that were given out. -/
  known : ∀ timer ∈ r.timers,
    timer.waiter < r.timetable.clock.nextSeq ∧ timer.wait < r.timetable.waits.size
  waiters : ∀ a ∈ r.timers, ∀ b ∈ r.timers, a.waiter = b.waiter → a = b
  waits : ∀ a ∈ r.timers, ∀ b ∈ r.timers, a.wait = b.wait → a = b
  live : ∀ {k live}, r.timetable.timer? k = some live →
    live.tie = k ∧ r.timetable.now ≤ live.deadline ∧ ⟨k, live.deadline, live.content⟩ ∈ r.timers
  fate : ∀ timer ∈ r.timers, ∃ fate, r.timetable.HasFate timer fate

/-- What was handed out: the timers that are done, each after those that precede it. -/
structure Handed (r : TimerRun) (due : List TimerRecord) : Prop where
  waiters : due.map (·.waiter) = r.handedOut
  mem : ∀ timer, timer ∈ due ↔ timer ∈ r.timers ∧ r.timetable.HasFate timer .done
  ordered : due.Pairwise TimerRecord.Precedes
  past : ∀ timer ∈ due, timer.target ≤ r.timetable.now
  pending : ∀ a ∈ due, ∀ b ∈ r.timers, r.timetable.HasFate b .pending → a.Precedes b

theorem Kept.fresh (h : r.Kept) : r.timetable.timer? r.timetable.clock.nextSeq = none := by
  refine Option.eq_none_iff_forall_ne_some.2 fun live hlive => ?_
  exact absurd (h.known _ (h.live hlive).2.2).1 (Nat.lt_irrefl _)

theorem Kept.waiter_eq (h : r.Kept) (ht : timer ∈ r.timers) {k : Nat} {live : LiveTimer WaitId}
    (hlive : r.timetable.timer? k = some live) (hwait : live.content = timer.wait) : k = timer.waiter :=
  congrArg TimerRecord.waiter (h.waits _ (h.live hlive).2.2 _ ht hwait)

theorem Kept.hasFate_of_live (h : r.Kept) {k : Nat} {live : LiveTimer WaitId}
    (hlive : r.timetable.timer? k = some live) :
    r.timetable.HasFate ⟨k, live.deadline, live.content⟩ .pending := by
  obtain ⟨fate, hfate⟩ := h.fate _ (h.live hlive).2.2
  cases fate with
  | pending => exact hfate
  | done => cases hlive.symm.trans hfate.1
  | cancelled => cases hlive.symm.trans hfate.1

theorem Kept.timer?_setTimer (h : r.Kept) (target : Nat) (sleeper : Option Ticket) (k : Nat) :
    (r.after (.setTimer target sleeper)).timetable.timer? k =
      if k = r.timetable.clock.nextSeq then
        some ⟨target, r.timetable.clock.nextSeq, r.timetable.waits.size⟩
      else r.timetable.timer? k :=
  Timetable.timer?_addTimer (t := (r.timetable.allocate.2.newWait sleeper).2) h.fresh ..

theorem waits_setTimer (r : TimerRun) (target : Nat) (sleeper : Option Ticket) :
    (r.after (.setTimer target sleeper)).timetable.waits = r.timetable.waits.push (.pending sleeper) :=
  rfl

theorem Kept.hasFate_after (h : r.Kept) (ht : timer ∈ r.timers) (hf : r.timetable.HasFate timer fate)
    (call : TimetableCall) :
    (r.after call).timetable.HasFate timer (fate.after r.timetable timer call) := by
  cases call with
  | allocate => exact hf.congr rfl rfl
  | setTimer target sleeper =>
    obtain ⟨hwaiter, hwait⟩ := h.known timer ht
    refine hf.congr ?_ ?_
    · rw [h.timer?_setTimer, if_neg (Nat.ne_of_lt hwaiter)]
    · rw [waits_setTimer, Array.getElem?_push_lt hwait, Array.getElem?_eq_getElem hwait]
  | setSleeper wait sleeper => exact hf.setSleeper wait sleeper
  | cancelTimer waiter => exact hf.cancelTimer fun hlive => h.waiter_eq ht hlive
  | advance => exact hf.advance h.complete fun hlive => h.waiter_eq ht hlive

/-- What has become of a timer does not change any more. -/
theorem Kept.resolved_after (h : r.Kept) (ht : timer ∈ r.timers) (hf : r.timetable.HasFate timer fate)
    (hresolved : fate ≠ .pending) (call : TimetableCall) : (r.after call).timetable.HasFate timer fate :=
  TimerFate.after_of_ne_pending hresolved ▸ h.hasFate_after ht hf call

theorem Kept.exists_before (h : r.Kept) (ht : timer ∈ r.timers)
    (hf : (r.after call).timetable.HasFate timer fate) :
    ∃ former, r.timetable.HasFate timer former ∧ fate = former.after r.timetable timer call :=
  let ⟨former, hformer⟩ := h.fate timer ht
  ⟨former, hformer, hf.unique (h.hasFate_after ht hformer call)⟩

theorem Kept.goOn (h : r.Kept) (t' : Timetable) (hcomplete : t'.clock.timers.Complete)
    (hseq : r.timetable.clock.nextSeq ≤ t'.clock.nextSeq) (hsize : r.timetable.waits.size ≤ t'.waits.size)
    (hlive : ∀ {k live}, t'.timer? k = some live →
      r.timetable.timer? k = some live ∧ t'.now ≤ live.deadline)
    (hfate : ∀ timer ∈ r.timers, ∃ fate, t'.HasFate timer fate) (handedOut : List Nat) :
    Kept ⟨t', r.timers, handedOut⟩ where
  complete := hcomplete
  known timer ht := (h.known timer ht).imp (Nat.lt_of_lt_of_le · hseq) (Nat.lt_of_lt_of_le · hsize)
  waiters := h.waiters
  waits := h.waits
  live hl :=
    have hold := h.live (hlive hl).1
    ⟨hold.1, (hlive hl).2, hold.2.2⟩
  fate := hfate

theorem Kept.hasFate_setTimer (h : r.Kept) (target : Nat) (sleeper : Option Ticket) :
    (r.after (.setTimer target sleeper)).timetable.HasFate
      ⟨r.timetable.clock.nextSeq, target, r.timetable.waits.size⟩ .pending :=
  ⟨(h.timer?_setTimer ..).trans (if_pos rfl), sleeper,
    (congrArg (·[_]?) (waits_setTimer ..)).trans Array.getElem?_push_size⟩

theorem Kept.mem_timers_after (h : r.Kept) (ht : timer ∈ (r.after call).timers) :
    timer ∈ r.timers ∨ (r.after call).timetable.HasFate timer .pending := by
  cases call with
  | setTimer target sleeper =>
    refine (List.mem_append.1 ht).imp id fun ht => ?_
    obtain rfl := List.mem_singleton.1 ht
    exact h.hasFate_setTimer target sleeper
  | _ => exact .inl ht

theorem Kept.setTimer (h : r.Kept) {target : Nat} (htarget : r.timetable.now ≤ target)
    (sleeper : Option Ticket) : (r.after (.setTimer target sleeper)).Kept where
  complete := Timetable.complete_addTimer (t := (r.timetable.allocate.2.newWait sleeper).2) h.complete
    h.fresh target r.timetable.clock.nextSeq r.timetable.waits.size
  known timer ht := by
    have hseq : (r.after (.setTimer target sleeper)).timetable.clock.nextSeq =
        r.timetable.clock.nextSeq + 1 := Timetable.nextSeq_addTimer ..
    rw [hseq, waits_setTimer, Array.size_push]
    rcases List.mem_append.1 ht with ht | ht
    · obtain ⟨hwaiter, hwait⟩ := h.known timer ht
      exact ⟨Nat.lt_succ_of_lt hwaiter, Nat.lt_succ_of_lt hwait⟩
    · obtain rfl := List.mem_singleton.1 ht
      exact ⟨Nat.lt_succ_self _, Nat.lt_succ_self _⟩
  waiters a ha b hb he := by
    rcases List.mem_append.1 ha with ha | ha <;> rcases List.mem_append.1 hb with hb | hb
    · exact h.waiters a ha b hb he
    · obtain rfl := List.mem_singleton.1 hb
      exact absurd he (Nat.ne_of_lt (h.known a ha).1)
    · obtain rfl := List.mem_singleton.1 ha
      exact absurd he.symm (Nat.ne_of_lt (h.known b hb).1)
    · exact (List.mem_singleton.1 ha).trans (List.mem_singleton.1 hb).symm
  waits a ha b hb he := by
    rcases List.mem_append.1 ha with ha | ha <;> rcases List.mem_append.1 hb with hb | hb
    · exact h.waits a ha b hb he
    · obtain rfl := List.mem_singleton.1 hb
      exact absurd he (Nat.ne_of_lt (h.known a ha).2)
    · obtain rfl := List.mem_singleton.1 ha
      exact absurd he.symm (Nat.ne_of_lt (h.known b hb).2)
    · exact (List.mem_singleton.1 ha).trans (List.mem_singleton.1 hb).symm
  live {k live} hlive := by
    have hnow : (r.after (.setTimer target sleeper)).timetable.now = r.timetable.now :=
      Timetable.now_addTimer ..
    rw [h.timer?_setTimer] at hlive
    rw [hnow]
    split at hlive
    · next hk =>
      obtain rfl := Option.some.inj hlive
      exact ⟨hk.symm, htarget, List.mem_append_right _ (List.mem_singleton.2 (by rw [hk]))⟩
    · obtain ⟨htie, hle, hmem⟩ := h.live hlive
      exact ⟨htie, hle, List.mem_append_left _ hmem⟩
  fate timer ht := by
    rcases List.mem_append.1 ht with ht | ht
    · obtain ⟨fate, hf⟩ := h.fate timer ht
      exact ⟨_, h.hasFate_after ht hf _⟩
    · obtain rfl := List.mem_singleton.1 ht
      exact ⟨.pending, h.hasFate_setTimer target sleeper⟩

/-- What holds of a run is kept by every call. -/
theorem Kept.after (h : r.Kept) (hallowed : r.Allows call) : (r.after call).Kept := by
  have hfate (timer : TimerRecord) (ht : timer ∈ r.timers) :
      ∃ fate, (r.after call).timetable.HasFate timer fate :=
    let ⟨_, hf⟩ := h.fate timer ht
    ⟨_, h.hasFate_after ht hf call⟩
  cases call with
  | allocate =>
    exact h.goOn r.timetable.allocate.2 h.complete (Nat.le_succ _) (Nat.le_refl _)
      (fun hl => ⟨hl, (h.live hl).2.1⟩) hfate _
  | setTimer target sleeper => exact h.setTimer hallowed sleeper
  | setSleeper wait sleeper =>
    have hclock := Timetable.clock_setSleeper r.timetable wait sleeper
    have hsize : (r.timetable.setSleeper wait sleeper).waits.size = r.timetable.waits.size := by
      unfold Timetable.setSleeper
      split <;> simp
    refine h.goOn _ ?_ (Nat.le_of_eq ?_) (Nat.le_of_eq hsize.symm) (fun {k live} hl => ?_) hfate _
    · rw [hclock]
      exact h.complete
    · rw [hclock]
    · unfold Timetable.timer? Timetable.now at *
      rw [hclock] at hl ⊢
      exact ⟨hl, (h.live hl).2.1⟩
  | cancelTimer waiter =>
    have hclock := Timetable.clock_cancelTimer r.timetable waiter
    refine h.goOn _ ?_ (Nat.le_of_eq ?_) (Nat.le_of_eq (Timetable.size_cancelTimer ..).symm)
      (fun {k live} hl => ?_) hfate _
    · rw [hclock]
      exact TimerQueue.complete_remove h.complete waiter
    · rw [hclock]
      rfl
    · rw [Timetable.timer?_cancelTimer] at hl
      split at hl
      · cases hl
      · unfold Timetable.now
        rw [hclock]
        exact ⟨hl, (h.live hl).2.1⟩
  | advance =>
    cases hnext : r.timetable.clock.next? with
    | none =>
      have hsame : (r.after .advance).timetable = r.timetable := by
        simp only [TimerRun.after, Timetable.advance_of_next?_eq_none hnext]
      refine h.goOn (r.after .advance).timetable (hsame ▸ h.complete) (Nat.le_of_eq ?_) (Nat.le_of_eq ?_)
        (fun {k live} hl => ?_) hfate _
      · rw [hsame]
      · rw [hsame]
      · rw [hsame] at hl ⊢
        exact ⟨hl, (h.live hl).2.1⟩
    | some time =>
      obtain ⟨-, hclock, hres⟩ := Timetable.resolves_advance hnext
      refine h.goOn _ ?_ (Nat.le_of_eq ?_) (Nat.le_of_eq hres.size.symm) (fun {k live} hl => ?_) hfate _
      · rw [hclock]
        exact (Clock.takenDue_takeDue _ _).complete h.complete
      · rw [hclock]
      · rw [Timetable.timer?_advance h.complete hnext] at hl
        have hl := (Option.filter_eq_some_iff.1 hl).1
        unfold Timetable.now
        rw [hclock]
        exact ⟨hl, Nat.max_le.2 ⟨(h.live hl).2.1, TimerQueue.le_deadline_of_peek? h.complete hnext hl⟩⟩

/-- A timer becomes done when the clock comes to its deadline, and only then. -/
theorem Kept.now_of_done (h : r.Kept) (hpending : r.timetable.HasFate timer .pending)
    (hdone : (r.after call).timetable.HasFate timer .done) : (r.after call).timetable.now = timer.target := by
  obtain ⟨-, hnow, hmem⟩ := h.live hpending.1
  have hfate := hdone.unique (h.hasFate_after hmem hpending call)
  cases call with
  | cancelTimer waiter =>
    simp only [TimerFate.after] at hfate
    split at hfate <;> cases hfate
  | advance =>
    simp only [TimerFate.after, true_and] at hfate
    split at hfate
    · next hnext =>
      have hclock := (Timetable.resolves_advance hnext).2.1
      exact (congrArg Clock.now hclock).trans (Nat.max_eq_right hnow)
    · cases hfate
  | _ => cases hfate

/-- Nothing is handed out and no new timer is set. -/
theorem Handed.goOn {due : List TimerRecord} (h : r.Handed due) (hr : r.Kept)
    (htimers : (r.after call).timers = r.timers) (hsame : (r.after call).handedOut = r.handedOut)
    (hnow : (r.after call).timetable.now = r.timetable.now)
    (hundone : ∀ timer ∈ r.timers, ∀ {fate : TimerFate}, r.timetable.HasFate timer fate →
      fate.after r.timetable timer call = .done → fate = .done) :
    (r.after call).Handed due where
  waiters := h.waiters.trans hsame.symm
  mem timer := by
    rw [htimers]
    refine (h.mem timer).trans (and_congr_right fun ht => ⟨fun hdone => ?_, fun hdone => ?_⟩)
    · exact hr.resolved_after ht hdone (by decide) call
    · obtain ⟨fate, hfate, he⟩ := hr.exists_before ht hdone
      exact hundone timer ht hfate he.symm ▸ hfate
  ordered := h.ordered
  past timer ht := hnow ▸ h.past timer ht
  pending a ha b hb hpending := by
    rw [htimers] at hb
    obtain ⟨fate, hfate, he⟩ := hr.exists_before hb hpending
    exact h.pending a ha b hb (TimerFate.eq_pending_of_after he.symm ▸ hfate)

theorem Handed.setTimer {due : List TimerRecord} (h : r.Handed due) (hr : r.Kept) {target : Nat}
    (htarget : r.timetable.now ≤ target) (sleeper : Option Ticket) :
    (r.after (.setTimer target sleeper)).Handed due := by
  have hnow : (r.after (.setTimer target sleeper)).timetable.now = r.timetable.now :=
    Timetable.now_addTimer ..
  have hkeep {timer : TimerRecord} {fate : TimerFate} (ht : timer ∈ r.timers) :
      r.timetable.HasFate timer fate ↔ (r.after (.setTimer target sleeper)).timetable.HasFate timer fate := by
    refine ⟨fun hfate => hr.hasFate_after ht hfate (.setTimer target sleeper), fun hfate => ?_⟩
    obtain ⟨fate', hfate', rfl⟩ := hr.exists_before ht hfate
    exact hfate'
  have hnew := hr.hasFate_setTimer target sleeper
  refine ⟨h.waiters, fun timer => ⟨fun ht => ?_, fun ⟨ht, hdone⟩ => ?_⟩, h.ordered,
    fun timer ht => hnow ▸ h.past timer ht, fun a ha b hb hpending => ?_⟩
  · obtain ⟨ht, hdone⟩ := (h.mem timer).1 ht
    exact ⟨List.mem_append_left _ ht, (hkeep ht).1 hdone⟩
  · rcases List.mem_append.1 ht with ht | ht
    · exact (h.mem timer).2 ⟨ht, (hkeep ht).2 hdone⟩
    · obtain rfl := List.mem_singleton.1 ht
      cases hdone.unique hnew
  · rcases List.mem_append.1 hb with hb | hb
    · exact h.pending a ha b hb ((hkeep hb).2 hpending)
    · -- The new timer has a larger number, and what was handed out is not due later.
      obtain rfl := List.mem_singleton.1 hb
      have hpast := Nat.le_trans (h.past a ha) htarget
      have hwaiter := (hr.known a ((h.mem a).1 ha).1).1
      exact (Nat.lt_or_eq_of_le hpast).imp id fun he => ⟨he, hwaiter⟩

/-- The timers that are due come after all that was handed out before, and before all that is still
pending. -/
theorem Handed.advance {due : List TimerRecord} (h : r.Handed due) (hr : r.Kept) {time : Nat}
    (hnext : r.timetable.clock.next? = some time) :
    (r.after .advance).Handed
      (due ++ (Clock.takeDue time r.timetable.clock.timers).1.map fun (k, wait) => ⟨k, time, wait⟩) := by
  have htaken := Clock.takenDue_takeDue time r.timetable.clock.timers
  have hle {id : Nat} {live : LiveTimer WaitId} (hl : r.timetable.clock.timers.live[id]? = some live) :=
    TimerQueue.le_deadline_of_peek? hr.complete hnext hl
  have hnumbered : r.timetable.clock.timers.Numbered := fun hlive => (hr.live hlive).1
  obtain ⟨hwaiters, hclock, -⟩ := Timetable.resolves_advance hnext
  have hnow : (r.after .advance).timetable.now = max r.timetable.now time := congrArg Clock.now hclock
  have hafter {timer : TimerRecord} : TimerFate.pending.after r.timetable timer .advance =
      if timer.target = time then .done else .pending := by
    simp [TimerFate.after, hnext, eq_comm]
  -- What is due was pending.
  have hdue {k : Nat} {wait : WaitId}
      (hmem : (k, wait) ∈ (Clock.takeDue time r.timetable.clock.timers).1) :
      ⟨k, time, wait⟩ ∈ r.timers ∧ r.timetable.HasFate ⟨k, time, wait⟩ .pending := by
    obtain ⟨tie, hlive, -⟩ := htaken.mem k wait hmem
    exact ⟨(hr.live hlive).2.2, hr.hasFate_of_live hlive⟩
  refine ⟨?_, fun timer => ⟨fun ht => ?_, fun ⟨ht, hdone⟩ => ?_⟩, ?_, fun timer ht => ?_,
    fun a ha b hb hpending => ?_⟩
  · rw [List.map_append, h.waiters, List.map_map]
    exact (congrArg (r.handedOut ++ ·) hwaiters).symm
  · rcases List.mem_append.1 ht with ht | ht
    · obtain ⟨ht, hdone⟩ := (h.mem timer).1 ht
      exact ⟨ht, hr.resolved_after ht hdone (by decide) .advance⟩
    · obtain ⟨⟨k, wait⟩, hmem, rfl⟩ := List.mem_map.1 ht
      obtain ⟨ht, hpending⟩ := hdue hmem
      have := hr.hasFate_after ht hpending .advance
      rw [hafter, if_pos rfl] at this
      exact ⟨ht, this⟩
  · obtain ⟨former, hformer, he⟩ := hr.exists_before ht hdone
    cases former with
    | pending =>
      rw [hafter] at he
      split at he
      · next htime =>
        subst htime
        exact List.mem_append_right _
          (List.mem_map.2 ⟨_, Clock.mem_takeDue hr.complete hle hformer.1 rfl, rfl⟩)
      · cases he
    | done => exact List.mem_append_left _ ((h.mem timer).2 ⟨ht, hformer⟩)
    | cancelled => cases he
  · refine List.pairwise_append.2 ⟨h.ordered, List.pairwise_map.2 ?_, fun a ha b hb => ?_⟩
    · exact (Clock.pairwise_takeDue time hr.complete hnumbered).imp fun hlt => .inr ⟨rfl, hlt⟩
    · obtain ⟨⟨k, wait⟩, hmem, rfl⟩ := List.mem_map.1 hb
      exact h.pending a ha _ (hdue hmem).1 (hdue hmem).2
  · rw [hnow]
    rcases List.mem_append.1 ht with ht | ht
    · exact Nat.le_trans (h.past timer ht) (Nat.le_max_left ..)
    · obtain ⟨_, -, rfl⟩ := List.mem_map.1 ht
      exact Nat.le_max_right ..
  · obtain ⟨former, hformer, he⟩ := hr.exists_before hb hpending
    obtain rfl := TimerFate.eq_pending_of_after he.symm
    rw [hafter] at he
    split at he
    · cases he
    · next hlate =>
      rcases List.mem_append.1 ha with ha | ha
      · exact h.pending a ha b hb hformer
      · obtain ⟨_, -, rfl⟩ := List.mem_map.1 ha
        exact .inl (Nat.lt_of_le_of_ne (hle hformer.1) (Ne.symm hlate))

theorem exists_handed_after {due : List TimerRecord} (h : r.Handed due) (hr : r.Kept)
    (hallowed : r.Allows call) : ∃ due, (r.after call).Handed due := by
  cases call with
  | allocate => exact ⟨due, h.goOn hr rfl rfl rfl fun _ _ _ _ he => he⟩
  | setTimer target sleeper => exact ⟨due, h.setTimer hr hallowed sleeper⟩
  | setSleeper wait sleeper =>
    refine ⟨due, h.goOn hr rfl rfl ?_ fun _ _ _ _ he => he⟩
    exact congrArg Clock.now (Timetable.clock_setSleeper ..)
  | cancelTimer waiter =>
    refine ⟨due, h.goOn hr rfl rfl ?_ fun timer _ fate _ he => ?_⟩
    · exact (congrArg Clock.now (Timetable.clock_cancelTimer ..)).trans rfl
    · rw [TimerFate.after] at he
      split at he
      · cases he
      · exact he
  | advance =>
    cases hnext : r.timetable.clock.next? with
    | some time => exact ⟨_, h.advance hr hnext⟩
    | none =>
      have hstill := Timetable.advance_of_next?_eq_none hnext
      refine ⟨due, h.goOn hr rfl ?_ ?_ fun timer _ fate _ he => ?_⟩
      · simp only [TimerRun.after, hstill, List.append_nil]
      · simp only [TimerRun.after, hstill]
      · simpa only [TimerFate.after, hnext, reduceCtorEq, and_false, if_false] using he

theorem kept_start : start.Kept where
  complete := TimerQueue.complete_empty
  known := nofun
  waiters := nofun
  waits := nofun
  live hlive := by simp [start, Timetable.start, Timetable.timer?, Clock.start, TimerQueue.empty] at hlive
  fate := nofun

theorem handed_start : start.Handed [] := ⟨rfl, by simp [start], .nil, nofun, nofun⟩

theorem afterAll_append (r : TimerRun) (before later : List TimetableCall) :
    r.afterAll (before ++ later) = (r.afterAll before).afterAll later := List.foldl_append

theorem Kept.afterAll (h : r.Kept) {due : List TimerRecord} (hdue : r.Handed due)
    {calls : List TimetableCall} (hallowed : r.AllowsAll calls) :
    (r.afterAll calls).Kept ∧ ∃ due, (r.afterAll calls).Handed due := by
  induction calls generalizing r due with
  | nil => exact ⟨h, due, hdue⟩
  | cons call rest ih =>
    obtain ⟨due', hdue'⟩ := exists_handed_after hdue h hallowed.1
    exact ih (h.after hallowed.1) hdue' hallowed.2

theorem timers_after (r : TimerRun) (call : TimetableCall) : r.timers ⊆ (r.after call).timers := by
  cases call with
  | setTimer target sleeper => exact List.subset_append_left ..
  | _ => exact List.Subset.refl _

theorem Kept.resolved_afterAll (h : r.Kept) (ht : timer ∈ r.timers)
    (hfate : r.timetable.HasFate timer fate) (hresolved : fate ≠ .pending) {calls : List TimetableCall}
    (hallowed : r.AllowsAll calls) : (r.afterAll calls).timetable.HasFate timer fate := by
  induction calls generalizing r with
  | nil => exact hfate
  | cons call rest ih =>
    exact ih (h.after hallowed.1) (timers_after r call ht) (h.resolved_after ht hfate hresolved call)
      hallowed.2

/-- A timer that is done was made so by one of the calls, when it was due. -/
theorem exists_call_of_done {calls : List TimetableCall} (hallowed : start.AllowsAll calls)
    (ht : timer ∈ (start.afterAll calls).timers)
    (hdone : (start.afterAll calls).timetable.HasFate timer .done) :
    ∃ before call later, calls = before ++ call :: later ∧
      (start.afterAll before).timetable.HasFate timer .pending ∧
      (start.afterAll (before ++ [call])).timetable.HasFate timer .done ∧
      (start.afterAll (before ++ [call])).timetable.now = timer.target := by
  induction calls using List.reverseRecOn with
  | nil => cases ht
  | append_singleton earlier call ih =>
    obtain ⟨hearlier, hcall, -⟩ := allowsAll_append.1 hallowed
    have hkept := (kept_start.afterAll handed_start hearlier).1
    have hlast : start.afterAll (earlier ++ [call]) = (start.afterAll earlier).after call :=
      afterAll_append ..
    rcases hkept.mem_timers_after (hlast ▸ ht) with ht | hpending
    · obtain ⟨former, hformer, he⟩ := hkept.exists_before ht (hlast ▸ hdone)
      cases former with
      | pending =>
        exact ⟨earlier, call, [], rfl, hformer, hdone, hlast ▸ hkept.now_of_done hformer (hlast ▸ hdone)⟩
      | done =>
        obtain ⟨before, call', later, rfl, hrest⟩ := ih hearlier ht hformer
        exact ⟨before, call', later ++ [call], by simp, hrest⟩
      | cancelled =>
        rw [TimerFate.after_of_ne_pending (by decide)] at he
        cases he
    · cases (hlast ▸ hdone : ((start.afterAll earlier).after call).timetable.HasFate timer .done).unique
        hpending

end TimerRun

/-- Whatever is asked of a timetable that alone resolves its waits, a timer is pending, done or cancelled,
and once it is resolved it stays so; it is done when the clock is at its deadline; and over the whole run
the timers are handed out by deadline and in the order in which they were set, each when it is done. -/
theorem timers_resolve_once_and_in_order (calls : List TimetableCall)
    (hallowed : TimerRun.start.AllowsAll calls) :
    let r := TimerRun.start.afterAll calls
    (∀ timer ∈ r.timers, ∃! fate, r.timetable.HasFate timer fate) ∧
    (∀ timer ∈ r.timers, ∀ fate, fate ≠ .pending → r.timetable.HasFate timer fate →
      ∀ more, TimerRun.start.AllowsAll (calls ++ more) →
        (TimerRun.start.afterAll (calls ++ more)).timetable.HasFate timer fate) ∧
    (∀ timer ∈ r.timers, r.timetable.HasFate timer .done →
      ∃ before call later, calls = before ++ call :: later ∧
        (TimerRun.start.afterAll before).timetable.HasFate timer .pending ∧
        (TimerRun.start.afterAll (before ++ [call])).timetable.HasFate timer .done ∧
        (TimerRun.start.afterAll (before ++ [call])).timetable.now = timer.target) ∧
    ∃ due : List TimerRecord, due.map (·.waiter) = r.handedOut ∧
      (∀ timer, timer ∈ due ↔ timer ∈ r.timers ∧ r.timetable.HasFate timer .done) ∧
      due.Pairwise TimerRecord.Precedes := by
  intro r
  obtain ⟨hkept, due, hdue⟩ := TimerRun.kept_start.afterAll TimerRun.handed_start hallowed
  refine ⟨fun timer ht => ?_, fun timer ht fate hresolved hfate more hmore => ?_,
    fun timer ht hdone => TimerRun.exists_call_of_done hallowed ht hdone,
    due, hdue.waiters, hdue.mem, hdue.ordered⟩
  · obtain ⟨fate, hfate⟩ := hkept.fate timer ht
    exact ⟨fate, hfate, fun _ h => h.unique hfate⟩
  · rw [TimerRun.afterAll_append]
    exact hkept.resolved_afterAll ht hfate hresolved (TimerRun.allowsAll_append.1 hmore).2

/-- Two timers are set, the earlier one goes off, a third one is set for the same instant, and the first
is cancelled. -/
def crossedTimers : List TimetableCall :=
  [.setTimer 5 none, .setTimer 3 none, .setTimer 5 none, .advance, .setTimer 3 none, .cancelTimer 0,
    .advance, .advance]

theorem crossedTimers_in_order :
    TimerRun.start.AllowsAll crossedTimers ∧
      ∃ due : List TimerRecord, due.map (·.waiter) = [1, 3, 2] ∧ due.Pairwise TimerRecord.Precedes := by
  have hallowed : TimerRun.start.AllowsAll crossedTimers := by decide +kernel
  have hout : (TimerRun.start.afterAll crossedTimers).handedOut = [1, 3, 2] := by decide +kernel
  obtain ⟨-, -, -, due, hwaiters, -, hordered⟩ := timers_resolve_once_and_in_order crossedTimers hallowed
  exact ⟨hallowed, due, hwaiters.trans hout, hordered⟩

end RacePuzzle
