import RacePuzzle.Proofs.Machine.Suspension
import RacePuzzle.Proofs.Machine.Budget

/-! When waits are over. A delay sets a timer for the wait that it begins, and the clock, when it
moves on to a deadline, does the waits of the timers that it takes off. -/
namespace RacePuzzle.Machine

variable {ε τ : Type} {m m' : Machine ε τ}

/-- The wait that the waiter began is over at the time: now if it is done, and otherwise when its
timer goes off. -/
inductive OverAt (m : Machine ε τ) (waiter : Nat) (w : WaitId) : Nat → Prop
  | done : m.timetable.waits[w]? = some .done → OverAt m waiter w m.now
  | timed {s timer} : m.timetable.waits[w]? = some (.pending s) →
      m.timetable.timer? waiter = some timer → timer.content = w → m.now ≤ timer.deadline →
      OverAt m waiter w timer.deadline

theorem OverAt.congr {waiter w time : Nat} (h : m.OverAt waiter w time)
    (ht : m'.timetable = m.timetable) : m'.OverAt waiter w time := by
  cases h with
  | done hw =>
    have hnow : m.now = m'.now := by rw [now, now, ht]
    rw [hnow]
    exact .done (ht ▸ hw)
  | timed hw htimer hcontent hle =>
    exact .timed (ht ▸ hw) (ht ▸ htimer) hcontent (by rw [now, ht]; exact hle)

theorem OverAt.eq_now {waiter w time : Nat} (h : m.OverAt waiter w time)
    (hw : m.timetable.waits[w]? = some .done) : time = m.now := by
  cases h with
  | done _ => rfl
  | timed hpending _ _ _ => cases hpending.symm.trans hw

theorem OverAt.not_cancelled {waiter w time : Nat} (h : m.OverAt waiter w time) :
    m.timetable.waits[w]? ≠ some .cancelled := by
  cases h with
  | done hw => exact hw ▸ nofun
  | timed hw _ _ _ => exact hw ▸ nofun

structure DelayBegun (ticket : Ticket) (j : JobId) (duration : Nat) (m m' : Machine ε τ) :
    Prop where
  timer : ∀ k, m'.timetable.timer? k = if k = m.timetable.clock.nextSeq then
    some ⟨min (m.now + duration) maxTime, m.timetable.clock.nextSeq, m.timetable.waits.size⟩
    else m.timetable.timer? k
  waits : ∀ w, m'.timetable.waits[w]? =
    if w = m.timetable.waits.size then some (.pending (some ticket)) else m.timetable.waits[w]?
  now : m'.now = m.now
  job : ∀ k, ∃ pending, m'.job? k =
    (m.job? k).map fun job => if k = j then { job with pending := pending } else job
  env : m'.env = m.env
  dispatcher : m'.dispatcher = m.dispatcher

theorem delayBegun_beginDelay (hm : m.Orderly) {j : JobId} (hc : m.isCancelled j = false)
    (ticket : Ticket) (duration : Nat) : ∃ m', m.beginDelay ticket j duration =
      (.suspended (.wait j m.timetable.clock.nextSeq m.timetable.waits.size), m') ∧
        DelayBegun ticket j duration m m' := by
  have hfresh : m.timetable.allocate.2.timer? m.timetable.clock.nextSeq = none := by
    refine Option.eq_none_iff_forall_ne_some.2 fun timer ht => ?_
    exact absurd (hm.fresh ht) (Nat.lt_irrefl _)
  have hwaits := getElem?_waits_withWait m ticket j .timer
  have hnow := (spends_beginDelay m ticket j duration).now
  unfold beginDelay at hnow ⊢
  rw [hc] at hnow ⊢
  refine ⟨_, rfl, Timetable.timer?_addTimer hfresh _ _ _, fun w => ?_, hnow, fun k => ?_, rfl, rfl⟩
  · exact (congrArg (·[w]?) (Timetable.waits_addTimer ..)).trans (hwaits w)
  · refine ⟨((m.job? j).elim [] (·.pending)) ++ [(m.timetable.clock.nextSeq, .timer)], ?_⟩
    refine (job?_withWait m ticket j .timer k).trans ?_
    split
    · next hk =>
      subst hk
      cases m.job? k <;> simp
    · simp

/-- A delay is over after its duration, unless this is past the largest time. -/
theorem DelayBegun.overAt {ticket : Ticket} {j : JobId} {duration : Nat}
    (h : DelayBegun ticket j duration m m') (hmax : m.now + duration ≤ maxTime) :
    m'.OverAt m.timetable.clock.nextSeq m.timetable.waits.size (m.now + duration) := by
  have htimer := (h.timer m.timetable.clock.nextSeq).trans (if_pos rfl)
  rw [Nat.min_eq_left hmax] at htimer
  have hwait := (h.waits m.timetable.waits.size).trans (if_pos rfl)
  exact .timed hwait htimer rfl (h.now ▸ Nat.le_add_right _ _)

structure Advanced (time : Nat) (m m' : Machine ε τ) : Prop where
  now : m'.now = max m.now time
  timers : ∀ k, m'.timetable.timer? k = m.timetable.timer? k ∨ m'.timetable.timer? k = none ∧
    ∃ timer, m.timetable.timer? k = some timer ∧ timer.deadline = time ∧
      ∀ s, m.timetable.waits[timer.content]? = some (.pending s) →
        m'.timetable.waits[timer.content]? = some .done
  waits : ∀ w : WaitId, m'.timetable.waits[w]? = m.timetable.waits[w]? ∨
    ∃ k timer, m.timetable.timer? k = some timer ∧ timer.content = w ∧ timer.deadline = time ∧
      m'.timetable.timer? k = none
  goesOff : ∃ k timer, m.timetable.timer? k = some timer ∧ m'.timetable.timer? k = none

theorem advanced_advance {time : Nat} (h : m.timetable.clock.next? = some time) :
    Advanced time m m.advance.2 := by
  obtain ⟨due, left, hne, htaken, hclock, hres⟩ := Timetable.exists_takenDue_advance h
  have htimer : ∀ k, m.advance.2.timetable.timer? k = left.live[k]? := by
    intro k
    have htimers : m.advance.2.timetable.clock.timers = left := congrArg Clock.timers hclock
    rw [Timetable.timer?, htimers]
  have hdue : ∀ {k content}, (k, content) ∈ due → ∃ timer, m.timetable.timer? k = some timer ∧
      timer.content = content ∧ timer.deadline = time ∧
      m.advance.2.timetable.timer? k = none := by
    intro k content hmem
    obtain ⟨tie, hlive, hgone⟩ := htaken.mem k content hmem
    exact ⟨_, hlive, rfl, rfl, (htimer k).trans hgone⟩
  refine ⟨now_advance h, fun k => ?_, fun w => ?_, ?_⟩
  · rcases htaken.kept k with hkept | ⟨hgone, timer, hlive, hmem⟩
    · exact .inl ((htimer k).trans hkept)
    · obtain ⟨timer', htimer', hcontent, htime, hnone⟩ := hdue hmem
      obtain rfl : timer = timer' := Option.some.inj (hlive.symm.trans htimer')
      refine .inr ⟨hnone, timer, hlive, htime, fun s hs => ?_⟩
      exact (hres.hit _ (List.mem_map.2 ⟨_, hmem, rfl⟩) s hs).1
  · by_cases hw : w ∈ due.map Prod.snd
    · obtain ⟨⟨k, content⟩, hmem, rfl⟩ := List.mem_map.1 hw
      obtain ⟨timer, htimer, hcontent, htime, hnone⟩ := hdue hmem
      exact .inr ⟨k, timer, htimer, hcontent, htime, hnone⟩
    · exact .inl (hres.untouched w hw)
  · obtain ⟨⟨k, content⟩, hmem⟩ := List.exists_mem_of_ne_nil _ hne
    obtain ⟨timer, htimer, -, -, hnone⟩ := hdue hmem
    exact ⟨k, timer, htimer, hnone⟩

end RacePuzzle.Machine
