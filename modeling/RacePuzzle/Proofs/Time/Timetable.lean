import RacePuzzle.Proofs.Time.TimerQueue
import RacePuzzle.Time.Timetable
import Mathlib.Data.List.Basic

/-! The resolution of waits. A wait is resolved once; whoever sleeps on it is among the sleepers
that the resolution gives. -/
namespace RacePuzzle.Timetable

def IsOver (t : Timetable) (wait : WaitId) : Prop :=
  t.waits[wait]? = some .done ∨ t.waits[wait]? = some .cancelled

def timer? (t : Timetable) (waiter : Nat) : Option (LiveTimer WaitId) :=
  t.clock.timers.live[waiter]?

/-- In `t'` the pending ones of `waits` have been resolved, and `sleepers` slept on them. -/
structure Resolves (outcome : Wait) (waits : List WaitId) (t : Timetable)
    (sleepers : List Ticket) (t' : Timetable) : Prop where
  clock : t'.clock = t.clock
  size : t'.waits.size = t.waits.size
  untouched : ∀ w : WaitId, w ∉ waits → t'.waits[w]? = t.waits[w]?
  kept : ∀ w : WaitId, (∀ s, t.waits[w]? ≠ some (.pending s)) → t'.waits[w]? = t.waits[w]?
  hit : ∀ w ∈ waits, ∀ s, t.waits[w]? = some (.pending s) →
    t'.waits[w]? = some outcome ∧ ∀ i ∈ s, i ∈ sleepers

variable {t t' t'' : Timetable} {outcome : Wait}

theorem resolves_nil : Resolves outcome [] t [] t :=
  ⟨rfl, rfl, fun _ _ => rfl, fun _ _ => rfl, nofun⟩

theorem resolves_resolve (t : Timetable) (outcome : Wait) (w : WaitId) :
    Resolves outcome [w] t (t.resolve w outcome).1.toList (t.resolve w outcome).2 := by
  unfold resolve
  split
  · next sleeper h =>
    have hlt : w < t.waits.size := (Array.getElem?_eq_some_iff.1 h).1
    refine ⟨rfl, by simp, fun w' hw' => ?_, fun w' hw' => ?_, fun w' hw' s hs => ?_⟩
    · have hne : w ≠ w' := fun he => hw' (by simp [he])
      simp [hne]
    · have hne : w ≠ w' := fun he => hw' sleeper (he ▸ h)
      simp [hne]
    · obtain rfl : w' = w := by simpa using hw'
      obtain rfl : sleeper = s := by simpa [h] using hs
      exact ⟨by simp [hlt], by simp⟩
  · next h =>
    refine ⟨rfl, rfl, fun _ _ => rfl, fun _ _ => rfl, fun w' hw' s hs => ?_⟩
    obtain rfl : w' = w := by simpa using hw'
    exact absurd hs (h s)

theorem Resolves.trans {ws vs : List WaitId} {ss rs : List Ticket}
    (hpending : ∀ s, outcome ≠ .pending s)
    (h : Resolves outcome ws t ss t') (h' : Resolves outcome vs t' rs t'') :
    Resolves outcome (ws ++ vs) t (ss ++ rs) t'' := by
  refine ⟨h'.clock.trans h.clock, h'.size.trans h.size, fun w hw => ?_, fun w hw => ?_,
    fun w hw s hs => ?_⟩
  · rw [List.mem_append, not_or] at hw
    exact (h'.untouched w hw.2).trans (h.untouched w hw.1)
  · have hw' := h.kept w hw
    exact (h'.kept w (by rwa [hw'])).trans hw'
  · by_cases hmem : w ∈ ws
    · obtain ⟨ho, hi⟩ := h.hit w hmem s hs
      refine ⟨(h'.kept w fun r hr => ?_).trans ho, fun i his => List.mem_append_left _ (hi i his)⟩
      rw [ho] at hr
      exact hpending r (Option.some.inj hr)
    · have hvs : w ∈ vs := (List.mem_append.1 hw).resolve_left hmem
      obtain ⟨ho, hi⟩ := h'.hit w hvs s ((h.untouched w hmem).trans hs)
      exact ⟨ho, fun i his => List.mem_append_right _ (hi i his)⟩

theorem resolves_resolveAll (hpending : ∀ s, outcome ≠ .pending s) (t : Timetable)
    (ws : List WaitId) :
    Resolves outcome ws t (t.resolveAll outcome ws).1 (t.resolveAll outcome ws).2 := by
  induction ws generalizing t with
  | nil => exact resolves_nil
  | cons w rest ih =>
    exact (resolves_resolve t outcome w).trans hpending (ih (t.resolve w outcome).2)

theorem IsOver.not_pending {w : WaitId} (h : t.IsOver w) (s : Option Ticket) :
    t.waits[w]? ≠ some (.pending s) := by
  rcases h with h | h <;> simp [h]

theorem Resolves.isOver {ws : List WaitId} {ss : List Ticket} (h : Resolves outcome ws t ss t')
    {w : WaitId} (hw : t.IsOver w) : t'.IsOver w := by
  unfold IsOver
  rw [h.kept w hw.not_pending]
  exact hw

@[simp] theorem timer?_allocate (t : Timetable) : (t.allocate).2.timer? = t.timer? := rfl

@[simp] theorem waits_allocate (t : Timetable) : (t.allocate).2.waits = t.waits := rfl

@[simp] theorem waits_addTimer (t : Timetable) (waiter target seq : Nat) (wait : WaitId) :
    (t.addTimer waiter target seq wait).waits = t.waits := rfl

theorem setSleeper_eq {t : Timetable} {w : WaitId} {i : Ticket}
    (h : t.waits[w]? = some (.pending (some i))) : t.setSleeper w i = t := by
  obtain ⟨hlt, hget⟩ := Array.getElem?_eq_some_iff.1 h
  have hset : t.waits.setIfInBounds w (.pending (some i)) = t.waits := by
    rw [← hget, Array.setIfInBounds_def, dif_pos hlt, Array.set_getElem_self]
  simp only [setSleeper, h, hset]

theorem nextSeq_addTimer (t : Timetable) (waiter target seq : Nat) (wait : WaitId) :
    (t.addTimer waiter target seq wait).clock.nextSeq = t.clock.nextSeq := by
  unfold addTimer Clock.addTimer
  split <;> rfl

theorem now_addTimer (t : Timetable) (waiter target seq : Nat) (wait : WaitId) :
    (t.addTimer waiter target seq wait).now = t.now := by
  unfold addTimer Clock.addTimer now
  split <;> rfl

theorem timer?_addTimer {t : Timetable} {waiter : Nat} (h : t.timer? waiter = none)
    (target seq : Nat) (wait : WaitId) (k : Nat) :
    (t.addTimer waiter target seq wait).timer? k =
      if k = waiter then some ⟨target, seq, wait⟩ else t.timer? k := by
  have hadd := TimerQueue.add?_eq_some target seq wait (q := t.clock.timers) h
  simp only [timer?, addTimer, Clock.addTimer, hadd]
  rw [Std.TreeMap.getElem?_insert]
  by_cases hk : k = waiter
  · simp [hk]
  · have hne : compare waiter k ≠ .eq := fun he => hk (Nat.compare_eq_eq.1 he).symm
    simp [hk, hne]

theorem complete_addTimer {t : Timetable} (h : t.clock.timers.Complete) {waiter : Nat}
    (hnew : t.timer? waiter = none) (target seq : Nat) (wait : WaitId) :
    (t.addTimer waiter target seq wait).clock.timers.Complete := by
  have hadd := TimerQueue.add?_eq_some target seq wait (q := t.clock.timers) hnew
  simp only [addTimer, Clock.addTimer, hadd]
  exact TimerQueue.complete_insert h waiter target seq wait

/-- The cancellation of a timer takes it off the clock and resolves its wait. -/
theorem cancelTimer_eq (t : Timetable) (waiter : Nat) :
    t.cancelTimer waiter =
      match t.timer? waiter with
      | none => (none, { t with clock := (t.clock.cancelTimer waiter).2 })
      | some timer =>
        { t with clock := (t.clock.cancelTimer waiter).2 }.resolve timer.content .cancelled := by
  have hfst : (t.clock.cancelTimer waiter).1 = (t.timer? waiter).map (·.content) :=
    TimerQueue.fst_remove waiter
  unfold cancelTimer
  split
  · next clock h =>
    rw [h] at hfst
    rw [Option.map_eq_none_iff.1 hfst.symm, h]
  · next wait clock h =>
    rw [h] at hfst
    obtain ⟨timer, ht, rfl⟩ := Option.map_eq_some_iff.1 hfst.symm
    rw [ht, h]

theorem clock_resolve (t : Timetable) (w : WaitId) (outcome : Wait) :
    (t.resolve w outcome).2.clock = t.clock :=
  (resolves_resolve t outcome w).clock

theorem clock_resolveAll (t : Timetable) {outcome : Wait} (ho : ∀ s, outcome ≠ .pending s)
    (ws : List WaitId) : (t.resolveAll outcome ws).2.clock = t.clock :=
  (resolves_resolveAll ho t ws).clock

theorem clock_cancelTimer (t : Timetable) (waiter : Nat) :
    (t.cancelTimer waiter).2.clock = (t.clock.cancelTimer waiter).2 := by
  rw [cancelTimer_eq]
  split
  · rfl
  · exact clock_resolve ..

theorem size_cancelTimer (t : Timetable) (waiter : Nat) :
    (t.cancelTimer waiter).2.waits.size = t.waits.size := by
  rw [cancelTimer_eq]
  split
  · rfl
  · exact (resolves_resolve _ _ _).size

theorem timer?_cancelTimer (t : Timetable) (waiter k : Nat) :
    (t.cancelTimer waiter).2.timer? k = if k = waiter then none else t.timer? k := by
  unfold timer?
  rw [clock_cancelTimer]
  exact TimerQueue.live_remove ..

/-- The sleepers of waits that are resolved one after the other are those that they have now. -/
theorem fst_resolveAll (t : Timetable) (outcome : Wait) {ws : List WaitId} (h : ws.Nodup) :
    (t.resolveAll outcome ws).1 = ws.filterMap fun w => (t.resolve w outcome).1 := by
  have hsame {t : Timetable} {v w : WaitId} (hne : w ≠ v) :
      ((t.resolve v outcome).2.resolve w outcome).1 = (t.resolve w outcome).1 := by
    have hw : (t.resolve v outcome).2.waits[w]? = t.waits[w]? :=
      (resolves_resolve t outcome v).untouched w (by simpa using hne)
    unfold resolve at hw ⊢
    rw [hw]
    split <;> rfl
  induction ws generalizing t with
  | nil => rfl
  | cons w rest ih =>
    obtain ⟨hnew, hrest⟩ := List.nodup_cons.1 h
    have hrest : ((t.resolve w outcome).2.resolveAll outcome rest).1 =
        rest.filterMap fun w => (t.resolve w outcome).1 :=
      (ih _ hrest).trans (List.filterMap_congr fun v hv => hsame fun he => hnew (he ▸ hv))
    refine (congrArg ((t.resolve w outcome).1.toList ++ ·) hrest).trans ?_
    rw [List.filterMap_cons]
    cases (t.resolve w outcome).1 with
    | none => rfl
    | some i => rfl

/-- Moving the clock on hands out the timers that are due and resolves their waits. -/
theorem resolves_advance {t : Timetable} {time : Nat} (h : t.clock.next? = some time) :
    t.advance.1 = (Clock.takeDue time t.clock.timers).1.map Prod.fst ∧
      t.advance.2.2.clock = { t.clock with now := max t.clock.now time,
                                           timers := (Clock.takeDue time t.clock.timers).2 } ∧
      Resolves .done ((Clock.takeDue time t.clock.timers).1.map Prod.snd)
        { t with clock := t.advance.2.2.clock } t.advance.2.1 t.advance.2.2 := by
  have hadv : t.clock.advance = ((Clock.takeDue time t.clock.timers).1,
      { t.clock with now := max t.clock.now time,
                     timers := (Clock.takeDue time t.clock.timers).2 }) := by
    simp only [Clock.advance, h]
  have hres := @resolves_resolveAll .done nofun
    { t with clock := t.clock.advance.2 } (t.clock.advance.1.map Prod.snd)
  have hclock : t.advance.2.2.clock = t.clock.advance.2 := hres.clock
  refine ⟨?_, ?_⟩
  · simp only [advance, hadv]
  rw [hclock, hadv]
  refine ⟨rfl, ?_⟩
  rw [hadv] at hres
  simpa only [advance, hadv] using hres

/-- The timers that are handed out are those of one deadline. -/
theorem exists_takenDue_advance {t : Timetable} {time : Nat} (h : t.clock.next? = some time) :
    ∃ due left, due ≠ [] ∧ Clock.TakenDue time t.clock.timers due left ∧
      t.advance.2.2.clock = { t.clock with now := max t.clock.now time, timers := left } ∧
      Resolves .done (due.map Prod.snd) { t with clock := t.advance.2.2.clock }
        t.advance.2.1 t.advance.2.2 :=
  ⟨_, _, Clock.takeDue_ne_nil h, Clock.takenDue_takeDue _ _, (resolves_advance h).2⟩

end RacePuzzle.Timetable
