import RacePuzzle.Proofs.Time.TimerQueue
import RacePuzzle.Time.Timetable

/-! Timetables at another pace. Where all deadlines are multiplied by one positive number, the order of
the timers stays the same, ties and stale keys included; so two such timetables move on side by side, each
at its own times. -/
namespace RacePuzzle

variable {α : Type} {k : Nat}

def TimerKey.paced (k : Nat) (key : TimerKey) : TimerKey := { key with deadline := k * key.deadline }

theorem TimerKey.le_paced (hk : 0 < k) (a b : TimerKey) : (a.paced k).le (b.paced k) = a.le b := by
  have heq : k * a.deadline = k * b.deadline ↔ a.deadline = b.deadline := Nat.mul_right_inj (Nat.ne_of_gt hk)
  have hle : k * a.deadline ≤ k * b.deadline ↔ a.deadline ≤ b.deadline := Nat.mul_le_mul_left_iff hk
  unfold le paced
  by_cases he : a.deadline = b.deadline
  · rw [if_pos he, if_pos (heq.2 he)]
  · rw [if_neg he, if_neg (mt heq.1 he)]
    exact decide_eq_decide.2 hle

namespace KeyHeap

def paced (k : Nat) : KeyHeap → KeyHeap
  | nil => nil
  | node root l r => node (root.paced k) (l.paced k) (r.paced k)

theorem merge_paced (hk : 0 < k) (g h : KeyHeap) :
    (g.paced k).merge (h.paced k) = (g.merge h).paced k := by
  fun_induction merge g h with
  | case1 h => rw [paced, merge]
  | case2 g hg =>
    cases g with
    | nil => exact absurd rfl hg
    | node =>
      rw [paced, paced, merge]
      intro he
      cases he
  | case3 a l r b l' r' hab ih =>
    rw [paced, paced, paced, ← ih, merge, if_pos ((TimerKey.le_paced hk a b).trans hab), paced]
  | case4 a l r b l' r' hab ih =>
    rw [paced, paced, paced, ← ih, merge, if_neg fun h => hab ((TimerKey.le_paced hk a b).symm.trans h),
      paced]

theorem insert_paced (hk : 0 < k) (h : KeyHeap) (key : TimerKey) :
    (h.paced k).insert (key.paced k) = (h.insert key).paced k :=
  merge_paced hk (node key nil nil) h

end KeyHeap

def LiveTimer.paced (k : Nat) (timer : LiveTimer α) : LiveTimer α :=
  { timer with deadline := k * timer.deadline }

/-- The second queue has the timers of the first one with deadlines `k` times as late. -/
structure TimerQueue.Paced (k : Nat) (q q' : TimerQueue α) : Prop where
  pos : 0 < k
  keys : q'.keys = q.keys.paced k
  live : ∀ id : Nat, q'.live[id]? = (q.live[id]?).map (LiveTimer.paced k)

namespace TimerQueue.Paced

variable {q q' r : TimerQueue α} (h : q.Paced k q')

include h

theorem contains (id : Nat) : q'.contains id = q.contains id := by
  unfold TimerQueue.contains
  rw [Std.TreeMap.contains_eq_isSome_getElem?, Std.TreeMap.contains_eq_isSome_getElem?, h.live,
    Option.isSome_map]

theorem add? (id deadline tie : Nat) (content : α) :
    Option.Rel (TimerQueue.Paced k) (q.add? id deadline tie content)
      (q'.add? id (k * deadline) tie content) := by
  unfold TimerQueue.add?
  rw [h.contains]
  split
  · exact .none
  · refine .some ⟨h.pos, ?_, fun id' => ?_⟩
    · exact (congrArg (KeyHeap.insert _) h.keys).trans (KeyHeap.insert_paced h.pos q.keys ⟨deadline, tie, id⟩)
    · rw [Std.TreeMap.getElem?_insert, Std.TreeMap.getElem?_insert, h.live]
      split <;> rfl

/-- Both queues may give up the timer of one id. -/
theorem erase (id : Nat) (keys : KeyHeap) :
    (⟨keys, q.live.erase id⟩ : TimerQueue α).Paced k ⟨keys.paced k, q'.live.erase id⟩ := by
  refine ⟨h.pos, rfl, fun id' => ?_⟩
  rw [getElem?_erase_live, getElem?_erase_live, h.live]
  split <;> rfl

theorem remove (id : Nat) :
    (q'.remove id).1 = (q.remove id).1 ∧ (q.remove id).2.Paced k (q'.remove id).2 := by
  unfold TimerQueue.remove
  rw [h.live]
  cases q.live[id]? with
  | none => exact ⟨rfl, h⟩
  | some timer => exact ⟨rfl, h.keys ▸ h.erase id q.keys⟩

theorem timerOf? (key : TimerKey) :
    timerOf? q'.live (key.paced k) = (TimerQueue.timerOf? q.live key).map (LiveTimer.paced k) := by
  have hkey (timer : LiveTimer α) :
      (timer.paced k).key key.id = key.paced k ↔ timer.key key.id = key := by
    refine ⟨fun he => ?_, fun he => congrArg (TimerKey.paced k) he⟩
    obtain ⟨hdeadline, htie, -⟩ := TimerKey.mk.inj he
    exact TimerKey.mk.injEq .. ▸ ⟨Nat.eq_of_mul_eq_mul_left h.pos hdeadline, htie, rfl⟩
  unfold TimerQueue.timerOf?
  rw [show (key.paced k).id = key.id from rfl, h.live]
  cases q.live[key.id]? with
  | none => rfl
  | some timer =>
    dsimp only [Option.map_some]
    by_cases he : timer.key key.id = key
    · rw [if_pos he, if_pos ((hkey timer).2 he), Option.map_some]
    · rw [if_neg he, if_neg (mt (hkey timer).1 he), Option.map_none]

theorem dropStale (keys : KeyHeap) :
    TimerQueue.dropStale q'.live (keys.paced k) = (TimerQueue.dropStale q.live keys).paced k := by
  fun_induction TimerQueue.dropStale q.live keys with
  | case1 => rw [KeyHeap.paced, TimerQueue.dropStale]
  | case2 key l r hlive =>
    rw [KeyHeap.paced, TimerQueue.dropStale, h.timerOf?, Option.isSome_map, if_pos hlive]
  | case3 key l r hstale ih =>
    rw [KeyHeap.paced, TimerQueue.dropStale, h.timerOf?, Option.isSome_map, if_neg hstale,
      KeyHeap.merge_paced h.pos, ih]

theorem peek? : q'.peek? = q.peek?.map (k * ·) := by
  unfold TimerQueue.peek?
  rw [h.keys, h.dropStale]
  cases TimerQueue.dropStale q.live q.keys <;> rfl

theorem pop?_of_none (hp : q.pop? = none) : q'.pop? = none := by
  unfold pop? at hp ⊢
  rw [popFrom_eq] at hp ⊢
  rw [h.keys, h.dropStale]
  cases hd : TimerQueue.dropStale q.live q.keys with
  | nil => rfl
  | node key l r =>
    rw [hd, Option.map_eq_none_iff] at hp
    dsimp only [KeyHeap.paced]
    rw [h.timerOf?, hp]
    rfl

theorem pop?_of_some {key : TimerKey} {content : α} (hp : q.pop? = some ((key, content), r)) :
    ∃ r', q'.pop? = some ((key.paced k, content), r') ∧ r.Paced k r' := by
  unfold pop? at hp ⊢
  rw [popFrom_eq] at hp ⊢
  rw [h.keys, h.dropStale]
  cases hd : TimerQueue.dropStale q.live q.keys with
  | nil =>
    rw [hd] at hp
    cases hp
  | node top l r' =>
    rw [hd] at hp
    obtain ⟨timer, htimer, he⟩ := Option.map_eq_some_iff.1 hp
    obtain ⟨⟨rfl, rfl⟩, rfl⟩ := by simpa only [Prod.mk.injEq] using he
    dsimp only [KeyHeap.paced]
    rw [h.timerOf?, htimer, KeyHeap.merge_paced h.pos]
    exact ⟨_, rfl, h.erase top.id (l.merge r')⟩

end TimerQueue.Paced

structure Clock.Paced (k : Nat) (c c' : Clock α) : Prop where
  nextSeq : c'.nextSeq = c.nextSeq
  now : c'.now = k * c.now
  timers : c.timers.Paced k c'.timers

namespace Clock.Paced

variable {c c' : Clock α} (h : c.Paced k c')

theorem takeDue (time : Nat) {q q' : TimerQueue α} (h : q.Paced k q') :
    (takeDue (k * time) q').1 = (Clock.takeDue time q).1 ∧
      (Clock.takeDue time q).2.Paced k (Clock.takeDue (k * time) q').2 := by
  have hpeek (q q' : TimerQueue α) (h : q.Paced k q') :
      q'.peek? = some (k * time) ↔ q.peek? = some time := by
    rw [h.peek?, Option.map_eq_some_iff]
    refine ⟨fun ⟨first, hfirst, he⟩ => ?_, fun he => ⟨time, he, rfl⟩⟩
    rw [hfirst, Nat.eq_of_mul_eq_mul_left h.pos he]
  fun_induction Clock.takeDue time q generalizing q' with
  | case1 q htime hp =>
    unfold Clock.takeDue
    rw [if_pos ((hpeek q q' h).2 htime)]
    split
    · exact ⟨rfl, h⟩
    · next hp' => cases (h.pop?_of_none hp).symm.trans hp'
  | case2 q htime key content rest hp _ due left heq ih =>
    obtain ⟨rest', hp', hrest⟩ := h.pop?_of_some hp
    obtain ⟨hdue, hleft⟩ := ih hrest
    rw [heq] at hdue hleft
    unfold Clock.takeDue
    rw [if_pos ((hpeek q q' h).2 htime)]
    split
    · next hnone => cases hp'.symm.trans hnone
    · next key' content' rest'' hsome =>
      cases hp'.symm.trans hsome
      exact ⟨congrArg ((key.id, content) :: ·) hdue, hleft⟩
  | case3 q htime =>
    unfold Clock.takeDue
    rw [if_neg (mt (hpeek q q' h).1 htime)]
    exact ⟨rfl, h⟩

include h

theorem next? : c'.next? = c.next?.map (k * ·) := h.timers.peek?

theorem allocate : c'.allocate.1 = c.allocate.1 ∧ c.allocate.2.Paced k c'.allocate.2 :=
  ⟨h.nextSeq, congrArg Nat.succ h.nextSeq, h.now, h.timers⟩

theorem addTimer (waiter target seq : Nat) (content : α) :
    (c.addTimer waiter target seq content).Paced k (c'.addTimer waiter (k * target) seq content) := by
  have hadd := h.timers.add? waiter target seq content
  unfold Clock.addTimer
  generalize c.timers.add? waiter target seq content = added at hadd ⊢
  generalize c'.timers.add? waiter (k * target) seq content = added' at hadd ⊢
  cases hadd with
  | none => exact h
  | some hadd => exact ⟨h.nextSeq, h.now, hadd⟩

theorem cancelTimer (waiter : Nat) : (c'.cancelTimer waiter).1 = (c.cancelTimer waiter).1 ∧
    (c.cancelTimer waiter).2.Paced k (c'.cancelTimer waiter).2 :=
  ⟨(h.timers.remove waiter).1, h.nextSeq, h.now, (h.timers.remove waiter).2⟩

theorem advance : c'.advance.1 = c.advance.1 ∧ c.advance.2.Paced k c'.advance.2 := by
  unfold Clock.advance
  rw [h.next?]
  cases c.next? with
  | none => exact ⟨rfl, h⟩
  | some time =>
    obtain ⟨hdue, hleft⟩ := takeDue time h.timers
    refine ⟨hdue, h.nextSeq, ?_, hleft⟩
    exact (congrArg (max · (k * time)) h.now).trans (Nat.mul_max_mul_left k c.now time)

end Clock.Paced

structure Timetable.Paced (k : Nat) (t t' : Timetable) : Prop where
  clock : t.clock.Paced k t'.clock
  waits : t'.waits = t.waits

namespace Timetable.Paced

variable {t t' : Timetable} (h : t.Paced k t')

theorem start (hk : 0 < k) : Timetable.start.Paced k .start :=
  ⟨⟨rfl, rfl, hk, rfl, fun _ => by simp [Timetable.start, Clock.start, TimerQueue.empty]⟩, rfl⟩

include h

theorem pos : 0 < k := h.clock.timers.pos

theorem newWait (sleeper : Option Ticket) : (t'.newWait sleeper).1 = (t.newWait sleeper).1 ∧
    (t.newWait sleeper).2.Paced k (t'.newWait sleeper).2 :=
  ⟨congrArg Array.size h.waits, h.clock, congrArg (Array.push · _) h.waits⟩

theorem allocate : t'.allocate.1 = t.allocate.1 ∧ t.allocate.2.Paced k t'.allocate.2 :=
  ⟨h.clock.allocate.1, h.clock.allocate.2, h.waits⟩

theorem resolve (wait : WaitId) (outcome : Wait) :
    (t'.resolve wait outcome).1 = (t.resolve wait outcome).1 ∧
      (t.resolve wait outcome).2.Paced k (t'.resolve wait outcome).2 := by
  unfold Timetable.resolve
  rw [h.waits]
  split
  · exact ⟨rfl, h.clock, rfl⟩
  · exact ⟨rfl, h⟩

theorem resolveAll (outcome : Wait) (waits : List WaitId) :
    (t'.resolveAll outcome waits).1 = (t.resolveAll outcome waits).1 ∧
      (t.resolveAll outcome waits).2.Paced k (t'.resolveAll outcome waits).2 := by
  induction waits generalizing t t' with
  | nil => exact ⟨rfl, h⟩
  | cons wait rest ih =>
    obtain ⟨hfirst, hone⟩ := h.resolve wait outcome
    obtain ⟨hrest, hall⟩ := ih hone
    exact ⟨congrArg₂ (fun first rest => first.toList ++ rest) hfirst hrest, hall⟩

theorem setSleeper (wait : WaitId) (sleeper : Ticket) :
    (t.setSleeper wait sleeper).Paced k (t'.setSleeper wait sleeper) := by
  unfold Timetable.setSleeper
  rw [h.waits]
  split
  · exact ⟨h.clock, rfl⟩
  · exact h

theorem addTimer (waiter target seq : Nat) (wait : WaitId) :
    (t.addTimer waiter target seq wait).Paced k (t'.addTimer waiter (k * target) seq wait) :=
  ⟨h.clock.addTimer .., h.waits⟩

theorem cancelTimer (waiter : Nat) : (t'.cancelTimer waiter).1 = (t.cancelTimer waiter).1 ∧
    (t.cancelTimer waiter).2.Paced k (t'.cancelTimer waiter).2 := by
  obtain ⟨hfound, hclock⟩ := h.clock.cancelTimer waiter
  unfold Timetable.cancelTimer
  generalize t.clock.cancelTimer waiter = r at hfound hclock ⊢
  generalize t'.clock.cancelTimer waiter = r' at hfound hclock ⊢
  obtain ⟨found, clock⟩ := r
  obtain ⟨found', clock'⟩ := r'
  obtain rfl : found' = found := hfound
  have hcancelled : ({ t with clock := clock } : Timetable).Paced k { t' with clock := clock' } :=
    ⟨hclock, h.waits⟩
  cases found' with
  | none => exact ⟨rfl, hcancelled⟩
  | some wait => exact hcancelled.resolve wait .cancelled

theorem advance : t'.advance.1 = t.advance.1 ∧ t'.advance.2.1 = t.advance.2.1 ∧
    t.advance.2.2.Paced k t'.advance.2.2 := by
  obtain ⟨hdue, hclock⟩ := h.clock.advance
  have hmoved : ({ t with clock := t.clock.advance.2 } : Timetable).Paced k
      { t' with clock := t'.clock.advance.2 } := ⟨hclock, h.waits⟩
  unfold Timetable.advance
  dsimp only
  rw [hdue]
  exact ⟨rfl, hmoved.resolveAll .done _⟩

end Timetable.Paced

end RacePuzzle
