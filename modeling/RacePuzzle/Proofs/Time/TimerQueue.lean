import RacePuzzle.Time.Clock
import Mathlib.Tactic.Common

/-! The contents of a timer queue. Its table of live timers says what it holds; the heap has a key
for each of them and no key below a later one, so that a live timer is never out of reach and never
overtaken. -/
namespace RacePuzzle

namespace TimerKey

theorem deadline_le {a b : TimerKey} (h : a.le b = true) : a.deadline ≤ b.deadline := by
  simp only [le] at h
  split at h
  · next he => exact Nat.le_of_eq he
  · exact of_decide_eq_true h

end TimerKey

theorem KeyHeap.mem_toList_merge {g h : KeyHeap} {key : TimerKey} :
    key ∈ (merge g h).toList ↔ key ∈ g.toList ∨ key ∈ h.toList := by
  fun_induction merge g h with
  | case1 h => simp [toList]
  | case2 g => simp [toList]
  | case3 a l r b l' r' _ ih => simp only [toList, List.mem_cons, List.mem_append] at *; grind
  | case4 a l r b l' r' _ ih => simp only [toList, List.mem_cons, List.mem_append] at *; grind

theorem KeyHeap.mem_toList_insert {h : KeyHeap} {key new : TimerKey} :
    key ∈ (h.insert new).toList ↔ key = new ∨ key ∈ h.toList := by
  simp [insert, mem_toList_merge, toList]

/-- No key of a subtree is earlier than its root. -/
def KeyHeap.Ordered : KeyHeap → Prop
  | nil => True
  | node root l r => (∀ key, key ∈ l.toList ∨ key ∈ r.toList → root.le key) ∧ l.Ordered ∧ r.Ordered

theorem KeyHeap.Ordered.root_le {root : TimerKey} {l r : KeyHeap} (h : (node root l r).Ordered)
    {key : TimerKey} (hk : key ∈ (node root l r).toList) : root.le key = true := by
  rcases List.mem_cons.1 hk with rfl | hk
  · exact key.le_refl
  · exact h.1 key (List.mem_append.1 hk)

theorem KeyHeap.Ordered.merge {g h : KeyHeap} (hg : g.Ordered) (hh : h.Ordered) :
    (merge g h).Ordered := by
  fun_induction KeyHeap.merge g h with
  | case1 h => exact hh
  | case2 g => exact hg
  | case3 a l r b l' r' hab ih =>
    obtain ⟨hroot, hl, hr⟩ := hg
    refine ⟨fun key hk => ?_, ih hr hh, hl⟩
    rw [mem_toList_merge] at hk
    rcases hk with (hk | hk) | hk
    · exact hroot key (.inr hk)
    · exact TimerKey.le_trans hab (hh.root_le hk)
    · exact hroot key (.inl hk)
  | case4 a l r b l' r' hab ih =>
    have hba : b.le a = true := by
      have := TimerKey.le_total a b
      simpa [hab] using this
    obtain ⟨hroot, hl', hr'⟩ := hh
    refine ⟨fun key hk => ?_, ih hr' hg, hl'⟩
    rw [mem_toList_merge] at hk
    rcases hk with (hk | hk) | hk
    · exact hroot key (.inr hk)
    · exact TimerKey.le_trans hba (hg.root_le hk)
    · exact hroot key (.inl hk)

theorem KeyHeap.Ordered.insert {h : KeyHeap} (hh : h.Ordered) (new : TimerKey) :
    (h.insert new).Ordered :=
  .merge ⟨by simp [toList], trivial, trivial⟩ hh

namespace TimerQueue

variable {α : Type}

/-- Every live timer has its key in the heap, and the heap is in order. -/
structure Complete (q : TimerQueue α) : Prop where
  keyed : ∀ (id : Nat) (timer : LiveTimer α), q.live[id]? = some timer →
    timer.key id ∈ q.keys.toList
  ordered : q.keys.Ordered

theorem complete_empty : (empty : TimerQueue α).Complete where
  keyed id timer h := by simp [empty] at h
  ordered := trivial

theorem complete_erase {q : TimerQueue α} (h : q.Complete) (id : Nat) :
    (⟨q.keys, q.live.erase id⟩ : TimerQueue α).Complete := by
  refine ⟨fun id' timer ht => ?_, h.ordered⟩
  rw [Std.TreeMap.getElem?_erase] at ht
  split at ht
  · simp at ht
  · exact h.keyed id' timer ht

theorem complete_remove {q : TimerQueue α} (h : q.Complete) (id : Nat) :
    (q.remove id).2.Complete := by
  unfold remove
  split
  · exact h
  · exact complete_erase h id

theorem getElem?_erase_live (live : Std.TreeMap Nat (LiveTimer α)) (id id' : Nat) :
    (live.erase id)[id']? = if id' = id then none else live[id']? := by
  rw [Std.TreeMap.getElem?_erase]
  by_cases h : id' = id
  · simp [h]
  · have hne : compare id id' ≠ .eq := fun he => h (Nat.compare_eq_eq.1 he).symm
    simp [h, hne]

theorem live_remove {q : TimerQueue α} (id id' : Nat) :
    (q.remove id).2.live[id']? = if id' = id then none else q.live[id']? := by
  unfold remove
  split
  · next h =>
    split
    · next he => rw [he, h]
    · rfl
  · exact getElem?_erase_live ..

theorem fst_remove {q : TimerQueue α} (id : Nat) :
    (q.remove id).1 = (q.live[id]?).map (·.content) := by
  unfold remove
  split
  · next h => rw [h]; rfl
  · next h => rw [h]; rfl

theorem add?_eq_some {q : TimerQueue α} {id : Nat} (deadline tie : Nat) (content : α)
    (h : q.live[id]? = none) :
    q.add? id deadline tie content =
      some ⟨q.keys.insert ⟨deadline, tie, id⟩, q.live.insert id ⟨deadline, tie, content⟩⟩ := by
  have hc : q.contains id = false := by
    rw [contains, Std.TreeMap.contains_eq_isSome_getElem?, h]
    rfl
  simp [add?, hc]

theorem complete_insert {q : TimerQueue α} (h : q.Complete) (id deadline tie : Nat) (content : α) :
    (⟨q.keys.insert ⟨deadline, tie, id⟩, q.live.insert id ⟨deadline, tie, content⟩⟩ :
      TimerQueue α).Complete := by
  refine ⟨fun id' timer ht => ?_, h.ordered.insert _⟩
  rw [KeyHeap.mem_toList_insert]
  rw [Std.TreeMap.getElem?_insert] at ht
  split at ht
  · next he =>
    obtain rfl : id = id' := Std.compare_eq_iff_eq.1 he
    obtain rfl := Option.some.inj ht
    exact .inl rfl
  · exact .inr (h.keyed id' timer ht)

theorem timerOf?_eq_some {live : Std.TreeMap Nat (LiveTimer α)} {key : TimerKey}
    {timer : LiveTimer α} :
    timerOf? live key = some timer ↔ live[key.id]? = some timer ∧ timer.key key.id = key := by
  unfold timerOf?
  split
  · next h => simp [h]
  · next t h =>
    rw [h]
    split
    · next hk =>
      constructor
      · intro ht
        obtain rfl := Option.some.inj ht
        exact ⟨rfl, hk⟩
      · intro ht
        exact ht.1
    · next hk =>
      simp only [reduceCtorEq, false_iff, not_and]
      intro ht
      obtain rfl := Option.some.inj ht
      exact hk

/-- No key that leads to a live timer goes with the stale ones. -/
theorem mem_toList_dropStale {live : Std.TreeMap Nat (LiveTimer α)} {h : KeyHeap} {key : TimerKey}
    (hk : key ∈ h.toList) (ht : (timerOf? live key).isSome) :
    key ∈ (dropStale live h).toList := by
  fun_induction dropStale live h with
  | case1 => exact hk
  | case2 root l r hroot => exact hk
  | case3 root l r hroot ih =>
    refine ih ?_
    rw [KeyHeap.mem_toList_merge]
    simp only [KeyHeap.toList, List.mem_cons, List.mem_append] at hk
    rcases hk with rfl | hk
    · exact absurd ht hroot
    · exact hk

theorem timerOf?_dropStale {live : Std.TreeMap Nat (LiveTimer α)} {h l r : KeyHeap}
    {key : TimerKey} (hd : dropStale live h = .node key l r) : (timerOf? live key).isSome := by
  fun_induction dropStale live h with
  | case1 => simp at hd
  | case2 root l' r' hroot =>
    simp only [KeyHeap.node.injEq] at hd
    rw [← hd.1]
    exact hroot
  | case3 root l' r' hroot ih => exact ih hd

theorem ordered_dropStale (live : Std.TreeMap Nat (LiveTimer α)) {h : KeyHeap} (hh : h.Ordered) :
    (dropStale live h).Ordered := by
  fun_induction dropStale live h with
  | case1 => exact hh
  | case2 root l r hroot => exact hh
  | case3 root l r hroot ih => exact ih (hh.2.1.merge hh.2.2)

theorem live_eq_none_of_peek? {q : TimerQueue α} (hq : q.Complete) (h : q.peek? = none) (id : Nat) :
    q.live[id]? = none := by
  by_contra hne
  obtain ⟨timer, ht⟩ := Option.ne_none_iff_exists'.1 hne
  have hmem := mem_toList_dropStale (hq.keyed id timer ht)
    (Option.isSome_iff_exists.2 ⟨timer, timerOf?_eq_some.2 ⟨ht, rfl⟩⟩)
  unfold peek? at h
  split at h
  · next hd =>
    rw [hd] at hmem
    simp [KeyHeap.toList] at hmem
  · simp at h

theorem exists_live_of_peek? {q : TimerQueue α} {time : Nat} (h : q.peek? = some time) :
    ∃ (id : Nat) (timer : LiveTimer α), q.live[id]? = some timer ∧ timer.deadline = time := by
  unfold peek? at h
  split at h
  · simp at h
  · next key l r hd =>
    obtain ⟨timer, ht⟩ := Option.isSome_iff_exists.1 (timerOf?_dropStale hd)
    obtain ⟨hlive, hkey⟩ := timerOf?_eq_some.1 ht
    refine ⟨key.id, timer, hlive, ?_⟩
    rw [← Option.some.inj h, ← hkey]
    rfl

/-- No live timer is due before the earliest deadline. -/
theorem le_deadline_of_peek? {q : TimerQueue α} (hq : q.Complete) {time : Nat}
    (h : q.peek? = some time) {id : Nat} {timer : LiveTimer α} (ht : q.live[id]? = some timer) :
    time ≤ timer.deadline := by
  have hmem := mem_toList_dropStale (hq.keyed id timer ht)
    (Option.isSome_iff_exists.2 ⟨timer, timerOf?_eq_some.2 ⟨ht, rfl⟩⟩)
  have hordered := ordered_dropStale q.live hq.ordered
  unfold peek? at h
  split at h
  · simp at h
  · next key l r hd =>
    rw [hd] at hmem hordered
    rw [← Option.some.inj h]
    exact TimerKey.deadline_le (hordered.root_le hmem)

/-- A pop takes the timer at the top of the heap once the stale keys are dropped. -/
theorem popFrom_eq {live : Std.TreeMap Nat (LiveTimer α)} {h : KeyHeap} :
    popFrom live h =
      match dropStale live h with
      | .nil => none
      | .node key l r =>
        (timerOf? live key).map fun timer =>
          ((key, timer.content), ⟨l.merge r, live.erase key.id⟩) := by
  fun_induction popFrom live h with
  | case1 => simp [dropStale]
  | case2 key l r timer ht => simp [dropStale, ht]
  | case3 key l r ht ih => simp [dropStale, ht, ih]

structure Popped (q : TimerQueue α) (key : TimerKey) (content : α) (r : TimerQueue α) : Prop where
  live : q.live[key.id]? = some ⟨key.deadline, key.tie, content⟩
  rest : r.live = q.live.erase key.id
  complete : q.Complete → r.Complete
  peek : q.peek? = some key.deadline

theorem popped_of_pop? {q r : TimerQueue α} {key : TimerKey} {content : α}
    (h : q.pop? = some ((key, content), r)) : Popped q key content r := by
  unfold pop? at h
  rw [popFrom_eq] at h
  split at h
  · simp at h
  · next top l' r' hd =>
    obtain ⟨timer, ht, he⟩ := Option.map_eq_some_iff.1 h
    obtain ⟨hlive, hkey⟩ := timerOf?_eq_some.1 ht
    simp only [Prod.mk.injEq] at he
    obtain ⟨⟨rfl, rfl⟩, rfl⟩ := he
    refine ⟨?_, rfl, fun hq => ?_, ?_⟩
    · rw [hlive, ← hkey]
      rfl
    · have hordered := ordered_dropStale q.live hq.ordered
      rw [hd] at hordered
      refine ⟨fun id timer' ht' => ?_, hordered.2.1.merge hordered.2.2⟩
      rw [Std.TreeMap.getElem?_erase] at ht'
      split at ht'
      · simp at ht'
      · next hne =>
        have hmem := mem_toList_dropStale (hq.keyed id timer' ht')
          (Option.isSome_iff_exists.2 ⟨timer', timerOf?_eq_some.2 ⟨ht', rfl⟩⟩)
        rw [hd] at hmem
        simp only [KeyHeap.toList, List.mem_cons, List.mem_append] at hmem
        rw [KeyHeap.mem_toList_merge]
        refine hmem.resolve_left fun he => ?_
        rw [← he] at hne
        exact hne (Std.compare_eq_iff_eq.2 rfl)
    · rw [peek?, hd]

theorem exists_pop?_of_peek? {q : TimerQueue α} {time : Nat} (h : q.peek? = some time) :
    ∃ x, q.pop? = some x := by
  unfold pop?
  rw [popFrom_eq]
  unfold peek? at h
  cases hd : dropStale q.live q.keys with
  | nil =>
    rw [hd] at h
    cases h
  | node key l r =>
    obtain ⟨timer, ht⟩ := Option.isSome_iff_exists.1 (timerOf?_dropStale hd)
    simp only [ht, Option.map_some]
    exact ⟨_, rfl⟩

end TimerQueue

namespace Clock

variable {α : Type}

/-- What it means for a queue to have handed out the timers `due` at one deadline. -/
structure TakenDue (time : Nat) (q : TimerQueue α) (due : List (Nat × α)) (left : TimerQueue α) :
    Prop where
  mem : ∀ (id : Nat) (content : α), (id, content) ∈ due →
    ∃ tie, q.live[id]? = some ⟨time, tie, content⟩ ∧ left.live[id]? = none
  kept : ∀ id : Nat, left.live[id]? = q.live[id]? ∨
    left.live[id]? = none ∧ ∃ timer, q.live[id]? = some timer ∧ (id, timer.content) ∈ due
  size : left.live.size + due.length = q.live.size
  complete : q.Complete → left.Complete

theorem takenDue_nil (time : Nat) (q : TimerQueue α) : TakenDue time q [] q :=
  ⟨by simp, fun _ => .inl rfl, rfl, id⟩

theorem takenDue_cons {time : Nat} {q r left : TimerQueue α} {key : TimerKey} {content : α}
    {due : List (Nat × α)} (hp : TimerQueue.Popped q key content r)
    (hpeek : q.peek? = some time) (h : TakenDue time r due left) :
    TakenDue time q ((key.id, content) :: due) left := by
  have hdeadline : key.deadline = time := Option.some.inj (hp.peek.symm.trans hpeek)
  have hlive : ∀ id : Nat, r.live[id]? = if id = key.id then none else q.live[id]? := by
    intro id
    rw [hp.rest]
    exact TimerQueue.getElem?_erase_live ..
  have hgone : left.live[key.id]? = none := by
    have hr : r.live[key.id]? = none := by simp [hlive]
    rcases h.kept key.id with hk | hk
    · exact hk.trans hr
    · exact hk.1
  refine ⟨?_, fun id => ?_, ?_, fun hq => h.complete (hp.complete hq)⟩
  · intro id c hmem
    rcases List.mem_cons.1 hmem with he | hmem
    · simp only [Prod.mk.injEq] at he
      obtain ⟨rfl, rfl⟩ := he
      exact ⟨key.tie, hdeadline ▸ hp.live, hgone⟩
    · obtain ⟨tie, ht, hl⟩ := h.mem id c hmem
      refine ⟨tie, ?_, hl⟩
      rw [hlive] at ht
      split at ht
      · simp at ht
      · exact ht
  · by_cases hid : id = key.id
    · subst hid
      exact .inr ⟨hgone, _, hp.live, List.mem_cons_self⟩
    · have hr : r.live[id]? = q.live[id]? := by simp [hlive, hid]
      rcases h.kept id with hk | ⟨hk, timer, ht, hmem⟩
      · exact .inl (hk.trans hr)
      · exact .inr ⟨hk, timer, hr ▸ ht, List.mem_cons_of_mem _ hmem⟩
  · have hmem : key.id ∈ q.live := by
      rw [Std.TreeMap.mem_iff_isSome_getElem?, hp.live]
      rfl
    have hpos : 0 < q.live.size := by
      by_contra hz
      have hempty : q.live.isEmpty = true := by
        rw [Std.TreeMap.isEmpty_eq_size_eq_zero]
        simpa using hz
      exact absurd hmem (Std.TreeMap.not_mem_of_isEmpty hempty)
    have hr : r.live.size = q.live.size - 1 := by
      rw [hp.rest, Std.TreeMap.size_erase, if_pos (Std.TreeMap.contains_iff_mem.2 hmem)]
    have := h.size
    simp only [List.length_cons]
    omega

theorem takenDue_takeDue (time : Nat) (q : TimerQueue α) :
    TakenDue time q (takeDue time q).1 (takeDue time q).2 := by
  fun_induction takeDue time q with
  | case1 q hpeek hp => exact takenDue_nil time q
  | case2 q hpeek key content rest hp _ due left heq ih =>
    rw [heq] at ih
    exact takenDue_cons (TimerQueue.popped_of_pop? hp) hpeek ih
  | case3 q hpeek => exact takenDue_nil time q

theorem takeDue_ne_nil {time : Nat} {q : TimerQueue α} (h : q.peek? = some time) :
    (takeDue time q).1 ≠ [] := by
  obtain ⟨⟨⟨key, content⟩, rest⟩, hp⟩ := TimerQueue.exists_pop?_of_peek? h
  unfold takeDue
  rw [if_pos h]
  split
  · next hn => rw [hp] at hn; simp at hn
  · simp

end Clock

end RacePuzzle
