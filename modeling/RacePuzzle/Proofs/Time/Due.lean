import RacePuzzle.Proofs.Time.TimerQueue

/-! The timers that are due. A queue hands out all timers of its earliest deadline; where each carries
its own number as its tie, it hands them out in the order of their numbers. -/
namespace RacePuzzle

variable {α : Type} {q r : TimerQueue α} {time : Nat} {key : TimerKey} {content : α}

namespace TimerQueue

theorem le_key_of_pop? (hq : q.Complete) (h : q.pop? = some ((key, content), r)) {id : Nat}
    {timer : LiveTimer α} (ht : q.live[id]? = some timer) : key.le (timer.key id) = true := by
  have hmem := mem_toList_dropStale (hq.keyed id timer ht)
    (Option.isSome_iff_exists.2 ⟨timer, timerOf?_eq_some.2 ⟨ht, rfl⟩⟩)
  have hordered := ordered_dropStale q.live hq.ordered
  unfold pop? at h
  rw [popFrom_eq] at h
  split at h
  · cases h
  · next top l r' hd =>
    obtain ⟨timer', -, he⟩ := Option.map_eq_some_iff.1 h
    obtain ⟨⟨rfl, -⟩, -⟩ := by simpa only [Prod.mk.injEq] using he
    rw [hd] at hmem hordered
    exact hordered.root_le hmem

def Numbered (q : TimerQueue α) : Prop :=
  ∀ {id : Nat} {timer : LiveTimer α}, q.live[id]? = some timer → timer.tie = id

theorem Popped.live_of_rest (h : Popped q key content r) {id : Nat} {timer : LiveTimer α}
    (ht : r.live[id]? = some timer) : id ≠ key.id ∧ q.live[id]? = some timer := by
  rw [h.rest, getElem?_erase_live] at ht
  split at ht
  · cases ht
  · next hne => exact ⟨hne, ht⟩

theorem Popped.numbered (h : Popped q key content r) (hq : q.Numbered) : r.Numbered :=
  fun ht => hq (h.live_of_rest ht).2

end TimerQueue

namespace Clock

/-- The timers that are due come in the order of their numbers. -/
theorem pairwise_takeDue (time : Nat) (hq : q.Complete) (hn : q.Numbered) :
    (takeDue time q).1.Pairwise (·.1 < ·.1) := by
  fun_induction takeDue time q with
  | case1 q hpeek hp => exact .nil
  | case2 q hpeek key content rest hp _ due left heq ih =>
    have hpopped := TimerQueue.popped_of_pop? hp
    have ih := ih (hpopped.complete hq) (hpopped.numbered hn)
    have htaken := takenDue_takeDue time rest
    rw [heq] at ih htaken
    refine List.pairwise_cons.2 ⟨fun p hmem => ?_, ih⟩
    obtain ⟨tie, hlive, -⟩ := htaken.mem p.1 p.2 hmem
    obtain ⟨hne, hlive⟩ := hpopped.live_of_rest hlive
    have hle := TimerQueue.le_key_of_pop? hq hp hlive
    have hdeadline : key.deadline = time := Option.some.inj (hpopped.peek.symm.trans hpeek)
    have htie := hn hpopped.live
    have htie' := hn hlive
    simp only [TimerKey.le, LiveTimer.key, hdeadline] at hle htie htie'
    dsimp only
    grind
  | case3 q hpeek => exact .nil

/-- All timers of the earliest deadline are due. -/
theorem mem_takeDue (hq : q.Complete)
    (hle : ∀ {id : Nat} {timer : LiveTimer α}, q.live[id]? = some timer → time ≤ timer.deadline)
    {id : Nat} {timer : LiveTimer α} (ht : q.live[id]? = some timer) (hdue : timer.deadline = time) :
    (id, timer.content) ∈ (takeDue time q).1 := by
  fun_induction takeDue time q with
  | case1 q hpeek hp =>
    obtain ⟨x, hx⟩ := TimerQueue.exists_pop?_of_peek? hpeek
    cases hp.symm.trans hx
  | case2 q hpeek key content rest hp _ due left heq ih =>
    have hpopped := TimerQueue.popped_of_pop? hp
    by_cases hid : id = key.id
    · subst hid
      rw [hpopped.live] at ht
      obtain rfl := Option.some.inj ht
      exact .head _
    · have hrest : rest.live[id]? = some timer := by
        rw [hpopped.rest, TimerQueue.getElem?_erase_live, if_neg hid]
        exact ht
      have hmem := ih (hpopped.complete hq) (fun ht => hle (hpopped.live_of_rest ht).2) hrest
      rw [heq] at hmem
      exact .tail _ hmem
  | case3 q hpeek =>
    refine absurd ?_ hpeek
    cases hnext : q.peek? with
    | none => cases (TimerQueue.live_eq_none_of_peek? hq hnext id).symm.trans ht
    | some first =>
      obtain ⟨_, timer', ht', rfl⟩ := TimerQueue.exists_live_of_peek? hnext
      have hfirst := TimerQueue.le_deadline_of_peek? hq hnext ht
      have := hle ht'
      rw [show timer'.deadline = time by omega]

theorem live_takeDue (hq : q.Complete)
    (hle : ∀ {id : Nat} {timer : LiveTimer α}, q.live[id]? = some timer → time ≤ timer.deadline)
    (id : Nat) : (takeDue time q).2.live[id]? = (q.live[id]?).filter (·.deadline != time) := by
  have htaken := takenDue_takeDue time q
  cases ht : q.live[id]? with
  | none =>
    rcases htaken.kept id with hkept | ⟨hgone, -⟩
    · exact hkept.trans ht
    · exact hgone
  | some timer =>
    by_cases hdue : timer.deadline = time
    · obtain ⟨_, -, hgone⟩ := htaken.mem id timer.content (mem_takeDue hq hle ht hdue)
      rw [hgone, Option.filter_some_neg (by simp [hdue])]
    · rw [Option.filter_some_pos (by simp [hdue])]
      rcases htaken.kept id with hkept | ⟨-, _, -, hmem⟩
      · exact hkept.trans ht
      · obtain ⟨_, hlive, -⟩ := htaken.mem _ _ hmem
        obtain rfl := Option.some.inj (ht.symm.trans hlive)
        exact absurd rfl hdue

end Clock

end RacePuzzle
