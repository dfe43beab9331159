import RacePuzzle.Proofs.Time.TimerQueue

/-! The queue against a plain one, which is no more than a finite map from the ids to the timers
and looks through all of them for the earliest. Whatever keys of removed timers the heap still
holds, no caller can tell the two apart. -/
namespace RacePuzzle

inductive QueueCall (α : Type)
  | add (id deadline tie : Nat) (content : α)
  | remove (id : Nat)
  | contains (id : Nat)
  /-- A thorough one drops the stale keys on top of the heap for good. -/
  | peek (thorough : Bool)
  | pop
  | size
  | isEmpty

inductive QueueAnswer (α : Type)
  | added (accepted : Bool)
  | removed (content : Option α)
  | contained (live : Bool)
  | earliest (deadline : Option Nat)
  | popped (timer : Option (TimerKey × α))
  | size (timers : Nat)
  | isEmpty (yes : Bool)
  deriving DecidableEq, Repr

namespace TimerQueue

variable {α : Type}

def clean (q : TimerQueue α) : TimerQueue α := { q with keys := dropStale q.live q.keys }

def answer (q : TimerQueue α) : QueueCall α → QueueAnswer α × TimerQueue α
  | .add id deadline tie content =>
    match q.add? id deadline tie content with
    | none => (.added false, q)
    | some r => (.added true, r)
  | .remove id => (.removed (q.remove id).1, (q.remove id).2)
  | .contains id => (.contained (q.contains id), q)
  | .peek thorough => (.earliest q.peek?, if thorough then q.clean else q)
  | .pop =>
    match q.pop? with
    | none => (.popped none, q.clean)
    | some (timer, r) => (.popped (some timer), r)
  | .size => (.size q.size, q)
  | .isEmpty => (.isEmpty q.isEmpty, q)

def answers (q : TimerQueue α) : List (QueueCall α) → List (QueueAnswer α)
  | [] => []
  | call :: rest => (q.answer call).1 :: (q.answer call).2.answers rest

end TimerQueue

/-- A finite map from ids to timers. -/
structure PlainQueue (α : Type) where
  timers : Std.TreeMap Nat (LiveTimer α)

namespace PlainQueue

variable {α : Type}

def empty : PlainQueue α := ⟨∅⟩

def keys (p : PlainQueue α) : List TimerKey :=
  p.timers.toList.map fun (id, timer) => timer.key id

def earliest? (p : PlainQueue α) : Option TimerKey :=
  p.keys.find? fun key => p.keys.all key.le

def pop? (p : PlainQueue α) : Option ((TimerKey × α) × PlainQueue α) := do
  let key ← p.earliest?
  let timer ← p.timers[key.id]?
  return ((key, timer.content), ⟨p.timers.erase key.id⟩)

def answer (p : PlainQueue α) : QueueCall α → QueueAnswer α × PlainQueue α
  | .add id deadline tie content =>
    if p.timers.contains id then (.added false, p)
    else (.added true, ⟨p.timers.insert id ⟨deadline, tie, content⟩⟩)
  | .remove id => (.removed (p.timers[id]?.map (·.content)), ⟨p.timers.erase id⟩)
  | .contains id => (.contained (p.timers.contains id), p)
  | .peek _ => (.earliest (p.earliest?.map (·.deadline)), p)
  | .pop =>
    match p.pop? with
    | none => (.popped none, p)
    | some (timer, r) => (.popped (some timer), r)
  | .size => (.size p.timers.size, p)
  | .isEmpty => (.isEmpty p.timers.isEmpty, p)

def answers (p : PlainQueue α) : List (QueueCall α) → List (QueueAnswer α)
  | [] => []
  | call :: rest => (p.answer call).1 :: (p.answer call).2.answers rest

theorem mem_keys {p : PlainQueue α} {key : TimerKey} :
    key ∈ p.keys ↔ ∃ timer, p.timers[key.id]? = some timer ∧ timer.key key.id = key := by
  simp only [keys, List.mem_map, Prod.exists, Std.TreeMap.mem_toList_iff_getElem?_eq_some]
  constructor
  · rintro ⟨id, timer, ht, rfl⟩
    exact ⟨timer, ht, rfl⟩
  · rintro ⟨timer, ht, hk⟩
    exact ⟨key.id, timer, ht, hk⟩

/-- There is one earliest key at most, so the search finds the one that is known. -/
theorem earliest?_eq_some {p : PlainQueue α} {key : TimerKey} (hk : key ∈ p.keys)
    (hle : ∀ other ∈ p.keys, key.le other) : p.earliest? = some key := by
  have hall : p.keys.all key.le = true := List.all_eq_true.2 hle
  cases hf : p.earliest? with
  | none => exact absurd hall (List.find?_eq_none.1 hf key hk)
  | some first =>
    have hfirst : p.keys.all first.le = true := by
      simpa using List.find?_some hf
    have hmem : first ∈ p.keys := List.mem_of_find?_eq_some hf
    rw [TimerKey.le_antisymm (List.all_eq_true.1 hfirst key hk) (hle first hmem)]

end PlainQueue

namespace TimerQueue

variable {α : Type}

/-- The queue is in order and its live timers are those of the plain one. -/
structure Shows (q : TimerQueue α) (p : PlainQueue α) : Prop where
  complete : q.Complete
  live : q.live.Equiv p.timers

/-- No key that leads to a live timer is dropped, so the heap still has every key of the plain
queue. -/
theorem Shows.mem_dropStale {q : TimerQueue α} {p : PlainQueue α} (h : q.Shows p) {key : TimerKey}
    (hk : key ∈ p.keys) : key ∈ (dropStale q.live q.keys).toList := by
  obtain ⟨timer, ht, hkey⟩ := PlainQueue.mem_keys.1 hk
  rw [← h.live.getElem?_eq] at ht
  have hmem := h.complete.keyed key.id timer ht
  rw [hkey] at hmem
  exact mem_toList_dropStale hmem
    (Option.isSome_iff_exists.2 ⟨timer, timerOf?_eq_some.2 ⟨ht, hkey⟩⟩)

/-- What is on top of the heap once the stale keys are dropped is what the plain queue finds. -/
theorem Shows.earliest? {q : TimerQueue α} {p : PlainQueue α} (h : q.Shows p) :
    p.earliest? =
      match dropStale q.live q.keys with
      | .nil => none
      | .node key _ _ => some key := by
  have hordered := ordered_dropStale q.live h.complete.ordered
  have hmem : ∀ key ∈ p.keys, key ∈ (dropStale q.live q.keys).toList := fun _ => h.mem_dropStale
  split
  · next hd =>
    have hkeys : p.keys = [] :=
      List.eq_nil_iff_forall_not_mem.2 fun key hk => by simpa [hd, KeyHeap.toList] using hmem key hk
    simp [PlainQueue.earliest?, hkeys]
  · next key l r hd =>
    rw [hd] at hordered hmem
    obtain ⟨timer, ht⟩ := Option.isSome_iff_exists.1 (timerOf?_dropStale hd)
    rw [timerOf?_eq_some, h.live.getElem?_eq] at ht
    exact PlainQueue.earliest?_eq_some (PlainQueue.mem_keys.2 ⟨timer, ht⟩)
      fun other ho => hordered.root_le (hmem other ho)

theorem Shows.peek? {q : TimerQueue α} {p : PlainQueue α} (h : q.Shows p) :
    q.peek? = p.earliest?.map (·.deadline) := by
  rw [h.earliest?, TimerQueue.peek?]
  cases dropStale q.live q.keys with
  | nil => rfl
  | node key l r => rfl

theorem Shows.clean {q : TimerQueue α} {p : PlainQueue α} (h : q.Shows p) : q.clean.Shows p where
  complete :=
    { keyed := fun id timer ht => mem_toList_dropStale (h.complete.keyed id timer ht)
        (Option.isSome_iff_exists.2 ⟨timer, timerOf?_eq_some.2 ⟨ht, rfl⟩⟩)
      ordered := ordered_dropStale q.live h.complete.ordered }
  live := h.live

/-- Of one call: the answers are the same, and so are the timers that the queues hold after it. -/
structure Agree (x : QueueAnswer α × TimerQueue α) (y : QueueAnswer α × PlainQueue α) : Prop where
  answer : x.1 = y.1
  shows : x.2.Shows y.2

theorem Shows.add {q : TimerQueue α} {p : PlainQueue α} (h : q.Shows p)
    (id deadline tie : Nat) (content : α) :
    Agree (q.answer (.add id deadline tie content)) (p.answer (.add id deadline tie content)) := by
  simp only [TimerQueue.answer, PlainQueue.answer, add?, contains, h.live.contains_eq]
  cases p.timers.contains id with
  | true => exact ⟨rfl, h⟩
  | false => exact ⟨rfl, complete_insert h.complete id deadline tie content, h.live.insert ..⟩

/-- The removal leaves the key in the heap; it does not matter, since the id leads nowhere. -/
theorem Shows.remove {q : TimerQueue α} {p : PlainQueue α} (h : q.Shows p) (id : Nat) :
    Agree (q.answer (.remove id)) (p.answer (.remove id)) := by
  refine ⟨?_, complete_remove h.complete id, .of_forall_constGet?_eq fun other => ?_⟩
  · simp only [TimerQueue.answer, PlainQueue.answer, fst_remove, h.live.getElem?_eq]
  · change (q.remove id).2.live[other]? = (p.timers.erase id)[other]?
    rw [live_remove, getElem?_erase_live, h.live.getElem?_eq]

/-- Both queues look at the top of the heap without its stale keys. -/
theorem Shows.pop {q : TimerQueue α} {p : PlainQueue α} (h : q.Shows p) :
    Agree (q.answer .pop) (p.answer .pop) := by
  have hfirst := h.earliest?
  have hpop : q.pop? = _ := popFrom_eq
  cases hd : dropStale q.live q.keys with
  | nil =>
    rw [hd] at hfirst hpop
    have hplain : p.pop? = none := by simp [PlainQueue.pop?, hfirst]
    simp only [TimerQueue.answer, PlainQueue.answer, hpop, hplain]
    exact ⟨rfl, h.clean⟩
  | node key l r =>
    obtain ⟨timer, ht⟩ := Option.isSome_iff_exists.1 (timerOf?_dropStale hd)
    rw [hd] at hfirst hpop
    simp only [ht, Option.map_some] at hpop
    have hpopped := popped_of_pop? hpop
    have hlive := hpopped.live
    rw [h.live.getElem?_eq] at hlive
    have hplain : p.pop? = some ((key, timer.content), ⟨p.timers.erase key.id⟩) := by
      simp [PlainQueue.pop?, hfirst, hlive]
    simp only [TimerQueue.answer, PlainQueue.answer, hpop, hplain]
    exact ⟨rfl, hpopped.complete h.complete, h.live.erase key.id⟩

theorem Shows.answer {q : TimerQueue α} {p : PlainQueue α} (h : q.Shows p) (call : QueueCall α) :
    Agree (q.answer call) (p.answer call) := by
  cases call with
  | add id deadline tie content => exact h.add id deadline tie content
  | remove id => exact h.remove id
  | contains id =>
    exact ⟨by simp only [TimerQueue.answer, PlainQueue.answer, contains, h.live.contains_eq], h⟩
  | peek thorough =>
    refine ⟨by simp only [TimerQueue.answer, PlainQueue.answer, h.peek?], ?_⟩
    cases thorough with
    | true => exact h.clean
    | false => exact h
  | pop => exact h.pop
  | size =>
    exact ⟨by simp only [TimerQueue.answer, PlainQueue.answer, TimerQueue.size, h.live.size_eq], h⟩
  | isEmpty =>
    refine ⟨?_, h⟩
    simp only [TimerQueue.answer, PlainQueue.answer, TimerQueue.isEmpty, h.live.isEmpty_eq]

theorem Shows.answers {q : TimerQueue α} {p : PlainQueue α} (h : q.Shows p)
    (calls : List (QueueCall α)) : q.answers calls = p.answers calls := by
  induction calls generalizing q p with
  | nil => rfl
  | cons call rest ih =>
    have hc := h.answer call
    rw [TimerQueue.answers, PlainQueue.answers, hc.answer, ih hc.shows]

theorem shows_empty : (empty : TimerQueue α).Shows .empty := ⟨complete_empty, .rfl⟩

/-- Whatever is asked and in whatever order, the queue answers as the finite map does. -/
theorem answers_eq_answers_plain (calls : List (QueueCall α)) :
    (empty : TimerQueue α).answers calls = PlainQueue.empty.answers calls :=
  shows_empty.answers calls

/-- A timer that was removed and added again has two keys in the heap and is popped once. -/
example :
    (empty : TimerQueue Unit).answers
        [.add 1 5 0 (), .add 2 6 1 (), .remove 1, .peek false, .add 1 5 0 (), .pop, .pop, .pop] =
      [.added true, .added true, .removed (some ()), .earliest (some 6), .added true,
        .popped (some (⟨5, 0, 1⟩, ())), .popped (some (⟨6, 1, 2⟩, ())), .popped none] := by
  cbv

end TimerQueue

end RacePuzzle
