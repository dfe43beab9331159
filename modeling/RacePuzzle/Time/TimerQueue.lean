import Std.Data.TreeMap

/-! A queue of timers that hands out the earliest one. A heap cannot give up an entry from its
middle, so the removal of a timer only takes it off the table of live ones; its key stays behind
in the heap and is passed over when it comes to the top. -/
namespace RacePuzzle

structure TimerKey where
  deadline : Nat
  /-- Orders the timers of one deadline. -/
  tie : Nat
  id : Nat
  deriving DecidableEq, Repr

namespace TimerKey

def le (a b : TimerKey) : Bool :=
  if a.deadline = b.deadline then
    if a.tie = b.tie then a.id ≤ b.id else a.tie ≤ b.tie
  else a.deadline ≤ b.deadline

theorem le_refl (a : TimerKey) : a.le a = true := by
  simp [le]

theorem le_total (a b : TimerKey) : (a.le b || b.le a) = true := by
  simp only [le]
  grind

theorem le_trans {a b c : TimerKey} (hab : a.le b) (hbc : b.le c) : a.le c := by
  simp only [le] at *
  grind

theorem le_antisymm {a b : TimerKey} (hab : a.le b) (hba : b.le a) : a = b := by
  cases a
  cases b
  simp only [le] at *
  grind

end TimerKey

/-- A heap of keys; no key of a subtree is earlier than its root. -/
inductive KeyHeap
  | nil
  | node (root : TimerKey) (left right : KeyHeap)

namespace KeyHeap

def size : KeyHeap → Nat
  | nil => 0
  | node _ l r => l.size + r.size + 1

/-- The two subtrees change sides at each step, which keeps the right spines short. -/
def merge : KeyHeap → KeyHeap → KeyHeap
  | nil, h => h
  | h, nil => h
  | node a l r, node b l' r' =>
    if a.le b then node a (merge r (node b l' r')) l
    else node b (merge r' (node a l r)) l'
termination_by g h => g.size + h.size
decreasing_by
  · simp only [size]; omega
  · simp only [size]; omega

def insert (key : TimerKey) (h : KeyHeap) : KeyHeap :=
  merge (node key nil nil) h

def toList : KeyHeap → List TimerKey
  | nil => []
  | node a l r => a :: (l.toList ++ r.toList)

theorem size_merge (g h : KeyHeap) : (merge g h).size = g.size + h.size := by
  fun_induction merge g h with
  | case1 h => simp [size]
  | case2 g => simp [size]
  | case3 a l r b l' r' _ ih => simp only [size] at *; omega
  | case4 a l r b l' r' _ ih => simp only [size] at *; omega

end KeyHeap

structure LiveTimer (α : Type) where
  deadline : Nat
  tie : Nat
  content : α

def LiveTimer.key {α : Type} (timer : LiveTimer α) (id : Nat) : TimerKey :=
  ⟨timer.deadline, timer.tie, id⟩

structure TimerQueue (α : Type) where
  keys : KeyHeap
  live : Std.TreeMap Nat (LiveTimer α)

namespace TimerQueue

variable {α : Type}

def empty : TimerQueue α := ⟨.nil, ∅⟩

instance : Inhabited (TimerQueue α) := ⟨empty⟩

def contains (q : TimerQueue α) (id : Nat) : Bool := q.live.contains id

def size (q : TimerQueue α) : Nat := q.live.size

def isEmpty (q : TimerQueue α) : Bool := q.live.isEmpty

/-- Fails if a live timer has the id. -/
def add? (q : TimerQueue α) (id deadline tie : Nat) (content : α) : Option (TimerQueue α) :=
  if q.contains id then none
  else some ⟨q.keys.insert ⟨deadline, tie, id⟩, q.live.insert id ⟨deadline, tie, content⟩⟩

/-- The content of the removed timer, if the id was live. -/
def remove (q : TimerQueue α) (id : Nat) : Option α × TimerQueue α :=
  match q.live[id]? with
  | none => (none, q)
  | some timer => (some timer.content, ⟨q.keys, q.live.erase id⟩)

/-- The live timer that a key of the heap stands for. A key whose timer was removed stands for
none, unless a later timer has the same id, deadline and tie. -/
def timerOf? (live : Std.TreeMap Nat (LiveTimer α)) (key : TimerKey) : Option (LiveTimer α) :=
  match live[key.id]? with
  | none => none
  | some timer => if timer.key key.id = key then some timer else none

/-- Drops the keys of removed timers from the top of the heap. -/
def dropStale (live : Std.TreeMap Nat (LiveTimer α)) : KeyHeap → KeyHeap
  | .nil => .nil
  | .node key l r =>
    if (timerOf? live key).isSome then .node key l r
    else dropStale live (l.merge r)
termination_by h => h.size
decreasing_by simp only [KeyHeap.size_merge, KeyHeap.size]; omega

def peek? (q : TimerQueue α) : Option Nat :=
  match dropStale q.live q.keys with
  | .nil => none
  | .node key _ _ => some key.deadline

/-- Takes the first live timer that the keys lead to. -/
def popFrom (live : Std.TreeMap Nat (LiveTimer α)) :
    KeyHeap → Option ((TimerKey × α) × TimerQueue α)
  | .nil => none
  | .node key l r =>
    match timerOf? live key with
    | some timer => some ((key, timer.content), ⟨l.merge r, live.erase key.id⟩)
    | none => popFrom live (l.merge r)
termination_by h => h.size
decreasing_by simp only [KeyHeap.size_merge, KeyHeap.size]; omega

def pop? (q : TimerQueue α) : Option ((TimerKey × α) × TimerQueue α) :=
  popFrom q.live q.keys

theorem size_popFrom_lt {live : Std.TreeMap Nat (LiveTimer α)} {h : KeyHeap}
    {timer : TimerKey × α} {q : TimerQueue α} (hp : popFrom live h = some (timer, q)) :
    q.keys.size < h.size := by
  fun_induction popFrom live h with
  | case1 => simp at hp
  | case2 key l r _ _ =>
    simp only [Option.some.injEq, Prod.mk.injEq] at hp
    rw [← hp.2]
    simp only [KeyHeap.size_merge, KeyHeap.size]
    omega
  | case3 key l r _ ih =>
    have := ih hp
    simp only [KeyHeap.size_merge, KeyHeap.size] at *
    omega

/-- Every pop takes a key off the heap. -/
theorem size_pop?_lt {q r : TimerQueue α} {timer : TimerKey × α}
    (hp : q.pop? = some (timer, r)) : r.keys.size < q.keys.size :=
  size_popFrom_lt hp

end TimerQueue

end RacePuzzle
