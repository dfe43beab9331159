/-! Deterministic random numbers from a 64-bit seed. -/
namespace RacePuzzle

/-- The state moves on by a constant; each number is a scrambled state. -/
structure SplitMix where
  state : UInt64
  deriving DecidableEq, Repr

namespace SplitMix

def increment : UInt64 := 0x9e3779b97f4a7c15

def scramble (z : UInt64) : UInt64 :=
  let z := (z ^^^ (z >>> 30)) * 0xbf58476d1ce4e5b9
  let z := (z ^^^ (z >>> 27)) * 0x94d049bb133111eb
  z ^^^ (z >>> 31)

def next (g : SplitMix) : UInt64 × SplitMix :=
  let state := g.state + increment
  (scramble state, ⟨state⟩)

/-- A number below `n`: the share of `n` that a random word is of all words. Below 0 there is
none; then the answer is 0 and nothing is drawn. -/
def below (n : Nat) (g : SplitMix) : Nat × SplitMix :=
  if n = 0 then (0, g)
  else
    let (word, g) := g.next
    (word.toNat * n / UInt64.size, g)

/-- A number from `lo` up to but not including `hi`. -/
def range (lo hi : Nat) (g : SplitMix) : Nat × SplitMix :=
  let (offset, g) := g.below (hi - lo)
  (lo + offset, g)

/-- One of the items. Of none, none is picked and nothing is drawn. -/
def pick {α : Type} (items : List α) (g : SplitMix) : Option α × SplitMix :=
  let (i, g) := g.below items.length
  (items[i]?, g)

theorem mem_of_pick {α : Type} {items : List α} {g g' : SplitMix} {a : α}
    (h : g.pick items = (some a, g')) : a ∈ items := by
  simp only [pick, Prod.mk.injEq] at h
  exact List.mem_of_getElem? h.1

theorem below_lt {n : Nat} (hn : 0 < n) (g : SplitMix) : (g.below n).1 < n := by
  have hword := g.next.1.toNat_lt
  simp only [below, Nat.ne_of_gt hn, if_false]
  rw [Nat.div_lt_iff_lt_mul (by decide), Nat.mul_comm]
  exact Nat.mul_lt_mul_of_pos_left hword hn

end SplitMix

end RacePuzzle
