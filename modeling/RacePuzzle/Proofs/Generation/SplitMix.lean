import RacePuzzle.Generation.SplitMix
import Mathlib.Algebra.Order.Floor.Div
import Mathlib.Data.Set.Card
import Mathlib.Data.UInt
import Mathlib.Order.Interval.Finset.Nat

/-! How evenly random numbers are spread. Scrambling permutes the words, and the states pass all of
them before one comes again; so every word has one seed and comes once in a period, and the numbers
below `n` share the seeds out as evenly as it can be done. -/
namespace RacePuzzle.SplitMix

/-- `k` words in a row, and what gives those that follow. -/
def words : Nat → SplitMix → List UInt64 × SplitMix
  | 0, g => ([], g)
  | k + 1, g => (g.next.1 :: (words k g.next.2).1, (words k g.next.2).2)

variable {n v : Nat}

/-- The difference of two words that a step `z ^^^ (z >>> s)` takes to the same is its own shift. -/
theorem injective_xor_shiftRight {s : UInt64} (hs : s.toNat % 64 ≠ 0) :
    Function.Injective fun z : UInt64 => z ^^^ (z >>> s) := by
  intro y z (h : y ^^^ (y >>> s) = z ^^^ (z >>> s))
  have hself : (y ^^^ z) ^^^ ((y ^^^ z) >>> s) = 0 :=
    calc (y ^^^ z) ^^^ ((y ^^^ z) >>> s)
      _ = (y ^^^ (y >>> s)) ^^^ (z ^^^ (z >>> s)) := by
        rw [UInt64.shiftRight_xor]
        ac_rfl
      _ = 0 := UInt64.xor_eq_zero_iff.2 h
  have hnat : (y ^^^ z).toNat = (y ^^^ z).toNat / 2 ^ (s.toNat % 64) := by
    rw [← Nat.shiftRight_eq_div_pow, ← UInt64.toNat_shiftRight, ← UInt64.xor_eq_zero_iff.1 hself]
  rcases Nat.eq_zero_or_pos (y ^^^ z).toNat with hzero | hpos
  · exact UInt64.xor_eq_zero_iff.1 (UInt64.toNat_inj.1 hzero)
  · exact absurd hnat (Nat.ne_of_gt (Nat.div_lt_self hpos (Nat.one_lt_two_pow hs)))

theorem injective_mul {c c' : UInt64} (hc : c * c' = 1) :
    Function.Injective fun z : UInt64 => z * c := by
  intro y z (h : y * c = z * c)
  calc y = y * c * c' := by rw [UInt64.mul_assoc, hc, UInt64.mul_one]
    _ = z * c * c' := by rw [h]
    _ = z := by rw [UInt64.mul_assoc, hc, UInt64.mul_one]

theorem injective_scramble : Function.Injective scramble := by
  have h₁ := injective_xor_shiftRight (s := 30) (by decide)
  have h₂ := injective_mul (show (0xbf58476d1ce4e5b9 : UInt64) * 0x96de1b173f119089 = 1 by decide)
  have h₃ := injective_xor_shiftRight (s := 27) (by decide)
  have h₄ := injective_mul (show (0x94d049bb133111eb : UInt64) * 0x319642b2d24d8ec3 = 1 by decide)
  have h₅ := injective_xor_shiftRight (s := 31) (by decide)
  intro y z h
  exact h₁ (h₂ (h₃ (h₄ (h₅ h))))

theorem bijective_scramble : Function.Bijective scramble :=
  have : Finite UInt64 := Finite.of_injective UInt64.toFin UInt64.toFin_injective
  Finite.injective_iff_bijective.1 injective_scramble

/-- Every word is the first one of one seed. -/
theorem bijective_next : Function.Bijective fun seed => (SplitMix.mk seed).next.1 :=
  bijective_scramble.comp (Equiv.addRight increment).bijective

theorem snd_words (k : Nat) (g : SplitMix) :
    (words k g).2 = ⟨g.state + UInt64.ofNat k * increment⟩ := by
  induction k generalizing g with
  | zero => simp [words]
  | succ k ih =>
    rw [words, ih, UInt64.ofNat_add]
    simp only [next, SplitMix.mk.injEq]
    grind

theorem words_eq_map (k : Nat) (g : SplitMix) : (words k g).1 =
    (List.range k).map fun i => scramble (g.state + UInt64.ofNat (i + 1) * increment) := by
  induction k generalizing g with
  | zero => rfl
  | succ k ih =>
    rw [words, ih, List.range_succ_eq_map, List.map_cons, List.map_map]
    refine congrArg₂ List.cons ?_ (List.map_congr_left fun i _ => congrArg scramble ?_)
    · simp [next]
    · simp only [next, Nat.succ_eq_add_one, UInt64.ofNat_add]
      grind

theorem increment_mul : increment * 0xf1de83e19937733d = 1 := by decide

/-- The increment is odd, and so its multiples pass every word. -/
theorem exists_ofNat_mul_increment (z : UInt64) :
    ∃ i < 2 ^ 64, UInt64.ofNat (i + 1) * increment = z := by
  refine ⟨(z * 0xf1de83e19937733d - 1).toNat, UInt64.toNat_lt _, ?_⟩
  rw [UInt64.ofNat_add, UInt64.ofNat_toNat]
  have h := increment_mul
  grind

theorem mem_words (g : SplitMix) (word : UInt64) : word ∈ (words (2 ^ 64) g).1 := by
  obtain ⟨z, rfl⟩ := bijective_scramble.surjective word
  obtain ⟨i, hi, hz⟩ := exists_ofNat_mul_increment (z - g.state)
  rw [words_eq_map]
  refine List.mem_map.2 ⟨i, List.mem_range.2 hi, congrArg scramble ?_⟩
  grind

theorem nodup_words (g : SplitMix) : (words (2 ^ 64) g).1.Nodup := by
  rw [words_eq_map]
  refine List.Nodup.map_on (fun i hi j hj h => ?_) List.nodup_range
  have hmul := (UInt64.add_right_inj g.state).1 (injective_scramble h)
  have hnat := congrArg UInt64.toNat (injective_mul increment_mul hmul)
  rw [UInt64.toNat_ofNat', UInt64.toNat_ofNat'] at hnat
  rw [List.mem_range] at hi hj
  omega

theorem below_eq (hn : 0 < n) (g : SplitMix) : (g.below n).1 = g.next.1.toNat * n / 2 ^ 64 := by
  simp only [below, Nat.ne_of_gt hn, if_false]
  rfl

/-- The words whose share of `n` is `v` are those from one bound up to the next. -/
theorem share_eq_iff (hn : 0 < n) {word : Nat} : word * n / 2 ^ 64 = v ↔
    word ∈ Finset.Ico (2 ^ 64 * v ⌈/⌉ n) (2 ^ 64 * (v + 1) ⌈/⌉ n) := by
  rw [Finset.mem_Ico, ← not_le, ceilDiv_le_iff_le_mul hn, ceilDiv_le_iff_le_mul hn,
    Nat.div_eq_iff (by decide), Nat.mul_comm n word, Nat.mul_comm v, Nat.mul_add, Nat.mul_one]
  omega

/-- A share below `n` is that of a word. -/
theorem exists_seed (h : v < n) {word : Nat} (hword : word * n / 2 ^ 64 = v) :
    ∃ seed, (SplitMix.mk seed).next.1.toNat = word := by
  have hlt : word * n < n * 2 ^ 64 := by
    rwa [← Nat.div_lt_iff_lt_mul (Nat.two_pow_pos 64), hword]
  rw [Nat.mul_comm] at hlt
  obtain ⟨seed, hseed : (SplitMix.mk seed).next.1 = _⟩ :=
    bijective_next.surjective (UInt64.ofNat word)
  refine ⟨seed, ?_⟩
  rw [hseed, UInt64.toNat_ofNat', Nat.mod_eq_of_lt (Nat.lt_of_mul_lt_mul_left hlt)]

theorem image_below (h : v < n) :
    (fun seed => (SplitMix.mk seed).next.1.toNat) '' {seed | ((SplitMix.mk seed).below n).1 = v} =
      ↑(Finset.Ico (2 ^ 64 * v ⌈/⌉ n) (2 ^ 64 * (v + 1) ⌈/⌉ n)) := by
  have hn : 0 < n := Nat.zero_lt_of_lt h
  ext word
  rw [Finset.mem_coe, ← share_eq_iff hn]
  constructor
  · rintro ⟨seed, hseed, rfl⟩
    exact (below_eq hn _).symm.trans hseed
  · intro hword
    obtain ⟨seed, rfl⟩ := exists_seed h hword
    exact ⟨seed, (below_eq hn _).trans hword, rfl⟩

theorem ncard_below (h : v < n) : {seed | ((SplitMix.mk seed).below n).1 = v}.ncard =
    2 ^ 64 * (v + 1) ⌈/⌉ n - 2 ^ 64 * v ⌈/⌉ n := by
  have hinjective : Function.Injective fun seed => (SplitMix.mk seed).next.1.toNat :=
    fun _ _ h => bijective_next.injective (UInt64.toNat_inj.1 h)
  rw [← Set.ncard_image_of_injective _ hinjective, image_below h, Set.ncard_coe_finset, Nat.card_Ico]

/-- From a number to one that is `a` higher, the quotient by `n`, rounded up, rises by that of `a`,
rounded down or up. -/
theorem ceilDiv_add_sub (hn : 0 < n) (a b : Nat) :
    (b + a) ⌈/⌉ n - b ⌈/⌉ n = a / n ∨ (b + a) ⌈/⌉ n - b ⌈/⌉ n = a ⌈/⌉ n := by
  have hsum : (b + a) ⌈/⌉ n = b ⌈/⌉ n + a / n + if n ≤ (b + n - 1) % n + a % n then 1 else 0 := by
    rw [Nat.ceilDiv_eq_add_pred_div, Nat.ceilDiv_eq_add_pred_div, ← Nat.add_div hn]
    congr 1
    omega
  have hceil : a ⌈/⌉ n = a / n + if n ≤ a % n + (n - 1) then 1 else 0 := by
    rw [Nat.ceilDiv_eq_add_pred_div, Nat.add_sub_assoc hn, Nat.add_div hn,
      Nat.div_eq_of_lt (Nat.sub_one_lt_of_lt hn), Nat.mod_eq_of_lt (Nat.sub_one_lt_of_lt hn),
      Nat.add_zero]
  have hlt := Nat.mod_lt (b + n - 1) hn
  by_cases hcarry : n ≤ (b + n - 1) % n + a % n
  · right
    have hleft : n ≤ a % n + (n - 1) := by omega
    rw [hsum, hceil, if_pos hcarry, if_pos hleft, Nat.add_assoc, Nat.add_sub_cancel_left]
  · left
    rw [hsum, if_neg hcarry, Nat.add_zero, Nat.add_sub_cancel_left]

theorem words_period (g : SplitMix) : (words (2 ^ 64) g).2 = g := by
  have hzero : UInt64.ofNat (2 ^ 64) = 0 := by decide
  rw [snd_words, hzero, UInt64.zero_mul, UInt64.add_zero]

/-- A number of a range is in it, and so the sum that gives it is a word. The product on the way has
no more than 128 bits. -/
theorem range_mem_Ico (g : SplitMix) {lo hi : UInt64} (h : lo < hi) :
    (g.range lo.toNat hi.toNat).1 ∈ Set.Ico lo.toNat hi.toNat ∧
      g.next.1.toNat * (hi.toNat - lo.toNat) < 2 ^ 128 := by
  have hlt : lo.toNat < hi.toNat := UInt64.lt_iff_toNat_lt.1 h
  have hbelow := below_lt (Nat.sub_pos_of_lt hlt) g
  constructor
  · rw [Set.mem_Ico]
    simp only [range]
    omega
  · calc g.next.1.toNat * (hi.toNat - lo.toNat)
      _ < 2 ^ 64 * 2 ^ 64 := Nat.mul_lt_mul'' (UInt64.toNat_lt _)
        (Nat.lt_of_le_of_lt (Nat.sub_le _ _) (UInt64.toNat_lt _))
      _ = 2 ^ 128 := by decide

/-- Every word has one seed and one place in a period, every number below `n` has its share of the
seeds, rounded down or up, and a number of a range is in it. -/
theorem words_are_evenly_spread :
    (Function.Bijective fun seed => (SplitMix.mk seed).next.1) ∧
      (∀ g : SplitMix, (∀ word, (words (2 ^ 64) g).1.count word = 1) ∧ (words (2 ^ 64) g).2 = g) ∧
      (∀ {n v : Nat}, v < n →
        {seed | ((SplitMix.mk seed).below n).1 = v}.ncard = 2 ^ 64 / n ∨
          {seed | ((SplitMix.mk seed).below n).1 = v}.ncard = 2 ^ 64 ⌈/⌉ n) ∧
      ∀ (g : SplitMix) {lo hi : UInt64}, lo < hi →
        (g.range lo.toNat hi.toNat).1 ∈ Set.Ico lo.toNat hi.toNat ∧
          g.next.1.toNat * (hi.toNat - lo.toNat) < 2 ^ 128 := by
  refine ⟨bijective_next, fun g => ⟨fun word => ?_, words_period g⟩, fun {n v} h => ?_, range_mem_Ico⟩
  · exact List.count_eq_one_of_mem (nodup_words g) (mem_words g word)
  · rw [ncard_below h, Nat.mul_add, Nat.mul_one]
    exact ceilDiv_add_sub (Nat.zero_lt_of_lt h) _ _

/-- Three does not divide the number of seeds, so that one of the numbers below it has a seed more
than the others. -/
theorem seeds_of_one_below_three : 1 < 3 ∧
    ({seed | ((SplitMix.mk seed).below 3).1 = 1}.ncard = 6148914691236517205 ∨
      {seed | ((SplitMix.mk seed).below 3).1 = 1}.ncard = 6148914691236517206) ∧
    (1 : UInt64) < 3 ∧ ((SplitMix.mk 42).range 1 3).1 ∈ Set.Ico 1 3 :=
  ⟨by decide, words_are_evenly_spread.2.2.1 (n := 3) (v := 1) (by decide), by decide,
    (words_are_evenly_spread.2.2.2 (SplitMix.mk 42) (show (1 : UInt64) < 3 by decide)).1⟩

end RacePuzzle.SplitMix
