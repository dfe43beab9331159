import RacePuzzle.Proofs.Evaluation.Instants
import RacePuzzle.Proofs.Evaluation.Variation

/-! Time scaling. A run compares times and adds them up, and it does nothing else with them; so where all
delays take `k` times as long, everything happens `k` times as late, and otherwise as before. -/
namespace RacePuzzle

variable {t : Statement} {L : Ledger} {s s₁ : Snapshot}

namespace Variation

def slower (k : Nat) : Variation := ⟨k, fun text => text⟩

/-- When a delay begins, its deadline is what some delays of the program take together. -/
theorem deadline_le (hmax : t.delays.sum ≤ Machine.maxTime) (h : History t L s) (hs : Snapshot.Step s s₁)
    {d : Nat} (hd : s.delay? = some d) : s.machine.now + d ≤ t.delays.sum :=
  ((h.timed hmax).now.begin (Snapshot.cost_step h.upheld hs) hd).le_sum

theorem fits_slower {k : Nat} (hk : 1 ≤ k) (hsum : k * t.delays.sum ≤ Machine.maxTime) :
    (slower k).Fits t := by
  intro L s s₁ job id action h hs hb
  have hmax : t.delays.sum ≤ Machine.maxTime := Nat.le_trans (Nat.le_mul_of_pos_left _ hk) hsum
  cases action with
  | delay d =>
    have hd : s.delay? = some d := by
      obtain ⟨_, _, _, _, hf⟩ := hb
      rw [Snapshot.delay?, hf]
      rfl
    have hle := deadline_le hmax h hs hd
    have hlate : k * (s.machine.now + d) ≤ Machine.maxTime :=
      Nat.le_trans (Nat.mul_le_mul_left k hle) hsum
    change min (k * s.machine.now + k * d) Machine.maxTime = k * min (s.machine.now + d) Machine.maxTime
    rw [← Nat.mul_add, Nat.min_eq_left hlate, Nat.min_eq_left (Nat.le_trans hle hmax)]
  | printAwait var text => exact .inl rfl
  | _ => trivial

end Variation

def Statement.slowed (k : Nat) (t : Statement) : Statement := t.vary (.slower k)

/-- Where all delays and the horizon are `k` times as long, a program evaluates to the same events with
`k` times their times, ends in the same way, and `k` times as late. -/
theorem slowed_program_keeps_pace (t : Statement) (limits : Limits) (k : Nat) (hk : 1 ≤ k)
    (hsum : k * t.delays.sum < 2 ^ 64) :
    (t.slowed k).evaluateWithin { limits with horizon := k * limits.horizon } =
      (t.evaluateWithin limits).paced k := by
  have hpos : 0 < (Variation.slower k).pace := hk
  exact Statement.evaluateWithin_vary hpos (Variation.fits_slower hk (Nat.le_pred_of_lt hsum)) limits

/-- Two tasks wait for the same instant, and a third one for the end of the first. -/
def photoFinish : Statement :=
  .block 0 .coroutineScope
    [.block 1 (.launchJob "a") [.leaf 2 (.delay 2), .leaf 3 (.delay 3), .leaf 4 (.print "first")],
      .block 5 (.launchJob "b") [.leaf 6 (.delay 5), .leaf 7 (.print "second")],
      .block 8 (.launchJob "c") [.leaf 9 (.join "a"), .leaf 10 (.cancel "b"), .leaf 11 (.print "third")],
      .leaf 12 (.delay 4), .leaf 13 (.print "early")]

theorem photoFinish_in_slow_motion :
    (photoFinish.slowed 1000).delays = [2000, 3000, 5000, 4000] ∧
    (photoFinish.slowed 1000).evaluateWithin ⟨1000 * 5, 200000, 1000000⟩ =
      (photoFinish.evaluateWithin ⟨5, 200000, 1000000⟩).paced 1000 := by
  have hsum : 1000 * photoFinish.delays.sum < 2 ^ 64 := by decide
  exact ⟨by decide, slowed_program_keeps_pace photoFinish ⟨5, 200000, 1000000⟩ 1000 (by decide) hsum⟩

end RacePuzzle
