import RacePuzzle.Proofs.Evaluation.Stamps
import RacePuzzle.Proofs.Evaluation.StructuredConcurrency
import Mathlib.Algebra.Order.BigOperators.Group.List
import Mathlib.Algebra.Order.Group.Nat

/-! The instants of a run. Every time that a run knows, of its clock, of a timer, of an entry of the
trace or of its end, is what some delays of the program take together, each of which has begun in the
run and counts once. -/
namespace RacePuzzle

variable {t : Statement} {L : Ledger} {s s' : Snapshot} {time : Nat}

theorem sum_delaysOf (time : Nat) (l : List Statement) :
    (l.map (Tariff.delaysOf time).node).sum = (l.filterMap Statement.delay?).count time := by
  induction l with
  | nil => rfl
  | cons s rest ih =>
    have hnode : (Tariff.delaysOf time).node s = if s.delay? = some time then 1 else 0 := by
      cases s <;> simp [Tariff.node, Tariff.delaysOf]
    rw [List.map_cons, List.sum_cons, ih, hnode, List.filterMap_cons]
    cases hdelay : s.delay? with
    | none => simp
    | some d => by_cases hd : d = time <;> simp [hd, Nat.add_comm]

/-- The time is what some delays of `t` take together. A delay that is still to begin is none of them. -/
def Snapshot.Accounts (t : Statement) (s : Snapshot) (time : Nat) : Prop :=
  ∃ begun : List Nat, begun.sum = time ∧
    ∀ d, begun.count d + s.cost (.delaysOf d) ≤ t.delays.count d

namespace Snapshot

theorem accounts_zero (h : History t L s) : s.Accounts t 0 := by
  refine ⟨[], rfl, fun d => ?_⟩
  have hcost := cost_le_of_history h (.delaysOf d)
  rw [sum_delaysOf] at hcost
  exact Nat.le_trans (Nat.le_of_eq (Nat.zero_add _)) hcost

theorem Accounts.mono (h : s.Accounts t time) (hcost : ∀ p, s'.cost p ≤ s.cost p) :
    s'.Accounts t time := by
  obtain ⟨begun, hsum, hcount⟩ := h
  exact ⟨begun, hsum, fun d => Nat.le_trans (Nat.add_le_add_left (hcost _) _) (hcount d)⟩

/-- The delay that begins is none of those before. -/
theorem Accounts.begin (h : s.Accounts t time) (hcost : ∀ p, s'.cost p + s.price p ≤ s.cost p) {d : Nat}
    (hd : s.delay? = some d) : s'.Accounts t (time + d) := by
  obtain ⟨begun, rfl, hcount⟩ := h
  refine ⟨d :: begun, by rw [List.sum_cons, Nat.add_comm], fun d' => ?_⟩
  have hbefore := hcount d'
  have hpaid := hcost (.delaysOf d')
  rw [List.count_cons]
  split
  · next he =>
    obtain rfl : d = d' := by simpa using he
    have := (price_of_delay? hd).2
    omega
  · omega

/-- The delays can be told apart in the program. -/
theorem Accounts.exists_sublist (h : s.Accounts t time) :
    ∃ l : List Nat, l.Sublist t.delays ∧ l.sum = time := by
  obtain ⟨begun, rfl, hcount⟩ := h
  have hsub : begun.Subperm t.delays :=
    List.subperm_ext_iff.2 fun d _ => Nat.le_trans (Nat.le_add_right _ _) (hcount d)
  obtain ⟨l, hperm, hsub⟩ := hsub
  exact ⟨l, hsub, hperm.sum_eq⟩

theorem Accounts.le_sum (h : s.Accounts t time) : time ≤ t.delays.sum := by
  obtain ⟨l, hsub, rfl⟩ := h.exists_sublist
  exact hsub.sum_le_sum fun _ _ => Nat.zero_le _

end Snapshot

structure Snapshot.AllTimes (P : Nat → Prop) (s : Snapshot) : Prop where
  now : P s.machine.now
  timers : ∀ {k timer}, s.machine.timetable.timer? k = some timer → P timer.deadline
  trace : ∀ e ∈ s.machine.env.trace.toList, P e.time
  ending : ∀ {result time}, s.machine.env.ending = some (result, time) → P time

def Snapshot.Timed (t : Statement) (s : Snapshot) : Prop := s.AllTimes (s.Accounts t)

namespace Snapshot

variable {P Q : Nat → Prop}

theorem allTimes_initial (t : Statement) (hzero : P 0) : t.initial.AllTimes P := by
  refine ⟨hzero, fun ht => ?_, nofun, nofun⟩
  rw [show t.initial.machine = t.loaded from rfl, timer?_loaded] at ht
  cases ht

theorem AllTimes.tick (h : s.AllTimes P) (hticks : Ticks s s') : s'.AllTimes P := by
  obtain ⟨time, hnext⟩ := hticks.next
  have hmachine := hticks.machine
  refine ⟨?_, fun ht => ?_, fun e he => ?_, fun he => ?_⟩
  · obtain ⟨k, timer, htimer, rfl⟩ := TimerQueue.exists_live_of_peek? hnext
    rw [hmachine, Machine.now_advance hnext]
    rcases max_choice s.machine.now timer.deadline with hmax | hmax
    · rw [hmax]
      exact h.now
    · rw [hmax]
      exact h.timers htimer
  · rw [hmachine] at ht
    exact h.timers (Machine.of_timer?_advance hnext ht)
  · rw [hmachine] at he
    exact h.trace e he
  · rw [hmachine] at he
    exact h.ending he

theorem AllTimes.mono (h : s.AllTimes P) (hkeep : ∀ time, P time → Q time) : s.AllTimes Q :=
  ⟨hkeep _ h.now, fun ht => hkeep _ (h.timers ht), fun e he => hkeep _ (h.trace e he),
    fun he => hkeep _ (h.ending he)⟩

/-- A step that is no tick adds no time but the one of the clock, and sets a timer only where a delay
begins. -/
theorem AllTimes.step (h : s.AllTimes P) (hs : Step s s') (hupheld : s.Upheld t L)
    (hkeep : ∀ time, P time → Q time)
    (hbegin : ∀ d, s.delay? = some d → Q (min (s.machine.now + d) Machine.maxTime)) :
    s'.AllTimes Q := by
  have hafter := h.mono hkeep
  rcases pays_step hupheld hs with hpays | hticks
  · rcases stamps_step hupheld hs with ⟨-, ⟨new, htrace, hnew⟩, hending⟩ | ⟨hticks, -⟩
    · refine ⟨hpays.now ▸ hafter.now, fun ht => ?_, fun e he => ?_, fun he => ?_⟩
      · rcases hpays.timers ht with hold | ⟨d, hd, hdeadline⟩
        · exact hafter.timers hold
        · exact hdeadline ▸ hbegin d hd
      · rw [htrace] at he
        rcases List.mem_append.1 he with he | he
        · exact hafter.trace e he
        · exact (hnew e he).1 ▸ hafter.now
      · rcases hending with hsame | ⟨result, hended⟩
        · exact hafter.ending (hsame.symm.trans he)
        · obtain ⟨-, rfl⟩ := Prod.mk.inj (Option.some.inj (hended.symm.trans he))
          exact hafter.now
    · exact hafter.tick hticks
  · exact hafter.tick hticks

theorem timed_initial (t : Statement) : t.initial.Timed t :=
  allTimes_initial t (accounts_zero .start)

theorem Timed.step (htimed : s.Timed t) (hmax : t.delays.sum ≤ Machine.maxTime) (h : History t L s)
    (hs : Step s s') : s'.Timed t := by
  have hcost := cost_step h.upheld hs
  refine AllTimes.step htimed hs h.upheld (fun time haccounts => haccounts.mono fun p => ?_) fun d hd => ?_
  · exact Nat.le_trans (Nat.le_add_right _ _) (hcost p)
  · have hbegun := htimed.now.begin hcost hd
    rwa [Nat.min_eq_left (Nat.le_trans hbegun.le_sum hmax)]

end Snapshot

theorem History.timed (h : History t L s) (hmax : t.delays.sum ≤ Machine.maxTime) : s.Timed t := by
  induction h with
  | start => exact Snapshot.timed_initial t
  | next h hs _ _ ih => exact ih.step hmax h hs

theorem History.print_le_ending (h : History t L s) {result : Completion}
    (hended : s.machine.env.ending = some (result, time)) {p : TimedPrint} (hp : p ∈ prints s.machine) :
    p.time ≤ time := by
  induction h with
  | start => cases hended
  | @next L L' s s' h hs hrec hfollows ih =>
    have hnext : History t L' s' := .next h hs hrec hfollows
    rcases Snapshot.stamps_step h.upheld hs with ⟨hnow, ⟨new, htrace, hnew⟩, hending⟩ | ⟨-, henv⟩
    · rcases hending with hsame | ⟨result', hended'⟩
      · rw [prints, htrace, List.filterMap_append] at hp
        rcases List.mem_append.1 hp with hp | hp
        · exact ih (hsame.symm.trans hended) hp
        · obtain ⟨e, he, hevent⟩ := List.mem_filterMap.1 hp
          rcases (hnew e he).2 with hsilent | hnone
          · rw [(TraceEntry.of_event? hevent).1] at hsilent
            exact hsilent.elim
          · cases hnone.symm.trans (hsame.symm.trans hended)
      · obtain ⟨-, rfl⟩ := Prod.mk.inj (Option.some.inj (hended'.symm.trans hended))
        exact hnow ▸ hnext.print_le_now hp
    · rw [prints_congr henv] at hp
      exact ih (henv ▸ hended) hp

/-- The program ends at a time that has come. -/
theorem History.ending_le_now (h : History t L s) {result : Completion}
    (hended : s.machine.env.ending = some (result, time)) : time ≤ s.machine.now := by
  induction h with
  | start => cases hended
  | @next L L' s s' h hs _ _ ih =>
    rcases Snapshot.stamps_step h.upheld hs with ⟨hnow, -, hending⟩ | ⟨hticks, henv⟩
    · rw [hnow]
      rcases hending with hsame | ⟨result', hended'⟩
      · exact ih (hsame.symm.trans hended)
      · obtain ⟨-, rfl⟩ := Prod.mk.inj (Option.some.inj (hended'.symm.trans hended))
        exact Nat.le_refl _
    · obtain ⟨next, hnext⟩ := hticks.next
      rw [hticks.machine, Machine.now_advance hnext]
      exact Nat.le_trans (ih (henv ▸ hended)) (Nat.le_max_left _ _)

/-- While tasks are polled no time goes by. -/
theorem now_of_busySteps (h : History t L s) (hs : Snapshot.BusySteps s s') :
    s'.machine.now = s.machine.now := by
  induction hs with
  | refl => rfl
  | tail hsteps hstep ih =>
    obtain ⟨L₁, h₁, -⟩ := h.steps (Snapshot.BusySteps.steps hsteps)
    rcases Snapshot.pays_step h₁.upheld hstep.step with hpays | hticks
    · exact hpays.now.trans ih
    · exact absurd hticks.ready (hstep.ready hticks.idle)

/-- The clock of a run does not pass the horizon. -/
theorem now_le_of_restsAt {limits : Limits} {isDone : ProgramMachine → Bool} {n k : Nat}
    {m r : ProgramMachine} (hr : Machine.RestsAt limits isDone n m k r) (h : History t L ⟨m, .idle⟩)
    (hm : m.now ≤ limits.horizon) : r.now ≤ limits.horizon := by
  induction hr generalizing L with
  | @here n m => exact Nat.le_trans (Nat.le_of_eq (now_of_busySteps h (Snapshot.busySteps_drain m))) hm
  | @later n m k r time _ _ hnext hle _ ih =>
    obtain ⟨L₁, h₁, -⟩ := h.steps (Snapshot.steps_drain m)
    obtain ⟨L₂, h₂, -⟩ := h₁.step (.tick (Machine.ready_drain m) hnext)
    have hdrain : m.drain.now = m.now := now_of_busySteps h (Snapshot.busySteps_drain m)
    refine ih h₂ ?_
    rw [Machine.now_advance hnext, hdrain]
    exact Nat.max_le.2 ⟨hm, hle⟩

namespace Statement

/-- When a run stops, its environment is the one in which its ready queue became empty for the last
time. -/
theorem exists_restsAt_runWith (t : Statement) (limits : Limits) :
    ∃ r, t.RestsAt limits r ∧ (t.runWith limits).2.env = r.env := by
  obtain ⟨k, r, hr, hstops⟩ :=
    Machine.exists_restsAt_runFor limits hasEnded limits.maxTimeslices t.loaded
  have hstops : Machine.StopsWith limits hasEnded k r (t.runWith limits).1
      (t.runWith limits).2 := hstops
  refine ⟨r, ⟨k, hr⟩, ?_⟩
  generalize (t.runWith limits).1 = reason at hstops
  cases reason with
  | finished => rw [hstops.2]
  | stuck => rw [hstops.2.2]
  | pastHorizon => rw [hstops.2.2]
  | outOfBudget =>
    rcases hstops.2 with ⟨-, hlast⟩ | ⟨-, -, hlast⟩
    · rw [hlast]
    · rw [hlast]
      rfl

/-- An evaluation shows the end of the program, or counts it as waiting until the horizon. -/
theorem evaluateWithin_cases (t : Statement) (limits : Limits) :
    (∃ result time, (t.runWith limits).2.env.ending = some (result, time) ∧
      t.evaluateWithin limits = ⟨prints (t.runWith limits).2, .ofCompletion result, time⟩) ∨
    t.evaluateWithin limits = ⟨prints (t.runWith limits).2, .neverCompletes, limits.horizon⟩ := by
  unfold evaluateWithin
  dsimp only
  split
  · next hended => exact .inl ⟨_, _, hended, rfl⟩
  · exact .inr rfl

/-- The time is what delays at different places of the program take together. -/
def IsInstant (t : Statement) (time : Nat) : Prop :=
  ∃ delays : List Statement, delays.Sublist t.nodes ∧ (∀ s ∈ delays, s.isDelay = true) ∧
    (delays.filterMap delay?).sum = time

theorem isDelay_of_delay? {s : Statement} {d : Nat} (h : s.delay? = some d) : s.isDelay = true := by
  cases s with
  | block => cases h
  | leaf id action => cases action <;> first | rfl | cases h

theorem isInstant_of_accounts (h : s.Accounts t time) : t.IsInstant time := by
  obtain ⟨l, hsub, rfl⟩ := h.exists_sublist
  obtain ⟨l', hl', rfl⟩ := List.sublist_filterMap_iff.1 hsub
  refine ⟨l'.filter isDelay, List.filter_sublist.trans hl', fun s hs => (List.mem_filter.1 hs).2, ?_⟩
  rw [List.filterMap_filter]
  congr 2
  funext s
  cases hs : s.delay? with
  | none => simp
  | some d => simp [isDelay_of_delay? hs]

end Statement

/-- The events of an evaluation are in the order of their times, none after the end, which does not pass
the horizon and is the horizon when the program never completes. If the delays take less than `2 ^ 64`
together, every other time is what some of them take, each counted once. -/
theorem times_add_up_from_delays (t : Statement) (hsum : t.delays.sum < 2 ^ 64) (limits : Limits) :
    (t.evaluateWithin limits).events.Pairwise (fun p p' => p.time ≤ p'.time) ∧
    (∀ p ∈ (t.evaluateWithin limits).events, p.time ≤ (t.evaluateWithin limits).endTime) ∧
    (t.evaluateWithin limits).endTime ≤ limits.horizon ∧
    ((t.evaluateWithin limits).termination = .neverCompletes →
      (t.evaluateWithin limits).endTime = limits.horizon) ∧
    (∀ p ∈ (t.evaluateWithin limits).events, t.IsInstant p.time) ∧
    ((t.evaluateWithin limits).termination ≠ .neverCompletes →
      t.IsInstant (t.evaluateWithin limits).endTime) := by
  obtain ⟨r, hr, henv⟩ := t.exists_restsAt_runWith limits
  obtain ⟨L, hL⟩ := hr.reaches.history
  obtain ⟨k, hr⟩ := hr
  have hnow : r.now ≤ limits.horizon := now_le_of_restsAt hr .start (Nat.zero_le _)
  have hmax : t.delays.sum ≤ Machine.maxTime := Nat.le_pred_of_lt hsum
  have htimed := hL.timed hmax
  have hprints : prints (t.runWith limits).2 = prints r := prints_congr henv
  have hinstant : ∀ p ∈ prints r, t.IsInstant p.time := fun p hp => by
    obtain ⟨e, he, hevent⟩ := List.mem_filterMap.1 hp
    exact (TraceEntry.of_event? hevent).2 ▸ Statement.isInstant_of_accounts (htimed.trace e he)
  rcases t.evaluateWithin_cases limits with ⟨result, time, hended, he⟩ | he
  · rw [henv] at hended
    rw [he, hprints]
    exact ⟨hL.prints_sorted, fun p hp => hL.print_le_ending hended hp,
      Nat.le_trans (hL.ending_le_now hended) hnow,
      fun hnever => absurd hnever (ofCompletion_ne_neverCompletes result), hinstant,
      fun _ => Statement.isInstant_of_accounts (htimed.ending hended)⟩
  · rw [he, hprints]
    exact ⟨hL.prints_sorted, fun p hp => Nat.le_trans (hL.print_le_now hp) hnow, Nat.le_refl _,
      fun _ => rfl, hinstant, fun hnever => absurd rfl hnever⟩

/-- Delays beside each other and one after them. -/
def overlappingDelays : Statement :=
  .block 0 .coroutineScope
    [.block 1 (.launchJob "a") [.leaf 2 (.delay 20), .leaf 3 (.print "first"), .leaf 4 (.delay 5)],
      .leaf 5 (.delay 10), .leaf 6 (.join "a"), .leaf 7 (.delay 10), .leaf 8 (.print "last")]

theorem overlapping_delays_add_up : overlappingDelays.delays.sum < 2 ^ 64 ∧
    (∀ p ∈ overlappingDelays.evaluate.events, p.time ≤ overlappingDelays.evaluate.endTime ∧
      overlappingDelays.IsInstant p.time) ∧
    overlappingDelays.evaluate.endTime ≤ Limits.default.horizon := by
  have hsum : overlappingDelays.delays.sum < 2 ^ 64 := by decide
  obtain ⟨-, hbefore, hend, -, hinstant, -⟩ := times_add_up_from_delays overlappingDelays hsum .default
  exact ⟨hsum, fun p hp => ⟨hbefore p hp, hinstant p hp⟩, hend⟩

end RacePuzzle
