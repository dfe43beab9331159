import RacePuzzle.Proofs.Evaluation.Finale
import RacePuzzle.Proofs.Evaluation.Limits
import RacePuzzle.Proofs.Evaluation.Onstage
import RacePuzzle.Proofs.Evaluation.Wakeups

/-! Silent work in the background is unobservable. A run with such work and the run without it print the
same at the same times and end alike. The clock of the first one may stop at more times; then the second
one waits where it is. -/
namespace RacePuzzle

open Interpreter

variable {t : Statement} {L : Ledger} {vars : List String} {C : Casting} {m m' : ProgramMachine}
  {limits : Limits}

namespace Machine.Conceals

/-- All ready tasks are polled. While the clocks differ, none of them shows. -/
theorem drain (h : m.Conceals (staging vars) C m')
    (htime : C.time' = C.time ∨ m'.dispatcher.ready = []) :
    ∃ C', C.Grows C' ∧ m.drain.Conceals (staging vars) C' m'.drain := by
  have hready := h.dispatcher.ready
  fun_induction Machine.drain m generalizing C m' with
  | case1 m hnil =>
    rw [hnil] at hready
    have hnil' : m'.dispatcher.ready = [] := by
      generalize m'.dispatcher.ready = ready' at hready
      cases hready
      rfl
    rw [Machine.drain_of_nil hnil']
    exact ⟨C, .refl C, h⟩
  | case2 m id rest hcons _ ih =>
    rw [hcons] at hready
    obtain ⟨o, rest', hid, hrest, hready'⟩ := hready.uncons
    cases o with
    | none =>
      -- A hidden task is polled on the first machine alone.
      have hready' : m'.dispatcher.ready = rest' := hready'
      obtain ⟨C₁, hC, hpolled⟩ := h.runReadyHidden hid (hready'.symm ▸ hrest)
      have htime₁ := htime.imp_left fun htime => hC.time'.trans (htime.trans hC.time.symm)
      obtain ⟨C₂, hC', hdrained⟩ := ih hpolled htime₁ hpolled.dispatcher.ready
      exact ⟨C₂, hC.trans hC', hdrained⟩
    | some id' =>
      -- A task that shows is the next one on both machines.
      have hcons' : m'.dispatcher.ready = id' :: rest' := hready'
      have htime := htime.resolve_right fun hnil => by cases hnil.symm.trans hcons'
      obtain ⟨C₁, hC, hpolled⟩ := h.runReadyShown htime hid hrest
      obtain ⟨C₂, hC', hdrained⟩ := ih hpolled (.inl (hC.time'.trans (htime.trans hC.time.symm)))
        hpolled.dispatcher.ready
      rw [Machine.drain_of_cons hcons']
      exact ⟨C₂, hC.trans hC', hdrained⟩

theorem hasEnded_eq (h : m.Conceals (staging vars) C m') : Statement.hasEnded m' = Statement.hasEnded m :=
  congrArg Option.isSome h.env.ending

theorem goesOn (h : m.Conceals (staging vars) C m') (hon : Machine.GoesOn limits Statement.hasEnded m')
    (hpolls : m.dispatcher.polls ≤ limits.maxPolls) : Machine.GoesOn limits Statement.hasEnded m := by
  obtain ⟨time', hnext', hhorizon⟩ := hon.next
  obtain ⟨time, hnext, hle⟩ := h.times.exists_next_le hnext'
  exact ⟨h.hasEnded_eq.symm.trans hon.unfinished, hpolls, time, hnext, Nat.le_trans hle hhorizon⟩

end Machine.Conceals

/-- Both runs stop where the first one does. -/
theorem agree_of_stops {n n' : Nat} (h : m.drain.Conceals (staging vars) C m'.drain)
    (hstops : ¬ Machine.GoesOn limits Statement.hasEnded m.drain)
    (hroom : (m.runFor limits Statement.hasEnded n).1 ≠ .outOfBudget) :
    Agree (m.runFor limits Statement.hasEnded n) (m'.runFor limits Statement.hasEnded n') := by
  have hstops' : ¬ Machine.GoesOn limits Statement.hasEnded m'.drain := fun hon =>
    hstops (h.goesOn hon (Machine.polls_le_of_runFor (h.hasEnded_eq.symm.trans hon.unfinished) hroom))
  obtain ⟨hm, hfinished⟩ := Machine.runFor_of_not_goesOn (n := n) hstops
  obtain ⟨hm', hfinished'⟩ := Machine.runFor_of_not_goesOn (n := n') hstops'
  refine ⟨hfinished'.trans (h.hasEnded_eq ▸ hfinished.symm), ?_, ?_⟩
  · rw [hm, hm']
    exact h.env.ending
  · rw [hm, hm']
    exact h.prints_eq

/-- Runs with room enough agree from where one of them conceals part of the other. The second run keeps
up with the timeslices of the first one, or waits for the next timer that shows. -/
theorem agree_runFor {n n' : Nat} (hL : History t L ⟨m, .idle⟩) (h : m.Conceals (staging vars) C m')
    (hle : C.time' ≤ C.time) (htime : C.time' = C.time ∨ m'.dispatcher.ready = [])
    (hroom : (m.runFor limits Statement.hasEnded n).1 ≠ .outOfBudget)
    (hroom' : (m'.runFor limits Statement.hasEnded n').1 ≠ .outOfBudget) :
    Agree (m.runFor limits Statement.hasEnded n) (m'.runFor limits Statement.hasEnded n') := by
  induction n using Nat.strongRecOn generalizing C m m' n' L with
  | ind n ih =>
    obtain ⟨L₁, hL₁, -⟩ := hL.steps (Snapshot.steps_drain m)
    obtain ⟨C₁, hC, hdrained⟩ := h.drain htime
    have hle₁ : C₁.time' ≤ C₁.time := hC.time'.symm ▸ hC.time.symm ▸ hle
    by_cases hon : Machine.GoesOn limits Statement.hasEnded m.drain
    · obtain ⟨time, hnext, hhorizon⟩ := hon.next
      obtain ⟨k, rfl, hrun⟩ := Machine.runFor_of_goesOn hon hroom
      obtain ⟨L₂, hL₂, -⟩ := hL₁.step (.tick (Machine.ready_drain m) hnext)
      have hnow : C₁.time ≤ time := by
        obtain ⟨_, first, hfirst, rfl⟩ := TimerQueue.exists_live_of_peek? hnext
        exact Nat.le_trans (Nat.le_of_eq hdrained.times.now.symm) (hL₁.timely.timers hfirst).1
      rw [hrun] at hroom ⊢
      by_cases hnext' : m'.drain.timetable.clock.next? = some time
      · -- The next timer shows, so that both clocks move on to the same time.
        have hunfinished := hdrained.hasEnded_eq.trans hon.unfinished
        have hon' : Machine.GoesOn limits Statement.hasEnded m'.drain :=
          ⟨hunfinished, Machine.polls_le_of_runFor hunfinished hroom', time, hnext', hhorizon⟩
        obtain ⟨k', rfl, hrun'⟩ := Machine.runFor_of_goesOn hon' hroom'
        rw [hrun'] at hroom' ⊢
        exact ih k (Nat.lt_succ_self k) hL₂ (hdrained.advance hnext hnext' hnow (Nat.le_trans hle₁ hnow))
          (Nat.le_refl _) (.inl rfl) hroom hroom'
      · -- Only hidden timers are due. The second run is left where nothing is ready.
        rw [← Machine.runFor_drain limits _ n' m'] at hroom' ⊢
        exact ih k (Nat.lt_succ_self k) hL₂ (hdrained.advanceHidden hnext hnext' hnow)
          (Nat.le_trans hle₁ hnow) (.inr (Machine.ready_drain m')) hroom hroom'
    · exact agree_of_stops hdrained hon hroom

def Casting.opening : Casting where
  job := .upTo 2
  signal := .upTo 2
  wait := .upTo 0
  seat := .upTo 1
  host := 1
  time := 0
  time' := 0

theorem times_loaded (t t' : Statement) :
    Casting.opening.Times t.loaded.timetable t'.loaded.timetable where
  waits := Roster.lists_upTo rfl rfl nofun
  timers hw := absurd hw.1 (Nat.not_lt_zero _)
  tidy := Timetable.tidy_start
  tidy' := Timetable.tidy_start
  now := rfl
  now' := rfl

theorem signals_loaded (t t' : Statement) :
    (Roster.upTo 2).Lists (Signal.Sees Casting.opening) t.loaded.signals t'.loaded.signals := by
  refine Roster.lists_upTo rfl rfl fun {i s s'} hs hs' => ?_
  rw [signal_loaded hs, signal_loaded hs']
  exact ⟨fun _ he => Option.some.inj he ▸ rfl, .nil⟩

theorem jobs_loaded (t t' : Statement) :
    (Roster.upTo 2).Lists (Job.Sees Casting.opening) t.loaded.jobs t'.loaded.jobs := by
  refine Roster.lists_upTo rfl rfl fun {i j j'} hj hj' => ?_
  obtain rfl : j = j' := Option.some.inj (hj.symm.trans hj')
  obtain ⟨hi, kind, rfl⟩ := of_job?_loaded hj
  exact {
    alike := ⟨rfl, rfl, rfl, rfl, rfl, rfl⟩
    held := rfl
    pending := .nil
    children := .nil
    exposed := fun _ _ => nofun
    parent := .none
    sleeper := .nil
    awake := fun _ => rfl
    completion := ⟨hi, rfl⟩ }

theorem dispatcher_loaded {t t' : Statement} (h : Statement.Sheds vars [t] [t']) :
    t.loaded.dispatcher.Sees (Task.Sees vars .opening) (.upTo 1) t'.loaded.dispatcher := by
  have hfirst : Roster.upTo 1 0 (some 0) := ⟨Nat.one_pos, rfl⟩
  have hframes : List.Forall₂ (ProgramFrame.Shows vars .opening) [.rest 0 [t], .program]
      [.rest 0 [t'], .program] := .cons (.rest ⟨Nat.two_pos, rfl⟩ h) (.cons .program .nil)
  have htask : Task.Sees vars .opening ⟨.entry 0, _⟩ (some ⟨.entry 0, _⟩) :=
    ⟨.entry (o := some 0) ⟨Nat.two_pos, rfl⟩, hframes⟩
  refine ⟨Roster.lists_upTo rfl rfl fun {i e e'} he he' => ?_,
    Roster.lists_upTo rfl rfl fun {i s s'} hs hs' => ?_, .single hfirst⟩
  · match i with
    | 0 =>
      obtain rfl := Option.some.inj he
      obtain rfl := Option.some.inj he'
      exact ⟨hfirst, fun _ he => Option.some.inj he ▸ rfl, fun _ he => Option.some.inj he ▸ rfl⟩
    | i + 1 => cases he
  · match i with
    | 0 =>
      obtain rfl := Option.some.inj hs
      obtain rfl := Option.some.inj hs'
      exact ⟨hfirst, nofun, fun _ hs => Option.some.inj hs ▸ .some htask⟩
    | i + 1 => cases hs

theorem conceals_loaded {t t' : Statement} (h : Statement.Sheds vars [t] [t']) :
    t.loaded.Conceals (staging vars) .opening t'.loaded where
  times := times_loaded t t'
  signals := signals_loaded t t'
  jobs := jobs_loaded t t'
  host i := by
    match i with
    | 0 => exact iff_of_false nofun Nat.zero_ne_one
    | 1 => exact iff_of_true rfl rfl
    | i + 2 => exact iff_of_false nofun nofun
  stage := ⟨1, Nat.one_lt_two, rfl⟩
  dispatcher := dispatcher_loaded h
  env := {
    background := rfl
    stage := ⟨Nat.one_lt_two, rfl⟩
    handle := fun _ _ => .none
    cast := nofun
    ending := rfl
    prints := rfl }

namespace Statement

theorem isSilent_of_label {s : Statement}
    (h : s.label ∉ ["Print", "PrintAwait", "TryCatch", "Cancel", "CompleteJob"]) : s.isSilent := by
  cases s with
  | leaf id action => cases action <;> first | rfl | simp [label, Action.label] at h
  | block id head body => cases head <;> first | rfl | simp [label, Head.label] at h

/-- Without background work a program has no more delays. -/
theorem Valid.delays_remove_le (ht : t.Valid) {id : StatementId} {inner : List Statement}
    (hs : .block id .scopeLaunch inner ∈ t.nodes) : (t.remove id).delays.length ≤ t.delays.length := by
  have hgains : Gains _ [t.remove id] [t] := (ht.inserted_remove hs).gains
  have hlength := (hgains (f := delay?) fun _ _ _ _ => rfl).length_eq
  simp only [bodyNodes, List.append_nil, List.length_append] at hlength
  exact Nat.le_of_add_left_le (Nat.le_of_eq hlength.symm)

end Statement

/-- Silent background work is unobservable. It may fail, join jobs of the program or wait forever: a
valid program without it evaluates to the same, within any limits that have room for the whole one. -/
theorem silent_background_is_unobservable {t : Statement} (ht : t.validate = .ok ()) {id : StatementId}
    {body : List Statement} (hs : .block id .scopeLaunch body ∈ t.nodes)
    (hsilent : ∀ s ∈ (Statement.block id .scopeLaunch body).nodes,
      s.label ∉ ["Print", "PrintAwait", "TryCatch", "Cancel", "CompleteJob"])
    (limits : Limits) (hpolls : 2 * t.size + 1 ≤ limits.maxPolls)
    (hslices : t.delays.length ≤ limits.maxTimeslices) :
    (t.remove id).evaluateWithin limits = t.evaluateWithin limits := by
  have hvalid := Statement.validate_eq_ok_iff.1 ht
  have hsheds := hvalid.sheds_remove hs fun s hmem =>
    Statement.isSilent_of_label (hsilent s (List.mem_cons_of_mem _ hmem))
  have hsize := hvalid.size_remove_le hs
  have hdelays := hvalid.delays_remove_le hs
  exact evaluateWithin_of_agree (agree_runFor .start (conceals_loaded hsheds) (Nat.le_refl _) (.inl rfl)
    (runWith_ne_outOfBudget hpolls hslices)
    (runWith_ne_outOfBudget (by omega) (Nat.le_trans hdelays hslices)))

/-- A job is launched and printed after; in the background a task joins the job and fails. -/
def nightShift : Statement :=
  .block 0 .coroutineScope
    [.block 1 (.launchJob "job") [.leaf 2 (.delay 2), .leaf 3 (.print "done")],
      .block 4 .scopeLaunch
        [.block 5 .launch [.leaf 6 (.delay 1)], .leaf 7 (.join "job"),
          .leaf 8 (.throwException .generic)],
      .leaf 9 (.delay 3), .leaf 10 (.print "end")]

theorem nightShift_is_unobservable :
    nightShift.remove 4 = .block 0 .coroutineScope
        [.block 1 (.launchJob "job") [.leaf 2 (.delay 2), .leaf 3 (.print "done")],
          .leaf 9 (.delay 3), .leaf 10 (.print "end")] ∧
      (nightShift.remove 4).evaluateWithin ⟨10, 3, 23⟩ = nightShift.evaluateWithin ⟨10, 3, 23⟩ := by
  have hvalid : nightShift.validate = .ok () := by cbv
  have hwork : .block 4 .scopeLaunch [.block 5 .launch [.leaf 6 (.delay 1)], .leaf 7 (.join "job"),
    .leaf 8 (.throwException .generic)] ∈ nightShift.nodes := by decide
  exact ⟨by decide, silent_background_is_unobservable hvalid hwork (by decide) ⟨10, 3, 23⟩ (by decide)
    (by decide)⟩

end RacePuzzle
