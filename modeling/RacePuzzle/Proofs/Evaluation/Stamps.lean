import RacePuzzle.Proofs.Evaluation.Completion

/-! The times in a trace. Every entry bears the time of the clock when it was made, so that the
entries are in order and none is later than the clock. The end of the program is stamped as well, and
nothing is printed after it. -/
namespace RacePuzzle

open Interpreter

/-- The clock stands still, and what is added to the trace bears its time, and so does an end of the
program. Prints are only added before the end. -/
structure Stamps (m m' : ProgramMachine) : Prop where
  now : m'.now = m.now
  trace : ∃ new, m'.env.trace.toList = m.env.trace.toList ++ new ∧ ∀ e ∈ new, e.time = m.now ∧
    (e.mark.IsSilent ∨ m.env.ending = none)
  ending : m'.env.ending = m.env.ending ∨ ∃ result, m'.env.ending = some (result, m.now)

variable {t : Statement} {L : Ledger} {m m' m'' : ProgramMachine} {s s' : Snapshot}

theorem Stamps.ofEnv (henv : m'.env = m.env) (hnow : m'.now = m.now) : Stamps m m' :=
  ⟨hnow, ⟨[], by simp [henv], by simp⟩, .inl (by rw [henv])⟩

theorem Stamps.refl (m : ProgramMachine) : Stamps m m := .ofEnv rfl rfl

theorem Stamps.ofSpends {n : Nat} {delay : Option Nat} (h : Machine.Spends n delay m m')
    (henv : m'.env = m.env) : Stamps m m' :=
  .ofEnv henv h.now

theorem Stamps.trans (h : Stamps m m') (h' : Stamps m' m'') : Stamps m m'' := by
  obtain ⟨new, he, hnew⟩ := h.trace
  obtain ⟨new', he', hnew'⟩ := h'.trace
  refine ⟨h'.now.trans h.now, ⟨new ++ new', by rw [he', he, List.append_assoc], fun e hmem => ?_⟩, ?_⟩
  · rcases List.mem_append.1 hmem with hmem | hmem
    · exact hnew e hmem
    · obtain ⟨htime, hsilent⟩ := hnew' e hmem
      refine ⟨htime.trans h.now, hsilent.imp_right fun hnone => ?_⟩
      rcases h.ending with hsame | ⟨result, hended⟩
      · exact hsame.symm.trans hnone
      · cases hended.symm.trans hnone
  · rcases h'.ending with hsame | ⟨result, hended⟩
    · rw [hsame]
      exact h.ending
    · exact .inr ⟨result, h.now ▸ hended⟩

theorem stamps_record (id : StatementId) (mark : Mark) (m : ProgramMachine)
    (h : mark.IsSilent ∨ m.env.ending = none) : Stamps m (record id mark m) := by
  refine ⟨rfl, ⟨[⟨id, mark, m.now⟩], by simp [record, Machine.updateEnv], fun e he => ?_⟩, .inl rfl⟩
  obtain rfl := List.mem_singleton.1 he
  exact ⟨rfl, h⟩

theorem stamps_print (id : StatementId) (value : String) (m : ProgramMachine) :
    Stamps m (print id value m) := by
  unfold print
  split
  · next hnone => exact stamps_record id _ m (.inr (by simpa using hnone))
  · exact .refl m

theorem stamps_bind (id : StatementId) (var : String) (handle : Referent) (m : ProgramMachine) :
    Stamps m (Interpreter.bind id var handle m) := by
  refine ⟨rfl, ⟨[⟨id, .bound handle, m.now⟩], trace_bind .., fun e he => ?_⟩, .inl rfl⟩
  obtain rfl := List.mem_singleton.1 he
  exact ⟨rfl, .inl trivial⟩

theorem stamps_printResult (id : StatementId) (j : JobId) (text : String) (m : ProgramMachine) :
    Stamps m (printResult id j text m).2 := by
  unfold printResult
  dsimp only
  split
  · exact (stamps_record id (.awaited _) m (.inl trivial)).trans (stamps_print ..)
  · exact stamps_record id (.awaited _) m (.inl trivial)

theorem stamps_catchException (id : StatementId) (kind : ExceptionKind) (result : Completion)
    (m : ProgramMachine) : Stamps m (catchException id kind result m).2 := by
  unfold catchException
  split
  · exact .refl m
  · split
    · exact stamps_print ..
    · exact .refl m

theorem stamps_afterWait {n : Nat} {delay : Option Nat} {frames : List ProgramFrame}
    {k : ProgramMachine → ProgramReached} {r : WaitStart × ProgramMachine}
    (hr : Machine.Spends n delay m r.2) (henv : r.2.env = m.env) (hk : ∀ m, Stamps m (k m).2) :
    Stamps m (afterWait frames k r).2 := by
  obtain ⟨start, m'⟩ := r
  cases start with
  | through => exact (Stamps.ofSpends hr henv).trans (hk m')
  | refused why => exact .ofSpends hr henv
  | suspended on => exact .ofSpends hr henv

theorem stamps_performAction (ticket : Ticket) (j : JobId) (id : StatementId) (action : Action)
    (m : ProgramMachine) : Stamps m (performAction ticket j id action m).2 := by
  have hrefer : ∀ var, Stamps m (refer id var m).2 := fun var =>
    stamps_record id (.referred _) m (.inl trivial)
  have hfire : ∀ (m : ProgramMachine) signal, Stamps m (m.fire signal) := fun m signal =>
    .ofSpends (Machine.spends_fire m signal) (Machine.env_fire m signal)
  have hperforms := performs_performAction ticket j id action m
  generalize performAction ticket j id action m = r at hperforms ⊢
  cases hperforms with
  | delay => exact stamps_afterWait (Machine.spends_beginDelay ..) (env_beginDelay ..) .refl
  | print => exact stamps_print id _ m
  | throwException => exact .refl m
  | job =>
    have hsignal : Stamps m m.newSignal.2 := .ofEnv rfl rfl
    exact hsignal.trans (stamps_bind ..)
  | joinNothing _ | cancelNothing _ | completeNothing _ | awaitNothing _ _ => exact hrefer _
  | join _ _ =>
    exact (hrefer _).trans
      (stamps_afterWait (Machine.spends_beginJoin ..) (beginJoin_cases ..).1 .refl)
  | cancel _ _ =>
    exact (hrefer _).trans
      (.ofSpends (Machine.spends_cancel ..) (Machine.sameBonds_cancel ..).env)
  | cancelBare _ | completeJob _ => exact (hrefer _).trans (hfire ..)
  | await _ _ =>
    exact (hrefer _).trans (stamps_afterWait (Machine.spends_beginAwait ..) (beginAwait_cases ..).1
      fun m => stamps_printResult ..)
  | printText _ => exact (hrefer _).trans (stamps_print ..)

theorem stamps_enter (j : JobId) (id : StatementId) (head : Head) (inner : List Statement)
    (m : ProgramMachine) : Stamps m (enter j id head inner m).2 := by
  have hlaunch : ∀ parent, Stamps m (launch parent inner m).2 := fun _ => .ofEnv rfl rfl
  cases head with
  | launch => exact hlaunch _
  | scopeLaunch => exact hlaunch _
  | launchJob var => exact (hlaunch j).trans (stamps_bind ..)
  | async var text => exact (hlaunch j).trans (stamps_bind ..)
  | coroutineScope => exact .ofEnv rfl rfl
  | supervisorScope => exact .ofEnv rfl rfl
  | tryCatch kind => exact .refl m

namespace Snapshot

section Code

variable {seat : SeatId} {ticket : Ticket} {frames frames' : List ProgramFrame}
  {result result' : Completion}

theorem stamps_close (ticket : Ticket) (j : JobId) (result : Completion) (m : ProgramMachine) :
    Stamps m (Interpreter.close ticket j result m).2 :=
  .ofSpends (spends_close ticket j result m) (env_close ..)

theorem stamps_leaf (ticket : Ticket) (j : JobId) (id : StatementId) (action : Action)
    (m : ProgramMachine) : Stamps m (performAction ticket j id action (record id .began m)).2 :=
  (stamps_record id .began m (.inl trivial)).trans (stamps_performAction ..)

theorem stamps_code (hs : Thread.Step ticket ⟨frames, result, m⟩ ⟨frames', result', m'⟩) :
    Stamps m m' := by
  cases hs with
  | pass _ => exact .refl m
  | bodyEnd => exact .refl m
  | @act j id action _ _ _ _ _ he =>
    have h := stamps_leaf ticket j id action m
    rwa [he] at h
  | enter => exact (stamps_record _ .began m (.inl trivial)).trans (stamps_enter ..)
  | leave => exact stamps_record _ .ended m (.inl trivial)
  | @catching id kind _ _ _ _ _ he =>
    have h := stamps_catchException id kind result m
    rwa [he] at h
  | @close j _ _ _ _ _ he =>
    have h := stamps_close ticket j result m
    rwa [he] at h
  | @settle j => exact .ofSpends (Machine.spends_settle m j) (env_settle m j)
  | @awaited id j text _ _ _ _ he =>
    have h := stamps_printResult id j text m
    rwa [he] at h
  | program =>
    have henv := (Machine.sameBonds_cancel m m.env.background).env
    exact ⟨(spends_endProgram result m).now, ⟨[],
      (congrArg (·.trace.toList) henv).trans (List.append_nil _).symm, by simp⟩,
      .inr ⟨result, rfl⟩⟩

theorem stamps_suspend {on : Suspension}
    (hs : Thread.Suspends ticket ⟨frames, result, m⟩ on frames' m') : Stamps m m' := by
  cases hs with
  | @act j id action _ _ _ _ _ _ he =>
    have h := stamps_leaf ticket j id action m
    rwa [he] at h
  | @close j _ _ _ _ _ _ he =>
    have h := stamps_close ticket j result m
    rwa [he] at h

end Code

/-- Every step stamps what it adds to the trace, unless it moves the clock on. -/
theorem stamps_step (h : s.Upheld t L) (hs : Step s s') :
    Stamps s.machine s'.machine ∨ Ticks s s' ∧ s'.machine.env = s.machine.env := by
  cases hs with
  | skip hr hout => exact .inl (.ofEnv rfl rfl)
  | sleepOn hr hout hres =>
    obtain ⟨rfl, -⟩ := h.resumption_none hr hout hres
    exact .inl (.ofEnv rfl rfl)
  | @goOn m id rest d ticket task result m' hr hout hres =>
    have henv := env_resumption { m with dispatcher := d } ticket task.on
    rw [hres] at henv
    exact .inl (.ofEnv henv (spends_resumption hres).now)
  | code hs => exact .inl (stamps_code hs)
  | suspend hs =>
    have h := stamps_suspend hs
    exact .inl ⟨h.now, h.trace, h.ending⟩
  | finish => exact .inl (.ofEnv rfl rfl)
  | @tick _ time hr hnext => exact .inr ⟨⟨rfl, hr, ⟨time, hnext⟩, rfl, rfl⟩, rfl⟩

end Snapshot

/-- The entries of a trace are in the order of their times, none later than the clock. -/
theorem History.stamped (h : History t L s) :
    (s.machine.env.trace.toList.map TraceEntry.time).Pairwise (· ≤ ·) ∧
      ∀ e ∈ s.machine.env.trace.toList, e.time ≤ s.machine.now := by
  induction h with
  | start => exact ⟨.nil, nofun⟩
  | @next L L' s s' h hs _ _ ih =>
    obtain ⟨hsorted, hle⟩ := ih
    rcases Snapshot.stamps_step h.upheld hs with ⟨hnow, ⟨new, he, hnew⟩, -⟩ | ⟨hticks, henv⟩
    · rw [he, hnow]
      refine ⟨?_, fun e hmem => ?_⟩
      · rw [List.map_append, List.pairwise_append]
        refine ⟨hsorted, ?_, fun a ha b hb => ?_⟩
        · refine List.pairwise_of_forall_mem_list fun a ha b hb => ?_
          obtain ⟨e, hmem, rfl⟩ := List.mem_map.1 ha
          obtain ⟨e', hmem', rfl⟩ := List.mem_map.1 hb
          exact Nat.le_of_eq ((hnew e hmem).1.trans (hnew e' hmem').1.symm)
        · obtain ⟨e, hmem, rfl⟩ := List.mem_map.1 ha
          obtain ⟨e', hmem', rfl⟩ := List.mem_map.1 hb
          rw [(hnew e' hmem').1]
          exact hle e hmem
      · exact (List.mem_append.1 hmem).elim (hle e) fun hmem => Nat.le_of_eq (hnew e hmem).1
    · rw [henv]
      refine ⟨hsorted, fun e hmem => Nat.le_trans (hle e hmem) ?_⟩
      obtain ⟨time, hnext⟩ := hticks.next
      rw [hticks.machine, Machine.now_advance hnext]
      exact Nat.le_max_left _ _

theorem TraceEntry.of_event? {e : TraceEntry} {p : TimedPrint} (h : e.event? = some p) :
    e.mark = .printed p.value ∧ e.time = p.time := by
  unfold TraceEntry.event? at h
  split at h
  · next hmark => exact Option.some.inj h ▸ ⟨hmark, rfl⟩
  · cases h

theorem History.print_le_now (h : History t L s) {p : TimedPrint} (hp : p ∈ prints s.machine) :
    p.time ≤ s.machine.now := by
  obtain ⟨e, he, hevent⟩ := List.mem_filterMap.1 hp
  exact (TraceEntry.of_event? hevent).2 ▸ h.stamped.2 e he

/-- Prints are in the order of their times. -/
theorem History.prints_sorted (h : History t L s) :
    (prints s.machine).Pairwise fun p p' => p.time ≤ p'.time := by
  have hsorted := List.pairwise_map.1 h.stamped.1
  rw [prints, List.pairwise_filterMap]
  refine hsorted.imp fun {e e'} hle p hp p' hp' => ?_
  rw [← (TraceEntry.of_event? hp).2, ← (TraceEntry.of_event? hp').2]
  exact hle

end RacePuzzle
