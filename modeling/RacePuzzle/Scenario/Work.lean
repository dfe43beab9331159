import RacePuzzle.Scenario.Script

/-! Running a script never makes more work than was left in it, so its tasks stop. -/
namespace RacePuzzle

namespace Script

abbrev totalWork (r : ScenarioReached) : Nat := Reached.work ScenarioFrame.work r

abbrev machineWork (m : ScenarioMachine) : Nat := m.work (Task.work ScenarioFrame.work)

theorem machineWork_congr {m m' : ScenarioMachine}
    (h : m'.dispatcher.seats = m.dispatcher.seats) : machineWork m' = machineWork m :=
  Machine.work_congr _ h

theorem seats_noteInterruption (why : Interruption) (m : ScenarioMachine) :
    (noteInterruption why m).dispatcher.seats = m.dispatcher.seats := by
  cases why <;> rfl

@[simp] theorem seats_nameJob (name : String) (job : JobId) (m : ScenarioMachine) :
    (nameJob name job m).dispatcher.seats = m.dispatcher.seats := by
  unfold nameJob
  cases job? name m <;> rfl

theorem seats_newChild (parent : JobId) (name : String) (kind : JobRole) (m : ScenarioMachine) :
    (newChild parent name kind m).2.dispatcher.seats = m.dispatcher.seats :=
  seats_nameJob ..

theorem machineWork_launch (parent : JobId) (name : String) (script : List Step)
    (m : ScenarioMachine) :
    machineWork (launch parent name script m) =
      machineWork m + (2 + Step.scriptWork script) := by
  simp only [launch, machineWork]
  rw [Machine.work_spawn, Machine.work_congr _ ((Machine.seats_hold ..).trans (seats_newChild ..))]
  simp only [Task.work, framesWork_cons, framesWork_nil, ScenarioFrame.work]
  omega

theorem machineWork_act {here : Option JobId} {step : Step} {m m' : ScenarioMachine}
    (h : act? here step m = some m') : machineWork m' ≤ machineWork m + step.work := by
  cases step with
  | child parent name kind =>
    obtain ⟨parent, -, h⟩ := Option.bind_eq_some_iff.mp h
    exact Nat.le_of_eq (Option.some.inj h ▸ machineWork_congr (seats_newChild ..))
  | launch parent name body =>
    obtain ⟨parent, -, h⟩ := Option.bind_eq_some_iff.mp h
    exact Nat.le_of_eq (Option.some.inj h ▸ machineWork_launch ..)
  | signal name => exact Nat.le_of_eq (Option.some.inj h ▸ rfl)
  | fire signal =>
    obtain ⟨signal, -, h⟩ := Option.bind_eq_some_iff.mp h
    exact Nat.le_of_eq (Option.some.inj h ▸ machineWork_congr (Machine.seats_fire ..))
  | cancel job =>
    obtain ⟨job, -, h⟩ := Option.bind_eq_some_iff.mp h
    exact Nat.le_of_eq (Option.some.inj h ▸ machineWork_congr (Machine.seats_cancel ..))
  | fail job kind =>
    obtain ⟨job, -, h⟩ := Option.bind_eq_some_iff.mp h
    exact Nat.le_of_eq (Option.some.inj h ▸ machineWork_congr (Machine.seats_fail ..))
  | wake sleeper twice =>
    obtain ⟨ticket, -, h⟩ := Option.bind_eq_some_iff.mp h
    refine Nat.le_of_eq (Option.some.inj h ▸ machineWork_congr ?_)
    cases twice <;> simp
  | _ => cases h

theorem totalWork_afterWait {frames : List ScenarioFrame}
    {k : ScenarioMachine → ScenarioReached} {r : WaitStart × ScenarioMachine}
    {m : ScenarioMachine} (hframes : framesWork ScenarioFrame.work frames = 0)
    (hk : ∀ m, totalWork (k m) = machineWork m) (h : r.2.dispatcher.seats = m.dispatcher.seats) :
    totalWork (afterWait frames k r) ≤ machineWork m + 1 :=
  Reached.work_afterWait_le seats_noteInterruption hframes hk h

theorem totalWork_letGo (job : JobId) (result : Completion) (m : ScenarioMachine) :
    totalWork (letGo job result m) ≤ machineWork m := Nat.le_refl _

theorem totalWork_holding {job : JobId} {code : ScenarioMachine → ScenarioReached}
    {m : ScenarioMachine} {n : Nat} (h : totalWork (code (m.hold job)) ≤ machineWork m + n) :
    totalWork (holding job code m) ≤ machineWork m + n :=
  Nat.le_trans (Reached.work_andThen_le _ (totalWork_letGo job) _) h

theorem totalWork_idle (ticket : Ticket) (job : JobId) (m : ScenarioMachine) :
    totalWork (idle ticket job m) ≤ machineWork m + 1 := by
  have hw : machineWork (m.awaitChildren ticket job).2 = machineWork m :=
    machineWork_congr (Machine.seats_awaitChildren ..)
  unfold idle
  split
  · next m' heq =>
    rw [heq] at hw
    exact Nat.le_add_right_of_le (Nat.le_of_eq hw)
  · next m' heq =>
    rw [heq] at hw
    exact Nat.add_le_add_right (Nat.le_of_eq hw) 1

theorem totalWork_close (ticket : Ticket) (job : JobId) (result : Completion)
    (m : ScenarioMachine) : totalWork (close ticket job result m) ≤ machineWork m + 1 :=
  Reached.work_afterClose_le (w := ScenarioFrame.work) rfl (fun _ _ => rfl) ticket job result m

theorem totalWork_closeLogged (ticket : Ticket) (job : JobId) (result : Completion)
    (m : ScenarioMachine) : totalWork (closeLogged ticket job result m) ≤ machineWork m + 1 :=
  Reached.work_afterClose_le (w := ScenarioFrame.work) rfl (fun _ _ => rfl) ticket job result m

theorem totalWork_endAttempt (result : Completion) (m : ScenarioMachine) :
    totalWork (endAttempt result m) = machineWork m := by
  cases result <;> rfl

private theorem runWait_rest {ticket : Ticket} {here : JobId} {step : Step}
    {m : ScenarioMachine}
    (h : runWait ticket here step m = match act? (some here) step m with
      | some m => .done m
      | none => skip m) :
    totalWork (runWait ticket here step m) ≤ machineWork m + step.work := by
  rw [h]
  split
  · next m' heq => exact machineWork_act heq
  · exact Nat.le_add_right _ _

theorem totalWork_runWait (ticket : Ticket) (here : JobId) (step : Step)
    (m : ScenarioMachine) :
    totalWork (runWait ticket here step m) ≤ machineWork m + step.work := by
  cases step with
  | log text => exact Nat.le_refl _
  | throwException kind => exact Nat.le_refl _
  | delay duration =>
    exact totalWork_afterWait rfl (fun _ => rfl) (Machine.seats_beginDelay ..)
  | wait signal =>
    unfold runWait
    dsimp only
    split
    · exact Nat.le_add_right _ _
    · exact totalWork_afterWait rfl (fun _ => rfl) (Machine.seats_beginJoin ..)
  | awaitSignal signal =>
    unfold runWait
    dsimp only
    split
    · exact Nat.le_add_right _ _
    · exact totalWork_afterWait rfl (fun _ => rfl) (Machine.seats_beginAwait ..)
  | join job =>
    unfold runWait
    dsimp only
    split
    · exact Nat.le_add_right _ _
    · exact totalWork_holding
        (totalWork_afterWait rfl (fun _ => rfl) (Machine.seats_beginJoin ..))
  | awaitJob job =>
    unfold runWait
    dsimp only
    split
    · exact Nat.le_add_right _ _
    · exact totalWork_holding
        (totalWork_afterWait rfl (fun _ => rfl) (Machine.seats_beginAwait ..))
  | idle job =>
    unfold runWait
    dsimp only
    split
    · exact Nat.le_add_right _ _
    · exact totalWork_holding (totalWork_idle ..)
  | complete job exception =>
    unfold runWait
    dsimp only
    split
    · exact Nat.le_add_right _ _
    · exact totalWork_holding (totalWork_closeLogged ..)
  | yield => exact Nat.le_of_eq (congrArg (· + 1) (machineWork_congr (Machine.seats_wake ..)))
  | park name => exact Nat.le_refl _
  | stash name => exact Nat.le_refl _
  | _ => exact runWait_rest rfl

mutual
theorem totalWork_runStep (ticket : Ticket) (here : JobId) :
    (step : Step) → (m : ScenarioMachine) →
      totalWork (runStep ticket here step m) ≤ machineWork m + step.work
  | .attempt body, m => by
    have hbody := totalWork_runScript ticket here body m
    have hthen := Reached.work_andThen_le .attempt
      (fun result m => Nat.le_of_eq (totalWork_endAttempt result m))
      (runScript ticket here body m)
    exact Nat.le_trans hthen hbody
  | .scope kind name body, m => by
    have hscope (scope : JobId) (m : ScenarioMachine) :
        totalWork (Reached.andThen (.close scope) (close ticket scope)
          (runScript ticket scope body m)) ≤ machineWork m + (1 + Step.scriptWork body) := by
      have hbody := totalWork_runScript ticket scope body m
      have hthen := Reached.work_andThen_le (.close scope) (totalWork_close ticket scope)
        (runScript ticket scope body m)
      simp only [totalWork, machineWork, ScenarioFrame.work] at *
      omega
    have hchild : machineWork (newChild here name kind m).2 = machineWork m :=
      machineWork_congr (seats_newChild ..)
    exact hchild ▸ totalWork_holding (hscope _ _)
  | .malformed, m | .child .., m | .launch .., m | .signal .., m | .fire .., m | .cancel .., m
  | .fail .., m | .wake .., m | .log .., m | .throwException .., m | .delay .., m | .wait .., m
  | .awaitSignal .., m | .join .., m | .awaitJob .., m | .idle .., m | .complete .., m
  | .yield, m | .park .., m | .stash .., m => totalWork_runWait ticket here _ m
theorem totalWork_runScript (ticket : Ticket) (here : JobId) :
    (script : List Step) → (m : ScenarioMachine) →
      totalWork (runScript ticket here script m) ≤ machineWork m + Step.scriptWork script
  | [], m => Nat.le_refl _
  | step :: rest, m => by
    have hs := totalWork_runStep ticket here step m
    unfold runScript
    split
    · next m' heq =>
      rw [heq] at hs
      have hrest := totalWork_runScript ticket here rest m'
      simp only [totalWork, machineWork, Reached.work_ended, Step.scriptWork] at *
      omega
    · next kind m' heq =>
      rw [heq] at hs
      simp only [totalWork, machineWork, Reached.work_ended, Step.scriptWork] at *
      omega
    · next on frames m' heq =>
      rw [heq] at hs
      simp only [totalWork, machineWork, Reached.work_suspended, framesWork_append,
        framesWork_cons, framesWork_nil, ScenarioFrame.work, Step.scriptWork] at *
      omega
end

theorem totalWork_resume (ticket : Ticket) (frame : ScenarioFrame) (result : Completion)
    (m : ScenarioMachine) :
    totalWork (resume ticket frame result m) ≤ machineWork m + frame.work := by
  cases frame with
  | rest here script =>
    cases result with
    | ok _ => exact totalWork_runScript ticket here script m
    | error kind => exact Nat.le_add_right _ _
  | attempt => exact Nat.le_of_eq (totalWork_endAttempt ..)
  | close job => exact totalWork_close ..
  | settle job => exact Nat.le_of_eq (machineWork_congr (Machine.seats_settle ..))
  | settleLogged job => exact Nat.le_of_eq (machineWork_congr (Machine.seats_settle ..))
  | awaited job => cases result <;> exact Nat.le_refl _
  | uncaught => cases result <;> exact Nat.le_refl _
  | release job => exact totalWork_letGo ..

end Script

instance : FrameCode ScenarioEnv ScenarioFrame where
  work := ScenarioFrame.work
  resume := Script.resume
  interrupted := Script.noteInterruption
  resume_work := Script.totalWork_resume
  interrupted_work why m := Script.machineWork_congr (Script.seats_noteInterruption why m)

end RacePuzzle
