import RacePuzzle.Proofs.Evaluation.Bindings
import RacePuzzle.Proofs.Evaluation.Budget
import RacePuzzle.Proofs.Evaluation.CancelledJobs

/-! Why a run gets stuck. Jobs are ranked by the ends of their blocks in the program: a task waits
for its children or for what was declared before, hence for a job of lower rank than its own. Only a
bare job can end such a chain. -/
namespace RacePuzzle

variable {t : Statement} {L L' : Ledger} {m : ProgramMachine} {s s' : Snapshot}

def ProgramFrame.programs : ProgramFrame → Nat
  | .program => 1
  | _ => 0

theorem isSome_ending_of_program (hs : Snapshot.Step s s') {result : Completion}
    (h : s.Ends .program result) : s'.machine.env.ending.isSome := by
  obtain ⟨seat, ticket, outer, hf⟩ := h
  cases hs with
  | code hs =>
    cases hf
    cases hs with
    | pass hframe => cases hframe
    | program => rfl
  | suspend hs =>
    cases hf
    cases hs
  | _ => cases hf

theorem ProgramFrame.programs_eq_zero {frame : ProgramFrame} (h : frame ≠ .program) :
    frame.programs = 0 := by
  cases frame <;> first | rfl | exact absurd rfl h

/-- The frames that end the program stay until one of them gets its result, which takes it away. -/
theorem total_programs_step (h : s.Upheld t L) (hs : Snapshot.Step s s') :
    (∃ result, s.Ends .program result) ∧
        s'.total ProgramFrame.programs + 1 = s.total ProgramFrame.programs ∨
      (∀ result, ¬ s.Ends .program result) ∧
        s'.total ProgramFrame.programs = s.total ProgramFrame.programs := by
  have hother {seat : SeatId} {ticket : Ticket} {frame : ProgramFrame} {outer : List ProgramFrame}
      {result : Completion} (hf : s.focus = .running seat ticket (frame :: outer) result)
      (hne : frame ≠ .program) (result' : Completion) : ¬ s.Ends .program result' := by
    rintro ⟨_, _, _, hf'⟩
    cases hf.symm.trans hf'
    exact hne rfl
  rcases Snapshot.trades_step h hs with ⟨hidle, htotal⟩ | ⟨hf, hm, htotal⟩
  · refine .inr ⟨fun result hends => ?_, htotal _⟩
    obtain ⟨seat, ticket, outer, hf⟩ := hends
    rw [hf] at hidle
    cases hidle
  · have hkept := htotal ProgramFrame.programs
    cases hm with
    | @pass frame _ _ hframe =>
      have hne : frame ≠ .program := by
        rintro rfl
        cases hframe
      simp only [framesWork_cons, framesWork_nil, ProgramFrame.programs_eq_zero hne] at hkept
      exact .inr ⟨hother hf hne, by omega⟩
    | @frameEnd frame _ _ _ =>
      by_cases hframe : frame = .program
      · subst hframe
        simp only [framesWork_cons, framesWork_nil, ProgramFrame.programs] at hkept
        exact .inl ⟨⟨_, _, _, _, hf⟩, by omega⟩
      · simp only [framesWork_cons, framesWork_nil, ProgramFrame.programs_eq_zero hframe] at hkept
        exact .inr ⟨hother hf hframe, by omega⟩
    | _ =>
      simp only [framesWork_cons, framesWork_nil, ProgramFrame.programs] at hkept
      exact .inr ⟨hother hf nofun, by omega⟩

/-- As long as the program has not ended, a task is left that will end it. -/
theorem program_left (h : History t L s) (hnone : s.machine.env.ending = none) :
    0 < s.total ProgramFrame.programs := by
  induction h with
  | start => exact Nat.one_pos
  | @next L L' s s' h hs _ _ ih =>
    rcases total_programs_step h.upheld hs with ⟨⟨result, hends⟩, -⟩ | ⟨hno, htotal⟩
    · have hended := isSome_ending_of_program hs hends
      rw [hnone] at hended
      cases hended
    · rw [htotal]
      refine ih ?_
      rcases (Snapshot.notes_step h.upheld hs).ending with hsame | ⟨result, hends⟩
      · exact hsame.symm.trans hnone
      · exact absurd hends (hno result)

/-- The job in which a task runs is ranked no higher than those around it. -/
theorem rank_le_of_runs (h : L.Fits t m) {tr : List TraceEntry} {q : Option JobId}
    {frames : List ProgramFrame} (hr : Runs t L tr q frames) {p g : Nat} (hq : q = some p)
    (hg : 0 < opened g frames) {op og : Origin} (hop : L[p]? = some op) (hog : L[g]? = some og) :
    op.rank ≤ og.rank := by
  induction hr generalizing p op with
  | nothing => cases hq
  | program => exact absurd hg (Nat.lt_irrefl 0)
  | rest _ _ _ ih => exact ih hq hg hop
  | leave _ _ _ _ ih => exact ih hq hg hop
  | catching _ _ ih => exact ih hq hg hop
  | awaited _ _ ih => exact ih hq hg hop
  | @task k =>
    obtain rfl := Option.some.inj hq
    by_cases hkg : k = g
    · subst hkg
      exact Nat.le_of_eq (congrArg Origin.rank (Option.some.inj (hop.symm.trans hog)))
    · simp [ProgramFrame.opens?, hkg] at hg
  | @scope k o _ _ _ _ hk ho _ hr ih =>
    obtain rfl := Option.some.inj hq
    obtain rfl := Option.some.inj (ho.symm.trans hop)
    by_cases hkg : k = g
    · subst hkg
      exact Nat.le_of_eq (congrArg Origin.rank (Option.some.inj (hop.symm.trans hog)))
    · simp only [opened_cons _ (.close k), ProgramFrame.opens?, Option.some.injEq, hkg, if_false,
        Nat.add_zero] at hg
      obtain ⟨hlt, id, head, inner, hmade⟩ := h.made hk ho
      obtain ⟨_, _, _, _, _, hparent⟩ := hmade.place
      have hget := List.getElem?_eq_getElem
        (Nat.lt_trans hlt (List.getElem?_eq_some_iff.1 ho).1 : o.parent < L.length)
      have hrank := (hparent hr.job_ne _ hget).1
      exact Nat.le_trans (Nat.le_of_lt hrank) (ih rfl hg hget)

/-- A task runs in a job of this rank or a lower one. -/
def Snapshot.RanBelow (L : Ledger) (rank : Nat) (s : Snapshot) : Prop :=
  ∃ i task p o, s.machine.dispatcher.task? i = some task ∧ task.on.job? = some p ∧
    L[p]? = some o ∧ o.rank ≤ rank

/-- An open job is to be ended by a task. -/
theorem ranBelow_of_isOpen (h : Snapshot.Upheld t L ⟨m, .idle⟩) {g : Nat} (hg : 2 ≤ g)
    (hopen : IsOpen m g) {og : Origin} (hog : L[g]? = some og) :
    Snapshot.RanBelow L og.rank ⟨m, .idle⟩ := by
  obtain ⟨i, task, hi, hpos⟩ := h.exists_seated hg hopen
  obtain ⟨p, frames', hp, hruns, hsame, hle⟩ := h.exists_runs hi
  have hlt : p < L.length := h.ledger.length ▸ (h.isOpen_of_runs hruns (hle p)).lt
  have hget := List.getElem?_eq_getElem hlt
  exact ⟨i, task, p, _, hi, hp, hget,
    rank_le_of_runs h.ledger hruns rfl (hsame g ▸ hpos) hget hog⟩

/-- A task is suspended in a join of a bare job that nobody has completed. -/
def AwaitsBareJob (t : Statement) (m : ProgramMachine) : Prop :=
  ∃ i task j k w id outer var d signal waiters, m.dispatcher.task? i = some task ∧
    task.on = .wait j k w ∧ task.frames = .leave id :: outer ∧ .leaf id (.join var) ∈ t.nodes ∧
    .leaf d (.job var) ∈ t.nodes ∧ m.env.handles.lookup var = some (.bare signal) ∧
    m.signals[signal]? = some ⟨false, waiters⟩ ∧ w ∈ waiters

/-- No task is ready and no timer is pending. -/
structure Stuck (t : Statement) (L : Ledger) (m : ProgramMachine) : Prop where
  history : History t L ⟨m, .idle⟩
  ready : m.dispatcher.ready = []
  next : m.timetable.clock.next? = none

theorem Stuck.isQueued (h : Stuck t L m) (i : SeatId) : m.dispatcher.isQueued i = false :=
  h.history.upheld.sound.orderly.aligned.isQueued_of_ready h.ready i

/-- What a stuck task waits for is a signal that has not fired. -/
theorem Stuck.unfired (h : Stuck t L m) {i : SeatId} {j : JobId} {k : Nat} {w : WaitId}
    (hw : m.Waits i (.wait j k w)) {source : Option SignalId} (hheeds : m.Heeds w source) :
    ∃ signal waiters, source = some signal ∧ m.signals[signal]? = some ⟨false, waiters⟩ ∧
      w ∈ waiters := by
  rcases hw with ⟨-, hq⟩ | hsleeps
  · exact absurd ((h.isQueued i).symm.trans hq) (by simp)
  · obtain ⟨job, on, -, -, -, hsource⟩ := hsleeps.listed
    cases on with
    | timer =>
      obtain ⟨timer, ht, -⟩ := hsource
      have hlive : m.timetable.timer? k = none :=
        TimerQueue.live_eq_none_of_peek? h.history.upheld.sound.orderly.complete h.next k
      exact absurd (hlive.symm.trans ht) (by simp)
    | signal w' =>
      obtain ⟨rfl, signal, waiters, hs, hmem⟩ := hsource
      exact ⟨signal, waiters, hheeds.only hs hmem, hs, hmem⟩

theorem Stuck.isOpen (h : Stuck t L m) {g : JobId} {signal : SignalId} {waiters : List WaitId}
    (hg : (m.job? g).map (·.completion) = some signal)
    (hs : m.signals[signal]? = some ⟨false, waiters⟩) : IsOpen m g := by
  obtain ⟨job, hjob, rfl⟩ := Option.map_eq_some_iff.1 hg
  refine ⟨_, Machine.bond?_of_job? hjob, ?_⟩
  cases ho : job.bond.outcome with
  | none => rfl
  | some o =>
    have hfired := h.history.upheld.sound.tree.completions.fired (Machine.bond?_of_job? hjob)
      (by rw [ho]; rfl) (by simp)
    have hfired : m.hasFired job.completion = true := hfired
    simp [Machine.hasFired, hs] at hfired

/-- A block that binds what a leaf uses ends before the leaf begins, and so its job is ranked below
that of the leaf. -/
theorem rank_lt_of_uses (ht : t.Valid) (h : L.Fits t m) {tr : List TraceEntry} {j : JobId}
    {id : StatementId} {action : Action} {body : List Statement}
    (hat : At t L tr j (.leaf id action :: body)) {var : String} (hu : action.uses? = some var)
    {g : Nat} (hg : 2 ≤ g) {og : Origin} (hog : L[g]? = some og) {block : Statement}
    (hblock : og.block = some block) (hd : block.declares? = some var) {o : Origin}
    (ho : L[j]? = some o) : og.rank < o.rank := by
  obtain ⟨o', before, ho', hplace, hrank, -⟩ := hat.place
  obtain rfl := Option.some.inj (ho.symm.trans ho')
  obtain ⟨-, gid, head, inner, hmade⟩ := h.made hg hog
  obtain rfl := Option.some.inj (hmade.block.symm.trans hblock)
  obtain ⟨owner, gbefore, rest, hgplace, hgrank, -⟩ := hmade.place
  obtain ⟨d, hmem, hdd⟩ := ht.exists_declaration hplace hu
  obtain rfl := ht.eq_of_declares (hplace.before_mem_nodes hmem) hmade.mem_nodes hdd hd
  obtain ⟨owner', before', rest', hplace', hle⟩ := hplace.exists_before hmem
  obtain ⟨-, rfl⟩ := ht.place_unique hgplace hplace'
  omega

/-- A stuck task that waits for the children of its job has one in which a task runs. -/
theorem Stuck.below_of_children (h : Stuck t L m) {i : SeatId} {task : Task ProgramFrame}
    (hi : m.dispatcher.task? i = some task) {j : Nat} (hon : task.on = .children j) {o : Origin}
    (ho : L[j]? = some o) : ∃ rank, rank < o.rank ∧ Snapshot.RanBelow L rank ⟨m, .idle⟩ := by
  have hup := h.history.upheld
  have hwaits := (hup.seated hi).waits
  rw [hon] at hwaits
  obtain ⟨job, hjob, ⟨-, hq⟩ | ⟨hne, -⟩⟩ := hwaits
  · exact absurd ((h.isQueued i).symm.trans hq) (by simp)
  · obtain ⟨c, hmem⟩ := List.exists_mem_of_ne_nil _ hne
    have hb := Machine.bond?_of_job? hjob
    obtain ⟨-, -, -, hlt, -⟩ := hup.sound.tree.links.child hb hmem
    have hj : 2 ≤ j := (hup.opened_of_children hi hon).1
    have htwo : 2 ≤ c := Nat.le_trans hj (Nat.le_of_lt hlt)
    obtain ⟨hopen, oc, hget, rfl⟩ := hup.listed hb hmem htwo
    obtain ⟨-, _, _, _, hmade⟩ := hup.ledger.made htwo hget
    obtain ⟨_, _, _, _, _, hrank⟩ := hmade.place
    have hlower := hrank (Nat.ne_of_gt hj) o ho
    exact ⟨_, hlower.1, ranBelow_of_isOpen hup htwo hopen hget⟩

/-- When a leaf waits for the job that a handle stands for, a task runs in that job. -/
theorem Stuck.below_of_standsFor (ht : t.Valid) (h : Stuck t L m) {j : JobId} {id : StatementId}
    {action : Action} {body : List Statement}
    (hat : At t L m.env.trace.toList j (.leaf id action :: body)) {var : String}
    (hu : action.uses? = some var) {handle : Referent} (hstands : StandsFor t L var handle)
    {g : JobId} (hg : handle.job? = some g) {signal : SignalId} {waiters : List WaitId}
    (hsignal : Interpreter.signal? handle m = some signal)
    (hs : m.signals[signal]? = some ⟨false, waiters⟩) {o : Origin} (ho : L[j]? = some o) :
    ∃ rank, rank < o.rank ∧ Snapshot.RanBelow L rank ⟨m, .idle⟩ := by
  have hup := h.history.upheld
  cases hstands with
  | task htwo hog hblock =>
    exact ⟨_, rank_lt_of_uses ht hup.ledger hat hu htwo hog hblock rfl ho,
      ranBelow_of_isOpen hup htwo (h.isOpen hsignal hs) hog⟩
  | deferred htwo hog hblock =>
    exact ⟨_, rank_lt_of_uses ht hup.ledger hat hu htwo hog hblock rfl ho,
      ranBelow_of_isOpen hup htwo (h.isOpen hsignal hs) hog⟩
  | bare _ => cases hg

/-- A stuck task waits for a bare job, or a task runs in a job of lower rank. -/
theorem Stuck.descends (ht : t.Valid) (h : Stuck t L m) {i : SeatId} {task : Task ProgramFrame}
    (hi : m.dispatcher.task? i = some task) {p : JobId} (hp : task.on.job? = some p) {o : Origin}
    (ho : L[p]? = some o) :
    AwaitsBareJob t m ∨ ∃ rank, rank < o.rank ∧ Snapshot.RanBelow L rank ⟨m, .idle⟩ := by
  have hb := h.history.bindings ht
  obtain ⟨-, hwaits, hrests⟩ := h.history.upheld.seated hi
  cases hon : task.on with
  | entry j =>
    rw [hon] at hwaits
    exact absurd ((h.isQueued i).symm.trans hwaits) (by simp)
  | turn =>
    rw [hon] at hwaits
    exact absurd hwaits id
  | children j =>
    rw [hon] at hp
    obtain rfl := Option.some.inj hp
    exact .inr (h.below_of_children hi hon ho)
  | wait j k w =>
    rw [hon] at hwaits hrests hp
    obtain rfl := Option.some.inj hp
    generalize hframes : task.frames = frames at hrests
    cases hrests with
    | @wait _ _ _ id inner outer hr hneeds =>
      cases hneeds with
      | delay _ hheeds =>
        obtain ⟨_, _, he, -⟩ := h.unfired hwaits hheeds
        cases he
      | @join var handle _ hmem hlog hsignal hheeds =>
        obtain ⟨signal, waiters, he, hs, hw⟩ := h.unfired hwaits hheeds
        obtain rfl := Option.some.inj he
        obtain ⟨body, hat⟩ := hr.at_of_mem ht hmem rfl
        have hbound := hb.referred hmem rfl hlog
        have hstands := hb.standsFor hbound
        cases hjob : handle.job? with
        | some g => exact .inr (h.below_of_standsFor ht hat rfl hstands hjob hsignal hs ho)
        | none =>
          cases hstands with
          | bare hd =>
            obtain rfl := Option.some.inj hsignal
            exact .inl ⟨i, task, j, k, w, id, outer, var, _, _, waiters, hi, hon, hframes, hmem, hd,
              hb.lookup hbound, hs, hw⟩
          | _ => cases hjob
      | await hmem hlog hsignal hheeds =>
        obtain ⟨signal, waiters, he, hs, -⟩ := h.unfired hwaits hheeds
        obtain rfl := Option.some.inj he
        obtain ⟨body, hat⟩ := hr.at_of_mem ht hmem rfl
        have hstands := hb.standsFor (hb.referred hmem rfl hlog)
        exact .inr (h.below_of_standsFor ht hat rfl hstands rfl hsignal hs ho)

theorem Stuck.awaitsBareJob_of_ranBelow (ht : t.Valid) (h : Stuck t L m) {rank : Nat}
    (hran : Snapshot.RanBelow L rank ⟨m, .idle⟩) : AwaitsBareJob t m := by
  induction rank using Nat.strongRecOn with
  | ind rank ih =>
    obtain ⟨i, task, p, o, hi, hp, ho, hle⟩ := hran
    rcases h.descends ht hi hp ho with hbare | ⟨lower, hlt, hran⟩
    · exact hbare
    · exact ih lower (Nat.lt_of_lt_of_le hlt hle) hran

/-- A run that is stuck before its program has ended waits for a bare job. -/
theorem Stuck.awaitsBareJob (ht : t.Valid) (h : Stuck t L m) (hnone : m.env.ending = none) :
    AwaitsBareJob t m := by
  have hleft := program_left h.history hnone
  obtain ⟨i, task, hi, -⟩ := Dispatcher.exists_of_work_pos
    (fun task : Task ProgramFrame => framesWork ProgramFrame.programs task.frames)
    (show 0 < m.dispatcher.work _ from hleft)
  have hup := h.history.upheld
  obtain ⟨p, frames', hp, hruns, -, hle⟩ := hup.exists_runs hi
  have hlt : p < L.length := hup.ledger.length ▸ (hup.isOpen_of_runs hruns (hle p)).lt
  exact h.awaitsBareJob_of_ranBelow ht
    ⟨i, task, p, _, hi, hp, List.getElem?_eq_getElem hlt, Nat.le_refl _⟩

end RacePuzzle
