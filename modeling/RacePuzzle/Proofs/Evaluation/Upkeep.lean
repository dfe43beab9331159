import RacePuzzle.Proofs.Evaluation.Upheld

/-! Every step of a run upholds what holds in its states. -/
namespace RacePuzzle

open Interpreter

variable {t : Statement} {L L' : Ledger} {m m' : ProgramMachine} {s s' : Snapshot}

namespace Snapshot.Upheld

/-- A task that waits for the children of a job holds the one frame that ends the job. -/
theorem opened_of_children (h : Upheld t L s) {i : SeatId} {task : Task ProgramFrame}
    (hi : s.machine.dispatcher.task? i = some task) {j : Nat} (hon : task.on = .children j) :
    2 ≤ j ∧ s.focus.opened j = 0 := by
  have hle := Dispatcher.le_work (fun task => RacePuzzle.opened j task.frames) hi
  have hpos : 0 < RacePuzzle.opened j task.frames := by
    have hrests := (h.seated hi).rests
    rw [hon] at hrests
    generalize task.frames = frames at hrests
    cases hrests with
    | children _ => simp [ProgramFrame.opens?]
  have hopened : s.opened j =
      s.machine.dispatcher.work (fun task => RacePuzzle.opened j task.frames) + s.focus.opened j :=
    rfl
  rcases h.opened j with ⟨⟨hj, -⟩, hone⟩ | ⟨-, hzero⟩
  · exact ⟨hj, by omega⟩
  · omega

theorem isOpen_of_runs (h : Upheld t L s) {j : Nat} {frames : List ProgramFrame}
    (hr : Runs t L s.machine.env.trace.toList (some j) frames)
    (hle : RacePuzzle.opened j frames ≤ s.opened j) : IsOpen s.machine j := by
  rcases hr.job rfl with rfl | ⟨-, hpos⟩
  · have hlt := h.ledger.two
    have hget : s.machine.job? 0 = some s.machine.jobs[0] :=
      Array.getElem?_eq_getElem (by omega)
    have hb := Machine.bond?_of_job? hget
    exact ⟨_, hb, h.ledger.roots (by omega) hb⟩
  · rcases h.opened j with ⟨⟨-, ho⟩, -⟩ | ⟨-, hzero⟩
    · exact ho
    · omega

/-- One frame is to end an open job. -/
theorem opened_eq_one (h : Upheld t L s) {j : Nat} (hj : 2 ≤ j) (hopen : IsOpen s.machine j) :
    s.opened j = 1 := by
  rcases h.opened j with ⟨-, hone⟩ | ⟨hnot, -⟩
  · exact hone
  · exact absurd ⟨hj, hopen⟩ hnot

/-- An open job is to be ended by a task, where none is polled. -/
theorem exists_seated (h : Upheld t L ⟨m, .idle⟩) {j : Nat} (hj : 2 ≤ j) (hopen : IsOpen m j) :
    ∃ i task, m.dispatcher.task? i = some task ∧ 0 < RacePuzzle.opened j task.frames := by
  have hone : m.dispatcher.work (fun task => RacePuzzle.opened j task.frames) + 0 = 1 :=
    h.opened_eq_one hj hopen
  exact Dispatcher.exists_of_work_pos _ (by omega)

/-- What a task in its seat will run is code of a job, and ends no job that the task does not end. -/
theorem exists_runs (h : Upheld t L s) {i : SeatId} {task : Task ProgramFrame}
    (hi : s.machine.dispatcher.task? i = some task) :
    ∃ (p : Nat) (frames : List ProgramFrame), task.on.job? = some p ∧
      Runs t L s.machine.env.trace.toList (some p) frames ∧
      (∀ k, RacePuzzle.opened k frames = RacePuzzle.opened k task.frames) ∧
      ∀ k, RacePuzzle.opened k frames ≤ s.opened k := by
  obtain ⟨p, frames, hp, hruns, hsame⟩ := (h.seated hi).rests.exists_runs
  refine ⟨p, frames, hp, hruns, hsame, fun k => ?_⟩
  rw [hsame]
  exact Nat.le_trans (Dispatcher.le_work (fun task => RacePuzzle.opened k task.frames) hi)
    (Nat.le_add_right _ _)

theorem exists_parent (h : Upheld t L s) {g : Nat} {o : Origin} (hg : 2 ≤ g) (ho : L[g]? = some o)
    (hopen : IsOpen s.machine g) : ∃ pb, s.machine.bond? o.parent = some pb ∧ g ∈ pb.children := by
  obtain ⟨b, hb, hnone⟩ := hopen
  exact h.sound.tree.links.parent hb (h.ledger.parent hg ho hb hnone) nofun

/-- A job that is listed by its parent is open, and stands in the ledger below it. -/
theorem listed (h : Upheld t L s) {p : Nat} {pb : Bond} (hp : s.machine.bond? p = some pb) {c : Nat}
    (hmem : c ∈ pb.children) (hc : 2 ≤ c) :
    IsOpen s.machine c ∧ ∃ o, L[c]? = some o ∧ o.parent = p := by
  obtain ⟨cb, hcb, hparent, -, hnone⟩ := h.sound.tree.links.exists_child hp hmem
  have hget := List.getElem?_eq_getElem (h.ledger.length ▸ Machine.bond?_lt hcb : c < L.length)
  exact ⟨⟨cb, hcb, hnone⟩, _, hget,
    Option.some.inj ((h.ledger.parent hc hget hcb hnone).symm.trans hparent)⟩

/-- A change of the machine leaves no task in the focus, or the same one at its next frames. -/
inductive Turns (t : Statement) (L' : Ledger) (m' : ProgramMachine) : Focus → Focus → Prop
  | idle : Turns t L' m' .idle .idle
  | running {seat ticket frames result frames' result'} : Ready t L' m' result' frames' →
      Turns t L' m' (.running seat ticket frames result) (.running seat ticket frames' result')

/-- A change of the machine that keeps the tasks in their seats and may add some. -/
theorem evolve {f f' : Focus} {allowed : Suspension → Prop} (h : Upheld t L ⟨m, f⟩)
    (hL : L <+: L') (hs : m'.Sound) (hl : L'.Fits t m') (he : m.Evolves allowed m')
    (hallowed : ∀ {i task}, m.dispatcher.task? i = some task → allowed task.on)
    (htr : m.env.trace.toList <+: m'.env.trace.toList)
    (hbg : m'.env.background = m.env.background) (hh : HandlesKnown m')
    (hsize : m.dispatcher.seats.size ≤ m'.dispatcher.seats.size)
    (hsame : ∀ i, i < m.dispatcher.seats.size → m'.dispatcher.task? i = m.dispatcher.task? i)
    (hnew : ∀ i, m.dispatcher.seats.size ≤ i → i < m'.dispatcher.seats.size →
      ∃ task j, m'.dispatcher.task? i = some task ∧ task.on = .entry j ∧ Seated t L' m' i task)
    (hturns : Turns t L' m' f f')
    (hopened : ∀ j : Nat,
      (2 ≤ j ∧ IsOpen m' j) ∧ Snapshot.opened j ⟨m', f'⟩ = 1 ∨
      ¬ (2 ≤ j ∧ IsOpen m' j) ∧ Snapshot.opened j ⟨m', f'⟩ = 0) :
    Follows t L' m ⟨m', f'⟩ := by
  have haligned := h.sound.orderly.aligned
  have hticket : ∀ {i}, i < m.dispatcher.seats.size → i < m.dispatcher.tickets.size :=
    fun hi => Nat.lt_of_lt_of_eq hi haligned.size.symm
  -- a task sat in its seat before, or begins with its entry
  have hcases : ∀ {i task}, m'.dispatcher.task? i = some task →
      i < m.dispatcher.seats.size ∧ m.dispatcher.task? i = some task ∨
        (∃ j, task.on = .entry j) ∧ Seated t L' m' i task := by
    intro i task hi
    by_cases hlt : i < m.dispatcher.seats.size
    · exact .inl ⟨hlt, (hsame i hlt).symm.trans hi⟩
    · obtain ⟨task', j, hi', hon, hseated⟩ := hnew i (Nat.le_of_not_lt hlt) (Dispatcher.lt_of_task? hi)
      obtain rfl := Option.some.inj (hi'.symm.trans hi)
      exact .inr ⟨⟨j, hon⟩, hseated⟩
  refine ⟨⟨hs, hl, hbg.trans h.background, hh, fun {i task} hi => ?_,
    fun {i i' task task' j j' k w w'} hi hi' hon hon' => ?_, fun {i task j k w} hi hon => ?_,
    fun {seat' ticket' fs r} hf => ?_, hopened, fun {i} hi hout => ?_⟩,
    ⟨he.cancelled, he.fired, he.bond, htr⟩⟩
  · rcases hcases hi with ⟨hlt, hold⟩ | ⟨-, hseated⟩
    · have hseated := h.seated hold
      exact ⟨(he.finished (hticket hlt)).trans hseated.unfinished,
        he.waits (hticket hlt) hseated.unfinished (hallowed hold) hseated.waits,
        hseated.rests.mono he hL htr⟩
    · exact hseated
  · rcases hcases hi with ⟨-, hold⟩ | ⟨⟨g, hg⟩, -⟩
    · rcases hcases hi' with ⟨-, hold'⟩ | ⟨⟨g, hg⟩, -⟩
      · exact h.numbers hold hold' hon hon'
      · exact absurd (hg.symm.trans hon') (by simp)
    · exact absurd (hg.symm.trans hon) (by simp)
  · rcases hcases hi with ⟨-, hold⟩ | ⟨⟨g, hg⟩, -⟩
    · exact Nat.lt_of_lt_of_le (h.numbered hold hon) he.nextSeq
    · exact absurd (hg.symm.trans hon) (by simp)
  · cases hturns with
    | idle => cases hf
    | running hready =>
      cases hf
      have hp := h.polled rfl
      exact ⟨hp.ticket_eq, Nat.lt_of_lt_of_le hp.lt hsize, (hsame _ hp.lt).trans hp.out,
        (he.finished (hticket hp.lt)).trans hp.unfinished, hready⟩
  · by_cases hlt : i < m.dispatcher.seats.size
    · rcases h.gone hlt ((hsame i hlt).symm.trans hout) with hf | ⟨_, _, _, rfl⟩
      · exact .inl ((he.finished (hticket hlt)).trans hf)
      · cases hturns with
        | running _ => exact .inr ⟨_, _, _, rfl⟩
    · obtain ⟨task, j, hi', -⟩ := hnew i (Nat.le_of_not_lt hlt) hi
      exact absurd (hi'.symm.trans hout) (by simp)

section Code

variable {seat : SeatId} {ticket : Ticket} {frames frames' : List ProgramFrame}
  {result result' : Completion}

theorem opened_running (j : JobId) (m : ProgramMachine) (seat : SeatId) (ticket : Ticket)
    (frames : List ProgramFrame) (result : Completion) :
    Snapshot.opened j ⟨m, .running seat ticket frames result⟩ =
      m.work (fun task => RacePuzzle.opened j task.frames) + RacePuzzle.opened j frames := rfl

/-- No task waits for the children of a job that the polled task will end. -/
theorem not_children (h : Upheld t L ⟨m, .running seat ticket frames result⟩) {j : Nat}
    (hj : j = 0 ∨ 2 ≤ j ∧ 0 < RacePuzzle.opened j frames) {i : SeatId} {task : Task ProgramFrame}
    (hi : m.dispatcher.task? i = some task) : task.on ≠ .children j := by
  intro hon
  obtain ⟨htwo, hzero⟩ := h.opened_of_children hi hon
  rcases hj with rfl | ⟨-, hpos⟩
  · omega
  · exact absurd hzero (Nat.pos_iff_ne_zero.1 hpos)

theorem quiet (h : Upheld t L ⟨m, .running seat ticket frames result⟩) (hq : Quiet m m')
    (hready : Ready t L m' result' frames')
    (hopened : ∀ j, RacePuzzle.opened j frames' = RacePuzzle.opened j frames) :
    Follows t L m ⟨m', .running seat ticket frames' result'⟩ := by
  refine h.evolve (List.prefix_refl L) hq.sound (h.ledger.congr hq.bond)
    (show m.Evolves (fun _ => True) m' from hq.evolves) (fun _ => trivial) hq.trace hq.background
    hq.handles
    (Nat.le_of_eq (by rw [hq.seats])) (fun i _ => Dispatcher.task?_of_seats hq.seats i)
    (fun i hge hlt => ?_) (.running hready) fun j => ?_
  · rw [hq.seats] at hlt
    exact absurd hlt (Nat.not_lt_of_le hge)
  · rw [opened_running, hopened, Machine.work_congr _ hq.seats, isOpen_congr hq.bond,
      ← opened_running _ _ seat ticket _ result]
    exact h.opened j

theorem opened_eq_zero_of_new (h : Upheld t L s) : s.opened s.machine.jobs.size = 0 := by
  rcases h.opened s.machine.jobs.size with ⟨⟨-, ho⟩, -⟩ | ⟨-, hzero⟩
  · exact absurd ho.lt (Nat.lt_irrefl _)
  · exact hzero

theorem sound_child (h : Upheld t L s) {p : JobId} (hp : IsOpen s.machine p) (kind : JobRole) :
    (s.machine.child p kind).2.Sound := by
  obtain ⟨b, hb, ho⟩ := hp
  obtain ⟨pj, hpj, rfl⟩ := Machine.bond?_eq_some.1 hb
  exact h.sound.child hpj ho kind

theorem handles_child (h : Upheld t L s) {p : JobId} (hp : IsOpen s.machine p) (kind : JobRole) :
    HandlesKnown (s.machine.child p kind).2 := by
  obtain ⟨pb, hb, -⟩ := hp
  have hsize : (s.machine.child p kind).2.jobs.size = s.machine.jobs.size + 1 := by
    simp [Machine.child, Machine.newJob, Machine.newSignal, Machine.updateJob]
  intro q hq
  have hk := h.handles q hq
  cases hq2 : q.2 with
  | task g =>
    rw [hq2] at hk
    exact ⟨hk.1, hsize ▸ Nat.lt_succ_of_lt hk.2⟩
  | deferred g result =>
    rw [hq2] at hk
    exact ⟨hk.1, hsize ▸ Nat.lt_succ_of_lt hk.2⟩
  | bare σ =>
    rw [hq2] at hk
    refine ⟨?_, fun g b' hg => ?_⟩
    · rw [Machine.size_signals_child]
      exact Nat.lt_succ_of_lt hk.1
    · by_cases hn : g = s.machine.jobs.size
      · subst hn
        rw [Machine.bond?_child_new hb hg]
        exact (Nat.ne_of_lt hk.1).symm
      · obtain ⟨b, hgb, hgrown⟩ := Machine.grown_of_bond?_child hb hg hn
        rw [hgrown.completion]
        exact hk.2 g b hgb

/-- Of the jobs that are open after a job has been made, each is to be ended once, if that one is. -/
theorem opened_child (h : Upheld t L s) {p : JobId} {pb : Bond} (hp : s.machine.bond? p = some pb)
    (kind : JobRole) (k : JobId) {n : Nat}
    (hn : n = s.opened k + if k = s.machine.jobs.size then 1 else 0) :
    (2 ≤ k ∧ IsOpen (s.machine.child p kind).2 k) ∧ n = 1 ∨
      ¬ (2 ≤ k ∧ IsOpen (s.machine.child p kind).2 k) ∧ n = 0 := by
  rw [hn, isOpen_child hp]
  by_cases hk : k = s.machine.jobs.size
  · subst hk
    rw [h.opened_eq_zero_of_new]
    exact .inl ⟨⟨h.ledger.two, .inl rfl⟩, by simp⟩
  · simpa [hk] using h.opened k

theorem enterScope {id : StatementId} {j : Nat} {head : Head} {inner body : List Statement}
    {outer : List ProgramFrame}
    (h : Upheld t L ⟨m, .running seat ticket (.leave id :: .rest j body :: outer) (.ok ())⟩)
    (hr : Runs t L m.env.trace.toList (some j) (.leave id :: .rest j body :: outer))
    (hat : At t L m.env.trace.toList j (.block id head inner :: body)) (hm : head.makesJob)
    (kind : JobRole) :
    ∃ rank, Follows t (L ++ [⟨j, some (.block id head inner), rank⟩]) m
      ⟨(m.child j kind).2, .running seat ticket
        (.rest (m.child j kind).1 inner :: .close (m.child j kind).1 :: .leave id ::
          .rest j body :: outer) (.ok ())⟩ := by
  have hopen : IsOpen m j := h.isOpen_of_runs hr (Nat.le_add_left _ _)
  obtain ⟨pb, hb, ho⟩ := hopen
  obtain ⟨rank, hmade, hnew⟩ := hat.made hm hr.job_ne (.inl rfl)
  have hget := h.ledger.getElem?_new ⟨j, some (.block id head inner), rank⟩
  have hL : L <+: L ++ [⟨j, some (.block id head inner), rank⟩] := List.prefix_append L _
  have htwo : 2 ≤ m.jobs.size := h.ledger.two
  refine ⟨rank, h.evolve hL (h.sound_child ⟨pb, hb, ho⟩ kind)
    (h.ledger.child hb kind rfl hmade) (Machine.evolves_child m j kind)
    (h.not_children (hr.job rfl)) (List.prefix_refl _) rfl (h.handles_child ⟨pb, hb, ho⟩ kind)
    (Nat.le_refl _) (fun _ _ => rfl) (fun i hge hlt => absurd hlt (Nat.not_lt_of_le hge)) ?_
    fun k => ?_⟩
  · refine .running (.runs (.rest (hnew _ _ hL hget) trivial
      (.scope htwo hget rfl (hr.mono hL (List.prefix_refl _)))))
  · have hfirst : (m.child j kind).1 = m.jobs.size := rfl
    have hwork : (m.child j kind).2.work (fun task => RacePuzzle.opened k task.frames) =
        m.work (fun task => RacePuzzle.opened k task.frames) := Machine.work_congr _ rfl
    refine h.opened_child hb kind k ?_
    simp only [opened_running, hwork, opened_cons, ProgramFrame.opens?, hfirst, reduceCtorEq,
      if_false, Nat.add_zero, Option.some.injEq, eq_comm (a := k), Nat.add_assoc]

theorem launch {id : StatementId} {j p : Nat} {head : Head} {inner body : List Statement}
    {outer : List ProgramFrame}
    (h : Upheld t L ⟨m, .running seat ticket (.leave id :: .rest j body :: outer) (.ok ())⟩)
    (hr : Runs t L m.env.trace.toList (some j) (.leave id :: .rest j body :: outer))
    (hat : At t L m.env.trace.toList j (.block id head inner :: body)) (hm : head.makesJob)
    (hs : head.isScope = false) (hp : p = j ∨ p = 1 ∧ head = .scopeLaunch) :
    ∃ rank, Follows t (L ++ [⟨p, some (.block id head inner), rank⟩]) m
      ⟨(Interpreter.launch p inner m).2,
        .running seat ticket (.leave id :: .rest j body :: outer) (.ok ())⟩ := by
  have hopen : IsOpen m p := by
    rcases hp with rfl | ⟨rfl, -⟩
    · exact h.isOpen_of_runs hr (Nat.le_add_left _ _)
    · have hlt : 2 ≤ m.jobs.size := h.ledger.two
      have hget : m.job? 1 = some m.jobs[1] := Array.getElem?_eq_getElem (by omega)
      exact ⟨_, Machine.bond?_of_job? hget, h.ledger.roots (by omega) (Machine.bond?_of_job? hget)⟩
  obtain ⟨pb, hb, ho⟩ := hopen
  obtain ⟨rank, hmade, hnew⟩ := hat.made hm hr.job_ne hp
  have hget := h.ledger.getElem?_new ⟨p, some (.block id head inner), rank⟩
  have hL : L <+: L ++ [⟨p, some (.block id head inner), rank⟩] := List.prefix_append L _
  have htwo : 2 ≤ m.jobs.size := h.ledger.two
  have hsound := h.sound_child ⟨pb, hb, ho⟩ .task
  have haligned := h.sound.orderly.aligned
  have hfits := h.ledger.child hb .task rfl hmade
  refine ⟨rank, h.evolve hL (hsound.spawn _) (hfits.congr fun _ => rfl)
    ((Machine.evolves_child m p .task).trans (Machine.evolves_spawn _ _)) (fun {i task} hi => ?_)
    (List.prefix_refl _) rfl (h.handles_child ⟨pb, hb, ho⟩ .task) ?_ (fun i hi => ?_)
    (fun i hge hlt => ?_) (.running (.runs (hr.mono hL (List.prefix_refl _)))) fun k => ?_⟩
  · rcases hp with rfl | ⟨rfl, -⟩
    · exact h.not_children (hr.job rfl) hi
    · intro hon
      exact absurd (h.opened_of_children hi hon).1 (by omega)
  · simp [Interpreter.launch, Machine.spawn, Dispatcher.spawn]
  · exact (Dispatcher.task?_spawn ..).trans (if_neg (Nat.ne_of_lt hi))
  · have hi : i = m.dispatcher.seats.size := by
      have hlt' : i < m.dispatcher.seats.size + 1 := by
        simpa [Interpreter.launch, Machine.spawn, Dispatcher.spawn] using hlt
      exact Nat.le_antisymm (Nat.le_of_lt_succ hlt') hge
    subst hi
    refine ⟨_, m.jobs.size, (Dispatcher.task?_spawn ..).trans (if_pos rfl), rfl, ?_, ?_, ?_⟩
    · simp [Interpreter.launch, Machine.spawn, Dispatcher.spawn, Dispatcher.hasFinished,
        ← haligned.size, Machine.child, Machine.newJob, Machine.newSignal, Machine.updateJob]
    · simp [Interpreter.launch, Machine.Waits, Machine.spawn, Dispatcher.spawn,
        Dispatcher.isQueued, ← haligned.size, Machine.child, Machine.newJob, Machine.newSignal,
        Machine.updateJob]
    · exact .entry trivial (.rest (hnew _ _ hL hget) trivial (.task htwo hget rfl hs))
  · have hfirst : (m.child p .task).1 = m.jobs.size := rfl
    have hwork : (m.child p .task).2.work (fun task => RacePuzzle.opened k task.frames) =
        m.work (fun task => RacePuzzle.opened k task.frames) := Machine.work_congr _ rfl
    have hisOpen : IsOpen (Interpreter.launch p inner m).2 k ↔ IsOpen (m.child p .task).2 k :=
      isOpen_congr (fun _ => rfl) k
    rw [hisOpen]
    refine h.opened_child hb .task k ?_
    simp only [opened_running, Interpreter.launch, Machine.work_spawn, hwork, hfirst, opened_cons,
      opened_nil, ProgramFrame.opens?, reduceCtorEq, if_false, Nat.add_zero, Option.some.injEq,
      eq_comm (a := k)]
    omega

theorem settled {j : Nat} {frame : ProgramFrame} {outer : List ProgramFrame} {o : Outcome}
    {c : SignalId} {q : Option JobId}
    (h : Upheld t L ⟨m, .running seat ticket (frame :: outer) result⟩) (hj : 2 ≤ j)
    (hframe : frame.opens? = some j) (hs : m'.Sound)
    (he : m.Evolves (fun on => on ≠ .children j) m') (hset : Machine.Settles j o c m m')
    (hseats : m'.dispatcher.seats = m.dispatcher.seats)
    (hr : Runs t L m.env.trace.toList q outer) :
    Follows t L m ⟨m', .running seat ticket outer result'⟩ := by
  have hrunning : RacePuzzle.opened j (frame :: outer) = RacePuzzle.opened j outer + 1 := by
    simp [hframe]
  have hone := opened_running j m seat ticket (frame :: outer) result
  have hcountj := h.opened j
  have htrace : m.env.trace.toList <+: m'.env.trace.toList := hset.env ▸ List.prefix_refl _
  refine h.evolve (List.prefix_refl L) hs (h.ledger.settles hj hset) he
    (h.not_children (.inr ⟨hj, by omega⟩)) htrace (by rw [hset.env]) ?_
    (Nat.le_of_eq (by rw [hseats])) (fun i _ => Dispatcher.task?_of_seats hseats i)
    (fun i hge hlt => ?_) ?_ fun k => ?_
  · have hsize := hset.bond.size
    intro p hp
    rw [hset.env] at hp
    have hk := h.handles p hp
    cases hp2 : p.2 with
    | task g =>
      rw [hp2] at hk
      exact ⟨hk.1, hsize ▸ hk.2⟩
    | deferred g r =>
      rw [hp2] at hk
      exact ⟨hk.1, hsize ▸ hk.2⟩
    | bare σ =>
      rw [hp2] at hk
      refine ⟨hset.size ▸ hk.1, fun g b hg => ?_⟩
      obtain ⟨b₀, hb₀, rfl⟩ := hset.bond.old hg
      exact hk.2 g b₀ hb₀
  · rw [hseats] at hlt
    exact absurd hlt (Nat.not_lt_of_le hge)
  · refine .running (.runs (q := q) ?_)
    rw [hset.env]
    exact hr
  · rw [opened_running, Machine.work_congr _ hseats, isOpen_settles hset]
    have hk := h.opened k
    rw [opened_running] at hk hcountj
    by_cases hkj : k = j
    · subst hkj
      refine .inr ⟨fun hc => hc.2.1 rfl, ?_⟩
      rcases hcountj with ⟨-, hc⟩ | ⟨-, hc⟩ <;> omega
    · have hframe' : RacePuzzle.opened k (frame :: outer) = RacePuzzle.opened k outer := by
        simp [hframe, Ne.symm hkj]
      rw [hframe'] at hk
      simpa [hkj] using hk

end Code

end Snapshot.Upheld

end RacePuzzle
