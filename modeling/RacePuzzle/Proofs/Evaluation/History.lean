import RacePuzzle.Proofs.Evaluation.Polling

/-! The history of a run: its states together with the ledger of the jobs made so far. What holds
in every state of a run is upheld by every step. -/
namespace RacePuzzle

open Interpreter

/-- The parent of the job that a block makes when it begins in `job`. -/
def Head.parent? (job : JobId) : Head → Option JobId
  | .tryCatch _ => none
  | .scopeLaunch => some 1
  | _ => some job

/-- The parent and the block of the job that the next step makes. -/
def Snapshot.makes? (s : Snapshot) : Option (JobId × Statement) :=
  match s.focus with
  | .running _ _ (.rest job (.block id head inner :: _) :: _) (.ok ()) =>
    (head.parent? job).map (·, .block id head inner)
  | _ => none

theorem Snapshot.makes?_error (m : ProgramMachine) (seat : SeatId) (ticket : Ticket)
    (frames : List ProgramFrame) (kind : ExceptionKind) :
    Snapshot.makes? ⟨m, .running seat ticket frames (.error kind)⟩ = none := by
  unfold makes?
  split
  · next h => cases h
  · rfl

inductive Snapshot.Records (s : Snapshot) (L : Ledger) : Ledger → Prop
  | nothing : s.makes? = none → Records s L L
  | job {p block rank} : s.makes? = some (p, block) → Records s L (L ++ [⟨p, some block, rank⟩])

variable {t : Statement} {L L' : Ledger} {m m' : ProgramMachine} {s s' : Snapshot}

namespace Snapshot.Upheld

section Code

variable {seat : SeatId} {ticket : Ticket} {frames frames' outer : List ProgramFrame}
  {result result' : Completion}

theorem pass {frame : ProgramFrame} {kind : ExceptionKind}
    (h : Upheld t L ⟨m, .running seat ticket (frame :: outer) (.error kind)⟩)
    (hframe : frame.passesErrors) : Follows t L m ⟨m, .running seat ticket outer (.error kind)⟩ := by
  have hquiet : Quiet m m := .refl h.sound h.handles
  cases (h.polled rfl).ready with
  | runs hr =>
    cases hr with
    | program => cases hframe
    | rest _ _ hr => exact h.quiet hquiet (.runs hr) fun _ => by simp [ProgramFrame.opens?]
    | leave _ _ hout hr =>
      exact h.quiet hquiet (.failing hout hr) fun _ => by simp [ProgramFrame.opens?]
    | catching _ _ => cases hframe
    | awaited _ hr => exact h.quiet hquiet (.runs hr) fun _ => by simp [ProgramFrame.opens?]
    | task _ _ _ _ => cases hframe
    | scope _ _ _ _ => cases hframe
  | failing _ hr => exact h.quiet hquiet (.runs hr) fun _ => by simp [ProgramFrame.opens?]
  | settling _ _ _ => cases hframe

theorem bodyEnd {j : JobId}
    (h : Upheld t L ⟨m, .running seat ticket (.rest j [] :: outer) (.ok ())⟩) :
    Follows t L m ⟨m, .running seat ticket outer (.ok ())⟩ := by
  cases (h.polled rfl).ready with
  | runs hr =>
    cases hr with
    | rest _ _ hr =>
      exact h.quiet (.refl h.sound h.handles) (.runs hr) fun _ => by simp [ProgramFrame.opens?]

theorem begin {j : JobId} {s : Statement} {body : List Statement}
    (h : Upheld t L ⟨m, .running seat ticket (.rest j (s :: body) :: outer) (.ok ())⟩) :
    Follows t L m ⟨record s.id .began m,
        .running seat ticket (.leave s.id :: .rest j body :: outer) (.ok ())⟩ ∧
      Runs t L (record s.id .began m).env.trace.toList (some j)
        (.leave s.id :: .rest j body :: outer) ∧
      At t L (record s.id .began m).env.trace.toList j (s :: body) := by
  have hquiet := quiet_record h.sound h.handles s.id .began
  cases (h.polled rfl).ready with
  | runs hr =>
    cases hr with
    | rest hat hout hr =>
      have hat' := hat.mono (List.prefix_refl L) hquiet.trace
      have hr' := Runs.leave hat' (logged_record m s.id .began) hout
        (hr.mono (List.prefix_refl L) hquiet.trace)
      exact ⟨h.quiet hquiet (.runs hr') fun _ => by simp [ProgramFrame.opens?], hr', hat'⟩

theorem acts {j : JobId} {id : StatementId} {action : Action} {body : List Statement}
    (h : Upheld t L
      ⟨m, .running seat ticket (.rest j (.leaf id action :: body) :: outer) (.ok ())⟩) :
    Acts t ticket j id (record id .began m) (performAction ticket j id action (record id .began m)) := by
  obtain ⟨⟨h₁, hk⟩, hr, hat⟩ := h.begin
  have hj := (h₁.isOpen_of_runs hr (Nat.le_add_left _ _)).lt
  exact acts_performAction h₁.sound h₁.handles hj hat.head_mem_nodes

theorem act {j : JobId} {id : StatementId} {action : Action} {body : List Statement}
    (h : Upheld t L ⟨m, .running seat ticket (.rest j (.leaf id action :: body) :: outer) (.ok ())⟩)
    (he : performAction ticket j id action (record id .began m) = (.ended result, m')) :
    Follows t L m ⟨m', .running seat ticket (.leave id :: .rest j body :: outer) result⟩ := by
  obtain ⟨⟨h₁, hk⟩, hr, hat⟩ := h.begin
  have hacts := h.acts
  rw [he] at hacts
  cases hacts with
  | ended hq =>
    exact (h₁.quiet hq (.runs (hr.mono (List.prefix_refl L) hq.trace)) fun _ => rfl).after hk

theorem enter {j : JobId} {id : StatementId} {head : Head} {inner body : List Statement}
    (h : Upheld t L
      ⟨m, .running seat ticket (.rest j (.block id head inner :: body) :: outer) (.ok ())⟩) :
    ∃ L', Records
        ⟨m, .running seat ticket (.rest j (.block id head inner :: body) :: outer) (.ok ())⟩ L L' ∧
      Follows t L' m ⟨(Interpreter.enter j id head inner (record id .began m)).2,
        .running seat ticket ((Interpreter.enter j id head inner (record id .began m)).1 ++
          .leave id :: .rest j body :: outer) (.ok ())⟩ := by
  obtain ⟨⟨h₁, hk⟩, hr, hat⟩ := h.begin
  have hbind : ∀ {L'} (var : String) (handle : Referent), L <+: L' →
      Follows t L' m ⟨(Interpreter.launch j inner (record id .began m)).2,
        .running seat ticket (.leave id :: .rest j body :: outer) (.ok ())⟩ →
      Known (Interpreter.launch j inner (record id .began m)).2 handle →
      Follows t L' m ⟨bind id var handle (Interpreter.launch j inner (record id .began m)).2,
        .running seat ticket (.leave id :: .rest j body :: outer) (.ok ())⟩ := by
    intro L' var handle hL h₂ hknown
    have hq := quiet_bind h₂.upheld.sound h₂.upheld.handles id var hknown
    exact (h₂.upheld.quiet hq (.runs (hr.mono hL hq.trace)) fun _ => rfl).after h₂.kept
  have hknown : 2 ≤ m.jobs.size ∧
      m.jobs.size < (Interpreter.launch j inner (record id .began m)).2.jobs.size := by
    refine ⟨h₁.ledger.two, ?_⟩
    simp [Interpreter.launch, Machine.spawn, Machine.child, Machine.newJob, Machine.newSignal,
      Machine.updateJob, record, Machine.updateEnv]
  cases head with
  | launch =>
    obtain ⟨rank, h₂⟩ := h₁.launch hr hat rfl rfl (.inl rfl)
    exact ⟨_, .job rfl, h₂.after hk⟩
  | scopeLaunch =>
    obtain ⟨rank, h₂⟩ := h₁.launch hr hat rfl rfl (.inr ⟨rfl, rfl⟩)
    refine ⟨L ++ [⟨1, some (.block id .scopeLaunch inner), rank⟩], .job rfl, ?_⟩
    simp only [Interpreter.enter, show (record id .began m).env.background = 1 from h₁.background]
    exact h₂.after hk
  | launchJob var =>
    obtain ⟨rank, h₂⟩ := h₁.launch hr hat rfl rfl (.inl rfl)
    exact ⟨_, .job rfl, hbind var _ (List.prefix_append ..) (h₂.after hk) hknown⟩
  | async var text =>
    obtain ⟨rank, h₂⟩ := h₁.launch hr hat rfl rfl (.inl rfl)
    exact ⟨_, .job rfl, hbind var _ (List.prefix_append ..) (h₂.after hk) hknown⟩
  | coroutineScope =>
    obtain ⟨rank, h₂⟩ := h₁.enterScope hr hat rfl .scope
    exact ⟨_, .job rfl, h₂.after hk⟩
  | supervisorScope =>
    obtain ⟨rank, h₂⟩ := h₁.enterScope hr hat rfl .supervisor
    exact ⟨_, .job rfl, h₂.after hk⟩
  | tryCatch kind =>
    refine ⟨L, .nothing rfl, (h₁.quiet (.refl h₁.sound h₁.handles)
      (.runs (.rest hat.inside (by trivial) (.catching hat.head_mem_nodes hr))) fun _ => ?_).after hk⟩
    simp [ProgramFrame.opens?, Statement.id]

theorem leave {id : StatementId}
    (h : Upheld t L ⟨m, .running seat ticket (.leave id :: outer) (.ok ())⟩) :
    Follows t L m ⟨record id .ended m, .running seat ticket outer (.ok ())⟩ := by
  have hquiet := quiet_record h.sound h.handles id .ended
  cases (h.polled rfl).ready with
  | runs hr =>
    cases hr with
    | leave hat _ hout hr =>
      have hat' := (hat.mono (List.prefix_refl L) hquiet.trace).next (logged_record m _ .ended)
      exact h.quiet hquiet (.runs (.rest hat' hout (hr.mono (List.prefix_refl L) hquiet.trace)))
        fun _ => by simp [ProgramFrame.opens?]

theorem catching {id : StatementId} {kind : ExceptionKind}
    (h : Upheld t L ⟨m, .running seat ticket (.catching id kind :: outer) result⟩)
    (he : catchException id kind result m = (.ended result', m')) :
    Follows t L m ⟨m', .running seat ticket outer result'⟩ := by
  have hquiet := quiet_catchException h.sound h.handles he
  cases (h.polled rfl).ready with
  | runs hr =>
    cases hr with
    | catching _ hr =>
      exact h.quiet hquiet (.runs (hr.mono (List.prefix_refl L) hquiet.trace))
        fun _ => by simp [ProgramFrame.opens?]

theorem awaited {id : StatementId} {j : JobId} {text : String}
    (h : Upheld t L ⟨m, .running seat ticket (.awaited id j text :: outer) (.ok ())⟩)
    (he : printResult id j text m = (.ended result', m')) :
    Follows t L m ⟨m', .running seat ticket outer result'⟩ := by
  have hquiet := quiet_printResult h.sound h.handles id j text
  rw [he] at hquiet
  cases (h.polled rfl).ready with
  | runs hr =>
    cases hr with
    | awaited _ hr =>
      exact h.quiet hquiet (.runs (hr.mono (List.prefix_refl L) hquiet.trace))
        fun _ => by simp [ProgramFrame.opens?]

theorem program (h : Upheld t L ⟨m, .running seat ticket (.program :: outer) result⟩) :
    Follows t L m ⟨endProgram result m, .running seat ticket outer result⟩ := by
  have hquiet := quiet_endProgram h.sound h.handles result
  cases (h.polled rfl).ready with
  | runs hr =>
    cases hr with
    | program => exact h.quiet hquiet (.runs .nothing) fun _ => by simp [ProgramFrame.opens?]

/-- The frames below the end of a job's own code. -/
theorem runs_close {j : JobId}
    (h : Upheld t L ⟨m, .running seat ticket (.close j :: outer) result⟩) :
    2 ≤ j ∧ Runs t L m.env.trace.toList (some j) (.close j :: outer) ∧
      ∃ q, Runs t L m.env.trace.toList q outer := by
  cases (h.polled rfl).ready with
  | runs hr =>
    cases hr with
    | task hj ho hb hs => exact ⟨hj, .task hj ho hb hs, none, .nothing⟩
    | scope hj ho hb hr => exact ⟨hj, .scope hj ho hb hr, _, hr⟩

theorem close {j : JobId} (h : Upheld t L ⟨m, .running seat ticket (.close j :: outer) result⟩)
    (he : Interpreter.close ticket j result m = (.ended result', m')) :
    Follows t L m ⟨m', .running seat ticket outer result'⟩ := by
  obtain ⟨hj, hr, q, hout⟩ := h.runs_close
  obtain ⟨b, hb, ho⟩ := h.isOpen_of_runs hr (Nat.le_add_left _ _)
  have hcloses := Machine.closes_close h.sound hb ho ticket result
  have hseats := Machine.seats_close m ticket j result
  unfold Interpreter.close Reached.afterClose at he
  match hc : m.close ticket j result with
  | (some o, m₁) =>
    rw [hc] at he hcloses hseats
    obtain ⟨-, rfl⟩ := Prod.mk.inj he
    cases hcloses with
    | settles hs hev hset => exact h.settled hj rfl hs hev hset hseats hout
  | (none, m₁) =>
    rw [hc] at he
    simp at he

theorem settle {j : JobId}
    (h : Upheld t L ⟨m, .running seat ticket (.settle j :: outer) result⟩) :
    Follows t L m ⟨(m.settle j).2, .running seat ticket outer (m.settle j).1.completion⟩ := by
  have hready := (h.polled rfl).ready
  cases hready with
  | runs hr => cases hr
  | settling hr hb hnone =>
    have hj : 2 ≤ j ∧ ∃ q, Runs t L m.env.trace.toList q outer := by
      cases hr with
      | task hj _ _ _ => exact ⟨hj, none, .nothing⟩
      | scope hj _ _ hr => exact ⟨hj, _, hr⟩
    obtain ⟨hj, q, hout⟩ := hj
    have hopen : IsOpen m j := h.isOpen_of_runs hr (by simp [Snapshot.opened, Focus.opened,
      ProgramFrame.opens?])
    obtain ⟨b', hb', ho⟩ := hopen
    obtain rfl := Option.some.inj (hb.symm.trans hb')
    obtain ⟨job, hjob, rfl⟩ := Machine.bond?_eq_some.1 hb
    obtain ⟨-, hset⟩ := Machine.settles_settle h.sound.tree hjob hnone
    exact h.settled hj rfl (h.sound.settle hjob hnone)
      (Machine.evolves_settle h.sound.tree hjob hnone ho) hset (Machine.seats_settle ..) hout

theorem code (h : Upheld t L ⟨m, .running seat ticket frames result⟩)
    (hs : Thread.Step ticket ⟨frames, result, m⟩ ⟨frames', result', m'⟩) :
    ∃ L', Records ⟨m, .running seat ticket frames result⟩ L L' ∧
      Follows t L' m ⟨m', .running seat ticket frames' result'⟩ := by
  cases hs with
  | pass hframe => exact ⟨L, .nothing (makes?_error ..), h.pass hframe⟩
  | bodyEnd => exact ⟨L, .nothing rfl, h.bodyEnd⟩
  | act he => exact ⟨L, .nothing rfl, h.act he⟩
  | enter => exact h.enter
  | leave => exact ⟨L, .nothing rfl, h.leave⟩
  | catching he => exact ⟨L, .nothing rfl, h.catching he⟩
  | close he => exact ⟨L, .nothing rfl, h.close he⟩
  | settle => exact ⟨L, .nothing rfl, h.settle⟩
  | awaited he => exact ⟨L, .nothing rfl, h.awaited he⟩
  | program => exact ⟨L, .nothing rfl, h.program⟩

/-- A change in which the frames stay, no job is made and none settles. -/
theorem steady {allowed : Suspension → Prop}
    (h : Upheld t L ⟨m, .running seat ticket frames result⟩) (hs : m'.Sound)
    (he : m.Evolves allowed m')
    (hallowed : ∀ {i task}, m.dispatcher.task? i = some task → allowed task.on)
    (hb : ∀ k, m'.bond? k = m.bond? k) (hseats : m'.dispatcher.seats = m.dispatcher.seats)
    (henv : m'.env = m.env) (hsize : m.signals.size ≤ m'.signals.size)
    (hready : Ready t L m' result frames) :
    Follows t L m ⟨m', .running seat ticket frames result⟩ := by
  refine h.evolve (List.prefix_refl L) hs (h.ledger.congr hb) he hallowed
    (henv ▸ List.prefix_refl _) (by rw [henv]) (fun p hp => ?_) (Nat.le_of_eq (by rw [hseats]))
    (fun i _ => Dispatcher.task?_of_seats hseats i) (fun i hge hlt => ?_) (.running hready) fun k => ?_
  · rw [henv] at hp
    exact (h.handles p hp).of_bond hb hsize
  · rw [hseats] at hlt
    exact absurd hlt (Nat.not_lt_of_le hge)
  · rw [opened_running, Machine.work_congr _ hseats, isOpen_congr hb]
    exact h.opened k

theorem suspendAct {j : JobId} {id : StatementId} {action : Action} {body : List Statement}
    {on : Suspension} {inner : List ProgramFrame}
    (h : Upheld t L ⟨m, .running seat ticket (.rest j (.leaf id action :: body) :: outer) (.ok ())⟩)
    (he : performAction ticket j id action (record id .began m) = (.suspended on inner, m')) :
    Follows t L m ⟨{ m' with
      dispatcher := m'.dispatcher.checkIn seat ⟨on, inner ++ .leave id :: .rest j body :: outer⟩ },
      .idle⟩ := by
  obtain ⟨⟨h₁, hk⟩, hr, hat⟩ := h.begin
  have hacts := h.acts
  rw [he] at hacts
  cases hacts with
  | suspended hsus =>
    have hr₂ := hr.mono (List.prefix_refl L) hsus.quiet.trace
    obtain ⟨h₂, hk'⟩ : Follows t L (record id .began m)
        ⟨m', .running seat ticket (.leave id :: .rest j body :: outer) (.ok ())⟩ :=
      h₁.quiet hsus.quiet (.runs hr₂) fun _ => rfl
    obtain ⟨w, rfl, hneeds⟩ := hsus.wait
    have hticket : ticket = seat := (h₂.polled rfl).ticket_eq
    refine ⟨h₂.checkIn (hticket ▸ hsus.waits) (.wait hr₂ hneeds) (fun {j' k w'} hon => ?_)
      fun k => ?_, (hk.trans hk').dispatch⟩
    · cases hon
      refine ⟨hsus.seq, fun {i task j' w'} hi hon => ?_⟩
      have hi₁ := (Dispatcher.task?_of_seats hsus.quiet.seats i).symm.trans hi
      exact absurd (h₁.numbered hi₁ hon) (Nat.lt_irrefl _)
    · cases hneeds <;> simp [ProgramFrame.opens?]

theorem suspendClose {j : JobId} {on : Suspension} {inner : List ProgramFrame}
    (h : Upheld t L ⟨m, .running seat ticket (.close j :: outer) result⟩)
    (he : Interpreter.close ticket j result m = (.suspended on inner, m')) :
    Follows t L m ⟨{ m' with
      dispatcher := m'.dispatcher.checkIn seat ⟨on, inner ++ outer⟩ }, .idle⟩ := by
  obtain ⟨hj, hr, -⟩ := h.runs_close
  obtain ⟨b, hb, ho⟩ := h.isOpen_of_runs hr (Nat.le_add_left _ _)
  have hcloses := Machine.closes_close h.sound hb ho ticket result
  have hseats := Machine.seats_close m ticket j result
  have hticket : ticket = seat := (h.polled rfl).ticket_eq
  unfold Interpreter.close Reached.afterClose at he
  match hc : m.close ticket j result with
  | (some o, m₁) =>
    rw [hc] at he
    simp at he
  | (none, m₁) =>
    rw [hc] at he hcloses hseats
    obtain ⟨hprogress, rfl⟩ := Prod.mk.inj he
    obtain ⟨rfl, rfl⟩ := Progress.suspended.inj hprogress
    cases hcloses with
    | waits hs hev hbond hsig henv hwaits =>
      have hr₁ : Runs t L m₁.env.trace.toList (some j) (.close j :: outer) := by
        rw [henv]
        exact hr
      obtain ⟨h₁, hk⟩ : Follows t L m ⟨m₁, .running seat ticket (.close j :: outer) result⟩ :=
        h.steady hs hev (h.not_children (.inr ⟨hj, by simp [ProgramFrame.opens?]⟩)) hbond hseats
          henv (Nat.le_of_eq (by rw [hsig])) (.runs hr₁)
      exact ⟨h₁.checkIn (hticket ▸ hwaits) (.children hr₁) (fun hon => absurd hon (by simp))
        fun k => by simp [ProgramFrame.opens?], hk.dispatch⟩

end Code

section Resumption

variable {id : SeatId} {rest : List SeatId} {d : Dispatcher (Task ProgramFrame)}
  {ticket : Ticket} {task : Task ProgramFrame}

theorem goOnWait {result : Except Interruption Unit} (h : Upheld t L ⟨m, .idle⟩)
    (hr : m.dispatcher.ready = id :: rest)
    (hout : (withoutFirst m rest).checkOut id = (some (ticket, task), d)) {j k : Nat} {w : WaitId}
    (hon : task.on = .wait j k w)
    (hres : ({ m with dispatcher := d } : ProgramMachine).resumption ticket (.wait j k w) =
      (some result, m')) :
    Follows t L m ⟨m', .running id ticket task.frames (Suspension.handed result)⟩ := by
  obtain ⟨hd, rfl, htask, hothers, -⟩ := Dispatcher.checkOut_some h.sound.orderly.aligned hr hout
  have hruns : ∃ q, Runs t L m.env.trace.toList q task.frames := by
    have hrests := (h.seated htask).rests
    rw [hon] at hrests
    generalize task.frames = frames at hrests
    cases hrests with
    | wait hruns hneeds =>
      cases hneeds with
      | delay _ _ => exact ⟨_, hruns⟩
      | join _ _ _ _ => exact ⟨_, hruns⟩
      | await hmem _ _ _ => exact ⟨_, .awaited hmem hruns⟩
  obtain ⟨q, hruns⟩ := hruns
  have h₁ : ∀ result, Upheld t L
      ⟨{ m with dispatcher := d }, .running ticket ticket task.frames result⟩ :=
    fun result => h.checkOut hr hout (.runs hruns)
  unfold Machine.resumption at hres
  dsimp only at hres
  split at hres
  · obtain ⟨-, rfl⟩ := Prod.mk.inj hres
    exact ⟨h₁ _, (Kept.refl m).dispatch⟩
  · obtain ⟨-, rfl⟩ := Prod.mk.inj hres
    have h₁ := h₁ (Suspension.handed result)
    refine (h₁.steady (h₁.sound.forget j k) (Machine.evolves_forget _ j k)
      (fun {i task'} hi j' w' hon' => ?_) (Machine.bond?_forget _ j k) rfl rfl (Nat.le_refl _)
      (.runs hruns)).after (Kept.refl m).dispatch
    have hold := (hothers i).symm.trans hi
    split at hold
    · cases hold
    · next hne => exact hne (h.numbers hold htask hon' hon)
  · cases (Prod.mk.inj hres).1

theorem goOnChildren {result : Except Interruption Unit} (h : Upheld t L ⟨m, .idle⟩)
    (hr : m.dispatcher.ready = id :: rest)
    (hout : (withoutFirst m rest).checkOut id = (some (ticket, task), d)) {j : Nat}
    (hon : task.on = .children j)
    (hres : ({ m with dispatcher := d } : ProgramMachine).resumption ticket (.children j) =
      (some result, m')) :
    Follows t L m ⟨m', .running id ticket task.frames (Suspension.handed result)⟩ := by
  obtain ⟨-, rfl, htask, -, -⟩ := Dispatcher.checkOut_some h.sound.orderly.aligned hr hout
  have hseated := h.seated htask
  obtain ⟨htwo, -⟩ := h.opened_of_children htask hon
  obtain ⟨hwaits, hrests⟩ := hon ▸ And.intro hseated.waits hseated.rests
  obtain ⟨job, hjob, -⟩ := hwaits
  have hframes : ∃ outer, task.frames = .settle j :: outer ∧
      Runs t L m.env.trace.toList (some j) (.close j :: outer) := by
    generalize task.frames = frames at hrests
    cases hrests with
    | children hruns => exact ⟨_, rfl, hruns⟩
  obtain ⟨outer, hframes, hruns⟩ := hframes
  have hlinks : Machine.Links none ({ m with dispatcher := d } : ProgramMachine) :=
    h.sound.tree.links.congr fun _ => rfl
  have hjob' : ({ m with dispatcher := d } : ProgramMachine).job? j = some job := hjob
  unfold Machine.resumption at hres
  dsimp only at hres
  rcases Machine.awaitChildren_cases hlinks hjob' ticket with ⟨hnone, hidle⟩ | ⟨-, hidle, -⟩
  · obtain ⟨hresult, rfl⟩ := Prod.mk.inj hres
    rw [hidle, if_pos rfl] at hresult
    obtain rfl := Option.some.inj hresult
    have hbond := Machine.bond?_awaitChildren hlinks ticket j
    have hjb : ({ m with dispatcher := d } : ProgramMachine).bond? j = some job.bond :=
      Machine.bond?_of_job? hjob'
    have h₁ : Upheld t L ⟨{ m with dispatcher := d },
        .running ticket ticket task.frames (Suspension.handed (.ok ()))⟩ :=
      h.checkOut hr hout (hframes ▸ .settling hruns (Machine.bond?_of_job? hjob) hnone)
    refine (h₁.steady (h₁.sound.awaitChildren ticket j) (Machine.evolves_awaitChildren _ ticket j)
      (h₁.not_children (.inr ⟨htwo, ?_⟩)) hbond rfl rfl (Nat.le_refl _)
      (hframes ▸ .settling hruns ((hbond j).trans hjb) hnone)).after (Kept.refl m).dispatch
    simp [hframes, ProgramFrame.opens?]
  · rw [hidle] at hres
    cases (Prod.mk.inj hres).1

theorem goOn {result : Except Interruption Unit} (h : Upheld t L ⟨m, .idle⟩)
    (hr : m.dispatcher.ready = id :: rest)
    (hout : (withoutFirst m rest).checkOut id = (some (ticket, task), d))
    (hres : ({ m with dispatcher := d } : ProgramMachine).resumption ticket task.on =
      (some result, m')) :
    Follows t L m ⟨m', .running id ticket task.frames (Suspension.handed result)⟩ := by
  obtain ⟨-, rfl, htask, -, -⟩ := Dispatcher.checkOut_some h.sound.orderly.aligned hr hout
  cases hon : task.on with
  | entry j =>
    rw [hon] at hres
    obtain ⟨-, rfl⟩ := Prod.mk.inj hres
    have hrests := (h.seated htask).rests
    rw [hon] at hrests
    cases hrests with
    | entry _ hruns => exact ⟨h.checkOut hr hout (.runs hruns), (Kept.refl m).dispatch⟩
  | wait j k w => exact h.goOnWait hr hout hon (hon ▸ hres)
  | children j => exact h.goOnChildren hr hout hon (hon ▸ hres)
  | turn =>
    have hwaits := (h.seated htask).waits
    rw [hon] at hwaits
    exact absurd hwaits id

/-- A task that sleeps on is known to what it waits for already, so that nothing changes. -/
theorem resumption_none (h : Upheld t L ⟨m, .idle⟩) (hr : m.dispatcher.ready = id :: rest)
    (hout : (withoutFirst m rest).checkOut id = (some (ticket, task), d))
    (hres : ({ m with dispatcher := d } : ProgramMachine).resumption ticket task.on = (none, m')) :
    m' = { m with dispatcher := d } ∧
      ({ m with dispatcher := d } : ProgramMachine).Waits ticket task.on := by
  obtain ⟨-, rfl, htask, -, -⟩ := Dispatcher.checkOut_some h.sound.orderly.aligned hr hout
  have hwaits := (h.seated htask).waits
  cases hon : task.on with
  | entry j =>
    rw [hon] at hres
    cases (Prod.mk.inj hres).1
  | wait j k w =>
    rw [hon] at hres hwaits
    unfold Machine.resumption at hres
    dsimp only at hres
    split at hres
    · cases (Prod.mk.inj hres).1
    · cases (Prod.mk.inj hres).1
    · next hc hd =>
      rcases hwaits with ⟨hover | hover, -⟩ | hsleeps
      · exact absurd hover hd
      · exact absurd hover hc
      · obtain ⟨-, rfl⟩ := Prod.mk.inj hres
        refine ⟨?_, .inr ⟨hsleeps.pending, hsleeps.listed⟩⟩
        rw [Timetable.setSleeper_eq hsleeps.pending]
  | children j =>
    rw [hon] at hres hwaits
    obtain ⟨job, hjob, hjobs⟩ := hwaits
    have hlinks : Machine.Links none ({ m with dispatcher := d } : ProgramMachine) :=
      h.sound.tree.links.congr fun _ => rfl
    have hjob' : ({ m with dispatcher := d } : ProgramMachine).job? j = some job := hjob
    unfold Machine.resumption at hres
    dsimp only at hres
    rw [Machine.awaitChildren_eq hlinks ticket hjob'] at hres
    rcases hjobs with ⟨hnone, -⟩ | ⟨hne, hsleeper⟩
    · simp [hnone] at hres
    · obtain ⟨-, rfl⟩ := Prod.mk.inj hres
      refine ⟨?_, job, hjob, .inr ⟨hne, hsleeper⟩⟩
      refine Machine.updateJob_eq_self hjob' ?_
      have hempty : job.children.isEmpty = false := by simpa using hne
      simp [hempty, ← hsleeper]
  | turn =>
    rw [hon] at hwaits
    exact absurd hwaits id

theorem sleepOn_of_resumption (h : Upheld t L ⟨m, .idle⟩) (hr : m.dispatcher.ready = id :: rest)
    (hout : (withoutFirst m rest).checkOut id = (some (ticket, task), d))
    (hres : ({ m with dispatcher := d } : ProgramMachine).resumption ticket task.on = (none, m')) :
    Follows t L m ⟨{ m' with dispatcher := m'.dispatcher.checkIn id task }, .idle⟩ := by
  have hticket := (Dispatcher.checkOut_some h.sound.orderly.aligned hr hout).2.1
  obtain ⟨rfl, hw⟩ := h.resumption_none hr hout hres
  exact ⟨h.sleepOn hr hout (hticket ▸ hw), (Kept.refl m).dispatch⟩

end Resumption

theorem tick {time : Nat} (h : Upheld t L ⟨m, .idle⟩)
    (hnext : m.timetable.clock.next? = some time) : Follows t L m ⟨m.advance.2, .idle⟩ := by
  have hseats : m.advance.2.dispatcher.seats = m.dispatcher.seats := Machine.seats_wakeAll ..
  refine h.evolve (List.prefix_refl L) (h.sound.advance hnext) (h.ledger.congr fun _ => rfl)
    (show m.Evolves (fun _ => True) _ from Machine.evolves_advance hnext) (fun _ => trivial)
    (List.prefix_refl _) rfl h.handles (Nat.le_of_eq (by rw [hseats]))
    (fun i _ => Dispatcher.task?_of_seats hseats i) (fun i hge hlt => ?_) .idle fun j => ?_
  · rw [hseats] at hlt
    exact absurd hlt (Nat.not_lt_of_le hge)
  · have hopened : Snapshot.opened j ⟨m.advance.2, .idle⟩ = Snapshot.opened j ⟨m, .idle⟩ :=
      congrArg (· + 0) (Machine.work_congr _ hseats)
    rw [hopened]
    exact h.opened j

/-- What holds in a state of a run holds in the next one. -/
theorem step (h : Upheld t L s) (hs : Snapshot.Step s s') :
    ∃ L', Records s L L' ∧ Follows t L' s.machine s' := by
  cases hs with
  | skip hr hout => exact ⟨L, .nothing rfl, h.skip hr hout, (Kept.refl _).dispatch⟩
  | sleepOn hr hout hres => exact ⟨L, .nothing rfl, h.sleepOn_of_resumption hr hout hres⟩
  | goOn hr hout hres => exact ⟨L, .nothing rfl, h.goOn hr hout hres⟩
  | code hs => exact h.code hs
  | suspend hs =>
    cases hs with
    | act he => exact ⟨L, .nothing rfl, h.suspendAct he⟩
    | close he => exact ⟨L, .nothing rfl, h.suspendClose he⟩
  | finish => exact ⟨L, .nothing rfl, h.finish, (Kept.refl _).dispatch⟩
  | tick _ hnext => exact ⟨L, .nothing rfl, h.tick hnext⟩

end Snapshot.Upheld

/-- The first two jobs are those of the program and of the background. -/
def Ledger.start (t : Statement) : Ledger := [⟨0, none, t.size + 1⟩, ⟨0, none, 0⟩]

theorem of_job?_loaded {j : Nat} {job : Job} (h : t.loaded.job? j = some job) :
    j < 2 ∧ ∃ kind, job = ⟨kind, 1, false, none, false, none, [], [], none, none, j⟩ := by
  match j with
  | 0 => exact ⟨by omega, .scope, (Option.some.inj h).symm⟩
  | 1 => exact ⟨by omega, .background, (Option.some.inj h).symm⟩
  | j + 2 => cases h

theorem of_bond?_loaded {j : Nat} {b : Bond} (h : t.loaded.bond? j = some b) :
    j < 2 ∧ b = ⟨1, none, [], none, j⟩ := by
  obtain ⟨job, hj, rfl⟩ := Machine.bond?_eq_some.1 h
  obtain ⟨hlt, kind, rfl⟩ := of_job?_loaded hj
  exact ⟨hlt, rfl⟩

theorem signal_loaded {s : Nat} {signal : Signal} (h : t.loaded.signals[s]? = some signal) :
    signal = .unfired := by
  match s with
  | 0 => exact (Option.some.inj h).symm
  | 1 => exact (Option.some.inj h).symm
  | s + 2 => cases h

theorem timer?_loaded (t : Statement) (k : Nat) : t.loaded.timetable.timer? k = none := by
  have hempty : t.loaded.timetable.clock.timers = .empty := rfl
  simp [Timetable.timer?, hempty, TimerQueue.empty]

theorem sound_loaded (t : Statement) : t.loaded.Sound := by
  have hfired : ∀ s, t.loaded.hasFired s = false := by
    intro s
    cases hs : t.loaded.signals[s]? with
    | none => simp [Machine.hasFired, hs]
    | some signal => simp [Machine.hasFired, hs, signal_loaded hs, Signal.unfired]
  refine ⟨⟨⟨fun hj => ?_, fun hp hc => ?_, fun hc hp => ?_, fun hc ho => ?_, fun hj ho => ?_⟩,
    ⟨fun hj => ?_, fun hi hj he => ?_, fun hj ho => ?_, fun hj hf => ?_⟩⟩,
    ⟨fun hp hc => ?_, fun hp hc => ?_, fun hp hf => ?_, fun hp hc => ?_⟩,
    ⟨⟨rfl, fun i seat hs => ?_, fun i e he => ?_, fun i hq => ?_⟩, ?_, fun ht => ?_, fun ht => ?_,
      fun hs hw => ?_⟩⟩
  · simp [(of_bond?_loaded hj).2]
  · simp [(of_bond?_loaded hp).2] at hc
  · simp [(of_bond?_loaded hc).2] at hp
  · simp [(of_bond?_loaded hc).2] at ho
  · simp [(of_bond?_loaded hj).2] at ho
  · obtain ⟨hlt, rfl⟩ := of_bond?_loaded hj
    exact hlt
  · obtain ⟨-, rfl⟩ := of_bond?_loaded hi
    obtain ⟨-, rfl⟩ := of_bond?_loaded hj
    exact he
  · simp [(of_bond?_loaded hj).2] at ho
  · simp [hfired] at hf
  · obtain ⟨-, kind, rfl⟩ := of_job?_loaded hp
    cases hc
  · obtain ⟨-, kind, rfl⟩ := of_job?_loaded hp
    cases hc
  · obtain ⟨-, kind, rfl⟩ := of_job?_loaded hp
    cases hf
  · obtain ⟨-, kind, rfl⟩ := of_job?_loaded hp
    cases hc
  · cases i with
    | zero => exact (congrArg Seat.ticket (Option.some.inj hs)).symm
    | succ i => cases hs
  · cases i with
    | zero => exact (congrArg TicketEntry.task (Option.some.inj he)).symm
    | succ i => cases he
  · cases i with
    | zero => exact .head _
    | succ i => cases hq
  · exact TimerQueue.complete_empty
  · rw [timer?_loaded] at ht
    cases ht
  · rw [timer?_loaded] at ht
    cases ht
  · rw [signal_loaded hs] at hw
    cases hw

theorem task?_loaded {i : Nat} {task : Task ProgramFrame}
    (h : t.loaded.dispatcher.task? i = some task) :
    i = 0 ∧ task = ⟨.entry 0, [.rest 0 [t], .program]⟩ := by
  match i with
  | 0 => exact ⟨rfl, (Option.some.inj h).symm⟩
  | i + 1 => cases h

theorem fits_start (t : Statement) : (Ledger.start t).Fits t t.loaded where
  length := rfl
  two := Nat.le_refl 2
  root := rfl
  made {g o} hg ho := by
    match g with
    | 0 | 1 => omega
    | g + 2 => cases ho
  parent {g o b} hg _ hb := by
    have := (of_bond?_loaded hb).1
    omega
  roots _ hb := by
    rw [(of_bond?_loaded hb).2]

theorem upheld_initial (t : Statement) : t.initial.Upheld t (.start t) where
  sound := sound_loaded t
  ledger := fits_start t
  background := rfl
  handles _ hp := by cases hp
  seated hi := by
    obtain ⟨rfl, rfl⟩ := task?_loaded hi
    exact ⟨rfl, rfl, .entry trivial (.rest ((fits_start t).root_at _) trivial .program)⟩
  numbers hi hi' _ _ := (task?_loaded hi).1.trans (task?_loaded hi').1.symm
  numbered hi hon := by
    obtain ⟨-, rfl⟩ := task?_loaded hi
    cases hon
  polled hf := by cases hf
  opened j := by
    refine .inr ⟨?_, ?_⟩
    · rintro ⟨hj, b, hb, -⟩
      exact absurd (of_bond?_loaded hb).1 (Nat.not_lt_of_le hj)
    have hopened : t.initial.opened j =
        RacePuzzle.opened j [.rest 0 [t], .program] + 0 + 0 := rfl
    simpa [ProgramFrame.opens?] using hopened
  gone {i} hi hnone := by
    cases i with
    | zero => cases hnone
    | succ i =>
      have hi : i + 1 < 1 := hi
      omega

/-- The states of the runs of a program, each with the ledger of the jobs made before it. -/
inductive History (t : Statement) : Ledger → Snapshot → Prop
  | start : History t (.start t) t.initial
  | next {L L' : Ledger} {s s' : Snapshot} : History t L s → Snapshot.Step s s' → s.Records L L' →
      Follows t L' s.machine s' → History t L' s'

theorem History.upheld (h : History t L s) : s.Upheld t L := by
  cases h with
  | start => exact upheld_initial t
  | next _ _ _ h => exact h.upheld

theorem History.step (h : History t L s) (hs : Snapshot.Step s s') :
    ∃ L', History t L' s' ∧ Kept s.machine s'.machine := by
  obtain ⟨L', hrec, hfollows⟩ := h.upheld.step hs
  exact ⟨L', .next h hs hrec hfollows, hfollows.kept⟩

theorem Statement.Reaches.history (h : t.Reaches s) : ∃ L, History t L s := by
  induction h with
  | refl => exact ⟨_, .start⟩
  | tail _ hs ih =>
    obtain ⟨L, hL⟩ := ih
    obtain ⟨L', hL', -⟩ := hL.step hs
    exact ⟨L', hL'⟩

/-- What the machine has is kept along a run. -/
theorem History.steps (h : History t L s) (hs : Snapshot.Steps s s') :
    ∃ L', History t L' s' ∧ Kept s.machine s'.machine := by
  induction hs with
  | refl => exact ⟨L, h, .refl _⟩
  | tail _ hstep ih =>
    obtain ⟨L₁, h₁, hk₁⟩ := ih
    obtain ⟨L₂, h₂, hk₂⟩ := h₁.step hstep
    exact ⟨L₂, h₂, hk₁.trans hk₂⟩

end RacePuzzle
