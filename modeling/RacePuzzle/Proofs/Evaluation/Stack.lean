import RacePuzzle.Evaluation.Interpreter
import RacePuzzle.Proofs.Machine.Suspension
import RacePuzzle.Proofs.Program.Place

/-! The frames of a task. They are the code that is left to run in a job, and below its end what is
left in the job around it, each part at its place in the program. Where a job comes from is written
down in a ledger, which only grows. -/
namespace RacePuzzle

/-- The job in which another was made, by which block if not by the program, and when that ends. -/
structure Origin where
  parent : JobId
  block : Option Statement
  rank : Nat

abbrev Ledger := List Origin

def Logged (tr : List TraceEntry) (id : StatementId) (mark : Mark) : Prop :=
  ∃ e ∈ tr, e.statement = id ∧ e.mark = mark

/-- The job whose own code or whose wait for its children ends with the frame. -/
def ProgramFrame.opens? : ProgramFrame → Option JobId
  | .close j | .settle j => some j
  | _ => none

def opened (j : JobId) (frames : List ProgramFrame) : Nat :=
  frames.countP fun frame => frame.opens? = some j

@[simp] theorem opened_nil (j : JobId) : opened j [] = 0 := rfl

@[simp] theorem opened_cons (j : JobId) (frame : ProgramFrame) (frames : List ProgramFrame) :
    opened j (frame :: frames) = opened j frames + if frame.opens? = some j then 1 else 0 := by
  by_cases h : frame.opens? = some j <;> simp [opened, h]

@[simp] theorem opened_append (j : JobId) (inner outer : List ProgramFrame) :
    opened j (inner ++ outer) = opened j inner + opened j outer :=
  List.countP_append

@[simp] theorem opened_rest (j k : JobId) (body : List Statement) (outer : List ProgramFrame) :
    opened j (.rest k body :: outer) = opened j outer := rfl

@[simp] theorem opened_leave (j : JobId) (id : StatementId) (outer : List ProgramFrame) :
    opened j (.leave id :: outer) = opened j outer := rfl

@[simp] theorem opened_catching (j : JobId) (id : StatementId) (kind : ExceptionKind)
    (outer : List ProgramFrame) : opened j (.catching id kind :: outer) = opened j outer := rfl

@[simp] theorem opened_awaited (j : JobId) (id : StatementId) (k : JobId) (text : String)
    (outer : List ProgramFrame) : opened j (.awaited id k text :: outer) = opened j outer := rfl

@[simp] theorem opened_program (j : JobId) (outer : List ProgramFrame) :
    opened j (.program :: outer) = opened j outer := rfl

/-- Both frames of the end of a job count alike. -/
theorem opened_settle (j k : JobId) (outer : List ProgramFrame) :
    opened j (.settle k :: outer) = opened j (.close k :: outer) := rfl

variable {t : Statement} {L L' : Ledger} {tr tr' : List TraceEntry}

/-- The job goes on with `body`: it stands at a place of the program inside the block of the job,
and what precedes it there has ended. -/
structure At (t : Statement) (L : Ledger) (tr : List TraceEntry) (j : JobId)
    (body : List Statement) : Prop where
  place : ∃ o before, L[j]? = some o ∧ t.Placed o.block before body ∧
    Statement.bodySize before + Statement.bodySize body < o.rank ∧ ∀ d ∈ before, Logged tr d.id .ended

/-- Frames outside the body that is run, which do not begin inside a statement. -/
def Outside : List ProgramFrame → Prop
  | .leave _ :: _ | .awaited .. :: _ => False
  | _ => True

/-- Frames that go on with a job, or nothing to go on with. -/
inductive Runs (t : Statement) (L : Ledger) (tr : List TraceEntry) :
    Option JobId → List ProgramFrame → Prop
  | nothing : Runs t L tr none []
  | program : Runs t L tr (some 0) [.program]
  | rest {j body outer} : At t L tr j body → Outside outer → Runs t L tr (some j) outer →
      Runs t L tr (some j) (.rest j body :: outer)
  /-- The first statement of a body has begun and not ended. -/
  | leave {j s body outer} : At t L tr j (s :: body) → Logged tr s.id .began → Outside outer →
      Runs t L tr (some j) outer → Runs t L tr (some j) (.leave s.id :: .rest j body :: outer)
  | catching {j id kind inner outer} : .block id (.tryCatch kind) inner ∈ t.nodes →
      Runs t L tr (some j) (.leave id :: outer) →
      Runs t L tr (some j) (.catching id kind :: .leave id :: outer)
  | awaited {j id var text target result outer} : .leaf id (.printAwait var text) ∈ t.nodes →
      Runs t L tr (some j) (.leave id :: outer) →
      Runs t L tr (some j) (.awaited id target result :: .leave id :: outer)
  /-- The end of a task. -/
  | task {j : JobId} {o : Origin} {id : StatementId} {head : Head} {inner : List Statement} :
      2 ≤ j → L[j]? = some o → o.block = some (.block id head inner) → head.isScope = false →
      Runs t L tr (some j) [.close j]
  /-- The end of a scope, which is the end of the code inside its block. -/
  | scope {j : JobId} {o : Origin} {id : StatementId} {head : Head} {inner : List Statement}
      {outer : List ProgramFrame} : 2 ≤ j → L[j]? = some o → o.block = some (.block id head inner) →
      Runs t L tr (some o.parent) (.leave id :: outer) →
      Runs t L tr (some j) (.close j :: .leave id :: outer)

/-- What the innermost frame gets fits it. An exception falls through what is left of a body, and
a job settles when its children have. -/
inductive Ready (t : Statement) (L : Ledger) (m : ProgramMachine) :
    Completion → List ProgramFrame → Prop
  | runs {q result frames} : Runs t L m.env.trace.toList q frames → Ready t L m result frames
  | failing {j kind body outer} : Outside outer → Runs t L m.env.trace.toList (some j) outer →
      Ready t L m (.error kind) (.rest j body :: outer)
  | settling {j b result outer} : Runs t L m.env.trace.toList (some j) (.close j :: outer) →
      m.bond? j = some b → b.children = [] → Ready t L m result (.settle j :: outer)

/-- What a task whose statement `id` waits for needs. -/
inductive Needs (t : Statement) (m : ProgramMachine) (w : WaitId) (id : StatementId) :
    List ProgramFrame → Prop
  | delay {time} : .leaf id (.delay time) ∈ t.nodes → m.Heeds w none → Needs t m w id []
  | join {var handle s} : .leaf id (.join var) ∈ t.nodes →
      Logged m.env.trace.toList id (.referred (some handle)) →
      Interpreter.signal? handle m = some s → m.Heeds w (some s) → Needs t m w id []
  | await {var text target result s} : .leaf id (.printAwait var text) ∈ t.nodes →
      Logged m.env.trace.toList id (.referred (some (.deferred target result))) →
      Interpreter.signal? (.deferred target result) m = some s → m.Heeds w (some s) →
      Needs t m w id [.awaited id target result]

/-- The frames of a suspended task fit what it waits for. -/
inductive Rests (t : Statement) (L : Ledger) (m : ProgramMachine) :
    Suspension → List ProgramFrame → Prop
  | entry {j frames} : Outside frames → Runs t L m.env.trace.toList (some j) frames →
      Rests t L m (.entry j) frames
  | children {j outer} : Runs t L m.env.trace.toList (some j) (.close j :: outer) →
      Rests t L m (.children j) (.settle j :: outer)
  | wait {j k w id inner outer} : Runs t L m.env.trace.toList (some j) (.leave id :: outer) →
      Needs t m w id inner → Rests t L m (.wait j k w) (inner ++ .leave id :: outer)

def Suspension.job? : Suspension → Option JobId
  | .entry j | .wait j _ _ | .children j => some j
  | .turn => none

theorem Needs.opened {m : ProgramMachine} {w : WaitId} {id : StatementId}
    {inner : List ProgramFrame} (h : Needs t m w id inner) (k : JobId) :
    RacePuzzle.opened k inner = 0 := by
  cases h <;> rfl

/-- The frames of a suspended task are as good as those of code that runs in its job. -/
theorem Rests.exists_runs {m : ProgramMachine} {on : Suspension} {frames : List ProgramFrame}
    (h : Rests t L m on frames) : ∃ (p : Nat) (frames' : List ProgramFrame), on.job? = some p ∧
      Runs t L m.env.trace.toList (some p) frames' ∧ ∀ k, opened k frames' = opened k frames := by
  cases h with
  | entry _ hr => exact ⟨_, _, rfl, hr, fun _ => rfl⟩
  | children hr => exact ⟨_, _, rfl, hr, fun k => (opened_settle k _ _).symm⟩
  | wait hr hn => exact ⟨_, _, rfl, hr, fun k => by rw [opened_append, hn.opened, Nat.zero_add]⟩

theorem Logged.mono (htr : tr <+: tr') {id : StatementId} {mark : Mark} (h : Logged tr id mark) :
    Logged tr' id mark := by
  obtain ⟨e, he, h⟩ := h
  exact ⟨e, htr.subset he, h⟩

theorem getElem?_mono {α : Type} {l l' : List α} (h : l <+: l') {i : Nat} {a : α}
    (ha : l[i]? = some a) : l'[i]? = some a := by
  obtain ⟨rest, rfl⟩ := h
  rw [List.getElem?_append_left (List.getElem?_eq_some_iff.1 ha).1, ha]

theorem At.mono (hL : L <+: L') (htr : tr <+: tr') {j : JobId} {body : List Statement}
    (h : At t L tr j body) : At t L' tr' j body := by
  obtain ⟨o, before, hj, hp, hr, hb⟩ := h.place
  exact ⟨o, before, getElem?_mono hL hj, hp, hr, fun d hd => (hb d hd).mono htr⟩

theorem Runs.mono (hL : L <+: L') (htr : tr <+: tr') {q : Option JobId}
    {frames : List ProgramFrame} (h : Runs t L tr q frames) : Runs t L' tr' q frames := by
  induction h with
  | nothing => exact .nothing
  | program => exact .program
  | rest hat hout _ ih => exact .rest (hat.mono hL htr) hout ih
  | leave hat hb hout _ ih => exact .leave (hat.mono hL htr) (hb.mono htr) hout ih
  | catching hmem _ ih => exact .catching hmem ih
  | awaited hmem _ ih => exact .awaited hmem ih
  | task hj ho hb hs => exact .task hj (getElem?_mono hL ho) hb hs
  | scope hj ho hb _ ih => exact .scope hj (getElem?_mono hL ho) hb ih

theorem At.next {j : JobId} {s : Statement} {body : List Statement} (h : At t L tr j (s :: body))
    (hs : Logged tr s.id .ended) : At t L tr j body := by
  obtain ⟨o, before, hj, hp, hr, hb⟩ := h.place
  refine ⟨o, _, hj, hp.next, ?_, fun d hd => ?_⟩
  · rw [Statement.bodySize_concat]
    simp only [Statement.bodySize] at hr
    omega
  · rcases List.mem_append.1 hd with hd | hd
    · exact hb d hd
    · obtain rfl : d = s := by simpa using hd
      exact hs

theorem At.inside {j : JobId} {id : StatementId} {kind : ExceptionKind}
    {inner body : List Statement} (h : At t L tr j (.block id (.tryCatch kind) inner :: body)) :
    At t L tr j inner := by
  obtain ⟨o, before, hj, hp, hr, hb⟩ := h.place
  refine ⟨o, before, hj, hp.inside, ?_, hb⟩
  simp only [Statement.bodySize, Statement.size] at hr
  omega

theorem At.head_mem_nodes {j : JobId} {s : Statement} {body : List Statement}
    (h : At t L tr j (s :: body)) : s ∈ t.nodes := by
  obtain ⟨o, before, hj, hp, hr, hb⟩ := h.place
  exact hp.head_mem_nodes

/-- The statement at whose end the frames begin. -/
theorem Runs.at_of_leave {j : JobId} {id : StatementId} {outer : List ProgramFrame}
    (h : Runs t L tr (some j) (.leave id :: outer)) :
    ∃ st body, st.id = id ∧ At t L tr j (st :: body) := by
  cases h with
  | leave hat _ _ _ => exact ⟨_, _, rfl, hat⟩

/-- A statement of the program stands where the frames of its end say. -/
theorem Runs.at_of_mem (ht : t.Valid) {j : JobId} {id : StatementId} {outer : List ProgramFrame}
    (h : Runs t L tr (some j) (.leave id :: outer)) {st : Statement} (hmem : st ∈ t.nodes)
    (hid : st.id = id) : ∃ body, At t L tr j (st :: body) := by
  obtain ⟨st', body, hid', hat⟩ := h.at_of_leave
  obtain rfl := ht.eq_of_id hat.head_mem_nodes hmem (hid'.trans hid.symm)
  exact ⟨body, hat⟩

/-- The job stands in the ledger for a block that began in its parent. -/
structure Made (t : Statement) (L : Ledger) (o : Origin) (id : StatementId) (head : Head)
    (inner : List Statement) : Prop where
  block : o.block = some (.block id head inner)
  makesJob : head.makesJob
  place : ∃ owner before rest, t.Placed owner before (.block id head inner :: rest) ∧
    o.rank = Statement.bodySize before + (Statement.block id head inner).size ∧
    (o.parent ≠ 1 → ∀ p, L[o.parent]? = some p → o.rank < p.rank ∧ p.block = owner)
  detached : o.parent = 1 → head = .scopeLaunch

theorem Made.mem_nodes {o : Origin} {id : StatementId} {head : Head} {inner : List Statement}
    (h : Made t L o id head inner) : .block id head inner ∈ t.nodes := by
  obtain ⟨owner, before, rest, hp, -⟩ := h.place
  exact hp.head_mem_nodes

/-- A longer ledger tells the same about the parent. -/
theorem Made.mono {o : Origin} {id : StatementId} {head : Head} {inner : List Statement}
    (h : Made t L o id head inner) (hL : L <+: L') (hlt : o.parent < L.length) :
    Made t L' o id head inner := by
  obtain ⟨owner, before, rest, hp, hr, hq⟩ := h.place
  refine ⟨h.block, h.makesJob, ⟨owner, before, rest, hp, hr, fun hne p hp' => ?_⟩, h.detached⟩
  have hget := List.getElem?_eq_getElem hlt
  obtain rfl := Option.some.inj ((getElem?_mono hL hget).symm.trans hp')
  exact hq hne _ hget

/-- A block that begins makes a job below that in which it runs, or in the background. -/
theorem At.made {j p : JobId} {id : StatementId} {head : Head} {inner body : List Statement}
    (h : At t L tr j (.block id head inner :: body)) (hm : head.makesJob) (h1 : j ≠ 1)
    (hp : p = j ∨ p = 1 ∧ head = .scopeLaunch) :
    ∃ rank, Made t L ⟨p, some (.block id head inner), rank⟩ id head inner ∧
      ∀ g L', L <+: L' → L'[g]? = some ⟨p, some (.block id head inner), rank⟩ →
        At t L' tr g inner := by
  obtain ⟨o, before, hj, hplace, hr, hb⟩ := h.place
  have hsize := hr
  simp only [Statement.bodySize] at hsize
  refine ⟨Statement.bodySize before + (Statement.block id head inner).size,
    ⟨rfl, hm, ⟨o.block, before, body, hplace, rfl, fun hne q hq => ?_⟩,
      fun he => (hp.resolve_left fun hpj => h1 (hpj ▸ he)).2⟩,
    fun g L' _ hg => ⟨_, before, hg, ?_, ?_, hb⟩⟩
  · obtain rfl := hp.resolve_right fun h => hne h.1
    obtain rfl := Option.some.inj (hj.symm.trans hq)
    exact ⟨by dsimp only; omega, rfl⟩
  · have := hplace.inside
    rwa [Statement.ownerInside, if_pos hm] at this
  · simp only [Statement.size]
    omega

theorem Runs.job {q : Option JobId} {frames : List ProgramFrame} (h : Runs t L tr q frames) {j : JobId}
    (hq : q = some j) : j = 0 ∨ 2 ≤ j ∧ 0 < opened j frames := by
  induction h generalizing j with
  | nothing => cases hq
  | program => exact .inl (Option.some.inj hq).symm
  | rest _ _ _ ih => exact (ih hq).imp id fun h => ⟨h.1, by simpa [ProgramFrame.opens?] using h.2⟩
  | leave _ _ _ _ ih => exact (ih hq).imp id fun h => ⟨h.1, by simpa [ProgramFrame.opens?] using h.2⟩
  | catching _ _ ih => exact (ih hq).imp id fun h => ⟨h.1, by simpa [ProgramFrame.opens?] using h.2⟩
  | awaited _ _ ih => exact (ih hq).imp id fun h => ⟨h.1, by simpa [ProgramFrame.opens?] using h.2⟩
  | task hj _ _ _ =>
    obtain rfl := Option.some.inj hq
    exact .inr ⟨hj, by simp [ProgramFrame.opens?]⟩
  | scope hj _ _ _ _ =>
    obtain rfl := Option.some.inj hq
    exact .inr ⟨hj, by simp [ProgramFrame.opens?]⟩

/-- No task runs in the background job itself. -/
theorem Runs.job_ne {j : JobId} {frames : List ProgramFrame} (h : Runs t L tr (some j) frames) :
    j ≠ 1 := by
  rintro rfl
  rcases h.job rfl with h | ⟨h, -⟩
  · cases h
  · exact absurd h (by decide)

/-- A wait has found its cause in a machine, and every later machine has it as well. -/
theorem Needs.mono {m m' : ProgramMachine} {allowed : Suspension → Prop}
    (he : m.Evolves allowed m') (htr : m.env.trace.toList <+: m'.env.trace.toList) {w : WaitId}
    {id : StatementId} {inner : List ProgramFrame} (h : Needs t m w id inner) :
    Needs t m' w id inner := by
  have hsignal : ∀ {handle s}, Interpreter.signal? handle m = some s →
      Interpreter.signal? handle m' = some s := by
    intro handle s hs
    have hjob : ∀ {g}, (m.job? g).map (·.completion) = some s →
        (m'.job? g).map (·.completion) = some s := by
      intro g hg
      obtain ⟨job, hjob, hc⟩ := Option.map_eq_some_iff.1 hg
      obtain ⟨b', hb', hc', -⟩ := he.bond (Machine.bond?_of_job? hjob)
      obtain ⟨job', hjob', rfl⟩ := Machine.bond?_eq_some.1 hb'
      rw [hjob']
      exact congrArg some (hc'.trans hc)
    cases handle with
    | task g => exact hjob hs
    | deferred g result => exact hjob hs
    | bare σ => exact hs
  cases h with
  | delay hmem hw => exact .delay hmem (he.heeds hw)
  | join hmem hlog hs hw => exact .join hmem (hlog.mono htr) (hsignal hs) (he.heeds hw)
  | await hmem hlog hs hw => exact .await hmem (hlog.mono htr) (hsignal hs) (he.heeds hw)

theorem Rests.mono {m m' : ProgramMachine} {allowed : Suspension → Prop}
    (he : m.Evolves allowed m') (hL : L <+: L') (htr : m.env.trace.toList <+: m'.env.trace.toList)
    {on : Suspension} {frames : List ProgramFrame} (h : Rests t L m on frames) :
    Rests t L' m' on frames := by
  cases h with
  | entry hout h => exact .entry hout (h.mono hL htr)
  | children h => exact .children (h.mono hL htr)
  | wait h hn => exact .wait (h.mono hL htr) (hn.mono he htr)

end RacePuzzle
