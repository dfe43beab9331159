import RacePuzzle.Proofs.Machine.Smooth
import RacePuzzle.Proofs.Evaluation.Account

/-! Where a fork-join run stands. A task that is polled has come to its frames at the time of the
clock, and a task in its seat has begun to wait at a time and goes on at another that the account
tells. -/
namespace RacePuzzle

variable {t : Statement} {L L' : Ledger} {m m' : ProgramMachine} {s s' : Snapshot} {D D' : JobId → Nat}
  {before : List Statement} {begun time : Nat} {frames outer : List ProgramFrame}

theorem Snapshot.Upheld.hasSettled_child (h : s.Upheld t L) {c : Nat} {o : Origin} (hc : 2 ≤ c)
    (ho : L[c]? = some o) (hp : HasSettled s.machine o.parent) : HasSettled s.machine c := by
  have hlt : c < s.machine.jobs.size := h.ledger.length ▸ (List.getElem?_eq_some_iff.1 ho).1
  exact hasSettled_iff.2 ⟨hlt, fun hopen => (hasSettled_iff.1 hp).2 (h.isOpen_parent hc ho hopen)⟩

theorem Ledger.JobOf.mono (hL : L <+: L') {g : Nat} {block : Statement} (h : L.JobOf g block) :
    L'.JobOf g block :=
  let ⟨o, ho, hblock⟩ := h.origin
  ⟨h.two_le, o, getElem?_mono hL ho, hblock⟩

/-- A later state, in which jobs have settled at the times `D'`. -/
structure Later (L : Ledger) (m : ProgramMachine) (D : JobId → Nat) (L' : Ledger)
    (m' : ProgramMachine) (D' : JobId → Nat) : Prop where
  ledger : L <+: L'
  kept : Kept m m'
  now : m.now ≤ m'.now
  same : ∀ {g}, HasSettled m g → D' g = D g
  new : ∀ {g}, HasSettled m' g → HasSettled m g ∨ g < L.length ∧ D' g = m'.now

theorem Later.old (h : Later L m D L' m' D') (hl : L.Fits t m) {g : JobId} (hg : HasSettled m' g) :
    g < L.length := by
  rcases h.new hg with hold | ⟨hlt, -⟩
  · exact hl.length ▸ (hasSettled_iff.1 hold).1
  · exact hlt

theorem Prints.later (hl : Later L m D L' m' D') {action : Action} {value : String}
    (h : Prints t L m D begun action value time) : Prints t L' m' D' begun action value time := by
  cases h with
  | print => exact .print
  | result hs hg => exact hl.same hg ▸ .result (hs.mono hl.ledger) (hg.kept hl.kept)
  | text hs => exact .text (hs.mono hl.ledger)

theorem Took.later (hl : Later L m D L' m' D') {st : Statement}
    (h : Took t L m D before begun st time) : Took t L' m' D' before begun st time := by
  cases h with
  | delay => exact .delay
  | prints hp hmem => exact .prints (hp.later hl) (hl.kept.trace.subset hmem)
  | join hs hg hsettled =>
    exact hl.same hsettled ▸ .join (hs.mono hl.ledger) hg (hsettled.kept hl.kept)
  | task hg hmakes hscope => exact .task (hg.mono hl.ledger) hmakes hscope
  | scope hg hscope hsettled =>
    exact hl.same hsettled ▸ .scope (hg.mono hl.ledger) hscope (hsettled.kept hl.kept)
  | tryCatch harrives => exact .tryCatch (harrives.mono hl.kept.trace)

/-- A job whose children have settled completes as it did. -/
theorem Completes.later {g ended : Nat} (h : Completes L D g ended time) (hL : L <+: L')
    (hsame : ∀ {c : Nat} {o : Origin}, 2 ≤ c → L'[c]? = some o → o.parent = g →
      L[c]? = some o ∧ D' c = D c) : Completes L' D' g ended time where
  own := h.own
  children hc ho hp := by
    obtain ⟨hold, hD⟩ := hsame hc ho hp
    exact hD ▸ h.children hc hold hp
  last := h.last.imp_right fun ⟨c, o, hc, ho, hp, hlast⟩ =>
    ⟨c, o, hc, getElem?_mono hL ho, hp, (hsame hc (getElem?_mono hL ho) hp).2.trans hlast⟩

/-- The account goes on, with what ends and what settles. -/
theorem Account.later (h : Account t L m D) (hl : Later L m D L' m' D')
    (hs : Snapshot.Upheld t L s) (hm : s.machine = m) (hs' : Snapshot.Upheld t L' s')
    (hm' : s'.machine = m')
    (hended : ∀ {owner before st rest time}, t.Placed owner before (st :: rest) →
      ⟨st.id, .ended, time⟩ ∈ m'.env.trace.toList → ⟨st.id, .ended, time⟩ ∈ m.env.trace.toList ∨
        ∃ begun, Arrives m'.env.trace.toList before begun ∧ Took t L' m' D' before begun st time)
    (hsettled : ∀ {g id head inner owner before rest}, L'.JobOf g (.block id head inner) →
      HasSettled m' g → t.Placed owner before (.block id head inner :: rest) →
      HasSettled m g ∨ ∃ ended, Arrives m'.env.trace.toList (before ++ inner) ended ∧
        Completes L' D' g ended (D' g)) : Account t L' m' D' := by
  subst hm hm'
  refine ⟨fun hp hmem => ?_, fun {g} _ _ _ _ _ _ hg hg' hp => ?_, fun {g} hg => ?_⟩
  · rcases hended hp hmem with hold | hnew
    · obtain ⟨begun, hbegun, htook⟩ := h.ended hp hold
      exact ⟨begun, hbegun.mono hl.kept.trace, htook.later hl⟩
    · exact hnew
  · rcases hsettled hg hg' hp with hold | hnew
    · obtain ⟨htwo, o, ho, hblock⟩ := hg
      have hlt : g < L.length := hl.old hs.ledger hg'
      have ho' : L[g]? = some o :=
        (getElem?_mono hl.ledger (List.getElem?_eq_getElem hlt)).symm.trans ho ▸
          List.getElem?_eq_getElem hlt
      obtain ⟨ended, harrives, hcompletes⟩ := h.settled ⟨htwo, o, ho', hblock⟩ hold hp
      refine ⟨ended, harrives.mono hl.kept.trace, hl.same hold ▸ hcompletes.later hl.ledger ?_⟩
      -- the children had settled with the job
      intro c oc hc hoc hparent
      have hclt : c < L.length := hl.old hs.ledger (hs'.hasSettled_child hc hoc (hparent ▸ hg'))
      have hget := List.getElem?_eq_getElem hclt
      obtain rfl := Option.some.inj ((getElem?_mono hl.ledger hget).symm.trans hoc)
      exact ⟨hget, hl.same (hs.hasSettled_child hc hget (hparent ▸ hold))⟩
    · exact hnew
  · rcases hl.new hg with hold | ⟨-, hnow⟩
    · exact hl.same hold ▸ Nat.le_trans (h.past hold) hl.now
    · exact Nat.le_of_eq hnow

/-- The frames go on after the statements `done`, each at its place. -/
inductive Chain (t : Statement) (L : Ledger) : List Statement → List ProgramFrame → Prop
  | program : Chain t L [t] [.program]
  | rest {owner done j body outer} : t.Placed owner done body → Outside outer →
      Chain t L (done ++ body) outer → Chain t L done (.rest j body :: outer)
  /-- The first statement of a body has begun and not ended. -/
  | leave {owner done j st body outer} : t.Placed owner done (st :: body) → Outside outer →
      Chain t L (done ++ st :: body) outer → Chain t L done (.leave st.id :: .rest j body :: outer)
  | catching {owner done id kind inner body outer} :
      t.Placed owner done (.block id (.tryCatch kind) inner :: body) →
      Chain t L done (.leave id :: outer) →
      Chain t L (done ++ inner) (.catching id kind :: .leave id :: outer)
  | task {owner done j id head inner body} : L.JobOf j (.block id head inner) →
      t.Placed owner done (.block id head inner :: body) → Chain t L (done ++ inner) [.close j]
  | scope {owner done j id head inner body outer} : L.JobOf j (.block id head inner) →
      head.isScope = true → t.Placed owner done (.block id head inner :: body) →
      Chain t L done (.leave id :: outer) → Chain t L (done ++ inner) (.close j :: .leave id :: outer)

theorem Chain.mono (hL : L <+: L') {done : List Statement} (h : Chain t L done frames) :
    Chain t L' done frames := by
  induction h with
  | program => exact .program
  | rest hp hout _ ih => exact .rest hp hout ih
  | leave hp hout _ ih => exact .leave hp hout ih
  | catching hp _ ih => exact .catching hp ih
  | task hg hp => exact .task (hg.mono hL) hp
  | scope hg hs hp _ ih => exact .scope (hg.mono hL) hs hp ih

theorem Chain.next {done : List Statement} {id : StatementId} (h : Chain t L done (.leave id :: outer)) :
    ∃ st, st.id = id ∧ Outside outer ∧ Chain t L (done ++ [st]) outer := by
  generalize hframes : ProgramFrame.leave id :: outer = frames at h
  cases h with
  | @leave _ _ _ st body _ hp hout hchain =>
    obtain ⟨hid, rfl⟩ := List.cons.inj hframes
    refine ⟨st, (ProgramFrame.leave.inj hid).symm, trivial, .rest hp.next hout ?_⟩
    simpa using hchain
  | _ => cases hframes

/-- Code inside a statement that began at the time `begun`, after the statements `done`. -/
structure Within (t : Statement) (L : Ledger) (m : ProgramMachine) (done : List Statement)
    (begun : Nat) (st : Statement) (outer : List ProgramFrame) : Prop where
  placed : ∃ owner body, t.Placed owner done (st :: body)
  arrives : Arrives m.env.trace.toList done begun
  chain : Chain t L done (.leave st.id :: outer)

theorem Within.later (hl : Later L m D L' m' D') {done : List Statement} {st : Statement}
    (h : Within t L m done begun st outer) : Within t L' m' done begun st outer :=
  ⟨h.placed, h.arrives.mono hl.kept.trace, h.chain.mono hl.ledger⟩

/-- The time of the clock is that at which the code comes to the frames. -/
inductive OnTime (t : Statement) (L : Ledger) (m : ProgramMachine) (D : JobId → Nat) :
    List ProgramFrame → Prop
  | ended : OnTime t L m D []
  | arrived {done frames} : Outside frames → Chain t L done frames →
      Arrives m.env.trace.toList done m.now → OnTime t L m D frames
  | leaving {done begun st outer} : Within t L m done begun st outer →
      Took t L m D done begun st m.now → OnTime t L m D (.leave st.id :: outer)
  | awaited {done begun id var text g value outer} :
      Within t L m done begun (.leaf id (.printAwait var text)) outer →
      StandsFor t L var (.deferred g value) → HasSettled m g → m.now = max begun (D g) →
      OnTime t L m D (.awaited id g value :: .leave id :: outer)
  | settling {done ended j outer} : Chain t L done (.close j :: outer) →
      Arrives m.env.trace.toList done ended → Completes L D j ended m.now →
      OnTime t L m D (.settle j :: outer)

def Lasts (m : ProgramMachine) (D : JobId → Nat) (g : JobId) : Prop := HasSettled m g → D g = m.now

theorem Lasts.later {g : JobId} (h : Lasts m D g) (hl : Later L m D L' m' D')
    (hnow : m'.now = m.now) : Lasts m' D' g := by
  intro hg
  rcases hl.new hg with hold | ⟨-, hnew⟩
  · rw [hl.same hold, h hold, hnow]
  · exact hnew

/-- When a suspended task goes on. -/
inductive Sleeper (t : Statement) (L : Ledger) (m : ProgramMachine) (D : JobId → Nat) :
    Suspension → List ProgramFrame → Prop
  | entry {done j frames} : Outside frames → Chain t L done frames →
      Arrives m.env.trace.toList done m.now → Sleeper t L m D (.entry j) frames
  | delay {done begun id time j k w outer} :
      Within t L m done begun (.leaf id (.delay time)) outer → m.OverAt k w (begun + time) →
      m.Sole k w → Sleeper t L m D (.wait j k w) (.leave id :: outer)
  | join {done begun id var handle g j k w outer} :
      Within t L m done begun (.leaf id (.join var)) outer → StandsFor t L var handle →
      handle.job? = some g → Lasts m D g → m.timetable.waits[w]? ≠ some .cancelled →
      Sleeper t L m D (.wait j k w) (.leave id :: outer)
  | await {done begun id var text g value j k w outer} :
      Within t L m done begun (.leaf id (.printAwait var text)) outer →
      StandsFor t L var (.deferred g value) → Lasts m D g →
      m.timetable.waits[w]? ≠ some .cancelled →
      Sleeper t L m D (.wait j k w) (.awaited id g value :: .leave id :: outer)
  | children {done ended j c o outer} : Chain t L done (.close j :: outer) →
      Arrives m.env.trace.toList done ended → 2 ≤ c → L[c]? = some o → o.parent = j → Lasts m D c →
      Sleeper t L m D (.children j) (.settle j :: outer)

theorem Rests.heeds {j : JobId} {k w : Nat} (h : Rests t L m (.wait j k w) frames) :
    ∃ source, m.Heeds w source := by
  generalize hon : Suspension.wait j k w = on at h
  cases h with
  | entry _ _ => cases hon
  | children _ => cases hon
  | wait _ hneeds =>
    cases hon
    cases hneeds with
    | delay _ hw => exact ⟨_, hw⟩
    | join _ _ _ hw => exact ⟨_, hw⟩
    | await _ _ _ hw => exact ⟨_, hw⟩

theorem Rests.heeds_delay (ht : t.Valid) {j : JobId} {k w : Nat} {id : StatementId}
    (h : Rests t L m (.wait j k w) (.leave id :: outer)) (hmem : .leaf id (.delay time) ∈ t.nodes) :
    m.Heeds w none := by
  generalize hon : Suspension.wait j k w = on at h
  generalize hframes : ProgramFrame.leave id :: outer = frames at h
  cases h with
  | entry _ _ => cases hon
  | children _ => cases hon
  | wait _ hneeds =>
    cases hon
    cases hneeds with
    | delay _ hw => exact hw
    | join hmem' _ _ _ =>
      cases hframes
      cases ht.eq_of_id hmem hmem' rfl
    | await _ _ _ _ => cases hframes

theorem Sleeper.later (ht : t.Valid) {on : Suspension} (h : Sleeper t L m D on frames)
    (hr : Rests t L m on frames) (hl : Later L m D L' m' D') (hsmooth : Machine.Smooth 1 m m') :
    Sleeper t L' m' D' on frames := by
  have hwait : ∀ {j k w}, on = .wait j k w → m.timetable.waits[w]? ≠ some .cancelled →
      m'.timetable.waits[w]? ≠ some .cancelled := by
    rintro j k w rfl hw
    obtain ⟨source, hheeds⟩ := hr.heeds
    rcases hsmooth.wait hheeds with hsame | ⟨-, hdone⟩
    · exact hsame ▸ hw
    · exact hdone ▸ nofun
  cases h with
  | entry hout hchain harrives =>
    exact .entry hout (hchain.mono hl.ledger) (hsmooth.now.symm ▸ harrives.mono hl.kept.trace)
  | delay hin hover hsole =>
    obtain ⟨owner, body, hp⟩ := hin.placed
    have hheeds := hr.heeds_delay ht hp.head_mem_nodes
    exact .delay (hin.later hl) (hsmooth.overAt hheeds hover) (hsmooth.sole hheeds hsole)
  | join hin hs hg hlasts hw =>
    exact .join (hin.later hl) (hs.mono hl.ledger) hg (hlasts.later hl hsmooth.now) (hwait rfl hw)
  | await hin hs hlasts hw =>
    exact .await (hin.later hl) (hs.mono hl.ledger) (hlasts.later hl hsmooth.now) (hwait rfl hw)
  | children hchain harrives hc ho hp hlasts =>
    exact .children (hchain.mono hl.ledger) (harrives.mono hl.kept.trace) hc
      (getElem?_mono hl.ledger ho) hp (hlasts.later hl hsmooth.now)

structure Punctual (t : Statement) (L : Ledger) (D : JobId → Nat) (s : Snapshot) : Prop where
  untroubled : Machine.Untroubled 1 s.machine
  account : Account t L s.machine D
  running : ∀ {seat ticket frames result}, s.focus = .running seat ticket frames result →
    result = .ok () ∧ OnTime t L s.machine D frames
  seated : ∀ {i task}, s.machine.dispatcher.task? i = some task →
    Sleeper t L s.machine D task.on task.frames
  ending : ∀ {result time}, s.machine.env.ending = some (result, time) →
    result = .ok () ∧ ⟨t.id, .ended, time⟩ ∈ s.machine.env.trace.toList

end RacePuzzle
