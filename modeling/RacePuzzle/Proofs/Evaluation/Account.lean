import RacePuzzle.Proofs.Evaluation.Schedule
import RacePuzzle.Proofs.Evaluation.StructuredConcurrency

/-! The times of a fork-join run. Its trace and the times at which its jobs have settled keep an
account of each statement that has ended and of each job that has settled, from the time before it on.
Where all has ended, the account has one solution, which is the schedule of the program. -/
namespace RacePuzzle

variable {t : Statement} {L L' : Ledger} {m m' : ProgramMachine} {s s' : Snapshot} {D D' : JobId → Nat}
  {before : List Statement} {begun time : Nat}

structure Ledger.JobOf (L : Ledger) (g : Nat) (block : Statement) : Prop where
  two_le : 2 ≤ g
  origin : ∃ o, L[g]? = some o ∧ o.block = some block

/-- The time at which code comes to a place after the statements `before`. -/
def Arrives (tr : List TraceEntry) (before : List Statement) (time : Nat) : Prop :=
  match before.getLast? with
  | none => time = 0
  | some d => ⟨d.id, .ended, time⟩ ∈ tr

/-- What a leaf that begins at the time `begun` prints, and when. -/
inductive Prints (t : Statement) (L : Ledger) (m : ProgramMachine) (D : JobId → Nat) (begun : Nat) :
    Action → String → Nat → Prop
  | print {text} : Prints t L m D begun (.print text) text begun
  | result {var text g value} : StandsFor t L var (.deferred g value) → HasSettled m g →
      Prints t L m D begun (.printAwait var text) value (max begun (D g))
  | text {var text g} : StandsFor t L var (.task g) →
      Prints t L m D begun (.printAwait var text) text begun

/-- A statement after `before` that begins at the time `begun` ends at the other time. -/
inductive Took (t : Statement) (L : Ledger) (m : ProgramMachine) (D : JobId → Nat)
    (before : List Statement) (begun : Nat) : Statement → Nat → Prop
  | delay {id time} : Took t L m D before begun (.leaf id (.delay time)) (begun + time)
  | prints {id action value time} : Prints t L m D begun action value time →
      ⟨id, .printed value, time⟩ ∈ m.env.trace.toList → Took t L m D before begun (.leaf id action) time
  | join {id var handle g} : StandsFor t L var handle → handle.job? = some g → HasSettled m g →
      Took t L m D before begun (.leaf id (.join var)) (max begun (D g))
  | task {id head inner g} : L.JobOf g (.block id head inner) → head.makesJob = true →
      head.isScope = false → Took t L m D before begun (.block id head inner) begun
  | scope {id head inner g} : L.JobOf g (.block id head inner) → head.isScope = true →
      HasSettled m g → Took t L m D before begun (.block id head inner) (D g)
  | tryCatch {id kind inner time} : Arrives m.env.trace.toList (before ++ inner) time →
      Took t L m D before begun (.block id (.tryCatch kind) inner) time

/-- A job whose own code ends at the time `ended` completes at the other time: at the end of that or
of its last child. -/
structure Completes (L : Ledger) (D : JobId → Nat) (g : Nat) (ended time : Nat) : Prop where
  own : ended ≤ time
  children : ∀ {c : Nat} {o : Origin}, 2 ≤ c → L[c]? = some o → o.parent = g → D c ≤ time
  last : time = ended ∨ ∃ (c : Nat) (o : Origin), 2 ≤ c ∧ L[c]? = some o ∧ o.parent = g ∧ D c = time

/-- The account of what has happened; `D` gives the times at which jobs have settled. -/
structure Account (t : Statement) (L : Ledger) (m : ProgramMachine) (D : JobId → Nat) : Prop where
  ended : ∀ {owner before st rest time}, t.Placed owner before (st :: rest) →
    ⟨st.id, .ended, time⟩ ∈ m.env.trace.toList →
    ∃ begun, Arrives m.env.trace.toList before begun ∧ Took t L m D before begun st time
  settled : ∀ {g id head inner owner before rest}, L.JobOf g (.block id head inner) →
    HasSettled m g → t.Placed owner before (.block id head inner :: rest) →
    ∃ ended, Arrives m.env.trace.toList (before ++ inner) ended ∧ Completes L D g ended (D g)
  past : ∀ {g}, HasSettled m g → D g ≤ m.now

theorem arrives_concat {tr : List TraceEntry} {st : Statement} :
    Arrives tr (before ++ [st]) time ↔ ⟨st.id, .ended, time⟩ ∈ tr := by
  simp [Arrives]

theorem Arrives.mono {tr tr' : List TraceEntry} (htr : tr <+: tr') (h : Arrives tr before time) :
    Arrives tr' before time := by
  unfold Arrives at h ⊢
  split at h
  · exact h
  · exact htr.subset h

/-- Code has come to a place when all before it has ended. -/
theorem exists_arrives {tr : List TraceEntry} (h : ∀ d ∈ before, Logged tr d.id .ended) :
    ∃ time, Arrives tr before time := by
  rcases before.eq_nil_or_concat' with rfl | ⟨pre, d, rfl⟩
  · exact ⟨0, rfl⟩
  · obtain ⟨⟨id, mark, time⟩, he, rfl, rfl⟩ := h d (by simp)
    exact ⟨time, arrives_concat.2 he⟩

def Tariff.begins (id : StatementId) : Tariff where
  entry s := if s.id = id then 1 else 0
  leave _ := 0
  exit := 0

theorem sum_begins (id : StatementId) (l : List Statement) :
    (l.map (Tariff.begins id).node).sum = (l.map Statement.id).count id := by
  induction l with
  | nil => rfl
  | cons s rest ih =>
    have hnode : (Tariff.begins id).node s = if s.id = id then 1 else 0 := by
      cases s <;> simp [Tariff.node, Tariff.begins]
    rw [List.map_cons, List.sum_cons, ih, hnode, List.map_cons, List.count_cons, Nat.add_comm]
    simp

theorem cost_begins_le (hids : t.ids.Nodup) (h : History t L s) (id : StatementId) :
    s.cost (.begins id) ≤ 1 := by
  refine Nat.le_trans (Snapshot.cost_le_of_history h _) ?_
  rw [sum_begins]
  exact List.nodup_iff_count_le_one.1 hids id

/-- A block makes one job, and does not begin again. -/
theorem jobOf_spent (ht : t.Valid) (h : History t L s) {block : Statement} {g : Nat}
    (hg : L.JobOf g block) : s.cost (.begins block.id) = 0 ∧ ∀ g', L.JobOf g' block → g' = g := by
  induction h generalizing g with
  | start =>
    obtain ⟨htwo, o, ho, -⟩ := hg
    match g with
    | 0 | 1 => omega
    | g + 2 => cases ho
  | @next L L' s s' h hs hrec _ ih =>
    have hcost := Snapshot.cost_step h.upheld hs (.begins block.id)
    cases hrec with
    | nothing _ =>
      obtain ⟨hzero, hone⟩ := ih hg
      exact ⟨by omega, hone⟩
    | @job p new rank hmakes =>
      obtain ⟨j, id, head, inner, rfl, hbegins, -⟩ := Snapshot.begins_of_makes hmakes
      have hcases : ∀ {g'}, (L ++ [⟨p, some (.block id head inner), rank⟩] : Ledger).JobOf g' block →
          L.JobOf g' block ∨ g' = s.machine.jobs.size ∧ block = .block id head inner := by
        rintro g' ⟨htwo, o, ho, hblock⟩
        rcases h.upheld.ledger.of_getElem?_append ho with ho | ⟨hsize, rfl⟩
        · exact .inl ⟨htwo, o, ho, hblock⟩
        · exact .inr ⟨hsize, (Option.some.inj hblock).symm⟩
      have hprice : block = .block id head inner → s.price (.begins block.id) = 1 := by
        rintro rfl
        rw [hbegins.price_eq]
        exact if_pos rfl
      rcases hcases hg with hold | ⟨rfl, hnew⟩
      · obtain ⟨hzero, hone⟩ := ih hold
        refine ⟨by omega, fun g' hg' => ?_⟩
        rcases hcases hg' with hold' | ⟨-, hnew⟩
        · exact hone g' hold'
        · have := hprice hnew
          omega
      · have hone := hprice hnew
        have hle := cost_begins_le ht.ids h block.id
        refine ⟨by omega, fun g' hg' => ?_⟩
        rcases hcases hg' with hold' | ⟨hsize, -⟩
        · have := (ih hold').1
          omega
        · exact hsize

theorem History.jobOf_unique (ht : t.Valid) (h : History t L s) {block : Statement} {g g' : Nat}
    (hg : L.JobOf g block) (hg' : L.JobOf g' block) : g = g' :=
  ((jobOf_spent ht h hg').2 g hg)

/-- An account in which all that has begun has ended. -/
structure Closed (t : Statement) (L : Ledger) (m : ProgramMachine) (D : JobId → Nat) : Prop where
  valid : t.Valid
  forkJoin : t.ForkJoin
  account : Account t L m D
  fits : L.Fits t m
  unique : ∀ {block g g'}, L.JobOf g block → L.JobOf g' block → g = g'
  settled : ∀ {g block}, L.JobOf g block → HasSettled m g
  preceded : ∀ {st mark}, st ∈ t.nodes → Logged m.env.trace.toList st.id mark →
    Preceded t m.env.trace.toList st

/-- Handles promise what becomes of their jobs. -/
def Keeps (L : Ledger) (D : JobId → Nat) (known : Promises) (before : List Statement) : Prop :=
  ∀ d ∈ before, ∀ var g, d.declares? = some var → L.JobOf g d →
    known var = some (d.promise (D g))

/-- The span fits the jobs of code with these makers, and what its statements have printed. -/
structure Solves (L : Ledger) (m : ProgramMachine) (D : JobId → Nat) (span : Span)
    (makers nodes : List Statement) : Prop where
  within : ∀ x ∈ makers, ∀ g, L.JobOf g x → D g ≤ max span.finish span.settled
  last : span.settled = 0 ∨ ∃ x ∈ makers, ∃ g, L.JobOf g x ∧ D g = span.settled
  events : ∃ tags : List (StatementId × TimedPrint), tags.map Prod.snd = span.events ∧
    tags.map Prod.fst = (nodes.filter (·.printedText?.isSome)).map Statement.id ∧
    ∀ tag ∈ tags, tag ∈ m.env.trace.toList.filterMap TraceEntry.tagged?

theorem mem_tagged {tr : List TraceEntry} {id : StatementId} {value : String}
    (h : ⟨id, .printed value, time⟩ ∈ tr) :
    (id, ⟨value, time⟩) ∈ tr.filterMap TraceEntry.tagged? :=
  List.mem_filterMap.2 ⟨_, h, rfl⟩

/-- The handle that an action uses promises what becomes of its job. -/
theorem Keeps.of_standsFor (ht : t.Valid) (hfits : L.Fits t m) {known : Promises}
    (hknown : Keeps L D known before) {owner : Option Statement} {id : StatementId} {action : Action}
    {rest : List Statement} (hp : t.Placed owner before (.leaf id action :: rest)) {var : String}
    (hu : action.uses? = some var) {handle : Referent} (hs : StandsFor t L var handle) {g : JobId}
    (hg : handle.job? = some g) : known var = some ⟨D g, match handle with
      | .deferred _ value => some value
      | _ => none⟩ := by
  obtain ⟨d, hd, hdeclares⟩ := ht.exists_declaration hp hu
  have hmem := hp.before_mem_nodes hd
  have hmade : ∀ {g : Nat} {o : Origin} {block : Statement}, 2 ≤ g → L[g]? = some o →
      o.block = some block → block.declares? = some var → d = block ∧ L.JobOf g block := by
    intro g o block htwo ho hblock hdecl
    obtain ⟨-, _, _, _, hmade⟩ := hfits.made htwo ho
    cases hblock.symm.trans hmade.block
    exact ⟨ht.eq_of_declares hmem hmade.mem_nodes hdeclares hdecl, htwo, o, ho, hblock⟩
  cases hs with
  | task htwo ho hblock =>
    cases hg
    obtain ⟨rfl, hjob⟩ := hmade htwo ho hblock rfl
    exact hknown _ hd var _ hdeclares hjob
  | deferred htwo ho hblock =>
    cases hg
    obtain ⟨rfl, hjob⟩ := hmade htwo ho hblock rfl
    exact hknown _ hd var _ hdeclares hjob
  | bare _ => cases hg

namespace Closed

variable {known : Promises} {now : Nat} {owner : Option Statement}

theorem solves_silent {id : StatementId} {action : Action} {finish : Nat}
    (h : (Statement.leaf id action).printedText? = none) :
    Solves L m D ⟨finish, 0, []⟩ [] (Statement.leaf id action).nodes where
  within := nofun
  last := .inl rfl
  events := ⟨[], rfl, by simp [Statement.nodes, h], nofun⟩

theorem solves_print {id : StatementId} {action : Action} {finish : Nat} {value : String}
    (h : ((Statement.leaf id action).printedText?).isSome = true)
    (hmem : ⟨id, .printed value, time⟩ ∈ m.env.trace.toList) :
    Solves L m D ⟨finish, 0, [⟨value, time⟩]⟩ [] (Statement.leaf id action).nodes where
  within := nofun
  last := .inl rfl
  events := by
    refine ⟨[(id, ⟨value, time⟩)], rfl, by simp [Statement.nodes, h, Statement.id], fun tag htag => ?_⟩
    obtain rfl := List.mem_singleton.1 htag
    exact mem_tagged hmem

theorem solve_leaf (h : Closed t L m D) {id : StatementId} {action : Action} {rest : List Statement}
    (hp : t.Placed owner before (.leaf id action :: rest)) (hknown : Keeps L D known before)
    (hnow : ∀ b, Arrives m.env.trace.toList before b → b = now)
    (hended : ⟨id, .ended, time⟩ ∈ m.env.trace.toList) :
    time = (action.span known now).finish ∧
      Solves L m D (action.span known now) [] (Statement.leaf id action).nodes := by
  obtain ⟨begun, hbegun, htook⟩ := h.account.ended hp hended
  obtain rfl := hnow begun hbegun
  cases htook with
  | delay => exact ⟨rfl, solves_silent rfl⟩
  | @prints _ _ value _ hprints hmem =>
    cases hprints with
    | print => exact ⟨rfl, solves_print rfl hmem⟩
    | @result var text g _ hs _ =>
      have hspan : (Action.printAwait var text).span known begun =
          ⟨max begun (D g), 0, [⟨value, max begun (D g)⟩]⟩ := by
        simp only [Action.span, hknown.of_standsFor h.valid h.fits hp rfl hs rfl]
      exact hspan ▸ ⟨rfl, solves_print rfl hmem⟩
    | @text var _ g hs =>
      have hspan : (Action.printAwait var value).span known time = ⟨time, 0, [⟨value, time⟩]⟩ := by
        simp only [Action.span, hknown.of_standsFor h.valid h.fits hp rfl hs rfl]
      exact hspan ▸ ⟨rfl, solves_print rfl hmem⟩
  | @join _ var handle g hs hg _ =>
    have hspan : (Action.join var).span known begun = ⟨max begun (D g), 0, []⟩ := by
      simp only [Action.span, hknown.of_standsFor h.valid h.fits hp rfl hs hg, Option.elim_some]
    exact hspan ▸ ⟨rfl, solves_silent rfl⟩

/-- All of a body has ended when its end has been reached. -/
theorem ended_of_arrives (h : Closed t L m D) {body : List Statement} (hp : t.Placed owner before body)
    (harrives : Arrives m.env.trace.toList (before ++ body) time) :
    ∀ d ∈ body, Logged m.env.trace.toList d.id .ended := by
  rcases body.eq_nil_or_concat' with rfl | ⟨pre, last, rfl⟩
  · exact nofun
  · rw [← List.append_assoc, arrives_concat] at harrives
    have hlast := hp.drop
    have hended : Logged m.env.trace.toList last.id .ended := ⟨_, harrives, rfl, rfl⟩
    intro d hd
    rcases List.mem_append.1 hd with hd | hd
    · exact h.preceded hlast.head_mem_nodes hended _ _ _ hlast d (List.mem_append_right _ hd)
    · obtain rfl := List.mem_singleton.1 hd
      exact hended

/-- The owner of a statement that makes a job is the block of the parent of the job. -/
theorem jobOf_parent (h : Closed t L m D) {c : Nat} {o : Origin} {x block : Statement}
    {rest : List Statement} (hc : 2 ≤ c) (ho : L[c]? = some o) (hblock : o.block = some x)
    (hp : t.Placed (some block) before (x :: rest)) : L.JobOf o.parent block := by
  obtain ⟨hlt, id, head, inner, hmade⟩ := h.fits.made hc ho
  cases hblock.symm.trans hmade.block
  obtain ⟨owner, before', rest', hplace, -, hparent⟩ := hmade.place
  obtain ⟨rfl, -⟩ := h.valid.place_unique hplace hp
  have hne : o.parent ≠ 1 := fun hone =>
    h.forkJoin.ne_scopeLaunch hmade.mem_nodes (hmade.detached hone)
  have hget := List.getElem?_eq_getElem
    (Nat.lt_trans hlt (List.getElem?_eq_some_iff.1 ho).1 : o.parent < L.length)
  have howner := (hparent hne _ hget).2
  exact ⟨h.fits.two_le hget howner hne, _, hget, howner⟩

/-- A job completes when its body has ended and the last of its children has completed. -/
theorem completion_eq (h : Closed t L m D) {g : Nat} {id : StatementId} {head : Head}
    {inner rest : List Statement} (hg : L.JobOf g (.block id head inner))
    (hp : t.Placed owner before (.block id head inner :: rest)) (hmakes : head.makesJob = true)
    {span : Span}
    (hfinish : ∀ time, Arrives m.env.trace.toList (before ++ inner) time → time = span.finish)
    (hsolves : Solves L m D span (Statement.bodyMakers inner) (Statement.bodyNodes inner)) :
    D g = max span.finish span.settled := by
  obtain ⟨ended, harrives, hcompletes⟩ := h.account.settled hg (h.settled hg) hp
  obtain rfl := hfinish ended harrives
  have hinside := hp.inside
  rw [Statement.ownerInside, if_pos hmakes] at hinside
  refine Nat.le_antisymm ?_ (Nat.max_le.2 ⟨hcompletes.own, ?_⟩)
  · rcases hcompletes.last with hown | ⟨c, o, hc, ho, hparent, hlast⟩
    · exact hown ▸ Nat.le_max_left _ _
    · -- the last child is one of the makers of the body
      obtain ⟨-, id', head', inner', hmade⟩ := h.fits.made hc ho
      obtain ⟨owner', before', rest', hplace, -, howner⟩ := hmade.place
      obtain ⟨htwo, og, hog, hblock⟩ := hg
      obtain ⟨-, hblock'⟩ := howner (hparent ▸ Nat.ne_of_gt htwo) og (hparent ▸ hog)
      have hmem := hplace.mem_makers (hblock'.symm.trans hblock)
      rw [Statement.bodyMakers, Statement.makers_of_makesJob hmade.makesJob] at hmem
      exact hlast ▸ hsolves.within _ (hmem List.mem_cons_self) c ⟨hc, o, ho, hmade.block⟩
  · rcases hsolves.last with hzero | ⟨x, hx, c, ⟨hc, o, ho, hblock⟩, hlast⟩
    · exact hzero ▸ Nat.zero_le _
    · obtain ⟨before', rest', hplace⟩ := Statement.exists_placed_of_mem_bodyMakers inner hinside hx
      have hparent := h.unique (h.jobOf_parent hc ho hblock hplace) hg
      exact hlast ▸ hcompletes.children hc ho hparent

/-- The handle that a statement binds promises what becomes of the job. -/
theorem keeps_after (h : Closed t L m D) {st : Statement} {rest : List Statement}
    (hp : t.Placed owner before (st :: rest)) (hknown : Keeps L D known before)
    (hpromise : ∀ var g, st.declares? = some var → L.JobOf g st → D g = time) :
    Keeps L D (known.after st time) (before ++ [st]) := by
  intro d hd var g hdeclares hg
  have hmem : d ∈ t.nodes := hp.next.before_mem_nodes hd
  unfold Promises.after
  split
  · next hst =>
    obtain rfl := h.valid.eq_of_declares hmem hp.head_mem_nodes hdeclares hst
    rw [hpromise var g hst hg]
  · next hst =>
    rcases List.mem_append.1 hd with hd | hd
    · exact hknown d hd var g hdeclares hg
    · obtain rfl := List.mem_singleton.1 hd
      exact absurd hdeclares hst

/-- The spans of two pieces of code one after the other. -/
theorem solves_append {first later : Span} {makers makers' nodes nodes' : List Statement}
    (hle : first.finish ≤ later.finish) (h : Solves L m D first makers nodes)
    (h' : Solves L m D later makers' nodes') :
    Solves L m D ⟨later.finish, max first.settled later.settled, first.events ++ later.events⟩
      (makers ++ makers') (nodes ++ nodes') where
  within x hx g hg := by
    dsimp only
    rcases List.mem_append.1 hx with hx | hx
    · have := h.within x hx g hg
      omega
    · have := h'.within x hx g hg
      omega
  last := by
    dsimp only
    rcases Nat.le_total first.settled later.settled with hmax | hmax
    · rw [Nat.max_eq_right hmax]
      exact h'.last.imp_right fun ⟨x, hx, hg⟩ => ⟨x, List.mem_append_right _ hx, hg⟩
    · rw [Nat.max_eq_left hmax]
      exact h.last.imp_right fun ⟨x, hx, hg⟩ => ⟨x, List.mem_append_left _ hx, hg⟩
  events := by
    obtain ⟨tags, hevents, hids, hmem⟩ := h.events
    obtain ⟨tags', hevents', hids', hmem'⟩ := h'.events
    refine ⟨tags ++ tags', by simp [hevents, hevents'], by simp [hids, hids'], fun tag htag => ?_⟩
    exact (List.mem_append.1 htag).elim (hmem tag) (hmem' tag)

/-- A block that makes a job, which settles at the time `done`. -/
theorem solves_block (h : Closed t L m D) {g : Nat} {id : StatementId} {head : Head}
    {inner : List Statement} (hmakes : head.makesJob = true) (hg : L.JobOf g (.block id head inner))
    {span : Span} {finish settled : Nat} (hbound : D g ≤ max finish settled)
    (hlast : settled = 0 ∨ D g = settled)
    (hsolves : Solves L m D span (Statement.bodyMakers inner) (Statement.bodyNodes inner)) :
    Solves L m D ⟨finish, settled, span.events⟩ (Statement.block id head inner).makers
      (Statement.block id head inner).nodes where
  within x hx g' hg' := by
    rw [Statement.makers_of_makesJob hmakes, List.mem_singleton] at hx
    obtain rfl := h.unique (hx ▸ hg') hg
    exact hbound
  last := by
    rw [Statement.makers_of_makesJob hmakes]
    exact hlast.imp_right fun he => ⟨_, List.mem_singleton_self _, g, hg, he⟩
  events := by
    obtain ⟨tags, hevents, hids, hmem⟩ := hsolves.events
    exact ⟨tags, hevents, by simpa [Statement.nodes, Statement.printedText?] using hids, hmem⟩

mutual
/-- In a closed account a statement that begins at the time `now` has ended as its span says. -/
theorem solve (h : Closed t L m D) {known : Promises} {now : Nat} {owner : Option Statement}
    {before : List Statement} : (st : Statement) → {rest : List Statement} → {time : Nat} →
      t.Placed owner before (st :: rest) → Keeps L D known before →
      (∀ b, Arrives m.env.trace.toList before b → b = now) →
      ⟨st.id, .ended, time⟩ ∈ m.env.trace.toList →
      time = (st.span known now).finish ∧ Solves L m D (st.span known now) st.makers st.nodes ∧
        ∀ var g, st.declares? = some var → L.JobOf g st → D g = (st.span known now).settled
  | .leaf id action, rest, time, hp, hknown, hnow, hended => by
    obtain ⟨hfinish, hsolves⟩ := h.solve_leaf hp hknown hnow hended
    refine ⟨hfinish, hsolves, fun var g _ hg => ?_⟩
    obtain ⟨htwo, o, ho, hblock⟩ := hg
    obtain ⟨-, _, _, _, hmade⟩ := h.fits.made htwo ho
    cases hblock.symm.trans hmade.block
  | .block id head inner, rest, time, hp, hknown, hnow, hended => by
    obtain ⟨begun, hbegun, htook⟩ := h.account.ended hp hended
    obtain rfl := hnow begun hbegun
    have hinner : ∀ {time}, Arrives m.env.trace.toList (before ++ inner) time →
        (∀ time, Arrives m.env.trace.toList (before ++ inner) time →
          time = (Statement.bodySpan known begun inner).finish) ∧
        Solves L m D (Statement.bodySpan known begun inner) (Statement.bodyMakers inner)
          (Statement.bodyNodes inner) :=
      fun harrives => h.solveBody inner hp.inside (h.ended_of_arrives hp.inside harrives) hknown hnow
    -- a block that makes a job
    have hjob : ∀ {g}, L.JobOf g (.block id head inner) → head.makesJob = true →
        D g = max (Statement.bodySpan known begun inner).finish
          (Statement.bodySpan known begun inner).settled ∧
        Solves L m D (Statement.bodySpan known begun inner) (Statement.bodyMakers inner)
          (Statement.bodyNodes inner) := by
      intro g hg hmakes
      obtain ⟨ended, harrives, -⟩ := h.account.settled hg (h.settled hg) hp
      obtain ⟨hfinish, hsolves⟩ := hinner harrives
      exact ⟨h.completion_eq hg hp hmakes hfinish hsolves, hsolves⟩
    cases htook with
    | @task _ _ _ g hg hmakes hscope =>
      obtain ⟨hdone, hsolves⟩ := hjob hg hmakes
      have hspan : (Statement.block id head inner).span known time = ⟨time, D g,
          (Statement.bodySpan known time inner).events⟩ := by
        rw [hdone, Statement.span, Head.span_of_task hmakes hscope]
      rw [hspan]
      exact ⟨rfl, h.solves_block hmakes hg (Nat.le_max_right _ _) (.inr rfl) hsolves,
        fun var g' _ hg' => congrArg D (h.unique hg' hg)⟩
    | @scope _ _ _ g hg hscope _ =>
      obtain ⟨hmakes, hnone⟩ := Head.makesJob_of_isScope hscope
      obtain ⟨hdone, hsolves⟩ := hjob hg hmakes
      have hspan : (Statement.block id head inner).span known begun = ⟨D g, 0,
          (Statement.bodySpan known begun inner).events⟩ := by
        rw [hdone, Statement.span, Head.span_of_scope hscope]
      rw [hspan]
      exact ⟨rfl, h.solves_block hmakes hg (Nat.le_max_left _ _) (.inl rfl) hsolves,
        fun var g' hd => nomatch hnone.symm.trans hd⟩
    | tryCatch harrives =>
      obtain ⟨hfinish, hsolves⟩ := hinner harrives
      refine ⟨hfinish _ harrives, ⟨hsolves.within, hsolves.last, ?_⟩, fun var g hd => nomatch hd⟩
      obtain ⟨tags, hevents, hids, hmem⟩ := hsolves.events
      exact ⟨tags, hevents, by simpa [Statement.nodes, Statement.printedText?] using hids, hmem⟩
theorem solveBody (h : Closed t L m D) {known : Promises} {now : Nat} {owner : Option Statement}
    {before : List Statement} : (body : List Statement) → t.Placed owner before body →
      (∀ d ∈ body, Logged m.env.trace.toList d.id .ended) → Keeps L D known before →
      (∀ b, Arrives m.env.trace.toList before b → b = now) →
      (∀ time, Arrives m.env.trace.toList (before ++ body) time →
        time = (Statement.bodySpan known now body).finish) ∧
      Solves L m D (Statement.bodySpan known now body) (Statement.bodyMakers body)
        (Statement.bodyNodes body)
  | [], _, _, _, hnow =>
    ⟨fun time harrives => hnow time (by rwa [List.append_nil] at harrives),
      nofun, .inl rfl, [], rfl, rfl, nofun⟩
  | st :: rest, hp, hended, hknown, hnow => by
    obtain ⟨⟨id, mark, time⟩, he, hid, rfl⟩ := hended st List.mem_cons_self
    obtain rfl : id = st.id := hid
    obtain ⟨-, hsolves, hpromise⟩ := h.solve st hp hknown hnow he
    have hnext : ∀ b, Arrives m.env.trace.toList (before ++ [st]) b →
        b = (st.span known now).finish :=
      fun b hb => (h.solve st hp hknown hnow (arrives_concat.1 hb)).1
    obtain ⟨hlast, hlater⟩ := h.solveBody rest hp.next
      (fun d hd => hended d (List.mem_cons_of_mem _ hd)) (h.keeps_after hp hknown hpromise) hnext
    refine ⟨fun time harrives => hlast time ?_, ?_⟩
    · rwa [List.append_assoc]
    · exact solves_append (Statement.le_finish_body ..) hsolves hlater
end

end Closed

end RacePuzzle
