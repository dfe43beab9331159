import RacePuzzle.Proofs.Generation.Declaration
import RacePuzzle.Proofs.Program.Insertion

/-! Growth of random programs. A step keeps a program valid and within its target size, and what is
left in the pools is enough for the statements that are still to come. -/
namespace RacePuzzle

namespace Statement

variable {t : Statement} {pool : Pool}

/-- The handles are the names of jobs and of variables. -/
theorem declares?_eq_some {s : Statement} {var : String} : s.declares? = some var ↔
    valueOf? .jobNames s = some var ∨ valueOf? .variableNames s = some var := by
  cases s with
  | leaf i action =>
    cases action <;> simp [declares?, Action.declares?, valueOf?]
  | block i head body =>
    cases head <;> simp [declares?, Head.declares?, valueOf?]

theorem mem_declared {var : String} : var ∈ t.declared ↔
    var ∈ t.valuesOf .jobNames ∨ var ∈ t.valuesOf .variableNames := by
  simp only [declared, valuesOf, List.mem_filterMap, declares?_eq_some, and_or_left, exists_or]

theorem length_valuesOf_le (t : Statement) (hpool : pool ≠ .strings) :
    (t.valuesOf pool).length ≤ t.declared.length := by
  rw [valuesOf, declared, List.length_filterMap_eq_countP, List.length_filterMap_eq_countP]
  refine List.countP_mono_left fun s _ hs => ?_
  obtain ⟨var, hvar⟩ := Option.isSome_iff_exists.1 hs
  refine Option.isSome_iff_exists.2 ⟨var, declares?_eq_some.2 ?_⟩
  cases pool with
  | jobNames => exact .inl hvar
  | variableNames => exact .inr hvar
  | strings => exact absurd rfl hpool

/-- The handle of every usage is declared, so that every handle with a text is. -/
theorem BodyCovered.mem_declared_of_announced {body : List Statement}
    (h : BodyCovered (fun _ => False) body) {var text : String}
    (hmem : (var, text) ∈ (bodyNodes body).filterMap announced?) :
    var ∈ (bodyNodes body).filterMap declares? := by
  obtain ⟨s, hs, hannounced⟩ := List.mem_filterMap.1 hmem
  rcases handle_of_announced? hannounced with hd | hu
  · exact List.mem_filterMap.2 ⟨s, hs, hd⟩
  · exact (h.declared s hs var hu).resolve_left not_false

end Statement

open Statement (bodyNodes bodySize BodyCovered valueOf? Gains Inserted InsertedAfter Shallow)

namespace Generation

variable {ample : Prop} {s s' s₁ s₂ : Supply} {kind : Ingredient} {t d : Statement}
  {target room : Nat} {root : StatementId} {usages body body' : List Statement}

/-- The supply has neither ids nor names of the program, and all others. -/
structure Supplies (s : Supply) (t : Statement) : Prop where
  unused : Statement.Unused s.nextId [t]
  names : ∀ pool, s.names.Suits pool (t.valuesOf pool)

theorem Supplies.idle (h : Supplies s t) (hs : Idle s s') : Supplies s' t :=
  ⟨hs.nextId ▸ h.unused, fun pool => hs.names ▸ h.names pool⟩

/-- A program on its way to `target` statements. Every handle has a usage at least. -/
structure Growing (target : Nat) (s : Supply) (t : Statement) : Prop where
  valid : t.Valid
  supplies : Supplies s t
  distinct : Statement.Distinct t.nodes
  seconds : Statement.WholeSeconds t.nodes
  paired : 2 * t.declared.length ≤ t.size
  size : t.size ≤ target

/-- The root has no text, so that the texts last for one statement more than there are. -/
theorem Growing.strings_left (h : Growing target s t) (htarget : target ≤ 1027) :
    target - t.size ≤ (s.names.left .strings).length := by
  have hplenty := (h.supplies.names .strings).plenty
  rw [Pool.length_strings] at hplenty
  obtain ⟨root, body, rfl, -⟩ := h.valid.exists_covered
  have hvalues : ((Statement.block root .coroutineScope body).valuesOf .strings).length ≤ bodySize body :=
    Nat.le_trans (List.length_filterMap_le (valueOf? .strings) (bodyNodes body))
      (Nat.le_of_eq (Statement.length_bodyNodes body))
  rw [Statement.size]
  omega

theorem Growing.handles_left (h : Growing target s t) (htarget : target ≤ 1027) {pool : Pool}
    (hpool : pool ≠ .strings) : 2 ≤ (s.names.left pool).length := by
  have hplenty := (h.supplies.names pool).plenty
  have hstock := pool.le_length_stock
  have hvalues := t.length_valuesOf_le hpool
  have hpaired := h.paired
  have hsize := h.size
  omega

/-- No pool runs out before a program of such a size is complete. -/
theorem Growing.demand_le (h : Growing target s t) (hfits : kind.leastSize ≤ target - t.size)
    (htarget : target ≤ 1027) (pool : Pool) : kind.demand pool ≤ (s.names.left pool).length := by
  cases pool with
  | strings =>
    refine Nat.le_trans (Nat.le_trans ?_ hfits) (h.strings_left htarget)
    cases kind <;> decide
  | variableNames | jobNames =>
    refine Nat.le_trans ?_ (h.handles_left htarget (by decide))
    cases kind <;> decide

/-- A new handle is no handle of the program. -/
theorem Supplies.not_mem_declared (h : Supplies s t) (hd : Draws s s₁ [d]) {var : String}
    (hvar : d.declares? = some var) : var ∉ t.declared := by
  have hleft : ∀ pool, valueOf? pool d = some var → var ∈ s.names.left pool := fun pool hv => by
    rw [hd.names pool]
    refine List.mem_append_left _ (List.mem_filterMap.2 ⟨d, ?_, hv⟩)
    exact List.mem_append_left _ (Statement.self_mem_nodes d)
  rw [Statement.mem_declared]
  rcases Statement.declares?_eq_some.1 hvar with hv | hv <;> rintro (hjob | hvariable)
  · exact (h.names .jobNames).apart var hjob (hleft _ hv)
  · exact Pool.not_mem_variableNames ((h.names .jobNames).left.subset (hleft _ hv))
      ((h.names .variableNames).stocked var hvariable)
  · exact Pool.not_mem_variableNames ((h.names .jobNames).stocked var hjob)
      ((h.names .variableNames).left.subset (hleft _ hv))
  · exact (h.names .variableNames).apart var hvariable (hleft _ hv)

/-- A declaration has its usages with it, all under fresh ids. -/
structure Addition (kind : Ingredient) (s : Supply) (d : Statement) (usages : List Statement)
    (s' : Supply) : Prop where
  counter : s.nextId ≤ s'.nextId
  ids : ∀ i ∈ (d.nodes ++ usages).map Statement.id, s.nextId ≤ i ∧ i < s'.nextId
  nodup : ((d.nodes ++ usages).map Statement.id).Nodup
  length : (d.nodes ++ usages).length = d.size + kind.usageTotal
  covered : d.Covered fun _ => False
  bound : d.declares?.isSome = kind.hasUsages
  declared : (d.nodes ++ usages).filterMap Statement.declares? = d.declares?.toList
  printed : (usages.filterMap Statement.printedText?).Sublist d.result?.toList
  seconds : Statement.WholeSeconds (d.nodes ++ usages)
  usages : ∀ usage ∈ usages, ∃ i action, usage = .leaf i action ∧ UsageOf d action
  draws : Draws s s' [d]

theorem NewDeclaration.addition (hd : NewDeclaration kind room s d s₁)
    (hu : NewLeaves (usageActions kind d) s₁ usages s₂) : Addition kind s d usages s₂ := by
  have hnodes : bodyNodes [d] = d.nodes := List.append_nil _
  have hids := hd.draws.ids
  have hnodup := hd.draws.nodup
  rw [hnodes] at hids hnodup
  have husages : ∀ usage ∈ usages, ∃ i action, usage = .leaf i action ∧ UsageOf d action := by
    intro usage husage
    obtain ⟨i, action, haction, rfl⟩ := hu.actions usage husage
    exact ⟨i, action, rfl, usageOf_of_mem haction⟩
  refine ⟨Nat.le_trans hd.draws.counter hu.counter, ?_, ?_, ?_, hd.covered, hd.bound, ?_, hu.printed,
    hd.seconds.append fun time htime => ?_, husages, ?_⟩
  · intro i hi
    rw [List.map_append, List.mem_append] at hi
    rcases hi with hi | hi
    · exact ⟨(hids i hi).1, Nat.lt_of_lt_of_le (hids i hi).2 hu.counter⟩
    · exact ⟨Nat.le_trans hd.draws.counter (hu.ids i hi).1, (hu.ids i hi).2⟩
  · rw [List.map_append]
    refine List.nodup_append.2 ⟨hnodup, hu.nodup, fun i hi j hj he => ?_⟩
    subst he
    exact absurd (Nat.lt_of_lt_of_le (hids i hi).2 (hu.ids i hj).1) (Nat.lt_irrefl i)
  · rw [List.length_append, Statement.length_nodes, hu.length, hd.usages]
  · have hnone : usages.filterMap Statement.declares? = [] := List.filterMap_eq_nil_iff.2 fun usage h => by
      obtain ⟨i, action, rfl, hof⟩ := husages usage h
      exact hof.declares
    rw [List.filterMap_append, hd.declared, hnone, List.append_nil]
  · obtain ⟨usage, husage, hdelay⟩ := List.mem_filterMap.1 htime
    obtain ⟨i, action, rfl, hof⟩ := husages usage husage
    obtain ⟨var, -, huses⟩ := hof.uses
    cases (Statement.delay?_of_uses? huses).symm.trans hdelay
  · refine ⟨Nat.le_trans hd.draws.counter hu.counter, fun i hi => ?_, hd.draws.nodup, ?_⟩
    · obtain ⟨hle, hlt⟩ := hd.draws.ids i hi
      exact ⟨hle, Nat.lt_of_lt_of_le hlt hu.counter⟩
    · exact hu.names ▸ hd.draws.names

/-- The new statements take their values from the pools or from each other. -/
theorem Addition.suits (h : Addition kind s d usages s') {pool : Pool} {used : List String}
    (hs : s.names.Suits pool used) :
    s'.names.Suits pool ((d.nodes ++ usages).filterMap (valueOf? pool) ++ used) := by
  have hnames := h.draws.names pool
  rw [show bodyNodes [d] = d.nodes from List.append_nil _] at hnames
  have hdrawn := hs.draw hnames
  have hreused : usages.filterMap (valueOf? pool) ⊆ d.nodes.filterMap (valueOf? pool) ++ used := by
    intro value hv
    obtain ⟨usage, husage, hv⟩ := List.mem_filterMap.1 hv
    obtain ⟨i, action, rfl, hof⟩ := h.usages usage husage
    exact List.mem_append_left _ (List.mem_filterMap.2
      ⟨d, Statement.self_mem_nodes d, hof.values i pool value hv⟩)
  refine (hdrawn.reuse hreused).perm ?_
  rw [List.filterMap_append, ← List.append_assoc]
  exact List.perm_append_comm.append_right _

/-- Inside the declaration no handle is declared, and none is used. -/
theorem Addition.body_quiet {i : StatementId} {head : Head}
    (h : Addition kind s (.block i head body) usages s') {x : Statement} (hx : x ∈ bodyNodes body) :
    x.declares? = none ∧ x.uses? = none := by
  have hdeclared := h.declared
  rw [List.filterMap_append, Statement.nodes] at hdeclared
  have hnone : (bodyNodes body).filterMap Statement.declares? = [] := by
    cases hd : (Statement.block i head body).declares? with
    | none =>
      rw [List.filterMap_cons_none hd, hd] at hdeclared
      exact (List.append_eq_nil_iff.1 hdeclared).1
    | some var =>
      rw [List.filterMap_cons_some hd, hd] at hdeclared
      exact (List.append_eq_nil_iff.1 (List.tail_eq_of_cons_eq hdeclared)).1
  refine ⟨List.filterMap_eq_nil_iff.1 hnone x hx, Option.eq_none_iff_forall_ne_some.2 fun var hvar => ?_⟩
  have hmem := (BodyCovered.declared h.covered x hx var hvar).resolve_left not_false
  rw [hnone] at hmem
  cases hmem

/-- Whatever has a handle and a text in an addition has those of the declaration. -/
theorem Addition.announced (h : Addition kind s d usages s') {x : Statement} (hx : x ∈ d.nodes ++ usages)
    {pair : String × String} (hpair : x.announced? = some pair) : d.announced? = some pair := by
  obtain ⟨var, text⟩ := pair
  rcases List.mem_append.1 hx with hx | hx
  · cases d with
    | leaf i action =>
      obtain rfl := List.mem_singleton.1 hx
      exact hpair
    | block i head body =>
      rcases List.mem_cons.1 hx with rfl | hx
      · exact hpair
      · obtain ⟨hd, hu⟩ := h.body_quiet hx
        rcases Statement.handle_of_announced? hpair with hvar | hvar
        · cases hd.symm.trans hvar
        · cases hu.symm.trans hvar
  · obtain ⟨i, action, rfl, hof⟩ := h.usages x hx
    obtain ⟨var', hdeclares, huses⟩ := hof.uses
    cases action with
    | printAwait v x =>
      cases hpair
      cases huses
      have hvalue := hof.values i .strings text rfl
      cases d with
      | leaf j action =>
        cases action with
        | job v' => cases hvalue
        | _ => cases hdeclares
      | block j head body =>
        cases head with
        | async v' result =>
          cases hdeclares
          cases hvalue
          rfl
        | _ => cases hvalue
    | _ => cases hpair

theorem Addition.declares (h : Addition kind s d usages s') {x : Statement} (hx : x ∈ d.nodes ++ usages)
    {var text : String} (hannounced : x.announced? = some (var, text)) : d.declares? = some var := by
  refine (Statement.handle_of_announced? (h.announced hx hannounced)).resolve_right fun hvar => ?_
  cases d with
  | leaf i action => exact h.covered var hvar
  | block i head body => cases hvar

/-- The texts of an addition come from the pool. -/
theorem Addition.mem_left (h : Addition kind s d usages s') {text : String}
    (htext : text ∈ (d.nodes ++ usages).filterMap Statement.printedText?) :
    text ∈ s.names.left .strings := by
  have hdrawn := h.draws.names .strings
  rw [show bodyNodes [d] = d.nodes from List.append_nil _] at hdrawn
  rw [hdrawn]
  refine List.mem_append_left _ ?_
  obtain ⟨x, hx, htext⟩ := List.mem_filterMap.1 htext
  rcases List.mem_append.1 hx with hx | hx
  · exact Statement.printed_subset_strings d.nodes (List.mem_filterMap.2 ⟨x, hx, htext⟩)
  · obtain ⟨i, action, rfl, hof⟩ := h.usages x hx
    refine List.mem_filterMap.2 ⟨d, Statement.self_mem_nodes d, hof.values i .strings text ?_⟩
    cases action with
    | print | printAwait => exact htext
    | _ => cases htext

/-- Each of them goes to one statement. -/
theorem Addition.distinct (h : Addition kind s d usages s') (hs : (s.names.left .strings).Nodup) :
    Statement.Distinct (d.nodes ++ usages) := by
  have hdrawn := h.draws.names .strings
  rw [show bodyNodes [d] = d.nodes from List.append_nil _] at hdrawn
  refine ⟨?_, fun hmem hmem' => ?_⟩
  · have hnodup : (d.nodes.filterMap (valueOf? .strings)).Nodup := by
      rw [hdrawn] at hs
      exact (List.nodup_append.1 hs).1
    have hresult : d.result?.toList.Sublist (d.nodes.filterMap Statement.result?) := by
      have hself := (List.singleton_sublist.2 (Statement.self_mem_nodes d)).filterMap Statement.result?
      rwa [List.filterMap_cons, List.filterMap_nil] at hself
    rw [List.filterMap_append]
    refine ((Statement.perm_strings d.nodes).nodup_iff.2 hnodup).sublist ?_
    exact (List.Sublist.refl _).append (h.printed.trans hresult)
  · obtain ⟨x, hx, hannounced⟩ := List.mem_filterMap.1 hmem
    obtain ⟨x', hx', hannounced'⟩ := List.mem_filterMap.1 hmem'
    have hd := h.announced hx hannounced
    have hd' := h.announced hx' hannounced'
    cases hd.symm.trans hd'
    rfl

/-- No text of an addition is one of the program, and no handle. -/
theorem Growing.distinct_add (h : Growing target s (.block root .coroutineScope body))
    (ha : Addition kind s d usages s') (hgains : Gains (d.nodes ++ usages) body body') :
    Statement.Distinct (Statement.block root .coroutineScope body').nodes := by
  have hstrings := h.supplies.names .strings
  have hnew := ha.distinct ((Pool.nodup_stock .strings).sublist hstrings.left)
  refine Statement.distinct_scope.2 ((hnew.append (Statement.distinct_scope.1 h.distinct) ?_ ?_).gains hgains)
  · intro text htext hold
    exact hstrings.apart text (Statement.printed_subset_strings _ hold) (ha.mem_left htext)
  · intro var text text' hmem hmem'
    obtain ⟨x, hx, hannounced⟩ := List.mem_filterMap.1 hmem
    obtain ⟨_, _, he, hcovered⟩ := h.valid.exists_covered
    cases he
    exact h.supplies.not_mem_declared ha.draws (ha.declares hx hannounced)
      (hcovered.mem_declared_of_announced hmem')

theorem Growing.add (h : Growing target s (.block root .coroutineScope body))
    (ha : Addition kind s d usages s')
    (hsize : d.size + kind.usageTotal ≤ target - (Statement.block root .coroutineScope body).size)
    (hgains : Gains (d.nodes ++ usages) body body') (hcovered : BodyCovered (fun _ => False) body') :
    Growing target s' (.block root .coroutineScope body') ∧
      (Statement.block root .coroutineScope body).size <
        (Statement.block root .coroutineScope body').size := by
  have hids := hgains.ids
  have hdeclared := hgains (f := Statement.declares?) fun _ _ _ _ => rfl
  rw [ha.declared] at hdeclared
  have hbodySize := hgains.bodySize_eq
  rw [ha.length] at hbodySize
  have hunused := h.supplies.unused
  rw [Statement.unused_block] at hunused
  obtain ⟨hroot, hold, -⟩ := hunused
  have hone := d.one_le_size
  have hpaired := h.paired
  have holdSize := h.size
  rw [Statement.size] at hpaired holdSize hsize
  refine ⟨⟨Statement.valid_of_covered hcovered ?_ ?_, ⟨?_, fun pool => ?_⟩, ?_, ?_, ?_, ?_⟩, ?_⟩
  · have hnodup := h.valid.ids
    rw [Statement.ids, Statement.nodes, List.map_cons, List.nodup_cons] at hnodup
    refine List.nodup_cons.2 ⟨fun hi => ?_, hids.nodup_iff.2 ?_⟩
    · rcases List.mem_append.1 (hids.mem_iff.1 hi) with hi | hi
      · exact absurd hroot (Nat.not_lt.2 (ha.ids _ hi).1)
      · exact hnodup.1 hi
    · refine List.nodup_append.2 ⟨ha.nodup, hnodup.2, fun i hi j hj he => ?_⟩
      subst he
      exact absurd (hold i hj) (Nat.not_lt.2 (ha.ids i hi).1)
  · refine hdeclared.nodup_iff.2 (List.nodup_append.2 ⟨?_, h.valid.declared, ?_⟩)
    · cases d.declares? <;> simp
    · rintro var hvar _ hold rfl
      exact h.supplies.not_mem_declared ha.draws (Option.mem_toList.1 hvar) hold
  · refine Statement.unused_block.2 ⟨Nat.lt_of_lt_of_le hroot ha.counter, fun i hi => ?_, nofun⟩
    rcases List.mem_append.1 (hids.mem_iff.1 hi) with hi | hi
    · exact (ha.ids i hi).2
    · exact Nat.lt_of_lt_of_le (hold i hi) ha.counter
  · have hshallow : Shallow (valueOf? pool) := fun _ head _ _ => by
      cases pool <;> cases head <;> rfl
    have hroot : ∀ l, (Statement.block root .coroutineScope l).valuesOf pool =
        (bodyNodes l).filterMap (valueOf? pool) := fun l => by
      cases pool <;> rfl
    rw [hroot]
    exact (ha.suits (hroot body ▸ h.supplies.names pool)).perm (hgains hshallow)
  · exact h.distinct_add ha hgains
  · have hold : Statement.WholeSeconds (bodyNodes body) := h.seconds
    exact (ha.seconds.append hold).gains hgains
  · have hlength := hdeclared.length_eq
    rw [List.length_append] at hlength
    have hhandles : 2 * d.declares?.toList.length ≤ d.size + kind.usageTotal := by
      have hbound := ha.bound
      unfold Ingredient.hasUsages at hbound
      cases hd : d.declares? with
      | none => exact Nat.zero_le _
      | some var =>
        rw [hd] at hbound
        have := of_decide_eq_true hbound.symm
        simp only [Option.toList_some, List.length_singleton]
        omega
    change 2 * ((bodyNodes body').filterMap Statement.declares?).length ≤ 1 + bodySize body'
    change 2 * ((bodyNodes body).filterMap Statement.declares?).length ≤ _ at hpaired
    omega
  · rw [Statement.size]
    omega
  · rw [Statement.size, Statement.size]
    omega

/-- Whatever stands in the body of a program has its id and its handle from a new statement or from
one that stood there before. -/
theorem mem_of_gains {new : List Statement} (hgains : Gains new body body') {x : Statement}
    (hx : x ∈ bodyNodes body') : ∃ y ∈ new ++ bodyNodes body,
      y.id = x.id ∧ y.declares? = x.declares? ∧ y.uses? = x.uses? := by
  have hperm := hgains (f := fun s => some (s.id, s.declares?, s.uses?)) fun _ _ _ _ => rfl
  have hmem := hperm.mem_iff.1 (List.mem_filterMap.2 ⟨x, hx, rfl⟩)
  rw [← List.filterMap_append] at hmem
  obtain ⟨y, hy, he⟩ := List.mem_filterMap.1 hmem
  simp only [Option.some.injEq, Prod.mk.injEq] at he
  exact ⟨y, hy, he⟩

theorem yields_insertAnywhere (root : StatementId) (body : List Statement) (d : Statement) :
    Yields ample (insertAnywhere (.block root .coroutineScope body) d) s fun t s' =>
      Idle s s' ∧ ∃ body', t = .block root .coroutineScope body' ∧ Inserted d body body' :=
  (yields_below _).bind fun place _ hidle => yields_pure
    ⟨hidle, _, rfl, Statement.inserted_insertIntoBody body place d⟩

theorem yields_insertLater {after : StatementId} (hafter : after ∈ (bodyNodes body).map Statement.id)
    (usage : Statement) : Yields ample
      ((Statement.block root .coroutineScope body).insertLaterM after usage below) s fun t s' =>
      Idle s s' ∧ ∃ body', t = .block root .coroutineScope body' ∧
        InsertedAfter after usage body body' := by
  have hsome := Statement.slotsAfter?_isSome (.block root .coroutineScope body) hafter
  obtain ⟨n, hn⟩ := Option.isSome_iff_exists.1 hsome
  have hinsert : ∀ place s', Idle s s' → Yields ample
      (pure ((Statement.block root .coroutineScope body).insertLaterAt after place usage)) s'
      fun t s' => Idle s s' ∧ ∃ body', t = .block root .coroutineScope body' ∧
        InsertedAfter after usage body body' := fun place s' hidle => by
    obtain ⟨_, _, _, body', he, hinsert, hinserted⟩ :=
      Statement.insertedAfter_insertLaterAt place usage _ hsome
    injection he with hroot hhead hbody
    subst hroot hhead hbody
    exact yields_pure ⟨hidle, body', hinsert, hinserted⟩
  unfold Statement.insertLaterM
  rw [hn]
  dsimp only
  split
  · exact hinsert 0 s (Idle.refl s)
  · exact (yields_below n).bind hinsert

/-- Usages in a row behind a declaration, or behind a usage, of their handle. -/
theorem yields_insertChain {var : String} {after : StatementId}
    (husages : ∀ usage ∈ usages, ∃ i action, usage = .leaf i action ∧ action.uses? = some var)
    (hafter : after ∈ (bodyNodes body).map Statement.id)
    (hbound : ∀ x ∈ bodyNodes body, x.id = after → x.declares? = some var ∨ x.uses? = some var)
    (hnodup : (usages.map Statement.id ++ (bodyNodes body).map Statement.id).Nodup)
    (hcovered : BodyCovered (fun _ => False) body) :
    Yields ample (insertChain (.block root .coroutineScope body) after usages) s fun t s' =>
      Idle s s' ∧ ∃ body', t = .block root .coroutineScope body' ∧ Gains usages body body' ∧
        BodyCovered (fun _ => False) body' := by
  induction usages generalizing body after s with
  | nil => exact ⟨Idle.refl s, body, rfl, fun _ => .refl _, hcovered⟩
  | cons usage rest ih =>
    refine (yields_insertLater hafter usage).bind ?_
    rintro _ s₁ ⟨hidle, body₁, rfl, hinserted⟩
    obtain ⟨i, action, rfl, huses⟩ := husages usage List.mem_cons_self
    have hgains : Gains [.leaf i action] body body₁ := hinserted.inserted.gains
    have hids := hgains.ids
    have hrest : ∀ u ∈ rest, ∃ i action, u = .leaf i action ∧ action.uses? = some var :=
      fun u hu => husages u (List.mem_cons_of_mem _ hu)
    have hafter : i ∈ (bodyNodes body₁).map Statement.id := hids.mem_iff.2 (List.mem_cons_self ..)
    refine (ih hrest hafter ?_ ?_ ?_).mono ?_
    · intro x hx hxi
      obtain ⟨y, hy, hid, hdeclares, huses'⟩ := mem_of_gains hgains hx
      rcases List.mem_cons.1 hy with rfl | hy
      · exact .inr (huses'.symm.trans huses)
      · refine absurd ?_ (List.nodup_cons.1 hnodup).1
        exact List.mem_append_right _ (List.mem_map.2 ⟨y, hy, hid.trans hxi⟩)
    · refine (List.Perm.nodup_iff ?_).2 hnodup
      exact (hids.append_left _).trans List.perm_middle
    · exact hinserted.covered (Statement.covered_of_uses? huses) hbound hcovered
    · rintro t s' ⟨hidle', body', rfl, hgains', hcovered'⟩
      exact ⟨hidle.trans hidle', body', rfl, hgains.trans hgains', hcovered'⟩

theorem yields_insertUsages (hbody : Inserted d body body')
    (ha : Addition kind s₁ d usages s₂) (hnodup : ((bodyNodes body).map Statement.id).Nodup)
    (hold : ∀ i ∈ (bodyNodes body).map Statement.id, i < s₁.nextId)
    (hcovered : BodyCovered (fun _ => False) body) :
    Yields ample (insertChain (.block root .coroutineScope body') d.id usages) s fun t s' =>
      Idle s s' ∧ ∃ body'', t = .block root .coroutineScope body'' ∧
        Gains (d.nodes ++ usages) body body'' ∧ BodyCovered (fun _ => False) body'' := by
  have hcovered' := hbody.covered ha.covered hcovered
  cases husages : usages with
  | nil =>
    rw [List.append_nil]
    exact ⟨Idle.refl s, body', rfl, hbody.gains, hcovered'⟩
  | cons usage rest =>
    rw [← husages]
    obtain ⟨i, action, -, ⟨var, hvar, -⟩, -, -⟩ := ha.usages usage (husages ▸ List.mem_cons_self)
    have hgains : Gains d.nodes body body' := hbody.gains
    have hids := hgains.ids
    have hall : ((d.nodes ++ usages).map Statement.id ++ (bodyNodes body).map Statement.id).Nodup := by
      refine List.nodup_append.2 ⟨ha.nodup, hnodup, fun i hi j hj he => ?_⟩
      subst he
      exact absurd (hold i hj) (Nat.not_lt.2 (ha.ids i hi).1)
    rw [List.map_append] at hall
    have huses : ∀ u ∈ usages, ∃ i action, u = .leaf i action ∧ action.uses? = some var := by
      intro u hu
      obtain ⟨j, a, rfl, ⟨var', hvar', huses⟩, -, -⟩ := ha.usages u hu
      cases hvar.symm.trans hvar'
      exact ⟨j, a, rfl, huses⟩
    refine (yields_insertChain huses ?_ ?_ ?_ hcovered').mono ?_
    · exact hids.mem_iff.2 (List.mem_append_left _ (List.mem_map.2 ⟨d, Statement.self_mem_nodes d, rfl⟩))
    · intro x hx hxi
      obtain ⟨y, hy, hid, hdeclares, -⟩ := mem_of_gains hgains hx
      have hyd : y = d := by
        have hnodup' : ((d.nodes ++ bodyNodes body).map Statement.id).Nodup := by
          rw [List.map_append]
          refine List.Nodup.sublist ?_ hall
          exact (List.sublist_append_left _ _).append (.refl _)
        refine List.inj_on_of_nodup_map hnodup' hy ?_ (hid.trans hxi)
        exact List.mem_append_left _ (Statement.self_mem_nodes d)
      exact .inl (hdeclares.symm.trans (hyd ▸ hvar))
    · refine (List.Perm.nodup_iff ?_).2 hall
      rw [List.append_assoc]
      refine (hids.append_left _).trans ?_
      rw [← List.append_assoc, ← List.append_assoc]
      exact List.perm_append_comm.append_right _
    · rintro t s' ⟨hidle, body'', rfl, hgains', hcovered''⟩
      exact ⟨hidle, body'', rfl, hgains.trans hgains', hcovered''⟩

/-- A step of growth ends in a valid program that is bigger, and not too big. -/
theorem yields_growOnce (h : Growing target s t) (hlt : t.size < target) :
    Yields (target ≤ 1027) (growOnce t (target - t.size)) s fun t' s' =>
      Growing target s' t' ∧ t.size < t'.size := by
  obtain ⟨root, body, rfl, hcovered⟩ := h.valid.exists_covered
  refine (yields_pickIngredient _ false).bind fun ⟨kind, _⟩ s₀ ⟨hpick, hidle⟩ => ?_
  have hfits : kind.leastSize ≤ target - (Statement.block root .coroutineScope body).size := by
    rcases hpick with rfl | hfits
    · exact Nat.le_sub_of_add_le' hlt
    · exact fits_later hfits
  have h₀ : Growing target s₀ (.block root .coroutineScope body) :=
    { h with supplies := h.supplies.idle hidle }
  refine (yields_newDeclaration hfits fun htarget => h₀.demand_le hfits htarget).bind
    fun d s₁ ⟨hd, hsize⟩ => ?_
  refine (yields_freshLeaves (usageActions kind d) s₁).bind fun usages s₂ hu => ?_
  have ha := hd.addition hu
  have hunused := (Statement.unused_block.1 h₀.supplies.unused).2.1
  have hnodup := h.valid.ids
  rw [Statement.ids, Statement.nodes, List.map_cons, List.nodup_cons] at hnodup
  extract_lets finish
  have hfinish : ∀ t' s₃, (Idle s₂ s₃ ∧ ∃ body', t' = .block root .coroutineScope body' ∧
      Inserted d body body') → Yields (target ≤ 1027) (finish t') s₃ fun t' s' =>
        Growing target s' t' ∧ (Statement.block root .coroutineScope body).size < t'.size := by
    rintro _ s₃ ⟨hidle', body', rfl, hinserted⟩
    refine (yields_insertUsages hinserted ha hnodup.2 hunused hcovered).bind ?_
    rintro _ s₄ ⟨hidle'', body'', rfl, hgains, hcovered''⟩
    obtain ⟨hgrown, hbigger⟩ := h₀.add ha hsize hgains hcovered''
    rw [Statement.validate_eq_ok_iff.2 hgrown.valid]
    refine yields_pure ⟨{ hgrown with supplies := ?_ }, hbigger⟩
    exact hgrown.supplies.idle (hidle'.trans hidle'')
  split
  · exact (yields_insertAnywhere root body d).bind hfinish
  · exact hfinish _ s₂ ⟨Idle.refl s₂, d :: body, rfl, .here⟩

/-- Growth ends with a program of the target size. -/
theorem yields_growSteps {steps : Nat} (h : Growing target s t) (hsteps : target - t.size ≤ steps) :
    Yields (target ≤ 1027) (growSteps target steps t) s fun t' s' =>
      Growing target s' t' ∧ t'.size = target := by
  induction steps generalizing t s with
  | zero => exact yields_pure ⟨h, Nat.le_antisymm h.size (Nat.le_of_sub_eq_zero (Nat.le_zero.1 hsteps))⟩
  | succ steps ih =>
    unfold growSteps
    by_cases hlt : t.size < target
    · rw [if_pos hlt]
      refine (yields_growOnce h hlt).bind fun t' s' ⟨h', hbigger⟩ => ih h' ?_
      omega
    · rw [if_neg hlt]
      exact yields_pure ⟨h, Nat.le_antisymm h.size (Nat.not_lt.1 hlt)⟩

theorem yields_grow (h : Growing target s t) : Yields (target ≤ 1027) (grow t target) s fun t' s' =>
    Growing target s' t' ∧ t'.size = target :=
  yields_growSteps h (Nat.le_refl _)

theorem NewBody.distinct (h : NewBody room s body s') (hs : (s.names.left .strings).Nodup) :
    Statement.Distinct (bodyNodes body) := by
  have hdrawn := h.draws.names .strings
  refine ⟨?_, fun hmem => ?_⟩
  · rw [hdrawn] at hs
    exact ((Statement.perm_strings _).nodup_iff.2 (List.nodup_append.1 hs).1).sublist
      (List.sublist_append_left _ _)
  · have hvar := h.covered.mem_declared_of_announced hmem
    rw [h.declared] at hvar
    cases hvar

/-- From full pools, a scope with one statement in it is a program to start with. -/
theorem yields_seedling (ingredients : List Ingredient) (seed : UInt64) (firstId : StatementId)
    (htarget : 2 ≤ target) : Yields (target ≤ 1027) (seedling target)
      (.ofSeed ingredients seed firstId) fun t s' => Growing target s' t := by
  have hfull : ∀ pool, (Supply.ofSeed ingredients seed firstId).names.Suits pool [] :=
    Names.suits_full
  have hstrings : 1 ≤ ((Supply.ofSeed ingredients seed firstId).names.left .strings).length := by
    rw [show (Supply.ofSeed ingredients seed firstId).names = Names.full from rfl, Names.left_full]
    exact Nat.le_trans (by decide) (Pool.le_length_stock .strings)
  refine (yields_newBody (target - 1) _ fun _ => hstrings).bind fun body s₁ hbody => ?_
  refine yields_freshId (yields_pure ?_)
  have hids := hbody.draws.ids
  have hsize := hbody.size
  refine ⟨Statement.valid_of_covered hbody.covered ?_ ?_, ⟨?_, fun pool => ?_⟩, ?_, hbody.seconds,
    ?_, ?_⟩
  · exact List.nodup_cons.2 ⟨fun hi => absurd (hids _ hi).2 (Nat.lt_irrefl _), hbody.draws.nodup⟩
  · rw [hbody.declared]
    exact .nil
  · exact Statement.unused_block.2 ⟨Nat.lt_succ_self _,
      fun i hi => Nat.lt_succ_of_lt (hids i hi).2, nofun⟩
  · have hvalues := (hfull pool).draw (hbody.draws.names pool)
    rw [List.append_nil] at hvalues
    cases pool <;> exact hvalues
  · have hleft := (Pool.nodup_stock .strings).sublist (hfull .strings).left
    exact Statement.distinct_scope.2 (hbody.distinct hleft)
  · have hnone : (Statement.block s₁.nextId .coroutineScope body).declared = [] := hbody.declared
    rw [hnone]
    exact Nat.zero_le _
  · rw [Statement.size]
    omega

theorem yields_generate (ingredients : List Ingredient) (seed : UInt64) (firstId : StatementId)
    (htarget : 2 ≤ target) : Yields (target ≤ 1027) (generate target)
      (.ofSeed ingredients seed firstId) fun t s' => Growing target s' t ∧ t.size = target := by
  unfold generate
  rw [if_neg (Nat.not_lt.2 htarget)]
  exact (yields_seedling ingredients seed firstId htarget).bind fun t s' h => yields_grow h

/-- A random program is valid and has exactly the size that is asked for, or names have run out for
it; they last for programs of up to 1027 statements. -/
theorem generate_exact (target : Nat) (ingredients : List Ingredient) (seed : UInt64)
    (firstId : StatementId) (htarget : 2 ≤ target) :
    ((∃ t, ((generate target).run (.ofSeed ingredients seed firstId)).1 = .ok t ∧
        t.size = target ∧ t.validate = .ok ()) ∨
      ∃ pool, ((generate target).run (.ofSeed ingredients seed firstId)).1 =
        .error (.exhausted pool)) ∧
    (target ≤ 1027 → ∃ t, ((generate target).run (.ofSeed ingredients seed firstId)).1 = .ok t) := by
  have hyields := yields_generate ingredients seed firstId htarget
  unfold Yields at hyields
  generalize (generate target).run (.ofSeed ingredients seed firstId) = result at hyields
  obtain ⟨fault | t, s'⟩ := result
  · obtain ⟨hnot, pool, rfl⟩ := hyields
    exact ⟨.inr ⟨pool, rfl⟩, fun hle => absurd hle hnot⟩
  · obtain ⟨hgrowing, hsize⟩ := hyields
    exact ⟨.inl ⟨t, rfl, hsize, Statement.validate_eq_ok_iff.2 hgrowing.valid⟩, fun _ => ⟨t, rfl⟩⟩

theorem ten_statements_are_generated : 2 ≤ 10 ∧
    ∃ t, ((generate 10).run (.ofSeed Difficulty.withExceptions.ingredients 7 0)).1 = .ok t ∧
      t.size = 10 ∧ t.validate = .ok () := by
  refine ⟨by decide, ?_⟩
  obtain ⟨hexact, hnever⟩ :=
    generate_exact 10 Difficulty.withExceptions.ingredients 7 0 (by decide)
  obtain ⟨t, ht⟩ := hnever (by decide)
  rcases hexact with hexact | ⟨pool, hpool⟩
  · exact hexact
  · cases ht.symm.trans hpool

end Generation

end RacePuzzle
