import RacePuzzle.Simplification.Simplify
import RacePuzzle.Proofs.Evaluation.Completion
import RacePuzzle.Proofs.Program.Pruning

/-! What the reductions leave of a program. Each gives a valid program that is the same or lighter,
in which nothing is new but ids of launches without a handle. -/
namespace RacePuzzle.Statement

variable {gone gone' : String → Prop} {kept kept' : Statement → Prop} {n n₁ n' : Nat}
  {t t' : Statement} {body body' : List Statement}

def bodyWeight (body : List Statement) : Nat := ((bodyNodes body).map ownWeight).sum

theorem one_le_ownWeight (s : Statement) : 1 ≤ s.ownWeight := by
  unfold ownWeight
  split <;> omega

theorem bodyWeight_append (body rest : List Statement) :
    bodyWeight (body ++ rest) = bodyWeight body + bodyWeight rest := by
  simp only [bodyWeight, bodyNodes_append, List.map_append, List.sum_append]

theorem bodyWeight_leaf (i : StatementId) (action : Action) (rest : List Statement) :
    bodyWeight (.leaf i action :: rest) = (Statement.leaf i action).ownWeight + bodyWeight rest := rfl

theorem bodyWeight_block (i : StatementId) (head : Head) (inner rest : List Statement) :
    bodyWeight (.block i head inner :: rest) =
      (Statement.block i head inner).ownWeight + (bodyWeight inner + bodyWeight rest) := by
  simp only [bodyWeight, bodyNodes, nodes, List.cons_append, List.map_cons, List.map_append,
    List.sum_cons, List.sum_append]

theorem ownWeight_block (i : StatementId) (head : Head) (inner inner' : List Statement) :
    (Statement.block i head inner').ownWeight = (Statement.block i head inner).ownWeight := by
  cases head <;> rfl

/-- What is left of a body is the same or lighter. -/
theorem Pruned.lighter (h : Pruned gone kept n body body' n') :
    body' = body ∨ bodyWeight body' < bodyWeight body := by
  induction h with
  | nil => exact .inl rfl
  | leaf _ _ ih =>
    refine ih.imp (fun ih => by rw [ih]) fun ih => ?_
    rw [bodyWeight_leaf, bodyWeight_leaf]
    omega
  | @block _ _ _ i head inner inner' rest rest' _ _ _ ih ih' =>
    rw [bodyWeight_block, bodyWeight_block, ownWeight_block i head inner inner']
    rcases ih with rfl | ih <;> rcases ih' with rfl | ih'
    · exact .inl rfl
    all_goals exact .inr (by omega)
  | @print _ _ i var text rest rest' _ _ ih =>
    have h₁ : (Statement.leaf i (.print text)).ownWeight = 1 := rfl
    have h₂ : (Statement.leaf i (.printAwait var text)).ownWeight = 2 := rfl
    rw [bodyWeight_leaf, bodyWeight_leaf, h₁, h₂]
    rcases ih with rfl | ih <;> exact .inr (by omega)
  | @launch n _ _ i head inner inner' var rest rest' hd _ _ _ _ ih ih' =>
    have h₁ : (Statement.block n .launch inner').ownWeight = 1 := rfl
    have h₂ : (Statement.block i head inner).ownWeight = 2 := by
      cases head <;> first | rfl | cases hd
    rw [bodyWeight_block, bodyWeight_block, h₁, h₂]
    rcases ih with rfl | ih <;> rcases ih' with rfl | ih' <;> exact .inr (by omega)
  | @drop _ _ s rest rest' _ _ ih =>
    have hs : 1 ≤ bodyWeight [s] := by
      cases s with
      | leaf i action => exact Nat.le_add_right_of_le (one_le_ownWeight _)
      | block i head inner =>
        rw [bodyWeight_block]
        exact Nat.le_add_right_of_le (one_le_ownWeight _)
    have hcons : bodyWeight (s :: rest) = bodyWeight [s] + bodyWeight rest := bodyWeight_append [s] rest
    rcases ih with rfl | ih <;> exact .inr (by omega)
  | @inline _ _ i head inner rest rest' _ _ ih =>
    have hs := one_le_ownWeight (.block i head inner)
    rw [bodyWeight_append] at ih
    rw [bodyWeight_block]
    rcases ih with rfl | ih
    · rw [bodyWeight_append]
      exact .inr (by omega)
    · exact .inr (by omega)

theorem idsOfLeaves_eq (t : Statement) :
    t.idsOfLeaves = t.nodes.filterMap fun s => if s.isBlock then none else some s.id := by
  unfold idsOfLeaves
  induction t.nodes with
  | nil => rfl
  | cons s rest ih => cases hs : s.isBlock <;> simp [hs, ih]

/-- `t'` is a valid program no bigger than `t`, and the same or lighter. Ids from `n` on and up to
`n'` may be in use in it. -/
structure Simpler (n : Nat) (t t' : Statement) (n' : Nat) : Prop where
  counter : n ≤ n'
  unused : Unused n' [t']
  valid : t'.Valid
  size : t'.size ≤ t.size
  lighter : t' = t ∨ t'.weight < t.weight
  own : ∀ {α : Type} {f : Statement → Option α}, Steady f →
    (t'.nodes.filterMap f).Sublist (t.nodes.filterMap f)

theorem Simpler.refl (ht : t.Valid) (hn : Unused n [t]) : Simpler n t t n :=
  ⟨Nat.le_refl _, hn, ht, Nat.le_refl _, .inl rfl, fun _ => .refl _⟩

theorem Simpler.trans {t'' : Statement} {n'' : Nat} (h : Simpler n t t' n')
    (h' : Simpler n' t' t'' n'') : Simpler n t t'' n'' where
  counter := Nat.le_trans h.counter h'.counter
  unused := h'.unused
  valid := h'.valid
  size := Nat.le_trans h'.size h.size
  lighter := by
    rcases h.lighter with rfl | hlt
    · exact h'.lighter
    · rcases h'.lighter with rfl | hlt'
      · exact .inr hlt
      · exact .inr (Nat.lt_trans hlt' hlt)
  own hf := (h'.own hf).trans (h.own hf)

theorem steady_leafId : Steady fun s : Statement => if s.isBlock then none else some s.id :=
  ⟨fun _ _ _ _ => rfl, fun _ _ _ => .inr rfl, fun _ _ => rfl⟩

theorem steady_declares? : Steady declares? :=
  ⟨fun _ _ _ _ => rfl, fun _ _ _ => .inl rfl, fun _ _ => rfl⟩

theorem steady_delay? : Steady delay? :=
  ⟨fun _ _ _ _ => rfl, fun _ _ _ => .inl rfl, fun _ _ => rfl⟩

theorem steady_bareJob? : Steady fun s : Statement =>
    match s with
    | .leaf _ (.job var) => some var
    | _ => none :=
  ⟨fun _ _ _ _ => rfl, fun _ _ _ => .inl rfl, fun _ _ => rfl⟩

theorem Simpler.leaves (h : Simpler n t t' n') : t'.idsOfLeaves.Sublist t.idsOfLeaves := by
  rw [idsOfLeaves_eq, idsOfLeaves_eq]
  exact h.own steady_leafId

theorem Simpler.delays (h : Simpler n t t' n') : t'.delays.Sublist t.delays :=
  h.own steady_delay?

theorem Simpler.bareJobs (h : Simpler n t t' n') : t'.bareJobs.Sublist t.bareJobs :=
  h.own steady_bareJob?

/-- A valid program whose body is pruned in two stages, if nothing that is left uses a handle that
has gone. -/
theorem simpler_of_pruned (ht : t.Valid) (hn : Unused n [t]) {body₁ body₂ : List Statement}
    (h₁ : Pruned gone kept n t.body body₁ n₁) (h₂ : Pruned gone' kept' n₁ body₁ body₂ n')
    (hgone : ∀ var, gone' var → gone var)
    (hunused : ∀ s, kept' s → ∀ var ∈ s.uses?, ¬ gone var) :
    Simpler n t (t.setBody body₂) n' := by
  obtain ⟨i, body, rfl, hbound⟩ := ht.root
  obtain ⟨hi, hn₁, -⟩ := unused_block.1 hn
  have hn₂ := h₁.unused hn₁
  have hle : n ≤ n₁ := h₁.le
  have hle' : n₁ ≤ n' := h₂.le
  have hlist : ∀ {α : Type} {f : Statement → Option α}, Steady f →
      ((Statement.block i .coroutineScope body₂).nodes.filterMap f).Sublist
        ((Statement.block i .coroutineScope body).nodes.filterMap f) := by
    intro α f hf
    have hbody := (h₂.sublist hf).trans (h₁.sublist hf)
    have hroot := hf.block i .coroutineScope body body₂
    simp only [nodes, List.filterMap_cons, hroot]
    split
    · exact hbody
    · exact hbody.cons_cons _
  have hcovered : BodyCovered (· ∈ (∅ : Std.TreeSet String)) body₂ := by
    have hc := (bodyUnbound?_eq_none_iff ∅ body).1 hbound
    have hgone₁ : BodyCovered (fun var => var ∈ (∅ : Std.TreeSet String) ∨ gone var) body₁ :=
      h₁.covered (fun _ => .inr) (hc.mono fun _ => .inl)
    exact (h₂.covered (fun var hvar => .inr (hgone var hvar)) hgone₁).of_unused
      fun s hs => hunused s (h₂.all_kept s hs)
  have hids : ((bodyNodes [Statement.block i .coroutineScope body]).map id).Nodup := by
    simpa [bodyNodes, ids] using ht.ids
  obtain ⟨⟨hnot, -⟩, hnodup, -⟩ := nodup_block.1 hids
  refine ⟨Nat.le_trans hle hle', ?_, ⟨⟨i, body₂, rfl, (bodyUnbound?_eq_none_iff ∅ body₂).2 hcovered⟩,
    ?_, ht.declared.sublist (hlist steady_declares?)⟩, ?_, ?_, hlist⟩
  · exact unused_block.2 ⟨by omega, h₂.unused hn₂, fun _ hj => by cases hj⟩
  · exact List.nodup_cons.2 ⟨h₂.not_mem (h₁.not_mem hnot hi) (Nat.lt_of_lt_of_le hi hle),
      h₂.nodup hn₂ (h₁.nodup hn₁ hnodup)⟩
  · simp only [setBody, size]
    exact Nat.add_le_add_left (Nat.le_trans h₂.bodySize_le h₁.bodySize_le) 1
  · have hweight : ∀ b, (Statement.block i .coroutineScope b).weight = 1 + bodyWeight b := fun _ => rfl
    have hlighter : body₁ = body ∨ bodyWeight body₁ < bodyWeight body := h₁.lighter
    simp only [setBody, hweight]
    rcases hlighter with rfl | hlt <;> rcases h₂.lighter with rfl | hlt'
    · exact .inl rfl
    all_goals exact .inr (by omega)

theorem setBody_setBody (t : Statement) (body body' : List Statement) :
    (t.setBody body).setBody body' = t.setBody body' := by
  cases t <;> rfl

theorem body_setBody_of_valid (ht : t.Valid) (body : List Statement) :
    (t.setBody body).body = body := by
  obtain ⟨i, inner, rfl, -⟩ := ht.root
  rfl

theorem pruned_dropUsages (t declaration : Statement) (n : Nat) :
    Pruned (fun _ => False) (fun s => ∀ var ∈ s.uses?, declaration.declares? ≠ some var) n t.body
        (t.dropUsages declaration).body n ∧
      t.dropUsages declaration = t.setBody (t.dropUsages declaration).body := by
  unfold dropUsages
  cases hd : declaration.declares? with
  | none => exact ⟨.refl (fun s var _ hnone => by cases hnone) n _, (setBody_body t).symm⟩
  | some var =>
    refine pruned_edit (fun s n => ?_) t n
    split
    · next hu =>
      cases s with
      | block => cases hu
      | leaf i action =>
        have hdrop : Prunes (fun _ => False)
            (fun s => ∀ v ∈ s.uses?, some var ≠ some v) n (.leaf i action) .drop n :=
          .drop fun v hv => by cases (declares?_of_uses? hu).symm.trans hv
        cases action with
        | printAwait v text => exact .print fun v hv => by cases hv
        | _ => exact hdrop
    · next hu =>
      cases s with
      | leaf i action => exact .leaf fun v hv he => hu (hv.trans he.symm)
      | block i head inner => exact .block fun inner v hv => by cases hv

theorem of_get?_eq_some {i : StatementId} {s : Statement} (h : t.get? i = some s) :
    s ∈ t.nodes ∧ s.id = i := by
  obtain ⟨hid, before, after, hsplit, -⟩ := List.find?_eq_some_iff_append.1 h
  exact ⟨hsplit ▸ List.mem_append_right _ List.mem_cons_self, by simpa using hid⟩

theorem splice_eq (t : Statement) (i : StatementId) (new : List Statement) :
    t.splice i new = t.setBody (spliceBody i new t.body) := by
  cases t <;> rfl

/-- A splice in the place of `gone`, after which the usages of its handle go. -/
theorem simpler_splice (ht : t.Valid) (hn : Unused n [t]) {i : StatementId} {s : Statement}
    {new : List Statement}
    (h : Pruned (fun var => s.declares? = some var) (fun _ => True) n t.body
      (spliceBody i new t.body) n) : Simpler n t ((t.splice i new).dropUsages s) n := by
  have hbody : (t.splice i new).body = spliceBody i new t.body := by
    rw [splice_eq, body_setBody_of_valid ht]
  obtain ⟨h₂, hset⟩ := pruned_dropUsages (t.splice i new) s n
  rw [hbody] at h₂
  rw [hset, splice_eq, setBody_setBody, ← splice_eq]
  exact simpler_of_pruned ht hn h h₂ (fun _ h => h.elim) fun s h var hvar => h var hvar

theorem simpler_remove (ht : t.Valid) (hn : Unused n [t]) {i : StatementId} {removed : Statement}
    (hget : t.get? i = some removed) : Simpler n t ((t.remove i).dropUsages removed) n := by
  obtain ⟨hmem, hid⟩ := of_get?_eq_some hget
  refine simpler_splice ht hn (pruned_spliceBody_nil i n t.body fun s hs hi var hvar => ?_)
  obtain rfl := ht.eq_of_id (mem_nodes_of_body hs) hmem (hi.trans hid.symm)
  exact hvar

theorem simpler_excise (ht : t.Valid) (hn : Unused n [t]) (is : List StatementId) :
    Simpler n t (t.excise is) n := by
  induction is generalizing t with
  | nil => exact .refl ht hn
  | cons i is ih =>
    unfold excise
    split
    · exact ih ht hn
    · next removed hget =>
      have h := simpler_remove ht hn hget
      exact h.trans (ih h.valid h.unused)

theorem simpler_dissolve (ht : t.Valid) (hn : Unused n [t]) (i : StatementId) :
    Simpler n t (t.dissolve i) n := by
  unfold dissolve inlineBlock
  split
  · exact .refl ht hn
  · next s hget =>
    obtain ⟨hmem, hid⟩ := of_get?_eq_some hget
    rw [hget]
    split
    · next j head inner heq =>
      obtain rfl := Option.some.inj heq
      refine simpler_splice ht hn (pruned_spliceBody i n inner t.body fun s hs hi => ?_)
      obtain rfl := ht.eq_of_id (mem_nodes_of_body hs) hmem (hi.trans hid.symm)
      exact ⟨j, head, rfl, fun var hvar => hvar⟩
    · obtain ⟨h₂, hset⟩ := pruned_dropUsages t s n
      rw [hset]
      exact simpler_of_pruned ht hn (.refl (fun _ => trivial) n _ :
        Pruned (fun var => s.declares? = some var) (fun _ => True) n _ _ n) h₂ (fun _ h => h.elim)
        fun s h var hvar => h var hvar

/-- A block goes or gives way only where the evaluation stays. -/
theorem simpler_reduceBlock (ht : t.Valid) (hn : Unused n [t]) (baseline : Evaluation)
    (i : StatementId) : Simpler n t (reduceBlock baseline t i) n ∧
      (t.evaluate = baseline → (reduceBlock baseline t i).evaluate = baseline) := by
  unfold reduceBlock
  split
  · dsimp only
    split
    · next he => exact ⟨simpler_dissolve ht hn i, fun _ => he⟩
    · split
      · next he => exact ⟨simpler_excise ht hn [i], fun _ => he⟩
      · exact ⟨.refl ht hn, fun h => h⟩
  · exact ⟨.refl ht hn, fun h => h⟩

theorem simpler_reduceLeaf (ht : t.Valid) (hn : Unused n [t]) (baseline : Evaluation)
    (is : List StatementId) : Simpler n t (reduceLeaf baseline t is) n ∧
      (t.evaluate = baseline → (reduceLeaf baseline t is).evaluate = baseline) := by
  unfold reduceLeaf
  split
  · dsimp only
    split
    · next he => exact ⟨simpler_excise ht hn is, fun _ => he⟩
    · exact ⟨.refl ht hn, fun h => h⟩
  · exact ⟨.refl ht hn, fun h => h⟩

/-- Attempts one after the other, each of which keeps the evaluation. -/
theorem simpler_foldl {α : Type} {attempt : Statement → α → Statement} {baseline : Evaluation}
    (hattempt : ∀ {t}, t.Valid → Unused n [t] → ∀ a, Simpler n t (attempt t a) n ∧
      (t.evaluate = baseline → (attempt t a).evaluate = baseline))
    (ht : t.Valid) (hn : Unused n [t]) (he : t.evaluate = baseline) (l : List α) :
    Simpler n t (l.foldl attempt t) n ∧ (l.foldl attempt t).evaluate = baseline := by
  induction l generalizing t with
  | nil => exact ⟨.refl ht hn, he⟩
  | cons a l ih =>
    obtain ⟨h, hkeeps⟩ := hattempt ht hn a
    obtain ⟨hrest, he'⟩ := ih h.valid h.unused (hkeeps he)
    exact ⟨h.trans hrest, he'⟩

theorem simpler_reduceBlocks (ht : t.Valid) (hn : Unused n [t]) :
    Simpler n t t.reduceBlocks n ∧ t.reduceBlocks.evaluate = t.evaluate :=
  simpler_foldl (fun ht hn i => simpler_reduceBlock ht hn _ i) ht hn rfl _

theorem simpler_reduceLeaves (ht : t.Valid) (hn : Unused n [t]) :
    Simpler n t t.reduceLeaves n ∧ t.reduceLeaves.evaluate = t.evaluate :=
  simpler_foldl (fun ht hn is => simpler_reduceLeaf ht hn _ is) ht hn rfl _

/-- An edit after which nothing uses a handle that has gone. -/
theorem simpler_editM {f : Statement → Fresh Edit} (ht : t.Valid) (hn : Unused n [t])
    (hf : ∀ s ∈ bodyNodes t.body, ∀ n, Prunes gone kept n s (f s n).1 (f s n).2)
    (hunused : ∀ s, kept s → ∀ var ∈ s.uses?, ¬ gone var) :
    Simpler n t (t.editM f n).1 (t.editM f n).2 :=
  simpler_of_pruned ht hn (.refl (fun _ => trivial) n t.body :
    Pruned gone (fun _ => True) n t.body t.body n) (pruned_editBodyM t.body hf n) (fun _ h => h) hunused

theorem declared_of_valid (ht : t.Valid) {s : Statement} (hs : s ∈ t.nodes) {var : String}
    (hvar : s.uses? = some var) : var ∈ t.declared := by
  obtain ⟨i, body, rfl, hbound⟩ := ht.root
  rcases List.mem_cons.1 hs with rfl | hs
  · cases hvar
  · refine (((bodyUnbound?_eq_none_iff ∅ body).1 hbound).declared s hs var hvar).resolve_left ?_
    simp

/-- What becomes of a statement when the usages of handles that are not `declared` go, and so do the
handles that are not `used`. -/
def reconcile (declared used : List String) (s : Statement) : Fresh Edit :=
  if s.uses?.any (· ∉ declared) then return Edit.ofDetachedUsage s
  else if s.declares?.any (· ∉ used) then
    match s with
    | .leaf .. => return .drop
    | .block .. => do return .descend (← Fresh.id) .launch
  else return .keep s

theorem reconcileUsages_eq (t : Statement) :
    t.reconcileUsages = t.editM (reconcile t.declared t.used) := rfl

/-- A usage goes, a handle goes, or the statement stays. -/
theorem reconcile_cases (declared used : List String) (s : Statement) (n : Nat) :
    (∃ var, s.uses? = some var ∧ var ∉ declared ∧
      reconcile declared used s n = (Edit.ofDetachedUsage s, n)) ∨
    (∃ var, s.declares? = some var ∧ var ∉ used ∧
      reconcile declared used s n = match s with
        | .leaf .. => (.drop, n)
        | .block .. => (.descend n .launch, n + 1)) ∨
    ((∀ var ∈ s.uses?, var ∈ declared) ∧ (∀ var ∈ s.declares?, var ∈ used) ∧
      reconcile declared used s n = (.keep s, n)) := by
  unfold reconcile
  by_cases hunbound : s.uses?.any (· ∉ declared)
  · obtain ⟨var, hvar, hnot⟩ : ∃ var, s.uses? = some var ∧ var ∉ declared := by
      simpa [Option.any_eq_true] using hunbound
    rw [if_pos hunbound]
    exact .inl ⟨var, hvar, hnot, rfl⟩
  · rw [if_neg hunbound]
    by_cases hidle : s.declares?.any (· ∉ used)
    · obtain ⟨var, hvar, hnot⟩ : ∃ var, s.declares? = some var ∧ var ∉ used := by
        simpa [Option.any_eq_true] using hidle
      rw [if_pos hidle]
      exact .inr (.inl ⟨var, hvar, hnot, by cases s <;> rfl⟩)
    · rw [if_neg hidle]
      refine .inr (.inr ⟨?_, ?_, rfl⟩)
      · simpa [Option.any_eq_true] using hunbound
      · simpa [Option.any_eq_true] using hidle

theorem prunes_reconcile {declared used : List String} {s : Statement}
    (hused : ∀ var ∈ s.uses?, var ∈ used) (n : Nat) : Prunes (fun var => var ∉ used)
      (fun s => (∀ var ∈ s.uses?, var ∈ used) ∧ ∀ var ∈ s.declares?, var ∈ used) n s
      (reconcile declared used s n).1 (reconcile declared used s n).2 := by
  rcases reconcile_cases declared used s n with
    ⟨var, hvar, -, he⟩ | ⟨var, hvar, hnot, he⟩ | ⟨-, hdeclares, he⟩
  · rw [he]
    cases s with
    | block => cases hvar
    | leaf i action =>
      cases action with
      | printAwait v text => exact .print ⟨nofun, nofun⟩
      | _ => exact .drop fun v hv => by cases (declares?_of_uses? hvar).symm.trans hv
  · rw [he]
    cases s with
    | leaf => exact .drop fun v hv => Option.some.inj (hvar.symm.trans hv) ▸ hnot
    | block => exact .launch hvar hnot fun _ => ⟨nofun, nofun⟩
  · rw [he]
    cases s with
    | leaf => exact .leaf ⟨hused, hdeclares⟩
    | block => exact .block fun _ => ⟨nofun, hdeclares⟩

theorem simpler_reconcileUsages (ht : t.Valid) (hn : Unused n [t]) :
    Simpler n t (t.reconcileUsages n).1 (t.reconcileUsages n).2 := by
  rw [reconcileUsages_eq]
  refine simpler_editM ht hn (fun s hs => prunes_reconcile fun var hvar => ?_)
    fun s hk var hvar hnot => hnot (hk.1 var hvar)
  exact List.mem_filterMap.2 ⟨s, mem_nodes_of_body hs, hvar⟩

def erase (var : String) (s : Statement) : Fresh Edit :=
  if s.declares? = some var then
    match s with
    | .block _ (.launchJob _) _ => do return .descend (← Fresh.id) .launch
    | _ => return .drop
  else if s.uses? = some var then return .drop
  else return .keep s

theorem eraseHandle_eq (t : Statement) (var : String) : t.eraseHandle var = t.editM (erase var) := rfl

theorem prunes_erase (var : String) (s : Statement) (n : Nat) :
    Prunes (fun v => v = var) (fun s => s.declares? ≠ some var ∧ s.uses? ≠ some var) n s
      (erase var s n).1 (erase var s n).2 := by
  unfold erase
  split
  · next hd =>
    have hdrop : Prunes (fun v => v = var) (fun s => s.declares? ≠ some var ∧ s.uses? ≠ some var) n s
        .drop n := .drop fun v hv => Option.some.inj (hv.symm.trans hd)
    split
    · exact .launch hd rfl fun _ => ⟨by rintro ⟨⟩, by rintro ⟨⟩⟩
    · exact hdrop
  · next hd =>
    split
    · next hu => exact .drop fun v hv => by cases (declares?_of_uses? hu).symm.trans hv
    · next hu =>
      cases s with
      | leaf => exact .leaf ⟨hd, hu⟩
      | block => exact .block fun _ => ⟨hd, by rintro ⟨⟩⟩

theorem simpler_eraseHandle (ht : t.Valid) (hn : Unused n [t]) (var : String) :
    Simpler n t (t.eraseHandle var n).1 (t.eraseHandle var n).2 := by
  rw [eraseHandle_eq]
  exact simpler_editM ht hn (fun s _ => prunes_erase var s) fun _ hk _ hv he => hk.2 (he ▸ hv)

theorem mem_bareJobs {var : String} :
    var ∈ t.bareJobs ↔ ∃ s ∈ t.nodes, ∃ i, s = .leaf i (.job var) := by
  unfold bareJobs
  rw [List.mem_filterMap]
  refine exists_congr fun s => and_congr_right fun _ => ?_
  split
  · simp
  · next h =>
    constructor
    · rintro ⟨⟩
    · rintro ⟨i, he⟩
      exact (h i var he).elim

theorem not_mem_bareJobs_eraseHandle (ht : t.Valid) (var : String) (n : Nat) :
    var ∉ (t.eraseHandle var n).1.bareJobs := by
  obtain ⟨i, body, rfl, -⟩ := ht.root
  have hpruned := pruned_editBodyM body (fun s _ => prunes_erase var s) n
  intro hmem
  obtain ⟨s, hs, j, rfl⟩ := mem_bareJobs.1 hmem
  rcases List.mem_cons.1 hs with he | hs
  · cases he
  · exact (hpruned.all_kept _ hs).1 rfl

theorem simpler_eraseHandles (ht : t.Valid) (hn : Unused n [t]) (vars : List String) :
    Simpler n t (t.eraseHandles vars n).1 (t.eraseHandles vars n).2 ∧
      ∀ var ∈ vars, var ∉ (t.eraseHandles vars n).1.bareJobs := by
  induction vars generalizing t n with
  | nil => exact ⟨.refl ht hn, fun _ h => nomatch h⟩
  | cons var vars ih =>
    have h := simpler_eraseHandle ht hn var
    obtain ⟨hrest, hgone⟩ := ih h.valid h.unused
    refine ⟨h.trans hrest, fun v hv hmem => ?_⟩
    rcases List.mem_cons.1 hv with rfl | hv
    · exact not_mem_bareJobs_eraseHandle ht v n (hrest.bareJobs.subset hmem)
    · exact hgone v hv hmem

theorem bareJobs_eraseHandles (ht : t.Valid) (hn : Unused n [t]) :
    (t.eraseHandles t.bareJobs n).1.bareJobs = [] := by
  obtain ⟨h, hgone⟩ := simpler_eraseHandles ht hn t.bareJobs
  exact List.eq_nil_iff_forall_not_mem.2 fun var hvar => hgone var (h.bareJobs.subset hvar) hvar

theorem withoutOneOf_cons (t : Statement) (var : String) (vars : List String) (n : Nat) :
    t.withoutOneOf (var :: vars) n =
      if (t.eraseHandle var n).1.hangs then t.withoutOneOf vars (t.eraseHandle var n).2
      else (some (t.eraseHandle var n).1, (t.eraseHandle var n).2) := by
  show (if (t.eraseHandle var n).1.hangs then t.withoutOneOf vars
    else return some (t.eraseHandle var n).1) (t.eraseHandle var n).2 = _
  split <;> rfl

/-- The search for one handle ends with a program that does not hang, or with nothing. -/
theorem withoutOneOf_cases (ht : t.Valid) (hn : Unused n [t]) (vars : List String) :
    (∃ candidate n', t.withoutOneOf vars n = (some candidate, n') ∧ Simpler n t candidate n' ∧
      candidate.hangs = false) ∨ ∃ n', t.withoutOneOf vars n = (none, n') ∧ n ≤ n' := by
  induction vars generalizing n with
  | nil => exact .inr ⟨n, rfl, Nat.le_refl n⟩
  | cons var vars ih =>
    have h := simpler_eraseHandle ht hn var
    have hrest := ih (hn.mono h.counter)
    rw [withoutOneOf_cons]
    cases hhangs : (t.eraseHandle var n).1.hangs with
    | false => exact .inl ⟨_, _, rfl, h, hhangs⟩
    | true =>
      rcases hrest with ⟨candidate, n', he, hsimpler, hfree⟩ | ⟨n', he, hle⟩
      · refine .inl ⟨candidate, n', he, ?_, hfree⟩
        exact { hsimpler with counter := Nat.le_trans h.counter hsimpler.counter }
      · exact .inr ⟨n', he, Nat.le_trans h.counter hle⟩

end RacePuzzle.Statement
