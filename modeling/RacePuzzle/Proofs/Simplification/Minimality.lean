import RacePuzzle.Proofs.Simplification.Rounds
import RacePuzzle.Proofs.Simplification.Reconciliation

/-! What simplification comes to. No reduction changes a simplified program: none of them makes a
program heavier, so that none can undo what another has done. Hence nothing in it is redundant. -/
namespace RacePuzzle.Statement

variable {n n' : Nat} {t t' r : Statement} {i : StatementId}

mutual
/-- A statement of the id gives way to less, if there is one. -/
theorem size_splice_add_le (new : List Statement) : (s : Statement) →
    (∀ d ∈ bodyNodes s.body, d.id = i → bodySize new < d.size) →
    (s.splice i new).size + (if i ∈ (bodyNodes s.body).map id then 1 else 0) ≤ s.size
  | .leaf .., _ => Nat.le_refl 1
  | .block _ _ body, h => by
    rw [splice, size, size, Nat.add_assoc]
    exact Nat.add_le_add_left (bodySize_spliceBody_add_le new body h) 1
theorem bodySize_spliceBody_add_le (new : List Statement) : (body : List Statement) →
    (∀ d ∈ bodyNodes body, d.id = i → bodySize new < d.size) →
    bodySize (spliceBody i new body) + (if i ∈ (bodyNodes body).map id then 1 else 0) ≤
      bodySize body
  | [], _ => Nat.le_refl 0
  | s :: rest, h => by
    have hself := h s (List.mem_append_left _ (self_mem_nodes s))
    unfold spliceBody
    split
    · next he =>
      have hrest := bodySize_spliceBody_add_le [] rest fun d _ _ => one_le_size d
      have hlt := hself he
      rw [bodySize_append, bodySize]
      split <;> omega
    · next hne =>
      have hs := size_splice_add_le new s fun d hd =>
        h d (List.mem_append_left _ (mem_nodes_of_body hd))
      have hrest := bodySize_spliceBody_add_le new rest fun d hd => h d (List.mem_append_right _ hd)
      have hin : i ∈ (bodyNodes (s :: rest)).map id →
          i ∈ (bodyNodes s.body).map id ∨ i ∈ (bodyNodes rest).map id := by
        rw [bodyNodes, List.map_append, List.mem_append]
        refine Or.imp_left fun hmem => ?_
        obtain ⟨d, hd, hid⟩ := List.mem_map.1 hmem
        cases s with
        | leaf =>
          obtain rfl := List.mem_singleton.1 hd
          exact absurd hid hne
        | block =>
          rcases List.mem_cons.1 hd with rfl | hd
          · exact absurd hid hne
          · exact List.mem_map.2 ⟨d, hd, hid⟩
      rw [bodySize, bodySize]
      split
      · next hmem =>
        rcases hin hmem with hmem | hmem
        · rw [if_pos hmem] at hs
          omega
        · rw [if_pos hmem] at hrest
          omega
      · omega
end

theorem size_dropUsages_le (t declaration : Statement) :
    (t.dropUsages declaration).size ≤ t.size := by
  obtain ⟨hpruned, hset⟩ := pruned_dropUsages t declaration 0
  have hle := hpruned.bodySize_le
  rw [hset]
  cases t with
  | leaf => exact Nat.le_refl 1
  | block => exact Nat.add_le_add_left hle 1

theorem size_splice_lt {new : List Statement} (hmem : i ∈ (bodyNodes t.body).map id)
    (h : ∀ d ∈ bodyNodes t.body, d.id = i → bodySize new < d.size) :
    (t.splice i new).size < t.size := by
  have hle := size_splice_add_le new t h
  rw [if_pos hmem] at hle
  exact hle

theorem exists_get?_of_mem_ids (h : i ∈ t.ids) : ∃ s, t.get? i = some s := by
  obtain ⟨s, hs, rfl⟩ := List.mem_map.1 h
  exact Option.isSome_iff_exists.1 (List.find?_isSome.2 ⟨s, hs, by simp⟩)

theorem mem_ids_of_below (h : i ∈ (bodyNodes t.body).map id) : i ∈ t.ids := by
  obtain ⟨s, hs, rfl⟩ := List.mem_map.1 h
  exact List.mem_map.2 ⟨s, mem_nodes_of_body hs, rfl⟩

/-- The removal of a statement below the root makes the program smaller. -/
theorem excise_ne (ht : t.Valid) (hn : Unused n [t]) (hmem : i ∈ (bodyNodes t.body).map id)
    (is : List StatementId) : t.excise (i :: is) ≠ t := by
  obtain ⟨removed, hget⟩ := exists_get?_of_mem_ids (mem_ids_of_below hmem)
  have h := simpler_remove ht hn hget
  have hlt : (t.remove i).size < t.size := size_splice_lt hmem fun d _ _ => one_le_size d
  have hle := size_dropUsages_le (t.remove i) removed
  have hrest := (simpler_excise h.valid h.unused is).size
  intro he
  have hsize := congrArg size he
  simp only [excise, hget] at hsize
  omega

theorem dissolve_ne (ht : t.Valid) {head : Head} {inner : List Statement}
    (hmem : .block i head inner ∈ bodyNodes t.body) : t.dissolve i ≠ t := by
  have hid : i ∈ (bodyNodes t.body).map id := List.mem_map.2 ⟨_, hmem, rfl⟩
  obtain ⟨s, hget⟩ := exists_get?_of_mem_ids (mem_ids_of_below hid)
  obtain ⟨hs, hsid⟩ := of_get?_eq_some hget
  obtain rfl := ht.eq_of_id hs (mem_nodes_of_body hmem) hsid
  have hlt : (t.splice i inner).size < t.size := by
    refine size_splice_lt hid fun d hd hdid => ?_
    obtain rfl := ht.eq_of_id (mem_nodes_of_body hd) hs hdid
    simp only [size]
    omega
  have hle := size_dropUsages_le (t.splice i inner) (.block i head inner)
  intro he
  have hsize := congrArg size he
  simp only [dissolve, inlineBlock, hget] at hsize
  omega

structure Irreducible (n : Nat) (t : Statement) : Prop where
  blocks : t.reduceBlocks = t
  leaves : t.reduceLeaves = t
  usages : (t.reconcileUsages n).1 = t
  waits : (t.breakInfiniteWaits (t.reconcileUsages n).2).1 = t

theorem Simpler.weight_le (h : Simpler n t t' n') : t'.weight ≤ t.weight :=
  h.lighter.elim (fun he => Nat.le_of_eq (congrArg weight he)) Nat.le_of_lt

/-- What has become lighter stays so. -/
theorem Simpler.eq_of_back {n₁ : Nat} {t₁ : Statement} (h : Simpler n t t₁ n₁)
    (h' : Simpler n₁ t₁ t n') : t₁ = t :=
  h.lighter.resolve_right fun hlt => absurd h'.weight_le (Nat.not_le_of_lt hlt)

/-- A round that changes nothing consists of reductions that change nothing. -/
theorem irreducible_of_round (ht : t.Valid) (hn : Unused n [t]) (h : (t.round n).1 = t) :
    Irreducible n t := by
  obtain ⟨h₁, -⟩ := simpler_reduceBlocks ht hn
  obtain ⟨h₂, -⟩ := simpler_reduceLeaves h₁.valid h₁.unused
  have h₃ := simpler_reconcileUsages h₂.valid h₂.unused
  obtain ⟨h₄, -⟩ := simpler_breakInfiniteWaits h₃.valid h₃.unused
  have hround : ((t.reduceBlocks.reduceLeaves.reconcileUsages n).1.breakInfiniteWaits
      (t.reduceBlocks.reduceLeaves.reconcileUsages n).2).1 = t := h
  rw [hround] at h₄
  have hblocks := h₁.eq_of_back ((h₂.trans h₃).trans h₄)
  rw [hblocks] at h₂ h₃ h₄ hround
  have hleaves := h₂.eq_of_back (h₃.trans h₄)
  rw [hleaves] at h₃ h₄ hround
  have husages := h₃.eq_of_back h₄
  rw [husages] at hround
  exact ⟨hblocks, hleaves, husages, hround⟩

/-- The rounds stop at a valid program that a round does not change. -/
theorem SettlesTo.irreducible (h : SettlesTo t n r n') (ht : t.Valid) (hn : Unused n [t]) :
    r.Valid ∧ ∃ k, Unused k [r] ∧ Irreducible k r := by
  induction h with
  | stop hround =>
    obtain ⟨hsame, -⟩ := round_of_run ht hn hround
    exact ⟨ht, _, hn, irreducible_of_round ht hn (congrArg Prod.fst hsame)⟩
  | again hround _ _ ih =>
    obtain ⟨-, h, -⟩ := round_of_run ht hn hround
    exact ih h.valid h.unused

/-- Attempts that come to nothing have come to nothing one by one. -/
theorem attempt_eq_of_foldl_eq {α : Type} {attempt : Statement → α → Statement}
    (hattempt : ∀ {t}, t.Valid → Unused n [t] → ∀ a, Simpler n t (attempt t a) n)
    (ht : t.Valid) (hn : Unused n [t]) {l : List α} (h : l.foldl attempt t = t) {a : α}
    (ha : a ∈ l) : attempt t a = t := by
  have hfold : ∀ {t}, t.Valid → Unused n [t] → ∀ l : List α, Simpler n t (l.foldl attempt t) n := by
    intro t ht hn l
    induction l generalizing t with
    | nil => exact .refl ht hn
    | cons a l ih =>
      have h := hattempt ht hn a
      exact h.trans (ih h.valid h.unused)
  induction l with
  | nil => cases ha
  | cons b l ih =>
    have hb := hattempt ht hn b
    have hrest := hfold hb.valid hb.unused l
    have hcons : l.foldl attempt (attempt t b) = t := h
    rw [hcons] at hrest
    have hsame := hb.eq_of_back hrest
    rw [hsame] at hcons
    rcases List.mem_cons.1 ha with rfl | ha
    · exact hsame
    · exact ih hcons ha

theorem exists_block_of_inner (ht : t.Valid) (hi : i ∈ t.idsOfInnerBlocks) :
    ∃ head inner, .block i head inner ∈ bodyNodes t.body := by
  obtain ⟨root, body, rfl, -⟩ := ht.root
  obtain ⟨hmem, hne⟩ := List.mem_filter.1 hi
  obtain ⟨s, hs, rfl⟩ := List.mem_map.1 hmem
  obtain ⟨hs, hblock⟩ := List.mem_filter.1 hs
  rcases List.mem_cons.1 hs with rfl | hs
  · simp [Statement.id] at hne
  · cases s with
    | leaf => cases hblock
    | block j head inner => exact ⟨head, inner, hs⟩

theorem below_of_leaf (ht : t.Valid) {action : Action} (hi : .leaf i action ∈ t.nodes) :
    i ∈ (bodyNodes t.body).map id := by
  obtain ⟨root, body, rfl, -⟩ := ht.root
  exact List.mem_map.2 ⟨_, (List.mem_cons.1 hi).resolve_left nofun, rfl⟩

/-- Every block matters: neither can its body take its place nor can it go. -/
theorem Irreducible.block (h : Irreducible n t) (ht : t.Valid) (hn : Unused n [t])
    (hi : i ∈ t.idsOfInnerBlocks) : (t.dissolve i).evaluate ≠ t.evaluate ∧
      (t.excise [i]).evaluate ≠ t.evaluate := by
  obtain ⟨head, inner, hmem⟩ := exists_block_of_inner ht hi
  have hbelow : i ∈ (bodyNodes t.body).map id := List.mem_map.2 ⟨_, hmem, rfl⟩
  have hsame : reduceBlock t.evaluate t i = t := attempt_eq_of_foldl_eq
    (fun ht hn i => (simpler_reduceBlock ht hn t.evaluate i).1) ht hn h.blocks hi
  obtain ⟨s, hget⟩ := exists_get?_of_mem_ids (mem_ids_of_below hbelow)
  have hcontains : t.contains i = true := by
    rw [contains, hget]
    rfl
  rw [reduceBlock, if_pos hcontains] at hsame
  have hinline : (t.dissolve i).evaluate ≠ t.evaluate := fun he =>
    dissolve_ne ht hmem (by rwa [if_pos he] at hsame)
  rw [if_neg hinline] at hsame
  exact ⟨hinline, fun he => excise_ne ht hn hbelow [] (by rwa [if_pos he] at hsame)⟩

/-- What the leaf reduction tries to remove matters. -/
theorem Irreducible.attempt (h : Irreducible n t) (ht : t.Valid) (hn : Unused n [t])
    {is : List StatementId} (hi : i ∈ (bodyNodes t.body).map id)
    (his : ∀ j ∈ is, j ∈ (bodyNodes t.body).map id)
    (htried : i :: is ∈ (t.nodes.flatMap fun s => alternatingTails s.body) ++
      t.idsOfLeaves.map fun j => [j]) : (t.excise (i :: is)).evaluate ≠ t.evaluate := by
  have hsame : reduceLeaf t.evaluate t (i :: is) = t := attempt_eq_of_foldl_eq
    (fun ht hn is => (simpler_reduceLeaf ht hn t.evaluate is).1) ht hn h.leaves htried
  have hall : (i :: is).all t.contains = true := by
    refine List.all_eq_true.2 fun j hj => ?_
    have hbelow : j ∈ (bodyNodes t.body).map id := (List.mem_cons.1 hj).elim (fun he => he ▸ hi) (his j)
    obtain ⟨s, hget⟩ := exists_get?_of_mem_ids (mem_ids_of_below hbelow)
    rw [contains, hget]
    rfl
  rw [reduceLeaf, if_pos hall] at hsame
  exact fun he => excise_ne ht hn hi is (by rwa [if_pos he] at hsame)

theorem Irreducible.leaf (h : Irreducible n t) (ht : t.Valid) (hn : Unused n [t])
    (hi : i ∈ t.idsOfLeaves) : (t.excise [i]).evaluate ≠ t.evaluate := by
  obtain ⟨s, hs, rfl⟩ := List.mem_map.1 hi
  obtain ⟨hs, hleaf⟩ := List.mem_filter.1 hs
  cases s with
  | block => cases hleaf
  | leaf j action =>
    exact h.attempt ht hn (below_of_leaf ht hs) nofun
      (List.mem_append_right _ (List.mem_map.2 ⟨_, hi, rfl⟩))

theorem mem_alternatingTails {a b c d : Statement} (h : alternate a b c d = true) :
    (before after : List Statement) →
      [c.id, d.id] ∈ alternatingTails (before ++ a :: b :: c :: d :: after)
  | [], after => by
    rw [List.nil_append, alternatingTails, if_pos h]
    exact List.mem_cons_self
  | s :: before, after => by
    have hrest := mem_alternatingTails h before after
    rw [List.cons_append]
    generalize before ++ a :: b :: c :: d :: after = body at hrest
    match body, hrest with
    | x :: y :: z :: rest, hrest =>
      rw [alternatingTails]
      split
      · exact List.mem_cons_of_mem _ hrest
      · exact hrest

/-- The last two of four neighbours that alternate are leaves. -/
theorem leaves_of_alternate {a b c d : Statement} (h : alternate a b c d = true) :
    (∃ i action, c = .leaf i action) ∧ ∃ i action, d = .leaf i action := by
  have hprint : ∀ {s : Statement}, s.isPrint = true → ∃ i action, s = .leaf i action := by
    intro s hs
    cases s with
    | leaf i action => exact ⟨i, action, rfl⟩
    | block => cases hs
  have hdelay : ∀ {s : Statement}, s.isDelay = true → ∃ i action, s = .leaf i action := by
    intro s hs
    cases s with
    | leaf i action => exact ⟨i, action, rfl⟩
    | block => cases hs
  simp only [alternate, Bool.or_eq_true, Bool.and_eq_true] at h
  rcases h with ⟨⟨-, hc⟩, hd⟩ | ⟨⟨-, hc⟩, hd⟩
  · exact ⟨hprint hc, hdelay hd⟩
  · exact ⟨hdelay hc, hprint hd⟩

/-- The end of an alternation matters. -/
theorem Irreducible.alternation (h : Irreducible n t) (ht : t.Valid) (hn : Unused n [t])
    {s a b c d : Statement} {before after : List Statement} (hs : s ∈ t.nodes)
    (hbody : s.body = before ++ a :: b :: c :: d :: after) (halternate : alternate a b c d = true) :
    (t.excise [c.id, d.id]).evaluate ≠ t.evaluate := by
  have hin : ∀ {x : Statement}, x ∈ s.body → x ∈ t.nodes := fun hx =>
    mem_nodes_of_mem_nodes hs (mem_nodes_of_body (mem_bodyNodes_of_mem hx))
  obtain ⟨⟨ci, caction, rfl⟩, ⟨di, daction, rfl⟩⟩ := leaves_of_alternate halternate
  have hc : Statement.leaf ci caction ∈ t.nodes := hin (by simp [hbody])
  have hd : Statement.leaf di daction ∈ t.nodes := hin (by simp [hbody])
  refine h.attempt ht hn (below_of_leaf ht hc) (fun j hj => ?_) (List.mem_append_left _ ?_)
  · obtain rfl := List.mem_singleton.1 hj
    exact below_of_leaf ht hd
  · exact List.mem_flatMap.2 ⟨s, hs, hbody ▸ mem_alternatingTails halternate before after⟩

theorem Irreducible.used (h : Irreducible n t) (ht : t.Valid) {var : String}
    (hvar : var ∈ t.declared) : var ∈ t.used := by
  have hreconciled : t.Reconciled := h.usages ▸ reconciled_reconcileUsages t n
  obtain ⟨s, hs, hdeclares⟩ := List.mem_filterMap.1 hvar
  obtain ⟨root, body, rfl, -⟩ := ht.root
  rcases List.mem_cons.1 hs with rfl | hs
  · cases hdeclares
  · exact hreconciled.used s hs var hdeclares

/-- The one bare job that goes is not among those that are left. -/
theorem exists_not_mem_of_withoutOneOf (ht : t.Valid) {vars : List String} {candidate : Statement}
    (h : t.withoutOneOf vars n = (some candidate, n')) : ∃ var ∈ vars, var ∉ candidate.bareJobs := by
  induction vars generalizing n with
  | nil => cases h
  | cons var vars ih =>
    rw [withoutOneOf_cons] at h
    split at h
    · obtain ⟨v, hv, hnot⟩ := ih h
      exact ⟨v, List.mem_cons_of_mem _ hv, hnot⟩
    · obtain ⟨hsome, -⟩ := Prod.mk.inj h
      obtain rfl := Option.some.inj hsome
      exact ⟨var, List.mem_cons_self, not_mem_bareJobs_eraseHandle ht var n⟩

/-- A program that hangs and loses nothing has no bare jobs. -/
theorem bareJobs_eq_nil_of_hangs (ht : t.Valid) (hn : Unused n [t]) (hhangs : t.hangs = true)
    (h : (t.breakInfiniteWaits n).1 = t) : t.bareJobs = [] := by
  rw [breakInfiniteWaits_of_hangs hhangs] at h
  rcases withoutOneOf_cases ht hn t.bareJobs with ⟨candidate, n', he, -⟩ | ⟨n', he, hle⟩
  · obtain ⟨var, hvar, hnot⟩ := exists_not_mem_of_withoutOneOf ht he
    rw [he] at h
    have hsame : candidate = t := h
    exact absurd (hsame ▸ hvar) hnot
  · rw [he] at h
    have hsame : (t.withoutBareJobs n').1 = t := h
    have hnone := bareJobs_eraseHandles ht (hn.mono hle)
    obtain ⟨herased, -⟩ := simpler_eraseHandles ht (hn.mono hle) t.bareJobs
    rw [withoutBareJobs] at hsame
    dsimp only at hsame
    split at hsame
    · have hsub := (simpler_withoutJoins herased.valid herased.unused).bareJobs
      rw [hsame, hnone] at hsub
      exact List.sublist_nil.1 hsub
    · rwa [hsame] at hnone

/-- A program in which no infinite wait can be broken stays as it is, whatever the new ids are. -/
theorem breakInfiniteWaits_eq_self (ht : t.Valid) (hn : Unused n [t])
    (h : (t.breakInfiniteWaits n).1 = t) (k : Nat) : t.breakInfiniteWaits k = (t, k) := by
  cases hhangs : t.hangs with
  | false => exact breakInfiniteWaits_of_not_hangs hhangs k
  | true =>
    have hnone := bareJobs_eq_nil_of_hangs ht hn hhangs h
    rw [breakInfiniteWaits_of_hangs hhangs, hnone] at h ⊢
    have herase : ∀ k, t.withoutBareJobs k = (t.edit fun s => if s.isJoin then .drop else .keep s, k) := by
      intro k
      have hsame : t.eraseHandles t.bareJobs k = (t, k) := by
        rw [hnone]
        rfl
      simp only [withoutBareJobs, hsame, hhangs, if_true]
    have hwithout : (t.withoutBareJobs n).1 = t := h
    rw [herase] at hwithout
    have hedit : (t.edit fun s => if s.isJoin then .drop else .keep s) = t := hwithout
    exact (herase k).trans (congrArg (·, k) hedit)

theorem declared_of_used (ht : t.Valid) {var : String} (hvar : var ∈ t.used) : var ∈ t.declared := by
  obtain ⟨s, hs, huses⟩ := List.mem_filterMap.1 hvar
  exact declared_of_valid ht hs huses

/-- A round changes nothing, whatever the new ids are. -/
theorem Irreducible.round_eq (h : Irreducible n t) (ht : t.Valid) (hn : Unused n [t]) (k : Nat) :
    t.round k = (t, k) := by
  have hreconciled : t.Reconciled := h.usages ▸ reconciled_reconcileUsages t n
  have husages := hreconciled.reconcileUsages_eq_self
  have hwaits := h.waits
  rw [husages n] at hwaits
  simp only [round, h.blocks, h.leaves, husages k]
  exact breakInfiniteWaits_eq_self ht hn hwaits k

theorem Irreducible.simplify_eq (h : Irreducible n t) (ht : t.Valid) (hn : Unused n [t]) {k : Nat}
    (hk : Unused k [t]) : t.simplify.run k = (.ok t, k) :=
  simplify_of_round ht hk (h.round_eq ht hn k)

/-- Blocks and leaves are all that a round removes from a program whose handles agree. -/
theorem round_of_reconciled (hreduced : t.reduceBlocks.reduceLeaves = r) (hr : r.Reconciled)
    (hwaits : r.hangs = false) (n : Nat) : t.round n = (r, n) := by
  simp only [round, hreduced, hr.reconcileUsages_eq_self n]
  exact breakInfiniteWaits_of_not_hangs hwaits n

theorem simplify_of_reconciled (ht : t.validate = .ok ()) (hids : ∀ i ∈ t.ids, i < n)
    (hreduced : t.reduceBlocks.reduceLeaves = t) (hr : t.Reconciled) (hwaits : t.hangs = false) :
    t.simplify.run n = (.ok t, n) :=
  simplify_of_round (validate_eq_ok_iff.1 ht) (unused_of_ids hids)
    (round_of_reconciled hreduced hr hwaits n)

/-- A program in which nothing is redundant. -/
structure Minimal (t : Statement) : Prop where
  /-- No leaf can go. -/
  leaf : ∀ i ∈ t.idsOfLeaves, (t.excise [i]).evaluate ≠ t.evaluate
  /-- No block below the root can go. -/
  block : ∀ i ∈ t.idsOfInnerBlocks, (t.excise [i]).evaluate ≠ t.evaluate
  /-- No block below the root can give way to its body. -/
  inlined : ∀ i ∈ t.idsOfInnerBlocks, (t.dissolve i).evaluate ≠ t.evaluate
  /-- Of four neighbours in a body that alternate the last two cannot go. -/
  alternation : ∀ s ∈ t.nodes, ∀ before a b c d after, s.body = before ++ a :: b :: c :: d :: after →
    alternate a b c d = true → (t.excise [c.id, d.id]).evaluate ≠ t.evaluate
  used : ∀ var ∈ t.declared, var ∈ t.used
  declared : ∀ var ∈ t.used, var ∈ t.declared

theorem Irreducible.minimal (h : Irreducible n t) (ht : t.Valid) (hn : Unused n [t]) : t.Minimal where
  leaf _ hi := h.leaf ht hn hi
  block _ hi := (h.block ht hn hi).2
  inlined _ hi := (h.block ht hn hi).1
  alternation _ hs _ _ _ _ _ _ hbody halternate := h.alternation ht hn hs hbody halternate
  used _ hvar := h.used ht hvar
  declared _ hvar := declared_of_used ht hvar

/-- Nothing redundant survives simplification, and a simplified program is its own simplification. -/
theorem simplify_minimal (t : Statement) (ht : t.validate = .ok ()) (n : Nat) (hn : ∀ i ∈ t.ids, i < n) :
    ∃ r n', t.simplify.run n = (.ok r, n') ∧ r.Minimal ∧
      ∀ k, (∀ i ∈ r.ids, i < k) → r.simplify.run k = (.ok r, k) := by
  have hvalid := validate_eq_ok_iff.1 ht
  have hunused := unused_of_ids hn
  obtain ⟨r, n', hrun, hsettles, -⟩ := settlesTo_simplify hvalid hunused
  obtain ⟨hr, k, hk, hirreducible⟩ := hsettles.irreducible hvalid hunused
  exact ⟨r, n', hrun, hirreducible.minimal hr hk,
    fun _ hids => hirreducible.simplify_eq hr hk (unused_of_ids hids)⟩

/-- A print in a launch that it does not need, with a handle that nobody uses. -/
def wrappedPrint : Statement :=
  .block 0 .coroutineScope [.block 1 (.launchJob "a") [.leaf 2 (.print "done")]]

def unwrappedPrint : Statement :=
  .block 0 .coroutineScope [.leaf 2 (.print "done")]

theorem wrapped_print_is_minimal_afterwards :
    ∃ r n', wrappedPrint.simplify.run 3 = (.ok r, n') ∧ r.Minimal ∧ r.size = 2 := by
  have ht : wrappedPrint.validate = .ok () := by cbv
  have hvalid := validate_eq_ok_iff.1 ht
  have hunused : Unused 3 [wrappedPrint] := unused_of_ids (by decide)
  have hvalid' : unwrappedPrint.Valid := validate_eq_ok_iff.1 (by cbv)
  have hunused' : Unused 3 [unwrappedPrint] := unused_of_ids (by decide)
  have hreduced : wrappedPrint.reduceBlocks.reduceLeaves = unwrappedPrint := by cbv
  have hreduced' : unwrappedPrint.reduceBlocks.reduceLeaves = unwrappedPrint := by cbv
  have hreconciled : unwrappedPrint.Reconciled := ⟨by decide, by decide⟩
  have hwaits : unwrappedPrint.hangs = false := by cbv
  obtain ⟨r, n', hrun, hminimal, -⟩ := simplify_minimal wrappedPrint ht 3 (by decide)
  obtain ⟨r', n'', hrun', hsettles, -⟩ := settlesTo_simplify hvalid hunused
  obtain ⟨hr, rfl⟩ := Prod.mk.inj (hrun'.symm.trans hrun)
  obtain rfl := Except.ok.inj hr
  -- the first round takes the launch away, the second one finds nothing to do
  have hnext : SettlesTo unwrappedPrint 3 r' n'' :=
    hsettles.next hvalid hunused (round_of_reconciled hreduced hreconciled hwaits 3) (by decide)
  have hlast : r' = unwrappedPrint :=
    hnext.eq_of_round hvalid' hunused' (round_of_reconciled hreduced' hreconciled hwaits 3)
  exact ⟨r', n'', hrun, hminimal, congrArg size hlast⟩

end RacePuzzle.Statement
