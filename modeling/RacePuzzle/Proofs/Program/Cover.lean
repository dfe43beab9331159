import RacePuzzle.Proofs.Program.Place

/-! What waits for what. A scope covers its own body, a join or an await the block whose handle it
uses; blocks that start detached tasks cut off what is below them. -/
namespace RacePuzzle

inductive Action.WaitsFor : Action → Statement → Prop
  | launchJob {var id body} : WaitsFor (.join var) (.block id (.launchJob var) body)
  | async {var id text body} : WaitsFor (.join var) (.block id (.async var text) body)
  | await {var text id result body} :
      WaitsFor (.printAwait var text) (.block id (.async var result) body)

theorem Action.WaitsFor.uses {action : Action} {block : Statement} (h : action.WaitsFor block) :
    ∃ var, action.uses? = some var ∧ block.declares? = some var := by
  cases h <;> exact ⟨_, rfl, rfl⟩

namespace Statement

mutual
/-- The statements of the subtree that are not below a `scopeLaunch` in it. -/
def attached : Statement → List Statement
  | .leaf id action => [.leaf id action]
  | .block id head body =>
    .block id head body :: match head with
      | .scopeLaunch => []
      | _ => bodyAttached body
def bodyAttached : List Statement → List Statement
  | [] => []
  | s :: rest => s.attached ++ bodyAttached rest
end

mutual
theorem attached_subset_nodes : (s : Statement) → s.attached ⊆ s.nodes
  | .leaf .. => List.Subset.refl _
  | .block id head body => by
    refine List.cons_subset_cons _ ?_
    cases head <;> first | exact bodyAttached_subset_nodes body | exact List.nil_subset _
theorem bodyAttached_subset_nodes : (body : List Statement) → bodyAttached body ⊆ bodyNodes body
  | [] => List.Subset.refl _
  | s :: rest => by
    rw [bodyAttached, bodyNodes]
    exact List.append_subset.2 ⟨fun x hx => List.mem_append_left _ (s.attached_subset_nodes hx),
      fun x hx => List.mem_append_right _ (bodyAttached_subset_nodes rest hx)⟩
end

/-- `x` goes on only when the tasks of `c` have come to their end. -/
inductive Covers (t : Statement) : (x c : Statement) → Prop
  | scope {id head body} : head.isScope → .block id head body ∈ t.nodes →
      Covers t (.block id head body) (.block id head body)
  | wait {id action block} : .leaf id action ∈ t.nodes → block ∈ t.nodes →
      action.WaitsFor block → Covers t (.leaf id action) block

/-- `s` stands after `x` in the body of `x`, at any depth. -/
def ComesAfter (t x s : Statement) : Prop :=
  ∃ block ∈ t.nodes, ∃ pre post, block.body = pre ++ x :: post ∧ s ∈ bodyNodes post

variable {t : Statement} {owner : Option Statement} {before body : List Statement}

/-- What is covered is a block that makes a job below the one in which it begins. -/
theorem Covers.exists_block {x c : Statement} (h : t.Covers x c) : ∃ id head body,
    c = .block id head body ∧ .block id head body ∈ t.nodes ∧ head.makesJob ∧ head ≠ .scopeLaunch := by
  cases h with
  | @scope id head body hs hmem =>
    refine ⟨id, head, body, rfl, hmem, ?_, ?_⟩
    · cases head <;> first | rfl | cases hs
    · rintro rfl
      cases hs
  | wait _ hmem hw => cases hw <;> exact ⟨_, _, _, rfl, hmem, rfl, nofun⟩

/-- A statement inside a place has a place of its own, preceded by all that precedes the other. -/
def Within (t : Statement) (before : List Statement) (s : Statement) : Prop :=
  ∃ owner' before' rest', Placed t owner' before' (s :: rest') ∧ before ⊆ before'

mutual
theorem Placed.within {owner : Option Statement} {before : List Statement} :
    (s : Statement) → {rest : List Statement} → Placed t owner before (s :: rest) →
      ∀ d ∈ s.nodes, Within t before d
  | .leaf id action, rest, h, d, hd => by
    obtain rfl : d = .leaf id action := by simpa [nodes] using hd
    exact ⟨owner, before, rest, h, List.Subset.refl _⟩
  | .block id head body, rest, h, d, hd => by
    rcases List.mem_cons.1 hd with rfl | hd
    · exact ⟨owner, before, rest, h, List.Subset.refl _⟩
    · exact Placed.withinBody body h.inside d hd
theorem Placed.withinBody {owner : Option Statement} {before : List Statement} :
    (body : List Statement) → Placed t owner before body → ∀ d ∈ bodyNodes body, Within t before d
  | [], _, d, hd => by simp [bodyNodes] at hd
  | s :: rest, h, d, hd => by
    rcases List.mem_append.1 hd with hd | hd
    · exact Placed.within s h d hd
    · obtain ⟨owner', before', rest', hp, hsub⟩ := Placed.withinBody rest h.next d hd
      exact ⟨owner', before', rest', hp, fun x hx => hsub (List.mem_append_left _ hx)⟩
end

theorem exists_placed {s : Statement} (hs : s ∈ t.nodes) :
    ∃ owner before rest, Placed t owner before (s :: rest) := by
  obtain ⟨owner, before, rest, hp, -⟩ := Placed.within t .root s hs
  exact ⟨owner, before, rest, hp⟩

theorem Placed.drop {pre post : List Statement} (h : Placed t owner before (pre ++ post)) :
    Placed t owner (before ++ pre) post := by
  induction pre generalizing before with
  | nil => simpa using h
  | cons s pre ih => simpa using ih h.next

theorem ComesAfter.mem_nodes {x s : Statement} (h : t.ComesAfter x s) : s ∈ t.nodes := by
  obtain ⟨block, hblock, pre, post, hbody, hs⟩ := h
  obtain ⟨owner, before, rest, hp⟩ := exists_placed hblock
  cases block with
  | leaf id action => simp [Statement.body] at hbody
  | block id head body =>
    obtain rfl : body = pre ++ x :: post := hbody
    exact hp.inside.drop.next.mem_nodes hs

/-- What comes after a statement is preceded by it. -/
theorem ComesAfter.mem_before (hids : t.ids.Nodup) {x s : Statement} (h : t.ComesAfter x s)
    {rest : List Statement} (hp : Placed t owner before (s :: rest)) : x ∈ before := by
  obtain ⟨block, hblock, pre, post, hbody, hs⟩ := h
  obtain ⟨owner', before', rest', hp'⟩ := exists_placed hblock
  cases block with
  | leaf id action => simp [Statement.body] at hbody
  | block id head body =>
    obtain rfl : body = pre ++ x :: post := hbody
    obtain ⟨_, _, _, hps, hsub⟩ := Placed.withinBody post hp'.inside.drop.next s hs
    obtain ⟨-, rfl⟩ := place_unique hids hp hps
    exact hsub (by simp)

theorem Valid.mem_before_of_waitsFor (ht : t.Valid) {id : StatementId} {action : Action}
    {block : Statement} (h : action.WaitsFor block) (hblock : block ∈ t.nodes)
    {rest : List Statement} (hp : Placed t owner before (.leaf id action :: rest)) :
    block ∈ before := by
  obtain ⟨var, hu, hd⟩ := h.uses
  obtain ⟨d, hmem, hdd⟩ := ht.exists_declaration hp hu
  rwa [← ht.eq_of_declares (hp.before_mem_nodes hmem) hblock hdd hd]

theorem mem_nodes_of_mem_nodes {c s : Statement} (hc : c ∈ t.nodes) (hs : s ∈ c.nodes) :
    s ∈ t.nodes := by
  obtain ⟨owner, before, rest, hp⟩ := exists_placed hc
  exact hp.mem_nodes (List.mem_append_left _ hs)

/-- The statement stands in the body of a block of `c` that makes a job and is no `scopeLaunch`, with
nothing between them that makes one. -/
def OwnedBelow (t c s : Statement) : Prop :=
  ∃ id head body before rest, .block id head body ∈ c.attached ∧ head ≠ .scopeLaunch ∧
    Placed t (some (.block id head body)) before (s :: rest)

mutual
theorem ownedBelow_of_attached {c : Statement} {oid : StatementId} {ohead : Head}
    {obody : List Statement} (ho : .block oid ohead obody ∈ c.attached)
    (hne : ohead ≠ .scopeLaunch) {before : List Statement} :
    (s : Statement) → {rest : List Statement} →
      Placed t (some (.block oid ohead obody)) before (s :: rest) → s.attached ⊆ c.attached →
      ∀ d ∈ s.attached, OwnedBelow t c d
  | .leaf id action, rest, h, _, d, hd => by
    obtain rfl : d = .leaf id action := by simpa [attached] using hd
    exact ⟨oid, ohead, obody, before, rest, ho, hne, h⟩
  | .block id head body, rest, h, hsub, d, hd => by
    rcases List.mem_cons.1 hd with rfl | hd
    · exact ⟨oid, ohead, obody, before, rest, ho, hne, h⟩
    · by_cases hs : head = .scopeLaunch
      · subst hs
        simp at hd
      · have hbody : d ∈ bodyAttached body ∧ bodyAttached body ⊆ c.attached := by
          cases head <;> first
            | exact absurd rfl hs
            | exact ⟨hd, fun x hx => hsub (List.mem_cons_of_mem _ hx)⟩
        have hin := h.inside
        unfold ownerInside at hin
        split at hin
        · exact bodyOwnedBelow_of_attached (hsub List.mem_cons_self) hs body hin hbody.2 d hbody.1
        · exact bodyOwnedBelow_of_attached ho hne body hin hbody.2 d hbody.1
theorem bodyOwnedBelow_of_attached {c : Statement} {oid : StatementId} {ohead : Head}
    {obody : List Statement} (ho : .block oid ohead obody ∈ c.attached)
    (hne : ohead ≠ .scopeLaunch) {before : List Statement} :
    (body : List Statement) → Placed t (some (.block oid ohead obody)) before body →
      bodyAttached body ⊆ c.attached → ∀ d ∈ bodyAttached body, OwnedBelow t c d
  | [], _, _, d, hd => by simp [bodyAttached] at hd
  | s :: rest, h, hsub, d, hd => by
    rcases List.mem_append.1 hd with hd | hd
    · exact ownedBelow_of_attached ho hne s h (fun x hx => hsub (List.mem_append_left _ hx)) d hd
    · exact bodyOwnedBelow_of_attached ho hne rest h.next
        (fun x hx => hsub (List.mem_append_right _ hx)) d hd
end

theorem bodyAttached_eq {id : StatementId} {head : Head} {body : List Statement}
    (hs : head ≠ .scopeLaunch) :
    (Statement.block id head body).attached = .block id head body :: bodyAttached body := by
  cases head <;> first | exact absurd rfl hs | rfl

theorem ownedBelow {id : StatementId} {head : Head} {body : List Statement}
    (hmem : .block id head body ∈ t.nodes) (hm : head.makesJob) (hs : head ≠ .scopeLaunch)
    {s : Statement} (h : s ∈ (Statement.block id head body).attached)
    (hne : s ≠ .block id head body) : OwnedBelow t (.block id head body) s := by
  obtain ⟨owner, before, rest, hp⟩ := exists_placed hmem
  have hin := hp.inside
  rw [ownerInside, if_pos hm] at hin
  rw [bodyAttached_eq hs] at h
  refine bodyOwnedBelow_of_attached (by rw [bodyAttached_eq hs]; exact List.mem_cons_self) hs body hin
    (by rw [bodyAttached_eq hs]; exact fun x hx => List.mem_cons_of_mem _ hx) s ?_
  exact (List.mem_cons.1 h).resolve_left hne

end Statement

end RacePuzzle
