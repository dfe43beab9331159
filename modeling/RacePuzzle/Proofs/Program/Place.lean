import RacePuzzle.Program.Validity
import Mathlib.Data.List.Nodup
import Mathlib.Data.List.Pairwise
import Mathlib.Tactic.Common

/-! The places of a program. Code always goes on somewhere in the program: at a place in one of
its bodies, after the statements that precede it there and in the bodies around. -/
namespace RacePuzzle

def Head.makesJob : Head → Bool
  | .tryCatch _ => false
  | _ => true

/-- Whether the block runs its body in the task in which it begins, in a job of its own. -/
def Head.isScope : Head → Bool
  | .coroutineScope | .supervisorScope => true
  | _ => false

namespace Statement

/-- The block whose job runs the body of a block that stands inside `owner`. -/
def ownerInside (owner : Option Statement) (block : Statement) (head : Head) : Option Statement :=
  if head.makesJob then some block else owner

/-- `body` is what is left of a body of `t` after the statements `before`, which precede it in this
body or in one around. It runs in the job that the block `owner` makes, or in that of the program. -/
inductive Placed (t : Statement) :
    (owner : Option Statement) → (before body : List Statement) → Prop
  | root : Placed t none [] [t]
  | next {owner before s rest} : Placed t owner before (s :: rest) →
      Placed t owner (before ++ [s]) rest
  | inside {owner before id head body rest} :
      Placed t owner before (.block id head body :: rest) →
      Placed t (ownerInside owner (.block id head body) head) before body

variable {t : Statement} {owner owner' : Option Statement} {before before' body : List Statement}

theorem bodySize_append (body rest : List Statement) :
    bodySize (body ++ rest) = bodySize body + bodySize rest := by
  induction body with
  | nil => simp [bodySize]
  | cons s body ih => simp only [List.cons_append, bodySize, ih, Nat.add_assoc]

theorem bodySize_concat (body : List Statement) (s : Statement) :
    bodySize (body ++ [s]) = bodySize body + s.size := by
  rw [bodySize_append]
  rfl

theorem self_mem_nodes (s : Statement) : s ∈ s.nodes := by
  cases s <;> simp [nodes]

theorem mem_bodyNodes_of_mem {d : Statement} (hd : d ∈ body) :
    d ∈ bodyNodes body := by
  induction body with
  | nil => cases hd
  | cons s rest ih =>
    rcases List.mem_cons.1 hd with rfl | hd
    · exact List.mem_append_left _ (self_mem_nodes d)
    · exact List.mem_append_right _ (ih hd)

theorem mem_nodes_of_body {s : Statement} (hs : s ∈ bodyNodes t.body) : s ∈ t.nodes := by
  cases t with
  | leaf => cases hs
  | block => exact List.mem_cons_of_mem _ hs

/-- A statement that precedes a place has a place of its own, and ends before the other begins. -/
theorem Placed.exists_before (h : Placed t owner before body) {d : Statement} (hd : d ∈ before) :
    ∃ owner' before' rest, Placed t owner' before' (d :: rest) ∧
      bodySize before' + d.size ≤ bodySize before := by
  induction h with
  | root => simp at hd
  | @next owner before s rest h ih =>
    rw [bodySize_concat]
    rcases List.mem_append.1 hd with hd | hd
    · obtain ⟨owner', before', rest', hp, hle⟩ := ih hd
      exact ⟨owner', before', rest', hp, Nat.le_add_right_of_le hle⟩
    · obtain rfl : d = s := by simpa using hd
      exact ⟨owner, before, rest, h, Nat.le_refl _⟩
  | inside _ ih => exact ih hd

theorem Placed.mem_nodes (h : Placed t owner before body) {s : Statement}
    (hs : s ∈ bodyNodes body) : s ∈ t.nodes := by
  induction h with
  | root => simpa [bodyNodes] using hs
  | next _ ih => exact ih (List.mem_append_right _ hs)
  | inside _ ih => exact ih (List.mem_append_left _ (List.mem_cons_of_mem _ hs))

theorem Placed.head_mem_nodes {s : Statement} {rest : List Statement}
    (h : Placed t owner before (s :: rest)) : s ∈ t.nodes :=
  h.mem_nodes (List.mem_append_left _ (self_mem_nodes s))

theorem Placed.before_mem_nodes (h : Placed t owner before body) {d : Statement}
    (hd : d ∈ before) : d ∈ t.nodes := by
  obtain ⟨_, _, _, hp, -⟩ := h.exists_before hd
  exact hp.head_mem_nodes

structure Site where
  owner : Option Statement
  before : List Statement
  statement : Statement

mutual
def sites (owner : Option Statement) (before : List Statement) : Statement → List Site
  | .leaf id action => [⟨owner, before, .leaf id action⟩]
  | .block id head body => ⟨owner, before, .block id head body⟩ ::
    bodySites (ownerInside owner (.block id head body) head) before body
def bodySites (owner : Option Statement) (before : List Statement) : List Statement → List Site
  | [] => []
  | s :: rest => s.sites owner before ++ bodySites owner (before ++ [s]) rest
end

mutual
theorem map_sites (owner : Option Statement) (before : List Statement) :
    (s : Statement) → (s.sites owner before).map Site.statement = s.nodes
  | .leaf .. => rfl
  | .block _ _ body => by
    simp only [sites, nodes, List.map_cons, map_bodySites _ before body]
theorem map_bodySites (owner : Option Statement) (before : List Statement) :
    (body : List Statement) → (bodySites owner before body).map Site.statement = bodyNodes body
  | [] => rfl
  | s :: rest => by
    simp only [bodySites, bodyNodes, List.map_append, map_sites owner before s,
      map_bodySites owner _ rest]
end

theorem Placed.sites (h : Placed t owner before body) :
    bodySites owner before body ⊆ t.sites none [] := by
  induction h with
  | root => simp [bodySites]
  | next _ ih => exact fun x hx => ih (List.mem_append_right _ hx)
  | inside _ ih => exact fun x hx => ih (List.mem_append_left _ (List.mem_cons_of_mem _ hx))

theorem Placed.site {s : Statement} {rest : List Statement}
    (h : Placed t owner before (s :: rest)) : ⟨owner, before, s⟩ ∈ t.sites none [] := by
  refine h.sites (List.mem_append_left _ ?_)
  cases s <;> simp [Statement.sites]

/-- What `validate` asks for. -/
structure Valid (t : Statement) : Prop where
  root : ∃ id body, t = .block id .coroutineScope body ∧ bodyUnbound? ∅ body = none
  ids : t.ids.Nodup
  declared : t.declared.Nodup

theorem validate_eq_ok_iff : t.validate = .ok () ↔ t.Valid := by
  constructor
  · intro h
    unfold validate at h
    split at h
    · next id body =>
      split at h
      · cases h
      · next hids =>
        split at h
        · cases h
        · next hdecl =>
          split at h
          · cases h
          · next hbound =>
            exact ⟨⟨id, body, rfl, hbound⟩, (firstRepeat?_eq_none_iff.1 hids).1,
              (firstRepeat?_eq_none_iff.1 hdecl).1⟩
    · cases h
  · rintro ⟨⟨id, body, rfl, hbound⟩, hids, hdecl⟩
    have hids' : firstRepeat? ∅ (Statement.block id .coroutineScope body).ids = none :=
      firstRepeat?_eq_none_iff.2 ⟨hids, by simp⟩
    have hdecl' : firstRepeat? ∅ (Statement.block id .coroutineScope body).declared = none :=
      firstRepeat?_eq_none_iff.2 ⟨hdecl, by simp⟩
    simp only [validate, hids', hdecl', hbound]
    rfl

/-- At every place of a valid program the usages are covered by handles that the statements before
it bind. -/
theorem Valid.visible (ht : t.Valid) (h : Placed t owner before body) :
    ∃ visible : Std.TreeSet String, bodyUnbound? visible body = none ∧
      ∀ var, var ∈ visible → ∃ d ∈ before, d.declares? = some var := by
  induction h with
  | root =>
    obtain ⟨id, body, rfl, hbound⟩ := ht.root
    exact ⟨∅, by simp [bodyUnbound?, unbound?, hbound], by simp⟩
  | @next owner before s rest _ ih =>
    obtain ⟨visible, hnone, hvis⟩ := ih
    rw [bodyUnbound?] at hnone
    split at hnone
    · simp at hnone
    · refine ⟨_, hnone, fun var hvar => ?_⟩
      cases hdecl : s.declares? with
      | none =>
        rw [hdecl] at hvar
        obtain ⟨d, hd, he⟩ := hvis var hvar
        exact ⟨d, List.mem_append_left _ hd, he⟩
      | some new =>
        rw [hdecl] at hvar
        rcases Std.TreeSet.mem_insert.1 hvar with he | hvar
        · obtain rfl := Std.LawfulEqCmp.compare_eq_iff_eq.1 he
          exact ⟨s, by simp, hdecl⟩
        · obtain ⟨d, hd, he⟩ := hvis var hvar
          exact ⟨d, List.mem_append_left _ hd, he⟩
  | @inside owner before id head body rest _ ih =>
    obtain ⟨visible, hnone, hvis⟩ := ih
    rw [bodyUnbound?] at hnone
    split at hnone
    · simp at hnone
    · next hs => exact ⟨visible, by simpa [unbound?] using hs, hvis⟩

theorem Valid.exists_declaration (ht : t.Valid) {id : StatementId} {action : Action}
    {rest : List Statement} (h : Placed t owner before (.leaf id action :: rest)) {var : String}
    (hu : action.uses? = some var) : ∃ d ∈ before, d.declares? = some var := by
  obtain ⟨visible, hnone, hvis⟩ := ht.visible h
  refine hvis var ?_
  rw [bodyUnbound?] at hnone
  split at hnone
  · simp at hnone
  · next hs =>
    simp only [unbound?, hu] at hs
    split at hs
    · next hc => exact Std.TreeSet.contains_iff_mem.1 hc
    · simp at hs

/-- An id that is not used twice belongs to one statement. -/
theorem eq_of_id (hids : t.ids.Nodup) {s s' : Statement} (hs : s ∈ t.nodes) (hs' : s' ∈ t.nodes)
    (he : s.id = s'.id) : s = s' :=
  List.inj_on_of_nodup_map hids hs hs' he

theorem get?_of_mem (hids : t.ids.Nodup) {d : Statement} (hd : d ∈ t.nodes) : t.get? d.id = some d := by
  obtain ⟨s, hs⟩ := Option.isSome_iff_exists.1
    (List.find?_isSome.2 ⟨d, hd, beq_self_eq_true d.id⟩ : (t.get? d.id).isSome)
  have hid : s.id = d.id := by simpa using List.find?_some hs
  rw [← eq_of_id hids (List.mem_of_find?_eq_some hs) hd hid, get?, hid, hs]

theorem Valid.eq_of_id (ht : t.Valid) {s s' : Statement} (hs : s ∈ t.nodes) (hs' : s' ∈ t.nodes)
    (he : s.id = s'.id) : s = s' :=
  Statement.eq_of_id ht.ids hs hs' he

theorem Valid.eq_of_declares (ht : t.Valid) {s s' : Statement} (hs : s ∈ t.nodes)
    (hs' : s' ∈ t.nodes) {var : String} (h : s.declares? = some var)
    (h' : s'.declares? = some var) : s = s' := by
  have hnodup : (t.nodes.filterMap declares?).Nodup := ht.declared
  have hpair := List.pairwise_filterMap.1 hnodup
  have hsymm : Std.Symm fun a b : Statement => ∀ v, a.declares? = some v →
      ∀ w, b.declares? = some w → v ≠ w := ⟨fun a b hab v hv w hw he => hab w hw v hv he.symm⟩
  by_contra hne
  exact hpair.forall hs hs' hne var h var h' rfl

/-- A statement whose id is not used twice has one site. -/
theorem site_unique (hids : t.ids.Nodup) {site site' : Site} (h : site ∈ t.sites none [])
    (h' : site' ∈ t.sites none []) (he : site.statement = site'.statement) : site = site' := by
  have hnodup : ((t.sites none []).map Site.statement).Nodup := by
    rw [map_sites]
    exact List.Nodup.of_map _ hids
  exact List.inj_on_of_nodup_map hnodup h h' he

/-- A statement whose id is not used twice has one place. -/
theorem place_unique (hids : t.ids.Nodup) {s : Statement} {rest rest' : List Statement}
    (h : Placed t owner before (s :: rest)) (h' : Placed t owner' before' (s :: rest')) :
    owner = owner' ∧ before = before' := by
  have := site_unique hids h.site h'.site rfl
  exact ⟨congrArg Site.owner this, congrArg Site.before this⟩

theorem Valid.place_unique (ht : t.Valid) {s : Statement} {rest rest' : List Statement}
    (h : Placed t owner before (s :: rest)) (h' : Placed t owner' before' (s :: rest')) :
    owner = owner' ∧ before = before' :=
  Statement.place_unique ht.ids h h'

end Statement

end RacePuzzle
