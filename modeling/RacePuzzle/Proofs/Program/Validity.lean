import RacePuzzle.Proofs.Program.Cover

/-! What a violation says. The walk over a program that looks for usages out of reach sees, at every
statement, the handles of those that precede it there or in the bodies around; so it finds one just
where no declaration precedes a usage, and the first in pre-order. -/
namespace RacePuzzle

/-- `a` comes again at a place before which nothing else does. -/
def FirstRepeat {α : Type} (a : α) (l : List α) : Prop :=
  ∃ pre post, l = pre ++ a :: post ∧ pre.Nodup ∧ a ∈ pre

theorem firstRepeat?_eq_some_iff {α : Type} [Ord α] [Std.TransOrd α] [Std.LawfulEqOrd α]
    {seen : Std.TreeSet α} {l : List α} {a : α} :
    firstRepeat? seen l = some a ↔ ∃ pre post, l = pre ++ a :: post ∧ pre.Nodup ∧
      (∀ b ∈ pre, b ∉ seen) ∧ (a ∈ pre ∨ a ∈ seen) := by
  induction l generalizing seen with
  | nil => simp [firstRepeat?]
  | cons b rest ih =>
    by_cases hb : b ∈ seen
    · rw [firstRepeat?, if_pos (Std.TreeSet.contains_iff_mem.2 hb), Option.some_inj]
      constructor
      · rintro rfl
        exact ⟨[], rest, rfl, List.nodup_nil, fun _ h => absurd h List.not_mem_nil, .inr hb⟩
      · rintro ⟨pre, post, hl, -, hpre, -⟩
        cases pre with
        | nil => exact (List.cons_eq_cons.1 hl).1
        | cons c pre =>
          obtain ⟨rfl, -⟩ := List.cons_eq_cons.1 hl
          exact absurd hb (hpre b List.mem_cons_self)
    · have hinsert : ∀ c, c ∈ seen.insert b ↔ b = c ∨ c ∈ seen := fun c => by
        rw [Std.TreeSet.mem_insert, Std.LawfulEqCmp.compare_eq_iff_eq]
      rw [firstRepeat?, if_neg fun h => hb (Std.TreeSet.contains_iff_mem.1 h), ih]
      simp only [hinsert, not_or]
      constructor
      · rintro ⟨pre, post, rfl, hnodup, hpre, ha⟩
        refine ⟨b :: pre, post, rfl, List.nodup_cons.2 ⟨fun h => (hpre b h).1 rfl, hnodup⟩,
          List.forall_mem_cons.2 ⟨hb, fun c hc => (hpre c hc).2⟩, ?_⟩
        rcases ha with ha | rfl | ha
        · exact .inl (List.mem_cons_of_mem _ ha)
        · exact .inl List.mem_cons_self
        · exact .inr ha
      · rintro ⟨pre, post, hl, hnodup, hpre, ha⟩
        cases pre with
        | nil =>
          obtain ⟨rfl, -⟩ := List.cons_eq_cons.1 hl
          exact absurd (ha.resolve_left List.not_mem_nil) hb
        | cons c pre =>
          obtain ⟨rfl, rfl⟩ := List.cons_eq_cons.1 hl
          obtain ⟨hnot, hnodup⟩ := List.nodup_cons.1 hnodup
          refine ⟨pre, post, rfl, hnodup, fun c hc => ⟨fun he => hnot (he ▸ hc),
            hpre c (List.mem_cons_of_mem _ hc)⟩, ?_⟩
          rcases ha with ha | ha
          · exact (List.mem_cons.1 ha).elim (fun he => .inr (.inl he.symm)) .inl
          · exact .inr (.inr ha)

theorem firstRepeat?_empty_eq_some_iff {α : Type} [Ord α] [Std.TransOrd α] [Std.LawfulEqOrd α]
    {l : List α} {a : α} : firstRepeat? ∅ l = some a ↔ FirstRepeat a l := by
  rw [firstRepeat?_eq_some_iff]
  simp [FirstRepeat]

theorem FirstRepeat.unique {α : Type} [Ord α] [Std.TransOrd α] [Std.LawfulEqOrd α] {l : List α}
    {a b : α} (ha : FirstRepeat a l) (hb : FirstRepeat b l) : a = b :=
  Option.some.inj ((firstRepeat?_empty_eq_some_iff.2 ha).symm.trans
    (firstRepeat?_empty_eq_some_iff.2 hb))

theorem FirstRepeat.not_nodup {α : Type} {l : List α} {a : α} (h : FirstRepeat a l) :
    ¬ l.Nodup := by
  obtain ⟨pre, post, rfl, -, ha⟩ := h
  exact fun hnodup => (List.nodup_append'.1 hnodup).2.2 ha List.mem_cons_self

namespace Statement

variable {t d u : Statement} {owner : Option Statement} {before body : List Statement} {var : String}

/-- A declaration of the handle that the statement uses, if it uses one, stands before it in the same
body or in one around. -/
def Bound (t u : Statement) : Prop :=
  ∀ var ∈ u.uses?, ∃ d, t.ComesAfter d u ∧ d.declares? = some var

def IsProgram (t : Statement) : Prop :=
  ∃ id body, t = .block id .coroutineScope body

structure WellFormed (t : Statement) : Prop where
  root : t.IsProgram
  ids : t.ids.Nodup
  declared : t.declared.Nodup
  usages : ∀ u ∈ t.nodes, t.Bound u

/-- The program breaks the rule that the violation is about at the first place where it is broken,
and none of the rules before it. -/
def Violates (t : Statement) : Violation → Prop
  | .badRoot found => ¬ t.IsProgram ∧ found = t.label
  | .repeatedId id => t.IsProgram ∧ FirstRepeat id t.ids
  | .repeatedHandle var => t.IsProgram ∧ t.ids.Nodup ∧ FirstRepeat var t.declared
  | .unboundUsage var => t.IsProgram ∧ t.ids.Nodup ∧ t.declared.Nodup ∧
    ∃ pre u post, t.nodes = pre ++ u :: post ∧ (∀ s ∈ pre, t.Bound s) ∧ ¬ t.Bound u ∧
      u.uses? = some var

/-- What is left of a body is the end of that of a block, except around the program. -/
theorem Placed.exists_block (h : Placed t owner before body) :
    body = [t] ∨ body = [] ∨ ∃ block ∈ t.nodes, ∃ pre, block.body = pre ++ body := by
  induction h with
  | root => exact .inl rfl
  | @next owner before s rest h ih =>
    rcases ih with hroot | hnil | ⟨block, hblock, pre, hbody⟩
    · exact .inr (.inl (List.cons_eq_cons.1 hroot).2)
    · cases hnil
    · exact .inr (.inr ⟨block, hblock, pre ++ [s], by rw [hbody, List.append_assoc]; rfl⟩)
  | inside h _ => exact .inr (.inr ⟨_, h.head_mem_nodes, [], rfl⟩)

/-- What stands at a place comes after all that precedes it. -/
theorem Placed.comesAfter (h : Placed t owner before body) (hd : d ∈ before)
    (hu : u ∈ bodyNodes body) : t.ComesAfter d u := by
  induction h with
  | root => cases hd
  | @next owner before s rest h ih =>
    rcases List.mem_append.1 hd with hd | hd
    · exact ih hd (List.mem_append_right _ hu)
    · obtain rfl := List.mem_singleton.1 hd
      rcases h.exists_block with hroot | hnil | ⟨block, hblock, pre, hbody⟩
      · rw [(List.cons_eq_cons.1 hroot).2] at hu
        cases hu
      · cases hnil
      · exact ⟨block, hblock, pre, rest, hbody, hu⟩
  | inside _ ih => exact ih hd (List.mem_append_left _ (List.mem_cons_of_mem _ hu))

/-- The handle that the statement uses, if no declaration of it precedes the site. -/
def Site.unbound? (site : Site) : Option String :=
  site.statement.uses?.filter fun var => !site.before.any (·.declares? == some var)

/-- The visible handles are those that the statements before declare. -/
def Sees (visible : Std.TreeSet String) (before : List Statement) : Prop :=
  ∀ var, var ∈ visible ↔ ∃ d ∈ before, d.declares? = some var

theorem Sees.next {visible : Std.TreeSet String} (h : Sees visible before) (s : Statement) :
    Sees (s.declares?.elim visible visible.insert) (before ++ [s]) := fun var => by
  cases hs : s.declares? with
  | none => simpa [hs] using h var
  | some new => simp [hs, ← h var, or_comm]

mutual
theorem unbound?_eq_findSome? {visible : Std.TreeSet String} {before : List Statement}
    (owner : Option Statement) (h : Sees visible before) : (s : Statement) →
      s.unbound? visible = (s.sites owner before).findSome? Site.unbound?
  | .leaf id action => by
    simp only [unbound?, sites, List.findSome?_singleton, Site.unbound?, uses?]
    cases action.uses? with
    | none => rfl
    | some var =>
      have hany : before.any (·.declares? == some var) = visible.contains var := by
        rw [Bool.eq_iff_iff, Std.TreeSet.contains_iff_mem, h var]
        simp
      simp only [Option.filter_some, hany]
      cases visible.contains var <;> rfl
  | .block id head body => by
    rw [unbound?, sites, bodyUnbound?_eq_findSome? _ h body]
    rfl
theorem bodyUnbound?_eq_findSome? {visible : Std.TreeSet String} {before : List Statement}
    (owner : Option Statement) (h : Sees visible before) : (body : List Statement) →
      bodyUnbound? visible body = (bodySites owner before body).findSome? Site.unbound?
  | [] => rfl
  | s :: rest => by
    rw [bodyUnbound?, bodySites, List.findSome?_append, unbound?_eq_findSome? owner h s,
      bodyUnbound?_eq_findSome? owner (h.next s) rest]
    cases (s.sites owner before).findSome? Site.unbound? <;> rfl
end

/-- What precedes a site is what its statement comes after. -/
theorem mem_before_iff (hids : t.ids.Nodup) {site : Site} (hsite : site ∈ t.sites none []) :
    d ∈ site.before ↔ t.ComesAfter d site.statement := by
  have hmem : site.statement ∈ t.nodes := map_sites none [] t ▸ List.mem_map.2 ⟨site, hsite, rfl⟩
  obtain ⟨owner, before, rest, hp⟩ := exists_placed hmem
  rw [site_unique hids hsite hp.site rfl]
  exact ⟨fun hd => hp.comesAfter hd (List.mem_append_left _ (self_mem_nodes _)),
    fun h => h.mem_before hids hp⟩

/-- The walk stops at a usage out of reach, and nowhere else. -/
theorem unbound?_eq_some_iff (hids : t.ids.Nodup) {site : Site} (hsite : site ∈ t.sites none []) :
    site.unbound? = some var ↔ ¬ t.Bound site.statement ∧ site.statement.uses? = some var := by
  have hbound (v : String) : (∃ d ∈ site.before, d.declares? = some v) ↔
      ∃ d, t.ComesAfter d site.statement ∧ d.declares? = some v :=
    exists_congr fun d => and_congr_left' (mem_before_iff hids hsite)
  rw [Site.unbound?, Option.filter_eq_some_iff, Bound, and_comm]
  refine and_congr_left fun huses => ?_
  simp [huses, ← hbound]

theorem unbound?_eq_none_iff_bound (hids : t.ids.Nodup) {site : Site} (hsite : site ∈ t.sites none []) :
    site.unbound? = none ↔ t.Bound site.statement := by
  constructor
  · intro hnone var huses
    by_contra hdeclared
    have hsome := (unbound?_eq_some_iff hids hsite).2 ⟨fun h => hdeclared (h var huses), huses⟩
    cases hnone.symm.trans hsome
  · intro hbound
    by_contra hsome
    obtain ⟨var, hvar⟩ := Option.ne_none_iff_exists'.1 hsome
    exact ((unbound?_eq_some_iff hids hsite).1 hvar).1 hbound

theorem walk_eq_findSome? (t : Statement) :
    t.unbound? ∅ = (t.sites none []).findSome? Site.unbound? :=
  unbound?_eq_findSome? none (fun var => by simp) t

/-- The walk finds nothing where every usage is in reach. -/
theorem walk_eq_none_iff (hids : t.ids.Nodup) : t.unbound? ∅ = none ↔ ∀ u ∈ t.nodes, t.Bound u := by
  rw [walk_eq_findSome?, List.findSome?_eq_none_iff, ← map_sites none [] t, List.forall_mem_map]
  exact forall₂_congr fun site hsite => unbound?_eq_none_iff_bound hids hsite

/-- The walk finds the first usage out of reach. -/
theorem walk_eq_some_iff (hids : t.ids.Nodup) : t.unbound? ∅ = some var ↔
    ∃ pre u post, t.nodes = pre ++ u :: post ∧ (∀ s ∈ pre, t.Bound s) ∧ ¬ t.Bound u ∧
      u.uses? = some var := by
  rw [walk_eq_findSome?, List.findSome?_eq_some_iff]
  constructor
  · rintro ⟨pre, site, post, hsites, hsome, hnone⟩
    have hmem : ∀ other ∈ pre ++ site :: post, other ∈ t.sites none [] := fun _ h => hsites ▸ h
    refine ⟨pre.map Site.statement, site.statement, post.map Site.statement, ?_, ?_, ?_⟩
    · rw [← map_sites none [] t, hsites, List.map_append, List.map_cons]
    · rw [List.forall_mem_map]
      intro other hother
      exact (unbound?_eq_none_iff_bound hids (hmem other (List.mem_append_left _ hother))).1
        (hnone other hother)
    · exact (unbound?_eq_some_iff hids (hmem site (by simp))).1 hsome
  · rintro ⟨pre, u, post, hnodes, hpre, hu⟩
    rw [← map_sites none [] t, List.map_eq_append_iff] at hnodes
    obtain ⟨before, after, hsites, rfl, hafter⟩ := hnodes
    obtain ⟨site, after, rfl, rfl, rfl⟩ := List.map_eq_cons_iff.1 hafter
    have hmem : ∀ other ∈ before ++ site :: after, other ∈ t.sites none [] := fun _ h => hsites ▸ h
    refine ⟨before, site, after, hsites, (unbound?_eq_some_iff hids (hmem site (by simp))).2 hu, ?_⟩
    intro other hother
    exact (unbound?_eq_none_iff_bound hids (hmem other (List.mem_append_left _ hother))).2
      (hpre _ (List.mem_map_of_mem hother))

/-- What a program is charged with is the first of the rules that it breaks, where it breaks it
first. -/
theorem Violates.unique {violation violation' : Violation} (h : t.Violates violation)
    (h' : t.Violates violation') : violation = violation' := by
  cases violation with
  | badRoot =>
    cases violation' with
    | badRoot => rw [h.2, h'.2]
    | _ => exact absurd h'.1 h.1
  | repeatedId =>
    cases violation' with
    | badRoot => exact absurd h.1 h'.1
    | repeatedId => rw [h.2.unique h'.2]
    | _ => exact absurd h'.2.1 h.2.not_nodup
  | repeatedHandle =>
    cases violation' with
    | badRoot => exact absurd h.1 h'.1
    | repeatedId => exact absurd h.2.1 h'.2.not_nodup
    | repeatedHandle => rw [h.2.2.unique h'.2.2]
    | unboundUsage => exact absurd h'.2.2.1 h.2.2.not_nodup
  | unboundUsage =>
    cases violation' with
    | badRoot => exact absurd h.1 h'.1
    | repeatedId => exact absurd h.2.1 h'.2.not_nodup
    | repeatedHandle => exact absurd h.2.2.1 h'.2.2.not_nodup
    | unboundUsage =>
      have hwalk := (walk_eq_some_iff h.2.1).2 h.2.2.2
      rw [Option.some.inj (hwalk.symm.trans ((walk_eq_some_iff h.2.1).2 h'.2.2.2))]

theorem WellFormed.not_violates (h : t.WellFormed) {violation : Violation} :
    ¬ t.Violates violation := by
  intro hviolates
  cases violation with
  | badRoot => exact hviolates.1 h.root
  | repeatedId => exact hviolates.2.not_nodup h.ids
  | repeatedHandle => exact hviolates.2.2.not_nodup h.declared
  | unboundUsage =>
    obtain ⟨-, -, -, pre, u, post, hnodes, -, hbound, -⟩ := hviolates
    exact hbound (h.usages u (hnodes ▸ List.mem_append_right _ List.mem_cons_self))

theorem validate_cases (t : Statement) : t.validate = .ok () ∧ t.WellFormed ∨
    ∃ violation, t.validate = .error violation ∧ t.Violates violation := by
  unfold validate
  split
  · next id body =>
    have hroot : (Statement.block id .coroutineScope body).IsProgram := ⟨id, body, rfl⟩
    split
    · next i hi => exact .inr ⟨_, rfl, hroot, firstRepeat?_empty_eq_some_iff.1 hi⟩
    · next hi =>
      have hids := (firstRepeat?_eq_none_iff.1 hi).1
      split
      · next var hv => exact .inr ⟨_, rfl, hroot, hids, firstRepeat?_empty_eq_some_iff.1 hv⟩
      · next hv =>
        have hdeclared := (firstRepeat?_eq_none_iff.1 hv).1
        split
        · next var hwalk => exact .inr ⟨_, rfl, hroot, hids, hdeclared, (walk_eq_some_iff hids).1 hwalk⟩
        · next hwalk => exact .inl ⟨rfl, hroot, hids, hdeclared, (walk_eq_none_iff hids).1 hwalk⟩
  · next hroot => exact .inr ⟨_, rfl, fun ⟨id, body, ht⟩ => hroot id body ht, rfl⟩

/-- A program is accepted if it keeps all the rules. It is charged with a violation if this is the
first of the rules that it breaks, at the first place where it does. -/
theorem validate_accepts_the_rules (t : Statement) :
    (t.validate = .ok () ↔ t.WellFormed) ∧
      ∀ violation, t.validate = .error violation ↔ t.Violates violation := by
  rcases validate_cases t with ⟨hv, hwell⟩ | ⟨violation, hv, hviolates⟩
  · rw [hv]
    exact ⟨⟨fun _ => hwell, fun _ => rfl⟩, fun _ => ⟨nofun, fun h => absurd h hwell.not_violates⟩⟩
  · rw [hv]
    refine ⟨⟨nofun, fun h => absurd hviolates h.not_violates⟩, fun violation' => ⟨?_, ?_⟩⟩
    · intro he
      exact Except.error.inj he ▸ hviolates
    · intro h
      rw [hviolates.unique h]

/-- A handle is not visible in the block that binds it. -/
example : (Statement.block 0 .coroutineScope [.block 1 (.launchJob "job1")
    [.leaf 2 (.join "job1")]]).validate = .error (.unboundUsage "job1") := rfl

end Statement

end RacePuzzle
