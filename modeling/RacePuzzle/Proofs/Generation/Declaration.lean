import RacePuzzle.Generation.Growth
import RacePuzzle.Proofs.Evaluation.Budget
import RacePuzzle.Proofs.Generation.Supply
import RacePuzzle.Proofs.Program.Texts

/-! Random declarations. They take no more statements than there is room for, draw each of their
names once, and refer to no handle; their delays take whole seconds, and their usages refer to the handle
that they bind. -/
namespace RacePuzzle

namespace Statement

variable {new old body body' : List Statement}

def WholeSeconds (nodes : List Statement) : Prop := ∀ d ∈ nodes.filterMap delay?, 1000 ∣ d

theorem WholeSeconds.append (hnew : WholeSeconds new) (hold : WholeSeconds old) :
    WholeSeconds (new ++ old) := fun d hd => by
  rw [List.filterMap_append] at hd
  exact (List.mem_append.1 hd).elim (hnew d) (hold d)

theorem WholeSeconds.gains (h : WholeSeconds (new ++ bodyNodes body)) (hgains : Gains new body body') :
    WholeSeconds (bodyNodes body') := fun d hd => by
  have hperm := hgains (f := delay?) fun _ _ _ _ => rfl
  rw [← List.filterMap_append] at hperm
  exact h d (hperm.mem_iff.1 hd)

theorem delay?_of_uses? {action : Action} {var : String} (h : action.uses? = some var) :
    action.delay? = none := by
  cases action <;> first | rfl | cases h

end Statement

open Statement (bodyNodes bodySize BodyCovered valueOf? WholeSeconds)

/-- What a declaration draws from a pool at most, together with its body. -/
def Ingredient.demand (kind : Ingredient) : Pool → Nat
  | .strings => if kind = .asyncAwait then 2 else 1
  | .variableNames | .jobNames => kind.usageTotal

namespace Generation

variable {ample : Prop} {s s' s₀ s₁ : Supply} {kind : Ingredient} {left room : Nat}
  {body : Generation (List Statement)} {d : Statement}

/-- A new body for which there is room for `left` statements; one it takes anyway. -/
structure NewBody (left : Nat) (s : Supply) (body : List Statement) (s' : Supply) : Prop where
  draws : Draws s s' body
  size : bodySize body ≤ max 1 left
  covered : BodyCovered (fun _ => False) body
  declared : (bodyNodes body).filterMap Statement.declares? = []
  seconds : WholeSeconds (bodyNodes body)

/-- A new declaration with `room` for the statements of its body. -/
structure NewDeclaration (kind : Ingredient) (room : Nat) (s : Supply) (d : Statement)
    (s' : Supply) : Prop where
  draws : Draws s s' [d]
  size : d.size ≤ 1 + kind.isBlock.toNat * max 1 room
  covered : d.Covered fun _ => False
  declared : d.nodes.filterMap Statement.declares? = d.declares?.toList
  bound : d.declares?.isSome = kind.hasUsages
  usages : (usageActions kind d).length = kind.usageTotal
  seconds : WholeSeconds d.nodes

theorem Hands.newLeaf {values : Pool → List String} {action : Action} (h : Hands s₀ s values)
    (hvalues : ∀ pool, values pool = (valueOf? pool (.leaf s.nextId action)).toList)
    (hcovered : action.uses? = none) (hbound : action.declares?.isSome = kind.hasUsages)
    (husages : (usageActions kind (.leaf s.nextId action)).length = kind.usageTotal)
    (hseconds : ∀ time ∈ action.delay?, 1000 ∣ time) :
    Yields ample (freshLeaf action) s (NewDeclaration kind room s₀) := by
  refine yields_freshId (yields_pure ⟨h.leaf hvalues, Nat.le_add_right _ _, ?_, ?_, hbound, husages,
    fun time htime => ?_⟩)
  · intro var hvar
    cases hcovered.symm.trans hvar
  · rw [Statement.nodes, List.filterMap_cons, List.filterMap_nil]
    cases (Statement.leaf s.nextId action).declares? <;> rfl
  · obtain ⟨leaf, hleaf, hdelay⟩ := List.mem_filterMap.1 htime
    obtain rfl := List.mem_singleton.1 hleaf
    exact hseconds time hdelay

theorem Hands.newBlock {values : Pool → List String} {head : Head} (h : Hands s₀ s values)
    (hbody : Yields ample body s (NewBody room s)) (hblock : kind.isBlock)
    (hvalues : ∀ i inner pool, values pool = (valueOf? pool (.block i head inner)).toList)
    (hbound : head.declares?.isSome = kind.hasUsages)
    (husages : ∀ i inner, (usageActions kind (.block i head inner)).length = kind.usageTotal) :
    Yields ample (do freshBlock head (← body)) s (NewDeclaration kind room s₀) := by
  refine hbody.bind fun inner s₁ hinner => yields_freshId (yields_pure ?_)
  refine ⟨h.block hinner.draws (hvalues _ _), ?_, hinner.covered, ?_, hbound, husages _ _,
    hinner.seconds⟩
  · have hsize := hinner.size
    rw [hblock, Bool.toNat_true, Nat.one_mul, Statement.size]
    omega
  · rw [Statement.nodes, List.filterMap_cons, hinner.declared]
    cases (Statement.block s₁.nextId head inner).declares? <;> rfl

/-- Every ingredient stands for a declaration of its own, around a body that is new. -/
theorem yields_declaration
    (hbody : kind.isBlock → ∀ s, (ample → 1 ≤ (s.names.left .strings).length) →
      Yields ample body s (NewBody room s))
    (hstock : ∀ pool, ample → kind.demand pool ≤ (s.names.left pool).length) :
    Yields ample (declaration body kind) s (NewDeclaration kind room s) := by
  have hstart := (Idle.refl s).hands
  have hstrings : ample → 1 ≤ (s.names.left .strings).length := fun hample => by
    refine Nat.le_trans ?_ (hstock .strings hample)
    cases kind <;> decide
  cases kind with
  | delay =>
    refine yields_pickDelay.bind fun action s₁ ⟨⟨seconds, he⟩, hidle⟩ => ?_
    subst he
    refine hidle.hands.newLeaf (fun pool => by cases pool <;> rfl) rfl rfl rfl fun time htime => ?_
    exact Option.some.inj htime ▸ Nat.dvd_mul_left 1000 seconds
  | print =>
    refine (yields_draw hstrings).bind fun text s₁ h => ?_
    exact h.newLeaf (fun pool => by cases pool <;> rfl) rfl rfl rfl nofun
  | throwException =>
    refine yields_pickException.bind fun thrown s₁ hidle => ?_
    exact hidle.hands.newLeaf (fun pool => by cases pool <;> rfl) rfl rfl rfl nofun
  | jobCompleteJoin =>
    refine (yields_draw fun hample => Nat.le_of_succ_le (hstock .jobNames hample)).bind fun var s₁ h => ?_
    exact h.newLeaf (fun pool => by cases pool <;> rfl) rfl rfl rfl nofun
  | launch | scopeLaunch | coroutineScope | supervisorScope =>
    exact hstart.newBlock (hbody rfl s hstrings) rfl (fun _ _ pool => by cases pool <;> rfl) rfl
      fun _ _ => rfl
  | tryCatch =>
    refine yields_pickException.bind fun catches s₁ hidle => ?_
    refine hidle.hands.newBlock (hbody rfl s₁ fun hample => ?_) rfl
      (fun _ _ pool => by cases pool <;> rfl) rfl fun _ _ => rfl
    exact hidle.names ▸ hstrings hample
  | launchJoin | launchCancel =>
    refine (yields_draw (hstock .jobNames)).bind fun var s₁ h => ?_
    refine h.newBlock (hbody rfl s₁ fun hample => ?_) rfl (fun _ _ pool => by cases pool <;> rfl)
      rfl fun _ _ => rfl
    have hnames : s.names.left .strings = s₁.names.left .strings := h.names .strings
    exact hnames ▸ hstrings hample
  | asyncAwait =>
    refine (yields_draw (hstock .variableNames)).bind fun var s₁ h => ?_
    have hnames : s.names.left .strings = s₁.names.left .strings := h.names .strings
    have htwo : ample → 2 ≤ (s₁.names.left .strings).length := fun hample =>
      hnames ▸ hstock .strings hample
    refine (yields_draw fun hample => Nat.le_of_succ_le (htwo hample)).bind fun result s₂ h' => ?_
    refine (h.trans h').newBlock (hbody rfl s₂ fun hample => ?_) rfl
      (fun _ _ pool => by cases pool <;> rfl) rfl fun _ _ => rfl
    have hlength := htwo hample
    rw [h'.names .strings] at hlength
    exact Nat.le_of_succ_le_succ hlength

/-- An ingredient that is picked fits, or none fits and it is a print. -/
theorem yields_pickIngredient (left : Nat) (firstInBody : Bool) :
    Yields ample (pickIngredient left firstInBody) s fun kind s' =>
      (kind.1 = .print ∨ fits left firstInBody kind.1) ∧ Idle s s' := by
  unfold Yields pickIngredient
  have hrun : ∀ f : Supply → FittingIngredient left × Supply,
      (modifyGet f : Generation (FittingIngredient left)).run s = (.ok (f s).1, (f s).2) :=
    fun _ => rfl
  rw [hrun]
  dsimp only
  split
  · next h => exact ⟨.inl rfl, rfl, rfl⟩
  · next kind random h =>
    exact ⟨.inr (List.mem_filter.1 (SplitMix.mem_of_pick h)).2, rfl, rfl⟩

theorem fits_first (h : fits left true kind) :
    kind.leastSize ≤ left ∧ kind.hasUsages = false ∧ kind ≠ .print := by
  simpa [fits, and_assoc] using h

theorem fits_later (h : fits left false kind) : kind.leastSize ≤ left := by
  simpa [fits] using h

/-- A new body has the size that it was given, and draws one text at most. -/
theorem yields_newBody (left : Nat) (s : Supply)
    (hstrings : ample → 1 ≤ (s.names.left .strings).length) :
    Yields ample (newBody left) s (NewBody left s) := by
  induction left using Nat.strongRecOn generalizing s with
  | ind left ih =>
    rw [newBody]
    refine (yields_pickIngredient left true).bind fun ⟨kind, hfit⟩ s₁ ⟨hpick, hidle⟩ => ?_
    have hplain : kind.usageTotal = 0 := by
      rcases hpick with rfl | hfits
      · rfl
      · simpa [Ingredient.hasUsages] using (fits_first hfits).2.1
    have hdemand : ∀ pool, ample → kind.demand pool ≤ (s₁.names.left pool).length := by
      intro pool hample
      cases pool with
      | strings =>
        have hne : kind ≠ .asyncAwait := fun he => by
          subst he
          cases hplain
        simp only [Ingredient.demand, if_neg hne]
        exact hidle.names ▸ hstrings hample
      | variableNames | jobNames =>
        simp only [Ingredient.demand, hplain]
        exact Nat.zero_le _
    have hdeclaration : Yields ample (declaration (if hb : kind.isBlock then
        newBody (left - kind.leastSize) else return []) kind) s₁
        (NewDeclaration kind (left - kind.leastSize) s₁) := by
      refine yields_declaration (fun hb s hs => ?_) hdemand
      have hlt : left - kind.leastSize < left := by
        have := hfit hb
        have := Ingredient.two_le_leastSize hb
        omega
      rw [dif_pos hb]
      exact ih _ hlt s hs
    refine hdeclaration.bind fun d s' hd => yields_pure ?_
    have hnone : d.declares? = none := by
      have hbound := hd.bound
      simpa [Ingredient.hasUsages, hplain] using hbound
    refine ⟨⟨?_, ?_, ?_, ?_⟩, ?_, ⟨hd.covered, trivial⟩, ?_, ?_⟩
    · exact hidle.nextId ▸ hd.draws.counter
    · exact hidle.nextId ▸ hd.draws.ids
    · exact hd.draws.nodup
    · exact hidle.names ▸ hd.draws.names
    · have hsize := hd.size
      simp only [bodySize, Nat.add_zero]
      rcases Bool.eq_false_or_eq_true kind.isBlock with hb | hb
      · have hle := hfit hb
        have htwo := Ingredient.two_le_leastSize hb
        rw [hb, Bool.toNat_true, Nat.one_mul] at hsize
        omega
      · rw [hb, Bool.toNat_false, Nat.zero_mul] at hsize
        omega
    · simp only [bodyNodes, List.append_nil, hd.declared, hnone]
      rfl
    · rw [bodyNodes, bodyNodes, List.append_nil]
      exact hd.seconds

/-- A declaration and its usages are no more statements than they were given. -/
theorem yields_newDeclaration (hfits : kind.leastSize ≤ left)
    (hstock : ample → ∀ pool, kind.demand pool ≤ (s.names.left pool).length) :
    Yields ample (newDeclaration kind left) s fun d s' =>
      NewDeclaration kind (left - kind.leastSize) s d s' ∧ d.size + kind.usageTotal ≤ left := by
  refine (yields_declaration (fun _ s hs => yields_newBody _ s hs)
    fun pool hample => hstock hample pool).mono fun d s' hd => ⟨hd, ?_⟩
  have hsize := hd.size
  unfold Ingredient.leastSize at hfits hsize
  cases hb : kind.isBlock <;> rw [hb] at hfits hsize <;>
    simp only [Bool.toNat_true, Bool.toNat_false, Nat.one_mul, Nat.zero_mul] at hfits hsize <;> omega

/-- A usage refers to the handle of its declaration and has no value that the declaration has not. -/
structure UsageOf (d : Statement) (action : Action) : Prop where
  uses : ∃ var, d.declares? = some var ∧ action.uses? = some var
  declares : action.declares? = none
  values : ∀ i pool value, valueOf? pool (.leaf i action) = some value → valueOf? pool d = some value

theorem usageOf_of_mem {action : Action} (h : action ∈ usageActions kind d) : UsageOf d action := by
  unfold usageActions at h
  split at h
  · cases h
  · next var hvar =>
    split at h
    · obtain rfl := List.mem_singleton.1 h
      refine ⟨⟨var, hvar, rfl⟩, rfl, fun i pool value hvalue => ?_⟩
      cases pool <;> first | exact hvalue | cases hvalue
    · obtain rfl := List.mem_singleton.1 h
      exact ⟨⟨var, hvar, rfl⟩, rfl, fun i pool value hvalue => by cases pool <;> cases hvalue⟩
    · obtain rfl := List.mem_singleton.1 h
      exact ⟨⟨var, hvar, rfl⟩, rfl, fun i pool value hvalue => by cases pool <;> cases hvalue⟩
    · simp only [List.mem_cons, List.not_mem_nil, or_false] at h
      rcases h with rfl | rfl
      all_goals exact ⟨⟨var, hvar, rfl⟩, rfl, fun i pool value hvalue => by cases pool <;> cases hvalue⟩
    · cases h

/-- Of the usages of a declaration one alone prints, and what its task results in. -/
theorem usageActions_print (kind : Ingredient) (d : Statement) :
    (∃ var result, usageActions kind d = [.printAwait var result] ∧ d.result? = some result) ∨
      ∀ action ∈ usageActions kind d, ∀ i, (Statement.leaf i action).printedText? = none := by
  unfold usageActions
  split
  · exact .inr nofun
  · split
    · exact .inl ⟨_, _, rfl, rfl⟩
    · exact .inr fun action h i => by
        obtain rfl := List.mem_singleton.1 h
        rfl
    · exact .inr fun action h i => by
        obtain rfl := List.mem_singleton.1 h
        rfl
    · refine .inr fun action h i => ?_
      simp only [List.mem_cons, List.not_mem_nil, or_false] at h
      rcases h with rfl | rfl <;> rfl
    · exact .inr nofun

structure NewLeaves (actions : List Action) (s : Supply) (leaves : List Statement) (s' : Supply) :
    Prop where
  counter : s.nextId ≤ s'.nextId
  names : s'.names = s.names
  ids : ∀ i ∈ leaves.map Statement.id, s.nextId ≤ i ∧ i < s'.nextId
  nodup : (leaves.map Statement.id).Nodup
  length : leaves.length = actions.length
  actions : ∀ leaf ∈ leaves, ∃ i, ∃ action ∈ actions, leaf = .leaf i action

theorem NewLeaves.printed {usages : List Statement} (h : NewLeaves (usageActions kind d) s usages s') :
    (usages.filterMap Statement.printedText?).Sublist d.result?.toList := by
  rcases usageActions_print kind d with ⟨var, result, hactions, hresult⟩ | hnone
  · obtain ⟨usage, rfl⟩ := List.length_eq_one_iff.1 (h.length.trans (congrArg List.length hactions))
    obtain ⟨i, action, haction, rfl⟩ := h.actions usage List.mem_cons_self
    obtain rfl := List.mem_singleton.1 (hactions ▸ haction)
    rw [hresult]
    exact .refl _
  · rw [List.filterMap_eq_nil_iff.2 fun usage husage => ?_]
    · exact List.nil_sublist _
    · obtain ⟨i, action, haction, rfl⟩ := h.actions usage husage
      exact hnone action haction i

theorem yields_freshLeaves (actions : List Action) (s : Supply) :
    Yields ample (actions.mapM freshLeaf) s (NewLeaves actions s) := by
  induction actions generalizing s with
  | nil => exact ⟨Nat.le_refl _, rfl, nofun, .nil, rfl, nofun⟩
  | cons action actions ih =>
    rw [List.mapM_cons]
    have hleaf : Yields ample (freshLeaf action) s fun leaf s' =>
        leaf = .leaf s.nextId action ∧ s' = { s with nextId := s.nextId + 1 } := ⟨rfl, rfl⟩
    refine hleaf.bind fun leaf s₁ ⟨he, hs₁⟩ => (ih s₁).bind fun leaves s' h => yields_pure ?_
    subst he hs₁
    have hcounter : s.nextId + 1 ≤ s'.nextId := h.counter
    refine ⟨Nat.le_of_succ_le hcounter, h.names, fun i hi => ?_, ?_, congrArg (· + 1) h.length, ?_⟩
    · rcases List.mem_cons.1 hi with rfl | hi
      · exact ⟨Nat.le_refl _, hcounter⟩
      · obtain ⟨hle, hlt⟩ := h.ids i hi
        exact ⟨Nat.le_of_succ_le hle, hlt⟩
    · refine List.nodup_cons.2 ⟨fun hi => ?_, h.nodup⟩
      exact absurd (h.ids _ hi).1 (Nat.not_succ_le_self _)
    · intro x hx
      rcases List.mem_cons.1 hx with rfl | hx
      · exact ⟨_, action, List.mem_cons_self, rfl⟩
      · obtain ⟨i, a, ha, rfl⟩ := h.actions x hx
        exact ⟨i, a, List.mem_cons_of_mem _ ha, rfl⟩

end Generation

end RacePuzzle
