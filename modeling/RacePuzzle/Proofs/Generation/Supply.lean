import RacePuzzle.Generation.Supply
import RacePuzzle.Proofs.Generation.Names
import RacePuzzle.Proofs.Program.Pruning

/-! What the steps of generation take from a supply. The only way for them to fail is a pool that is
exhausted. -/
namespace RacePuzzle

open Statement (bodyNodes valueOf?)

namespace Generation

variable {α β : Type} {ample : Prop} {s s' s₀ s₁ : Supply}

/-- From `s` on, `g` comes to what `post` says, unless a pool is exhausted; none is where names are
`ample`. -/
def Yields (ample : Prop) (g : Generation α) (s : Supply) (post : α → Supply → Prop) : Prop :=
  match g.run s with
  | (.ok a, s') => post a s'
  | (.error fault, _) => ¬ ample ∧ ∃ pool, fault = .exhausted pool

theorem yields_pure {a : α} {post : α → Supply → Prop} (h : post a s) :
    Yields ample (pure a) s post :=
  h

theorem Yields.bind {g : Generation α} {f : α → Generation β} {mid : α → Supply → Prop}
    {post : β → Supply → Prop} (hg : Yields ample g s mid)
    (hf : ∀ a s', mid a s' → Yields ample (f a) s' post) : Yields ample (g >>= f) s post := by
  have hrun : (g >>= f).run s = ExceptT.bindCont f (g.run s).1 (g.run s).2 := rfl
  unfold Yields at hg ⊢
  rw [hrun]
  generalize g.run s = result at hg
  obtain ⟨value | value, s'⟩ := result
  · exact hg
  · exact hf value s' hg

theorem Yields.mono {g : Generation α} {post post' : α → Supply → Prop} (h : Yields ample g s post)
    (hpost : ∀ a s', post a s' → post' a s') : Yields ample g s post' := by
  unfold Yields at h ⊢
  generalize g.run s = result at h
  obtain ⟨value | value, s'⟩ := result
  · exact h
  · exact hpost value s' h

theorem run_eq_of_toOption {g : Generation α} {a : α} (h : (g.run s).1.toOption = some a) :
    g.run s = (.ok a, (g.run s).2) := by
  generalize g.run s = result at h
  obtain ⟨value | value, s'⟩ := result
  · cases h
  · cases h
    rfl

structure Idle (s s' : Supply) : Prop where
  nextId : s'.nextId = s.nextId
  names : s'.names = s.names

theorem Idle.refl (s : Supply) : Idle s s := ⟨rfl, rfl⟩

theorem Idle.trans {s'' : Supply} (h : Idle s s') (h' : Idle s' s'') : Idle s s'' :=
  ⟨h'.nextId.trans h.nextId, h'.names.trans h.names⟩

theorem yields_below (n : Nat) : Yields ample (below n) s fun _ => Idle s :=
  ⟨rfl, rfl⟩

theorem yields_pickDelay : Yields ample pickDelay s fun action s' =>
    (∃ seconds, action = .delay (seconds * 1000)) ∧ Idle s s' :=
  ⟨⟨_, rfl⟩, rfl, rfl⟩

theorem yields_pickException : Yields ample pickException s fun _ => Idle s :=
  ⟨rfl, rfl⟩

/-- `s'` is `s` without these values. -/
structure Hands (s s' : Supply) (values : Pool → List String) : Prop where
  nextId : s'.nextId = s.nextId
  names : ∀ pool, s.names.left pool = values pool ++ s'.names.left pool

theorem Idle.hands (h : Idle s s') : Hands s s' fun _ => [] :=
  ⟨h.nextId, fun _ => h.names ▸ rfl⟩

theorem Hands.trans {s'' : Supply} {values values' : Pool → List String} (h : Hands s s' values)
    (h' : Hands s' s'' values') : Hands s s'' fun pool => values pool ++ values' pool :=
  ⟨h'.nextId.trans h.nextId, fun pool => by rw [h.names, h'.names, List.append_assoc]⟩

theorem run_draw (pool : Pool) (s : Supply) : (draw pool).run s =
    match s.names.draw? pool with
    | none => (.error (GenerationFault.exhausted pool), s)
    | some (value, names) => (.ok value, { s with names := names }) := by
  have hrun : (draw pool).run s = (match s.names.draw? pool with
      | none => throw (.exhausted pool)
      | some (value, names) => do
        set { s with names := names }
        return value : Generation String).run s := rfl
  rw [hrun]
  cases s.names.draw? pool <;> rfl

theorem yields_draw {pool : Pool} (h : ample → 1 ≤ (s.names.left pool).length) :
    Yields ample (draw pool) s fun value s' =>
      Hands s s' fun pool' => if pool' = pool then [value] else [] := by
  unfold Yields
  rw [run_draw]
  unfold Names.draw?
  cases hleft : s.names.left pool with
  | nil =>
    refine ⟨fun hample => ?_, pool, rfl⟩
    have hlength := h hample
    rw [hleft] at hlength
    exact absurd hlength (by decide)
  | cons value rest =>
    refine ⟨rfl, fun pool' => ?_⟩
    by_cases hp : pool' = pool
    · subst hp
      simp [hleft]
    · simp [hp, Names.left_withLeft_of_ne _ _ (Ne.symm hp)]

/-- The statements of `new` have ids and names that `s` has in hand and `s'` no more. -/
structure Draws (s s' : Supply) (new : List Statement) : Prop where
  counter : s.nextId ≤ s'.nextId
  ids : ∀ i ∈ (bodyNodes new).map Statement.id, s.nextId ≤ i ∧ i < s'.nextId
  nodup : ((bodyNodes new).map Statement.id).Nodup
  names : ∀ pool, s.names.left pool =
    (bodyNodes new).filterMap (valueOf? pool) ++ s'.names.left pool

theorem yields_freshId {f : StatementId → Generation α} {post : α → Supply → Prop}
    (h : Yields ample (f s.nextId) { s with nextId := s.nextId + 1 } post) :
    Yields ample (freshId >>= f) s post :=
  h

theorem Hands.leaf {values : Pool → List String} {action : Action} (h : Hands s₀ s values)
    (hvalues : ∀ pool, values pool = (valueOf? pool (.leaf s.nextId action)).toList) :
    Draws s₀ { s with nextId := s.nextId + 1 } [.leaf s.nextId action] where
  counter := h.nextId ▸ Nat.le_succ _
  ids i hi := by
    obtain rfl := List.mem_singleton.1 hi
    exact ⟨Nat.le_of_eq h.nextId.symm, Nat.lt_succ_self _⟩
  nodup := List.nodup_singleton _
  names pool := by
    rw [h.names pool, hvalues pool]
    simp only [bodyNodes, Statement.nodes, List.append_nil, List.filterMap_cons,
      List.filterMap_nil]
    cases valueOf? pool (.leaf s.nextId action) <;> rfl

/-- A block with values that have just been handed out, around a body that came after them. -/
theorem Hands.block {values : Pool → List String} {head : Head} {body : List Statement}
    (h : Hands s₀ s values) (hbody : Draws s s₁ body)
    (hvalues : ∀ pool, values pool = (valueOf? pool (.block s₁.nextId head body)).toList) :
    Draws s₀ { s₁ with nextId := s₁.nextId + 1 } [.block s₁.nextId head body] where
  counter := Nat.le_succ_of_le (h.nextId ▸ hbody.counter)
  ids i hi := by
    simp only [bodyNodes, Statement.nodes, List.append_nil, List.map_cons, List.mem_cons] at hi
    rcases hi with rfl | hi
    · exact ⟨h.nextId ▸ hbody.counter, Nat.lt_succ_self _⟩
    · obtain ⟨hle, hlt⟩ := hbody.ids i hi
      exact ⟨h.nextId ▸ hle, Nat.lt_succ_of_lt hlt⟩
  nodup := by
    simp only [bodyNodes, Statement.nodes, List.append_nil, List.map_cons, List.nodup_cons]
    exact ⟨fun hi => absurd (hbody.ids _ hi).2 (Nat.lt_irrefl _), hbody.nodup⟩
  names pool := by
    rw [h.names pool, hvalues pool, hbody.names pool]
    simp only [bodyNodes, Statement.nodes, List.append_nil, List.filterMap_cons]
    cases valueOf? pool (.block s₁.nextId head body) <;> rfl

end Generation

end RacePuzzle
