import RacePuzzle.Generation.Names
import Mathlib.Data.List.Nodup
import Mathlib.Data.List.Perm.Subperm

/-! The pools of names. No value is in stock twice, none is a name of jobs and of variables, and
what is left in a pool is what nobody has drawn. -/
namespace RacePuzzle

namespace Pool

theorem numbered_injective (stem : String) : Function.Injective fun i : Nat => stem ++ toString i := by
  intro i j h
  have hdigits : (toString i).toList = (toString j).toList := by
    simpa using congrArg String.toList h
  have hrepr : Nat.toDigits 10 i = Nat.toDigits 10 j := by
    simpa only [Nat.toString_eq_repr, Nat.toList_repr] using hdigits
  simpa using congrArg (fun digits => Nat.ofDigitChars 10 digits 0) hrepr

theorem nodup_numbered (stem : String) : (numbered stem).Nodup :=
  List.nodup_range.map fun _ _ h => Nat.succ.inj (numbered_injective stem h)

theorem length_numbered (stem : String) : (numbered stem).length = 1000 := by
  rw [numbered, List.length_map, List.length_range]

theorem head_of_mem_numbered (stem : String) {value : String} {c : Char}
    (hstem : stem.toList.head? = some c) (h : value ∈ numbered stem) :
    value.toList.head? = some c := by
  obtain ⟨i, -, rfl⟩ := List.mem_map.1 h
  rw [String.toList_append, List.head?_append, hstem]
  rfl

theorem nodup_stock (pool : Pool) : pool.stock.Nodup := by
  cases pool with
  | variableNames | jobNames => exact nodup_numbered _
  | strings =>
    refine List.Nodup.append (by decide) (nodup_numbered "v") fun value hletter hnumbered => ?_
    have hhead : ∀ value ∈ letters, value.toList.head? ≠ some 'v' := by decide
    exact hhead value hletter (head_of_mem_numbered "v" rfl hnumbered)

theorem not_mem_variableNames {value : String} (h : value ∈ jobNames.stock) :
    value ∉ variableNames.stock := fun h' => by
  have hhead := (head_of_mem_numbered "job" rfl h).symm.trans
    (head_of_mem_numbered "value" rfl h')
  cases hhead

theorem le_length_stock (pool : Pool) : 1000 ≤ pool.stock.length := by
  cases pool with
  | variableNames | jobNames => exact Nat.le_of_eq (length_numbered _).symm
  | strings =>
    rw [stock, List.length_append, length_numbered]
    exact Nat.le_add_left _ _

theorem length_strings : strings.stock.length = 1026 := by
  rw [stock, List.length_append, length_numbered]
  rfl

end Pool

namespace Names

variable {names names' : Names} {pool : Pool} {used used' : List String}

/-- The values that are in use are from the stock of the pool and not left in it, and no others
are gone. -/
structure Suits (names : Names) (pool : Pool) (used : List String) : Prop where
  left : (names.left pool).Sublist pool.stock
  stocked : ∀ value ∈ used, value ∈ pool.stock
  apart : ∀ value ∈ used, value ∉ names.left pool
  plenty : pool.stock.length ≤ (names.left pool).length + used.length

@[simp] theorem left_full (pool : Pool) : full.left pool = pool.stock := by
  cases pool <;> simp only [left, full]

@[simp] theorem left_withLeft (names : Names) (values : List String) (pool : Pool) :
    (names.withLeft values pool).left pool = values := by
  cases pool <;> rfl

theorem left_withLeft_of_ne (names : Names) (values : List String) {pool pool' : Pool}
    (h : pool ≠ pool') : (names.withLeft values pool).left pool' = names.left pool' := by
  cases pool <;> cases pool' <;> first | rfl | exact absurd rfl h

theorem left_renewFor (names : Names) (t : Statement) (pool : Pool) :
    (names.renewFor t).left pool = pool.stock.filter (· ∉ t.valuesOf pool) := by
  cases pool <;> simp [renewFor, renew, left_withLeft_of_ne]

theorem suits_full (pool : Pool) : full.Suits pool [] where
  left := by rw [left_full]
  stocked := nofun
  apart := nofun
  plenty := by rw [left_full]; exact Nat.le_refl _

theorem Suits.perm (h : names.Suits pool used) (hp : used'.Perm used) : names.Suits pool used' where
  left := h.left
  stocked value hv := h.stocked value (hp.mem_iff.1 hv)
  apart value hv := h.apart value (hp.mem_iff.1 hv)
  plenty := hp.length_eq ▸ h.plenty

theorem Suits.reuse (h : names.Suits pool used) (hu : used' ⊆ used) :
    names.Suits pool (used' ++ used) where
  left := h.left
  stocked value hv := h.stocked value ((List.mem_append.1 hv).elim (fun hv => hu hv) fun hv => hv)
  apart value hv := h.apart value ((List.mem_append.1 hv).elim (fun hv => hu hv) fun hv => hv)
  plenty := by
    have := h.plenty
    rw [List.length_append]
    omega

theorem Suits.draw {new : List String} (h : names.Suits pool used)
    (hnew : names.left pool = new ++ names'.left pool) : names'.Suits pool (new ++ used) := by
  have hnodup : (new ++ names'.left pool).Nodup := hnew ▸ (Pool.nodup_stock pool).sublist h.left
  have hsub : (names'.left pool).Sublist (names.left pool) := hnew ▸ List.sublist_append_right _ _
  refine ⟨hsub.trans h.left, fun value hv => ?_, fun value hv => ?_, ?_⟩
  · rcases List.mem_append.1 hv with hv | hv
    · exact h.left.subset (hnew ▸ List.mem_append_left _ hv)
    · exact h.stocked value hv
  · rcases List.mem_append.1 hv with hv | hv
    · exact fun hleft => (List.nodup_append.1 hnodup).2.2 value hv value hleft rfl
    · exact fun hleft => h.apart value hv (hsub.subset hleft)
  · have hplenty := h.plenty
    rw [hnew, List.length_append] at hplenty
    rw [List.length_append]
    omega

/-- After a renewal for a program with values from the stock only, the pools suit it. -/
theorem suits_renewFor (names : Names) {t : Statement}
    (h : ∀ value ∈ t.valuesOf pool, value ∈ pool.stock) :
    (names.renewFor t).Suits pool (t.valuesOf pool) := by
  have hleft := left_renewFor names t pool
  refine ⟨?_, h, ?_, ?_⟩
  · exact hleft ▸ List.filter_sublist
  · intro value hv hmem
    rw [hleft] at hmem
    exact (of_decide_eq_true (List.mem_filter.1 hmem).2) hv
  · have hgone : (pool.stock.filter (· ∈ t.valuesOf pool)).length ≤ (t.valuesOf pool).length := by
      refine (((Pool.nodup_stock pool).filter _).subperm fun value hv => ?_).length_le
      exact of_decide_eq_true (List.mem_filter.1 hv).2
    have hparts := List.length_eq_length_filter_add (l := pool.stock) (· ∈ t.valuesOf pool)
    simp only [hleft, decide_not]
    omega

end Names

end RacePuzzle
