import Mathlib.Data.List.Basic
import Mathlib.Tactic.Common

/-! Numbered things of which a second machine has only some. A roster says of each under which number
it shows there, or that it is hidden; a list is sifted when what is hidden is left out of it. -/
namespace RacePuzzle

/-- `l'` is `l` without what is hidden, with the rest as it shows. -/
inductive Sifted {α β : Type} (R : α → Option β → Prop) : List α → List β → Prop
  | nil : Sifted R [] []
  | hidden {a l l'} : R a none → Sifted R l l' → Sifted R (a :: l) l'
  | shown {a b l l'} : R a (some b) → Sifted R l l' → Sifted R (a :: l) (b :: l')

namespace Sifted

variable {α β γ δ : Type} {R S : α → Option β → Prop} {l k : List α} {l' k' : List β} {a : α}

theorem single {o : Option β} (ha : R a o) : Sifted R [a] o.toList := by
  cases o with
  | none => exact .hidden ha .nil
  | some b => exact .shown ha .nil

theorem uncons (h : Sifted R (a :: l) l') :
    ∃ o rest, R a o ∧ Sifted R l rest ∧ l' = o.toList ++ rest := by
  cases h with
  | hidden ha h => exact ⟨none, _, ha, h, rfl⟩
  | shown ha h => exact ⟨some _, _, ha, h, rfl⟩

theorem mono (h : Sifted R l l') (hRS : ∀ a o, R a o → S a o) : Sifted S l l' := by
  induction h with
  | nil => exact .nil
  | hidden ha _ ih => exact .hidden (hRS _ _ ha) ih
  | shown ha _ ih => exact .shown (hRS _ _ ha) ih

theorem append (h : Sifted R l l') (hk : Sifted R k k') : Sifted R (l ++ k) (l' ++ k') := by
  induction h with
  | nil => exact hk
  | hidden ha _ ih => exact .hidden ha ih
  | shown ha _ ih => exact .shown ha ih

theorem filter (h : Sifted R l l') {p : α → Bool} {q : β → Bool}
    (hpq : ∀ a b, a ∈ l → R a (some b) → p a = q b) : Sifted R (l.filter p) (l'.filter q) := by
  induction h with
  | nil => exact .nil
  | @hidden a l l' ha _ ih =>
    have ih := ih fun a b hmem => hpq a b (.tail _ hmem)
    rw [List.filter_cons]
    split
    · exact .hidden ha ih
    · exact ih
  | @shown a b l l' ha _ ih =>
    have ih := ih fun a b hmem => hpq a b (.tail _ hmem)
    rw [List.filter_cons, List.filter_cons, hpq a b (.head _) ha]
    split
    · exact .shown ha ih
    · exact ih

theorem of_hidden (h : ∀ a ∈ l, R a none) : Sifted R l [] := by
  induction l with
  | nil => exact .nil
  | cons a l ih => exact .hidden (h a (.head _)) (ih fun b hb => h b (.tail _ hb))

theorem hidden_of_mem (h : Sifted R l []) (ha : a ∈ l) : R a none := by
  generalize hl' : ([] : List β) = l' at h
  induction h with
  | nil => cases ha
  | hidden hc _ ih =>
    rcases List.mem_cons.1 ha with rfl | ha
    · exact hc
    · exact ih ha hl'
  | shown _ _ _ => cases hl'

theorem isEmpty_eq (h : Sifted R l l') (hshown : ∀ a ∈ l, ¬ R a none) : l'.isEmpty = l.isEmpty := by
  cases h with
  | nil => rfl
  | hidden ha _ => exact absurd ha (hshown _ (.head _))
  | shown _ _ => rfl

/-- Two lists in strict order, of which the second has what shows of the first. -/
theorem of_pairwise {r : α → α → Prop} {s : β → β → Prop} (hl : l.Pairwise r) (hl' : l'.Pairwise s)
    (hs : ∀ b, ¬ s b b) (hss : ∀ {b c}, s b c → ¬ s c b)
    (hmono : ∀ {a b a' b'}, r a b → R a (some a') → R b (some b') → s a' b')
    (hunique : ∀ {a o o'}, R a o → R a o' → o = o')
    (htotal : ∀ a ∈ l, ∃ o, R a o) (honto : ∀ b ∈ l', ∃ a ∈ l, R a (some b))
    (hinto : ∀ a ∈ l, ∀ b, R a (some b) → b ∈ l') : Sifted R l l' := by
  induction l generalizing l' with
  | nil =>
    cases l' with
    | nil => exact .nil
    | cons b l' =>
      obtain ⟨a, ha, -⟩ := honto b (.head _)
      cases ha
  | cons a l ih =>
    obtain ⟨hal, hl⟩ := List.pairwise_cons.1 hl
    obtain ⟨o, ho⟩ := htotal a (.head _)
    have htotal : ∀ c ∈ l, ∃ o, R c o := fun c hc => htotal c (.tail _ hc)
    cases o with
    | none =>
      refine .hidden ho (ih hl hl' htotal (fun b hb => ?_) fun c hc => hinto c (.tail _ hc))
      obtain ⟨c, hc, hcb⟩ := honto b hb
      rcases List.mem_cons.1 hc with rfl | hc
      · cases hunique ho hcb
      · exact ⟨c, hc, hcb⟩
    | some b =>
      -- Nothing stands before `b`, since what shows there would stand before `a`.
      cases l' with
      | nil => cases hinto a (.head _) b ho
      | cons b' l' =>
        obtain ⟨hbl, hl'⟩ := List.pairwise_cons.1 hl'
        have hfirst : b' = b := by
          rcases List.mem_cons.1 (hinto a (.head _) b ho) with rfl | hmem
          · rfl
          · obtain ⟨c, hc, hcb⟩ := honto b' (.head _)
            rcases List.mem_cons.1 hc with rfl | hc
            · exact Option.some.inj (hunique hcb ho)
            · exact absurd (hbl b hmem) (hss (hmono (hal c hc) ho hcb))
        subst hfirst
        refine .shown ho (ih hl hl' htotal (fun d hd => ?_) fun c hc d hcd => ?_)
        · obtain ⟨c, hc, hcd⟩ := honto d (.tail _ hd)
          rcases List.mem_cons.1 hc with rfl | hc
          · obtain rfl := Option.some.inj (hunique ho hcd)
            exact absurd (hbl b' hd) (hs b')
          · exact ⟨c, hc, hcd⟩
        · rcases List.mem_cons.1 (hinto c (.tail _ hc) d hcd) with rfl | hmem
          · exact absurd (hmono (hal c hc) ho hcd) (hs d)
          · exact hmem

end Sifted

/-- Under which number of the second machine a number of the first shows, or that it is hidden. -/
abbrev Roster := Nat → Option Nat → Prop

namespace Roster

/-- The roster of `n` things, of which `n'` show. Whatever shows keeps its place in the order. -/
structure Fits (R : Roster) (n n' : Nat) : Prop where
  lt : ∀ {i o}, R i o → i < n
  lt' : ∀ {i i'}, R i (some i') → i' < n'
  unique : ∀ {i o o'}, R i o → R i o' → o = o'
  mono : ∀ {i j i' j'}, i < j → R i (some i') → R j (some j') → i' < j'
  total : ∀ {i}, i < n → ∃ o, R i o
  onto : ∀ {i'}, i' < n' → ∃ i, R i (some i')

def add (R : Roster) (i : Nat) (o : Option Nat) : Roster := fun j p => R j p ∨ j = i ∧ p = o

variable {R : Roster} {n n' i j k : Nat} {o : Option Nat}

theorem add_self (R : Roster) (i : Nat) (o : Option Nat) : R.add i o i o := .inr ⟨rfl, rfl⟩

theorem Fits.injective (h : R.Fits n n') (hi : R i (some k)) (hj : R j (some k)) : i = j := by
  rcases Nat.lt_trichotomy i j with hlt | rfl | hlt
  · exact absurd (h.mono hlt hi hj) (Nat.lt_irrefl k)
  · rfl
  · exact absurd (h.mono hlt hj hi) (Nat.lt_irrefl k)

theorem Fits.eq_iff {i' j' : Nat} (h : R.Fits n n') (hi : R i (some i')) (hj : R j (some j')) :
    i = j ↔ i' = j' := by
  constructor
  · rintro rfl
    exact Option.some.inj (h.unique hi hj)
  · rintro rfl
    exact h.injective hi hj

/-- What has one roster has equally many numbers. -/
theorem Fits.size_eq {k k' : Nat} (h : R.Fits n n') (h' : R.Fits k k') : n = k ∧ n' = k' := by
  have hle {n n' k k' : Nat} (h : R.Fits n n') (h' : R.Fits k k') : n ≤ k ∧ n' ≤ k' := by
    refine ⟨Nat.le_of_not_lt fun hlt => ?_, Nat.le_of_not_lt fun hlt => ?_⟩
    · obtain ⟨o, ho⟩ := h.total hlt
      exact Nat.lt_irrefl k (h'.lt ho)
    · obtain ⟨i, hi⟩ := h.onto hlt
      exact Nat.lt_irrefl k' (h'.lt' hi)
  exact ⟨Nat.le_antisymm (hle h h').1 (hle h' h).1, Nat.le_antisymm (hle h h').2 (hle h' h).2⟩

theorem Fits.lt_add {p : Option Nat} (h : R.Fits n n') (hi : R.add n o i p) : i < n + 1 := by
  rcases hi with hi | ⟨rfl, -⟩
  · exact Nat.lt_succ_of_lt (h.lt hi)
  · exact Nat.lt_succ_self _

theorem Fits.unique_add {p p' : Option Nat} (h : R.Fits n n') (hi : R.add n o i p)
    (hi' : R.add n o i p') : p = p' := by
  rcases hi with hi | ⟨rfl, rfl⟩ <;> rcases hi' with hi' | ⟨he, rfl⟩
  · exact h.unique hi hi'
  · exact absurd (h.lt hi) (he ▸ Nat.lt_irrefl _)
  · exact absurd (h.lt hi') (Nat.lt_irrefl _)
  · rfl

theorem Fits.total_add (h : R.Fits n n') (hi : i < n + 1) : ∃ p, R.add n o i p := by
  rcases Nat.lt_succ_iff_lt_or_eq.1 hi with hi | rfl
  · obtain ⟨p, hp⟩ := h.total hi
    exact ⟨p, .inl hp⟩
  · exact ⟨o, add_self ..⟩

theorem Fits.addHidden (h : R.Fits n n') : (R.add n none).Fits (n + 1) n' where
  lt := h.lt_add
  lt' hi := by
    rcases hi with hi | ⟨-, ho⟩
    · exact h.lt' hi
    · cases ho
  unique := h.unique_add
  mono hij hi hj := by
    rcases hi with hi | ⟨-, ho⟩ <;> rcases hj with hj | ⟨-, ho'⟩
    · exact h.mono hij hi hj
    · cases ho'
    · cases ho
    · cases ho
  total := h.total_add
  onto hi := by
    obtain ⟨i, hi⟩ := h.onto hi
    exact ⟨i, .inl hi⟩

theorem Fits.addShown (h : R.Fits n n') : (R.add n (some n')).Fits (n + 1) (n' + 1) where
  lt := h.lt_add
  lt' hi := by
    rcases hi with hi | ⟨-, ho⟩
    · exact Nat.lt_succ_of_lt (h.lt' hi)
    · obtain rfl := Option.some.inj ho
      exact Nat.lt_succ_self _
  unique := h.unique_add
  mono hij hi hj := by
    rcases hi with hi | ⟨rfl, ho⟩ <;> rcases hj with hj | ⟨rfl, ho'⟩
    · exact h.mono hij hi hj
    · obtain rfl := Option.some.inj ho'
      exact h.lt' hi
    · exact absurd (h.lt hj) (Nat.not_lt_of_lt hij)
    · exact absurd hij (Nat.lt_irrefl _)
  total := h.total_add
  onto {i'} hi := by
    rcases Nat.lt_succ_iff_lt_or_eq.1 hi with hi | rfl
    · obtain ⟨i, hi⟩ := h.onto hi
      exact ⟨i, .inl hi⟩
    · exact ⟨n, add_self ..⟩

variable {α β : Type} {S T : α → Option β → Prop} {a : Array α} {a' : Array β}

/-- The second array has what shows of the first, each thing as `S` says. -/
structure Lists (R : Roster) (S : α → Option β → Prop) (a : Array α) (a' : Array β) : Prop where
  fits : R.Fits a.size a'.size
  get : ∀ {i o x}, R i o → a[i]? = some x → S x (o.bind (a'[·]?))

namespace Lists

theorem exists_get (h : R.Lists S a a') (hi : R i o) : ∃ x, a[i]? = some x ∧ S x (o.bind (a'[·]?)) :=
  ⟨_, Array.getElem?_eq_getElem (h.fits.lt hi), h.get hi (Array.getElem?_eq_getElem _)⟩

theorem exists_get_shown {i' : Nat} (h : R.Lists S a a') (hi : R i (some i')) :
    ∃ x x', a[i]? = some x ∧ a'[i']? = some x' ∧ S x (some x') := by
  obtain ⟨x, hx, hS⟩ := h.exists_get hi
  have hx' := Array.getElem?_eq_getElem (h.fits.lt' hi)
  rw [Option.bind_some, hx'] at hS
  exact ⟨x, _, hx, hx', hS⟩

theorem mono (h : R.Lists S a a') (hST : ∀ x y, S x y → T x y) : R.Lists T a a' :=
  ⟨h.fits, fun hi hx => hST _ _ (h.get hi hx)⟩

theorem setLeft (h : R.Lists S a a') (hi : R i o) {x : α} (hS : S x (o.bind (a'[·]?))) :
    R.Lists S (a.setIfInBounds i x) a' := by
  refine ⟨by rw [Array.size_setIfInBounds]; exact h.fits, fun {j p y} hj hy => ?_⟩
  by_cases hij : i = j
  · subst hij
    obtain rfl := h.fits.unique hi hj
    rw [Array.getElem?_setIfInBounds_self_of_lt (h.fits.lt hi)] at hy
    exact Option.some.inj hy ▸ hS
  · rw [Array.getElem?_setIfInBounds_ne hij] at hy
    exact h.get hj hy

theorem setShown {i' : Nat} (h : R.Lists S a a') (hi : R i (some i')) {x : α} {x' : β}
    (hS : S x (some x')) : R.Lists S (a.setIfInBounds i x) (a'.setIfInBounds i' x') := by
  refine ⟨by rw [Array.size_setIfInBounds, Array.size_setIfInBounds]; exact h.fits,
    fun {j p y} hj hy => ?_⟩
  by_cases hij : i = j
  · subst hij
    obtain rfl := h.fits.unique hi hj
    rw [Array.getElem?_setIfInBounds_self_of_lt (h.fits.lt hi)] at hy
    rw [Option.bind_some, Array.getElem?_setIfInBounds_self_of_lt (h.fits.lt' hi)]
    exact Option.some.inj hy ▸ hS
  · rw [Array.getElem?_setIfInBounds_ne hij] at hy
    have hget := h.get hj hy
    cases p with
    | none => exact hget
    | some j' =>
      have hne : i' ≠ j' := by
        rintro rfl
        exact hij (h.fits.injective hi hj)
      rwa [Option.bind_some, Array.getElem?_setIfInBounds_ne hne]

theorem modify_eq_set {a : Array α} {x : α} (hx : a[i]? = some x) (f : α → α) :
    a.modify i f = a.setIfInBounds i (f x) := by
  refine Array.ext_getElem? fun j => ?_
  rw [Array.getElem?_modify, Array.getElem?_setIfInBounds]
  split
  · next hij =>
    subst hij
    rw [hx, if_pos (Array.getElem?_eq_some_iff.1 hx).1]
    rfl
  · rfl

/-- Something is modified, and what it shows as, if it does, is modified as well. -/
theorem modify (h : R.Lists S a a') (hi : R i o) {f : α → α} {g : β → β}
    (hf : ∀ {x y}, a[i]? = some x → o.bind (a'[·]?) = y → S x y → S (f x) (y.map g)) :
    R.Lists S (a.modify i f) (o.elim a' (a'.modify · g)) := by
  cases o with
  | none =>
    obtain ⟨x, hx, hS⟩ := h.exists_get hi
    rw [modify_eq_set hx]
    exact h.setLeft hi (hf hx rfl hS)
  | some i' =>
    obtain ⟨x, x', hx, hx', hS⟩ := h.exists_get_shown hi
    rw [Option.elim_some, modify_eq_set hx, modify_eq_set hx']
    exact h.setShown hi (hf hx hx' hS)

theorem modifyLeft (h : R.Lists S a a') (hi : R i o) {f : α → α}
    (hf : ∀ {x}, a[i]? = some x → S x (o.bind (a'[·]?)) → S (f x) (o.bind (a'[·]?))) :
    R.Lists S (a.modify i f) a' := by
  obtain ⟨x, hx, hS⟩ := h.exists_get hi
  rw [modify_eq_set hx]
  exact h.setLeft hi (hf hx hS)

theorem addHidden (h : R.Lists S a a') {x : α} (hS : S x none) :
    (R.add a.size none).Lists S (a.push x) a' := by
  refine ⟨by rw [Array.size_push]; exact h.fits.addHidden, fun {j p y} hj hy => ?_⟩
  rcases hj with hj | ⟨rfl, rfl⟩
  · rw [Array.getElem?_push_lt (h.fits.lt hj), ← Array.getElem?_eq_getElem] at hy
    exact h.get hj hy
  · rw [Array.getElem?_push_size] at hy
    obtain rfl := Option.some.inj hy
    exact hS

theorem addShown (h : R.Lists S a a') {x : α} {y : β} (hS : S x (some y)) :
    (R.add a.size (some a'.size)).Lists S (a.push x) (a'.push y) := by
  refine ⟨by rw [Array.size_push, Array.size_push]; exact h.fits.addShown, fun {j p z} hj hz => ?_⟩
  rcases hj with hj | ⟨rfl, rfl⟩
  · rw [Array.getElem?_push_lt (h.fits.lt hj), ← Array.getElem?_eq_getElem] at hz
    have hget := h.get hj hz
    cases p with
    | none => exact hget
    | some j' =>
      have hlt := h.fits.lt' hj
      rw [Option.bind_some, Array.getElem?_push_lt hlt]
      rwa [Option.bind_some, Array.getElem?_eq_getElem hlt] at hget
  · rw [Array.getElem?_push_size] at hz
    obtain rfl := Option.some.inj hz
    rwa [Option.bind_some, Array.getElem?_push_size]

end Lists

def upTo (n : Nat) : Roster := fun i o => i < n ∧ o = some i

theorem fits_upTo (n : Nat) : (upTo n).Fits n n where
  lt hi := hi.1
  lt' hi := Option.some.inj hi.2 ▸ hi.1
  unique hi hi' := hi.2.trans hi'.2.symm
  mono hij hi hj := by
    rwa [Option.some.inj hi.2, Option.some.inj hj.2]
  total hi := ⟨_, hi, rfl⟩
  onto hi := ⟨_, hi, rfl⟩

theorem lists_upTo (hsize : a.size = n) (hsize' : a'.size = n)
    (hS : ∀ {i : Nat} {x y}, a[i]? = some x → a'[i]? = some y → S x (some y)) :
    (upTo n).Lists S a a' := by
  refine ⟨by rw [hsize, hsize']; exact fits_upTo n, fun {i o x} hi hx => ?_⟩
  obtain ⟨hlt, rfl⟩ := hi
  have hy := Array.getElem?_eq_getElem (hsize'.symm ▸ hlt : i < a'.size)
  rw [Option.bind_some, hy]
  exact hS hx hy

end Roster

end RacePuzzle
