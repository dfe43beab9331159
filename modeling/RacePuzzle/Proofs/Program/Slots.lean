import RacePuzzle.Proofs.Program.Insertion
import Mathlib.Data.List.Lemmas
import Mathlib.Data.Set.Function
import Mathlib.Order.Interval.Set.Defs

/-! The numbers of the places of a program. Every index of every body has one number, so that an
insertion by number can bring a statement in wherever there is room for it, and by no two numbers in
the same way. -/
namespace RacePuzzle.Statement

/-- A program that lacks one of its bodies. -/
inductive Context
  | here (id : StatementId) (head : Head)
  | inside (id : StatementId) (head : Head) (pre : List Statement) (context : Context)
      (post : List Statement)

def Context.fill : Context → List Statement → Statement
  | .here id head, body => .block id head body
  | .inside id head pre context post, body => .block id head (pre ++ context.fill body :: post)

/-- `t'` is `t` with `new` at an index of one of its bodies. -/
def Receives (new t t' : Statement) : Prop :=
  ∃ (context : Context) (body : List Statement), ∃ i ≤ body.length,
    t = context.fill body ∧ t' = context.fill (body.insertIdx i new)

variable {new t t' : Statement} {body body' : List Statement} {place place' : Nat}

theorem Context.fill_injective (context : Context) : Function.Injective context.fill := by
  intro body body' h
  induction context with
  | here => exact (Statement.block.inj h).2.2
  | inside _ _ pre _ _ ih =>
    exact ih (List.cons_eq_cons.1 (List.append_cancel_left (Statement.block.inj h).2.2)).1

theorem Inserted.append_left (pre : List Statement) (h : Inserted new body body') :
    Inserted new (pre ++ body) (pre ++ body') := by
  induction pre with
  | nil => exact h
  | cons s pre ih => exact .later ih

/-- An insertion into a body is one into the body of the program. -/
theorem Inserted.fill (context : Context) (h : Inserted new body body') : ∃ id head inner inner',
    context.fill body = .block id head inner ∧ context.fill body' = .block id head inner' ∧
      Inserted new inner inner' := by
  induction context with
  | here id head => exact ⟨id, head, body, body', rfl, rfl, h⟩
  | inside id head pre context post ih =>
    obtain ⟨i, head', inner, inner', hfill, hfill', hinner⟩ := ih
    refine ⟨id, head, _, _, rfl, rfl, ?_⟩
    rw [hfill, hfill']
    exact .append_left pre (.inside hinner)

theorem Inserted.receives (h : Inserted new body body') (id : StatementId) (head : Head) :
    Receives new (.block id head body) (.block id head body') := by
  induction h generalizing id head with
  | @here rest => exact ⟨.here id head, rest, 0, Nat.zero_le _, rfl, rfl⟩
  | @later s rest rest' _ ih =>
    obtain ⟨context, list, i, hi, hfill, hfill'⟩ := ih id head
    cases context with
    | here =>
      obtain ⟨rfl, rfl, rfl⟩ := Statement.block.inj hfill
      obtain ⟨-, -, rfl⟩ := Statement.block.inj hfill'
      exact ⟨.here id head, s :: rest, i + 1, Nat.succ_le_succ hi, rfl, rfl⟩
    | inside _ _ pre context post =>
      obtain ⟨rfl, rfl, rfl⟩ := Statement.block.inj hfill
      obtain ⟨-, -, rfl⟩ := Statement.block.inj hfill'
      exact ⟨.inside id head (s :: pre) context post, list, i, hi, rfl, rfl⟩
  | @inside i head' inner inner' rest _ ih =>
    obtain ⟨context, list, k, hk, hfill, hfill'⟩ := ih i head'
    refine ⟨.inside id head [] context rest, list, k, hk, ?_, ?_⟩
    · rw [hfill]; rfl
    · rw [hfill']; rfl

theorem receives_iff : Receives new t t' ↔ ∃ id head inner inner',
    t = .block id head inner ∧ t' = .block id head inner' ∧ Inserted new inner inner' := by
  constructor
  · rintro ⟨context, list, i, hi, rfl, rfl⟩
    exact (inserted_insertIdx new list i hi).fill context
  · rintro ⟨id, head, inner, inner', rfl, rfl, h⟩
    exact h.receives id head

/-- What has come in can be taken out again. -/
theorem Inserted.spliceBody_eq (h : Inserted new body body')
    (hnew : new.id ∉ (bodyNodes body).map id) : spliceBody new.id [] body' = body := by
  induction h with
  | here => rw [spliceBody, if_pos rfl, List.nil_append, spliceBody_of_not_mem [] _ hnew]
  | later _ ih =>
    obtain ⟨hs, hinside, hrest⟩ := not_mem_ids_cons.1 hnew
    rw [spliceBody, if_neg hs, splice_of_not_mem [] _ hinside, ih hrest]
  | @inside i head inner inner' rest _ ih =>
    obtain ⟨hs, hinside, hrest⟩ := not_mem_ids_cons.1 hnew
    have hs' : (Statement.block i head inner').id ≠ new.id := hs
    rw [spliceBody, if_neg hs', splice, ih hinside, spliceBody_of_not_mem [] _ hrest]

theorem Receives.remove (h : Receives new t t') (hnew : new.id ∉ t.ids) :
    t'.remove new.id = t := by
  obtain ⟨id, head, inner, inner', rfl, rfl, hinserted⟩ := receives_iff.1 h
  exact congrArg (Statement.block id head)
    (hinserted.spliceBody_eq fun hmem => hnew (List.mem_cons_of_mem _ hmem))

/-- A place of a body is an index of it or a place inside one of its blocks. -/
theorem Inserted.exists_place (h : Inserted new body body') :
    (∃ i ≤ body.length, body.insertIdx i new = body') ∨
      ∃ place < nestedSlots body, insertNested body place new = body' := by
  induction h with
  | here => exact .inl ⟨0, Nat.zero_le _, rfl⟩
  | @later s rest rest' _ ih =>
    rcases ih with ⟨i, hi, rfl⟩ | ⟨place, hplace, rfl⟩
    · exact .inl ⟨i + 1, Nat.succ_le_succ hi, rfl⟩
    · refine .inr ⟨s.slots + place, Nat.add_lt_add_left hplace _, ?_⟩
      rw [insertNested, if_neg (Nat.not_lt.2 (Nat.le_add_right _ _)), Nat.add_sub_cancel_left]
  | @inside id head inner inner' rest _ ih =>
    have hnested (place : Nat) (hplace : place < (Statement.block id head inner).slots) :
        insertNested (.block id head inner :: rest) place new =
          (Statement.block id head inner).insertAt place new :: rest := by
      rw [insertNested, if_pos hplace]
    rcases ih with ⟨i, hi, rfl⟩ | ⟨place, hplace, rfl⟩
    · refine .inr ⟨i, ?_, ?_⟩
      · rw [nestedSlots, slots]
        omega
      · rw [hnested i (by rw [slots]; omega), insertAt, if_pos hi]
    · refine .inr ⟨inner.length + 1 + place, ?_, ?_⟩
      · rw [nestedSlots, slots]
        omega
      · rw [hnested _ (by rw [slots]; omega), insertAt, if_neg (by omega)]
        congr 3
        omega

theorem insertIntoBody_of_le (h : place ≤ body.length) :
    insertIntoBody body place new = body.insertIdx place new := if_pos h

theorem insertIntoBody_nested (h : place < nestedSlots body) :
    insertIntoBody body (body.length + 1 + place) new = insertNested body place new := by
  rw [insertIntoBody, if_neg (by omega), bodySlots, if_pos (by omega)]
  congr 1
  omega

/-- A number past the last place stands for the end. -/
theorem insertIntoBody_of_ge (h : bodySlots body ≤ place) :
    insertIntoBody body place new = body ++ [new] := by
  rw [bodySlots] at h
  rw [insertIntoBody, if_neg (by omega), bodySlots, if_neg (by omega)]

theorem Inserted.exists_number (h : Inserted new body body') :
    ∃ place < bodySlots body, insertIntoBody body place new = body' := by
  rw [bodySlots]
  rcases h.exists_place with ⟨i, hi, he⟩ | ⟨place, hplace, he⟩
  · exact ⟨i, by omega, (insertIntoBody_of_le hi).trans he⟩
  · exact ⟨body.length + 1 + place, by omega, (insertIntoBody_nested hplace).trans he⟩

/-- A statement that comes in makes a body larger. -/
theorem Inserted.ne (h : Inserted new body body') : body' ≠ body := by
  have hgains : Gains new.nodes body body' := h.gains
  have hsize := hgains.bodySize_eq
  have hpos := new.one_le_size
  rw [length_nodes] at hsize
  rintro rfl
  omega

theorem length_insertNested (new : Statement) (body : List Statement) (place : Nat) :
    (insertNested body place new).length = body.length := by
  induction body generalizing place with
  | nil => rfl
  | cons s rest ih =>
    rw [insertNested]
    split
    · rfl
    · rw [List.length_cons, ih, List.length_cons]

theorem number_cases (h : place < bodySlots body) :
    place ≤ body.length ∨ ∃ inside < nestedSlots body, place = body.length + 1 + inside := by
  rw [bodySlots] at h
  rcases Nat.lt_or_ge body.length place with hlt | hle
  · exact .inr ⟨place - (body.length + 1), by omega, by omega⟩
  · exact .inl hle

/-- The numbers of a body are for different places if those inside its blocks are. -/
theorem insertIntoBody_injOn_of (hnew : new ∉ body)
    (hnested : Set.InjOn (fun place => insertNested body place new) (Set.Iio (nestedSlots body))) :
    Set.InjOn (fun place => insertIntoBody body place new) (Set.Iio (bodySlots body)) := by
  intro place hplace place' hplace' (h : insertIntoBody body place new = insertIntoBody body place' new)
  -- at an index of the body it becomes longer, inside one of its blocks it does not
  have hlength {i inside : Nat} (hi : i ≤ body.length) :
      body.insertIdx i new ≠ insertNested body inside new := fun he => by
    have hlengths := congrArg List.length he
    rw [List.length_insertIdx_of_le_length hi, length_insertNested] at hlengths
    omega
  rcases number_cases hplace with hle | ⟨inside, hinside, rfl⟩
  · rw [insertIntoBody_of_le hle] at h
    rcases number_cases hplace' with hle' | ⟨inside, hinside, rfl⟩
    · exact List.injOn_insertIdx_index_of_notMem body new hnew hle hle'
        (h.trans (insertIntoBody_of_le hle'))
    · exact absurd (h.trans (insertIntoBody_nested hinside)) (hlength hle)
  · rw [insertIntoBody_nested hinside] at h
    rcases number_cases hplace' with hle' | ⟨inside', hinside', rfl⟩
    · exact absurd (h.trans (insertIntoBody_of_le hle')).symm (hlength hle')
    · rw [hnested hinside hinside' (h.trans (insertIntoBody_nested hinside'))]

theorem insertAt_block {id : StatementId} {head : Head} (h : place < bodySlots body) :
    (Statement.block id head body).insertAt place new =
      .block id head (insertIntoBody body place new) := by
  rw [insertAt, insertIntoBody, if_pos h]
  split <;> rfl

theorem insertAt_ne {s : Statement} (h : place < s.slots) : s.insertAt place new ≠ s := by
  obtain ⟨id, head, inner, inner', rfl, he, hinserted⟩ := inserted_insertAt new s place h
  rw [he]
  exact fun heq => hinserted.ne (Statement.block.inj heq).2.2

theorem not_mem_of_id (hnew : new.id ∉ (bodyNodes body).map id) : new ∉ body := fun hmem =>
  hnew (List.mem_map.2 ⟨new, mem_bodyNodes_of_mem hmem, rfl⟩)

mutual
theorem insertAt_injOn : (s : Statement) → new.id ∉ (bodyNodes s.body).map id →
    Set.InjOn (fun place => s.insertAt place new) (Set.Iio s.slots)
  | .leaf .., _ => fun _ h => nomatch h
  | .block id head body, hnew => by
    intro place hplace place' hplace' h
    refine insertIntoBody_injOn_of (not_mem_of_id hnew) (insertNested_injOn body hnew) hplace hplace' ?_
    have h' := (insertAt_block hplace).symm.trans (h.trans (insertAt_block hplace'))
    exact (Statement.block.inj h').2.2
theorem insertNested_injOn : (body : List Statement) → new.id ∉ (bodyNodes body).map id →
    Set.InjOn (fun place => insertNested body place new) (Set.Iio (nestedSlots body))
  | [], _ => fun _ h => nomatch h
  | s :: rest, hnew => by
    obtain ⟨-, hinside, hrest⟩ := not_mem_ids_cons.1 hnew
    intro place hplace place' hplace' (h : insertNested _ _ _ = insertNested _ _ _)
    rw [Set.mem_Iio, nestedSlots] at hplace hplace'
    rw [insertNested, insertNested] at h
    split at h
    · next hlt =>
      split at h
      · next hlt' => exact insertAt_injOn s hinside hlt hlt' (List.cons_eq_cons.1 h).1
      · exact absurd (List.cons_eq_cons.1 h).1 (insertAt_ne hlt)
    · next hge =>
      split at h
      · next hlt' => exact absurd (List.cons_eq_cons.1 h).1.symm (insertAt_ne hlt')
      · have hlt : place - s.slots < nestedSlots rest := by omega
        have hlt' : place' - s.slots < nestedSlots rest := by omega
        have := insertNested_injOn rest hrest hlt hlt' (List.cons_eq_cons.1 h).2
        omega
end

theorem insertIntoBody_injOn (hnew : new.id ∉ (bodyNodes body).map id) :
    Set.InjOn (fun place => insertIntoBody body place new) (Set.Iio (bodySlots body)) :=
  insertIntoBody_injOn_of (not_mem_of_id hnew) (insertNested_injOn body hnew)

/-- The numbers below the number of places stand for the ways in which a statement can come into a
program, each for one; it can be taken out again, and any larger number stands for the end. Of the
ids only that of the new statement matters. -/
theorem places_are_numbered (ht : t.isBlock) (hnew : new.id ∉ t.ids) :
    Set.BijOn (fun place => t.insertAtPlace place new) (Set.Iio t.slots) {t' | Receives new t t'} ∧
      (∀ place, (t.insertAtPlace place new).remove new.id = t) ∧
      ∀ place ≥ t.slots, t.insertAtPlace place new = t.setBody (t.body ++ [new]) := by
  cases t with
  | leaf => cases ht
  | block id head body =>
    have hbelow : new.id ∉ (bodyNodes body).map Statement.id := fun h => hnew (List.mem_cons_of_mem _ h)
    refine ⟨⟨fun place _ => ?_, fun place hplace place' hplace' h => ?_, ?_⟩, fun place => ?_,
      fun place hplace => ?_⟩
    · exact (inserted_insertIntoBody body place new).receives id head
    · exact insertIntoBody_injOn hbelow hplace hplace' (Statement.block.inj h).2.2
    · intro t' ht'
      obtain ⟨_, _, _, inner', he, rfl, hinserted⟩ := receives_iff.1 ht'
      obtain ⟨rfl, rfl, rfl⟩ := Statement.block.inj he
      obtain ⟨place, hplace, rfl⟩ := hinserted.exists_number
      exact ⟨place, hplace, rfl⟩
    · exact ((inserted_insertIntoBody body place new).receives id head).remove hnew
    · exact congrArg (Statement.block id head) (insertIntoBody_of_ge hplace)

/-- Three places in the body of the root and two in that of the launch. -/
def delayAndLaunch : Statement :=
  .block 0 .coroutineScope [.leaf 1 (.delay 1000), .block 2 .launch [.leaf 3 (.print "A")]]

theorem five_places_for_a_print :
    delayAndLaunch.isBlock ∧ (Statement.leaf 4 (.print "B")).id ∉ delayAndLaunch.ids ∧
      Set.BijOn (fun place => delayAndLaunch.insertAtPlace place (.leaf 4 (.print "B"))) (Set.Iio 5)
        {t | Receives (.leaf 4 (.print "B")) delayAndLaunch t} :=
  ⟨rfl, by decide, (places_are_numbered rfl (by decide)).1⟩

end RacePuzzle.Statement
