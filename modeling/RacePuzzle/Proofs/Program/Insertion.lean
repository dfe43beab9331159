import RacePuzzle.Program.Insertion
import RacePuzzle.Proofs.Program.Pruning

/-! Insertion of a statement. Wherever it comes in, the rest of the program stays as it is, and a
usage that comes in behind the declaration of its handle is in the reach of it. -/
namespace RacePuzzle.Statement

variable {new : Statement} {body body' : List Statement} {i : StatementId} {place : Nat}

/-- `body'` is `body` with `new` at one more place. -/
inductive Inserted (new : Statement) : List Statement → List Statement → Prop
  | here {rest} : Inserted new rest (new :: rest)
  | later {s rest rest'} : Inserted new rest rest' → Inserted new (s :: rest) (s :: rest')
  | inside {id head inner inner' rest} : Inserted new inner inner' →
      Inserted new (.block id head inner :: rest) (.block id head inner' :: rest)

/-- The place of `new` is behind a statement with the id `i`, in the same body or inside a block of
it. -/
inductive InsertedAfter (i : StatementId) (new : Statement) : List Statement → List Statement → Prop
  | behind {s rest rest'} : s.id = i → Inserted new rest rest' →
      InsertedAfter i new (s :: rest) (s :: rest')
  | later {s rest rest'} : InsertedAfter i new rest rest' → InsertedAfter i new (s :: rest) (s :: rest')
  | inside {id head inner inner' rest} : InsertedAfter i new inner inner' →
      InsertedAfter i new (.block id head inner :: rest) (.block id head inner' :: rest)

theorem InsertedAfter.inserted (h : InsertedAfter i new body body') : Inserted new body body' := by
  induction h with
  | behind _ h => exact .later h
  | later _ ih => exact .later ih
  | inside _ ih => exact .inside ih

/-- `f` reads of a block no more than its head. -/
def Shallow {α : Type} (f : Statement → Option α) : Prop :=
  ∀ id head inner inner', f (.block id head inner') = f (.block id head inner)

/-- The statements of `body'` are those of `body` and `new`, apart from what stands in their
bodies. -/
def Gains (new body body' : List Statement) : Prop :=
  ∀ {α : Type} {f : Statement → Option α}, Shallow f →
    ((bodyNodes body').filterMap f).Perm (new.filterMap f ++ (bodyNodes body).filterMap f)

theorem Gains.trans {new new' body body' body'' : List Statement} (h : Gains new body body')
    (h' : Gains new' body' body'') : Gains (new ++ new') body body'' := fun hf => by
  refine (h' hf).trans (((h hf).append_left _).trans ?_)
  rw [List.filterMap_append, ← List.append_assoc]
  exact List.perm_append_comm.append_right _

theorem Gains.ids {new : List Statement} (h : Gains new body body') :
    ((bodyNodes body').map id).Perm (new.map id ++ (bodyNodes body).map id) := by
  have hperm := h (f := fun s => some s.id) fun _ _ _ _ => rfl
  simpa only [List.filterMap_eq_map'] using hperm

theorem Gains.bodySize_eq {new : List Statement} (h : Gains new body body') :
    bodySize body' = bodySize body + new.length := by
  have hlength := h.ids.length_eq
  simp only [List.length_map, List.length_append, length_bodyNodes] at hlength
  omega

theorem Inserted.gains (h : Inserted new body body') : Gains new.nodes body body' := by
  intro α f hf
  induction h with
  | here => rw [bodyNodes, List.filterMap_append]
  | @later s rest rest' _ ih =>
    simp only [bodyNodes, List.filterMap_append]
    refine (ih.append_left _).trans ?_
    rw [← List.append_assoc, ← List.append_assoc]
    exact List.perm_append_comm.append_right _
  | @inside id head inner inner' rest _ ih =>
    have hcons : ∀ l : List Statement, (Statement.block id head l).nodes.filterMap f =
        (f (.block id head inner)).toList ++ (bodyNodes l).filterMap f := fun l => by
      rw [nodes, List.filterMap_cons, hf id head inner l]
      cases f (.block id head inner) <;> rfl
    simp only [bodyNodes, List.filterMap_append, hcons]
    rw [← List.append_assoc (new.nodes.filterMap f), ← List.append_assoc (new.nodes.filterMap f)]
    refine List.Perm.append_right _ ((ih.append_left _).trans ?_)
    rw [← List.append_assoc]
    exact List.perm_append_comm.append_right _

/-- A statement that uses no handle from outside can come in anywhere. -/
theorem Inserted.covered {vars : String → Prop} (h : Inserted new body body')
    (hnew : new.Covered fun _ => False) (hbody : BodyCovered vars body) : BodyCovered vars body' := by
  induction h generalizing vars with
  | here => exact ⟨hnew.mono fun _ => False.elim, hbody.mono fun _ => .inl⟩
  | later _ ih => exact ⟨hbody.1, ih hbody.2⟩
  | inside _ ih => exact ⟨ih hbody.1, hbody.2⟩

theorem covered_of_uses? {action : Action} {vars : String → Prop} {var : String}
    (huses : action.uses? = some var) (hvar : vars var) : (Statement.leaf i action).Covered vars :=
  fun v hv => by cases huses.symm.trans hv; exact hvar

/-- A usage can come in wherever its handle is visible. -/
theorem Inserted.covered_usage {vars : String → Prop} {var : String} (h : Inserted new body body')
    (hnew : ∀ {vars : String → Prop}, vars var → new.Covered vars) (hvar : vars var)
    (hbody : BodyCovered vars body) : BodyCovered vars body' := by
  induction h generalizing vars with
  | here => exact ⟨hnew hvar, hbody.mono fun _ => .inl⟩
  | later _ ih => exact ⟨hbody.1, ih (.inl hvar) hbody.2⟩
  | inside _ ih => exact ⟨ih hvar hbody.1, hbody.2⟩

/-- Behind its declaration, or behind another usage of it, a handle is visible. -/
theorem InsertedAfter.covered {vars : String → Prop} {var : String} (h : InsertedAfter i new body body')
    (hnew : ∀ {vars : String → Prop}, vars var → new.Covered vars)
    (hi : ∀ s ∈ bodyNodes body, s.id = i → s.declares? = some var ∨ s.uses? = some var)
    (hbody : BodyCovered vars body) : BodyCovered vars body' := by
  induction h generalizing vars with
  | @behind s rest rest' hs h =>
    refine ⟨hbody.1, h.covered_usage hnew ?_ hbody.2⟩
    rcases hi s (List.mem_append_left _ (self_mem_nodes s)) hs with hd | hu
    · exact .inr hd
    · cases s with
      | leaf _ action => exact .inl (hbody.1 var hu)
      | block => cases hu
  | later _ ih =>
    exact ⟨hbody.1, ih (fun s hs => hi s (List.mem_append_right _ hs)) hbody.2⟩
  | inside _ ih =>
    refine ⟨ih (fun s hs => hi s ?_) hbody.1, hbody.2⟩
    exact List.mem_append_left _ (List.mem_cons_of_mem _ hs)

theorem inserted_insertIdx (new : Statement) : (body : List Statement) → (place : Nat) →
    place ≤ body.length → Inserted new body (body.insertIdx place new)
  | _, 0, _ => .here
  | [], _ + 1, h => nomatch h
  | _ :: rest, place + 1, h => .later (inserted_insertIdx new rest place (Nat.le_of_succ_le_succ h))

mutual
/-- A place of a block is in its body or inside one of the blocks there. -/
theorem inserted_insertAt (new : Statement) : (s : Statement) → (place : Nat) → place < s.slots →
    ∃ id head inner inner', s = .block id head inner ∧
      s.insertAt place new = .block id head inner' ∧ Inserted new inner inner'
  | .leaf .., _, h => nomatch h
  | .block id head body, place, h => by
    unfold insertAt
    split
    · next hle => exact ⟨id, head, body, _, rfl, rfl, inserted_insertIdx new body place hle⟩
    · next hlt =>
      simp only [slots] at h
      exact ⟨id, head, body, _, rfl, rfl, inserted_insertNested new body _ (by omega)⟩
theorem inserted_insertNested (new : Statement) : (body : List Statement) → (place : Nat) →
    place < nestedSlots body → Inserted new body (insertNested body place new)
  | [], _, h => nomatch h
  | s :: rest, place, h => by
    unfold insertNested
    split
    · next hlt =>
      obtain ⟨id, head, inner, inner', rfl, he, hinserted⟩ := inserted_insertAt new s place hlt
      rw [he]
      exact .inside hinserted
    · next hge =>
      simp only [nestedSlots] at h
      exact .later (inserted_insertNested new rest _ (by omega))
end

/-- Every number stands for a place of a body. -/
theorem inserted_insertIntoBody (body : List Statement) (place : Nat) (new : Statement) :
    Inserted new body (insertIntoBody body place new) := by
  unfold insertIntoBody
  split
  · next hle => exact inserted_insertIdx new body place hle
  · next hlt =>
    split
    · next hslots =>
      simp only [bodySlots] at hslots
      exact inserted_insertNested new body _ (by omega)
    · have happend := inserted_insertIdx new body body.length (Nat.le_refl _)
      rwa [List.insertIdx_length_self] at happend

theorem insertedAfter_insertBehind (place : Nat) (new : Statement) : (body : List Statement) →
    (restAfter? i body).isSome → InsertedAfter i new body (insertBehind i place new body)
  | [], h => nomatch h
  | s :: rest, h => by
    unfold insertBehind
    split
    · next hs => exact .behind hs (inserted_insertIntoBody rest place new)
    · next hs =>
      rw [restAfter?, if_neg hs] at h
      exact .later (insertedAfter_insertBehind place new rest h)

mutual
theorem insertedAfter_insertLaterAt (place : Nat) (new : Statement) : (s : Statement) →
    (s.slotsAfter? i).isSome → ∃ id head inner inner', s = .block id head inner ∧
      s.insertLaterAt i place new = .block id head inner' ∧ InsertedAfter i new inner inner'
  | .leaf .., h => nomatch h
  | .block id head body, h => by
    unfold insertLaterAt
    split
    · next hsome => exact ⟨id, head, body, _, rfl, rfl, insertedAfter_insertBehind place new body hsome⟩
    · next hnone =>
      refine ⟨id, head, body, _, rfl, rfl, insertedAfter_insertLaterNested place new body ?_⟩
      simpa only [slotsAfter?, Option.not_isSome_iff_eq_none.1 hnone] using h
theorem insertedAfter_insertLaterNested (place : Nat) (new : Statement) : (body : List Statement) →
    (nestedSlotsAfter? i body).isSome → InsertedAfter i new body (insertLaterNested body i place new)
  | [], h => nomatch h
  | s :: rest, h => by
    unfold insertLaterNested
    split
    · next hsome =>
      obtain ⟨id, head, inner, inner', rfl, he, hinserted⟩ :=
        insertedAfter_insertLaterAt place new s hsome
      rw [he]
      exact .inside hinserted
    · next hnone =>
      rw [nestedSlotsAfter?, Option.not_isSome_iff_eq_none.1 hnone] at h
      exact .later (insertedAfter_insertLaterNested place new rest h)
end

theorem restAfter?_isSome {s : Statement} : {body : List Statement} → s ∈ body → s.id = i →
    (restAfter? i body).isSome
  | s' :: rest, hs, hid => by
    rw [restAfter?]
    split
    · rfl
    · next hne =>
      rcases List.mem_cons.1 hs with rfl | hs
      · exact absurd hid hne
      · exact restAfter?_isSome hs hid

mutual
/-- There are places behind every statement below the root. -/
theorem slotsAfter?_isSome : (t : Statement) → i ∈ (bodyNodes t.body).map id →
    (t.slotsAfter? i).isSome
  | .leaf .., h => nomatch h
  | .block _ _ body, h => by
    rw [slotsAfter?]
    split
    · rfl
    · next hnone => exact nestedSlotsAfter?_isSome body h hnone
theorem nestedSlotsAfter?_isSome : (body : List Statement) → i ∈ (bodyNodes body).map id →
    restAfter? i body = none → (nestedSlotsAfter? i body).isSome
  | [], h, _ => nomatch h
  | s :: rest, h, hnone => by
    rw [restAfter?] at hnone
    split at hnone
    · cases hnone
    · next hne =>
      rw [nestedSlotsAfter?]
      split
      · rfl
      · next hs =>
        rw [bodyNodes, List.map_append, List.mem_append] at h
        rcases h with h | h
        · have hbelow : i ∈ (bodyNodes s.body).map id := by
            cases s with
            | leaf j action => exact absurd (List.mem_singleton.1 h).symm hne
            | block j head inner => exact (List.mem_cons.1 h).resolve_left (Ne.symm hne)
          have hsome := slotsAfter?_isSome s hbelow
          rw [hs] at hsome
          cases hsome
        · exact nestedSlotsAfter?_isSome rest h hnone
end

theorem not_mem_ids_cons {s : Statement} {rest : List Statement} :
    i ∉ (bodyNodes (s :: rest)).map id ↔
      s.id ≠ i ∧ i ∉ (bodyNodes s.body).map id ∧ i ∉ (bodyNodes rest).map id := by
  have hnodes : (s.nodes).map id = s.id :: (bodyNodes s.body).map id := by cases s <;> rfl
  rw [bodyNodes, List.map_append, hnodes, List.mem_append, List.mem_cons, not_or, not_or,
    eq_comm, and_assoc]

mutual
theorem splice_of_not_mem (new : List Statement) : (s : Statement) →
    i ∉ (bodyNodes s.body).map id → s.splice i new = s
  | .leaf .., _ => rfl
  | .block _ _ body, h => by rw [splice, spliceBody_of_not_mem new body h]
theorem spliceBody_of_not_mem (new : List Statement) : (body : List Statement) →
    i ∉ (bodyNodes body).map id → spliceBody i new body = body
  | [], _ => rfl
  | s :: rest, h => by
    obtain ⟨hs, hinside, hrest⟩ := not_mem_ids_cons.1 h
    rw [spliceBody, if_neg hs, splice_of_not_mem new s hinside, spliceBody_of_not_mem new rest hrest]
end

/-- A statement that is removed could be inserted again. -/
theorem inserted_spliceBody {gone : Statement} : (body : List Statement) →
    ((bodyNodes body).map id).Nodup → gone ∈ bodyNodes body →
    Inserted gone (spliceBody gone.id [] body) body
  | [], _, h => nomatch h
  | .leaf j a :: rest, hnodup, h => by
    rw [bodyNodes, nodes, List.singleton_append, List.map_cons, List.nodup_cons] at hnodup
    rcases List.mem_cons.1 h with rfl | h
    · rw [spliceBody, if_pos rfl, List.nil_append, spliceBody_of_not_mem [] rest hnodup.1]
      exact .here
    · have hne : (Statement.leaf j a).id ≠ gone.id := fun he =>
        hnodup.1 (he ▸ List.mem_map.2 ⟨_, h, rfl⟩)
      rw [spliceBody, if_neg hne]
      exact .later (inserted_spliceBody rest hnodup.2 h)
  | .block j head inner :: rest, hnodup, h => by
    obtain ⟨⟨hinner, hrest⟩, hnodup, hnodup', hdisjoint⟩ := nodup_block.1 hnodup
    rcases List.mem_cons.1 h with rfl | h
    · rw [spliceBody, if_pos rfl, List.nil_append]
      change Inserted _ (spliceBody j [] rest) _
      rw [spliceBody_of_not_mem [] rest hrest]
      exact .here
    · have hne : (Statement.block j head inner).id ≠ gone.id := fun he => by
        have hi : gone.id ∈ (bodyNodes inner).map id ∨ gone.id ∈ (bodyNodes rest).map id :=
          (List.mem_append.1 h).imp (fun h => List.mem_map.2 ⟨_, h, rfl⟩)
            fun h => List.mem_map.2 ⟨_, h, rfl⟩
        exact hi.elim (he ▸ hinner) (he ▸ hrest)
      rw [spliceBody, if_neg hne, splice]
      rcases List.mem_append.1 h with h | h
      · have hi : gone.id ∈ (bodyNodes inner).map id := List.mem_map.2 ⟨_, h, rfl⟩
        rw [spliceBody_of_not_mem [] rest (hdisjoint hi)]
        exact .inside (inserted_spliceBody inner hnodup h)
      · have hi : gone.id ∈ (bodyNodes rest).map id := List.mem_map.2 ⟨_, h, rfl⟩
        rw [spliceBody_of_not_mem [] inner fun hi' => hdisjoint hi' hi]
        exact .later (inserted_spliceBody rest hnodup' h)

end RacePuzzle.Statement
