import RacePuzzle.Proofs.Program.Slots

/-! The numbers of the places behind a statement. They are those of the rest of the body in which it
stands, so a statement that comes in at one of them is behind all that is inside the earlier one. -/
namespace RacePuzzle.Statement

variable {d new t : Statement} {rest rest' : List Statement} {i : StatementId} {n : Nat}

/-- What is left of a body stands in a row among the statements of the program. -/
theorem Context.bodyNodes_infix (context : Context) (pre body : List Statement) :
    bodyNodes body <:+: (context.fill (pre ++ body)).nodes := by
  have hsuffix : bodyNodes body <:+: bodyNodes (pre ++ body) := by
    rw [bodyNodes_append]
    exact (List.suffix_append _ _).isInfix
  refine hsuffix.trans ?_
  induction context with
  | here => exact (List.suffix_cons _ _).isInfix
  | inside id head before context after ih =>
    have hinside : (context.fill (pre ++ body)).nodes <:+:
        bodyNodes (before ++ context.fill (pre ++ body) :: after) :=
      ⟨bodyNodes before, bodyNodes after, by rw [bodyNodes_append, bodyNodes, List.append_assoc]⟩
    exact ih.trans (hinside.trans (List.suffix_cons _ _).isInfix)

theorem Inserted.nodes_infix (h : Inserted new rest rest') : new.nodes <:+: bodyNodes rest' := by
  induction h with
  | here => exact (List.prefix_append _ _).isInfix
  | later _ ih => exact ih.trans (List.suffix_append _ _).isInfix
  | inside _ ih => exact (ih.trans (List.suffix_cons _ _).isInfix).trans (List.prefix_append _ _).isInfix

theorem Inserted.nodes_behind (h : Inserted new rest rest') (context : Context)
    (pre : List Statement) (d : Statement) :
    ∃ between, d.nodes ++ between ++ new.nodes <:+: (context.fill (pre ++ d :: rest')).nodes := by
  obtain ⟨between, after, hrest⟩ := h.nodes_infix
  refine ⟨between, List.IsInfix.trans ⟨[], after, ?_⟩ (context.bodyNodes_infix pre (d :: rest'))⟩
  rw [bodyNodes, ← hrest]
  simp only [List.append_assoc, List.nil_append]

theorem restAfter?_eq_some : {body : List Statement} → restAfter? i body = some rest →
    ∃ pre s, s.id = i ∧ body = pre ++ s :: rest ∧
      ∀ place new, insertBehind i place new body = pre ++ s :: insertIntoBody rest place new
  | s :: body, h => by
    rw [restAfter?] at h
    split at h
    · next hs =>
      cases h
      exact ⟨[], s, hs, rfl, fun place new => by rw [insertBehind, if_pos hs]; rfl⟩
    · next hs =>
      obtain ⟨pre, s', hid, rfl, hinsert⟩ := restAfter?_eq_some h
      exact ⟨s :: pre, s', hid, rfl, fun place new => by rw [insertBehind, if_neg hs, hinsert]; rfl⟩

mutual
/-- The places behind a statement are those of what follows it in its body. -/
theorem slotsAfter?_eq_some : (t : Statement) → t.slotsAfter? i = some n →
    ∃ (context : Context) (pre : List Statement) (s : Statement) (rest : List Statement),
      s.id = i ∧ n = bodySlots rest ∧ t = context.fill (pre ++ s :: rest) ∧
        ∀ place new, t.insertLaterAt i place new =
          context.fill (pre ++ s :: insertIntoBody rest place new)
  | .leaf .., h => nomatch h
  | .block id head body, h => by
    rw [slotsAfter?] at h
    -- the body itself is searched before the blocks in it
    split at h
    · next rest hrest =>
      obtain ⟨pre, s, hid, hbody, hinsert⟩ := restAfter?_eq_some hrest
      refine ⟨.here id head, pre, s, rest, hid, (Option.some.inj h).symm, ?_, fun place new => ?_⟩
      · rw [hbody, Context.fill]
      · rw [insertLaterAt, if_pos (Option.isSome_of_eq_some hrest), hinsert, Context.fill]
    · next hnone =>
      obtain ⟨before, context, after, pre, s, rest, hid, hn, hbody, hinsert⟩ :=
        nestedSlotsAfter?_eq_some body h
      refine ⟨.inside id head before context after, pre, s, rest, hid, hn, ?_, fun place new => ?_⟩
      · rw [hbody, Context.fill]
      · rw [insertLaterAt, if_neg (Option.not_isSome_iff_eq_none.2 hnone), hinsert, Context.fill]
theorem nestedSlotsAfter?_eq_some : (body : List Statement) → nestedSlotsAfter? i body = some n →
    ∃ (before : List Statement) (context : Context) (after pre : List Statement) (s : Statement)
      (rest : List Statement), s.id = i ∧ n = bodySlots rest ∧
        body = before ++ context.fill (pre ++ s :: rest) :: after ∧
        ∀ place new, insertLaterNested body i place new =
          before ++ context.fill (pre ++ s :: insertIntoBody rest place new) :: after
  | [], h => nomatch h
  | s :: body, h => by
    rw [nestedSlotsAfter?] at h
    split at h
    · next hsome =>
      cases h
      obtain ⟨context, pre, s', rest, hid, hn, hs, hinsert⟩ := slotsAfter?_eq_some s hsome
      refine ⟨[], context, body, pre, s', rest, hid, hn, ?_, fun place new => ?_⟩
      · rw [← hs, List.nil_append]
      · rw [insertLaterNested, if_pos (Option.isSome_of_eq_some hsome), hinsert, List.nil_append]
    · next hnone =>
      obtain ⟨before, context, after, pre, s', rest, hid, hn, hbody, hinsert⟩ :=
        nestedSlotsAfter?_eq_some body h
      refine ⟨s :: before, context, after, pre, s', rest, hid, hn, ?_, fun place new => ?_⟩
      · rw [hbody, List.cons_append]
      · rw [insertLaterNested, if_neg (Option.not_isSome_iff_eq_none.2 hnone), hinsert,
          List.cons_append]
end

/-- Every statement below the root has a place in front of the rest of its body. -/
theorem exists_rest (hids : t.ids.Nodup) (hd : d ∈ bodyNodes t.body) :
    ∃ (context : Context) (pre rest : List Statement), t = context.fill (pre ++ d :: rest) ∧
      t.slotsAfter? d.id = some (bodySlots rest) ∧ ∀ place new,
        t.insertLaterAt d.id place new = context.fill (pre ++ d :: insertIntoBody rest place new) := by
  obtain ⟨n, hn⟩ := Option.isSome_iff_exists.1 (slotsAfter?_isSome t (List.mem_map.2 ⟨d, hd, rfl⟩))
  obtain ⟨context, pre, s, rest, hid, rfl, ht, hinsert⟩ := slotsAfter?_eq_some t hn
  have hs : s ∈ t.nodes := by
    rw [ht]
    exact (context.bodyNodes_infix pre (s :: rest)).subset (mem_bodyNodes_of_mem List.mem_cons_self)
  -- the search goes by the id, which no other statement has
  obtain rfl := eq_of_id hids hs (mem_nodes_of_body hd) hid
  exact ⟨context, pre, rest, ht, hn, hinsert⟩

theorem insertLaterM_eq {m : Type → Type} [Monad m] [LawfulMonad m] (hn : t.slotsAfter? i = some n)
    (new : Statement) (pick : Nat → m Nat) : t.insertLaterM i new pick =
      (t.insertLaterAt i · new) <$> if 1 < n then pick n else pure 0 := by
  simp only [insertLaterM, hn, bind_pure_comp]
  rcases Nat.lt_or_ge 1 n with h | h
  · rw [if_neg (Nat.not_le.2 h), if_pos h]
  · rw [if_pos h, if_neg (Nat.not_lt.2 h)]

/-- A handle can be used behind its declaration. -/
theorem Valid.insertLaterAt {var : String} (ht : t.Valid) (hd : d ∈ bodyNodes t.body)
    (hdeclares : d.declares? = some var) (huses : new.uses? = some var) (hnew : new.id ∉ t.ids)
    (place : Nat) : (t.insertLaterAt d.id place new).Valid := by
  obtain ⟨root, body, rfl, hcovered⟩ := ht.exists_covered
  obtain ⟨_, _, _, body', he, hinsert, hafter⟩ := insertedAfter_insertLaterAt place new _
    (slotsAfter?_isSome _ (List.mem_map.2 ⟨d, hd, rfl⟩))
  obtain ⟨rfl, rfl, rfl⟩ := Statement.block.inj he
  cases new with
  | block => cases huses
  | leaf k action =>
    rw [hinsert]
    have hgains : Gains [.leaf k action] body body' := hafter.inserted.gains
    refine valid_of_covered (hafter.covered (covered_of_uses? huses) (fun s hs hid => .inl ?_)
      hcovered) ?_ ?_
    · have hs' := ht.eq_of_id (mem_nodes_of_body hs) (mem_nodes_of_body hd) hid
      exact hs' ▸ hdeclares
    · refine ((hgains.ids.cons root).trans (List.Perm.swap ..)).nodup_iff.2 ?_
      exact List.nodup_cons.2 ⟨hnew, ht.ids⟩
    · refine (hgains (f := declares?) fun _ _ _ _ => rfl).nodup_iff.2 ?_
      rw [List.filterMap_cons_none (declares?_of_uses? huses)]
      exact ht.declared

/-- Behind a statement there are the places of the rest of its body. A choice among them is asked
for if there are several, and once. Whatever the answer, the new statement comes after the subtree of
the earlier one and can be taken out again, where answers that are too large stand for the end of the
body. Behind the declaration of a handle this is a way to bring in a usage. -/
theorem later_places_are_numbered (hids : t.ids.Nodup) (hd : d ∈ bodyNodes t.body)
    (hnew : new.id ∉ t.ids) :
    ∃ (context : Context) (pre rest : List Statement), t = context.fill (pre ++ d :: rest) ∧
      (∀ {m : Type → Type} [Monad m] [LawfulMonad m] (pick : Nat → m Nat),
        t.insertLaterM d.id new pick = (t.insertLaterAt d.id · new) <$>
          if 1 < bodySlots rest then pick (bodySlots rest) else pure 0) ∧
      (∀ place, (t.insertLaterAt d.id place new).remove new.id = t ∧
        ∃ between, d.nodes ++ between ++ new.nodes <:+: (t.insertLaterAt d.id place new).nodes) ∧
      Set.InjOn (t.insertLaterAt d.id · new) (Set.Iio (bodySlots rest)) ∧
      (∀ place ≥ bodySlots rest,
        t.insertLaterAt d.id place new = context.fill (pre ++ d :: rest ++ [new])) ∧
      (t.validate = .ok () → ∀ var, d.declares? = some var → new.uses? = some var →
        ∀ place, (t.insertLaterAt d.id place new).validate = .ok ()) := by
  obtain ⟨context, pre, rest, ht, hn, hinsert⟩ := exists_rest hids hd
  have hinserted (place : Nat) :
      Inserted new (pre ++ d :: rest) (pre ++ d :: insertIntoBody rest place new) :=
    .append_left pre (.later (inserted_insertIntoBody rest place new))
  refine ⟨context, pre, rest, ht, fun pick => insertLaterM_eq hn new pick, fun place => ⟨?_, ?_⟩,
    fun place hplace place' hplace' h => ?_, fun place hplace => ?_,
    fun hvalid var hdeclares huses place => ?_⟩
  · have hreceives := receives_iff.2 ((hinserted place).fill context)
    rw [hinsert]
    exact (ht ▸ hreceives : Receives new t _).remove hnew
  · rw [hinsert]
    exact (inserted_insertIntoBody rest place new).nodes_behind context pre d
  · have h' := (hinsert place new).symm.trans (h.trans (hinsert place' new))
    have hrest := (List.cons_eq_cons.1 (List.append_cancel_left (context.fill_injective h'))).2
    have hsubset : bodyNodes rest ⊆ t.nodes := fun s hs =>
      ht ▸ (context.bodyNodes_infix pre (d :: rest)).subset (List.mem_append_right _ hs)
    exact insertIntoBody_injOn (fun hmem => hnew (List.map_subset _ hsubset hmem)) hplace hplace' hrest
  · rw [hinsert, insertIntoBody_of_ge hplace, List.append_assoc, List.cons_append]
  · exact validate_eq_ok_iff.2
      ((validate_eq_ok_iff.1 hvalid).insertLaterAt hd hdeclares huses hnew place)

def jobThenLaunch : Statement :=
  .block 0 .coroutineScope [.leaf 1 (.print "A"), .block 2 (.launchJob "job1") [.leaf 3 (.delay 1000)],
    .block 4 .launch [.leaf 5 (.print "B")]]

theorem job_is_joined_behind_its_launch :
    jobThenLaunch.ids.Nodup ∧
      .block 2 (.launchJob "job1") [.leaf 3 (.delay 1000)] ∈ bodyNodes jobThenLaunch.body ∧
      (Statement.leaf 6 (.join "job1")).id ∉ jobThenLaunch.ids ∧
      ∀ place, (jobThenLaunch.insertLaterAt 2 place (.leaf 6 (.join "job1"))).validate = .ok () := by
  have hids : jobThenLaunch.ids.Nodup := by decide
  have hjob : .block 2 (.launchJob "job1") [.leaf 3 (.delay 1000)] ∈ bodyNodes jobThenLaunch.body :=
    .tail _ (.head _)
  have hnew : (Statement.leaf 6 (.join "job1")).id ∉ jobThenLaunch.ids := by decide
  obtain ⟨_, _, _, -, -, -, -, -, hvalid⟩ := later_places_are_numbered hids hjob hnew
  exact ⟨hids, hjob, hnew, hvalid rfl "job1" rfl rfl⟩

end RacePuzzle.Statement
