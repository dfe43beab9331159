import RacePuzzle.Proofs.Program.LaterSlots

/-! What stands in the place of a subtree. A program is listed in pre-order, each statement at its depth; a
splice exchanges one segment of the listing and leaves what is before and behind it alone. -/
namespace RacePuzzle.Statement

variable {d s t : Statement} {i : StatementId} {pre post rest : List Statement}

mutual
/-- The subtree in pre-order: each statement at its depth and without its body. -/
def listing (depth : Nat) : Statement → List (Nat × Statement)
  | .leaf id action => [(depth, .leaf id action)]
  | .block id head body => (depth, .block id head []) :: bodyListing (depth + 1) body
def bodyListing (depth : Nat) : List Statement → List (Nat × Statement)
  | [] => []
  | s :: rest => s.listing depth ++ bodyListing depth rest
end

theorem bodyListing_append (depth : Nat) (body rest : List Statement) :
    bodyListing depth (body ++ rest) = bodyListing depth body ++ bodyListing depth rest := by
  induction body with
  | nil => rfl
  | cons s body ih => simp only [List.cons_append, bodyListing, ih, List.append_assoc]

mutual
theorem map_snd_listing (depth : Nat) : (t : Statement) →
    (t.listing depth).map Prod.snd = t.nodes.map (setBody · [])
  | .leaf .. => rfl
  | .block id head body => congrArg (block id head [] :: ·) (map_snd_bodyListing (depth + 1) body)
theorem map_snd_bodyListing (depth : Nat) : (body : List Statement) →
    (bodyListing depth body).map Prod.snd = (bodyNodes body).map (setBody · [])
  | [] => rfl
  | s :: rest => by
    rw [bodyListing, bodyNodes, List.map_append, List.map_append, map_snd_listing depth s,
      map_snd_bodyListing depth rest]
end

theorem ids_of_listing (t : Statement) : (t.listing 0).map (·.2.id) = t.ids := by
  have hnodes : ((t.listing 0).map Prod.snd).map id = (t.nodes.map (setBody · [])).map id :=
    congrArg _ (map_snd_listing 0 t)
  simpa only [ids, List.map_map, Function.comp_def, id_setBody] using hnodes

theorem length_listing (t : Statement) (depth : Nat) : (t.listing depth).length = t.size := by
  have hlength := congrArg List.length (map_snd_listing depth t)
  rwa [List.length_map, List.length_map, length_nodes] at hlength

mutual
theorem listing_succ (depth : Nat) : (t : Statement) →
    t.listing (depth + 1) = (t.listing depth).map fun row => (row.1 + 1, row.2)
  | .leaf .. => rfl
  | .block id head body =>
    congrArg ((depth + 1, block id head []) :: ·) (bodyListing_succ (depth + 1) body)
/-- A body that stands deeper has the same listing, but for the depths. -/
theorem bodyListing_succ (depth : Nat) : (body : List Statement) →
    bodyListing (depth + 1) body = (bodyListing depth body).map fun row => (row.1 + 1, row.2)
  | [] => rfl
  | s :: rest => by
    rw [bodyListing, bodyListing, List.map_append, listing_succ depth s, bodyListing_succ depth rest]
end

/-- The body that fills a context has a segment of the listing to itself. -/
theorem Context.exists_listing (context : Context) (depth : Nat) :
    ∃ (inside : Nat) (before after : List (Nat × Statement)), ∀ body,
      (context.fill body).listing depth = before ++ bodyListing inside body ++ after := by
  induction context generalizing depth with
  | here id head => exact ⟨depth + 1, [(depth, .block id head [])], [], fun body => by simp [fill, listing]⟩
  | inside id head pre context post ih =>
    obtain ⟨inside, before, after, hlisting⟩ := ih (depth + 1)
    refine ⟨inside, (depth, .block id head []) :: bodyListing (depth + 1) pre ++ before,
      after ++ bodyListing (depth + 1) post, fun body => ?_⟩
    simp only [fill, listing, bodyListing_append, bodyListing, hlisting, List.append_assoc, List.cons_append]

theorem mem_ids_self (s : Statement) : s.id ∈ s.ids := List.mem_map_of_mem (self_mem_nodes s)

theorem id_ne_of_below (hids : t.ids.Nodup) (hd : d ∈ bodyNodes t.body) : t.id ≠ d.id := by
  cases t with
  | leaf => nomatch hd
  | block id head body => exact fun he => (List.nodup_cons.1 hids).1 (he ▸ List.mem_map_of_mem hd)

theorem inlineBlock_eq {head : Head} {body : List Statement} (hids : t.ids.Nodup)
    (hblock : .block i head body ∈ t.nodes) : t.inlineBlock i = t.splice i body := by
  have hget : t.get? i = some (.block i head body) := get?_of_mem hids hblock
  rw [inlineBlock, hget]

/-- Where no id is used twice, those of a statement are not used beside it. -/
theorem not_mem_beside (hids : ((bodyNodes (pre ++ s :: post)).map id).Nodup) (hi : i ∈ s.ids) :
    i ∉ (bodyNodes pre).map id ∧ i ∉ (bodyNodes post).map id := by
  rw [bodyNodes_append, bodyNodes, List.map_append, List.map_append] at hids
  obtain ⟨-, hrest, hpre⟩ := List.nodup_append'.1 hids
  exact ⟨fun hmem => hpre hmem (List.mem_append_left _ hi), (List.nodup_append'.1 hrest).2.2 hi⟩

theorem spliceBody_append (new : List Statement) (hpre : i ∉ (bodyNodes pre).map id) :
    spliceBody i new (pre ++ rest) = pre ++ spliceBody i new rest := by
  induction pre with
  | nil => rfl
  | cons s pre ih =>
    obtain ⟨hs, hinside, hpre⟩ := not_mem_ids_cons.1 hpre
    rw [List.cons_append, spliceBody, if_neg hs, splice_of_not_mem new s hinside, ih hpre,
      List.cons_append]

theorem Context.mem_bodyNodes_fill (context : Context) :
    d ∈ bodyNodes (context.fill (pre ++ d :: rest)).body := by
  induction context with
  | here => exact mem_bodyNodes_of_mem (List.mem_append_right _ List.mem_cons_self)
  | inside id head before context after ih =>
    change d ∈ bodyNodes (before ++ context.fill (pre ++ d :: rest) :: after)
    rw [bodyNodes_append]
    exact List.mem_append_right _ (List.mem_append_left _ (mem_nodes_of_body ih))

/-- What takes the place of a statement has its context. -/
theorem Context.splice_fill (context : Context) (new : List Statement)
    (hids : (context.fill (pre ++ d :: rest)).ids.Nodup) :
    (context.fill (pre ++ d :: rest)).splice d.id new = context.fill (pre ++ new ++ rest) := by
  induction context with
  | here id head =>
    obtain ⟨hpre, hrest⟩ := not_mem_beside (List.nodup_cons.1 hids).2 (mem_ids_self d)
    rw [fill, splice, spliceBody_append new hpre, spliceBody, if_pos rfl,
      spliceBody_of_not_mem [] rest hrest, fill, List.append_assoc]
  | inside id head before context after ih =>
    have hbody := (List.nodup_cons.1 hids).2
    -- the inner program has the id below its root, and the bodies around it have it nowhere
    have hbelow : d ∈ bodyNodes (context.fill (pre ++ d :: rest)).body := context.mem_bodyNodes_fill
    obtain ⟨hbefore, hafter⟩ := not_mem_beside hbody (List.mem_map_of_mem (mem_nodes_of_body hbelow))
    have hinner : (context.fill (pre ++ d :: rest)).ids.Nodup := by
      rw [bodyNodes_append, bodyNodes, List.map_append, List.map_append] at hbody
      exact (List.nodup_append'.1 (List.nodup_append'.1 hbody).2.1).1
    rw [fill, splice, spliceBody_append new hbefore, spliceBody,
      if_neg (id_ne_of_below hinner hbelow), ih hinner,
      spliceBody_of_not_mem new after hafter, fill]

/-- A statement has a segment of the listing, which a splice in its place exchanges for another. -/
theorem exists_segment (hids : t.ids.Nodup) (hd : d ∈ bodyNodes t.body) :
    ∃ (depth : Nat) (before after : List (Nat × Statement)),
      t.listing 0 = before ++ d.listing depth ++ after ∧
      ∀ new, (t.splice d.id new).listing 0 = before ++ bodyListing depth new ++ after := by
  obtain ⟨context, pre, rest, ht, -⟩ := exists_rest hids hd
  obtain ⟨depth, before, after, hlisting⟩ := context.exists_listing 0
  have hfilled (new : List Statement) : (context.fill (pre ++ new ++ rest)).listing 0 =
      before ++ bodyListing depth pre ++ bodyListing depth new ++ (bodyListing depth rest ++ after) := by
    simp only [hlisting, bodyListing_append, List.append_assoc]
  refine ⟨depth, before ++ bodyListing depth pre, bodyListing depth rest ++ after, ?_, fun new => ?_⟩
  · have hself := hfilled [d]
    rwa [List.append_assoc pre, List.singleton_append, ← ht, bodyListing, bodyListing,
      List.append_nil] at hself
  · rw [← hfilled new, ht, context.splice_fill new (ht ▸ hids)]

theorem erase_middle {before after : List StatementId} (hids : (before ++ i :: after).Nodup) :
    (before ++ i :: after).erase i = before ++ after := by
  have hfirst : i ∉ before ++ after := (List.nodup_cons.1 (List.nodup_middle.1 hids)).1
  rw [List.erase_append_right _ fun hmem => hfirst (List.mem_append_left _ hmem),
    List.erase_cons_head]

/-- In a program without double ids, a splice in the place of a statement exchanges the rows of its
subtree for those of the new statements, at the depth where it stood, and leaves what comes before and
behind them alone. So a removal takes away what the subtree counts, and an inlined block is the only
statement to go: what was in it moves up by one, in its order. -/
theorem splice_replaces_subtree (hids : t.ids.Nodup) (hd : d ∈ bodyNodes t.body) :
    ∃ (depth : Nat) (before after : List (Nat × Statement)),
      t.listing 0 = before ++ d.listing depth ++ after ∧
      (∀ new, (t.splice d.id new).listing 0 = before ++ bodyListing depth new ++ after) ∧
      (t.remove d.id).size + d.size = t.size ∧
      (∀ id head body, d = .block id head body →
        d.listing depth = (depth, .block id head []) ::
          ((bodyListing depth body).map fun row => (row.1 + 1, row.2)) ∧
        (t.inlineBlock d.id).listing 0 = before ++ bodyListing depth body ++ after ∧
        (t.inlineBlock d.id).ids = t.ids.erase d.id) := by
  obtain ⟨depth, before, after, hself, hsplice⟩ := exists_segment hids hd
  refine ⟨depth, before, after, hself, hsplice, ?_, ?_⟩
  · have hremove := congrArg List.length (hsplice [])
    have hlength := congrArg List.length hself
    simp only [List.length_append, length_listing, bodyListing, List.length_nil] at hremove hlength
    rw [remove]
    omega
  · rintro id head body rfl
    have hinline : (t.inlineBlock id).listing 0 = before ++ bodyListing depth body ++ after :=
      inlineBlock_eq hids (mem_nodes_of_body hd) ▸ hsplice body
    have hblock : (block id head body).listing depth = (depth, .block id head []) ::
        (bodyListing depth body).map fun row => (row.1 + 1, row.2) := by
      rw [listing, bodyListing_succ]
    refine ⟨hblock, hinline, ?_⟩
    have hids' := congrArg (List.map (·.2.id)) (hblock ▸ hself)
    have hinlined := congrArg (List.map (·.2.id)) hinline
    simp only [ids_of_listing, List.map_append, List.map_cons, List.map_map, Function.comp_def,
      List.append_assoc, List.cons_append] at hids' hinlined
    change (t.inlineBlock id).ids = t.ids.erase id
    rw [hinlined, hids']
    exact (erase_middle (hids' ▸ hids)).symm

def nestedPrints : Statement :=
  .block 0 .coroutineScope [.leaf 1 (.print "A"),
    .block 2 .launch [.leaf 3 (.delay 1000), .leaf 4 (.print "B")], .leaf 5 (.print "C")]

theorem nested_block_is_spliced :
    nestedPrints.ids.Nodup ∧
      .block 2 .launch [.leaf 3 (.delay 1000), .leaf 4 (.print "B")] ∈ bodyNodes nestedPrints.body ∧
      (nestedPrints.remove 2).size + 3 = nestedPrints.size ∧
      (nestedPrints.inlineBlock 2).ids = nestedPrints.ids.erase 2 := by
  have hids : nestedPrints.ids.Nodup := by decide
  have hblock : .block 2 .launch [.leaf 3 (.delay 1000), .leaf 4 (.print "B")] ∈
      bodyNodes nestedPrints.body := .tail _ (.head _)
  obtain ⟨_, _, _, -, -, hsize, hinline⟩ := splice_replaces_subtree hids hblock
  exact ⟨hids, hblock, hsize, (hinline _ _ _ rfl).2.2⟩

end RacePuzzle.Statement
