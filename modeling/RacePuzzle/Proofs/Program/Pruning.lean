import RacePuzzle.Program.Edit
import RacePuzzle.Proofs.Program.Place

/-! What is left of a program when statements go. A body loses statements, blocks give way to what
is in them, launches lose their handles and awaited prints become plain ones; the rest stays as it
is and in its order. -/
namespace RacePuzzle.Statement

/-- `body'` is what is left of `body` when the handles `gone` lose their declarations. New ids are
drawn from `n` on and up to `n'`, and `kept` is true of every statement that is left. -/
inductive Pruned (gone : String → Prop) (kept : Statement → Prop) :
    (n : Nat) → (body body' : List Statement) → (n' : Nat) → Prop
  | nil {n} : Pruned gone kept n [] [] n
  | leaf {n n' id action rest rest'} : kept (.leaf id action) → Pruned gone kept n rest rest' n' →
      Pruned gone kept n (.leaf id action :: rest) (.leaf id action :: rest') n'
  | block {n n₁ n' id head inner inner' rest rest'} : kept (.block id head inner') →
      Pruned gone kept n inner inner' n₁ → Pruned gone kept n₁ rest rest' n' →
      Pruned gone kept n (.block id head inner :: rest) (.block id head inner' :: rest') n'
  /-- An awaited print becomes a plain one. -/
  | print {n n' id var text rest rest'} : kept (.leaf id (.print text)) →
      Pruned gone kept n rest rest' n' →
      Pruned gone kept n (.leaf id (.printAwait var text) :: rest) (.leaf id (.print text) :: rest') n'
  /-- A launch loses its handle. -/
  | launch {n n₁ n' id head inner inner' var rest rest'} : head.declares? = some var → gone var →
      kept (.block n .launch inner') → Pruned gone kept (n + 1) inner inner' n₁ →
      Pruned gone kept n₁ rest rest' n' →
      Pruned gone kept n (.block id head inner :: rest) (.block n .launch inner' :: rest') n'
  | drop {n n' s rest rest'} : (∀ var ∈ s.declares?, gone var) → Pruned gone kept n rest rest' n' →
      Pruned gone kept n (s :: rest) rest' n'
  /-- A block gives way to what is in it. -/
  | inline {n n' id head inner rest rest'} : (∀ var ∈ head.declares?, gone var) →
      Pruned gone kept n (inner ++ rest) rest' n' →
      Pruned gone kept n (.block id head inner :: rest) rest' n'

variable {gone gone' : String → Prop} {kept : Statement → Prop} {n n' : Nat}
  {body body' : List Statement}

theorem bodyNodes_append (body rest : List Statement) :
    bodyNodes (body ++ rest) = bodyNodes body ++ bodyNodes rest := by
  induction body with
  | nil => rfl
  | cons s body ih => simp only [List.cons_append, bodyNodes, ih, List.append_assoc]

theorem Pruned.all_kept (h : Pruned gone kept n body body' n') : ∀ s ∈ bodyNodes body', kept s := by
  induction h with
  | nil => simp [bodyNodes]
  | leaf hk _ ih => simpa [bodyNodes, nodes] using ⟨hk, ih⟩
  | block hk _ _ ih ih' =>
    simp only [bodyNodes, nodes, List.cons_append, List.forall_mem_cons, List.forall_mem_append]
    exact ⟨hk, ih, ih'⟩
  | print hk _ ih => simpa [bodyNodes, nodes] using ⟨hk, ih⟩
  | launch _ _ hk _ _ ih ih' =>
    simp only [bodyNodes, nodes, List.cons_append, List.forall_mem_cons, List.forall_mem_append]
    exact ⟨hk, ih, ih'⟩
  | drop _ _ ih => exact ih
  | inline _ _ ih => exact ih

theorem Pruned.le (h : Pruned gone kept n body body' n') : n ≤ n' := by
  induction h with
  | nil => exact Nat.le_refl _
  | leaf _ _ ih | print _ _ ih | drop _ _ ih | inline _ _ ih => exact ih
  | block _ _ _ ih ih' => exact Nat.le_trans ih ih'
  | launch _ _ _ _ _ ih ih' => exact Nat.le_trans (Nat.le_of_succ_le ih) ih'

theorem Pruned.bodySize_le (h : Pruned gone kept n body body' n') : bodySize body' ≤ bodySize body := by
  induction h with
  | nil => exact Nat.le_refl _
  | leaf _ _ ih | print _ _ ih =>
    simp only [bodySize, size]
    omega
  | block _ _ _ ih ih' | launch _ _ _ _ _ ih ih' =>
    simp only [bodySize, size]
    omega
  | drop _ _ ih =>
    simp only [bodySize]
    omega
  | inline _ _ ih =>
    rw [bodySize_append] at ih
    simp only [bodySize, size]
    omega

/-- What a statement has of its own is kept with it, or goes. -/
structure Steady {α : Type} (f : Statement → Option α) : Prop where
  block : ∀ id head inner inner', f (.block id head inner') = f (.block id head inner)
  print : ∀ id var text, f (.leaf id (.print text)) = none ∨
    f (.leaf id (.print text)) = f (.leaf id (.printAwait var text))
  launch : ∀ id inner, f (.block id .launch inner) = none

theorem Pruned.sublist {α : Type} {f : Statement → Option α} (hf : Steady f)
    (h : Pruned gone kept n body body' n') :
    ((bodyNodes body').filterMap f).Sublist ((bodyNodes body).filterMap f) := by
  have hcons : ∀ {s s' : Statement} {l l' : List Statement}, (f s' = none ∨ f s' = f s) →
      (l'.filterMap f).Sublist (l.filterMap f) →
      ((s' :: l').filterMap f).Sublist ((s :: l).filterMap f) := by
    intro s s' l l' hs hl
    rcases hs with hs | hs
    · rw [List.filterMap_cons_none hs]
      cases hfs : f s with
      | none => exact (List.filterMap_cons_none hfs).symm ▸ hl
      | some a => exact (List.filterMap_cons_some hfs).symm ▸ hl.cons a
    · cases hfs : f s with
      | none =>
        rw [List.filterMap_cons_none hfs, List.filterMap_cons_none (hs.trans hfs)]
        exact hl
      | some a =>
        rw [List.filterMap_cons_some hfs, List.filterMap_cons_some (hs.trans hfs)]
        exact hl.cons_cons a
  induction h with
  | nil => exact .slnil
  | leaf _ _ ih => exact hcons (.inr rfl) ih
  | @block _ _ _ id head inner inner' rest rest' _ _ _ ih ih' =>
    simp only [bodyNodes, nodes, List.cons_append]
    refine hcons (.inr (hf.block id head inner inner')) ?_
    rw [List.filterMap_append, List.filterMap_append]
    exact ih.append ih'
  | print _ _ ih => exact hcons (hf.print ..) ih
  | launch _ _ _ _ _ ih ih' =>
    simp only [bodyNodes, nodes, List.cons_append]
    refine hcons (.inl (hf.launch ..)) ?_
    rw [List.filterMap_append, List.filterMap_append]
    exact ih.append ih'
  | drop _ _ ih =>
    simp only [bodyNodes, List.filterMap_append]
    exact ih.trans (List.sublist_append_right _ _)
  | inline _ _ ih =>
    rw [bodyNodes_append] at ih
    simp only [bodyNodes, nodes, List.cons_append, List.filterMap_cons]
    split
    · exact ih
    · exact ih.cons _

theorem Pruned.id_mem (h : Pruned gone kept n body body' n') {i : Nat}
    (hi : i ∈ (bodyNodes body').map id) : i ∈ (bodyNodes body).map id ∨ n ≤ i ∧ i < n' := by
  induction h with
  | nil => exact .inl hi
  | leaf _ _ ih | print _ _ ih =>
    rcases List.mem_cons.1 hi with rfl | hi
    · exact .inl List.mem_cons_self
    · exact (ih hi).imp_left (List.mem_cons_of_mem _)
  | block _ h h' ih ih' =>
    have := h.le
    have := h'.le
    simp only [bodyNodes, nodes, List.cons_append, List.map_cons, List.map_append, List.mem_cons,
      List.mem_append] at hi ⊢
    rcases hi with hi | hi | hi
    · exact .inl (.inl hi)
    · rcases ih hi with hi | hi
      · exact .inl (.inr (.inl hi))
      · exact .inr ⟨hi.1, by omega⟩
    · rcases ih' hi with hi | hi
      · exact .inl (.inr (.inr hi))
      · exact .inr ⟨by omega, hi.2⟩
  | launch _ _ _ h h' ih ih' =>
    have := h.le
    have := h'.le
    simp only [bodyNodes, nodes, List.cons_append, List.map_cons, List.map_append, List.mem_cons,
      List.mem_append] at hi ⊢
    rcases hi with hi | hi | hi
    · obtain rfl : i = _ := hi
      exact .inr ⟨Nat.le_refl _, by omega⟩
    · rcases ih hi with hi | hi
      · exact .inl (.inr (.inl hi))
      · exact .inr ⟨by omega, by omega⟩
    · rcases ih' hi with hi | hi
      · exact .inl (.inr (.inr hi))
      · exact .inr ⟨by omega, hi.2⟩
  | drop _ _ ih =>
    refine (ih hi).imp_left fun hi => ?_
    simp only [bodyNodes, List.map_append, List.mem_append]
    exact .inr hi
  | inline _ _ ih =>
    refine (ih hi).imp_left fun hi => ?_
    rw [bodyNodes_append] at hi
    exact List.mem_cons_of_mem _ hi

/-- No statement has an id from `n` on. -/
def Unused (n : Nat) (body : List Statement) : Prop :=
  ∀ i ∈ (bodyNodes body).map id, i < n

theorem Unused.mono {n n' : Nat} (h : Unused n body) (hle : n ≤ n') : Unused n' body :=
  fun i hi => Nat.lt_of_lt_of_le (h i hi) hle

theorem unused_append {body rest : List Statement} :
    Unused n (body ++ rest) ↔ Unused n body ∧ Unused n rest := by
  simp only [Unused, bodyNodes_append, List.map_append, List.mem_append, or_imp, forall_and]

theorem unused_block {i : Nat} {head : Head} {inner rest : List Statement} :
    Unused n (.block i head inner :: rest) ↔ i < n ∧ Unused n inner ∧ Unused n rest := by
  simp only [Unused, bodyNodes, nodes, List.cons_append, List.map_cons, List.map_append,
    List.mem_cons, List.mem_append, or_imp, forall_and, forall_eq]
  rfl

theorem nodup_block {i : Nat} {head : Head} {inner rest : List Statement} :
    ((bodyNodes (.block i head inner :: rest)).map id).Nodup ↔
      (i ∉ (bodyNodes inner).map id ∧ i ∉ (bodyNodes rest).map id) ∧
        ((bodyNodes inner).map id).Nodup ∧ ((bodyNodes rest).map id).Nodup ∧
        ((bodyNodes inner).map id).Disjoint ((bodyNodes rest).map id) := by
  simp only [bodyNodes, nodes, List.cons_append, List.map_cons, List.map_append, List.nodup_cons,
    List.nodup_append', List.mem_append, not_or]
  rfl

theorem Pruned.unused (h : Pruned gone kept n body body' n') (hn : Unused n body) :
    Unused n' body' := fun _ hi =>
  (h.id_mem hi).elim (fun hi => Nat.lt_of_lt_of_le (hn _ hi) h.le) And.right

theorem Pruned.not_mem (h : Pruned gone kept n body body' n') {i : Nat}
    (hi : i ∉ (bodyNodes body).map id) (hlt : i < n) : i ∉ (bodyNodes body').map id := fun hmem =>
  (h.id_mem hmem).elim hi fun hnew => Nat.not_lt_of_le hnew.1 hlt

/-- Parts of a program that have no id in common have none in common afterwards. -/
theorem Pruned.disjoint {n₁ : Nat} {rest rest' : List Statement}
    (h : Pruned gone kept n body body' n₁) (h' : Pruned gone kept n₁ rest rest' n')
    (hn : Unused n body) (hn' : Unused n rest)
    (hd : ((bodyNodes body).map id).Disjoint ((bodyNodes rest).map id)) :
    ((bodyNodes body').map id).Disjoint ((bodyNodes rest').map id) := fun i hi hi' => by
  have hle := h.le
  rcases h.id_mem hi with hi | hi <;> rcases h'.id_mem hi' with hi' | hi'
  · exact hd hi hi'
  · exact absurd (hn i hi) (Nat.not_lt_of_le (Nat.le_trans hle hi'.1))
  · exact absurd (hn' i hi') (Nat.not_lt_of_le hi.1)
  · exact absurd hi.2 (Nat.not_lt_of_le hi'.1)

theorem Pruned.nodup (h : Pruned gone kept n body body' n') (hn : Unused n body)
    (hids : ((bodyNodes body).map id).Nodup) : ((bodyNodes body').map id).Nodup := by
  induction h with
  | nil => exact hids
  | leaf _ h ih | print _ h ih =>
    obtain ⟨hnot, hrest⟩ := List.nodup_cons.1 hids
    exact List.nodup_cons.2 ⟨h.not_mem hnot (hn _ List.mem_cons_self),
      ih (fun j hj => hn j (List.mem_cons_of_mem _ hj)) hrest⟩
  | block _ h h' ih ih' =>
    obtain ⟨⟨hinner, hrest⟩, hids₁, hids₂, hdisjoint⟩ := nodup_block.1 hids
    obtain ⟨hi, hn₁, hn₂⟩ := unused_block.1 hn
    exact nodup_block.2 ⟨⟨h.not_mem hinner hi, h'.not_mem hrest (Nat.lt_of_lt_of_le hi h.le)⟩,
      ih hn₁ hids₁, ih' (hn₂.mono h.le) hids₂, h.disjoint h' hn₁ hn₂ hdisjoint⟩
  | @launch n _ _ _ _ _ _ _ _ _ _ _ _ h h' ih ih' =>
    obtain ⟨-, hids₁, hids₂, hdisjoint⟩ := nodup_block.1 hids
    obtain ⟨-, hn₁, hn₂⟩ := unused_block.1 hn
    have hle : n ≤ n + 1 := Nat.le_succ n
    have hn₂' := hn₂.mono (Nat.le_trans hle h.le)
    refine nodup_block.2 ⟨⟨fun hi => ?_, fun hi => ?_⟩, ih (hn₁.mono hle) hids₁, ih' hn₂' hids₂,
      h.disjoint h' (hn₁.mono hle) (hn₂.mono hle) hdisjoint⟩
    · exact (h.id_mem hi).elim (fun hi => Nat.lt_irrefl _ (hn₁ _ hi))
        fun hnew => Nat.not_succ_le_self _ hnew.1
    · exact (h'.id_mem hi).elim (fun hi => Nat.lt_irrefl _ (hn₂ _ hi))
        fun hnew => Nat.not_succ_le_self _ (Nat.le_trans h.le hnew.1)
  | @drop _ _ s rest _ _ _ ih =>
    have hn : Unused _ ([s] ++ rest) := hn
    simp only [bodyNodes, List.map_append] at hids
    exact ih (unused_append.1 hn).2 (List.nodup_append'.1 hids).2.1
  | inline _ _ ih =>
    rw [Unused, bodyNodes_append] at ih
    exact ih (fun j hj => hn j (List.mem_cons_of_mem _ hj)) (List.nodup_cons.1 hids).2

mutual
/-- Every usage in the subtree is of one of the handles or of one that is declared before it. -/
def Covered (vars : String → Prop) : Statement → Prop
  | .leaf _ action => ∀ var ∈ action.uses?, vars var
  | .block _ _ body => BodyCovered vars body
def BodyCovered (vars : String → Prop) : List Statement → Prop
  | [] => True
  | s :: rest => s.Covered vars ∧ BodyCovered (fun var => vars var ∨ s.declares? = some var) rest
end

mutual
theorem unbound?_eq_none_iff (visible : Std.TreeSet String) :
    (s : Statement) → (s.unbound? visible = none ↔ s.Covered (· ∈ visible))
  | .leaf _ action => by
    simp only [unbound?, Covered]
    cases action.uses? <;> simp
  | .block _ _ body => bodyUnbound?_eq_none_iff visible body
theorem bodyUnbound?_eq_none_iff (visible : Std.TreeSet String) :
    (body : List Statement) → (bodyUnbound? visible body = none ↔ BodyCovered (· ∈ visible) body)
  | [] => by simp [bodyUnbound?, BodyCovered]
  | s :: rest => by
    have hs := unbound?_eq_none_iff visible s
    have hrest := bodyUnbound?_eq_none_iff (s.declares?.elim visible visible.insert) rest
    have hvars : (fun var => var ∈ s.declares?.elim visible visible.insert) =
        fun var => var ∈ visible ∨ s.declares? = some var := by
      funext var
      cases s.declares? <;> simp [or_comm]
    rw [bodyUnbound?, BodyCovered, ← hs, ← hvars, ← hrest]
    cases s.unbound? visible <;> simp
end

mutual
theorem Covered.mono {vars vars' : String → Prop} (hsub : ∀ var, vars var → vars' var) :
    {s : Statement} → s.Covered vars → s.Covered vars'
  | .leaf .., h => fun var hvar => hsub var (h var hvar)
  | .block _ _ body, h => BodyCovered.mono hsub (h : BodyCovered _ body)
theorem BodyCovered.mono {vars vars' : String → Prop} (hsub : ∀ var, vars var → vars' var) :
    {body : List Statement} → BodyCovered vars body → BodyCovered vars' body
  | [], _ => trivial
  | _ :: _, h => ⟨Covered.mono hsub h.1, BodyCovered.mono (fun var => Or.imp_left (hsub var)) h.2⟩
end

theorem Valid.exists_covered {t : Statement} (ht : t.Valid) :
    ∃ root body, t = .block root .coroutineScope body ∧ BodyCovered (fun _ => False) body := by
  obtain ⟨root, body, he, hbound⟩ := ht.root
  refine ⟨root, body, he, ((bodyUnbound?_eq_none_iff ∅ body).1 hbound).mono fun var hvar => ?_⟩
  simp at hvar

theorem valid_of_covered {root : StatementId} {body : List Statement}
    (hcovered : BodyCovered (fun _ => False) body)
    (hids : (root :: (bodyNodes body).map id).Nodup)
    (hdeclared : ((bodyNodes body).filterMap declares?).Nodup) :
    (Statement.block root .coroutineScope body).Valid :=
  ⟨⟨root, body, rfl, (bodyUnbound?_eq_none_iff ∅ body).2 (hcovered.mono fun _ => False.elim)⟩, hids,
    hdeclared⟩

theorem declares?_of_uses? {s : Statement} {var : String} (h : s.uses? = some var) :
    s.declares? = none := by
  cases s with
  | block => cases h
  | leaf _ action => cases action <;> first | rfl | cases h

theorem BodyCovered.append {vars : String → Prop} {body rest : List Statement}
    (h : BodyCovered vars body) (h' : BodyCovered vars rest) : BodyCovered vars (body ++ rest) := by
  induction body generalizing vars with
  | nil => exact h'
  | cons s body ih => exact ⟨h.1, ih h.2 (h'.mono fun _ => Or.inl)⟩

mutual
theorem Covered.declared {vars : String → Prop} : {s : Statement} → s.Covered vars →
    ∀ s' ∈ s.nodes, ∀ var ∈ s'.uses?, vars var ∨ var ∈ s.nodes.filterMap declares?
  | .leaf .., h, s', hs, var, hvar => by
    obtain rfl := List.mem_singleton.1 hs
    exact .inl (h var hvar)
  | .block _ _ body, h, s', hs, var, hvar => by
    rcases List.mem_cons.1 hs with rfl | hs
    · cases hvar
    · refine (BodyCovered.declared h s' hs var hvar).imp_right fun hd => ?_
      obtain ⟨d, hd, hvar⟩ := List.mem_filterMap.1 hd
      exact List.mem_filterMap.2 ⟨d, List.mem_cons_of_mem _ hd, hvar⟩
theorem BodyCovered.declared {vars : String → Prop} : {body : List Statement} →
    BodyCovered vars body → ∀ s ∈ bodyNodes body, ∀ var ∈ s.uses?,
      vars var ∨ var ∈ (bodyNodes body).filterMap declares?
  | s :: rest, h, s', hs, var, hvar => by
    simp only [bodyNodes, List.filterMap_append, List.mem_append] at hs ⊢
    rcases hs with hs | hs
    · exact (h.1.declared s' hs var hvar).imp_right .inl
    · rcases BodyCovered.declared h.2 s' hs var hvar with (hv | hd) | hd
      · exact .inl hv
      · exact .inr (.inl (List.mem_filterMap.2 ⟨s, self_mem_nodes s, hd⟩))
      · exact .inr (.inr hd)
end

/-- What is left is covered by what covered the body, as long as the handles that are gone count as
declared. -/
theorem Pruned.covered (h : Pruned gone kept n body body' n') {vars : String → Prop}
    (hgone : ∀ var, gone var → vars var) (hc : BodyCovered vars body) : BodyCovered vars body' := by
  induction h generalizing vars with
  | nil => trivial
  | leaf _ _ ih => exact ⟨hc.1, ih (fun var hv => .inl (hgone var hv)) hc.2⟩
  | block _ _ _ ih ih' =>
    exact ⟨ih hgone hc.1, ih' (fun var hv => .inl (hgone var hv)) hc.2⟩
  | print _ _ ih =>
    exact ⟨fun var hvar => (nomatch hvar), ih (fun var hv => .inl (hgone var hv)) hc.2⟩
  | launch hd hg _ _ _ ih ih' =>
    refine ⟨ih hgone hc.1, ih' (fun var hv => .inl (hgone var hv)) (hc.2.mono fun var hv => ?_)⟩
    rcases hv with hv | hv
    · exact .inl hv
    · obtain rfl := Option.some.inj (hd.symm.trans hv)
      exact .inl (hgone _ hg)
  | drop hg _ ih =>
    exact ih hgone (hc.2.mono fun var hv => hv.elim (fun h => h) fun hd => hgone var (hg var hd))
  | inline hg _ ih =>
    refine ih hgone (BodyCovered.append hc.1 (hc.2.mono fun var hv => ?_))
    exact hv.elim (fun h => h) fun hd => hgone var (hg var hd)

mutual
theorem Covered.of_unused {vars gone : String → Prop} :
    {s : Statement} → s.Covered (fun var => vars var ∨ gone var) →
      (∀ s' ∈ s.nodes, ∀ var ∈ s'.uses?, ¬ gone var) → s.Covered vars
  | .leaf .., h, hu => fun var hvar =>
    (h var hvar).resolve_right (hu _ (List.mem_singleton_self _) var hvar)
  | .block _ _ body, h, hu =>
    BodyCovered.of_unused (h : BodyCovered _ body) fun s hs => hu s (List.mem_cons_of_mem _ hs)
/-- Handles that no statement uses need not be declared. -/
theorem BodyCovered.of_unused {vars gone : String → Prop} :
    {body : List Statement} → BodyCovered (fun var => vars var ∨ gone var) body →
      (∀ s ∈ bodyNodes body, ∀ var ∈ s.uses?, ¬ gone var) → BodyCovered vars body
  | [], _, _ => trivial
  | _ :: _, h, hu =>
    ⟨h.1.of_unused fun s hs => hu s (List.mem_append_left _ hs),
      BodyCovered.of_unused (h.2.mono fun _ => or_right_comm.1)
        fun s hs => hu s (List.mem_append_right _ hs)⟩
end

inductive Prunes (gone : String → Prop) (kept : Statement → Prop) (n : Nat) :
    Statement → Edit → Nat → Prop
  | leaf {id action} : kept (.leaf id action) →
      Prunes gone kept n (.leaf id action) (.replace (.leaf id action)) n
  | block {id head inner} : (∀ inner', kept (.block id head inner')) →
      Prunes gone kept n (.block id head inner) (.descend id head) n
  | print {id var text} : kept (.leaf id (.print text)) →
      Prunes gone kept n (.leaf id (.printAwait var text)) (.replace (.leaf id (.print text))) n
  | launch {id head inner var} : head.declares? = some var → gone var →
      (∀ inner', kept (.block n .launch inner')) →
      Prunes gone kept n (.block id head inner) (.descend n .launch) (n + 1)
  | drop {s} : (∀ var ∈ s.declares?, gone var) → Prunes gone kept n s .drop n

mutual
theorem pruned_editNodeM {f : Statement → Fresh Edit} : (s : Statement) →
    (∀ s' ∈ s.nodes, ∀ n, Prunes gone kept n s' (f s' n).1 (f s' n).2) →
    (n : Nat) → {n' : Nat} → {rest rest' : List Statement} →
      Pruned gone kept (editNodeM f s n).2 rest rest' n' →
      Pruned gone kept n (s :: rest) ((editNodeM f s n).1.toList ++ rest') n'
  | .leaf id action, hf, n, _, _, _, h => by
    have hs := hf (.leaf id action) (List.mem_singleton_self _) n
    simp only [editNodeM, bind, StateT.bind] at h ⊢
    generalize f (.leaf id action) n = r at hs h
    obtain ⟨e, n₁⟩ := r
    cases hs with
    | leaf hk => exact .leaf hk h
    | print hk => exact .print hk h
    | drop hg => exact .drop hg h
  | .block id head body, hf, n, _, _, _, h => by
    have hs := hf (.block id head body) List.mem_cons_self n
    have hbody := pruned_editBodyM body fun s hs => hf s (List.mem_cons_of_mem _ hs)
    simp only [editNodeM, bind, StateT.bind] at h ⊢
    generalize f (.block id head body) n = r at hs h
    obtain ⟨e, n₁⟩ := r
    cases hs with
    | block hk => exact .block (hk _) (hbody _) h
    | launch hd hg hk => exact .launch hd hg (hk _) (hbody _) h
    | drop hg => exact .drop hg h
theorem pruned_editBodyM {f : Statement → Fresh Edit} : (body : List Statement) →
    (∀ s' ∈ bodyNodes body, ∀ n, Prunes gone kept n s' (f s' n).1 (f s' n).2) →
    (n : Nat) → Pruned gone kept n body (editBodyM f body n).1 (editBodyM f body n).2
  | [], _, _ => .nil
  | s :: rest, hf, n =>
    pruned_editNodeM s (fun s' hs => hf s' (List.mem_append_left _ hs)) n
      (pruned_editBodyM rest (fun s' hs => hf s' (List.mem_append_right _ hs)) _)
end

mutual
theorem editNodeM_keep {f : Statement → Fresh Edit} : (s : Statement) →
    (∀ d ∈ s.nodes, f d = pure (.keep d)) → (n : Nat) → editNodeM f s n = (some s, n)
  | .leaf id action, h, n => by
    simp only [editNodeM, h _ (List.mem_singleton_self _)]
    rfl
  | .block id head body, h, n => by
    have hbody := editBodyM_keep body (fun d hd => h d (List.mem_cons_of_mem _ hd)) n
    simp only [editNodeM, h _ List.mem_cons_self]
    exact congrArg (fun r : List Statement × Nat => (some (Statement.block id head r.1), r.2)) hbody
/-- An edit that keeps every statement changes nothing and draws no id. -/
theorem editBodyM_keep {f : Statement → Fresh Edit} : (body : List Statement) →
    (∀ d ∈ bodyNodes body, f d = pure (.keep d)) → (n : Nat) → editBodyM f body n = (body, n)
  | [], _, _ => rfl
  | s :: rest, h, n => by
    have hs := editNodeM_keep s (fun d hd => h d (List.mem_append_left _ hd)) n
    have hrest := editBodyM_keep rest (fun d hd => h d (List.mem_append_right _ hd)) n
    simp only [editBodyM, bind, StateT.bind, hs, hrest]
    rfl
end

mutual
theorem editNodeM_pure (f : Statement → Edit) : (s : Statement) → (n : Nat) →
    editNodeM (m := Fresh) (fun s => pure (f s)) s n = (editNodeM (m := Id) (fun s => pure (f s)) s, n)
  | .leaf id action, n => by
    simp only [editNodeM]
    cases f (.leaf id action) <;> rfl
  | .block id head body, n => by
    have hbody := editBodyM_pure f body n
    simp only [editNodeM]
    cases f (.block id head body) with
    | descend id' head' =>
      exact congrArg (fun r : List Statement × Nat => (some (Statement.block id' head' r.1), r.2)) hbody
    | _ => rfl
theorem editBodyM_pure (f : Statement → Edit) : (body : List Statement) → (n : Nat) →
    editBodyM (m := Fresh) (fun s => pure (f s)) body n =
      (editBodyM (m := Id) (fun s => pure (f s)) body, n)
  | [], _ => rfl
  | s :: rest, n => by
    have hs := editNodeM_pure f s n
    have hrest := editBodyM_pure f rest n
    simp only [editBodyM, bind, StateT.bind, hs, hrest]
    rfl
end

theorem pruned_edit {f : Statement → Edit} (hf : ∀ s n, Prunes gone kept n s (f s) n)
    (t : Statement) (n : Nat) : Pruned gone kept n t.body (t.edit f).body n ∧
      t.edit f = t.setBody (t.edit f).body := by
  have hbody := pruned_editBodyM (f := fun s => pure (f s)) t.body (fun s _ n => hf s n) n
  rw [editBodyM_pure] at hbody
  cases t with
  | leaf id action => exact ⟨.nil, rfl⟩
  | block id head body => exact ⟨hbody, rfl⟩

theorem Pruned.refl (hk : ∀ s, kept s) (n : Nat) :
    (body : List Statement) → Pruned gone kept n body body n
  | [] => .nil
  | .leaf _ _ :: rest => .leaf (hk _) (.refl hk n rest)
  | .block _ _ inner :: rest => .block (hk _) (.refl hk n inner) (.refl hk n rest)

theorem Pruned.append_left (hk : ∀ s, kept s) {rest rest' : List Statement}
    (h : Pruned gone kept n rest rest' n') :
    (body : List Statement) → Pruned gone kept n (body ++ rest) (body ++ rest') n'
  | [] => h
  | .leaf _ _ :: body => .leaf (hk _) (h.append_left hk body)
  | .block _ _ inner :: body => .block (hk _) (.refl hk n inner) (h.append_left hk body)

/-- Statements with the id go. -/
theorem pruned_spliceBody_nil (i : StatementId) (n : Nat) : (body : List Statement) →
    (∀ s ∈ bodyNodes body, s.id = i → ∀ var ∈ s.declares?, gone var) →
    Pruned gone (fun _ => True) n body (spliceBody i [] body) n
  | [], _ => .nil
  | .leaf j action :: rest, h => by
    have hrest := pruned_spliceBody_nil i n rest fun s hs => h s (List.mem_append_right _ hs)
    rw [spliceBody]
    split
    · next hi => exact .drop (h _ List.mem_cons_self hi) hrest
    · exact .leaf trivial hrest
  | .block j head inner :: rest, h => by
    have hrest := pruned_spliceBody_nil i n rest fun s hs => h s (List.mem_append_right _ hs)
    rw [spliceBody]
    split
    · next hi => exact .drop (h _ List.mem_cons_self hi) hrest
    · exact .block trivial (pruned_spliceBody_nil i n inner fun s hs =>
        h s (List.mem_cons_of_mem _ (List.mem_append_left _ hs))) hrest

/-- The block with the id gives way to what is in it. -/
theorem pruned_spliceBody (i : StatementId) (n : Nat) (new : List Statement) :
    (body : List Statement) →
    (∀ s ∈ bodyNodes body, s.id = i →
      ∃ j head, s = .block j head new ∧ ∀ var ∈ head.declares?, gone var) →
    Pruned gone (fun _ => True) n body (spliceBody i new body) n
  | [], _ => .nil
  | .leaf j action :: rest, h => by
    have hrest := pruned_spliceBody i n new rest fun s hs => h s (List.mem_append_right _ hs)
    rw [spliceBody]
    split
    · next hi =>
      obtain ⟨_, _, hblock, -⟩ := h _ List.mem_cons_self hi
      cases hblock
    · exact .leaf trivial hrest
  | .block j head inner :: rest, h => by
    rw [spliceBody]
    split
    · next hi =>
      obtain ⟨_, _, hblock, hg⟩ := h _ List.mem_cons_self hi
      cases hblock
      refine .inline hg (.append_left (fun _ => trivial)
        (pruned_spliceBody_nil i n rest fun s hs hj => ?_) _)
      obtain ⟨_, _, rfl, hg⟩ := h s (List.mem_append_right _ hs) hj
      exact hg
    · exact .block trivial (pruned_spliceBody i n new inner fun s hs =>
        h s (List.mem_cons_of_mem _ (List.mem_append_left _ hs)))
        (pruned_spliceBody i n new rest fun s hs => h s (List.mem_append_right _ hs))

end RacePuzzle.Statement
