import RacePuzzle.Proofs.Simplification.Reductions
import RacePuzzle.Proofs.Simplification.Slimming

/-! The reconciliation of usages. It asks nobody whether the evaluation stays the same, and need not:
for any program at all, valid or not, only usages of handles that are never bound go, and handles that
are never looked up. What is left declares what it uses and uses what it declares, so that a second
reconciliation finds nothing to do. -/
namespace RacePuzzle.Statement

variable {g : Statement → Option String} {p : String → Bool} {vars : HandleNames} {t : Statement}

/-- Of what statements have of their own by `g`, an edit leaves what passes `p`. -/
inductive Sifts (g : Statement → Option String) (p : String → Bool) : Statement → Edit → Prop
  | drop {id action} : (g (.leaf id action)).filter p = none → Sifts g p (.leaf id action) .drop
  | leaf {id action action'} : g (.leaf id action') = (g (.leaf id action)).filter p →
      Sifts g p (.leaf id action) (.replace (.leaf id action'))
  | block {id id' head head' inner} :
      (∀ inner', g (.block id' head' inner') = (g (.block id head inner)).filter p) →
      Sifts g p (.block id head inner) (.descend id' head')

theorem filterMap_cons_eq (s : Statement) (l : List Statement) :
    (s :: l).filterMap g = (g s).toList ++ l.filterMap g := by
  cases hs : g s <;> simp [hs]

mutual
theorem sifts_editNodeM {f : Statement → Fresh Edit} : (s : Statement) →
    (∀ s' ∈ s.nodes, ∀ n, Sifts g p s' (f s' n).1) → (n : Nat) →
    (bodyNodes (editNodeM f s n).1.toList).filterMap g = (s.nodes.filterMap g).filter p
  | .leaf id action, hf, n => by
    have hs := hf (.leaf id action) (List.mem_singleton_self _) n
    simp only [editNodeM, bind, StateT.bind]
    rw [nodes, filterMap_cons_eq, List.filter_append, ← Option.toList_filter]
    generalize f (.leaf id action) n = r at hs
    obtain ⟨e, n₁⟩ := r
    cases hs with
    | drop hg =>
      rw [hg]
      rfl
    | leaf hg =>
      rw [← hg]
      exact filterMap_cons_eq _ []
  | .block id head body, hf, n => by
    have hs := hf (.block id head body) List.mem_cons_self n
    have hbody := sifts_editBodyM body fun s hs => hf s (List.mem_cons_of_mem _ hs)
    simp only [editNodeM, bind, StateT.bind]
    rw [nodes, filterMap_cons_eq, List.filter_append, ← Option.toList_filter]
    generalize f (.block id head body) n = r at hs
    obtain ⟨e, n₁⟩ := r
    cases hs with
    | block hg =>
      rw [← hg (editBodyM f body n₁).1, ← hbody n₁, ← filterMap_cons_eq]
      exact congrArg (List.filterMap g) (List.append_nil _)
/-- An edit of a body sifts what the whole body has. -/
theorem sifts_editBodyM {f : Statement → Fresh Edit} : (body : List Statement) →
    (∀ s' ∈ bodyNodes body, ∀ n, Sifts g p s' (f s' n).1) → (n : Nat) →
    (bodyNodes (editBodyM f body n).1).filterMap g = ((bodyNodes body).filterMap g).filter p
  | [], _, _ => rfl
  | s :: rest, hf, n => by
    have hs := sifts_editNodeM s (fun s' hs => hf s' (List.mem_append_left _ hs)) n
    have hrest := sifts_editBodyM rest (fun s' hs => hf s' (List.mem_append_right _ hs))
      (editNodeM f s n).2
    rw [bodyNodes, List.filterMap_append, List.filter_append, ← hs, ← hrest, ← List.filterMap_append,
      ← bodyNodes_append]
    rfl
end

theorem filter_eq_self {o : Option String} {vars : List String} (h : ∀ var ∈ o, var ∈ vars) :
    o.filter (· ∈ vars) = o := by
  cases o with
  | none => rfl
  | some var => exact Option.filter_some_pos (decide_eq_true (h var rfl))

theorem sifts_declares? (declared used : List String) (s : Statement) (n : Nat) :
    Sifts declares? (· ∈ used) s (reconcile declared used s n).1 := by
  rcases reconcile_cases declared used s n with
    ⟨var, hvar, -, he⟩ | ⟨var, hvar, hnot, he⟩ | ⟨-, hdeclares, he⟩
  · have hnone := declares?_of_uses? hvar
    rw [he]
    cases s with
    | block => cases hvar
    | leaf id action =>
      have hgone : (Statement.leaf id action).declares?.filter (· ∈ used) = none := by
        rw [hnone]
        rfl
      cases action with
      | printAwait v text => exact .leaf rfl
      | _ => exact .drop hgone
  · have hgone : s.declares?.filter (· ∈ used) = none := by simp [hvar, hnot]
    rw [he]
    cases s with
    | leaf id action => exact .drop hgone
    | block id head body => exact .block fun _ => hgone.symm
  · have hstays := (filter_eq_self hdeclares).symm
    rw [he]
    cases s with
    | leaf id action => exact .leaf hstays
    | block id head body => exact .block fun _ => hstays

theorem sifts_uses? (declared used : List String) (s : Statement) (n : Nat) :
    Sifts uses? (· ∈ declared) s (reconcile declared used s n).1 := by
  rcases reconcile_cases declared used s n with
    ⟨var, hvar, hnot, he⟩ | ⟨var, hvar, -, he⟩ | ⟨huses, -, he⟩
  · have hgone : s.uses?.filter (· ∈ declared) = none := by simp [hvar, hnot]
    rw [he]
    cases s with
    | block => cases hvar
    | leaf id action =>
      cases action with
      | printAwait v text => exact .leaf hgone.symm
      | _ => exact .drop hgone
  · rw [he]
    cases s with
    | leaf id action =>
      cases action with
      | job => exact .drop rfl
      | _ => cases hvar
    | block id head body => exact .block fun _ => rfl
  · have hstays := (filter_eq_self huses).symm
    rw [he]
    cases s with
    | leaf id action => exact .leaf hstays
    | block id head body => exact .block fun _ => rfl

/-- Below the root, what is used is declared and what is declared is used. -/
structure Reconciled (t : Statement) : Prop where
  declared : ∀ s ∈ bodyNodes t.body, ∀ var ∈ s.uses?, var ∈ t.declared
  used : ∀ s ∈ bodyNodes t.body, ∀ var ∈ s.declares?, var ∈ t.used

/-- A handle that is declared and used keeps both its declarations and its usages. -/
theorem reconciled_reconcileUsages (t : Statement) (n : Nat) : (t.reconcileUsages n).1.Reconciled := by
  cases t with
  | leaf => exact ⟨nofun, nofun⟩
  | block id head body =>
    let whole := block id head body
    let left := (editBodyM (reconcile whole.declared whole.used) body n).1
    have hdeclares : (bodyNodes left).filterMap declares? =
        ((bodyNodes body).filterMap declares?).filter (· ∈ whole.used) :=
      sifts_editBodyM body (fun s _ => sifts_declares? whole.declared whole.used s) n
    have huses : (bodyNodes left).filterMap uses? =
        ((bodyNodes body).filterMap uses?).filter (· ∈ whole.declared) :=
      sifts_editBodyM body (fun s _ => sifts_uses? whole.declared whole.used s) n
    have hsplit (body : List Statement) : (block id head body).declared =
        head.declares?.toList ++ (bodyNodes body).filterMap declares? := filterMap_cons_eq _ _
    have hused (body : List Statement) : (block id head body).used =
        (bodyNodes body).filterMap uses? := filterMap_cons_eq _ _
    change (block id head left).Reconciled
    constructor
    · intro s hs var hvar
      have hmem : var ∈ (bodyNodes left).filterMap uses? := List.mem_filterMap.2 ⟨s, hs, hvar⟩
      rw [huses, List.mem_filter, decide_eq_true_eq, ← hused body] at hmem
      obtain ⟨hvar, hdeclared⟩ := hmem
      rw [hsplit left, hdeclares, List.mem_append, List.mem_filter, decide_eq_true_eq]
      rw [hsplit body, List.mem_append] at hdeclared
      exact hdeclared.imp_right fun h => ⟨h, hvar⟩
    · intro s hs var hvar
      have hmem : var ∈ (bodyNodes left).filterMap declares? := List.mem_filterMap.2 ⟨s, hs, hvar⟩
      rw [hdeclares, List.mem_filter, decide_eq_true_eq] at hmem
      obtain ⟨hdeclared, hvar⟩ := hmem
      rw [hused left, huses, List.mem_filter, decide_eq_true_eq, ← hused body, hsplit body,
        List.mem_append]
      exact ⟨hvar, .inr hdeclared⟩

/-- Where usages are reconciled nothing is to be done. -/
theorem Reconciled.reconcileUsages_eq_self (h : t.Reconciled) (n : Nat) :
    t.reconcileUsages n = (t, n) := by
  have hkeep : ∀ s ∈ bodyNodes t.body, reconcile t.declared t.used s = pure (.keep s) := fun s hs => by
    funext k
    rcases reconcile_cases t.declared t.used s k with
      ⟨var, hvar, hnot, -⟩ | ⟨var, hvar, hnot, -⟩ | ⟨-, -, he⟩
    · exact absurd (h.declared s hs var hvar) hnot
    · exact absurd (h.used s hs var hvar) hnot
    · exact he
  have hbody := editBodyM_keep t.body hkeep n
  rw [reconcileUsages_eq]
  refine (congrArg (fun r : List Statement × Nat => (t.setBody r.1, r.2)) hbody).trans ?_
  rw [setBody_body]

mutual
theorem slimmed_editNodeM : (s : Statement) → (∀ s' ∈ s.nodes, ∀ var ∈ s'.declares?, var ∈ vars.declared) →
    (∀ s' ∈ s.nodes, ∀ var ∈ s'.uses?, var ∈ vars.used) → (n : Nat) →
    {rest rest' : List Statement} → Slimmed vars rest rest' →
      Slimmed vars (s :: rest) ((editNodeM (reconcile vars.declared vars.used) s n).1.toList ++ rest')
  | .leaf id action, hdeclared, hused, n, _, _, h => by
    have hd := hdeclared (.leaf id action) (List.mem_singleton_self _)
    have hu := hused (.leaf id action) (List.mem_singleton_self _)
    simp only [editNodeM, bind, StateT.bind]
    rcases reconcile_cases vars.declared vars.used (.leaf id action) n with
      ⟨var, hvar, hnot, he⟩ | ⟨var, hvar, hnot, he⟩ | ⟨-, -, he⟩
    · rw [he]
      cases action with
      | printAwait v text =>
        obtain rfl : v = var := Option.some.inj hvar
        exact .print hnot h
      | join | cancel | completeJob => exact .unbound hvar hnot rfl h
      | _ => cases hvar
    · rw [he]
      cases action with
      | job v =>
        obtain rfl : v = var := Option.some.inj hvar
        exact .drop (hd v rfl) hnot h
      | _ => cases hvar
    · rw [he]
      exact .leaf hd hu h
  | .block id head body, hdeclared, hused, n, _, _, h => by
    have hd := hdeclared (.block id head body) List.mem_cons_self
    have hbody := slimmed_editBodyM body (fun s hs => hdeclared s (List.mem_cons_of_mem _ hs))
      fun s hs => hused s (List.mem_cons_of_mem _ hs)
    simp only [editNodeM, bind, StateT.bind]
    rcases reconcile_cases vars.declared vars.used (.block id head body) n with
      ⟨var, hvar, -, -⟩ | ⟨var, hvar, hnot, he⟩ | ⟨-, -, he⟩
    · cases hvar
    · rw [he]
      exact .launch hvar (hd var hvar) hnot (hbody _) h
    · rw [he]
      exact .block hd (hbody _) h
theorem slimmed_editBodyM : (body : List Statement) →
    (∀ s ∈ bodyNodes body, ∀ var ∈ s.declares?, var ∈ vars.declared) →
    (∀ s ∈ bodyNodes body, ∀ var ∈ s.uses?, var ∈ vars.used) → (n : Nat) →
    Slimmed vars body (editBodyM (reconcile vars.declared vars.used) body n).1
  | [], _, _, _ => .nil
  | s :: rest, hdeclared, hused, n =>
    slimmed_editNodeM s (fun s' hs => hdeclared s' (List.mem_append_left _ hs))
      (fun s' hs => hused s' (List.mem_append_left _ hs)) n
      (slimmed_editBodyM rest (fun s' hs => hdeclared s' (List.mem_append_right _ hs))
        (fun s' hs => hused s' (List.mem_append_right _ hs)) _)
end

theorem slimmed_reconcileUsages (t : Statement) (n : Nat) :
    Slimmed ⟨t.declared, t.used⟩ [t] [(t.reconcileUsages n).1] := by
  have hdeclared : ∀ s ∈ t.nodes, ∀ var ∈ s.declares?, var ∈ t.declared := fun s hs var hvar =>
    List.mem_filterMap.2 ⟨s, hs, hvar⟩
  have hused : ∀ s ∈ t.nodes, ∀ var ∈ s.uses?, var ∈ t.used := fun s hs var hvar =>
    List.mem_filterMap.2 ⟨s, hs, hvar⟩
  cases t with
  | leaf id action =>
    exact .leaf (hdeclared _ (List.mem_singleton_self _)) (hused _ (List.mem_singleton_self _)) .nil
  | block id head body =>
    refine .block (hdeclared _ List.mem_cons_self) (slimmed_editBodyM body ?_ ?_ n) .nil
    · exact fun s hs => hdeclared s (List.mem_cons_of_mem _ hs)
    · exact fun s hs => hused s (List.mem_cons_of_mem _ hs)

/-- The reconciliation of usages does not need the evaluation to check it. -/
theorem evaluateWithin_reconcileUsages (t : Statement) (limits : Limits) (n : Nat) :
    (t.reconcileUsages n).1.evaluateWithin limits = t.evaluateWithin limits :=
  evaluateWithin_of_slimmed (slimmed_reconcileUsages t n) limits

/-- The reconciliation of usages keeps how the run of any program stops and what it evaluates to. Below
the root of what it gives, every usage is of a handle that is declared and every declaration is of a
handle that is used, so that it changes nothing when it is done again. -/
theorem reconcileUsages_sound (t : Statement) (n : Nat) :
    (∀ limits, ((t.reconcileUsages n).1.runWith limits).1 = (t.runWith limits).1 ∧
      (t.reconcileUsages n).1.evaluateWithin limits = t.evaluateWithin limits) ∧
    (t.reconcileUsages n).1.Reconciled ∧
    ∀ k, (t.reconcileUsages n).1.reconcileUsages k = ((t.reconcileUsages n).1, k) := by
  refine ⟨fun limits => ⟨?_, evaluateWithin_reconcileUsages t limits n⟩,
    reconciled_reconcileUsages t n, (reconciled_reconcileUsages t n).reconcileUsages_eq_self⟩
  obtain ⟨-, hreason, -⟩ := slims_runWith (slimmed_reconcileUsages t n) limits
  exact hreason

end RacePuzzle.Statement
