import RacePuzzle.Proofs.Program.Insertion

/-! Background work that is silent. A block in the background that prints nothing, catches nothing and
completes nothing can go; what is left of the program uses none of its handles. -/
namespace RacePuzzle.Statement

/-- Nothing that the statement itself does is heard outside the jobs that it makes. -/
def isSilent : Statement → Bool
  | .leaf _ (.print _) | .leaf _ (.printAwait ..) | .leaf _ (.cancel _) | .leaf _ (.completeJob _) => false
  | .block _ (.tryCatch _) _ => false
  | _ => true

/-- The body is silent and binds no handles but those in `vars`. -/
def Muted (vars : List String) (body : List Statement) : Prop :=
  ∀ s ∈ bodyNodes body, s.isSilent ∧ ∀ var ∈ s.declares?, var ∈ vars

/-- `body'` is `body` without silent blocks in the background, and it neither binds nor uses the
handles `vars`, which these bind. -/
inductive Sheds (vars : List String) : List Statement → List Statement → Prop
  | nil : Sheds vars [] []
  | leaf {id action rest rest'} : (∀ var ∈ action.declares?, var ∉ vars) →
      (∀ var ∈ action.uses?, var ∉ vars) → Sheds vars rest rest' →
      Sheds vars (.leaf id action :: rest) (.leaf id action :: rest')
  | block {id head inner inner' rest rest'} : (∀ var ∈ head.declares?, var ∉ vars) →
      Sheds vars inner inner' → Sheds vars rest rest' →
      Sheds vars (.block id head inner :: rest) (.block id head inner' :: rest')
  | drop {id inner rest rest'} : Muted vars inner → Sheds vars rest rest' →
      Sheds vars (.block id .scopeLaunch inner :: rest) rest'

variable {vars : List String} {body body' rest : List Statement}

theorem Muted.tail {s : Statement} (h : Muted vars (s :: rest)) : Muted vars rest :=
  fun s hs => h s (List.mem_append_right _ hs)

theorem Muted.head {s : Statement} (h : Muted vars (s :: rest)) :
    s.isSilent ∧ ∀ var ∈ s.declares?, var ∈ vars :=
  h s (List.mem_append_left _ (self_mem_nodes s))

theorem Muted.inside {id : StatementId} {head : Head} {inner : List Statement}
    (h : Muted vars (.block id head inner :: rest)) : Muted vars inner :=
  fun s hs => h s (List.mem_append_left _ (List.mem_cons_of_mem _ hs))

/-- A body that has nothing to do with the handles stays as it is. -/
theorem sheds_refl : (body : List Statement) →
    (∀ s ∈ bodyNodes body, (∀ var ∈ s.declares?, var ∉ vars) ∧ ∀ var ∈ s.uses?, var ∉ vars) →
    Sheds vars body body
  | [], _ => .nil
  | .leaf id action :: rest, h =>
    have hleaf := h (.leaf id action) (.head _)
    .leaf hleaf.1 hleaf.2 (sheds_refl rest fun s hs => h s (List.mem_append_right _ hs))
  | .block id head inner :: rest, h =>
    .block (h (.block id head inner) (.head _)).1
      (sheds_refl inner fun s hs => h s (List.mem_append_left _ (List.mem_cons_of_mem _ hs)))
      (sheds_refl rest fun s hs => h s (List.mem_append_right _ hs))

/-- A body stays as it is if its usages are covered, and neither what covers them nor what the body
binds is among the handles. -/
theorem sheds_of_covered {visible : String → Prop} (hcovered : BodyCovered visible body)
    (hvisible : ∀ var, visible var → var ∉ vars)
    (hdeclared : ∀ s ∈ bodyNodes body, ∀ var ∈ s.declares?, var ∉ vars) : Sheds vars body body := by
  refine sheds_refl body fun s hs => ⟨hdeclared s hs, fun var hvar => ?_⟩
  rcases hcovered.declared s hs var hvar with hvar | hvar
  · exact hvisible var hvar
  · obtain ⟨d, hd, hvar⟩ := List.mem_filterMap.1 hvar
    exact hdeclared d hd var hvar

/-- Silent background work goes wherever it stands. -/
theorem Inserted.sheds {id : StatementId} {inner : List Statement} {visible : String → Prop}
    (h : Inserted (.block id .scopeLaunch inner) body' body) (hmuted : Muted vars inner)
    (hcovered : BodyCovered visible body) (hvisible : ∀ var, visible var → var ∉ vars)
    (hdeclared : ∀ s ∈ bodyNodes body', ∀ var ∈ s.declares?, var ∉ vars) :
    Sheds vars body body' := by
  induction h generalizing visible with
  | here =>
    refine .drop hmuted (sheds_of_covered hcovered.2 (fun var hvar => ?_) hdeclared)
    exact hvar.elim (hvisible var) fun h => (nomatch h)
  | @later s rest rest' _ ih =>
    have hrest := ih hcovered.2 (fun var hvar => hvar.elim (hvisible var) fun hd =>
      hdeclared s (List.mem_append_left _ (self_mem_nodes s)) var hd)
      fun d hd => hdeclared d (List.mem_append_right _ hd)
    cases s with
    | leaf i action =>
      exact .leaf (hdeclared (.leaf i action) (.head _)) (fun var hvar => hvisible var (hcovered.1 var hvar))
        hrest
    | block i head inside =>
      refine .block (hdeclared (.block i head inside) (.head _)) ?_ hrest
      exact sheds_of_covered hcovered.1 hvisible fun d hd =>
        hdeclared d (List.mem_append_left _ (List.mem_cons_of_mem _ hd))
  | @inside i head inside inside' rest _ ih =>
    have hhead : ∀ var ∈ head.declares?, var ∉ vars := hdeclared (.block i head inside) (.head _)
    refine .block hhead ?_ ?_
    · exact ih hcovered.1 hvisible fun d hd =>
        hdeclared d (List.mem_append_left _ (List.mem_cons_of_mem _ hd))
    · exact sheds_of_covered hcovered.2 (fun var hvar => hvar.elim (hvisible var) (hhead var))
        fun d hd => hdeclared d (List.mem_append_right _ hd)

section

variable {t : Statement} {id : StatementId} {inner : List Statement}

/-- Background work that is removed could be inserted again. -/
theorem Valid.inserted_remove (ht : t.Valid) (hs : .block id .scopeLaunch inner ∈ t.nodes) :
    Inserted (.block id .scopeLaunch inner) [t.remove id] [t] := by
  obtain ⟨root, body, rfl, -⟩ := ht.root
  have hbelow : .block id .scopeLaunch inner ∈ bodyNodes body := by
    rcases List.mem_cons.1 hs with he | hs
    · cases he
    · exact hs
  have hnodup := ht.ids
  rw [Statement.ids, nodes, List.map_cons, List.nodup_cons] at hnodup
  exact .inside (inserted_spliceBody body hnodup.2 hbelow)

/-- A valid program sheds background work that is silent. -/
theorem Valid.sheds_remove (ht : t.Valid) (hs : .block id .scopeLaunch inner ∈ t.nodes)
    (hsilent : ∀ s ∈ bodyNodes inner, s.isSilent) :
    Sheds ((bodyNodes inner).filterMap declares?) [t] [t.remove id] := by
  have hinserted := ht.inserted_remove hs
  have hcovered : BodyCovered (fun _ => False) [t] := by
    obtain ⟨root, body, rfl, hbound⟩ := ht.root
    have hbody := (bodyUnbound?_eq_none_iff ∅ body).1 hbound
    exact ⟨hbody.mono fun var hvar => absurd hvar Std.TreeSet.not_mem_emptyc, trivial⟩
  refine hinserted.sheds (fun s hs => ⟨hsilent s hs, fun var hvar => ?_⟩) hcovered (fun _ => False.elim)
    fun s hs var hvar hinner => ?_
  · exact List.mem_filterMap.2 ⟨s, hs, hvar⟩
  · have hnodup : ((bodyNodes [t]).filterMap declares?).Nodup := by
      rw [bodyNodes, bodyNodes, List.append_nil]
      exact ht.declared
    have hsplit := (hinserted.gains (f := declares?) fun _ _ _ _ => rfl).nodup_iff.1 hnodup
    refine (List.nodup_append'.1 hsplit).2.2 ?_ (List.mem_filterMap.2 ⟨s, hs, hvar⟩)
    exact hinner

theorem Valid.size_remove_le (ht : t.Valid) (hs : .block id .scopeLaunch inner ∈ t.nodes) :
    (t.remove id).size ≤ t.size := by
  have hgains : Gains _ [t.remove id] [t] := (ht.inserted_remove hs).gains
  have hsize := hgains.bodySize_eq
  simp only [bodySize] at hsize
  omega

end

end RacePuzzle.Statement
