import RacePuzzle.Generation.Names
import RacePuzzle.Proofs.Program.Insertion

/-! The texts of a program. Where no two statements print one text and every await has the text of what
it waits for, this stays so as long as statements only go, or come with texts and handles of their own. -/
namespace RacePuzzle.Statement

/-- An await has the text of the result that it waits for. -/
def Announces (t : Statement) : Prop :=
  ∀ {id var text id' result body}, .leaf id (.printAwait var text) ∈ t.nodes →
    .block id' (.async var result) body ∈ t.nodes → text = result

def result? : Statement → Option String
  | .block _ (.async _ result) _ => some result
  | _ => none

/-- The strings of a program are what it prints and what its tasks result in. -/
theorem perm_strings (nodes : List Statement) :
    (nodes.filterMap printedText? ++ nodes.filterMap result?).Perm
      (nodes.filterMap (valueOf? .strings)) := by
  induction nodes with
  | nil => exact .refl _
  | cons s rest ih =>
    have hs : s.printedText? = valueOf? .strings s ∧ s.result? = none ∨
        s.printedText? = none ∧ s.result? = valueOf? .strings s := by
      cases s with
      | leaf i action => cases action <;> exact .inl ⟨rfl, rfl⟩
      | block i head body => cases head <;> exact .inr ⟨rfl, rfl⟩
    rcases hs with ⟨hprinted, hnone⟩ | ⟨hnone, hresult⟩
    · rw [List.filterMap_cons_none hnone, List.filterMap_cons, List.filterMap_cons, hprinted]
      cases valueOf? .strings s with
      | none => exact ih
      | some text => exact ih.cons text
    · rw [List.filterMap_cons_none hnone, List.filterMap_cons, List.filterMap_cons, hresult]
      cases valueOf? .strings s with
      | none => exact ih
      | some text => exact List.perm_middle.trans (ih.cons text)

theorem printed_subset_strings (nodes : List Statement) :
    nodes.filterMap printedText? ⊆ nodes.filterMap (valueOf? .strings) := fun _ h =>
  (perm_strings nodes).subset (List.mem_append_left _ h)

/-- A handle with the text that an await of it has, or that its block makes. -/
def announced? : Statement → Option (String × String)
  | .leaf _ (.printAwait var text) => some (var, text)
  | .block _ (.async var result) _ => some (var, result)
  | _ => none

theorem handle_of_announced? {s : Statement} {var text : String} (h : s.announced? = some (var, text)) :
    s.declares? = some var ∨ s.uses? = some var := by
  cases s with
  | leaf id action =>
    cases action with
    | printAwait var text =>
      cases h
      exact .inr rfl
    | _ => cases h
  | block id head body =>
    cases head with
    | async var result =>
      cases h
      exact .inl rfl
    | _ => cases h

theorem steady_printedText? : Steady printedText? where
  block _ _ _ _ := rfl
  print _ _ _ := .inr rfl
  launch _ _ := rfl

theorem steady_announced? : Steady announced? where
  block _ head _ _ := by cases head <;> rfl
  print _ _ _ := .inl rfl
  launch _ _ := rfl

/-- Among the nodes, no text is printed by two, and no handle has two texts. -/
structure Distinct (nodes : List Statement) : Prop where
  texts : (nodes.filterMap printedText?).Nodup
  results : ∀ {var text text'}, (var, text) ∈ nodes.filterMap announced? →
    (var, text') ∈ nodes.filterMap announced? → text = text'

variable {nodes new old : List Statement} {t t' : Statement}

theorem distinct_scope {root : StatementId} {body : List Statement} :
    Distinct (Statement.block root .coroutineScope body).nodes ↔ Distinct (bodyNodes body) :=
  ⟨fun h => ⟨h.texts, h.results⟩, fun h => ⟨h.texts, h.results⟩⟩

theorem Distinct.announces (h : Distinct t.nodes) : t.Announces := fun hawait hasync =>
  h.results (List.mem_filterMap.2 ⟨_, hawait, rfl⟩) (List.mem_filterMap.2 ⟨_, hasync, rfl⟩)

theorem Distinct.countP_le_one (h : Distinct nodes) (text : String) :
    nodes.countP (·.printedText?.any (· == text)) ≤ 1 := by
  have hcount : nodes.countP (·.printedText?.any (· == text)) =
      (nodes.filterMap printedText?).count text := by
    rw [List.count, List.countP_filterMap]
    exact List.countP_congr fun s _ => by cases s.printedText? <;> rfl
  rw [hcount]
  exact List.nodup_iff_count_le_one.1 h.texts text

/-- Nothing comes by what only goes. -/
theorem Distinct.sublist (h : Distinct t.nodes)
    (hown : ∀ {α : Type} {f : Statement → Option α}, Steady f →
      (t'.nodes.filterMap f).Sublist (t.nodes.filterMap f)) : Distinct t'.nodes where
  texts := h.texts.sublist (hown steady_printedText?)
  results hmem hmem' :=
    h.results ((hown steady_announced?).subset hmem) ((hown steady_announced?).subset hmem')

/-- What comes has texts and handles of its own. -/
theorem Distinct.append (hnew : Distinct new) (hold : Distinct old)
    (htexts : ∀ text ∈ new.filterMap printedText?, text ∉ old.filterMap printedText?)
    (hhandles : ∀ {var text text'}, (var, text) ∈ new.filterMap announced? →
      (var, text') ∉ old.filterMap announced?) : Distinct (new ++ old) := by
  refine ⟨?_, fun {var text text'} hmem hmem' => ?_⟩
  · rw [List.filterMap_append]
    exact hnew.texts.append hold.texts fun text hmem hmem' => htexts text hmem hmem'
  · rw [List.filterMap_append, List.mem_append] at hmem hmem'
    rcases hmem with hmem | hmem
    · rcases hmem' with hmem' | hmem'
      · exact hnew.results hmem hmem'
      · exact absurd hmem' (hhandles hmem)
    · rcases hmem' with hmem' | hmem'
      · exact absurd hmem (hhandles hmem')
      · exact hold.results hmem hmem'

theorem Distinct.gains {body body' : List Statement} (h : Distinct (new ++ bodyNodes body))
    (hgains : Gains new body body') : Distinct (bodyNodes body') := by
  have hperm {α : Type} {f : Statement → Option α} (hf : Steady f) :
      ((bodyNodes body').filterMap f).Perm ((new ++ bodyNodes body).filterMap f) := by
    rw [List.filterMap_append]
    exact hgains hf.block
  refine ⟨(hperm steady_printedText?).nodup_iff.2 h.texts, fun hmem hmem' => ?_⟩
  exact h.results ((hperm steady_announced?).mem_iff.1 hmem) ((hperm steady_announced?).mem_iff.1 hmem')

end RacePuzzle.Statement
