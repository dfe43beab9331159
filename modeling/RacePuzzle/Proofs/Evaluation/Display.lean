import RacePuzzle.Proofs.Evaluation.References
import RacePuzzle.Proofs.Evaluation.Relabeling
import RacePuzzle.Proofs.Evaluation.Variation
import RacePuzzle.Proofs.Program.Reading

/-! What a source says about a run. It leaves out the ids and the texts of awaits; no run depends on ids,
and an await of a deferred result never prints a text of its own. So the answer to a puzzle is what its
source determines. -/
namespace RacePuzzle

variable {t t' : Statement}

/-- Whatever the program awaits is a deferred result. -/
def Statement.AwaitsDeferred (t : Statement) : Prop :=
  ∀ {id var text}, .leaf id (.printAwait var text) ∈ t.nodes →
    ∃ id' result body, .block id' (.async var result) body ∈ t.nodes

namespace Variation

def unspoken : Variation := ⟨1, fun _ => ""⟩

/-- A valid program that awaits deferred results alone finds one at each await. -/
theorem fits_unspoken (ht : t.Valid) (hawaits : t.AwaitsDeferred) : unspoken.Fits t := by
  intro L s s₁ job id action h _ hb
  cases action with
  | delay time =>
    change min (1 * _ + 1 * time) _ = 1 * min (_ + time) _
    simp only [Nat.one_mul]
  | printAwait var text =>
    obtain ⟨handle, hmem, hlookup⟩ := (h.references ht).lookup ht h hb rfl
    obtain ⟨d, hd, hdecl, hmakes⟩ :=
      ((h.bindings ht).standsFor hmem).exists_declaration h.upheld.ledger
    obtain ⟨id', result, body, hasync⟩ := hawaits (h.upheld.mem_of_begins hb)
    obtain rfl := ht.eq_of_declares hd hasync hdecl rfl
    cases hmakes
    exact .inr ⟨_, _, hlookup⟩
  | _ => trivial

end Variation

open Variation

namespace Statement

mutual
theorem anonymous_vary_unspoken : (t : Statement) → (t.vary unspoken).anonymous = t.displayed
  | .leaf id action => by
    cases action with
    | delay time => exact congrArg (fun time => leaf 0 (.delay time)) (Nat.one_mul time)
    | _ => rfl
  | .block id head body => by
    have hbody := relabelBody_varyBody_unspoken body
    cases head <;> exact congrArg (block 0 _) hbody
theorem relabelBody_varyBody_unspoken : (body : List Statement) →
    relabelBody ⟨fun _ => 0, fun var => var, fun text => text⟩ (varyBody unspoken body) = bodyDisplayed body
  | [] => rfl
  | s :: rest =>
    congrArg₂ List.cons (anonymous_vary_unspoken s) (relabelBody_varyBody_unspoken rest)
end

/-- What a source does not show changes nothing about a run. -/
theorem evaluateWithin_displayed (ht : t.Valid) (hawaits : t.AwaitsDeferred) (limits : Limits) :
    t.displayed.evaluateWithin limits = t.evaluateWithin limits := by
  have hlimits : limits.paced unspoken.pace = limits := by
    rw [Limits.paced, unspoken, Nat.one_mul]
  have hpaced (e : Evaluation) : e.paced unspoken.pace = e := by
    simp [Evaluation.paced, unspoken]
  rw [← anonymous_vary_unspoken, evaluateWithin_anonymous, ← hpaced (t.evaluateWithin limits),
    ← evaluateWithin_vary Nat.one_pos (fits_unspoken ht hawaits), hlimits]

end Statement

/-- Valid programs with readable handles, quotes without line breaks and awaits of deferred results alone
that have one source are the same but for ids and the texts of awaits, and evaluate to the same. -/
theorem source_determines_evaluation (t t' : Statement) (ht : t.validate = .ok ())
    (ht' : t'.validate = .ok ()) (hlegible : t.Legible) (hlegible' : t'.Legible)
    (hawaits : t.AwaitsDeferred) (hawaits' : t'.AwaitsDeferred) (hsource : t.source = t'.source) :
    t.displayed = t'.displayed ∧ ∀ limits, t.evaluateWithin limits = t'.evaluateWithin limits := by
  have hdisplayed := hlegible.displayed_eq hlegible' hsource
  refine ⟨hdisplayed, fun limits => ?_⟩
  rw [← Statement.evaluateWithin_displayed (Statement.validate_eq_ok_iff.1 ht) hawaits, hdisplayed,
    Statement.evaluateWithin_displayed (Statement.validate_eq_ok_iff.1 ht') hawaits']

def parcel : Statement :=
  .block 0 .coroutineScope
    [.block 1 (.async "x" "parcel")
        [.block 2 (.tryCatch .custom) [.leaf 3 (.delay 5), .leaf 4 (.throwException .custom)]],
      .leaf 5 (.print "ordered"), .leaf 6 (.printAwait "x" "parcel")]

/-- The same puzzle made up anew: with other ids, and with another text at the await. -/
def parcelAgain : Statement :=
  .block 10 .coroutineScope
    [.block 21 (.async "x" "parcel")
        [.block 32 (.tryCatch .custom) [.leaf 43 (.delay 5), .leaf 54 (.throwException .custom)]],
      .leaf 65 (.print "ordered"), .leaf 76 (.printAwait "x" "letter")]

theorem parcel_and_parcelAgain_alike :
    parcel.source = parcelAgain.source ∧ parcel ≠ parcelAgain ∧
    ∀ limits, parcel.evaluateWithin limits = parcelAgain.evaluateWithin limits := by
  have hsource : parcel.source = parcelAgain.source := rfl
  have hawaits : parcel.AwaitsDeferred := fun {id var text} h => by
    have hvar : var = "x" := by
      simp [parcel, Statement.nodes, Statement.bodyNodes] at h
      exact h.2.1
    subst hvar
    exact ⟨1, _, _, List.mem_cons_of_mem _ List.mem_cons_self⟩
  have hawaits' : parcelAgain.AwaitsDeferred := fun {id var text} h => by
    have hvar : var = "x" := by
      simp [parcelAgain, Statement.nodes, Statement.bodyNodes] at h
      exact h.2.1
    subst hvar
    exact ⟨21, _, _, List.mem_cons_of_mem _ List.mem_cons_self⟩
  exact ⟨hsource, by decide, (source_determines_evaluation parcel parcelAgain (by decide) (by decide)
    (by decide) (by decide) hawaits hawaits' hsource).2⟩

end RacePuzzle
