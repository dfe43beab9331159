import RacePuzzle.Proofs.Evaluation.Narration
import RacePuzzle.Proofs.Generation.Texts

/-! The narratives of random programs. Their delays take one second or two, and their texts come from a
stock in which nothing looks like a pause, so that their narratives leave nothing of their timelines
out. Simplification brings in neither delays nor texts. -/
namespace RacePuzzle

open Statement (WholeSeconds)

variable {t : Statement}

/-- The strings in stock begin with a letter. -/
theorem Pool.ne_pauseWords {text : String} (h : text ∈ strings.stock) (seconds : Nat) :
    text ≠ pauseWords seconds := fun he => by
  have hhead : text.toList.head? = some '(' := he ▸ head?_pauseWords seconds
  rcases List.mem_append.1 h with hletter | hnumbered
  · have hletters : ∀ text ∈ letters, text.toList.head? ≠ some '(' := by decide
    exact hletters text hletter hhead
  · cases (head_of_mem_numbered "v" rfl hnumbered).symm.trans hhead

namespace Statement

theorem tellable_of_stock (hseconds : WholeSeconds t.nodes)
    (hstock : ∀ text ∈ t.valuesOf .strings, text ∈ Pool.strings.stock) : t.Tellable where
  delays := hseconds
  texts text htext := Pool.ne_pauseWords (hstock text htext)

theorem Tellable.simpler {t' : Statement} {n n' : Nat} (h : t.Tellable) (hs : Simpler n t t' n') :
    t'.Tellable where
  delays d hd := h.delays d (hs.delays.subset hd)
  texts text htext := h.texts text ((hs.own (steady_valueOf? .strings)).subset htext)

end Statement

open Generation

/-- Where delays take whole seconds and no text looks like a pause, one who listens to the narrative of a
run from the beginning, and lets the seconds of every pause go by, knows the values with the times that
the lines of the evaluation show, the marker included. What is generated is such a program, and so are
what simplification makes of one and the program of a puzzle. -/
theorem narratives_tell_the_times :
    (∀ t : Statement, t.Tellable → listen 0 t.evaluate.sequential = t.evaluate.timeline ∧
      t.evaluate.lines = (listen 0 t.evaluate.sequential).map fun event =>
        "[" ++ toString event.time ++ "] " ++ event.value) ∧
    (∀ target ingredients seed firstId t,
      ((generate target).run (.ofSeed ingredients seed firstId)).1 = .ok t → t.Tellable) ∧
    (∀ (t : Statement) n r, t.validate = .ok () → (∀ i ∈ t.ids, i < n) →
      (t.simplify.run n).1 = .ok r → t.Tellable → r.Tellable) ∧
    ∀ config firstId puzzle, Puzzle.make config firstId = .ok puzzle → puzzle.program.Tellable := by
  refine ⟨fun t h => ⟨h.listen_sequential, ?_⟩, fun target ingredients seed firstId t hgenerate => ?_,
    fun t n r hvalid hids hrun h => ?_, fun config firstId puzzle hmake => ?_⟩
  · rw [h.listen_sequential, Evaluation.lines]
  · obtain ⟨s, h⟩ := growing_of_generate hgenerate
    exact Statement.tellable_of_stock h.seconds (h.supplies.names .strings).stocked
  · obtain ⟨n', hsimpler⟩ :=
      Statement.simpler_of_simplify (Statement.validate_eq_ok_iff.1 hvalid) hids hrun
    exact h.simpler hsimpler
  · have h := Puzzle.finished hmake
    exact Statement.tellable_of_stock h.seconds (h.stocked .strings)

def printsApart : Statement :=
  .block 0 .coroutineScope [.leaf 1 (.print "A"), .leaf 2 (.delay 2000), .leaf 3 (.print "B")]

theorem printsApart_are_heard : printsApart.Tellable ∧
    listen 0 printsApart.evaluate.sequential = printsApart.evaluate.timeline := by
  have hseconds : WholeSeconds printsApart.nodes := by
    unfold WholeSeconds
    decide
  have hletters : ∀ text ∈ printsApart.valuesOf .strings, text ∈ Pool.letters := by decide
  have htellable : printsApart.Tellable := Statement.tellable_of_stock hseconds fun text htext =>
    List.mem_append_left _ (hletters text htext)
  exact ⟨htellable, (narratives_tell_the_times.1 printsApart htellable).1⟩

end RacePuzzle
