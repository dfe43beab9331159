import RacePuzzle.Proofs.Generation.Puzzle
import RacePuzzle.Proofs.Program.Splicing

/-! The rewriting of programs. Whatever is cut out, dissolved or separated, the program stays valid, and
an id that is above all of its ids stays above them, so that the next rewriting can begin. -/
namespace RacePuzzle

open Statement (bodyNodes Simpler)

/-- A change that takes something away from a program. -/
inductive Rewriting
  | remove (id : StatementId)
  | inlineBlock (id : StatementId)
  | eraseHandle (var : String)
  | separatePrints
  deriving DecidableEq, Repr

namespace Statement

variable {d t : Statement} {n : Nat}

def rewrite (t : Statement) : Rewriting → Fresh Statement
  | .remove id => return t.excise [id]
  | .inlineBlock id => return t.dissolve id
  | .eraseHandle var => t.eraseHandle var
  | .separatePrints => return t.separatePrints

theorem excise_eq (hids : t.ids.Nodup) (hd : d ∈ t.nodes) :
    t.excise [d.id] = (t.remove d.id).dropUsages d := by
  simp only [excise, get?_of_mem hids hd]

theorem dissolve_eq (hids : t.ids.Nodup) (hd : d ∈ t.nodes) :
    t.dissolve d.id = (t.inlineBlock d.id).dropUsages d := by
  simp only [dissolve, get?_of_mem hids hd]

theorem simpler_separatePrints (ht : t.Valid) (hn : Unused n [t]) :
    Simpler n t t.separatePrints n := by
  rcases separatePrints_cases ht hn with ⟨he, -⟩ | ⟨hsimpler, -⟩
  · exact he.symm ▸ .refl ht hn
  · exact hsimpler

/-- A rewriting only takes away. -/
theorem simpler_rewrite (ht : t.Valid) (hn : Unused n [t]) (change : Rewriting) :
    Simpler n t (t.rewrite change n).1 (t.rewrite change n).2 := by
  cases change with
  | remove id => exact simpler_excise ht hn [id]
  | inlineBlock id => exact simpler_dissolve ht hn id
  | eraseHandle var => exact simpler_eraseHandle ht hn var
  | separatePrints => exact simpler_separatePrints ht hn

theorem simpler_rewrites (ht : t.Valid) (hn : Unused n [t]) (changes : List Rewriting) :
    Simpler n t (changes.foldlM rewrite t n).1 (changes.foldlM rewrite t n).2 := by
  induction changes generalizing t n with
  | nil => exact .refl ht hn
  | cons change changes ih =>
    have hfirst := simpler_rewrite ht hn change
    exact hfirst.trans (ih hfirst.valid hfirst.unused)

/-- Rewriting keeps a program valid: the removal of a statement below the root together with the usages
of what it binds, the inlining of a block below the root together with those usages, the erasure of any
handle, the separation of simultaneous prints, and any number of such changes after each other. -/
theorem rewriting_keeps_valid (hvalid : t.validate = .ok ()) (hn : ∀ i ∈ t.ids, i < n) :
    (∀ d ∈ bodyNodes t.body, t.excise [d.id] = (t.remove d.id).dropUsages d ∧
      ((t.remove d.id).dropUsages d).validate = .ok ()) ∧
    (∀ d ∈ bodyNodes t.body, d.isBlock → t.dissolve d.id = (t.inlineBlock d.id).dropUsages d ∧
      ((t.inlineBlock d.id).dropUsages d).validate = .ok ()) ∧
    (∀ var, (t.eraseHandle var n).1.validate = .ok ()) ∧
    t.separatePrints.validate = .ok () ∧
    ∀ changes : List Rewriting, (changes.foldlM rewrite t n).1.validate = .ok () ∧
      ∀ i ∈ (changes.foldlM rewrite t n).1.ids, i < (changes.foldlM rewrite t n).2 := by
  have ht : t.Valid := validate_eq_ok_iff.1 hvalid
  have hunused : Unused n [t] := unused_of_ids hn
  refine ⟨fun d hd => ?_, fun d hd _ => ?_, fun var => ?_, ?_, fun changes => ?_⟩
  · have hexcise := excise_eq ht.ids (mem_nodes_of_body hd)
    exact ⟨hexcise, hexcise ▸ validate_eq_ok_iff.2 (simpler_excise ht hunused [d.id]).valid⟩
  · have hdissolve := dissolve_eq ht.ids (mem_nodes_of_body hd)
    exact ⟨hdissolve, hdissolve ▸ validate_eq_ok_iff.2 (simpler_dissolve ht hunused d.id).valid⟩
  · exact validate_eq_ok_iff.2 (simpler_eraseHandle ht hunused var).valid
  · exact validate_eq_ok_iff.2 (simpler_separatePrints ht hunused).valid
  · have hsimpler := simpler_rewrites ht hunused changes
    exact ⟨validate_eq_ok_iff.2 hsimpler.valid, by simpa [Unused, bodyNodes, ids] using hsimpler.unused⟩

/-- A deferred value whose computation binds a job, with a usage of each inside and outside. -/
def jobInsideAsync : Statement :=
  .block 0 .coroutineScope [.block 1 (.async "v1" "A") [.block 2 (.launchJob "job1") [.leaf 3 (.print "B")],
    .leaf 4 (.join "job1")], .leaf 5 (.printAwait "v1" "C")]

theorem async_with_job_is_rewritten :
    jobInsideAsync.validate = .ok () ∧ (∀ i ∈ jobInsideAsync.ids, i < 6) ∧
      (jobInsideAsync.dissolve 1).validate = .ok () ∧
      (([.eraseHandle "job1", .remove 1] : List Rewriting).foldlM rewrite jobInsideAsync 6).1.validate =
        .ok () := by
  have hvalid : jobInsideAsync.validate = .ok () := by cbv
  have hn : ∀ i ∈ jobInsideAsync.ids, i < 6 := by decide
  obtain ⟨-, hinline, -, -, hchanges⟩ := rewriting_keeps_valid hvalid hn
  obtain ⟨hdissolve, hvalid'⟩ := hinline _ (.head _) rfl
  exact ⟨hvalid, hn, (congrArg validate hdissolve).trans hvalid', (hchanges _).1⟩

end Statement

end RacePuzzle
