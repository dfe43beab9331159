import RacePuzzle.Proofs.Evaluation.Budget
import Mathlib.Computability.Primrec.List
import Mathlib.Computability.TuringMachine.StackTuringMachine

/-! Cancellation takes no time. When no task is ready, no cancelled job is left open: the innermost
job of a suspended task would be cancelled with it, and a cancelled job has neither waits nor,
by induction on the number of the job, open children.

The two Mathlib modules are imported for the equations of `List.lookup` and `Option.isNone`, which `cbv`
unfolds when it computes the run of a given program, here and in later modules. -/
namespace RacePuzzle

variable {t : Statement} {L L' : Ledger} {m m' : ProgramMachine} {s s' : Snapshot}

/-- The job `d` is `j` itself or linked below it. -/
def Machine.Below (m : ProgramMachine) : JobId → JobId → Prop :=
  Relation.ReflTransGen fun p c => ∃ job, m.job? p = some job ∧ c ∈ job.children

def HasSettled (m : ProgramMachine) (j : JobId) : Prop :=
  ∃ job, m.job? j = some job ∧ job.outcome.isSome

theorem HasSettled.isSome_outcome {j : JobId} (h : HasSettled m j) :
    ((m.job? j).bind (·.outcome)).isSome := by
  obtain ⟨job, hjob, ho⟩ := h
  rw [hjob]
  exact ho

theorem outcome_kept (h : Kept m m') {j : JobId} {job : Job} (hjob : m.job? j = some job)
    (ho : job.outcome.isSome) : ∃ job', m'.job? j = some job' ∧ job'.outcome = job.outcome := by
  obtain ⟨b', hb', -, hsame⟩ := h.bond (Machine.bond?_of_job? hjob)
  obtain ⟨job', hjob', rfl⟩ := Machine.bond?_eq_some.1 hb'
  exact ⟨job', hjob', hsame ho⟩

theorem HasSettled.kept (h : Kept m m') {j : JobId} (hj : HasSettled m j) : HasSettled m' j := by
  obtain ⟨job, hjob, ho⟩ := hj
  obtain ⟨job', hjob', hsame⟩ := outcome_kept h hjob ho
  exact ⟨job', hjob', hsame ▸ ho⟩

theorem hasSettled_iff {g : JobId} : HasSettled m g ↔ g < m.jobs.size ∧ ¬ IsOpen m g := by
  constructor
  · rintro ⟨job, hjob, hsome⟩
    refine ⟨Machine.job?_lt hjob, fun ⟨b, hb, hnone⟩ => ?_⟩
    obtain rfl := Option.some.inj ((Machine.bond?_of_job? hjob).symm.trans hb)
    have hnone : job.outcome = none := hnone
    rw [hnone] at hsome
    cases hsome
  · rintro ⟨hlt, hopen⟩
    have hget : m.job? g = some m.jobs[g] := Array.getElem?_eq_getElem hlt
    refine ⟨_, hget, ?_⟩
    cases ho : m.jobs[g].outcome with
    | none => exact absurd ⟨_, Machine.bond?_of_job? hget, ho⟩ hopen
    | some o => rfl

theorem hasSettled_congr (hb : ∀ j, m'.bond? j = m.bond? j) {g : JobId} :
    HasSettled m' g ↔ HasSettled m g := by
  rw [hasSettled_iff, hasSettled_iff, size_of_bond hb, isOpen_congr hb]

theorem hasSettled_of_child {p : JobId} {pb : Bond} (hp : m.bond? p = some pb) (kind : JobRole)
    {g : JobId} (h : HasSettled (m.child p kind).2 g) : HasSettled m g := by
  obtain ⟨hlt, hclosed⟩ := hasSettled_iff.1 h
  rw [isOpen_child hp, not_or] at hclosed
  have hsize : (m.child p kind).2.jobs.size = m.jobs.size + 1 := by
    simp [Machine.child, Machine.newJob, Machine.newSignal, Machine.updateJob]
  rw [hsize] at hlt
  exact hasSettled_iff.2 ⟨Nat.lt_of_le_of_ne (Nat.le_of_lt_succ hlt) hclosed.1, hclosed.2⟩

theorem hasSettled_settles {j : JobId} {o : Outcome} {c : SignalId} (hset : Machine.Settles j o c m m')
    (hopen : IsOpen m j) {g : JobId} : HasSettled m' g ↔ HasSettled m g ∨ g = j := by
  rw [hasSettled_iff, hasSettled_iff, isOpen_settles hset, hset.bond.size]
  by_cases hg : g = j
  · subst hg
    simp [hopen.lt]
  · simp [hg]

end RacePuzzle
