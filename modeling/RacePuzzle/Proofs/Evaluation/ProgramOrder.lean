import RacePuzzle.Proofs.Evaluation.Instants
import RacePuzzle.Proofs.Evaluation.Promptness

/-! Program order. The statements of a body begin one after the other, each at most once and only when all
before it have ended; and between two of them there goes by what the delays between them take, if none of
the statements between them waits for a job. -/
namespace RacePuzzle

open Interpreter

variable {t : Statement} {L L' : Ledger} {m m' : ProgramMachine} {s s' : Snapshot}
  {tr new : List TraceEntry} {id : StatementId} {owner : Option Statement}
  {before body rest : List Statement} {st : Statement} {time : Nat}

/-- When a statement began, all that precedes it had ended. -/
def InOrder (t : Statement) (tr : List TraceEntry) : Prop :=
  ∀ {earlier later id time}, tr = earlier ++ ⟨id, .began, time⟩ :: later →
    ∀ st ∈ t.nodes, st.id = id → Preceded t earlier st

theorem InOrder.append (h : InOrder t tr)
    (hnew : ∀ {id time}, ⟨id, .began, time⟩ ∈ new → ∀ st ∈ t.nodes, st.id = id → Preceded t tr st) :
    InOrder t (tr ++ new) := by
  intro earlier later id time he st hst hid
  rcases List.append_eq_append_iff.1 he with ⟨added, rfl, hadded⟩ | ⟨left, htr, hleft⟩
  · have hmem : ⟨id, .began, time⟩ ∈ new := hadded ▸ by simp
    exact (hnew hmem st hst hid).mono (List.prefix_append ..)
  · cases left with
    | nil =>
      have hmem : ⟨id, .began, time⟩ ∈ new := by
        rw [List.nil_append] at hleft
        exact hleft ▸ List.mem_cons_self
      rw [List.append_nil] at htr
      exact htr ▸ hnew hmem st hst hid
    | cons first left =>
      obtain ⟨rfl, -⟩ := List.cons.inj hleft
      exact h htr st hst hid

theorem History.inOrder (hids : t.ids.Nodup) (h : History t L s) :
    InOrder t s.machine.env.trace.toList := by
  induction h with
  | start => exact fun he => by simp [show t.initial.machine.env.trace.toList = [] from rfl] at he
  | @next L L' s s' h hs _ _ ih =>
    obtain ⟨new, htrace, hentry⟩ := (Snapshot.notes_step h.upheld hs).trace
    rw [htrace]
    refine ih.append fun {id time} hmem st hst hid => ?_
    obtain ⟨j, st', hid', hbegins⟩ := Snapshot.Entry.begins (hentry _ hmem)
    obtain ⟨body, hat⟩ := h.upheld.at_of_begins hbegins
    obtain rfl := Statement.eq_of_id hids hst hat.head_mem_nodes (hid.trans hid'.symm)
    exact hat.preceded hids

namespace Snapshot

end Snapshot

namespace Snapshot.InTime

/-- A statement begins at the time at which code comes to it. -/
theorem arrives (hids : t.ids.Nodup) (h : s.InTime t) (hplace : t.Placed owner before (st :: rest))
    (hbegan : ⟨st.id, .began, time⟩ ∈ s.machine.env.trace.toList) :
    Arrives s.machine.env.trace.toList before time := by
  obtain ⟨st', body, hid, owner', before', hplace', harrives⟩ := h.begun hbegan
  obtain rfl := Statement.eq_of_id hids hplace'.head_mem_nodes hplace.head_mem_nodes hid
  obtain ⟨-, rfl⟩ := Statement.place_unique hids hplace' hplace
  exact harrives

end Snapshot.InTime

theorem Statement.Placed.between (h : t.Placed owner before body) {i j : Nat} (hij : i ≤ j)
    (hj : j ≤ body.length) :
    t.Placed owner (before ++ body.take i) ((body.take j).drop i ++ body.drop j) := by
  have hi : i ≤ (body.take j).length := by
    rw [List.length_take]
    omega
  rw [← List.drop_append_of_le_length hi, List.take_append_drop]
  refine Placed.drop ?_
  rwa [List.take_append_drop]

end RacePuzzle
