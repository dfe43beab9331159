import RacePuzzle.Proofs.Evaluation.Action
import RacePuzzle.Proofs.Evaluation.Snapshot

/-! What holds in every state of a run. The machine is sound, a ledger tells where its jobs come
from, every suspended task sleeps on something that will wake it, and every open job has one frame
that will end it. -/
namespace RacePuzzle

open Interpreter

/-- The ledger is about the jobs of the machine, the first of which runs the program. -/
structure Ledger.Fits (t : Statement) (L : Ledger) (m : ProgramMachine) : Prop where
  length : L.length = m.jobs.size
  two : 2 ≤ m.jobs.size
  root : L[0]? = some ⟨0, none, t.size + 1⟩
  made : ∀ {g : Nat} {o}, 2 ≤ g → L[g]? = some o → o.parent < g ∧
    ∃ id head inner, Made t L o id head inner
  parent : ∀ {g : Nat} {o b}, 2 ≤ g → L[g]? = some o → m.bond? g = some b → b.outcome = none →
    b.parent = some o.parent
  roots : ∀ {g : Nat} {b}, g < 2 → m.bond? g = some b → b.outcome = none

def IsOpen (m : ProgramMachine) (j : JobId) : Prop :=
  ∃ b, m.bond? j = some b ∧ b.outcome = none

def Focus.opened (j : JobId) : Focus → Nat
  | .idle => 0
  | .running _ _ frames _ => RacePuzzle.opened j frames

def Snapshot.opened (j : JobId) (s : Snapshot) : Nat :=
  s.machine.work (fun task => RacePuzzle.opened j task.frames) + s.focus.opened j

/-- The task that is polled is out of its seat. -/
structure Polled (t : Statement) (L : Ledger) (m : ProgramMachine) (seat : SeatId)
    (ticket : Ticket) (frames : List ProgramFrame) (result : Completion) : Prop where
  ticket_eq : ticket = seat
  lt : seat < m.dispatcher.seats.size
  out : m.dispatcher.task? seat = none
  unfinished : m.dispatcher.hasFinished seat = false
  ready : Ready t L m result frames

structure Seated (t : Statement) (L : Ledger) (m : ProgramMachine) (i : SeatId)
    (task : Task ProgramFrame) : Prop where
  unfinished : m.dispatcher.hasFinished i = false
  waits : m.Waits i task.on
  rests : Rests t L m task.on task.frames

structure Snapshot.Upheld (t : Statement) (L : Ledger) (s : Snapshot) : Prop where
  sound : s.machine.Sound
  ledger : L.Fits t s.machine
  background : s.machine.env.background = 1
  handles : HandlesKnown s.machine
  seated : ∀ {i task}, s.machine.dispatcher.task? i = some task → Seated t L s.machine i task
  numbers : ∀ {i i' task task' j j' k w w'}, s.machine.dispatcher.task? i = some task →
    s.machine.dispatcher.task? i' = some task' → task.on = .wait j k w → task'.on = .wait j' k w' →
    i = i'
  numbered : ∀ {i task j k w}, s.machine.dispatcher.task? i = some task → task.on = .wait j k w →
    k < s.machine.timetable.clock.nextSeq
  polled : ∀ {seat ticket frames result}, s.focus = .running seat ticket frames result →
    Polled t L s.machine seat ticket frames result
  opened : ∀ j, (2 ≤ j ∧ IsOpen s.machine j) ∧ s.opened j = 1 ∨
    ¬ (2 ≤ j ∧ IsOpen s.machine j) ∧ s.opened j = 0
  gone : ∀ {i}, i < s.machine.dispatcher.seats.size → s.machine.dispatcher.task? i = none →
    s.machine.dispatcher.hasFinished i = true ∨
      ∃ ticket frames result, s.focus = .running i ticket frames result

/-- What a run never takes back. -/
structure Kept (m m' : ProgramMachine) : Prop where
  cancelled : ∀ {j}, m.isCancelled j = true → m'.isCancelled j = true
  fired : ∀ {s}, m.hasFired s = true → m'.hasFired s = true
  bond : ∀ {j b}, m.bond? j = some b → ∃ b', m'.bond? j = some b' ∧
    b'.completion = b.completion ∧ (b.outcome.isSome → b'.outcome = b.outcome)
  trace : m.env.trace.toList <+: m'.env.trace.toList

theorem Kept.refl (m : ProgramMachine) : Kept m m where
  cancelled h := h
  fired h := h
  bond h := ⟨_, h, rfl, fun _ => rfl⟩
  trace := List.prefix_refl _

theorem Kept.trans {m m' m'' : ProgramMachine} (h : Kept m m') (h' : Kept m' m'') : Kept m m'' where
  cancelled hc := h'.cancelled (h.cancelled hc)
  fired hs := h'.fired (h.fired hs)
  bond hb := by
    obtain ⟨b', hb', hc, ho⟩ := h.bond hb
    obtain ⟨b'', hb'', hc', ho'⟩ := h'.bond hb'
    refine ⟨b'', hb'', hc'.trans hc, fun hs => ?_⟩
    rw [ho' (by rwa [ho hs]), ho hs]
  trace := h.trace.trans h'.trace

/-- The state comes after the machine, and what holds in every state holds in it. -/
structure Follows (t : Statement) (L : Ledger) (m : ProgramMachine) (s : Snapshot) : Prop where
  upheld : s.Upheld t L
  kept : Kept m s.machine

theorem Follows.after {t : Statement} {L : Ledger} {m m' : ProgramMachine} {s : Snapshot}
    (h : Follows t L m' s) (hk : Kept m m') : Follows t L m s :=
  ⟨h.upheld, hk.trans h.kept⟩

variable {t : Statement} {L L' : Ledger} {m m' : ProgramMachine} {s s' : Snapshot}

theorem isOpen_congr (h : ∀ j, m'.bond? j = m.bond? j) (j : JobId) : IsOpen m' j ↔ IsOpen m j := by
  unfold IsOpen
  rw [h]

theorem isOpen_child {p : JobId} {pb : Bond} (hp : m.bond? p = some pb) (kind : JobRole)
    (k : JobId) : IsOpen (m.child p kind).2 k ↔ k = m.jobs.size ∨ IsOpen m k := by
  constructor
  · rintro ⟨b', hb', ho⟩
    by_cases hk : k = m.jobs.size
    · exact .inl hk
    · obtain ⟨b, hb, hg⟩ := Machine.grown_of_bond?_child hp hb' hk
      exact .inr ⟨b, hb, hg.outcome ▸ ho⟩
  · rintro (rfl | ⟨b, hb, ho⟩)
    · exact ⟨_, by rw [Machine.bond?_child hp, if_pos rfl], rfl⟩
    · obtain ⟨b', hb', hg⟩ := Machine.exists_grown_child hp kind hb
      exact ⟨b', hb', hg.outcome.trans ho⟩

theorem isOpen_settles {j : JobId} {o : Outcome} {c : SignalId} (h : Machine.Settles j o c m m')
    (k : JobId) : IsOpen m' k ↔ k ≠ j ∧ IsOpen m k := by
  constructor
  · rintro ⟨b', hb', ho⟩
    obtain ⟨b, hb, rfl⟩ := h.bond.old hb'
    by_cases hk : k = j
    · simp [Machine.Bond.afterSettling, hk] at ho
    · exact ⟨hk, b, hb, by simpa [Machine.Bond.afterSettling, hk] using ho⟩
  · rintro ⟨hk, b, hb, ho⟩
    exact ⟨_, h.bond.new hb, by simpa [Machine.Bond.afterSettling, hk] using ho⟩

theorem IsOpen.lt {j : JobId} (h : IsOpen m j) : j < m.jobs.size :=
  let ⟨_, hb, _⟩ := h
  Machine.bond?_lt hb

theorem Ledger.Fits.congr (h : L.Fits t m) (hb : ∀ j, m'.bond? j = m.bond? j) : L.Fits t m' := by
  have hsize := size_of_bond hb
  exact ⟨h.length.trans hsize.symm, hsize ▸ h.two, h.root, h.made,
    fun hg ho hj => h.parent hg ho ((hb _).symm.trans hj), fun hg hj => h.roots hg ((hb _).symm.trans hj)⟩

theorem Ledger.Fits.settles (h : L.Fits t m) {j : Nat} {o : Outcome} {c : SignalId} (hj : 2 ≤ j)
    (hs : Machine.Settles j o c m m') : L.Fits t m' := by
  have hsize := hs.bond.size
  refine ⟨h.length.trans hsize.symm, hsize ▸ h.two, h.root, h.made, fun {g o' b'} hg ho' hb' hopen => ?_,
    fun {g b'} hg hb' => ?_⟩
  · obtain ⟨b, hb, rfl⟩ := hs.bond.old hb'
    by_cases hgj : g = j
    · simp [Machine.Bond.afterSettling, hgj] at hopen
    · have := h.parent hg ho' hb (by simpa [Machine.Bond.afterSettling, hgj] using hopen)
      simpa [Machine.Bond.afterSettling, hgj] using this
  · obtain ⟨b, hb, rfl⟩ := hs.bond.old hb'
    have hgj : g ≠ j := by omega
    simpa [Machine.Bond.afterSettling, hgj] using h.roots hg hb

theorem Ledger.Fits.root_at (h : L.Fits t m) (tr : List TraceEntry) : At t L tr 0 [t] :=
  ⟨_, [], h.root, .root, by simp [Statement.bodySize], by simp⟩

theorem Ledger.Fits.of_getElem?_append (h : L.Fits t m) {new o : Origin} {g : JobId}
    (hg : (L ++ [new])[g]? = some o) : L[g]? = some o ∨ g = m.jobs.size ∧ o = new := by
  by_cases hlt : g < L.length
  · rw [List.getElem?_append_left hlt] at hg
    exact .inl hg
  · have hlen := (List.getElem?_eq_some_iff.1 hg).1
    simp only [List.length_append, List.length_singleton] at hlen
    have hge : g = L.length := Nat.le_antisymm (Nat.le_of_lt_succ hlen) (Nat.le_of_not_lt hlt)
    subst hge
    simp only [List.getElem?_concat_length, Option.some.injEq] at hg
    exact .inr ⟨h.length, hg.symm⟩

theorem Ledger.Fits.child (h : L.Fits t m) {p : JobId} {pb : Bond} (hp : m.bond? p = some pb)
    (kind : JobRole) {new : Origin} (hparent : new.parent = p) {id : StatementId} {head : Head}
    {inner : List Statement} (hmade : Made t L new id head inner) :
    Ledger.Fits t (L ++ [new]) (m.child p kind).2 := by
  have hsize : (m.child p kind).2.jobs.size = m.jobs.size + 1 := by
    simp [Machine.child, Machine.newJob, Machine.newSignal, Machine.updateJob]
  have hplt : p < m.jobs.size := Machine.bond?_lt hp
  have hL : L <+: L ++ [new] := List.prefix_append L _
  refine ⟨by simp [h.length, hsize], by have := h.two; omega, ?_, fun {g o} hg ho => ?_,
    fun {g o b'} hg ho hb' hopen => ?_, fun {g b'} hg hb' => ?_⟩
  · exact getElem?_mono hL h.root
  · rcases h.of_getElem?_append ho with ho | ⟨rfl, rfl⟩
    · obtain ⟨hlt, id', head', inner', hmade'⟩ := h.made hg ho
      exact ⟨hlt, id', head', inner',
        hmade'.mono hL (Nat.lt_trans hlt (List.getElem?_eq_some_iff.1 ho).1)⟩
    · refine ⟨hparent ▸ hplt, id, head, inner, hmade.mono hL ?_⟩
      rw [h.length, hparent]
      exact hplt
  · by_cases hgn : g = m.jobs.size
    · subst hgn
      rcases h.of_getElem?_append ho with ho | ⟨-, rfl⟩
      · have hglt := (List.getElem?_eq_some_iff.1 ho).1
        have := h.length
        omega
      · rw [Machine.bond?_child_new hp hb', hparent]
    · obtain ⟨b, hb, hgrown⟩ := Machine.grown_of_bond?_child hp hb' hgn
      rcases h.of_getElem?_append ho with ho | ⟨he, -⟩
      · rw [hgrown.parent]
        exact h.parent hg ho hb (hgrown.outcome ▸ hopen)
      · exact absurd he hgn
  · have hgn : g ≠ m.jobs.size := by
      have := h.two
      omega
    obtain ⟨b, hb, hgrown⟩ := Machine.grown_of_bond?_child hp hb' hgn
    rw [hgrown.outcome]
    exact h.roots hg hb

theorem Ledger.Fits.getElem?_new (h : L.Fits t m) (o : Origin) :
    (L ++ [o])[m.jobs.size]? = some o := by
  rw [← h.length]
  exact List.getElem?_concat_length

end RacePuzzle
