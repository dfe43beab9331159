import RacePuzzle.Proofs.Evaluation.Deadlock
import RacePuzzle.Proofs.Evaluation.Instants

/-! The end of a program. It comes once, and whatever goes on after it shows nothing any more. In a program
that is a scope the outermost job runs nothing but this scope, so that the end finds it without children. -/
namespace RacePuzzle

open Interpreter

variable {t : Statement} {L : Ledger} {m : ProgramMachine} {s s' : Snapshot}

/-- There is one end of the program, either still to come or past. -/
theorem History.programs_le_one (h : History t L s) :
    s.total ProgramFrame.programs + (if s.machine.env.ending.isSome then 1 else 0) ≤ 1 := by
  induction h with
  | start => exact Nat.le_refl 1
  | @next L L' s s' h hs _ _ ih =>
    rcases total_programs_step h.upheld hs with ⟨-, hless⟩ | ⟨hno, htotal⟩
    · split <;> omega
    · rcases (Snapshot.notes_step h.upheld hs).ending with hsame | ⟨result, hends⟩
      · rwa [htotal, hsame]
      · exact absurd hends (hno result)

/-- A program that has ended does not end again. -/
theorem History.not_ends_of_ended (h : History t L s) (hended : s.machine.env.ending.isSome)
    (result : Completion) : ¬ s.Ends .program result := by
  intro hends
  obtain ⟨m, f⟩ := s
  obtain ⟨seat, ticket, outer, rfl⟩ :
      ∃ seat ticket outer, f = .running seat ticket (.program :: outer) result := hends
  have hone := h.programs_le_one
  rw [if_pos hended, Snapshot.total_running, framesWork_cons, ProgramFrame.programs] at hone
  omega

/-- What the program has shown, its prints and its end, is the same in both machines. -/
structure ShowsSame (m m' : ProgramMachine) : Prop where
  prints : prints m' = prints m
  ending : m'.env.ending = m.env.ending

theorem ShowsSame.refl (m : ProgramMachine) : ShowsSame m m := ⟨rfl, rfl⟩

theorem ShowsSame.trans {m' m'' : ProgramMachine} (h : ShowsSame m m') (h' : ShowsSame m' m'') :
    ShowsSame m m'' :=
  ⟨h'.prints.trans h.prints, h'.ending.trans h.ending⟩

theorem ShowsSame.symm {m' : ProgramMachine} (h : ShowsSame m m') : ShowsSame m' m :=
  ⟨h.prints.symm, h.ending.symm⟩

theorem ShowsSame.ofEnv {m' : ProgramMachine} (h : m'.env = m.env) : ShowsSame m m' :=
  ⟨prints_congr h, congrArg ProgramEnv.ending h⟩

/-- Programs that end at the same time with the same result have shown the same. -/
theorem showsSame_endProgram {m' : ProgramMachine} (h : ShowsSame m m') (hnow : m'.now = m.now)
    (result : Completion) : ShowsSame (endProgram result m) (endProgram result m') := by
  have hprints (m : ProgramMachine) : prints (endProgram result m) = prints m := by
    have hcancelled : prints (m.cancel m.env.background) = prints m :=
      prints_congr (Machine.sameBonds_cancel m m.env.background).env
    exact hcancelled
  exact ⟨by rw [hprints, hprints, h.prints], congrArg (fun now => some (result, now)) hnow⟩

theorem History.showsSame_step (h : History t L s) (hended : s.machine.env.ending.isSome)
    (hs : Snapshot.Step s s') : ShowsSame s.machine s'.machine := by
  have hending : s'.machine.env.ending = s.machine.env.ending := by
    rcases (Snapshot.notes_step h.upheld hs).ending with hsame | ⟨result, hends⟩
    · exact hsame
    · exact absurd hends (h.not_ends_of_ended hended result)
  refine ⟨?_, hending⟩
  rcases Snapshot.stamps_step h.upheld hs with ⟨-, ⟨new, htrace, hnew⟩, -⟩ | ⟨-, henv⟩
  · rw [prints, htrace, List.filterMap_append, prints]
    refine (congrArg _ (List.filterMap_eq_nil_iff.2 fun e he => ?_)).trans (List.append_nil _)
    rcases (hnew e he).2 with hsilent | hnone
    · unfold TraceEntry.event?
      split
      · next hmark =>
        rw [hmark] at hsilent
        exact hsilent.elim
      · rfl
    · rw [hnone] at hended
      cases hended
  · exact prints_congr henv

theorem History.showsSame_steps (h : History t L s) (hended : s.machine.env.ending.isSome)
    (hs : Snapshot.Steps s s') : ShowsSame s.machine s'.machine := by
  induction hs with
  | refl => exact .refl _
  | tail hsteps hstep ih =>
    obtain ⟨L₁, h₁, -⟩ := h.steps hsteps
    exact ih.trans (h₁.showsSame_step (ih.ending ▸ hended) hstep)

/-- Two runs that cannot be told apart. -/
structure Agree (r r' : StopReason × ProgramMachine) : Prop where
  finished : r'.1 = .finished ↔ r.1 = .finished
  ending : r'.2.env.ending = r.2.env.ending
  prints : prints r'.2 = prints r.2

theorem Agree.of_shows {r r' : StopReason × ProgramMachine} (hreason : r'.1 = r.1)
    (h : ShowsSame r.2 r'.2) : Agree r r' :=
  ⟨by rw [hreason], h.ending, h.prints⟩

theorem evaluateWithin_of_agree {t t' : Statement} {limits : Limits}
    (h : Agree (t.runWith limits) (t'.runWith limits)) :
    t'.evaluateWithin limits = t.evaluateWithin limits := by
  unfold Statement.evaluateWithin
  generalize t.runWith limits = r at h ⊢
  generalize t'.runWith limits = r' at h ⊢
  obtain ⟨reason, m⟩ := r
  obtain ⟨reason', m'⟩ := r'
  obtain ⟨hfinished, hending, hprints⟩ := h
  have hevents : m'.env.trace.toList.filterMap TraceEntry.event? =
    m.env.trace.toList.filterMap TraceEntry.event? := hprints
  dsimp only at hfinished hending ⊢
  rw [hevents, hending]
  by_cases hreason : reason = .finished
  · rw [hreason, hfinished.2 hreason]
  · have hreason' := mt hfinished.1 hreason
    cases reason with
    | finished => exact absurd rfl hreason
    | _ =>
      cases reason' with
      | finished => exact absurd rfl hreason'
      | _ => rfl

variable {id : StatementId} {head : Head} {body : List Statement}

/-- Outside a program that is a block with a job of its own there is nothing but this block. -/
theorem Statement.Placed.eq_root (hm : head.makesJob) {owner : Option Statement}
    {before rest : List Statement} (h : (Statement.block id head body).Placed owner before rest)
    (howner : owner = none) : rest = [.block id head body] ∨ rest = [] := by
  induction h with
  | root => exact .inl rfl
  | next _ ih =>
    rcases ih howner with he | he
    · exact .inr (List.cons.inj he).2
    · cases he
  | @inside owner before id' head' body' rest _ ih =>
    unfold ownerInside at howner
    split at howner
    · cases howner
    · next hno =>
      rcases ih howner with he | he
      · obtain ⟨-, rfl, -⟩ := Statement.block.inj (List.cons.inj he).1
        exact absurd hm hno
      · cases he

theorem Ledger.Fits.eq_root (h : L.Fits (.block id head body) m) (hm : head.makesJob)
    {tr : List TraceEntry} {st : Statement} {rest : List Statement}
    (hat : At (.block id head body) L tr 0 (st :: rest)) : st = .block id head body := by
  obtain ⟨o, before, ho, hplace, -⟩ := hat.place
  obtain rfl := Option.some.inj (h.root.symm.trans ho)
  rcases hplace.eq_root hm rfl with he | he
  · exact (List.cons.inj he).1
  · cases he

/-- Frames that go on with the outermost job will end the program. -/
theorem programs_pos_of_runs {tr : List TraceEntry} {q : Option JobId} {frames : List ProgramFrame}
    (hr : Runs t L tr q frames) (hq : q = some 0) : 0 < framesWork ProgramFrame.programs frames := by
  induction hr with
  | nothing => cases hq
  | program => exact Nat.one_pos
  | rest _ _ _ ih | catching _ _ ih | awaited _ _ ih =>
    exact Nat.lt_of_lt_of_le (ih hq) (le_framesWork_cons _ _)
  | leave _ _ _ _ ih =>
    exact Nat.lt_of_lt_of_le (ih hq) (Nat.le_trans (le_framesWork_cons _ _) (le_framesWork_cons _ _))
  | task hj _ _ _ | scope hj _ _ _ _ =>
    obtain rfl := Option.some.inj hq
    cases hj

/-- When a scope ends as a program, its job is not open. -/
theorem History.not_isOpen_of_ends {seat : SeatId} {ticket : Ticket} {outer : List ProgramFrame}
    {result : Completion} (hs : head.isScope) (hm : head.makesJob)
    (h : History (.block id head body) L ⟨m, .running seat ticket (.program :: outer) result⟩)
    {g : Nat} {o : Origin} (hg : 2 ≤ g) (ho : L[g]? = some o) (hparent : o.parent = 0) :
    ¬ IsOpen m g := by
  intro hopen
  have hup := h.upheld
  obtain rfl : outer = [] := by
    cases (hup.polled rfl).ready with
    | runs hr =>
      cases hr with
      | program => rfl
  -- The only block that makes a job in the outermost one is the program.
  have hblock : o.block = some (.block id head body) := by
    obtain ⟨-, id', head', body', hmade⟩ := hup.ledger.made hg ho
    obtain ⟨owner, before, rest, hplace, -, howner⟩ := hmade.place
    rw [hparent] at howner
    have hnone := (howner nofun _ hup.ledger.root).2
    rcases hplace.eq_root hm hnone.symm with he | he
    · exact hmade.block.trans (congrArg some (List.cons.inj he).1)
    · cases he
  -- So the task that ends its job ends the program later, and there would be two ends of it.
  have hends : ∀ {tr q outer}, Runs (.block id head body) L tr q (.close g :: outer) →
      0 < framesWork ProgramFrame.programs (.close g :: outer) := by
    intro tr q outer hr
    cases hr with
    | task _ ho' hblock' hs' =>
      obtain rfl := Option.some.inj (ho.symm.trans ho')
      cases hblock.symm.trans hblock'
      cases hs.symm.trans hs'
    | scope _ ho' _ hr' =>
      obtain rfl := Option.some.inj (ho.symm.trans ho')
      exact Nat.lt_of_lt_of_le (programs_pos_of_runs hr' (congrArg some hparent))
        (le_framesWork_cons _ _)
  have hone : (m.work fun task => opened g task.frames) + 0 = 1 := hup.opened_eq_one hg hopen
  have hseats : 0 < m.work fun task => framesWork ProgramFrame.programs task.frames :=
    hup.work_pos (fun _ => rfl) hends (Nat.lt_of_lt_of_eq Nat.one_pos hone.symm)
  have htwo := h.programs_le_one
  rw [Snapshot.total_running, framesWork_cons, ProgramFrame.programs, framesWork_nil] at htwo
  omega

end RacePuzzle
