import RacePuzzle.Proofs.Evaluation.Snapshot

/-! A run takes one course. No state has two steps, so that polling leads to one machine, by whatever steps
it is reached. -/
namespace RacePuzzle

open Interpreter

variable {ticket : Ticket} {th th₁ th₂ : Thread} {on on' : Suspension}
  {frames frames' : List ProgramFrame} {m m' : ProgramMachine} {s s₁ s₂ : Snapshot}

namespace Thread

theorem Step.unique (h : Step ticket th th₁) (h' : Step ticket th th₂) : th₁ = th₂ := by
  cases h with
  | pass hframe => cases h' <;> first | rfl | cases hframe
  | bodyEnd => cases h'; rfl
  | act he =>
    cases h' with
    | act he' => cases he.symm.trans he'; rfl
  | enter => cases h'; rfl
  | leave => cases h'; rfl
  | catching he =>
    cases h' with
    | pass hframe => cases hframe
    | catching he' => cases he.symm.trans he'; rfl
  | close he =>
    cases h' with
    | pass hframe => cases hframe
    | close he' => cases he.symm.trans he'; rfl
  | settle =>
    cases h' with
    | pass hframe => cases hframe
    | settle => rfl
  | awaited he =>
    cases h' with
    | awaited he' => cases he.symm.trans he'; rfl
  | program =>
    cases h' with
    | pass hframe => cases hframe
    | program => rfl

theorem Suspends.unique (h : Suspends ticket th on frames m) (h' : Suspends ticket th on' frames' m') :
    on = on' ∧ frames = frames' ∧ m = m' := by
  cases h with
  | act he =>
    cases h' with
    | act he' => cases he.symm.trans he'; exact ⟨rfl, rfl, rfl⟩
  | close he =>
    cases h' with
    | close he' => cases he.symm.trans he'; exact ⟨rfl, rfl, rfl⟩

theorem Suspends.not_step (h : Suspends ticket th on frames m) : ¬ Step ticket th th₁ := by
  intro h'
  cases h with
  | act he =>
    cases h' with
    | act he' => cases he.symm.trans he'
  | close he =>
    cases h' with
    | pass hframe => cases hframe
    | close he' => cases he.symm.trans he'

/-- Code goes on to where it has no step, however far it has got. -/
theorem Steps.to_last (h : Steps ticket th th₁) (hlast : Steps ticket th th₂)
    (hstop : ∀ th', ¬ Step ticket th₂ th') : Steps ticket th₁ th₂ := by
  have hunique : Relator.RightUnique (Step ticket) := fun _ _ _ h h' => h.unique h'
  rcases Relation.ReflTransGen.total_of_right_unique hunique h hlast with hon | hback
  · exact hon
  · rcases hback.cases_head with rfl | ⟨th', hstep, -⟩
    · exact .refl
    · exact absurd hstep (hstop th')

/-- Code goes on to where its frames lead, however far it has got. -/
theorem Steps.to_unwind (h : Steps ticket th th₁) :
    Reaches ticket th₁ [] (FrameCode.unwind ticket th.frames th.result th.machine) := by
  have hlast := reaches_unwind ticket th.frames th.result th.machine
  unfold Reaches at hlast ⊢
  split
  · next result m heq =>
    rw [heq] at hlast
    exact h.to_last hlast nofun
  · next on inner m heq =>
    rw [heq] at hlast
    obtain ⟨last, hlast, hs⟩ := hlast
    exact ⟨last, h.to_last hlast fun _ => hs.not_step, hs⟩

end Thread

namespace Snapshot

theorem Step.unique (h : Step s s₁) (h' : Step s s₂) : s₁ = s₂ := by
  cases h with
  | skip hr hout =>
    cases h' with
    | skip hr' hout' =>
      cases hr.symm.trans hr'
      cases hout.symm.trans hout'
      rfl
    | sleepOn hr' hout' | goOn hr' hout' =>
      cases hr.symm.trans hr'
      cases hout.symm.trans hout'
    | tick hr' => cases hr.symm.trans hr'
  | sleepOn hr hout hres =>
    cases h' with
    | skip hr' hout' =>
      cases hr.symm.trans hr'
      cases hout.symm.trans hout'
    | sleepOn hr' hout' hres' =>
      cases hr.symm.trans hr'
      cases hout.symm.trans hout'
      cases hres.symm.trans hres'
      rfl
    | goOn hr' hout' hres' =>
      cases hr.symm.trans hr'
      cases hout.symm.trans hout'
      cases hres.symm.trans hres'
    | tick hr' => cases hr.symm.trans hr'
  | goOn hr hout hres =>
    cases h' with
    | skip hr' hout' =>
      cases hr.symm.trans hr'
      cases hout.symm.trans hout'
    | sleepOn hr' hout' hres' =>
      cases hr.symm.trans hr'
      cases hout.symm.trans hout'
      cases hres.symm.trans hres'
    | goOn hr' hout' hres' =>
      cases hr.symm.trans hr'
      cases hout.symm.trans hout'
      cases hres.symm.trans hres'
      rfl
    | tick hr' => cases hr.symm.trans hr'
  | code hs =>
    cases h' with
    | code hs' => cases hs.unique hs'; rfl
    | suspend hs' => exact absurd hs hs'.not_step
    | finish => cases hs
  | suspend hs =>
    cases h' with
    | code hs' => exact absurd hs' hs.not_step
    | suspend hs' =>
      obtain ⟨rfl, rfl, rfl⟩ := hs.unique hs'
      rfl
    | finish => cases hs
  | finish =>
    cases h' with
    | code hs => cases hs
    | suspend hs => cases hs
    | finish => rfl
  | tick hr =>
    cases h' with
    | skip hr' | sleepOn hr' | goOn hr' => cases hr.symm.trans hr'
    | tick => rfl

theorem BusySteps.eq_of_ready (h : BusySteps ⟨m, .idle⟩ s) (hready : m.dispatcher.ready = []) :
    s = ⟨m, .idle⟩ := by
  rcases h.cases_head with rfl | ⟨_, hstep, -⟩
  · rfl
  · exact absurd hready (hstep.ready rfl)

/-- Wherever polling has got to, it goes on to where the machine drains to. -/
theorem BusySteps.to_drain (h : BusySteps ⟨m, .idle⟩ s) : BusySteps s ⟨m.drain, .idle⟩ := by
  have hunique : Relator.RightUnique BusyStep := fun _ _ _ h h' => h.step.unique h'.step
  rcases Relation.ReflTransGen.total_of_right_unique hunique (busySteps_drain m) h with h | h
  · exact BusySteps.eq_of_ready h (Machine.ready_drain m) ▸ .refl
  · exact h

/-- However polling gets to a machine with nothing ready, it is where the machine drains to. -/
theorem BusySteps.eq_drain (h : BusySteps ⟨m, .idle⟩ ⟨m', .idle⟩) (hready : m'.dispatcher.ready = []) :
    m.drain = m' :=
  congrArg Snapshot.machine (BusySteps.eq_of_ready h.to_drain hready)

theorem busySteps_turn (m : ProgramMachine) : BusySteps ⟨m, .idle⟩ ⟨m.turn, .idle⟩ := by
  cases hready : m.dispatcher.ready with
  | nil =>
    rw [Machine.turn, hready]
  | cons id rest =>
    rw [Machine.turn_of_cons hready]
    exact busySteps_runReady hready

theorem busySteps_turns (k : Nat) (m : ProgramMachine) : BusySteps ⟨m, .idle⟩ ⟨Machine.turn^[k] m, .idle⟩ := by
  induction k with
  | zero => exact .refl
  | succ k ih =>
    rw [Function.iterate_succ_apply']
    exact ih.trans (busySteps_turn _)

/-- However far the code of a task has got in its turn, it goes on to the end of the turn. -/
theorem busySteps_turn_of_thread {id : SeatId} {rest : List SeatId} {d : Dispatcher (Task ProgramFrame)}
    {task : Task ProgramFrame} {result : Except Interruption Unit} (hready : m.dispatcher.ready = id :: rest)
    (hout : (withoutFirst m rest).checkOut id = (some (ticket, task), d))
    (hres : ({ m with dispatcher := d } : ProgramMachine).resumption ticket task.on = (some result, m'))
    (hs : Thread.Steps ticket ⟨task.frames, Suspension.handed result, m'⟩ th) :
    BusySteps ⟨th.machine, .running id ticket th.frames th.result⟩ ⟨m.turn, .idle⟩ := by
  have hreaches := hs.to_unwind
  rw [Machine.turn_of_cons hready, Machine.runReady]
  rw [withoutFirst] at hout
  simp only [hout, FrameCode.poll, hres, proceed_eq_unwind]
  generalize FrameCode.unwind ticket task.frames (Suspension.handed result) m' = reached at hreaches ⊢
  obtain ⟨progress, left⟩ := reached
  cases progress with
  | ended => exact (BusySteps.ofThread hreaches).tail (.of_running .finish)
  | suspended on frames =>
    obtain ⟨last, hlast, hsuspends⟩ := hreaches
    rw [List.append_nil] at hsuspends
    exact (BusySteps.ofThread hlast).tail (.of_running (.suspend hsuspends))

end Snapshot

end RacePuzzle
