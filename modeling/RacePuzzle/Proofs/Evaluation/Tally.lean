import RacePuzzle.Proofs.Evaluation.Budget
import RacePuzzle.Proofs.Evaluation.References
import RacePuzzle.Proofs.Program.Texts

/-! How often texts of some kind are printed. A leaf prints once at most, on the spot or at the end of its
wait; so a run prints no more texts of a kind than its program has leaves for them, as long as what is
awaited has the text of the await and the handlers print no text of the kind. -/
namespace RacePuzzle

open Interpreter

variable {kind : String → Bool}

def Tariff.texts (kind : String → Bool) : Tariff where
  entry s := (s.printedText?.any kind).toNat
  leave _ := 0
  exit := 0

theorem Tariff.sum_texts (kind : String → Bool) (l : List Statement) :
    (l.map (Tariff.texts kind).node).sum = l.countP (·.printedText?.any kind) := by
  induction l with
  | nil => rfl
  | cons s rest ih =>
    have hnode : (Tariff.texts kind).node s = (s.printedText?.any kind).toNat := by
      cases s <;> simp [Tariff.node, Tariff.texts]
    rw [List.map_cons, List.sum_cons, ih, hnode, List.countP_cons, Nat.add_comm]
    cases s.printedText?.any kind <;> rfl

/-- What is printed at the end of a wait. -/
def ProgramFrame.owed (kind : String → Bool) : ProgramFrame → Nat
  | .awaited _ _ text => (kind text).toNat
  | _ => 0

def Progress.owed (kind : String → Bool) : Progress ProgramFrame → Nat
  | .ended _ => 0
  | .suspended _ frames => framesWork (ProgramFrame.owed kind) frames

def tally (kind : String → Bool) (m : ProgramMachine) : Nat := (prints m).countP (kind ·.value)

theorem tally_congr {m m' : ProgramMachine} (h : prints m' = prints m) : tally kind m' = tally kind m :=
  congrArg (List.countP _) h

variable {t : Statement} {L : Ledger} {m m' : ProgramMachine} {s s' : Snapshot} {n : Nat}
  {seat : SeatId} {ticket : Ticket} {frame : ProgramFrame} {frames frames' outer : List ProgramFrame}
  {result result' : Completion}

/-- At most `n` texts of the kind come from the code, now or at the end of its wait. -/
def TalliesAtMost (kind : String → Bool) (n : Nat) (m : ProgramMachine) (r : ProgramReached) : Prop :=
  tally kind r.2 + r.1.owed kind ≤ tally kind m + n

theorem TalliesAtMost.ofEnv {r : ProgramReached} (henv : r.2.env = m.env) (hr : r.1.owed kind ≤ n) :
    TalliesAtMost kind n m r := by
  unfold TalliesAtMost
  rw [tally_congr (prints_congr henv)]
  omega

theorem TalliesAtMost.after {r : ProgramReached} (h : TalliesAtMost kind n m' r)
    (hprints : prints m' = prints m) : TalliesAtMost kind n m r := by
  unfold TalliesAtMost at h ⊢
  rwa [tally_congr hprints] at h

theorem talliesAtMost_print (kind : String → Bool) (id : StatementId) (value : String)
    (m : ProgramMachine) :
    TalliesAtMost kind (kind value).toNat m (.done (print id value m)) := by
  change tally kind (print id value m) ≤ tally kind m + (kind value).toNat
  unfold tally
  cases hending : m.env.ending with
  | none =>
    rw [prints_print hending, List.countP_append, List.countP_singleton]
    cases kind value <;> exact Nat.le_refl _
  | some ending => simp [print, hending]

theorem prints_refer (id : StatementId) (var : String) (m : ProgramMachine) :
    prints (refer id var m).2 = prints m :=
  @prints_record_silent (.referred (m.env.handles.lookup var)) trivial id m

theorem prints_bind (id : StatementId) (var : String) (handle : Referent) (m : ProgramMachine) :
    prints (Interpreter.bind id var handle m) = prints m := by
  rw [prints, trace_bind, List.filterMap_append]
  exact List.append_nil _

theorem prints_enter (j : JobId) (id : StatementId) (head : Head) (inner : List Statement)
    (m : ProgramMachine) : prints (enter j id head inner m).2 = prints m := by
  cases head with
  | launchJob var => exact prints_bind ..
  | async var text => exact prints_bind ..
  | _ => rfl

theorem talliesAtMost_printResult (kind : String → Bool) (id : StatementId) (j : JobId) (text : String)
    (m : ProgramMachine) :
    TalliesAtMost kind (kind text).toNat m (printResult id j text m) := by
  have hawaited := @prints_record_silent (.awaited ((m.job? j).bind (·.outcome))) trivial id m
  unfold printResult
  dsimp only
  split
  · exact (talliesAtMost_print kind id text _).after hawaited
  · exact Nat.le_add_right_of_le (Nat.le_of_eq (tally_congr hawaited))

theorem talliesAtMost_afterWait {frames : List ProgramFrame} {k : ProgramMachine → ProgramReached}
    {r : WaitStart × ProgramMachine} (henv : r.2.env = m.env)
    (hframes : framesWork (ProgramFrame.owed kind) frames ≤ n)
    (hk : ∀ m, TalliesAtMost kind n m (k m)) : TalliesAtMost kind n m (afterWait frames k r) := by
  obtain ⟨start, m'⟩ := r
  cases start with
  | through => exact (hk m').after (prints_congr henv)
  | refused why => exact .ofEnv henv (Nat.zero_le _)
  | suspended on => exact .ofEnv henv hframes

/-- An await of a result of the kind has a text of the kind. -/
def Action.Stands (kind : String → Bool) (m : ProgramMachine) (action : Action) : Prop :=
  ∀ {var text target result}, action = .printAwait var text →
    m.env.handles.lookup var = some (.deferred target result) → kind result = true → kind text = true

theorem talliesAtMost_performAction (ticket : Ticket) (j : JobId) (id : StatementId) {action : Action}
    (hstands : action.Stands kind m) :
    TalliesAtMost kind ((Tariff.texts kind).entry (.leaf id action)) m
      (performAction ticket j id action m) := by
  have hdone : ∀ {n} (m : ProgramMachine), TalliesAtMost kind n m (.done m) := fun m =>
    .ofEnv rfl (Nat.zero_le _)
  have hrefer : ∀ {n} var, TalliesAtMost kind n m (.done (refer id var m).2) := fun var =>
    (hdone _).after (prints_refer id var m)
  have hperforms := performs_performAction ticket j id action m
  generalize performAction ticket j id action m = r at hperforms ⊢
  cases hperforms with
  | delay => exact talliesAtMost_afterWait (env_beginDelay ..) (Nat.zero_le _) hdone
  | print => exact talliesAtMost_print kind id _ m
  | throwException => exact .ofEnv rfl (Nat.zero_le _)
  | @job var => exact (hdone _).after (prints_bind id var (.bare m.signals.size) m.newSignal.2)
  | joinNothing _ | cancelNothing _ | completeNothing _ | awaitNothing _ _ => exact hrefer _
  | join _ _ =>
    exact (talliesAtMost_afterWait (beginJoin_cases ..).1 (Nat.zero_le _) hdone).after
      (prints_refer id _ m)
  | cancel _ _ =>
    exact (TalliesAtMost.ofEnv (Machine.sameBonds_cancel ..).env (Nat.zero_le _)).after
      (prints_refer id _ m)
  | cancelBare _ | completeJob _ =>
    exact (TalliesAtMost.ofEnv (Machine.env_fire ..) (Nat.zero_le _)).after (prints_refer id _ m)
  | @await var text target result signal hl _ =>
    have hle : (kind result).toNat ≤ (kind text).toNat := Bool.toNat_le_toNat (hstands rfl hl)
    have hresult (m : ProgramMachine) :
        TalliesAtMost kind (kind text).toNat m (printResult id target result m) :=
      Nat.le_trans (talliesAtMost_printResult kind id target result m) (Nat.add_le_add_left hle _)
    exact (talliesAtMost_afterWait (beginAwait_cases ..).1 hle hresult).after (prints_refer id _ m)
  | printText _ => exact (talliesAtMost_print ..).after (prints_refer id _ m)

/-- Only a leaf that begins leaves a wait at whose end something is printed. -/
theorem Moves.owed_le {started : List ProgramFrame} (kind : String → Bool)
    (h : Moves (frame :: outer) result frames' started)
    (hleaf : ∀ j id action body, frame = .rest j (.leaf id action :: body) → result ≠ .ok ()) :
    framesWork (ProgramFrame.owed kind) frames' + framesWork (ProgramFrame.owed kind) started ≤
      framesWork (ProgramFrame.owed kind) outer := by
  cases h with
  | act => exact (hleaf _ _ _ _ rfl rfl).elim
  | await => exact (hleaf _ _ _ _ rfl rfl).elim
  | _ => simp [ProgramFrame.owed]

namespace Snapshot

/-- Texts of the kind that the run has printed, and those at the end of the waits of its tasks. -/
def tally (kind : String → Bool) (s : Snapshot) : Nat :=
  RacePuzzle.tally kind s.machine + s.total (ProgramFrame.owed kind)

theorem Trades.tally_le_of_no_frames (h : Trades s s') (hf : s.focus.frames = [])
    (hprints : prints s'.machine = prints s.machine) : s'.tally kind ≤ s.tally kind := by
  rcases h with ⟨-, htotal⟩ | ⟨hf', hm, -⟩
  · exact Nat.le_of_eq (by rw [tally, tally, tally_congr hprints, htotal])
  · rw [hf'] at hf
    obtain rfl : _ = [] := hf
    cases hm

theorem Trades.tally_le_of_not_leaf (h : Trades s s')
    (hf : s.focus = .running seat ticket (frame :: outer) result)
    (hleaf : ∀ j id action body, frame = .rest j (.leaf id action :: body) → result ≠ .ok ())
    (htally : RacePuzzle.tally kind s'.machine ≤ RacePuzzle.tally kind s.machine + frame.owed kind) :
    s'.tally kind ≤ s.tally kind := by
  rcases h with ⟨hnone, -⟩ | ⟨hf', hm, htotal⟩
  · rw [hf] at hnone
    cases hnone
  · obtain ⟨-, -, rfl, rfl⟩ := Focus.running.inj (hf'.symm.trans hf)
    have hle := hm.owed_le kind hleaf
    have := htotal (ProgramFrame.owed kind)
    rw [framesWork_cons] at this
    unfold tally
    omega

/-- What a frame that is no leaf prints it has owed, unless it is a handler's text. -/
theorem tally_code_le (hs : Thread.Step ticket ⟨frame :: outer, result, m⟩ ⟨frames', result', m'⟩)
    (hleaf : ∀ j id action body, frame = .rest j (.leaf id action :: body) → result ≠ .ok ())
    (hhandler : kind handlerText = true → result = .ok ()) :
    RacePuzzle.tally kind m' ≤ RacePuzzle.tally kind m + frame.owed kind := by
  have hsame : prints m' = prints m →
      RacePuzzle.tally kind m' ≤ RacePuzzle.tally kind m + frame.owed kind :=
    fun he => Nat.le_add_right_of_le (Nat.le_of_eq (tally_congr he))
  cases hs with
  | pass _ | bodyEnd => exact hsame rfl
  | act _ => exact (hleaf _ _ _ _ rfl rfl).elim
  | @enter j id head inner body =>
    exact hsame ((prints_enter j id head inner _).trans (prints_record_began id m))
  | leave => exact hsame (prints_record_ended ..)
  | @catching id caught _ _ _ _ _ he =>
    unfold catchException at he
    split at he
    · obtain ⟨-, rfl⟩ := Prod.mk.inj he
      exact hsame rfl
    · split at he
      · have hkind : kind handlerText = false := Bool.eq_false_iff.2 fun hk => nomatch hhandler hk
        have hprint := talliesAtMost_print kind id handlerText m
        rw [he, hkind] at hprint
        exact Nat.le_add_right_of_le hprint
      · obtain ⟨-, rfl⟩ := Prod.mk.inj he
        exact hsame rfl
  | @close j _ _ _ _ _ he =>
    have henv := env_close m ticket j result
    rw [he] at henv
    exact hsame (prints_congr henv)
  | @settle j => exact hsame (prints_congr (env_settle m j))
  | @awaited id j text _ _ _ _ he =>
    have hresult := talliesAtMost_printResult kind id j text m
    rw [he] at hresult
    exact hresult
  | program =>
    have henv := (Machine.sameBonds_cancel m m.env.background).env
    exact hsame (congrArg (·.trace.toList.filterMap TraceEntry.event?) henv)

theorem tally_leaf {j : JobId} {id : StatementId} {action : Action} {body : List Statement}
    {r : ProgramReached} (hstands : action.Stands kind m)
    (he : performAction ticket j id action (record id .began m) = r)
    (hprints : prints s'.machine = prints r.2)
    (htotal : s'.total (ProgramFrame.owed kind) +
        framesWork (ProgramFrame.owed kind) (.rest j (.leaf id action :: body) :: outer) =
      total (ProgramFrame.owed kind)
          ⟨m, .running seat ticket (.rest j (.leaf id action :: body) :: outer) (.ok ())⟩ +
        (r.1.owed kind +
          framesWork (ProgramFrame.owed kind) (.leave id :: .rest j body :: outer))) :
    s'.tally kind ≤
      tally kind ⟨m, .running seat ticket (.rest j (.leaf id action :: body) :: outer) (.ok ())⟩ +
        (Tariff.texts kind).entry (.leaf id action) := by
  have hacts := talliesAtMost_performAction ticket j id (m := record id .began m) hstands
  unfold TalliesAtMost at hacts
  rw [he, tally_congr (prints_record_began id m)] at hacts
  simp only [framesWork_cons, ProgramFrame.owed] at htotal
  unfold tally
  rw [tally_congr hprints]
  dsimp only
  omega

/-- A step prints no more texts of the kind than it owes, unless it prints them for a handler. -/
theorem tally_step_le (kind : String → Bool) (h : s.Upheld t L) (hs : Step s s')
    (hstands : ∀ {j id action}, s.Begins j (.leaf id action) → action.Stands kind s.machine)
    (hhandler : kind handlerText = true → ∀ {seat ticket frames result},
      s.focus = .running seat ticket frames result → result = .ok ()) :
    s'.tally kind ≤ s.tally kind + s.price (.texts kind) := by
  have htrades := trades_step h hs
  have hsame : s.focus.frames = [] → prints s'.machine = prints s.machine →
      s'.tally kind ≤ s.tally kind + s.price (.texts kind) :=
    fun hf hprints => Nat.le_add_right_of_le (htrades.tally_le_of_no_frames hf hprints)
  cases hs with
  | skip hr hout => exact hsame rfl rfl
  | sleepOn hr hout hres =>
    obtain ⟨rfl, -⟩ := h.resumption_none hr hout hres
    exact hsame rfl rfl
  | @goOn m id rest d ticket task result m' hr hout hres =>
    have henv := env_resumption { m with dispatcher := d } ticket task.on
    rw [hres] at henv
    exact hsame rfl (prints_congr henv)
  | tick hr hnext => exact hsame rfl rfl
  | finish => exact hsame rfl rfl
  | @code m seat ticket frames result m' frames' result' hs =>
    by_cases hleaf : ∃ j id action body outer,
        frames = .rest j (.leaf id action :: body) :: outer ∧ result = .ok ()
    · obtain ⟨j, id, action, body, outer, rfl, rfl⟩ := hleaf
      cases hs with
      | act he =>
        have hacts := h.acts
        rw [he] at hacts
        cases hacts with
        | ended hquiet =>
          refine tally_leaf (hstands ⟨_, _, _, _, rfl⟩) he rfl ?_
          rw [Progress.owed, Nat.zero_add]
          exact total_code hquiet.seats _
    · cases frames with
      | nil => cases hs
      | cons frame outer =>
        have hleaf : ∀ j id action body, frame = .rest j (.leaf id action :: body) → result ≠ .ok () :=
          fun j id action body he hok => hleaf ⟨j, id, action, body, outer, he ▸ rfl, hok⟩
        exact Nat.le_add_right_of_le (htrades.tally_le_of_not_leaf rfl hleaf
          (tally_code_le hs hleaf fun hk => hhandler hk rfl))
  | @suspend m _ ticket _ result _ _ _ hs =>
    cases hs with
    | act he =>
      have hacts := h.acts
      rw [he] at hacts
      cases hacts with
      | suspended hsus =>
        refine tally_leaf (hstands ⟨_, _, _, _, rfl⟩) he rfl ?_
        rw [Progress.owed, ← framesWork_append]
        exact total_checkIn h hsus.quiet.seats _ _
    | @close j _ _ _ _ _ _ he =>
      have henv := env_close m ticket j result
      rw [he] at henv
      have hprints : prints _ = prints m := prints_congr henv
      exact Nat.le_add_right_of_le
        (htrades.tally_le_of_not_leaf rfl nofun (Nat.le_of_eq (tally_congr hprints)))

end Snapshot

/-- A handle that an await finds stands for the result that the await announces. -/
theorem Statement.Announces.stands (ht : t.Valid) (hannounces : t.Announces) (h : History t L s)
    {j : JobId} {id : StatementId} {action : Action} (hb : s.Begins j (.leaf id action)) :
    action.Stands kind s.machine := by
  rintro var text target result rfl hlookup hresult
  have hmem := mem_of_lookup hlookup
  obtain ⟨d, hd, hdecl, hmakes⟩ := ((h.bindings ht).standsFor hmem).exists_declaration h.upheld.ledger
  cases hmakes
  cases hdecl
  obtain rfl := hannounces (h.upheld.mem_of_begins hb) hd
  exact hresult

/-- Of texts that no handler prints, a run prints no more than the program has leaves for, where every
await of such a result has such a text. -/
theorem History.tally_le (hkind : kind handlerText = false)
    (hstands : ∀ {L s j id action}, History t L s → s.Begins j (.leaf id action) →
      action.Stands kind s.machine) (h : History t L s) :
    s.tally kind + s.cost (.texts kind) ≤ t.nodes.countP (·.printedText?.any kind) := by
  induction h with
  | start =>
    rw [Snapshot.cost_initial, Tariff.sum_texts]
    exact Nat.le_of_eq (Nat.zero_add _)
  | next h hs _ _ ih =>
    have htally := Snapshot.tally_step_le kind h.upheld hs (hstands h)
      fun hk => nomatch hkind.symm.trans hk
    have hcost := Snapshot.cost_step h.upheld hs (.texts kind)
    omega

/-- What an observer sees of such texts has its leaves in the program. -/
theorem Statement.countP_events_le_of_stands (hkind : kind handlerText = false)
    (hstands : ∀ {L s j id action}, History t L s → s.Begins j (.leaf id action) →
      action.Stands kind s.machine) (limits : Limits) :
    (t.evaluateWithin limits).events.countP (kind ·.value) ≤
      t.nodes.countP (·.printedText?.any kind) := by
  obtain ⟨L, h⟩ := (t.reaches_runWith limits).history
  rw [events_eq_filterMap]
  have htally := h.tally_le hkind hstands
  exact Nat.le_trans (Nat.le_add_right _ _) (Nat.le_trans (Nat.le_add_right _ _) htally)

theorem Statement.countP_events_le (ht : t.Valid) (hannounces : t.Announces) (kind : String → Bool)
    (hkind : kind handlerText = false) (limits : Limits) :
    (t.evaluateWithin limits).events.countP (kind ·.value) ≤
      t.nodes.countP (·.printedText?.any kind) :=
  t.countP_events_le_of_stands hkind (fun h hb => hannounces.stands ht h hb) limits

/-- What an observer sees is the text of a statement that prints it, or of a handler. -/
theorem Statement.exists_print_of_event (ht : t.Valid) (hannounces : t.Announces) {limits : Limits}
    {event : TimedPrint} (hevent : event ∈ (t.evaluateWithin limits).events)
    (hvalue : event.value ≠ handlerText) : ∃ s ∈ t.nodes, s.printedText? = some event.value := by
  have hkind : (handlerText == event.value) = false := beq_false_of_ne hvalue.symm
  have hle := t.countP_events_le ht hannounces (· == event.value) hkind limits
  have hpos : 0 < (t.evaluateWithin limits).events.countP (·.value == event.value) :=
    List.countP_pos_iff.2 ⟨event, hevent, beq_self_eq_true _⟩
  obtain ⟨s, hs, hprints⟩ := List.countP_pos_iff.1 (Nat.lt_of_lt_of_le hpos hle)
  obtain ⟨text, htext, he⟩ := (Option.any_eq_true _ _).1 hprints
  exact ⟨s, hs, htext.trans (congrArg some (eq_of_beq he))⟩

end RacePuzzle
