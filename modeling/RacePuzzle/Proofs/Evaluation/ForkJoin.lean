import RacePuzzle.Proofs.Evaluation.Sleepers
import RacePuzzle.Proofs.Evaluation.Output
import Mathlib.Data.List.Perm.Subperm

/-! Fork-join programs keep to their schedule. All states of a run keep time, so that at its end the
account of what has happened is closed and has the schedule as its solution; and nothing is printed but
what the schedule prints, since every leaf prints once. -/
namespace RacePuzzle

open Interpreter

variable {t : Statement} {L L' : Ledger} {m m' : ProgramMachine} {s s' : Snapshot} {D D' : JobId → Nat}
  {frames frames' outer : List ProgramFrame} {seat : SeatId} {ticket : Ticket}
  {result result' : Completion} {j : JobId} {id : StatementId} {on : Suspension}

theorem punctual_initial (t : Statement) (D : JobId → Nat) : Punctual t (.start t) D t.initial where
  untroubled := by
    refine ⟨fun {j job} _ hj => ?_, fun {job} hj => ?_⟩
    · obtain ⟨-, kind, rfl⟩ := of_job?_loaded hj
      exact ⟨⟨rfl, rfl⟩, nofun⟩
    · obtain ⟨-, kind, rfl⟩ := of_job?_loaded hj
      rfl
  account := by
    refine ⟨fun _ he => (nomatch he), fun {g} _ _ _ _ _ _ hg _ _ => ?_, fun {g} hg => ?_⟩
    · obtain ⟨htwo, o, ho, -⟩ := hg
      match g with
      | 0 | 1 => omega
      | g + 2 => cases ho
    · obtain ⟨job, hj, hsome⟩ := hg
      obtain ⟨-, kind, rfl⟩ := of_job?_loaded hj
      cases hsome
  running hf := nomatch hf
  seated hi := by
    obtain ⟨-, rfl⟩ := task?_loaded hi
    exact .entry trivial (.rest .root trivial .program) rfl
  ending he := nomatch he

theorem Snapshot.Records.eq_of_none (h : s.Records L L') (hnone : s.makes? = none) : L' = L := by
  cases h with
  | nothing _ => rfl
  | job hsome => cases hnone.symm.trans hsome

theorem Punctual.step (ht : t.Valid) (hfork : t.ForkJoin) (hmax : t.delays.sum ≤ Machine.maxTime)
    (hp : Punctual t L D s) (h : History t L s) (hs : Snapshot.Step s s') (hrec : s.Records L L')
    (hf : Follows t L' s.machine s') : ∃ D', Punctual t L' D' s' := by
  have hup := h.upheld
  cases hs with
  | skip hr hout =>
    obtain rfl := hrec.eq_of_none rfl
    exact ⟨D, hp.skip ht hup hr hout hf⟩
  | sleepOn hr hout hres =>
    obtain rfl := hrec.eq_of_none rfl
    exact ⟨D, hp.sleepOn ht hup hr hout hres hf⟩
  | goOn hr hout hres =>
    obtain rfl := hrec.eq_of_none rfl
    exact ⟨D, hp.goOn ht h hr hout hres hf⟩
  | finish =>
    obtain rfl := hrec.eq_of_none rfl
    exact ⟨D, hp.finish ht hup hf⟩
  | tick hr hnext =>
    obtain rfl := hrec.eq_of_none rfl
    exact ⟨D, hp.tick ht h hr hnext hf⟩
  | suspend hs =>
    cases hs with
    | act he =>
      obtain rfl := hrec.eq_of_none rfl
      exact ⟨D, hp.suspendAct ht hfork hmax h he hf⟩
    | close he =>
      obtain rfl := hrec.eq_of_none rfl
      exact ⟨D, hp.suspendClose ht h he hf⟩
  | code hs =>
    cases hs with
    | pass _ => cases (hp.running rfl).1
    | enter => exact ⟨D, hp.enter ht hfork h hrec hf⟩
    | bodyEnd =>
      obtain rfl := hrec.eq_of_none rfl
      exact ⟨D, hp.bodyEnd ht h hf⟩
    | act he =>
      obtain rfl := hrec.eq_of_none rfl
      exact ⟨D, hp.act ht hfork hmax h he hf⟩
    | leave =>
      obtain rfl := hrec.eq_of_none rfl
      exact ⟨D, hp.leave ht h hf⟩
    | catching he =>
      obtain rfl := hrec.eq_of_none rfl
      exact ⟨D, hp.catching ht h he hf⟩
    | close he =>
      obtain rfl := hrec.eq_of_none rfl
      exact hp.close ht h he hf
    | settle =>
      obtain rfl := hrec.eq_of_none rfl
      exact hp.settle ht h hf
    | awaited he =>
      obtain rfl := hrec.eq_of_none rfl
      exact ⟨D, hp.awaited ht hfork h he hf⟩
    | program =>
      obtain rfl := hrec.eq_of_none rfl
      exact ⟨D, hp.program ht hfork h hf⟩

theorem History.punctual (ht : t.Valid) (hfork : t.ForkJoin) (hmax : t.delays.sum ≤ Machine.maxTime)
    (h : History t L s) : ∃ D, Punctual t L D s := by
  induction h with
  | start => exact ⟨fun _ => 0, punctual_initial t _⟩
  | next hh hs hrec hf ih =>
    obtain ⟨D, hp⟩ := ih
    exact hp.step ht hfork hmax hh hs hrec hf

/-- No more is printed than the leaves of the program print. -/
theorem History.output_le (ht : t.Valid) (hfork : t.ForkJoin) (hmax : t.delays.sum ≤ Machine.maxTime)
    (h : History t L s) :
    s.output + s.cost .printing ≤ t.nodes.countP (·.printedText?.isSome) := by
  induction h with
  | start =>
    rw [Snapshot.cost_initial, Tariff.sum_printing]
    exact Nat.le_of_eq (Nat.zero_add _)
  | next h hs _ _ ih =>
    obtain ⟨D, hp⟩ := h.punctual ht hfork hmax
    have houtput := Snapshot.output_step_le h.upheld hs fun hf => (hp.running hf).1
    have hcost := Snapshot.cost_step h.upheld hs .printing
    omega

/-- At the end of the program all its jobs have settled, so that the account is closed. -/
theorem Punctual.closed (ht : t.Valid) (hfork : t.ForkJoin) (hp : Punctual t L D s)
    (h : History t L s) (hended : Logged s.machine.env.trace.toList t.id .ended) :
    Closed t L s.machine D where
  valid := ht
  forkJoin := hfork
  account := hp.account
  fits := h.upheld.ledger
  unique := h.jobOf_unique ht
  settled := by
    rintro g block ⟨htwo, o, ho, hblock⟩
    obtain ⟨-, id, head, inner, hmade⟩ := h.upheld.ledger.made htwo ho
    have hlt : g < s.machine.jobs.size := h.upheld.ledger.length ▸ (List.getElem?_eq_some_iff.1 ho).1
    refine hasSettled_iff.2 ⟨hlt, fun hopen => ?_⟩
    obtain ⟨root, body, rfl, -⟩ := ht.root
    obtain ⟨g', o', htwo', ho', hblock', hopen'⟩ :=
      isOpenIn_of_attached ht h.upheld (Statement.self_mem_nodes _) rfl (by simp) htwo ho hmade.block
        (hfork.ne_scopeLaunch hmade.mem_nodes) (hfork.attached_eq.symm ▸ hmade.mem_nodes) hopen
    exact not_isOpen_of_ended ht h htwo' ho' hblock' rfl hended hopen'
  preceded := by
    rintro st mark hmem ⟨e, he, hid, -⟩
    exact h.preceded ht he hmem hid.symm

/-- At the end of the program the schedule has been kept. -/
theorem Punctual.scheduled (ht : t.Valid) (hfork : t.ForkJoin) (hmax : t.delays.sum ≤ Machine.maxTime)
    (hp : Punctual t L D s) (h : History t L s) {time : Nat}
    (hended : ⟨t.id, .ended, time⟩ ∈ s.machine.env.trace.toList) :
    time = t.schedule.finish ∧ (prints s.machine).Perm t.schedule.events := by
  have hclosed := hp.closed ht hfork h ⟨_, hended, rfl, rfl⟩
  have hknown : Keeps L D (fun _ => none) [] := nofun
  have hnow : ∀ begun, Arrives s.machine.env.trace.toList [] begun → begun = 0 := fun _ hb => hb
  obtain ⟨hfinish, hsolves, -⟩ := hclosed.solve t .root hknown hnow hended
  refine ⟨hfinish, ?_⟩
  obtain ⟨tags, hevents, hids, hmem⟩ := hsolves.events
  have hnodup : tags.Nodup := by
    refine .of_map Prod.fst ?_
    rw [hids]
    exact ht.ids.sublist (List.filter_sublist.map _)
  have hlength : (s.machine.env.trace.toList.filterMap TraceEntry.tagged?).length ≤ tags.length := by
    have houtput := h.output_le ht hfork hmax
    have hprints := congrArg List.length (TraceEntry.map_snd_tagged s.machine.env.trace.toList)
    have htags := congrArg List.length hids
    rw [List.length_map, List.length_map, ← List.countP_eq_length_filter] at htags
    rw [List.length_map] at hprints
    rw [hprints, htags]
    exact Nat.le_trans (Nat.le_add_right _ _) (Nat.le_trans (Nat.le_add_right _ _) houtput)
  have hperm := (List.subperm_of_subset hnodup hmem).perm_of_length_le hlength
  have hsnd := hperm.symm.map Prod.snd
  rwa [TraceEntry.map_snd_tagged, hevents] at hsnd

/-- A fork-join program keeps its schedule, given the time of all its delays, a timeslice for each and
two polls for each statement: it comes to its end at the time of the schedule, and prints what the
schedule prints, in the order of the times. -/
theorem fork_join_keeps_schedule (t : Statement) (ht : t.validate = .ok ()) (hfork : t.ForkJoin)
    (limits : Limits) (hmax : limits.horizon ≤ Machine.maxTime)
    (hhorizon : t.delays.sum ≤ limits.horizon) (hpolls : 2 * t.size + 1 ≤ limits.maxPolls)
    (hslices : t.delays.length ≤ limits.maxTimeslices) :
    (t.evaluateWithin limits).termination = .completed ∧
      (t.evaluateWithin limits).endTime = t.schedule.finish ∧
      (t.evaluateWithin limits).events.Perm t.schedule.events ∧
      (t.evaluateWithin limits).events.Pairwise fun p p' => p.time ≤ p'.time := by
  have hvalid := Statement.validate_eq_ok_iff.1 ht
  have hdelays := Nat.le_trans hhorizon hmax
  obtain ⟨hfinished, result, time, hending⟩ :=
    ends_of_no_bare_jobs hvalid hfork.not_bare hhorizon hpolls hslices
  obtain ⟨L, h⟩ := (t.reaches_runWith limits).history
  obtain ⟨D, hp⟩ := h.punctual hvalid hfork hdelays
  obtain ⟨rfl, hended⟩ := hp.ending hending
  obtain ⟨rfl, hperm⟩ := hp.scheduled hvalid hfork hdelays h hended
  rw [evaluateWithin_of_finished hfinished hending]
  exact ⟨rfl, rfl, hperm, h.prints_sorted⟩

/-- A task that its child outlives is awaited after another has been joined. -/
def awaitedFamily : Statement :=
  .block 0 .coroutineScope
    [.block 1 (.async "a" "result")
        [.leaf 2 (.delay 20), .block 3 .launch [.leaf 4 (.delay 15), .leaf 5 (.print "child")]],
      .block 6 (.launchJob "b") [.leaf 7 (.delay 5), .leaf 8 (.print "side")], .leaf 9 (.join "b"),
      .leaf 10 (.print "joined"), .leaf 11 (.printAwait "a" "text"), .leaf 12 (.printAwait "b" "text")]

theorem awaited_family_keeps_schedule :
    awaitedFamily.evaluate.termination = .completed ∧ awaitedFamily.evaluate.endTime = 35 ∧
      awaitedFamily.evaluate.events.Perm
        [⟨"child", 35⟩, ⟨"side", 5⟩, ⟨"joined", 5⟩, ⟨"result", 35⟩, ⟨"text", 35⟩] := by
  have hvalid : awaitedFamily.validate = .ok () := by cbv
  have hfork : awaitedFamily.ForkJoin := by decide
  obtain ⟨hcompleted, htime, hperm, -⟩ := fork_join_keeps_schedule awaitedFamily hvalid hfork .default
    (by decide) (by decide) (by decide) (by decide)
  exact ⟨hcompleted, htime, hperm⟩

end RacePuzzle
