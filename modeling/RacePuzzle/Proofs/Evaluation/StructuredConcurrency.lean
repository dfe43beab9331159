import RacePuzzle.Evaluation.Evaluate
import RacePuzzle.Proofs.Evaluation.Completion
import RacePuzzle.Proofs.Evaluation.Passages
import Mathlib.Data.List.Permutation

/-! Structured concurrency. What a scope covers, or what a join or an await waits for, prints nothing
once the program has gone on: a covered statement prints in an open job below the block that is
covered, and when the program goes on no job of this block is open. -/
namespace RacePuzzle

variable {t : Statement} {L : Ledger} {m : ProgramMachine} {s : Snapshot}

theorem le_framesWork_cons {w : ProgramFrame → Nat} (frame : ProgramFrame)
    (frames : List ProgramFrame) : framesWork w frames ≤ framesWork w (frame :: frames) := by
  rw [framesWork_cons]
  exact Nat.le_add_left _ _

section Weight

variable {g : Nat} {w : ProgramFrame → Nat}

/-- Frames that end the job weigh something if that end does, with what is around it. -/
theorem framesWork_pos_of_runs
    (hw : ∀ {tr q outer}, Runs t L tr q (.close g :: outer) → 0 < framesWork w (.close g :: outer))
    {tr : List TraceEntry} {q : Option JobId} {frames : List ProgramFrame} (hr : Runs t L tr q frames)
    (hg : 0 < opened g frames) : 0 < framesWork w frames := by
  induction hr with
  | nothing => exact absurd hg (Nat.lt_irrefl 0)
  | program => exact absurd hg (Nat.lt_irrefl 0)
  | rest _ _ _ ih => exact Nat.lt_of_lt_of_le (ih hg) (le_framesWork_cons _ _)
  | leave _ _ _ _ ih =>
    exact Nat.lt_of_lt_of_le (ih hg) (Nat.le_trans (le_framesWork_cons _ _) (le_framesWork_cons _ _))
  | catching _ _ ih => exact Nat.lt_of_lt_of_le (ih hg) (le_framesWork_cons _ _)
  | awaited _ _ ih => exact Nat.lt_of_lt_of_le (ih hg) (le_framesWork_cons _ _)
  | @task k _ _ _ _ hk ho hblock hs =>
    by_cases hkg : k = g
    · subst hkg
      have hend : Runs t L tr (some k) [.close k] := .task hk ho hblock hs
      exact hw hend
    · simp [ProgramFrame.opens?, hkg] at hg
  | @scope k _ _ _ _ _ hk ho hblock hr ih =>
    by_cases hkg : k = g
    · subst hkg
      exact hw (.scope hk ho hblock hr)
    · simp only [opened_cons _ (.close k), ProgramFrame.opens?, Option.some.injEq, hkg, if_false,
        Nat.add_zero] at hg
      exact Nat.lt_of_lt_of_le (ih hg) (le_framesWork_cons _ _)

variable (hsame : ∀ j, w (.settle j) = w (.close j))
  (hw : ∀ {tr q outer}, Runs t L tr q (.close g :: outer) → 0 < framesWork w (.close g :: outer))

include hsame hw

theorem framesWork_pos_of_rests {on : Suspension} {frames : List ProgramFrame}
    (hr : Rests t L m on frames) (hg : 0 < opened g frames) : 0 < framesWork w frames := by
  cases hr with
  | entry _ hr => exact framesWork_pos_of_runs hw hr hg
  | children hr =>
    have hpos := framesWork_pos_of_runs hw hr (opened_settle .. ▸ hg)
    rwa [framesWork_cons, hsame]
  | wait hr hn =>
    rw [opened_append, hn.opened, Nat.zero_add] at hg
    rw [framesWork_append]
    exact Nat.add_pos_right _ (framesWork_pos_of_runs hw hr hg)

theorem framesWork_pos_of_ready {result : Completion} {frames : List ProgramFrame}
    (hr : Ready t L m result frames) (hg : 0 < opened g frames) : 0 < framesWork w frames := by
  cases hr with
  | runs hr => exact framesWork_pos_of_runs hw hr hg
  | failing _ hr =>
    exact Nat.lt_of_lt_of_le (framesWork_pos_of_runs hw hr hg) (le_framesWork_cons _ _)
  | settling hr _ _ =>
    have hpos := framesWork_pos_of_runs hw hr (opened_settle .. ▸ hg)
    rwa [framesWork_cons, hsame]

/-- A task in its seat that ends the job weighs something. -/
theorem Snapshot.Upheld.work_pos (h : s.Upheld t L)
    (hg : 0 < s.machine.work fun task => RacePuzzle.opened g task.frames) :
    0 < s.machine.work fun task => framesWork w task.frames := by
  obtain ⟨i, task, hi, htask⟩ := Dispatcher.exists_of_work_pos
    (fun task : Task ProgramFrame => RacePuzzle.opened g task.frames) hg
  exact Nat.lt_of_lt_of_le (framesWork_pos_of_rests hsame hw (h.seated hi).rests htask)
    (Dispatcher.le_work (fun task : Task ProgramFrame => framesWork w task.frames) hi)

theorem Snapshot.Upheld.total_pos (h : s.Upheld t L) (hg : 2 ≤ g) (hopen : IsOpen s.machine g) :
    0 < s.total w := by
  have hone := h.opened_eq_one hg hopen
  by_cases hseats : 0 < s.machine.work fun task => RacePuzzle.opened g task.frames
  · exact Nat.add_pos_left (h.work_pos hsame hw hseats) _
  · obtain ⟨m, f⟩ := s
    cases f with
    | idle =>
      simp only [Snapshot.opened, Focus.opened] at hone hseats
      omega
    | running seat ticket frames result =>
      simp only [Snapshot.opened, Focus.opened] at hone hseats
      have hg : 0 < RacePuzzle.opened g frames := by omega
      exact Nat.add_pos_right _ (framesWork_pos_of_ready hsame hw (h.polled rfl).ready hg)

end Weight

section Scope

variable {g : Nat} {o : Origin} {id : StatementId} {head : Head} {inner : List Statement}

/-- The end of an open scope is still to come. -/
theorem cost_ends_pos_of_isOpen (h : s.Upheld t L) (hg : 2 ≤ g) (ho : L[g]? = some o)
    (hblock : o.block = some (.block id head inner)) (hs : head.isScope = true)
    (hopen : IsOpen s.machine g) : 0 < s.cost (.ends id) := by
  refine h.total_pos (fun _ => rfl) (fun hr => ?_) hg hopen
  cases hr with
  | task _ ho' hblock' hs' =>
    obtain rfl := Option.some.inj (ho.symm.trans ho')
    cases hblock.symm.trans hblock'
    cases hs.symm.trans hs'
  | scope _ ho' hblock' hr' =>
    obtain rfl := Option.some.inj (ho.symm.trans ho')
    cases hblock.symm.trans hblock'
    simp only [framesWork_cons, Tariff.frame, Tariff.ends, if_true]
    omega

theorem not_isOpen_of_ended (ht : t.Valid) (h : History t L s) (hg : 2 ≤ g) (ho : L[g]? = some o)
    (hblock : o.block = some (.block id head inner)) (hs : head.isScope = true)
    (hl : Logged s.machine.env.trace.toList id .ended) : ¬ IsOpen s.machine g := by
  intro hopen
  have hzero := cost_ends_eq_zero ht h hl
  have hpos := cost_ends_pos_of_isOpen h.upheld hg ho hblock hs hopen
  omega

end Scope

theorem Snapshot.Upheld.isOpen_parent (h : s.Upheld t L) {g : Nat} {o : Origin} (hg : 2 ≤ g)
    (ho : L[g]? = some o) (hopen : IsOpen s.machine g) : IsOpen s.machine o.parent := by
  obtain ⟨pb, hpb, hmem⟩ := h.exists_parent hg ho hopen
  refine ⟨pb, hpb, ?_⟩
  cases hout : pb.outcome with
  | none => rfl
  | some out =>
    have hnil := h.sound.tree.links.childless hpb (by rw [hout]; rfl)
    rw [hnil] at hmem
    cases hmem

def IsOpenIn (L : Ledger) (m : ProgramMachine) (block : Statement) : Prop :=
  ∃ (g : Nat) (o : Origin), 2 ≤ g ∧ L[g]? = some o ∧ o.block = some block ∧ IsOpen m g

theorem Ledger.Fits.two_le (h : L.Fits t m) {g : Nat} {o : Origin} {block : Statement}
    (ho : L[g]? = some o) (hblock : o.block = some block) (h1 : g ≠ 1) : 2 ≤ g := by
  match g with
  | 0 =>
    obtain rfl := Option.some.inj (h.root.symm.trans ho)
    cases hblock
  | 1 => exact absurd rfl h1
  | g + 2 => exact Nat.le_add_left _ _

/-- While a job of an attached block is open, so is one of the block that it is attached to. The
induction goes from the job to its parent, which the block around it has made. -/
theorem isOpenIn_of_attached (ht : t.Valid) (h : s.Upheld t L) {cid : StatementId} {chead : Head}
    {cbody : List Statement} (hc : .block cid chead cbody ∈ t.nodes) (hm : chead.makesJob)
    (hd : chead ≠ .scopeLaunch) {g : Nat} (hg : 2 ≤ g) {o : Origin} (ho : L[g]? = some o)
    {id : StatementId} {head : Head} {body : List Statement}
    (hblock : o.block = some (.block id head body)) (hhead : head ≠ .scopeLaunch)
    (hatt : .block id head body ∈ (Statement.block cid chead cbody).attached)
    (hopen : IsOpen s.machine g) : IsOpenIn L s.machine (.block cid chead cbody) := by
  induction g using Nat.strongRecOn generalizing o id head body with
  | ind g ih =>
    by_cases hsame : Statement.block id head body = .block cid chead cbody
    · exact ⟨g, o, hg, ho, hsame ▸ hblock, hopen⟩
    · obtain ⟨hlt, id', head', body', hmade⟩ := h.ledger.made hg ho
      cases hblock.symm.trans hmade.block
      obtain ⟨owner, before, rest, hplace, -, hparent⟩ := hmade.place
      obtain ⟨pid, phead, pbody, pbefore, prest, hpatt, hphead, hpplace⟩ :=
        Statement.ownedBelow hc hm hd hatt hsame
      obtain ⟨rfl, -⟩ := ht.place_unique hplace hpplace
      have h1 : o.parent ≠ 1 := fun he => hhead (hmade.detached he)
      have hget := List.getElem?_eq_getElem
        (Nat.lt_trans hlt (List.getElem?_eq_some_iff.1 ho).1 : o.parent < L.length)
      have hpblock := (hparent h1 _ hget).2
      exact ih o.parent hlt (h.ledger.two_le hget hpblock h1) hget hpblock hphead hpatt
        (h.isOpen_parent hg ho hopen)

/-- Below a block that makes a job, a statement acts only while a job of the block is open. -/
theorem Snapshot.ActsIn.isOpenIn (ht : t.Valid) (h : s.Upheld t L) {cid : StatementId} {chead : Head}
    {cbody : List Statement} (hc : .block cid chead cbody ∈ t.nodes) (hm : chead.makesJob)
    (hd : chead ≠ .scopeLaunch) {j : JobId} {st : Statement} (hacts : s.ActsIn t L j st)
    (hatt : st ∈ (Statement.block cid chead cbody).attached)
    (hne : st ≠ .block cid chead cbody) : IsOpenIn L s.machine (.block cid chead cbody) := by
  obtain ⟨body, hat⟩ := hacts.place
  obtain ⟨o, before, ho, hplace, -, -⟩ := hat.place
  obtain ⟨pid, phead, pbody, pbefore, prest, hpatt, hphead, hpplace⟩ :=
    Statement.ownedBelow hc hm hd hatt hne
  obtain ⟨hblock, -⟩ := ht.place_unique hplace hpplace
  exact isOpenIn_of_attached ht h hc hm hd (h.ledger.two_le ho hblock hacts.ne) ho hblock hphead hpatt
    hacts.isOpen

/-- Only leaves and handlers print. -/
theorem Snapshot.Upheld.of_printed (ht : t.Valid) (h : s.Upheld t L) {e : TraceEntry}
    (he : s.Entry e) {value : String} (hmark : e.mark = .printed value) :
    ∃ j st, st.id = e.statement ∧ s.ActsIn t L j st ∧
      ∀ id head body, st = .block id head body → head.makesJob = false := by
  cases he with
  | acted hb _ => exact ⟨_, _, rfl, h.actsIn_of_begins hb, nofun⟩
  | caught hends =>
    obtain ⟨j, st, hid, hacts, inner, hmem⟩ := h.actsIn_of_caught hends
    obtain ⟨body, hat⟩ := hacts.place
    obtain rfl := ht.eq_of_id hat.head_mem_nodes hmem hid
    refine ⟨j, _, hid, hacts, fun _ _ _ he => ?_⟩
    cases he
    rfl
  | shown hends =>
    obtain ⟨j, st, hid, hacts, var, value, hmem⟩ := h.actsIn_of_awaited hends
    obtain ⟨body, hat⟩ := hacts.place
    obtain rfl := ht.eq_of_id hat.head_mem_nodes hmem hid
    exact ⟨j, _, hid, hacts, nofun⟩
  | _ => cases hmark

/-- The statements whose prints come after all that `x` covers: a leaf `x` that shows what it has
awaited, and what comes after `x`. -/
inductive Past (t x : Statement) : StatementId → Prop
  | shown {id var text} : x = .leaf id (.printAwait var text) → Past t x id
  | after {st} : t.ComesAfter x st → Past t x st.id

/-- When a statement past `x` has printed or is about to, no job of what `x` covers is open. -/
theorem not_isOpenIn_of_past (ht : t.Valid) (h : History t L s) {x c : Statement}
    (hc : t.Covers x c) {e : TraceEntry} (he : e ∈ s.machine.env.trace.toList ∨ s.Entry e)
    {value : String} (hmark : e.mark = .printed value) (hpast : Past t x e.statement) :
    ¬ IsOpenIn L s.machine c := by
  rintro ⟨g, o, hg, ho, hblock, hopen⟩
  have hps := h.passages ht
  generalize hid : e.statement = id at hpast
  cases hpast with
  | @shown id var text hx =>
    -- the result of the awaited block is shown
    subst hx
    cases hc with
    | wait hmem hcmem hw =>
      have hover : Over L s.machine (.printAwait var text) := by
        rcases he with hold | hnew
        · exact hps.printed hmem ⟨e, hold, hid, hmark⟩
        · exact hps.over_of_entry ht h hnew hmem hid hmark
      exact hover hg ho hblock hw hopen
  | @after st hafter =>
    have hpreceded : Preceded t s.machine.env.trace.toList st := by
      rcases he with hold | hnew
      · exact h.preceded ht hold hafter.mem_nodes hid.symm
      · obtain ⟨j, st', hid', hacts⟩ := h.upheld.actsIn_of_entry hnew
        obtain ⟨body, hat⟩ := hacts.place
        obtain rfl := ht.eq_of_id hafter.mem_nodes hat.head_mem_nodes (hid.symm.trans hid'.symm)
        exact hacts.preceded ht
    obtain ⟨owner, before, rest, hplace⟩ := Statement.exists_placed hafter.mem_nodes
    have hended := hpreceded _ _ _ hplace _ (hafter.mem_before ht.ids hplace)
    cases hc with
    | scope hs _ => exact not_isOpen_of_ended ht h hg ho hblock hs hended hopen
    | wait hmem _ hw => exact hps.ended hmem hended hg ho hblock hw hopen

/-- A covered statement that is about to print acts in an open job of the block that covers it. -/
theorem isOpenIn_of_printed (ht : t.Valid) (h : s.Upheld t L) {x c : Statement} (hc : t.Covers x c)
    {e : TraceEntry} (he : s.Entry e) {value : String} (hmark : e.mark = .printed value)
    {st : Statement} (hatt : st ∈ c.attached) (hid : st.id = e.statement) :
    IsOpenIn L s.machine c := by
  obtain ⟨cid, chead, cbody, rfl, hcmem, hm, hd⟩ := hc.exists_block
  obtain ⟨j, st', hid', hacts, hno⟩ := h.of_printed ht he hmark
  obtain ⟨body, hat⟩ := hacts.place
  have hmem := Statement.mem_nodes_of_mem_nodes hcmem (Statement.attached_subset_nodes _ hatt)
  obtain rfl := ht.eq_of_id hmem hat.head_mem_nodes (hid.trans hid'.symm)
  refine hacts.isOpenIn ht h hcmem hm hd hatt fun hsame => ?_
  cases (hno _ _ _ hsame).symm.trans hm

/-- No print of a covered statement follows one past the statement that covers it. -/
theorem History.prints_in_order (ht : t.Valid) (h : History t L s) {x c : Statement}
    (hc : t.Covers x c) : s.machine.env.trace.toList.Pairwise fun e e' =>
      ∀ value value', e.mark = .printed value → e'.mark = .printed value' →
        Past t x e.statement → ∀ st ∈ c.attached, st.id ≠ e'.statement := by
  induction h with
  | start => exact .nil
  | @next L L' s s' h hs hrec hfollows ih =>
    obtain ⟨new, htrace, hnew⟩ := (Snapshot.notes_step h.upheld hs).trace
    have hlater : ∀ e e', (e ∈ s.machine.env.trace.toList ∨ s.Entry e) → e' ∈ new →
        ∀ value value', e.mark = .printed value → e'.mark = .printed value' →
          Past t x e.statement → ∀ st ∈ c.attached, st.id ≠ e'.statement := by
      intro e e' he he' value value' hmark hmark' hpast st hatt hid
      exact not_isOpenIn_of_past ht h hc he hmark hpast
        (isOpenIn_of_printed ht h.upheld hc (hnew e' he') hmark' hatt hid)
    rw [htrace, List.pairwise_append]
    refine ⟨ih, ?_, fun e he e' he' => hlater e e' (.inl he) he'⟩
    exact List.pairwise_of_forall_mem_list fun e he e' he' => hlater e e' (.inr (hnew e he)) he'

def TraceEntry.tagged? (e : TraceEntry) : Option (StatementId × TimedPrint) :=
  e.event?.map (e.statement, ·)

theorem TraceEntry.of_tagged? {e : TraceEntry} {tag : StatementId × TimedPrint}
    (h : e.tagged? = some tag) : tag.1 = e.statement ∧ ∃ value, e.mark = .printed value := by
  obtain ⟨event, he, rfl⟩ := Option.map_eq_some_iff.1 h
  refine ⟨rfl, ?_⟩
  unfold TraceEntry.event? at he
  split at he
  · next value hmark => exact ⟨value, hmark⟩
  · cases he

theorem TraceEntry.map_snd_tagged (tr : List TraceEntry) :
    (tr.filterMap tagged?).map Prod.snd = tr.filterMap event? := by
  have hsnd : event? = fun e => e.tagged?.map Prod.snd := by
    funext e
    cases h : e.event? <;> simp [tagged?, h]
  rw [hsnd, List.map_filterMap]

namespace Statement

/-- The events of an evaluation, each with the statement that emitted it. -/
def taggedEvents (t : Statement) (limits : Limits) : List (StatementId × TimedPrint) :=
  (t.runWith limits).2.env.trace.toList.filterMap TraceEntry.tagged?

theorem events_evaluateWithin (t : Statement) (limits : Limits) :
    (t.evaluateWithin limits).events = (t.taggedEvents limits).map Prod.snd := by
  rw [events_eq_filterMap, taggedEvents, TraceEntry.map_snd_tagged]

theorem reaches_runWith (t : Statement) (limits : Limits) :
    t.Reaches ⟨(t.runWith limits).2, .idle⟩ := by
  obtain ⟨k, r, hr, hstops⟩ :=
    Machine.exists_restsAt_runFor limits hasEnded limits.maxTimeslices t.loaded
  have hreaches : t.Reaches ⟨r, .idle⟩ := RestsAt.reaches ⟨k, hr⟩
  have hstops : Machine.StopsWith limits hasEnded k r (t.runWith limits).1
      (t.runWith limits).2 := hstops
  generalize (t.runWith limits).1 = reason at hstops
  cases reason with
  | finished => exact hstops.2 ▸ hreaches
  | stuck => exact hstops.2.2 ▸ hreaches
  | pastHorizon => exact hstops.2.2 ▸ hreaches
  | outOfBudget =>
    rcases hstops.2 with ⟨-, hlast⟩ | ⟨-, ⟨time, hnext⟩, hlast⟩
    · exact hlast ▸ hreaches
    · rw [hlast]
      exact hreaches.tail (.tick hr.ready hnext)

end Statement

/-- No event of what is covered comes late. What a scope covers, without what it starts in the
background, or what a join or an await waits for, emits nothing after the await or anything that
comes after it. -/
theorem covered_events_come_first (t : Statement) (ht : t.validate = .ok ()) (limits : Limits) :
    (t.evaluateWithin limits).events = (t.taggedEvents limits).map Prod.snd ∧
    ∀ x c, t.Covers x c → (t.taggedEvents limits).Pairwise fun e e' =>
      Past t x e.1 → ∀ st ∈ c.attached, st.id ≠ e'.1 := by
  refine ⟨t.events_evaluateWithin limits, fun x c hc => ?_⟩
  obtain ⟨L, hL⟩ := (t.reaches_runWith limits).history
  have hordered := hL.prints_in_order (Statement.validate_eq_ok_iff.1 ht) hc
  rw [Statement.taggedEvents, List.pairwise_filterMap]
  refine hordered.imp fun {e e'} h tag htag tag' htag' hpast => ?_
  obtain ⟨hid, value, hmark⟩ := TraceEntry.of_tagged? htag
  obtain ⟨hid', value', hmark'⟩ := TraceEntry.of_tagged? htag'
  rw [hid] at hpast
  rw [hid']
  exact h value value' hmark hmark' hpast

/-- A block that is awaited prints, and the await shows its result. -/
def awaitedPrint : Statement :=
  .block 0 .coroutineScope
    [.block 1 (.async "a" "done") [.leaf 2 (.print "work")], .leaf 3 (.printAwait "a" "result"),
      .leaf 4 (.print "next")]

theorem awaited_print_comes_first :
    (awaitedPrint.taggedEvents .default).map Prod.fst = [2, 3, 4] ∧
      (awaitedPrint.taggedEvents .default).Pairwise fun e e' =>
        Past awaitedPrint (.leaf 3 (.printAwait "a" "result")) e.1 →
          ∀ st ∈ (Statement.block 1 (.async "a" "done") [.leaf 2 (.print "work")]).attached,
            st.id ≠ e'.1 := by
  have hvalid : awaitedPrint.validate = .ok () := by cbv
  have hcovers : awaitedPrint.Covers (.leaf 3 (.printAwait "a" "result"))
      (.block 1 (.async "a" "done") [.leaf 2 (.print "work")]) :=
    .wait (by simp [awaitedPrint, Statement.nodes, Statement.bodyNodes])
      (by simp [awaitedPrint, Statement.nodes, Statement.bodyNodes]) .await
  refine ⟨by cbv, (covered_events_come_first awaitedPrint hvalid .default).2 _ _ hcovers⟩

end RacePuzzle
