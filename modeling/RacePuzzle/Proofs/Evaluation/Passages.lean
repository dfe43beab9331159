import RacePuzzle.Proofs.Evaluation.Bindings
import RacePuzzle.Proofs.Program.Cover

/-! What has ended when a statement goes on. All that precedes a statement has ended before it begins,
a statement ends at most once, and a join or an await ends only when the job that it waits for has
settled. -/
namespace RacePuzzle

open Interpreter

variable {t : Statement} {L L' : Ledger} {m m' : ProgramMachine} {s s' : Snapshot}

/-- The statement acts in the job at its place, and the job is open. -/
structure Snapshot.ActsIn (t : Statement) (L : Ledger) (s : Snapshot) (j : JobId) (st : Statement) :
    Prop where
  place : ∃ body, At t L s.machine.env.trace.toList j (st :: body)
  isOpen : IsOpen s.machine j
  ne : j ≠ 1

namespace Snapshot.Upheld

theorem actsIn_of_begins (h : s.Upheld t L) {j : JobId} {st : Statement} (hb : s.Begins j st) :
    s.ActsIn t L j st := by
  obtain ⟨body, hat⟩ := h.at_of_begins hb
  obtain ⟨seat, ticket, _, outer, hf⟩ := hb
  obtain ⟨m, f⟩ := s
  obtain rfl : f = _ := hf
  cases (h.polled rfl).ready with
  | runs hr =>
    cases hr with
    | rest hat' hout hr =>
      exact ⟨⟨body, hat⟩, h.isOpen_of_runs (.rest hat' hout hr) (Nat.le_add_left _ _), hr.job_ne⟩

/-- The frames with which a statement ends in the task that is polled. -/
theorem actsIn_of_leave (h : s.Upheld t L) {seat : SeatId} {ticket : Ticket}
    {frames outer : List ProgramFrame} {result : Completion} {id : StatementId} {j : JobId}
    (hf : s.focus = .running seat ticket frames result)
    (hopened : ∀ k, RacePuzzle.opened k (.leave id :: outer) = RacePuzzle.opened k frames)
    (hr : Runs t L s.machine.env.trace.toList (some j) (.leave id :: outer)) :
    ∃ st, st.id = id ∧ s.ActsIn t L j st := by
  obtain ⟨st, body, hid, hat⟩ := hr.at_of_leave
  refine ⟨st, hid, ⟨body, hat⟩, h.isOpen_of_runs hr ?_, hr.job_ne⟩
  rw [hopened, Snapshot.opened, hf]
  exact Nat.le_add_left _ _

theorem actsIn_of_ended (h : s.Upheld t L) {id : StatementId} (he : s.Ends (.leave id) (.ok ())) :
    ∃ j st, st.id = id ∧ s.ActsIn t L j st := by
  obtain ⟨seat, ticket, outer, hf⟩ := he
  cases (h.polled hf).ready with
  | runs hr =>
    generalize hframes : ProgramFrame.leave id :: outer = frames at hr
    cases hr with
    | @leave j st body outer hat hb hout hr =>
      cases hframes
      obtain ⟨st', hid, hacts⟩ := h.actsIn_of_leave hf (fun _ => rfl) (.leave hat hb hout hr)
      exact ⟨j, st', hid, hacts⟩
    | _ => cases hframes

/-- A handler acts for its own block. -/
theorem actsIn_of_caught (h : s.Upheld t L) {id : StatementId} {kind : ExceptionKind}
    {result : Completion} (he : s.Ends (.catching id kind) result) :
    ∃ j st, st.id = id ∧ s.ActsIn t L j st ∧ ∃ inner, .block id (.tryCatch kind) inner ∈ t.nodes := by
  obtain ⟨seat, ticket, outer, hf⟩ := he
  cases (h.polled hf).ready with
  | runs hr =>
    cases hr with
    | @catching j _ _ inner _ hmem hr =>
      obtain ⟨st, hid, hacts⟩ := h.actsIn_of_leave hf (fun _ => (opened_catching ..).symm) hr
      exact ⟨j, st, hid, hacts, inner, hmem⟩

/-- An awaited result is shown for the leaf that awaits it. -/
theorem actsIn_of_awaited (h : s.Upheld t L) {id : StatementId} {g : JobId} {text : String}
    {result : Completion} (he : s.Ends (.awaited id g text) result) :
    ∃ j st, st.id = id ∧ s.ActsIn t L j st ∧
      ∃ var value, .leaf id (.printAwait var value) ∈ t.nodes := by
  obtain ⟨seat, ticket, outer, hf⟩ := he
  cases (h.polled hf).ready with
  | runs hr =>
    cases hr with
    | @awaited j _ var value _ _ _ hmem hr =>
      obtain ⟨st, hid, hacts⟩ := h.actsIn_of_leave hf (fun _ => (opened_awaited ..).symm) hr
      exact ⟨j, st, hid, hacts, var, value, hmem⟩

/-- Every entry of the trace belongs to a statement that acts. -/
theorem actsIn_of_entry (h : s.Upheld t L) {e : TraceEntry} (he : s.Entry e) :
    ∃ j st, st.id = e.statement ∧ s.ActsIn t L j st := by
  cases he with
  | began hb => exact ⟨_, _, rfl, h.actsIn_of_begins hb⟩
  | bound hb _ => exact ⟨_, _, rfl, h.actsIn_of_begins hb⟩
  | acted hb _ => exact ⟨_, _, rfl, h.actsIn_of_begins hb⟩
  | ended he => exact h.actsIn_of_ended he
  | caught he =>
    obtain ⟨j, st, hid, hacts, -⟩ := h.actsIn_of_caught he
    exact ⟨j, st, hid, hacts⟩
  | awaited he =>
    obtain ⟨j, st, hid, hacts, -⟩ := h.actsIn_of_awaited he
    exact ⟨j, st, hid, hacts⟩
  | shown he =>
    obtain ⟨j, st, hid, hacts, -⟩ := h.actsIn_of_awaited he
    exact ⟨j, st, hid, hacts⟩

end Snapshot.Upheld

def Preceded (t : Statement) (tr : List TraceEntry) (st : Statement) : Prop :=
  ∀ owner before rest, t.Placed owner before (st :: rest) → ∀ d ∈ before, Logged tr d.id .ended

theorem Preceded.mono {tr tr' : List TraceEntry} (htr : tr <+: tr') {st : Statement}
    (h : Preceded t tr st) : Preceded t tr' st :=
  fun _ _ _ hp d hd => (h _ _ _ hp d hd).mono htr

theorem At.preceded (hids : t.ids.Nodup) {tr : List TraceEntry} {j : JobId} {st : Statement}
    {body : List Statement} (h : At t L tr j (st :: body)) : Preceded t tr st := by
  intro owner before rest hp d hd
  obtain ⟨o, before', -, hp', -, hended⟩ := h.place
  obtain ⟨-, rfl⟩ := Statement.place_unique hids hp hp'
  exact hended d hd

theorem Snapshot.ActsIn.preceded (ht : t.Valid) {j : JobId} {st : Statement} (h : s.ActsIn t L j st) :
    Preceded t s.machine.env.trace.toList st :=
  let ⟨_, hat⟩ := h.place
  hat.preceded ht.ids

theorem Snapshot.Upheld.preceded_of_entry (ht : t.Valid) (h : s.Upheld t L) {e : TraceEntry}
    (he : s.Entry e) {st : Statement} (hst : st ∈ t.nodes) (hid : st.id = e.statement) :
    Preceded t s.machine.env.trace.toList st := by
  obtain ⟨j, st', hid', hacts⟩ := h.actsIn_of_entry he
  obtain ⟨body, hat⟩ := hacts.place
  obtain rfl := ht.eq_of_id hst hat.head_mem_nodes (hid.trans hid'.symm)
  exact hacts.preceded ht

/-- Whatever a statement has done, what precedes it had ended. -/
theorem History.preceded (ht : t.Valid) (h : History t L s) {e : TraceEntry}
    (he : e ∈ s.machine.env.trace.toList) {st : Statement} (hst : st ∈ t.nodes)
    (hid : st.id = e.statement) : Preceded t s.machine.env.trace.toList st := by
  induction h with
  | start => cases he
  | @next L L' s s' h hs _ hfollows ih =>
    rcases (Snapshot.notes_step h.upheld hs).of_mem_trace he with he | he
    · exact (ih he).mono hfollows.kept.trace
    · exact (h.upheld.preceded_of_entry ht he hst hid).mono hfollows.kept.trace

def Tariff.ends (id : StatementId) : Tariff where
  entry _ := 0
  leave x := if x = id then 1 else 0
  exit := 0

theorem sum_ends (id : StatementId) (l : List Statement) :
    (l.map (Tariff.ends id).node).sum = (l.map Statement.id).count id := by
  induction l with
  | nil => rfl
  | cons s rest ih =>
    have hnode : (Tariff.ends id).node s = if s.id = id then 1 else 0 := by
      cases s with
      | leaf => exact Nat.zero_add _
      | block _ head _ => cases head <;> exact Nat.zero_add _
    rw [List.map_cons, List.sum_cons, ih, hnode, List.map_cons, List.count_cons, Nat.add_comm]
    simp

theorem cost_ends_le (ht : t.Valid) (h : History t L s) (id : StatementId) :
    s.cost (.ends id) ≤ 1 := by
  refine Nat.le_trans (Snapshot.cost_le_of_history h _) ?_
  rw [sum_ends]
  exact List.nodup_iff_count_le_one.1 ht.ids id

/-- A statement that has ended neither is left to run nor waits for its end. -/
theorem cost_ends_eq_zero (ht : t.Valid) (h : History t L s) {id : StatementId}
    (hl : Logged s.machine.env.trace.toList id .ended) : s.cost (.ends id) = 0 := by
  induction h with
  | start =>
    obtain ⟨e, he, -⟩ := hl
    cases he
  | @next L L' s s' h hs _ _ ih =>
    have hcost := Snapshot.cost_step h.upheld hs (.ends id)
    obtain ⟨e, he, hid, hmark⟩ := hl
    rcases (Snapshot.notes_step h.upheld hs).of_mem_trace he with he | hentry
    · have := ih ⟨e, he, hid, hmark⟩
      omega
    · obtain rfl := hid
      have hentry : s.Entry ⟨e.statement, .ended, e.time⟩ := hmark ▸ hentry
      obtain ⟨seat, ticket, outer, hf⟩ := hentry.ends
      have hle := cost_ends_le ht h e.statement
      have hprice : s.price (.ends e.statement) = 1 := by
        simp [Snapshot.price, hf, Tariff.price, Tariff.ends]
      omega

theorem cost_ends_pos_of_begins {j : JobId} {st : Statement} (h : s.Begins j st) :
    0 < s.cost (.ends st.id) := by
  obtain ⟨seat, ticket, body, outer, hf⟩ := h
  have hbody : 0 < (Tariff.ends st.id).body (st :: body) := by
    cases st with
    | leaf id action =>
      rw [Tariff.body_leaf]
      simp only [Tariff.ends, Statement.id, if_true]
      omega
    | block id head inner =>
      rw [Tariff.body_block]
      simp only [Tariff.ends, Statement.id, if_true]
      omega
  have hframes : framesWork (Tariff.ends st.id).frame s.focus.frames =
      (Tariff.ends st.id).body (st :: body) + framesWork (Tariff.ends st.id).frame outer := by
    rw [hf]
    rfl
  unfold Snapshot.cost Snapshot.total
  omega

/-- No job that the action waits for is open. -/
def Over (L : Ledger) (m : ProgramMachine) (action : Action) : Prop :=
  ∀ ⦃g : Nat⦄ ⦃o : Origin⦄ ⦃block : Statement⦄, 2 ≤ g → L[g]? = some o → o.block = some block →
    action.WaitsFor block → ¬ IsOpen m g

/-- What the handle of an action stands for is complete. -/
theorem over_of_fired (h : s.Upheld t L) (hb : Bindings t L s) {action : Action} {var : String}
    {handle : Referent} (hu : action.uses? = some var)
    (hmem : (var, handle) ∈ s.machine.env.handles) (hf : Fired s.machine handle) :
    Over L s.machine action := by
  rintro g o block hg ho hblock hw ⟨b, hbond, hnone⟩
  obtain ⟨var', hu', hd⟩ := hw.uses
  obtain rfl := Option.some.inj (hu'.symm.trans hu)
  obtain ⟨handle', hmem', hj⟩ := hb.bound hg ho hblock hd
  obtain rfl := hb.unique hmem hmem'
  obtain ⟨job, hjob, rfl⟩ := Machine.bond?_eq_some.1 hbond
  have hsignal : signal? handle s.machine = some job.completion := by
    cases handle with
    | bare _ => cases hj
    | task _ =>
      cases hj
      simp [signal?, hjob]
    | deferred _ _ =>
      cases hj
      simp [signal?, hjob]
  have hsettled := h.sound.tree.completions.settled hbond (hf _ hsignal)
  rw [hnone] at hsettled
  cases hsettled

/-- An action that goes through has nothing left to wait for. -/
theorem over_of_goesThrough (h : s.Upheld t L) (hb : Bindings t L s) {action : Action}
    (hgoes : action.GoesThrough s.machine) : Over L s.machine action := by
  intro g o block hg ho hblock hw
  obtain ⟨var, hu, hd⟩ := hw.uses
  obtain ⟨handle, hmem, hj⟩ := hb.bound hg ho hblock hd
  have hawaits : action.Awaits var handle := by
    cases hw with
    | launchJob | async =>
      cases hu
      exact .join
    | await =>
      cases hu
      cases hb.standsFor hmem with
      | task _ ho' hblock' =>
        cases hj
        obtain rfl := Option.some.inj (ho.symm.trans ho')
        cases hblock.symm.trans hblock'
      | deferred _ _ _ => exact .printAwait
      | bare _ => cases hj
  exact over_of_fired h hb hu hmem (hgoes var handle hawaits (hb.lookup hmem)) hg ho hblock hw

/-- A job that an action waits for is not made any more once what precedes the action has ended. -/
theorem Over.step (ht : t.Valid) (h : History t L s) (hrec : s.Records L L')
    (hk : Kept s.machine s'.machine) {id : StatementId} {action : Action}
    (hp : Preceded t s.machine.env.trace.toList (.leaf id action))
    (hmem : .leaf id action ∈ t.nodes) (hover : Over L s.machine action) :
    Over L' s'.machine action := by
  have hold : ∀ {g : Nat} {o : Origin} {block : Statement}, 2 ≤ g → L[g]? = some o →
      o.block = some block → action.WaitsFor block → ¬ IsOpen s'.machine g := by
    rintro g o block hg ho hblock hw ⟨b', hb', hnone⟩
    have hlt : g < s.machine.jobs.size :=
      Nat.lt_of_lt_of_eq (List.getElem?_eq_some_iff.1 ho).1 h.upheld.ledger.length
    have hget : s.machine.job? g = some s.machine.jobs[g] := Array.getElem?_eq_getElem hlt
    obtain ⟨b'', hb'', -, hsame⟩ := hk.bond (Machine.bond?_of_job? hget)
    obtain rfl := Option.some.inj (hb'.symm.trans hb'')
    refine hover hg ho hblock hw ⟨_, Machine.bond?_of_job? hget, ?_⟩
    cases hout : s.machine.jobs[g].bond.outcome with
    | none => rfl
    | some out =>
      rw [hsame (by rw [hout]; rfl), hout] at hnone
      cases hnone
  intro g o block hg ho hblock hw
  cases hrec with
  | nothing _ => exact hold hg ho hblock hw
  | @job p new rank hmakes =>
    rcases h.upheld.ledger.of_getElem?_append ho with ho | ⟨-, rfl⟩
    · exact hold hg ho hblock hw
    · obtain rfl := Option.some.inj hblock
      obtain ⟨j, _, _, _, -, hbegins, -⟩ := Snapshot.begins_of_makes hmakes
      obtain ⟨owner, before, rest, hplace⟩ := Statement.exists_placed hmem
      have hbefore := ht.mem_before_of_waitsFor hw (h.upheld.mem_of_begins hbegins) hplace
      have hzero := cost_ends_eq_zero ht h (hp _ _ _ hplace _ hbefore)
      have hpos := cost_ends_pos_of_begins hbegins
      omega

/-- A join or an await has gone through only when the job that it waits for has settled. -/
structure Passages (t : Statement) (L : Ledger) (s : Snapshot) : Prop where
  ended : ∀ {id action}, .leaf id action ∈ t.nodes →
    Logged s.machine.env.trace.toList id .ended → Over L s.machine action
  printed : ∀ {id action value}, .leaf id action ∈ t.nodes →
    Logged s.machine.env.trace.toList id (.printed value) → Over L s.machine action
  leaving : ∀ {id action}, .leaf id action ∈ t.nodes → s.Ends (.leave id) (.ok ()) →
    Over L s.machine action
  awaited : ∀ {id action j text}, .leaf id action ∈ t.nodes →
    s.Ends (.awaited id j text) (.ok ()) → Over L s.machine action

/-- What a leaf prints it prints after all that it waits for. -/
theorem Passages.over_of_entry (ht : t.Valid) (h : History t L s) (hps : Passages t L s)
    {e : TraceEntry} (he : s.Entry e) {id : StatementId} {action : Action}
    (hmem : .leaf id action ∈ t.nodes) (hid : e.statement = id) {value : String}
    (hmark : e.mark = .printed value) : Over L s.machine action := by
  cases he with
  | acted hb hnoted =>
    obtain rfl : _ = id := hid
    obtain rfl : _ = Mark.printed value := hmark
    cases ht.eq_of_id (h.upheld.mem_of_begins hb) hmem rfl
    cases hnoted with
    | printed hgoes => exact over_of_goesThrough h.upheld (h.bindings ht) hgoes
  | caught hends =>
    obtain rfl : _ = id := hid
    obtain ⟨_, _, _, _, inner, hblock⟩ := h.upheld.actsIn_of_caught hends
    cases ht.eq_of_id hblock hmem rfl
  | shown hends =>
    obtain rfl : _ = id := hid
    exact hps.awaited hmem hends
  | _ => cases hmark

section Step

variable {seat : SeatId} {ticket : Ticket} {frames frames' outer : List ProgramFrame}
  {result result' : Completion} {id : StatementId} {action : Action}

/-- A job that ends inside a statement ends inside its own block, which is no leaf. -/
theorem Runs.not_leaf_of_close (ht : t.Valid) (hfits : L.Fits t m) {tr : List TraceEntry} {j : JobId}
    (h : Runs t L tr (some j) (.close j :: .leave id :: outer)) : .leaf id action ∉ t.nodes := by
  intro hmem
  cases h with
  | scope hj ho hb _ =>
    obtain ⟨-, _, _, _, hmade⟩ := hfits.made hj ho
    cases hmade.block.symm.trans hb
    cases ht.eq_of_id hmade.mem_nodes hmem rfl

/-- A leaf that is done as soon as it has begun has nothing to wait for. -/
theorem over_of_performAction (ht : t.Valid) {j : JobId} {body : List Statement}
    (h : History t L ⟨m, .running seat ticket (.rest j (.leaf id action :: body) :: outer) (.ok ())⟩)
    (he : performAction ticket j id action (record id .began m) = (.ended (.ok ()), m')) :
    Over L m action ∧ Preceded t m.env.trace.toList (.leaf id action) := by
  have hb : Snapshot.Begins ⟨m, .running seat ticket (.rest j (.leaf id action :: body) :: outer)
    (.ok ())⟩ j (.leaf id action) := ⟨_, _, _, _, rfl⟩
  have hnotes := notes_performAction ticket j id action (record id .began m)
  rw [he] at hnotes
  have hgoes : action.GoesThrough m := hnotes.through rfl
  exact ⟨over_of_goesThrough h.upheld (h.bindings ht) hgoes,
    (h.upheld.actsIn_of_begins hb).preceded ht⟩

/-- A leaf whose await is over has nothing left to wait for. -/
theorem Passages.over_of_awaited (ht : t.Valid) {j : JobId} {text : String}
    (h : History t L ⟨m, .running seat ticket (.awaited id j text :: outer) (.ok ())⟩)
    (hps : Passages t L ⟨m, .running seat ticket (.awaited id j text :: outer) (.ok ())⟩)
    (hmem : .leaf id action ∈ t.nodes) :
    Over L m action ∧ Preceded t m.env.trace.toList (.leaf id action) := by
  have hends : Snapshot.Ends ⟨m, .running seat ticket (.awaited id j text :: outer) (.ok ())⟩
      (.awaited id j text) (.ok ()) := ⟨_, _, _, rfl⟩
  obtain ⟨k, st, hid, hacts, -⟩ := h.upheld.actsIn_of_awaited hends
  obtain ⟨body, hat⟩ := hacts.place
  obtain rfl := ht.eq_of_id hat.head_mem_nodes hmem hid
  exact ⟨hps.awaited hmem hends, hacts.preceded ht⟩

/-- The code of a task comes to the end of a leaf that has gone through. -/
theorem Passages.leave_of_code (ht : t.Valid)
    (h : History t L ⟨m, .running seat ticket frames result⟩)
    (hps : Passages t L ⟨m, .running seat ticket frames result⟩)
    (hs : Thread.Step ticket ⟨frames, result, m⟩ ⟨frames', result', m'⟩)
    (hframes : frames' = .leave id :: outer) (hok : result' = .ok ())
    (hmem : .leaf id action ∈ t.nodes) :
    Over L m action ∧ Preceded t m.env.trace.toList (.leaf id action) := by
  have hup := h.upheld
  have hready := (hup.polled rfl).ready
  -- the end of a block is not that of a leaf
  have hblock : ∀ {head inner}, .block id head inner ∈ t.nodes → False := fun hb => by
    cases ht.eq_of_id hb hmem rfl
  have hclose : ∀ {j : JobId}, Runs t L m.env.trace.toList (some j) (.close j :: frames') → False :=
    fun hr => (hframes ▸ hr).not_leaf_of_close ht hup.ledger hmem
  cases hs with
  | pass _ => cases hok
  | bodyEnd =>
    subst hframes
    cases hready with
    | runs hr =>
      cases hr with
      | rest _ hout _ => exact hout.elim
  | act he =>
    cases hframes
    subst hok
    cases ht.eq_of_id (hup.mem_of_begins ⟨_, _, _, _, rfl⟩) hmem rfl
    exact over_of_performAction ht h he
  | @enter _ _ head _ _ _ =>
    cases head <;> cases hframes <;> exact (hblock (hup.mem_of_begins ⟨_, _, _, _, rfl⟩)).elim
  | leave =>
    cases hready with
    | runs hr =>
      cases hr with
      | leave _ _ _ _ => cases hframes
  | catching _ =>
    cases hready with
    | runs hr =>
      cases hr with
      | catching hb _ =>
        cases hframes
        exact (hblock hb).elim
  | close _ => exact (hclose hup.runs_close.2.1).elim
  | settle =>
    cases hready with
    | runs hr => cases hr
    | settling hr _ _ => exact (hclose hr).elim
  | awaited _ =>
    cases hready with
    | runs hr =>
      cases hr with
      | awaited _ _ =>
        cases hframes
        exact hps.over_of_awaited ht h hmem
  | program =>
    cases hready with
    | runs hr =>
      cases hr with
      | program => cases hframes

/-- No code leaves a task at the end of an await: only a wait does. -/
theorem not_awaited_of_code (h : History t L ⟨m, .running seat ticket frames result⟩)
    (hs : Thread.Step ticket ⟨frames, result, m⟩ ⟨frames', result', m'⟩) (hok : result' = .ok ())
    {j : JobId} {text : String} : frames' ≠ .awaited id j text :: outer := by
  intro hframes
  have hready := (h.upheld.polled rfl).ready
  cases hs with
  | pass _ => cases hok
  | act _ => cases hframes
  | @enter _ _ head _ _ _ => cases head <;> cases hframes
  | settle =>
    cases hready with
    | runs hr => cases hr
    | settling hr _ _ =>
      cases hr with
      | task _ _ _ _ => cases hframes
      | scope _ _ _ _ => cases hframes
  | bodyEnd =>
    subst hframes
    cases hready with
    | runs hr =>
      cases hr with
      | rest _ hout _ => exact hout.elim
  | _ =>
    cases hready with
    | runs hr => cases hr <;> cases hframes

/-- A task goes on behind a wait only when the wait is done. -/
theorem done_of_resumption {d : Dispatcher (Task ProgramFrame)} {j : JobId} {k : Nat} {w : WaitId}
    {r : Except Interruption Unit}
    (hres : ({ m with dispatcher := d } : ProgramMachine).resumption ticket (.wait j k w) =
      (some r, m'))
    (hok : Suspension.handed r = .ok ()) : m.timetable.waits[w]? = some .done := by
  unfold Machine.resumption at hres
  dsimp only at hres
  split at hres
  · cases (Prod.mk.inj hres).1
    cases hok
  · next hw => exact hw
  · cases (Prod.mk.inj hres).1

/-- What a leaf waits for is over when its wait is done. -/
theorem over_of_needs (ht : t.Valid) (h : History t L ⟨m, .idle⟩) {w : WaitId} {inner : List ProgramFrame}
    (hneeds : Needs t m w id inner) (hmem : .leaf id action ∈ t.nodes)
    (hdone : m.timetable.waits[w]? = some .done) : Over L m action := by
  have hb := h.bindings ht
  cases hneeds with
  | delay hleaf _ =>
    cases ht.eq_of_id hleaf hmem rfl
    intro g o block _ _ _ hw
    cases hw
  | @join var handle signal hleaf hlog hsignal hheeds =>
    cases ht.eq_of_id hleaf hmem rfl
    have hu : (Action.join var).uses? = some var := rfl
    refine over_of_fired h.upheld hb hu (hb.referred hleaf rfl hlog) fun signal' hs => ?_
    obtain rfl := Option.some.inj (hs.symm.trans hsignal)
    exact hheeds.done rfl hdone
  | @await var value target text signal hleaf hlog hsignal hheeds =>
    cases ht.eq_of_id hleaf hmem rfl
    have hu : (Action.printAwait var value).uses? = some var := rfl
    refine over_of_fired h.upheld hb hu (hb.referred hleaf rfl hlog) fun signal' hs => ?_
    obtain rfl := Option.some.inj (hs.symm.trans hsignal)
    exact hheeds.done rfl hdone

/-- A task that goes on after a wait finds what it waited for complete. -/
theorem Passages.of_goOn (ht : t.Valid) (h : History t L ⟨m, .idle⟩) {i : SeatId}
    {task : Task ProgramFrame} (hi : m.dispatcher.task? i = some task)
    {d : Dispatcher (Task ProgramFrame)} {r : Except Interruption Unit}
    (hres : ({ m with dispatcher := d } : ProgramMachine).resumption ticket task.on = (some r, m'))
    (hok : Suspension.handed r = .ok ())
    (hframes : task.frames = .leave id :: outer ∨
      ∃ j text, task.frames = .awaited id j text :: outer) (hmem : .leaf id action ∈ t.nodes) :
    Over L m action ∧ Preceded t m.env.trace.toList (.leaf id action) := by
  have hrests := (h.upheld.seated hi).rests
  generalize hon : task.on = on at hrests hres
  generalize task.frames = frames at hrests hframes
  cases hrests with
  | entry hout _ =>
    rcases hframes with rfl | ⟨_, _, rfl⟩
    · exact hout.elim
    · exact hout.elim
  | children _ => rcases hframes with hf | ⟨_, _, hf⟩ <;> cases hf
  | @wait j k w id' inner outer' hr hneeds =>
    have hid : id' = id := by
      cases hneeds <;> rcases hframes with hf | ⟨_, _, hf⟩ <;> cases hf <;> rfl
    subst hid
    obtain ⟨body, hat⟩ := hr.at_of_mem ht hmem rfl
    exact ⟨over_of_needs ht h hneeds hmem (done_of_resumption hres hok), hat.preceded ht.ids⟩

end Step

/-- A task that comes to the end of a leaf has gone through it. -/
theorem Passages.of_focus (ht : t.Valid) (h : History t L s) (hs : Snapshot.Step s s')
    (hps : Passages t L s) {seat : SeatId} {ticket : Ticket} {frames outer : List ProgramFrame}
    {id : StatementId} {action : Action} (hf : s'.focus = .running seat ticket frames (.ok ()))
    (hframes : frames = .leave id :: outer ∨ ∃ j text, frames = .awaited id j text :: outer)
    (hmem : .leaf id action ∈ t.nodes) :
    Over L s.machine action ∧ Preceded t s.machine.env.trace.toList (.leaf id action) := by
  cases hs with
  | code hs =>
    obtain ⟨rfl, rfl, rfl, hok⟩ := Focus.running.inj hf
    rcases hframes with hframes | ⟨j, text, hframes⟩
    · exact hps.leave_of_code ht h hs hframes hok hmem
    · exact (not_awaited_of_code h hs hok hframes).elim
  | goOn hr hout hres =>
    obtain ⟨rfl, rfl, rfl, hok⟩ := Focus.running.inj hf
    obtain ⟨-, -, htask, -, -⟩ := Dispatcher.checkOut_some h.upheld.sound.orderly.aligned hr hout
    exact Passages.of_goOn ht h htask hres hok hframes hmem
  | _ => cases hf

theorem Passages.step (ht : t.Valid) (h : History t L s) (hs : Snapshot.Step s s')
    (hrec : s.Records L L') (hk : Kept s.machine s'.machine) (hps : Passages t L s) :
    Passages t L' s' := by
  have hnotes := Snapshot.notes_step h.upheld hs
  -- an entry of the trace is an old one, or one that the step leaves
  have hentry : ∀ {e : TraceEntry}, e ∈ s'.machine.env.trace.toList →
      (e ∈ s.machine.env.trace.toList ∨ s.Entry e) ∧ ∀ st ∈ t.nodes, st.id = e.statement →
        Preceded t s.machine.env.trace.toList st := by
    intro e he
    rcases hnotes.of_mem_trace he with he | he
    · exact ⟨.inl he, fun st hst hid => h.preceded ht he hst hid⟩
    · exact ⟨.inr he, fun st hst hid => h.upheld.preceded_of_entry ht he hst hid⟩
  refine ⟨fun {id action} hmem hl => ?_, fun {id action value} hmem hl => ?_,
    fun {id action} hmem hends => ?_, fun {id action j text} hmem hends => ?_⟩
  · obtain ⟨e, he, hid, hmark⟩ := hl
    obtain ⟨hcases, hp⟩ := hentry he
    refine Over.step ht h hrec hk (hp _ hmem hid.symm) hmem ?_
    rcases hcases with hold | hnew
    · exact hps.ended hmem ⟨e, hold, hid, hmark⟩
    · cases hnew with
      | ended hends =>
        obtain rfl : _ = id := hid
        exact hps.leaving hmem hends
      | acted _ hnoted =>
        obtain rfl : _ = Mark.ended := hmark
        cases hnoted
      | _ => cases hmark
  · obtain ⟨e, he, hid, hmark⟩ := hl
    obtain ⟨hcases, hp⟩ := hentry he
    refine Over.step ht h hrec hk (hp _ hmem hid.symm) hmem ?_
    rcases hcases with hold | hnew
    · exact hps.printed hmem ⟨e, hold, hid, hmark⟩
    · exact hps.over_of_entry ht h hnew hmem hid hmark
  · obtain ⟨seat, ticket, outer, hf⟩ := hends
    obtain ⟨hover, hp⟩ := hps.of_focus ht h hs hf (.inl rfl) hmem
    exact hover.step ht h hrec hk hp hmem
  · obtain ⟨seat, ticket, outer, hf⟩ := hends
    obtain ⟨hover, hp⟩ := hps.of_focus ht h hs hf (.inr ⟨j, text, rfl⟩) hmem
    exact hover.step ht h hrec hk hp hmem

theorem passages_initial (t : Statement) : Passages t (.start t) t.initial where
  ended _ h := let ⟨_, he, _⟩ := h; nomatch he
  printed _ h := let ⟨_, he, _⟩ := h; nomatch he
  leaving _ h := let ⟨_, _, _, hf⟩ := h; nomatch hf
  awaited _ h := let ⟨_, _, _, hf⟩ := h; nomatch hf

theorem History.passages (ht : t.Valid) (h : History t L s) : Passages t L s := by
  induction h with
  | start => exact passages_initial t
  | next h hs hrec hfollows ih => exact ih.step ht h hs hrec hfollows.kept

end RacePuzzle
