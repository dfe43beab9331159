import RacePuzzle.Proofs.Evaluation.StructuredConcurrency

/-! What usages find. When a statement of a valid program uses a handle, the one declaration of the
handle has begun and ended before, in whatever task, and has bound it; so the usage finds the handle that
the declaration made. An await that goes on finds an outcome. -/
namespace RacePuzzle

open Interpreter

variable {t : Statement} {L L' : Ledger} {m m' : ProgramMachine} {s s' : Snapshot} {var : String}
  {handle : Referent} {d : Statement}

theorem Snapshot.Binds.unique {var' : String} {handle' : Referent} (h : s.Binds var handle)
    (h' : s.Binds var' handle') : var = var' ∧ handle = handle' := by
  cases h with
  | bare hb =>
    cases h' with
    | bare hb' =>
      cases (hb.unique hb').2
      exact ⟨rfl, rfl⟩
    | task hb' | deferred hb' => cases (hb.unique hb').2
  | task hb =>
    cases h' with
    | task hb' =>
      cases (hb.unique hb').2
      exact ⟨rfl, rfl⟩
    | bare hb' | deferred hb' => cases (hb.unique hb').2
  | deferred hb =>
    cases h' with
    | deferred hb' =>
      cases (hb.unique hb').2
      exact ⟨rfl, rfl⟩
    | bare hb' | task hb' => cases (hb.unique hb').2

/-- What is written down for a declaration comes with its beginning or after it. -/
theorem begins_or_begun_of_entry (ht : t.Valid) (h : s.Upheld t L) {e : TraceEntry} (he : s.Entry e)
    (hd : d ∈ t.nodes) (hvar : d.declares? = some var) (hid : e.statement = d.id) :
    (∃ j, s.Begins j d) ∨ Logged s.machine.env.trace.toList d.id .began := by
  have hbegins : ∀ {j st}, s.Begins j st → st.id = d.id → ∃ j, s.Begins j d := fun {j st} hb hid => by
    obtain rfl := ht.eq_of_id (h.mem_of_begins hb) hd hid
    exact ⟨j, hb⟩
  cases he with
  | began hb => exact .inl (hbegins hb hid)
  | bound hb _ => exact .inl (hbegins hb hid)
  | acted hb _ => exact .inl (hbegins hb hid)
  | ended hends =>
    obtain ⟨seat, ticket, outer, hf⟩ := hends
    obtain rfl : _ = d.id := hid
    cases (h.polled hf).ready with
    | runs hr =>
      generalize hframes : ProgramFrame.leave d.id :: outer = frames at hr
      cases hr with
      | leave _ hbegan _ _ =>
        obtain ⟨hleave, -⟩ := List.cons.inj hframes
        rw [ProgramFrame.leave.inj hleave]
        exact .inr hbegan
      | _ => cases hframes
  | caught hends =>
    obtain ⟨_, _, _, _, inner, hblock⟩ := h.actsIn_of_caught hends
    cases ht.eq_of_id hblock hd hid
    cases hvar
  | awaited hends | shown hends =>
    obtain ⟨_, _, _, _, _, _, hleaf⟩ := h.actsIn_of_awaited hends
    cases ht.eq_of_id hleaf hd hid
    cases hvar

/-- A bound handle that is written down is the one that the step binds. -/
theorem binds_of_entry {e : TraceEntry} (he : s.Entry e) (hmark : e.mark = .bound handle) :
    ∃ j st var, s.Begins j st ∧ st.id = e.statement ∧ s.Binds var handle := by
  cases he with
  | bound hb hbinds =>
    cases hmark
    exact ⟨_, _, _, hb, rfl, hbinds⟩
  | acted hb hnoted =>
    obtain rfl : _ = Mark.bound handle := hmark
    cases hnoted with
    | bound haction =>
      subst haction
      exact ⟨_, _, _, hb, rfl, .bare hb⟩
  | _ => cases hmark

theorem Known.exists_signal (h : Known m handle) : ∃ signal, signal? handle m = some signal := by
  have hjob : ∀ {j : JobId}, j < m.jobs.size → ∃ signal, (m.job? j).map (·.completion) = some signal :=
    fun hj => ⟨_, congrArg (Option.map _) (Array.getElem?_eq_getElem hj)⟩
  cases handle with
  | task j => exact hjob h.2
  | deferred j text => exact hjob h.2
  | bare signal => exact ⟨signal, rfl⟩

/-- A deferred result whose signal has fired is there. -/
theorem hasSettled_of_hasFired (h : m.Sound) {j : JobId} {text : String} {signal : SignalId}
    (hsignal : signal? (.deferred j text) m = some signal) (hfired : m.hasFired signal = true) :
    HasSettled m j := by
  obtain ⟨job, hjob, rfl⟩ := Option.map_eq_some_iff.1 hsignal
  exact ⟨job, hjob, h.tree.completions.settled (Machine.bond?_of_job? hjob) hfired⟩

/-- A task that goes on behind an await finds an outcome. -/
theorem hasSettled_awaited (h : History t L s) {id : StatementId} {j : JobId} {text : String}
    (he : s.Ends (.awaited id j text) (.ok ())) : HasSettled s.machine j := by
  obtain ⟨seat, ticket, outer, hf⟩ := he
  cases h with
  | start => cases hf
  | next h hs hrec hfollows =>
    cases hs with
    | code hs =>
      obtain ⟨rfl, rfl, rfl, hok⟩ := Focus.running.inj hf
      exact (not_awaited_of_code h hs hok rfl).elim
    | @goOn m i rest dispatcher ticket task result m' hr hout hres =>
      obtain ⟨rfl, rfl, hframes, hok⟩ := Focus.running.inj hf
      obtain ⟨-, -, htask, -, -⟩ := Dispatcher.checkOut_some h.upheld.sound.orderly.aligned hr hout
      have hrests := (h.upheld.seated htask).rests
      generalize task.on = on at hrests hres
      generalize task.frames = frames at hrests hframes
      refine HasSettled.kept hfollows.kept ?_
      cases hrests with
      | entry hout _ =>
        subst hframes
        exact hout.elim
      | children _ => cases hframes
      | wait _ hneeds =>
        cases hneeds with
        | delay _ _ => cases hframes
        | join _ _ _ _ => cases hframes
        | await _ _ hsignal hheeds =>
          cases hframes
          exact hasSettled_of_hasFired h.upheld.sound hsignal
            (hheeds.done rfl (done_of_resumption hres hok))
    | _ => cases hf

/-- In every state, a declaration that has begun to leave marks has bound its handle, nothing else is
bound, and whoever has used a handle or awaited an outcome has found one. -/
structure References (t : Statement) (s : Snapshot) : Prop where
  bound : ∀ {d var mark}, d ∈ t.nodes → d.declares? = some var →
    Logged s.machine.env.trace.toList d.id mark → ∃ handle, (var, handle) ∈ s.machine.env.handles
  coined : ∀ {d var handle}, d ∈ t.nodes → d.declares? = some var →
    (Logged s.machine.env.trace.toList d.id (.bound handle) ↔
      (var, handle) ∈ s.machine.env.handles)
  referred : ∀ {e handle?}, e ∈ s.machine.env.trace.toList → e.mark = .referred handle? →
    ∃ action var handle, .leaf e.statement action ∈ t.nodes ∧ action.uses? = some var ∧
      handle? = some handle ∧ (var, handle) ∈ s.machine.env.handles
  awaited : ∀ {e outcome?}, e ∈ s.machine.env.trace.toList → e.mark = .awaited outcome? →
    outcome?.isSome

theorem references_initial (t : Statement) : References t t.initial where
  bound _ _ hl := let ⟨_, he, _⟩ := hl; nomatch he
  coined _ _ := ⟨fun ⟨_, he, _⟩ => (nomatch he), nofun⟩
  referred he := nomatch he
  awaited he := nomatch he

/-- Before a leaf that uses a handle begins, the declaration of the handle has ended. -/
theorem exists_ended_declaration (ht : t.Valid) (h : s.Upheld t L) {j : JobId} {id : StatementId}
    {action : Action} (hb : s.Begins j (.leaf id action)) (hu : action.uses? = some var) :
    ∃ d ∈ t.nodes, d.declares? = some var ∧ Logged s.machine.env.trace.toList d.id .ended := by
  obtain ⟨body, hat⟩ := h.at_of_begins hb
  obtain ⟨o, before, -, hplace, -, hended⟩ := hat.place
  obtain ⟨d, hd, hdecl⟩ := ht.exists_declaration hplace hu
  exact ⟨d, hplace.before_mem_nodes hd, hdecl, hended d hd⟩

/-- A leaf that begins finds the handle that it uses. -/
theorem References.lookup (ht : t.Valid) (h : History t L s) (href : References t s) {j : JobId}
    {id : StatementId} {action : Action} (hb : s.Begins j (.leaf id action))
    (hu : action.uses? = some var) :
    ∃ handle, (var, handle) ∈ s.machine.env.handles ∧
      s.machine.env.handles.lookup var = some handle := by
  obtain ⟨d, hd, hdecl, hended⟩ := exists_ended_declaration ht h.upheld hb hu
  obtain ⟨handle, hmem⟩ := href.bound hd hdecl hended
  exact ⟨handle, hmem, (h.bindings ht).lookup hmem⟩

/-- What a leaf awaits is there when it is noted. -/
theorem awaited_of_entry (h : History t L s) {e : TraceEntry} (he : s.Entry e)
    {outcome? : Option Outcome} (hmark : e.mark = .awaited outcome?) : outcome?.isSome := by
  cases he with
  | acted _ hnoted =>
    obtain rfl : _ = Mark.awaited outcome? := hmark
    cases hnoted with
    | @awaited var text target result haction hl hgoes =>
      subst haction
      obtain ⟨signal, hsignal⟩ := (known_of_lookup h.upheld.handles hl).exists_signal
      have hfired := hgoes _ _ .printAwait hl _ hsignal
      exact (hasSettled_of_hasFired h.upheld.sound hsignal hfired).isSome_outcome
  | awaited hends =>
    cases hmark
    exact (hasSettled_awaited h hends).isSome_outcome
  | _ => cases hmark

/-- Where a declaration has left a mark, its handle is bound. -/
theorem References.bound_step (ht : t.Valid) (h : s.Upheld t L) (hnotes : Snapshot.Notes s s')
    (href : References t s) (hd : d ∈ t.nodes) (hdecl : d.declares? = some var) {mark : Mark}
    (hl : Logged s'.machine.env.trace.toList d.id mark) :
    ∃ handle, (var, handle) ∈ s'.machine.env.handles := by
  have hold : ∀ {mark}, Logged s.machine.env.trace.toList d.id mark →
      ∃ handle, (var, handle) ∈ s'.machine.env.handles := fun hl => by
    obtain ⟨handle, hmem⟩ := href.bound hd hdecl hl
    exact ⟨handle, hnotes.mem_handles hmem⟩
  obtain ⟨e, he, hid, -⟩ := hl
  rcases hnotes.of_mem_trace he with he | he
  · exact hold ⟨e, he, hid, rfl⟩
  · rcases begins_or_begun_of_entry ht h he hd hdecl hid with ⟨j, hb⟩ | hbegun
    · obtain ⟨handle, -, hmem⟩ := hnotes.binds_of_begins hb hdecl
      exact ⟨handle, hmem⟩
    · exact hold hbegun

/-- What is written down as bound is bound, and the other way round. -/
theorem References.coined_step (ht : t.Valid) (h : s.Upheld t L) (hnotes : Snapshot.Notes s s')
    (href : References t s) (hd : d ∈ t.nodes) (hdecl : d.declares? = some var) :
    Logged s'.machine.env.trace.toList d.id (.bound handle) ↔
      (var, handle) ∈ s'.machine.env.handles := by
  refine ⟨fun hl => ?_, fun hmem => ?_⟩
  · obtain ⟨e, he, hid, hmark⟩ := hl
    rcases hnotes.of_mem_trace he with he | he
    · exact hnotes.mem_handles ((href.coined hd hdecl).1 ⟨e, he, hid, hmark⟩)
    · obtain ⟨j, st, var', hb, hst, hbinds⟩ := binds_of_entry he hmark
      obtain rfl := ht.eq_of_id (h.mem_of_begins hb) hd (hst.trans hid)
      obtain ⟨handle', hbinds', hmem⟩ := hnotes.binds_of_begins hb hdecl
      obtain ⟨-, rfl⟩ := hbinds.unique hbinds'
      exact hmem
  · rcases hnotes.handles with ⟨-, hsame⟩ | ⟨var', handle', hbinds, hh, hlogged⟩
    · rw [hsame] at hmem
      exact hnotes.logged ((href.coined hd hdecl).2 hmem)
    · rw [hh] at hmem
      rcases List.mem_cons.1 hmem with he | hmem
      · cases he
        obtain ⟨j, st, hb, hdecl'⟩ := hbinds.begins
        obtain rfl := ht.eq_of_declares (h.mem_of_begins hb) hd hdecl' hdecl
        exact hlogged j st hb
      · exact hnotes.logged ((href.coined hd hdecl).2 hmem)

/-- What a leaf refers to is bound when it is noted. -/
theorem References.referred_of_entry (ht : t.Valid) (h : History t L s) (href : References t s)
    {e : TraceEntry} (he : s.Entry e) {handle? : Option Referent} (hmark : e.mark = .referred handle?) :
    ∃ action var handle, .leaf e.statement action ∈ t.nodes ∧ action.uses? = some var ∧
      handle? = some handle ∧ (var, handle) ∈ s.machine.env.handles := by
  cases he with
  | acted hb hnoted =>
    obtain rfl : _ = Mark.referred handle? := hmark
    cases hnoted with
    | referred hu =>
      obtain ⟨handle, hmem, hl⟩ := href.lookup ht h hb hu
      exact ⟨_, _, handle, h.upheld.mem_of_begins hb, hu, hl, hmem⟩
  | _ => cases hmark

theorem References.step (ht : t.Valid) (h : History t L s) (hs : Snapshot.Step s s')
    (href : References t s) : References t s' := by
  have hnotes := Snapshot.notes_step h.upheld hs
  refine ⟨fun hd hdecl hl => href.bound_step ht h.upheld hnotes hd hdecl hl,
    fun hd hdecl => href.coined_step ht h.upheld hnotes hd hdecl,
    fun {e handle?} he hmark => ?_, fun {e outcome?} he hmark => ?_⟩
  · have hfound := (hnotes.of_mem_trace he).elim (fun he => href.referred he hmark)
      fun he => href.referred_of_entry ht h he hmark
    obtain ⟨action, var, handle, hleaf, hu, hhandle, hmem⟩ := hfound
    exact ⟨action, var, handle, hleaf, hu, hhandle, hnotes.mem_handles hmem⟩
  · rcases hnotes.of_mem_trace he with he | he
    · exact href.awaited he hmark
    · exact awaited_of_entry h he hmark

theorem History.references (ht : t.Valid) (h : History t L s) : References t s := by
  induction h with
  | start => exact references_initial t
  | next h hs _ _ ih => exact ih.step ht h hs

inductive Statement.Makes : Statement → Referent → Prop
  | task {id var inner j} : Makes (.block id (.launchJob var) inner) (.task j)
  | deferred {id var text inner j} : Makes (.block id (.async var text) inner) (.deferred j text)
  | bare {id var signal} : Makes (.leaf id (.job var)) (.bare signal)

/-- The handle has one declaration, which has made and bound what it stands for, and nothing else. -/
def Statement.BindsOnce (t : Statement) (tr : List TraceEntry) (var : String) (handle : Referent) :
    Prop :=
  ∃ d ∈ t.nodes, d.declares? = some var ∧ (∀ d' ∈ t.nodes, d'.declares? = some var → d' = d) ∧
    d.Makes handle ∧ ∀ handle', Logged tr d.id (.bound handle') ↔ handle' = handle

/-- What a handle stands for is made by its declaration. -/
theorem StandsFor.exists_declaration (h : StandsFor t L var handle) (hfits : L.Fits t m) :
    ∃ d ∈ t.nodes, d.declares? = some var ∧ d.Makes handle := by
  have hmade : ∀ {g : Nat} {o : Origin} {block : Statement}, 2 ≤ g → L[g]? = some o →
      o.block = some block → block ∈ t.nodes := fun hg ho hb => by
    obtain ⟨-, _, _, _, hmade⟩ := hfits.made hg ho
    obtain rfl := Option.some.inj (hmade.block.symm.trans hb)
    exact hmade.mem_nodes
  cases h with
  | task hg ho hb => exact ⟨_, hmade hg ho hb, rfl, .task⟩
  | deferred hg ho hb => exact ⟨_, hmade hg ho hb, rfl, .deferred⟩
  | bare hleaf => exact ⟨_, hleaf, rfl, .bare⟩

theorem References.bindsOnce (ht : t.Valid) (h : History t L s)
    (hmem : (var, handle) ∈ s.machine.env.handles) :
    t.BindsOnce s.machine.env.trace.toList var handle := by
  obtain ⟨d, hd, hdecl, hmakes⟩ := ((h.bindings ht).standsFor hmem).exists_declaration h.upheld.ledger
  refine ⟨d, hd, hdecl, fun d' hd' hdecl' => ht.eq_of_declares hd' hd hdecl' hdecl, hmakes,
    fun handle' => ?_⟩
  rw [(h.references ht).coined hd hdecl]
  exact ⟨fun hmem' => (h.bindings ht).unique hmem' hmem, fun he => he ▸ hmem⟩

/-- When a statement of a valid program that uses a handle is about to begin, the handle is bound to what
its one declaration made, which is there. So every usage in a run finds that, and every await that goes
on finds an outcome. -/
theorem usages_find_their_declarations (t : Statement) (ht : t.validate = .ok ()) :
    (∀ s, t.Reaches s → ∀ j id action var, s.Begins j (.leaf id action) → action.uses? = some var →
      ∃ handle, s.machine.env.handles.lookup var = some handle ∧
        t.BindsOnce s.machine.env.trace.toList var handle ∧ (signal? handle s.machine).isSome) ∧
    ∀ limits, ∀ e ∈ (t.runWith limits).2.env.trace.toList,
      (∀ handle?, e.mark = .referred handle? → ∃ action var handle,
        .leaf e.statement action ∈ t.nodes ∧ action.uses? = some var ∧ handle? = some handle ∧
        t.BindsOnce (t.runWith limits).2.env.trace.toList var handle) ∧
      ∀ outcome?, e.mark = .awaited outcome? → outcome?.isSome := by
  have hvalid := Statement.validate_eq_ok_iff.1 ht
  refine ⟨fun s hs j id action var hb hu => ?_, fun limits e he => ?_⟩
  · obtain ⟨L, hL⟩ := hs.history
    obtain ⟨handle, hmem, hl⟩ := (hL.references hvalid).lookup hvalid hL hb hu
    obtain ⟨signal, hsignal⟩ := (known_of_lookup hL.upheld.handles hl).exists_signal
    exact ⟨handle, hl, References.bindsOnce hvalid hL hmem, hsignal ▸ rfl⟩
  · obtain ⟨L, hL⟩ := (t.reaches_runWith limits).history
    have href := hL.references hvalid
    refine ⟨fun handle? hmark => ?_, fun outcome? hmark => href.awaited he hmark⟩
    obtain ⟨action, var, handle, hleaf, hu, hfound, hmem⟩ := href.referred he hmark
    exact ⟨action, var, handle, hleaf, hu, hfound, References.bindsOnce hvalid hL hmem⟩

theorem awaited_print_finds_its_block :
    Logged (awaitedPrint.runWith .default).2.env.trace.toList 3
      (.referred (some (.deferred 3 "done"))) ∧
    awaitedPrint.BindsOnce (awaitedPrint.runWith .default).2.env.trace.toList "a"
      (.deferred 3 "done") := by
  have hvalid : awaitedPrint.validate = .ok () := by cbv
  have hentry : (awaitedPrint.runWith .default).2.env.trace.toList[5]? =
      some ⟨3, .referred (some (.deferred 3 "done")), 0⟩ := by cbv
  have hmem := List.mem_of_getElem? hentry
  obtain ⟨action, var, handle, hleaf, hu, hfound, honce⟩ :=
    ((usages_find_their_declarations awaitedPrint hvalid).2 .default _ hmem).1 _ rfl
  obtain rfl : action = .printAwait "a" "result" := by
    simpa [awaitedPrint, Statement.nodes, Statement.bodyNodes] using hleaf
  cases hu
  cases hfound
  exact ⟨⟨_, hmem, rfl, rfl⟩, honce⟩

end RacePuzzle
