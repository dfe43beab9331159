import RacePuzzle.Proofs.Evaluation.Notes
import RacePuzzle.Proofs.Evaluation.Tariff

/-! What handles stand for. In a run of a valid program a handle is bound once, by the block or the
bare job that declares it, and it stands for what that made. -/
namespace RacePuzzle

variable {t : Statement} {L L' : Ledger} {m : ProgramMachine} {s s' : Snapshot}

namespace Snapshot

theorem Begins.unique {j j' : JobId} {st st' : Statement} (h : s.Begins j st)
    (h' : s.Begins j' st') : j = j' ∧ st = st' := by
  obtain ⟨_, _, _, _, hf⟩ := h
  obtain ⟨_, _, _, _, hf'⟩ := h'
  rw [hf] at hf'
  cases hf'
  exact ⟨rfl, rfl⟩

theorem Begins.price_eq {j : JobId} {st : Statement} (h : s.Begins j st) (p : Tariff) :
    s.price p = p.entry st := by
  obtain ⟨_, _, _, _, hf⟩ := h
  simp only [price, hf]
  rfl

theorem Upheld.at_of_begins (h : s.Upheld t L) {j : JobId} {st : Statement} (hb : s.Begins j st) :
    ∃ body, At t L s.machine.env.trace.toList j (st :: body) := by
  obtain ⟨_, _, _, _, hf⟩ := hb
  cases (h.polled hf).ready with
  | runs hr =>
    cases hr with
    | rest hat _ _ => exact ⟨_, hat⟩

theorem Upheld.mem_of_begins (h : s.Upheld t L) {j : JobId} {st : Statement} (hb : s.Begins j st) :
    st ∈ t.nodes := by
  obtain ⟨body, hat⟩ := h.at_of_begins hb
  exact hat.head_mem_nodes

theorem begins_of_makes {p : JobId} {block : Statement} (h : s.makes? = some (p, block)) :
    ∃ j id head inner, block = .block id head inner ∧ s.Begins j block ∧
      head.parent? j = some p := by
  unfold makes? at h
  split at h
  · next seat ticket j id head inner body outer hf =>
    obtain ⟨p', hp, he⟩ := Option.map_eq_some_iff.1 h
    cases he
    exact ⟨j, id, head, inner, rfl, ⟨_, _, _, _, hf⟩, hp⟩
  · cases h

theorem Begins.makes {j : JobId} {id : StatementId} {head : Head} {inner : List Statement}
    (h : s.Begins j (.block id head inner)) :
    s.makes? = (head.parent? j).map (·, .block id head inner) := by
  obtain ⟨_, _, _, _, hf⟩ := h
  unfold makes?
  rw [hf]

end Snapshot

theorem Snapshot.Records.isPrefix (h : s.Records L L') : L <+: L' := by
  cases h with
  | nothing _ => exact List.prefix_refl L
  | job _ => exact List.prefix_append ..

/-- A block that makes a job is written down with it. -/
theorem Snapshot.Records.origin (hrec : s.Records L L') (h : s.Upheld t L) {j : JobId}
    {id : StatementId} {head : Head} {inner : List Statement}
    (hb : s.Begins j (.block id head inner)) (hparent : (head.parent? j).isSome) :
    ∃ o, L'[s.machine.jobs.size]? = some o ∧ o.block = some (.block id head inner) := by
  obtain ⟨p, hp⟩ := Option.isSome_iff_exists.1 hparent
  cases hrec with
  | nothing hnone =>
    rw [hb.makes, hp] at hnone
    cases hnone
  | job hsome =>
    rw [hb.makes, hp] at hsome
    cases hsome
    exact ⟨_, h.ledger.getElem?_new _, rfl⟩

def Tariff.declares (var : String) : Tariff where
  entry s := if s.declares? = some var then 1 else 0
  leave _ := 0
  exit := 0

theorem sum_declares (var : String) (l : List Statement) :
    (l.map (Tariff.declares var).node).sum = (l.filterMap Statement.declares?).count var := by
  induction l with
  | nil => rfl
  | cons s rest ih =>
    have hnode : (Tariff.declares var).node s = if s.declares? = some var then 1 else 0 := by
      cases s <;> simp [Tariff.node, Tariff.declares]
    rw [List.map_cons, List.sum_cons, ih, hnode, List.filterMap_cons]
    cases hd : s.declares? with
    | none => simp
    | some v =>
      by_cases hv : v = var
      · subst hv
        simp [Nat.add_comm]
      · simp [hv]

theorem cost_declares_le (ht : t.Valid) (h : History t L s) (var : String) :
    s.cost (.declares var) ≤ 1 := by
  refine Nat.le_trans (Snapshot.cost_le_of_history h _) ?_
  rw [sum_declares]
  exact List.nodup_iff_count_le_one.1 ht.declared var

/-- A statement that declares the handle begins for the last time. -/
theorem cost_declares_of_begins (ht : t.Valid) (h : History t L s) (hs : Snapshot.Step s s')
    {j : JobId} {st : Statement} (hb : s.Begins j st) {var : String}
    (hd : st.declares? = some var) :
    s.cost (.declares var) = 1 ∧ s'.cost (.declares var) = 0 := by
  have hle := cost_declares_le ht h var
  have hstep := Snapshot.cost_step h.upheld hs (.declares var)
  have hprice : s.price (.declares var) = 1 := by
    rw [hb.price_eq]
    exact if_pos hd
  omega

/-- The handle stands for what the statement that declares it makes. -/
inductive StandsFor (t : Statement) (L : Ledger) (var : String) : Referent → Prop
  | task {g : JobId} {o : Origin} {id : StatementId} {inner : List Statement} : 2 ≤ g → L[g]? = some o →
      o.block = some (.block id (.launchJob var) inner) → StandsFor t L var (.task g)
  | deferred {g : JobId} {o : Origin} {id : StatementId} {inner : List Statement} {text : String} :
      2 ≤ g → L[g]? = some o → o.block = some (.block id (.async var text) inner) →
      StandsFor t L var (.deferred g text)
  | bare {id : StatementId} {signal : SignalId} : .leaf id (.job var) ∈ t.nodes →
      StandsFor t L var (.bare signal)

theorem StandsFor.mono (hL : L <+: L') {var : String} {handle : Referent}
    (h : StandsFor t L var handle) : StandsFor t L' var handle := by
  cases h with
  | task hg ho hb => exact .task hg (getElem?_mono hL ho) hb
  | deferred hg ho hb => exact .deferred hg (getElem?_mono hL ho) hb
  | bare hmem => exact .bare hmem

structure Bindings (t : Statement) (L : Ledger) (s : Snapshot) : Prop where
  standsFor : ∀ {var handle}, (var, handle) ∈ s.machine.env.handles → StandsFor t L var handle
  unique : ∀ {var handle handle'}, (var, handle) ∈ s.machine.env.handles →
    (var, handle') ∈ s.machine.env.handles → handle = handle'
  spent : ∀ {var handle}, (var, handle) ∈ s.machine.env.handles → s.cost (.declares var) = 0
  bound : ∀ {g : Nat} {o : Origin} {block : Statement} {var : String}, 2 ≤ g → L[g]? = some o →
    o.block = some block → block.declares? = some var →
    ∃ handle, (var, handle) ∈ s.machine.env.handles ∧ handle.job? = some g
  referred : ∀ {id action var handle}, .leaf id action ∈ t.nodes → action.uses? = some var →
    Logged s.machine.env.trace.toList id (.referred (some handle)) →
    (var, handle) ∈ s.machine.env.handles

theorem Bindings.lookup (h : Bindings t L s) {var : String} {handle : Referent}
    (hmem : (var, handle) ∈ s.machine.env.handles) :
    s.machine.env.handles.lookup var = some handle :=
  lookup_of_mem hmem fun _ ho => h.unique ho hmem

theorem bindings_initial (t : Statement) : Bindings t (.start t) t.initial where
  standsFor h := nomatch h
  unique h := nomatch h
  spent h := nomatch h
  bound {g o block var} hg ho := by
    match g with
    | 0 | 1 => omega
    | g + 2 => cases ho
  referred _ _ h := by
    obtain ⟨e, he, -⟩ := h
    cases he

/-- A handle that a step binds stands for what the step makes. -/
theorem standsFor_of_binds (h : History t L s) (hrec : s.Records L L') {var : String}
    {handle : Referent} (hnew : s.Binds var handle) : StandsFor t L' var handle := by
  have htwo := h.upheld.ledger.two
  cases hnew with
  | bare hbegins => exact .bare (h.upheld.mem_of_begins hbegins)
  | task hbegins =>
    obtain ⟨o, ho, hblock⟩ := hrec.origin h.upheld hbegins rfl
    exact .task htwo ho hblock
  | deferred hbegins =>
    obtain ⟨o, ho, hblock⟩ := hrec.origin h.upheld hbegins rfl
    exact .deferred htwo ho hblock

namespace Snapshot

theorem Binds.begins {var : String} {handle : Referent} (h : s.Binds var handle) :
    ∃ j st, s.Begins j st ∧ st.declares? = some var := by
  cases h with
  | bare hbegins => exact ⟨_, _, hbegins, rfl⟩
  | task hbegins => exact ⟨_, _, hbegins, rfl⟩
  | deferred hbegins => exact ⟨_, _, hbegins, rfl⟩

/-- The handle that a block binds stands for the job that it makes. -/
theorem Binds.job?_eq {var : String} {handle : Referent} (h : s.Binds var handle) {j : JobId}
    {id : StatementId} {head : Head} {inner : List Statement}
    (hbegins : s.Begins j (.block id head inner)) : handle.job? = some s.machine.jobs.size := by
  cases h with
  | bare hbegins' => cases (hbegins.unique hbegins').2
  | task _ => rfl
  | deferred _ => rfl

theorem Notes.mem_handles (h : Notes s s') {p : String × Referent}
    (hp : p ∈ s.machine.env.handles) : p ∈ s'.machine.env.handles := by
  rcases h.handles with ⟨-, hsame⟩ | ⟨_, _, _, hh, -⟩
  · rwa [hsame]
  · rw [hh]
    exact List.mem_cons_of_mem _ hp

theorem Notes.binds_of_begins (h : Notes s s') {j : JobId} {st : Statement} (hb : s.Begins j st)
    {var : String} (hd : st.declares? = some var) :
    ∃ handle, s.Binds var handle ∧ (var, handle) ∈ s'.machine.env.handles := by
  rcases h.handles with ⟨hnone, -⟩ | ⟨var', handle, hnew, hh, -⟩
  · exact absurd ((hnone j st hb).symm.trans hd) (by simp)
  · obtain ⟨j', st', hb', hd'⟩ := hnew.begins
    obtain ⟨-, rfl⟩ := hb.unique hb'
    obtain rfl := Option.some.inj (hd'.symm.trans hd)
    exact ⟨handle, hnew, hh ▸ List.mem_cons_self⟩

/-- A step binds the handle, for the first and last time. -/
structure Coins (s s' : Snapshot) (var : String) (handle : Referent) : Prop where
  binds : s.Binds var handle
  spent : s'.cost (.declares var) = 0
  first : ∀ other, (var, other) ∉ s.machine.env.handles
  only : ∀ other, (var, other) ∈ s'.machine.env.handles → other = handle

end Snapshot

/-- A handle is an old one, or the step binds it. -/
theorem Bindings.old_or_coins (ht : t.Valid) (h : History t L s) (hs : Snapshot.Step s s')
    (hb : Bindings t L s) {var : String} {handle : Referent}
    (hmem : (var, handle) ∈ s'.machine.env.handles) :
    (var, handle) ∈ s.machine.env.handles ∨ s.Coins s' var handle := by
  rcases (Snapshot.notes_step h.upheld hs).handles with ⟨-, hsame⟩ | ⟨var', handle', hnew, hh, -⟩
  · exact .inl (hsame ▸ hmem)
  · rw [hh] at hmem
    rcases List.mem_cons.1 hmem with he | hmem
    · cases he
      obtain ⟨j, st, hbegins, hd⟩ := hnew.begins
      obtain ⟨hone, hzero⟩ := cost_declares_of_begins ht h hs hbegins hd
      have hnone : ∀ other, (var, other) ∉ s.machine.env.handles := fun other ho => by
        have := hb.spent ho
        omega
      refine .inr ⟨hnew, hzero, hnone, fun other ho => ?_⟩
      rw [hh] at ho
      rcases List.mem_cons.1 ho with he | ho
      · exact (Prod.mk.inj he).2
      · exact absurd ho (hnone other)
    · exact .inl hmem

/-- A block that made a job has bound its handle to the job. -/
theorem Bindings.bound_step (h : s.Upheld t L) (hnotes : Snapshot.Notes s s') (hrec : s.Records L L')
    (hb : Bindings t L s) {g : Nat} {o : Origin} {block : Statement} {var : String} (hg : 2 ≤ g)
    (ho : L'[g]? = some o) (hblock : o.block = some block) (hd : block.declares? = some var) :
    ∃ handle, (var, handle) ∈ s'.machine.env.handles ∧ handle.job? = some g := by
  have hold : L[g]? = some o → ∃ handle, (var, handle) ∈ s'.machine.env.handles ∧
      handle.job? = some g := by
    intro ho
    obtain ⟨handle, hmem, hj⟩ := hb.bound hg ho hblock hd
    exact ⟨handle, hnotes.mem_handles hmem, hj⟩
  cases hrec with
  | nothing _ => exact hold ho
  | @job p new rank hmakes =>
    rcases h.ledger.of_getElem?_append ho with ho | ⟨rfl, rfl⟩
    · exact hold ho
    · obtain rfl := Option.some.inj hblock
      obtain ⟨j, id, head, inner, rfl, hbegins, -⟩ := Snapshot.begins_of_makes hmakes
      obtain ⟨handle, hbinds, hmem⟩ := hnotes.binds_of_begins hbegins hd
      exact ⟨handle, hmem, hbinds.job?_eq hbegins⟩

/-- A leaf refers to a handle as it finds it. -/
theorem referred_of_entry (ht : t.Valid) (h : s.Upheld t L) {e : TraceEntry} (he : s.Entry e)
    {id : StatementId} {action : Action} {var : String} {handle : Referent}
    (hnode : .leaf id action ∈ t.nodes) (hu : action.uses? = some var) (hid : e.statement = id)
    (hmark : e.mark = .referred (some handle)) : (var, handle) ∈ s.machine.env.handles := by
  cases he with
  | acted hbegins hnoted =>
    obtain rfl : _ = Mark.referred (some handle) := hmark
    obtain ⟨rfl⟩ : _ = id := hid
    cases ht.eq_of_id (h.mem_of_begins hbegins) hnode rfl
    generalize hfound : Mark.referred (some handle) = mark at hnoted
    cases hnoted with
    | referred hu' =>
      obtain rfl := Option.some.inj (hu'.symm.trans hu)
      exact mem_of_lookup (Mark.referred.inj hfound).symm
    | _ => cases hfound
  | _ => cases hmark

theorem Bindings.step (ht : t.Valid) (h : History t L s) (hs : Snapshot.Step s s')
    (hrec : s.Records L L') (hb : Bindings t L s) : Bindings t L' s' := by
  have hnotes := Snapshot.notes_step h.upheld hs
  have hcases : ∀ {var handle}, (var, handle) ∈ s'.machine.env.handles →
      (var, handle) ∈ s.machine.env.handles ∨ s.Coins s' var handle := hb.old_or_coins ht h hs
  refine ⟨fun hmem => ?_, fun {var handle handle'} hmem hmem' => ?_, fun {var handle} hmem => ?_,
    hb.bound_step h.upheld hnotes hrec, fun hnode hu ⟨e, he, hid, hmark⟩ => ?_⟩
  · rcases hcases hmem with hold | hnew
    · exact (hb.standsFor hold).mono hrec.isPrefix
    · exact standsFor_of_binds h hrec hnew.binds
  · rcases hcases hmem with hold | hnew
    · rcases hcases hmem' with hold' | hnew'
      · exact hb.unique hold hold'
      · exact absurd hold (hnew'.first handle)
    · exact (hnew.only handle' hmem').symm
  · rcases hcases hmem with hold | hnew
    · have hstep := Snapshot.cost_step h.upheld hs (.declares var)
      have hspent := hb.spent hold
      omega
    · exact hnew.spent
  · rcases hnotes.of_mem_trace he with he | he
    · exact hnotes.mem_handles (hb.referred hnode hu ⟨e, he, hid, hmark⟩)
    · exact hnotes.mem_handles (referred_of_entry ht h.upheld he hnode hu hid hmark)

theorem History.bindings (ht : t.Valid) (h : History t L s) : Bindings t L s := by
  induction h with
  | start => exact bindings_initial t
  | next h hs hrec _ ih => exact ih.step ht h hs hrec

end RacePuzzle
