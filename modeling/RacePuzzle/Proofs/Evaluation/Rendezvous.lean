import RacePuzzle.Proofs.Evaluation.Timekeeping
import RacePuzzle.Proofs.Evaluation.Wakeups

/-! Where the tasks of a fork-join run part and meet. A block that begins makes a job, and may start a
task in it; a job settles when its own code and its children have come to their ends. -/
namespace RacePuzzle

open Interpreter

variable {t : Statement} {L L' : Ledger} {m m' : ProgramMachine} {s s' : Snapshot} {D D' : JobId → Nat}
  {done : List Statement} {begun time : Nat} {frames frames' outer : List ProgramFrame}
  {seat : SeatId} {ticket : Ticket} {result result' : Completion} {j : JobId} {id : StatementId}

theorem smooth_bind (hu : Machine.Untroubled 1 m) (id : StatementId) (var : String)
    (handle : Referent) : Machine.Smooth 1 m (Interpreter.bind id var handle m) :=
  have hbound := Machine.smooth_updateEnv hu
    fun env => { env with handles := (var, handle) :: env.handles }
  hbound.trans (smooth_record hbound.untroubled id _)

structure Launched (g : JobId) (inner : List Statement) (m m' : ProgramMachine) : Prop where
  smooth : Machine.Smooth 1 m m'
  settled : ∀ {k}, HasSettled m' k → HasSettled m k
  seated : ∀ {i task}, m'.dispatcher.task? i = some task → m.dispatcher.task? i = some task ∨
    task = ⟨.entry g, [.rest g inner, .close g]⟩

theorem launched_launch (hu : Machine.Untroubled 1 m) {pj : Job} (hj : m.job? j = some pj) (hne : j ≠ 1)
    (hb : 1 < m.jobs.size) (inner : List Statement) :
    Launched m.jobs.size inner m (Interpreter.launch j inner m).2 := by
  have hchild := Machine.smooth_child hu hj hne hb .task
  refine ⟨hchild.trans (Machine.smooth_spawn hchild.untroubled _),
    hasSettled_of_child (Machine.bond?_of_job? hj) .task, fun hi => ?_⟩
  have hi := (Dispatcher.task?_spawn ..).symm.trans hi
  split at hi
  · exact .inr (Option.some.inj hi).symm
  · exact .inl hi

theorem Launched.bind {g : JobId} {inner : List Statement} (h : Launched g inner m m')
    (id : StatementId) (var : String) (handle : Referent) :
    Launched g inner m (Interpreter.bind id var handle m') :=
  ⟨h.smooth.trans (smooth_bind h.smooth.untroubled id var handle), h.settled, h.seated⟩

theorem exists_launched (hu : Machine.Untroubled 1 m) {pj : Job} (hj : m.job? j = some pj) (hne : j ≠ 1)
    (hb : 1 < m.jobs.size) {head : Head} (hmakes : head.makesJob = true)
    (hscope : head.isScope = false) (hhead : head ≠ .scopeLaunch) (id : StatementId)
    (inner : List Statement) :
    ∃ m', Interpreter.enter j id head inner m = ([], m') ∧ Launched m.jobs.size inner m m' := by
  have hlaunch := launched_launch hu hj hne hb inner
  cases head with
  | launch => exact ⟨_, rfl, hlaunch⟩
  | scopeLaunch => exact absurd rfl hhead
  | launchJob var => exact ⟨_, rfl, hlaunch.bind id var _⟩
  | async var text => exact ⟨_, rfl, hlaunch.bind id var _⟩
  | coroutineScope | supervisorScope => cases hscope
  | tryCatch kind => cases hmakes

theorem enter_of_isScope {head : Head} (hscope : head.isScope = true) (j : JobId) (id : StatementId)
    (inner : List Statement) (m : ProgramMachine) : ∃ kind, Interpreter.enter j id head inner m =
      ([.rest m.jobs.size inner, .close m.jobs.size], (m.child j kind).2) := by
  cases head with
  | coroutineScope => exact ⟨.scope, rfl⟩
  | supervisorScope => exact ⟨.supervisor, rfl⟩
  | _ => cases hscope

/-- The block that begins is written down with its job. -/
theorem Snapshot.Records.jobOf (hrec : s.Records L L') (h : s.Upheld t L) {head : Head}
    {inner : List Statement} (hb : s.Begins j (.block id head inner)) (hmakes : head.makesJob = true) :
    L'.JobOf s.machine.jobs.size (.block id head inner) := by
  have hparent : (head.parent? j).isSome := by
    cases head <;> first | rfl | cases hmakes
  exact ⟨h.ledger.two, hrec.origin h hb hparent⟩

section Block

variable {head : Head} {inner body : List Statement}

theorem Punctual.enter (ht : t.Valid) (hfork : t.ForkJoin)
    (hp : Punctual t L D
      ⟨m, .running seat ticket (.rest j (.block id head inner :: body) :: outer) (.ok ())⟩)
    (h : History t L
      ⟨m, .running seat ticket (.rest j (.block id head inner :: body) :: outer) (.ok ())⟩)
    (hrec : Snapshot.Records
      ⟨m, .running seat ticket (.rest j (.block id head inner :: body) :: outer) (.ok ())⟩ L L')
    (hf : Follows t L' m ⟨(Interpreter.enter j id head inner (record id .began m)).2,
      .running seat ticket ((Interpreter.enter j id head inner (record id .began m)).1 ++
        .leave id :: .rest j body :: outer) (.ok ())⟩) :
    Punctual t L' D ⟨(Interpreter.enter j id head inner (record id .began m)).2,
      .running seat ticket ((Interpreter.enter j id head inner (record id .began m)).1 ++
        .leave id :: .rest j body :: outer) (.ok ())⟩ := by
  obtain ⟨-, hon⟩ := hp.running rfl
  have hbegins : Snapshot.Begins ⟨m, .running seat ticket
    (.rest j (.block id head inner :: body) :: outer) (.ok ())⟩ j (.block id head inner) :=
    ⟨_, _, _, _, rfl⟩
  have hstep : Thread.Step ticket ⟨.rest j (.block id head inner :: body) :: outer, .ok (), m⟩
      ⟨(Interpreter.enter j id head inner (record id .began m)).1 ++ .leave id :: .rest j body :: outer,
        .ok (), (Interpreter.enter j id head inner (record id .began m)).2⟩ := .enter
  have hacts := h.upheld.actsIn_of_begins hbegins
  obtain ⟨b, hb, -⟩ := hacts.isOpen
  obtain ⟨pj, hj, -⟩ := Machine.bond?_eq_some.1 hb
  have hL := hrec.isPrefix
  have hrecord := smooth_record hp.untroubled id .began
  have hsize : 1 < (record id .began m).jobs.size := h.upheld.ledger.two
  have hmid : Snapshot.IsMid ⟨m, .running seat ticket
    (.rest j (.block id head inner :: body) :: outer) (.ok ())⟩ :=
    Snapshot.isMid_running (by simp) (by simp)
  cases hon with
  | arrived _ hchain harrives =>
    cases hchain with
    | rest hplace hout hchain =>
      have hleave : Chain t L' _ (.leave id :: .rest j body :: outer) :=
        (Chain.leave hplace hout hchain).mono hL
      by_cases hmakes : head.makesJob = true
      · have hg := hrec.jobOf h.upheld hbegins hmakes
        have hinside := hplace.inside
        rw [Statement.ownerInside, if_pos hmakes] at hinside
        cases hscope : head.isScope with
        | true =>
          -- the body runs in the same task
          obtain ⟨kind, he⟩ := enter_of_isScope hscope j id inner (record id .began m)
          rw [he] at hf hstep ⊢
          have hsmooth := hrecord.trans
            (Machine.smooth_child hrecord.untroubled hj hacts.ne hsize kind)
          refine hp.carry_code ht h hstep hL hf hmid hsmooth rfl
            (hasSettled_of_child (m := record id .began m) hb kind) rfl
            (.arrived trivial (.rest hinside trivial (.scope hg hscope hplace hleave)) ?_)
          rw [hsmooth.now]
          exact harrives.mono hf.kept.trace
        | false =>
          -- the body runs in a task of its own, which begins now
          obtain ⟨m', he, hlaunched⟩ := exists_launched hrecord.untroubled hj hacts.ne hsize hmakes hscope
            (hfork.ne_scopeLaunch hplace.head_mem_nodes) id inner
          rw [he] at hf hstep ⊢
          have hsmooth := hrecord.trans hlaunched.smooth
          have harrives' : Arrives m'.env.trace.toList _ m'.now :=
            hsmooth.now.symm ▸ harrives.mono hf.kept.trace
          refine hp.carry ht h.upheld (.code hstep) hL hf hmid hsmooth hlaunched.settled (fun hi => ?_)
            fun hf' => ?_
          · rcases hlaunched.seated hi with hold | rfl
            · exact .inl hold
            · exact .inr (.entry trivial (.rest hinside trivial (.task hg hplace)) harrives')
          · obtain ⟨-, -, rfl, rfl⟩ := Focus.running.inj hf'
            exact ⟨rfl, .leaving ⟨⟨_, _, hplace⟩, harrives', hleave⟩ (.task hg hmakes hscope)⟩
      · cases head with
        | tryCatch kind =>
          refine hp.carry_code ht h hstep hL hf hmid hrecord rfl (fun hg => hg) rfl
            (.arrived trivial (.rest hplace.inside trivial (.catching hplace hleave)) ?_)
          exact harrives.mono hf.kept.trace
        | _ => exact absurd rfl hmakes

end Block

/-- The children of a job that lists none have settled. -/
theorem Snapshot.Upheld.hasSettled_of_childless (h : s.Upheld t L) {p : Nat} {pb : Bond}
    (hp : s.machine.bond? p = some pb) (hnone : pb.children = []) {c : Nat} {o : Origin} (hc : 2 ≤ c)
    (ho : L[c]? = some o) (hparent : o.parent = p) : HasSettled s.machine c := by
  have hlt : c < s.machine.jobs.size := h.ledger.length ▸ (List.getElem?_eq_some_iff.1 ho).1
  refine hasSettled_iff.2 ⟨hlt, fun hopen => ?_⟩
  obtain ⟨pb', hpb', hmem⟩ := h.exists_parent hc ho hopen
  obtain rfl := Option.some.inj (hp.symm.trans (hparent ▸ hpb'))
  rw [hnone] at hmem
  cases hmem

/-- The code that ends a job stands at the end of its block. -/
theorem Chain.closes (h : Chain t L done (.close j :: outer)) :
    ∃ owner before id head inner body, done = before ++ inner ∧ L.JobOf j (.block id head inner) ∧
      t.Placed owner before (.block id head inner :: body) ∧ (outer = [] ∨ head.isScope = true ∧
        ∃ outer', outer = .leave id :: outer' ∧ Chain t L before outer) := by
  cases h with
  | task hg hp => exact ⟨_, _, _, _, _, _, rfl, hg, hp, .inl rfl⟩
  | scope hg hs hp hchain => exact ⟨_, _, _, _, _, _, rfl, hg, hp, .inr ⟨hs, _, rfl, hchain⟩⟩

theorem Ledger.JobOf.unique {g : Nat} {block block' : Statement} (h : L.JobOf g block)
    (h' : L.JobOf g block') : block = block' := by
  obtain ⟨-, o, ho, hblock⟩ := h
  obtain ⟨-, o', ho', hblock'⟩ := h'
  obtain rfl := Option.some.inj (ho.symm.trans ho')
  exact Option.some.inj (hblock.symm.trans hblock')

/-- A job settles when its own code and its children have come to their ends. -/
theorem Punctual.settles (ht : t.Valid) {frame : ProgramFrame} {ended : Nat}
    (hp : Punctual t L D ⟨m, .running seat ticket (frame :: outer) result⟩)
    (h : History t L ⟨m, .running seat ticket (frame :: outer) result⟩)
    (hs : Thread.Step ticket ⟨frame :: outer, result, m⟩ ⟨outer, .ok (), m'⟩)
    (hf : Follows t L m ⟨m', .running seat ticket outer (.ok ())⟩)
    (hmid : Snapshot.IsMid ⟨m, .running seat ticket (frame :: outer) result⟩)
    (hr : Runs t L m.env.trace.toList (some j) (.close j :: outer)) (hopen : IsOpen m j)
    (hchain : Chain t L done (.close j :: outer)) (harrives : Arrives m.env.trace.toList done ended)
    (hcompletes : Completes L D j ended m.now) (hsmooth : Machine.Smooth 1 m m')
    (hsettled : ∀ {g}, HasSettled m' g ↔ HasSettled m g ∨ g = j)
    (hseats : m'.dispatcher.seats = m.dispatcher.seats) :
    ∃ D', Punctual t L D' ⟨m', .running seat ticket outer (.ok ())⟩ := by
  have hnow : Function.update D j m.now j = m'.now :=
    (Function.update_self ..).trans hsmooth.now.symm
  have hold : ∀ {g}, g ≠ j → Function.update D j m.now g = D g :=
    fun hg => Function.update_of_ne hg ..
  have hl : Later L m D L m' (Function.update D j m.now) := by
    refine ⟨List.prefix_refl L, hf.kept, Nat.le_of_eq hsmooth.now.symm, fun {g} hg => hold ?_,
      fun {g} hg => ?_⟩
    · rintro rfl
      exact (hasSettled_iff.1 hg).2 hopen
    · rcases hsettled.1 hg with hg | rfl
      · exact .inl hg
      · exact .inr ⟨h.upheld.ledger.length ▸ hopen.lt, hnow⟩
  obtain ⟨owner, before, id, head, inner, body, rfl, hg, hplace, houter⟩ := hchain.closes
  have hcompletes' : Completes L (Function.update D j m.now) j ended m'.now := by
    rw [hsmooth.now]
    refine hcompletes.later (List.prefix_refl L) fun {c o} hc ho hparent => ⟨ho, hold ?_⟩
    exact Nat.ne_of_gt (hparent ▸ (h.upheld.ledger.made hc ho).1)
  refine ⟨_, hp.onward ht h.upheld hf.upheld hl hsmooth
    (fun _ he => .inl (hmid.ended h.upheld (.code hs) he)) (fun {g} _ _ _ _ _ _ hg' hsettles hplace' => ?_)
    (fun hi => .inl ((Dispatcher.task?_of_seats hseats _).symm.trans hi)) (fun hf' => ?_)
    fun he => .inl ?_⟩
  · rcases hsettled.1 hsettles with hbefore | rfl
    · exact .inl hbefore
    · cases hg'.unique hg
      obtain ⟨-, rfl⟩ := ht.place_unique hplace' hplace
      exact .inr ⟨ended, harrives.mono hf.kept.trace, hnow.symm ▸ hcompletes'⟩
  · obtain ⟨-, -, rfl, rfl⟩ := Focus.running.inj hf'
    rcases houter with rfl | ⟨hscope, outer', rfl, hchain'⟩
    · exact ⟨rfl, .ended⟩
    · -- the scope has ended with its job
      obtain ⟨begun, hbegun⟩ : ∃ begun, Arrives m.env.trace.toList before begun := by
        cases hr with
        | scope _ _ _ hr => exact hr.exists_begun ht hplace rfl
      have htook : Took t L m' (Function.update D j m.now) before begun (.block id head inner) _ :=
        .scope hg hscope (hsettled.2 (.inr rfl))
      exact ⟨rfl, .leaving ⟨⟨_, _, hplace⟩, hbegun.mono hf.kept.trace, hchain'⟩ (hnow ▸ htook)⟩
  · exact (hmid.ending h.upheld (.code hs)).symm.trans he

/-- How the own code of a job ends when nothing has gone wrong. -/
inductive EndsCalmly (m : ProgramMachine) (j : JobId) (job : Job) : ProgramReached → Prop
  /-- The job settles, since it has no children left. -/
  | settles {m' : ProgramMachine} : job.children = [] → Machine.Smooth 1 m m' →
      m'.dispatcher.seats = m.dispatcher.seats →
      (∀ {g}, HasSettled m' g ↔ HasSettled m g ∨ g = j) → EndsCalmly m j job (.ended (.ok ()), m')
  /-- The job waits for its children. -/
  | waits {m' : ProgramMachine} : job.children ≠ [] → Machine.Smooth 1 m m' →
      m'.dispatcher.seats = m.dispatcher.seats → (∀ k, m'.bond? k = m.bond? k) →
      EndsCalmly m j job (.suspended (.children j) [.settle j], m')

theorem endsCalmly_close (hu : Machine.Untroubled 1 m) (hm : m.Sound) {job : Job}
    (hj : m.job? j = some job) (hopen : job.outcome = none) (hne : j ≠ 1) (ticket : Ticket) :
    EndsCalmly m j job (Interpreter.close ticket j (.ok ()) m) := by
  have hb := Machine.bond?_of_job? hj
  have hcloses := Machine.closes_close hm hb hopen ticket (.ok ())
  have hseats := Machine.seats_close m ticket j (.ok ())
  obtain ⟨hsmooth, hclose⟩ := Machine.smooth_close hu hm.tree.links hj hne ticket
  unfold Interpreter.close Reached.afterClose
  generalize m.close ticket j (.ok ()) = r at hcloses hseats hsmooth hclose ⊢
  obtain ⟨outcome, m'⟩ := r
  by_cases hnone : job.children = []
  · obtain rfl : outcome = some .completed := hclose.trans (if_pos hnone)
    cases hcloses with
    | settles _ _ hset => exact .settles hnone hsmooth hseats (hasSettled_settles hset ⟨_, hb, hopen⟩)
  · obtain rfl : outcome = none := hclose.trans (if_neg hnone)
    cases hcloses with
    | waits _ _ hbond _ _ _ => exact .waits hnone hsmooth hseats hbond

theorem Punctual.close (ht : t.Valid)
    (hp : Punctual t L D ⟨m, .running seat ticket (.close j :: outer) result⟩)
    (h : History t L ⟨m, .running seat ticket (.close j :: outer) result⟩)
    (he : Interpreter.close ticket j result m = (.ended result', m'))
    (hf : Follows t L m ⟨m', .running seat ticket outer result'⟩) :
    ∃ D', Punctual t L D' ⟨m', .running seat ticket outer result'⟩ := by
  obtain ⟨rfl, hon⟩ := hp.running rfl
  obtain ⟨-, hr, -⟩ := h.upheld.runs_close
  obtain ⟨b, hb, ho⟩ := h.upheld.isOpen_of_runs hr (Nat.le_add_left _ _)
  obtain ⟨job, hjob, rfl⟩ := Machine.bond?_eq_some.1 hb
  have hstep : Thread.Step ticket ⟨.close j :: outer, .ok (), m⟩ ⟨outer, result', m'⟩ := .close he
  have hends := endsCalmly_close hp.untroubled h.upheld.sound hjob ho hr.job_ne ticket
  rw [he] at hends
  cases hends with
  | settles hnone hsmooth hseats hsettled =>
    cases hon with
    | arrived _ hchain harrives =>
      refine hp.settles ht h hstep hf (Snapshot.isMid_running (by simp) (by simp)) hr ⟨_, hb, ho⟩
        hchain harrives ⟨Nat.le_refl _, fun hc hco hparent => ?_, .inl rfl⟩ hsmooth hsettled hseats
      exact hp.account.past (h.upheld.hasSettled_of_childless hb hnone hc hco hparent)

theorem Punctual.settle (ht : t.Valid)
    (hp : Punctual t L D ⟨m, .running seat ticket (.settle j :: outer) result⟩)
    (h : History t L ⟨m, .running seat ticket (.settle j :: outer) result⟩)
    (hf : Follows t L m ⟨(m.settle j).2, .running seat ticket outer (m.settle j).1.completion⟩) :
    ∃ D', Punctual t L D' ⟨(m.settle j).2, .running seat ticket outer (m.settle j).1.completion⟩ := by
  obtain ⟨rfl, hon⟩ := hp.running rfl
  have hstep : Thread.Step ticket ⟨.settle j :: outer, .ok (), m⟩
      ⟨outer, (m.settle j).1.completion, (m.settle j).2⟩ := .settle
  cases (h.upheld.polled rfl).ready with
  | runs hr => cases hr
  | settling hr hb hnone =>
    have hopen : IsOpen m j := h.upheld.isOpen_of_runs hr (by simp [Snapshot.opened, Focus.opened,
      ProgramFrame.opens?])
    obtain ⟨job, hjob, rfl⟩ := Machine.bond?_eq_some.1 hb
    obtain ⟨-, hset⟩ := Machine.settles_settle h.upheld.sound.tree hjob hnone
    have hsmooth := Machine.smooth_settle hp.untroubled hjob hr.job_ne
    rw [hp.untroubled.settle_fst hjob hr.job_ne] at hf hstep ⊢
    cases hon with
    | arrived hout hchain harrives => cases hchain
    | settling hchain harrives hcompletes =>
      exact hp.settles ht h hstep hf (Snapshot.isMid_running (by simp) (by simp)) hr hopen hchain harrives
        hcompletes hsmooth (hasSettled_settles hset hopen) (Machine.seats_settle ..)

end RacePuzzle
