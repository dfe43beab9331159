import RacePuzzle.Proofs.Evaluation.Rendezvous
import RacePuzzle.Proofs.Evaluation.Stamps

/-! The tasks of a fork-join run that wait. A task goes back to its seat when it has to wait, and goes on
at the time at which what it waits for is over. -/
namespace RacePuzzle

open Interpreter

variable {t : Statement} {L L' : Ledger} {m m' : ProgramMachine} {s s' : Snapshot} {D D' : JobId → Nat}
  {done : List Statement} {begun time : Nat} {frames frames' outer : List ProgramFrame}
  {seat : SeatId} {ticket : Ticket} {result result' : Completion} {j : JobId} {id : StatementId}
  {on : Suspension} {d : Dispatcher (Task ProgramFrame)}

theorem Sleeper.dispatch (h : Sleeper t L m D on frames) :
    Sleeper t L { m with dispatcher := d } D on frames := by
  have hin : ∀ {done begun st outer}, Within t L m done begun st outer →
      Within t L { m with dispatcher := d } done begun st outer :=
    fun h => ⟨h.placed, h.arrives, h.chain⟩
  cases h with
  | entry hout hchain harrives => exact .entry hout hchain harrives
  | delay h hover hsole => exact .delay (hin h) (hover.congr rfl) hsole
  | join h hs hg hlasts hw => exact .join (hin h) hs hg hlasts hw
  | await h hs hlasts hw => exact .await (hin h) hs hlasts hw
  | children hchain harrives hc ho hp hlasts => exact .children hchain harrives hc ho hp hlasts

theorem smooth_dispatch (hu : Machine.Untroubled 1 m) :
    Machine.Smooth 1 m { m with dispatcher := d } :=
  .ofJobs (hu.congr rfl) rfl rfl

theorem Punctual.checkIn (ht : t.Valid) (hp : Punctual t L D ⟨m, .running seat ticket frames result⟩)
    (h : History t L ⟨m, .running seat ticket frames result⟩)
    (hs : Thread.Suspends ticket ⟨frames, result, m⟩ on frames' m')
    (hf : Follows t L m ⟨{ m' with dispatcher := m'.dispatcher.checkIn seat ⟨on, frames'⟩ }, .idle⟩)
    (hmid : Snapshot.IsMid ⟨m, .running seat ticket frames result⟩) (hsmooth : Machine.Smooth 1 m m')
    (hseats : m'.dispatcher.seats = m.dispatcher.seats)
    (hopen : ∀ {g}, HasSettled m' g → HasSettled m g) (hsleeper : Sleeper t L m' D on frames') :
    Punctual t L D ⟨{ m' with dispatcher := m'.dispatcher.checkIn seat ⟨on, frames'⟩ }, .idle⟩ := by
  refine hp.carry ht h.upheld (.suspend hs) (List.prefix_refl L) hf hmid
    (hsmooth.trans (smooth_dispatch hsmooth.untroubled)) hopen (fun {i task} hi => ?_) nofun
  have hlt : seat < m'.dispatcher.seats.size := hseats ▸ (h.upheld.polled rfl).lt
  have hi : (m'.dispatcher.checkIn seat ⟨on, frames'⟩).task? i = some task := hi
  rw [Dispatcher.task?_checkIn hlt] at hi
  split at hi
  · obtain rfl := Option.some.inj hi
    exact .inr hsleeper.dispatch
  · exact .inl ((Dispatcher.task?_of_seats hseats i).symm.trans hi)

theorem Punctual.suspendAct (ht : t.Valid) (hfork : t.ForkJoin)
    (hmax : t.delays.sum ≤ Machine.maxTime) {action : Action} {body : List Statement}
    {inner : List ProgramFrame} (hp : Punctual t L D
      ⟨m, .running seat ticket (.rest j (.leaf id action :: body) :: outer) (.ok ())⟩)
    (h : History t L ⟨m, .running seat ticket (.rest j (.leaf id action :: body) :: outer) (.ok ())⟩)
    (he : performAction ticket j id action (record id .began m) = (.suspended on inner, m'))
    (hf : Follows t L m ⟨{ m' with
      dispatcher := m'.dispatcher.checkIn seat ⟨on, inner ++ .leave id :: .rest j body :: outer⟩ },
      .idle⟩) :
    Punctual t L D ⟨{ m' with
      dispatcher := m'.dispatcher.checkIn seat ⟨on, inner ++ .leave id :: .rest j body :: outer⟩ },
      .idle⟩ := by
  obtain ⟨-, hon⟩ := hp.running rfl
  have hacts := h.upheld.acts
  rw [he] at hacts
  cases hon with
  | arrived _ hchain harrives =>
    cases hchain with
    | rest hplace hout hchain =>
      have hacted := hp.acted ht hfork hmax h hplace
      rw [he] at hacted
      cases hacted with
      | suspended hsmooth hsleeper =>
        cases hacts with
        | suspended hsus =>
          refine hp.checkIn ht h (.act he) hf (Snapshot.isMid_running (by simp) (by simp)) hsmooth
            hsus.quiet.seats (hasSettled_congr hsus.quiet.bond).1 (hsleeper ?_)
          exact ⟨⟨_, _, hplace⟩, harrives.mono hf.kept.trace, .leave hplace hout hchain⟩

theorem Punctual.suspendClose (ht : t.Valid) {inner : List ProgramFrame}
    (hp : Punctual t L D ⟨m, .running seat ticket (.close j :: outer) result⟩)
    (h : History t L ⟨m, .running seat ticket (.close j :: outer) result⟩)
    (he : Interpreter.close ticket j result m = (.suspended on inner, m'))
    (hf : Follows t L m ⟨{ m' with
      dispatcher := m'.dispatcher.checkIn seat ⟨on, inner ++ outer⟩ }, .idle⟩) :
    Punctual t L D ⟨{ m' with
      dispatcher := m'.dispatcher.checkIn seat ⟨on, inner ++ outer⟩ }, .idle⟩ := by
  obtain ⟨rfl, hon⟩ := hp.running rfl
  obtain ⟨htwo, hr, -⟩ := h.upheld.runs_close
  obtain ⟨b, hb, ho⟩ := h.upheld.isOpen_of_runs hr (Nat.le_add_left _ _)
  obtain ⟨job, hjob, rfl⟩ := Machine.bond?_eq_some.1 hb
  have hsuspends : Thread.Suspends ticket ⟨.close j :: outer, .ok (), m⟩ on (inner ++ outer) m' :=
    .close he
  have hends := endsCalmly_close hp.untroubled h.upheld.sound hjob ho hr.job_ne ticket
  rw [he] at hends
  cases hends with
  | waits hne hsmooth hseats hbond =>
    obtain ⟨c, hc⟩ := List.exists_mem_of_ne_nil _ hne
    obtain ⟨-, -, -, hlt, -⟩ := h.upheld.sound.tree.links.child hb hc
    have hctwo : 2 ≤ c := Nat.le_of_lt (Nat.lt_of_le_of_lt htwo hlt)
    obtain ⟨hopen, o, hco, hparent⟩ := h.upheld.listed hb hc hctwo
    cases hon with
    | arrived _ hchain harrives =>
      refine hp.checkIn ht h hsuspends hf (Snapshot.isMid_running (by simp) (by simp)) hsmooth hseats
        (hasSettled_congr hbond).1
        (.children hchain (harrives.mono hf.kept.trace) hctwo hco hparent fun hsettled => ?_)
      exact absurd hopen (hasSettled_iff.1 ((hasSettled_congr hbond).1 hsettled)).2

/-- Code has come to a place by now. -/
theorem History.arrives_le (h : History t L s)
    (harrives : Arrives s.machine.env.trace.toList done time) : time ≤ s.machine.now := by
  unfold Arrives at harrives
  split at harrives
  · exact harrives ▸ Nat.zero_le _
  · exact h.stamped.2 _ harrives

/-- The handle that a leaf has used stands for the job that it is to wait for. -/
theorem Bindings.job?_of_referred (hb : Bindings t L s) {action : Action} {var : String}
    {handle handle' : Referent} {g : JobId} (hmem : .leaf id action ∈ t.nodes)
    (hu : action.uses? = some var) (hs : StandsFor t L var handle) (hg : handle.job? = some g)
    (hlog : Logged s.machine.env.trace.toList id (.referred (some handle'))) :
    handle'.job? = some g := by
  obtain ⟨htwo, o, block, ho, hblock, hdeclares⟩ : 2 ≤ g ∧ ∃ (o : Origin) (block : Statement),
      L[g]? = some o ∧ o.block = some block ∧ block.declares? = some var := by
    cases hs with
    | task htwo ho hblock =>
      cases hg
      exact ⟨htwo, _, _, ho, hblock, rfl⟩
    | deferred htwo ho hblock =>
      cases hg
      exact ⟨htwo, _, _, ho, hblock, rfl⟩
    | bare _ => cases hg
  obtain ⟨bound, hbound, hjob⟩ := hb.bound htwo ho hblock hdeclares
  obtain rfl := hb.unique (hb.referred hmem hu hlog) hbound
  exact hjob

def AwaitsJob (m : ProgramMachine) (w : WaitId) (g : JobId) : Prop :=
  ∃ job, m.job? g = some job ∧ m.Heeds w (some job.completion)

theorem awaitsJob_of_signal {handle : Referent} {g : JobId} {signal : SignalId} {w : WaitId}
    (hg : handle.job? = some g) (hsignal : signal? handle m = some signal)
    (hw : m.Heeds w (some signal)) : AwaitsJob m w g := by
  have hsignal : (m.job? g).map (·.completion) = some signal := by
    cases handle with
    | task _ =>
      cases hg
      exact hsignal
    | deferred _ _ =>
      cases hg
      exact hsignal
    | bare _ => cases hg
  obtain ⟨job, hjob, rfl⟩ := Option.map_eq_some_iff.1 hsignal
  exact ⟨job, hjob, hw⟩

/-- What the task in its seat waits for, if it waits for a job. -/
theorem History.awaitsJob (ht : t.Valid) (h : History t L s) {j : JobId} {k w : Nat}
    (hr : Rests t L s.machine (.wait j k w) frames) (hframes : frames = .leave id :: outer ∨
      ∃ target value, frames = .awaited id target value :: .leave id :: outer) {action : Action}
    {var : String} {handle : Referent} {g : JobId} (hmem : .leaf id action ∈ t.nodes) (hu : action.uses? = some var)
    (hs : StandsFor t L var handle) (hg : handle.job? = some g) : AwaitsJob s.machine w g := by
  have hb := h.bindings ht
  generalize hon : Suspension.wait j k w = on at hr
  cases hr with
  | entry _ _ => cases hon
  | children _ => cases hon
  | @wait _ _ _ id' inner outer' _ hneeds =>
    cases hon
    have hid : id' = id := by
      cases hneeds <;> rcases hframes with hf | ⟨_, _, hf⟩ <;> cases hf <;> rfl
    subst hid
    cases hneeds with
    | delay hmem' _ =>
      cases ht.eq_of_id hmem hmem' rfl
      cases hu
    | join _ hlog hsignal hw =>
      exact awaitsJob_of_signal (hb.job?_of_referred hmem hu hs hg hlog) hsignal hw
    | await _ hlog hsignal hw =>
      exact awaitsJob_of_signal (hb.job?_of_referred hmem hu hs hg hlog) hsignal hw

theorem AwaitsJob.hasSettled {w : WaitId} {g : JobId} (h : AwaitsJob m w g) (hm : m.Sound)
    (hw : m.timetable.waits[w]? = some .done) : HasSettled m g := by
  obtain ⟨job, hjob, hheeds⟩ := h
  exact ⟨job, hjob, hm.tree.completions.settled (Machine.bond?_of_job? hjob) (hheeds.done rfl hw)⟩

/-- While a task sleeps on a wait for a job, the job has not settled. -/
theorem AwaitsJob.not_hasSettled {i : Ticket} {j : JobId} {k w : Nat} {g : JobId}
    (h : AwaitsJob m w g) (hm : m.Sound) (hsleeps : m.Sleeps i j k w) : ¬ HasSettled m g := by
  rintro ⟨job', hjob', hsome⟩
  obtain ⟨job, hjob, hheeds⟩ := h
  obtain rfl := Option.some.inj (hjob.symm.trans hjob')
  obtain ⟨_, _, _, hon, -, signal, waiters, hsignal, hmem⟩ := (hsleeps.awaitsSignal hheeds).1
  cases hon
  obtain rfl := Option.some.inj (hheeds.only hsignal hmem)
  have hfired : m.hasFired job.completion = true :=
    hm.tree.completions.fired (Machine.bond?_of_job? hjob) hsome nofun
  simp [Machine.hasFired, hsignal] at hfired

/-- The end of a wait, to which nothing has gone wrong. -/
structure Resumed (on : Suspension) (r : Except Interruption Unit) (m m' : ProgramMachine) : Prop where
  result : r = .ok ()
  smooth : Machine.Smooth 1 m m'
  bond : ∀ k, m'.bond? k = m.bond? k
  done : ∀ {j k w}, on = .wait j k w → m.timetable.waits[w]? = some .done
  childless : ∀ {j b}, on = .children j → m.bond? j = some b → b.children = []

theorem resumed_resumption (hu : Machine.Untroubled 1 m) (hl : Machine.Links none m)
    (hj : on.job? = some j) (hne : j ≠ 1)
    (hw : ∀ {j k w}, on = .wait j k w → m.timetable.waits[w]? ≠ some .cancelled)
    {r : Except Interruption Unit} (hres : m.resumption ticket on = (some r, m')) :
    Resumed on r m m' := by
  have hcalm := hu.not_cancelled hne
  cases on with
  | turn => cases hj
  | entry k =>
    cases hj
    simp only [Machine.resumption, hcalm] at hres
    obtain ⟨hr, rfl⟩ := Prod.mk.inj hres
    exact ⟨(Option.some.inj hr).symm, .refl hu, fun _ => rfl, fun hon => (by cases hon),
      fun hon => (by cases hon)⟩
  | wait k waiter w =>
    cases hj
    cases hwait : m.timetable.waits[w]? with
    | none =>
      simp only [Machine.resumption, hwait] at hres
      cases (Prod.mk.inj hres).1
    | some wait =>
      cases wait with
      | pending _ =>
        simp only [Machine.resumption, hwait] at hres
        cases (Prod.mk.inj hres).1
      | cancelled => exact absurd hwait (hw rfl)
      | done =>
        simp only [Machine.resumption, hwait, hcalm] at hres
        obtain ⟨hr, rfl⟩ := Prod.mk.inj hres
        refine ⟨(Option.some.inj hr).symm, Machine.smooth_forget hu hne waiter,
          Machine.bond?_forget m j waiter, fun hon => ?_, fun hon => by cases hon⟩
        cases hon
        exact hwait
  | children k =>
    cases hj
    have hresumption : m.resumption ticket (.children j) =
      (if (m.awaitChildren ticket j).1 then some (.ok ()) else none, (m.awaitChildren ticket j).2) := rfl
    obtain ⟨hr, rfl⟩ := Prod.mk.inj (hresumption.symm.trans hres)
    have hidle : (m.awaitChildren ticket j).1 = true := by
      by_contra hbusy
      rw [if_neg hbusy] at hr
      cases hr
    rw [if_pos hidle] at hr
    refine ⟨(Option.some.inj hr).symm, Machine.smooth_awaitChildren hu ticket j,
      Machine.bond?_awaitChildren hl ticket j, fun hon => (by cases hon), fun hon hb => ?_⟩
    cases hon
    obtain ⟨job, hjob, rfl⟩ := Machine.bond?_eq_some.1 hb
    rcases Machine.awaitChildren_cases hl hjob ticket with ⟨hnone, -⟩ | ⟨-, hbusy, -⟩
    · exact hnone
    · cases hidle.symm.trans hbusy

theorem Sleeper.onTime (ht : t.Valid) (hs : Sleeper t L m D on frames) (h : History t L ⟨m, .idle⟩)
    (hpast : ∀ {g}, HasSettled m g → D g ≤ m.now) (hr : Rests t L m on frames)
    (hdone : ∀ {j k w}, on = .wait j k w → m.timetable.waits[w]? = some .done)
    (hchildless : ∀ {j}, on = .children j → ∃ b, m.bond? j = some b ∧ b.children = []) :
    OnTime t L m D frames := by
  have hsound : m.Sound := h.upheld.sound
  have hbegun : ∀ {done begun st outer}, Within t L m done begun st outer → begun ≤ m.now :=
    fun hin => h.arrives_le hin.arrives
  cases hs with
  | entry hout hchain harrives => exact .arrived hout hchain harrives
  | delay hin hover _ =>
    have hnow := hover.eq_now (hdone rfl)
    exact .leaving hin (hnow ▸ .delay)
  | join hin hstands hg hlasts _ =>
    obtain ⟨owner, body, hplace⟩ := hin.placed
    have hsettled := (h.awaitsJob ht hr (.inl rfl) hplace.head_mem_nodes rfl hstands hg).hasSettled hsound
      (hdone rfl)
    have hnow : max _ (D _) = m.now := (congrArg _ (hlasts hsettled)).trans (Nat.max_eq_right (hbegun hin))
    exact .leaving hin (hnow ▸ .join hstands hg hsettled)
  | await hin hstands hlasts _ =>
    obtain ⟨owner, body, hplace⟩ := hin.placed
    have hsettled := (h.awaitsJob ht hr (.inr ⟨_, _, rfl⟩) hplace.head_mem_nodes rfl hstands
      rfl).hasSettled hsound (hdone rfl)
    refine .awaited hin hstands hsettled ?_
    rw [hlasts hsettled, Nat.max_eq_right (hbegun hin)]
  | children hchain harrives hc ho hparent hlasts =>
    obtain ⟨b, hb, hnone⟩ := hchildless rfl
    have hsettled : ∀ {c : Nat} {o : Origin}, 2 ≤ c → L[c]? = some o → o.parent = _ → HasSettled m c :=
      fun hc ho hparent => h.upheld.hasSettled_of_childless hb hnone hc ho hparent
    refine .settling hchain harrives ⟨h.arrives_le harrives,
      fun hc ho hparent => hpast (hsettled hc ho hparent), .inr ⟨_, _, hc, ho, hparent, ?_⟩⟩
    exact hlasts (hsettled hc ho hparent)

theorem OnTime.later (h : OnTime t L m D frames) (hl : Later L m D L m' D) (hnow : m'.now = m.now) :
    OnTime t L m' D frames := by
  cases h with
  | ended => exact .ended
  | arrived hout hchain harrives =>
    exact .arrived hout hchain (hnow.symm ▸ harrives.mono hl.kept.trace)
  | leaving hin htook => exact .leaving (hin.later hl) (hnow.symm ▸ htook.later hl)
  | awaited hin hs hg htime => exact .awaited (hin.later hl) hs (hg.kept hl.kept) (hnow.trans htime)
  | settling hchain harrives hcompletes =>
    exact .settling hchain (harrives.mono hl.kept.trace) (hnow.symm ▸ hcompletes)

section Idle

variable {i : SeatId} {rest : List SeatId} {task : Task ProgramFrame}

theorem Punctual.goOn (ht : t.Valid) {r : Except Interruption Unit} (hp : Punctual t L D ⟨m, .idle⟩)
    (h : History t L ⟨m, .idle⟩) (hready : m.dispatcher.ready = i :: rest)
    (hout : (Snapshot.withoutFirst m rest).checkOut i = (some (ticket, task), d))
    (hres : ({ m with dispatcher := d } : ProgramMachine).resumption ticket task.on = (some r, m'))
    (hf : Follows t L m ⟨m', .running i ticket task.frames (Suspension.handed r)⟩) :
    Punctual t L D ⟨m', .running i ticket task.frames (Suspension.handed r)⟩ := by
  have hstep : Snapshot.Step ⟨m, .idle⟩ ⟨m', .running i ticket task.frames (Suspension.handed r)⟩ :=
    .goOn hready hout hres
  obtain ⟨-, rfl, htask, hothers, -⟩ :=
    Dispatcher.checkOut_some h.upheld.sound.orderly.aligned hready hout
  have hsleeper := hp.seated htask
  have hseated := h.upheld.seated htask
  obtain ⟨j, _, hj, hruns, -⟩ := hseated.rests.exists_runs
  have hdispatch := smooth_dispatch (d := d) hp.untroubled
  have hlinks : Machine.Links none ({ m with dispatcher := d } : ProgramMachine) :=
    h.upheld.sound.tree.links.congr fun _ => rfl
  have hwaits : ∀ {j k w}, task.on = .wait j k w → m.timetable.waits[w]? ≠ some .cancelled := by
    intro j k w hon
    rw [hon] at hsleeper
    generalize task.frames = frames at hsleeper
    cases hsleeper with
    | delay _ hover _ => exact hover.not_cancelled
    | join _ _ _ _ hw => exact hw
    | await _ _ _ hw => exact hw
  have hresumed := resumed_resumption hdispatch.untroubled hlinks hj hruns.job_ne hwaits hres
  obtain rfl := hresumed.result
  have hsmooth := hdispatch.trans hresumed.smooth
  have hsettled : ∀ {g}, HasSettled m' g → HasSettled m g := (hasSettled_congr hresumed.bond).1
  have hl : Later L m D L m' D := ⟨List.prefix_refl L, hf.kept, Nat.le_of_eq hsmooth.now.symm,
    fun _ => rfl, fun hg => .inl (hsettled hg)⟩
  have hon : OnTime t L m D task.frames := by
    refine hsleeper.onTime ht h hp.account.past hseated.rests hresumed.done fun hon => ?_
    have hwaits := hseated.waits
    rw [hon] at hwaits
    obtain ⟨job, hjob, -⟩ := hwaits
    exact ⟨_, Machine.bond?_of_job? hjob, hresumed.childless hon (Machine.bond?_of_job? hjob)⟩
  refine hp.carry ht h.upheld hstep (List.prefix_refl L) hf (Snapshot.isMid_idle m) hsmooth hsettled
    (fun hi => .inl ?_) fun hf' => ?_
  · have hd := Machine.dispatcher_resumption { m with dispatcher := d } ticket task.on
    rw [hres] at hd
    have hd : m'.dispatcher = d := hd
    have hi : m'.dispatcher.task? _ = some _ := hi
    rw [hd, hothers] at hi
    split at hi
    · cases hi
    · exact hi
  · obtain ⟨-, -, rfl, rfl⟩ := Focus.running.inj hf'
    exact ⟨rfl, hon.later hl hsmooth.now⟩

theorem Punctual.redispatch (ht : t.Valid) {f : Focus} (hp : Punctual t L D ⟨m, f⟩)
    (h : Snapshot.Upheld t L ⟨m, f⟩) (hs : Snapshot.Step ⟨m, f⟩ ⟨{ m with dispatcher := d }, .idle⟩)
    (hf : Follows t L m ⟨{ m with dispatcher := d }, .idle⟩) (hmid : Snapshot.IsMid ⟨m, f⟩)
    (htask : ∀ {i}, d.task? i = m.dispatcher.task? i) :
    Punctual t L D ⟨{ m with dispatcher := d }, .idle⟩ :=
  hp.carry ht h hs (List.prefix_refl L) hf hmid (smooth_dispatch hp.untroubled) (fun hg => hg)
    (fun hi => .inl (htask.symm.trans hi)) nofun

theorem Punctual.skip (ht : t.Valid) (hp : Punctual t L D ⟨m, .idle⟩) (h : Snapshot.Upheld t L ⟨m, .idle⟩)
    (hready : m.dispatcher.ready = i :: rest)
    (hout : (Snapshot.withoutFirst m rest).checkOut i = (none, d))
    (hf : Follows t L m ⟨{ m with dispatcher := d }, .idle⟩) :
    Punctual t L D ⟨{ m with dispatcher := d }, .idle⟩ := by
  obtain ⟨-, -, hseats, -⟩ := Dispatcher.checkOut_none h.sound.orderly.aligned hready hout
  exact hp.redispatch ht h (.skip hready hout) hf (Snapshot.isMid_idle m)
    (Dispatcher.task?_of_seats hseats _)

theorem Punctual.sleepOn (ht : t.Valid) (hp : Punctual t L D ⟨m, .idle⟩)
    (h : Snapshot.Upheld t L ⟨m, .idle⟩) (hready : m.dispatcher.ready = i :: rest)
    (hout : (Snapshot.withoutFirst m rest).checkOut i = (some (ticket, task), d))
    (hres : ({ m with dispatcher := d } : ProgramMachine).resumption ticket task.on = (none, m'))
    (hf : Follows t L m ⟨{ m' with dispatcher := m'.dispatcher.checkIn i task }, .idle⟩) :
    Punctual t L D ⟨{ m' with dispatcher := m'.dispatcher.checkIn i task }, .idle⟩ := by
  have hstep : Snapshot.Step ⟨m, .idle⟩ ⟨{ m' with dispatcher := m'.dispatcher.checkIn i task }, .idle⟩ :=
    .sleepOn hready hout hres
  obtain ⟨rfl, -⟩ := h.resumption_none hready hout hres
  exact Punctual.redispatch (m := m) (d := d.checkIn i task) ht hp h hstep hf (Snapshot.isMid_idle m)
    (Dispatcher.task?_checkIn_of_checkOut h.sound.orderly.aligned hready hout _)

theorem Punctual.finish (ht : t.Valid) (hp : Punctual t L D ⟨m, .running seat ticket [] result⟩)
    (h : Snapshot.Upheld t L ⟨m, .running seat ticket [] result⟩)
    (hf : Follows t L m ⟨{ m with dispatcher := m.dispatcher.finish ticket }, .idle⟩) :
    Punctual t L D ⟨{ m with dispatcher := m.dispatcher.finish ticket }, .idle⟩ :=
  hp.redispatch ht h .finish hf
    (fun _ => ⟨fun _ ⟨_, _, _, hf⟩ => (nomatch hf), fun ⟨_, _, _, hf⟩ => (nomatch hf)⟩)
    (Dispatcher.task?_of_seats (Dispatcher.seats_finish ..) _)

/-- A task that waits when the clock moves on waits for what is not over yet. -/
theorem Sleeper.tick (ht : t.Valid) (hs : Sleeper t L m D on frames) (h : History t L ⟨m, .idle⟩)
    (hseated : Seated t L m i ⟨on, frames⟩) (hqueued : m.dispatcher.isQueued i = false)
    (hnext : m.timetable.clock.next? = some time) (hl : Later L m D L m.advance.2 D) :
    Sleeper t L m.advance.2 D on frames := by
  have hsound : m.Sound := h.upheld.sound
  have hwaits := hseated.waits
  have hsleeps : ∀ {j k w}, on = .wait j k w → m.Sleeps i j k w := by
    rintro j k w rfl
    exact hwaits.resolve_left fun ⟨_, hq⟩ => nomatch hqueued.symm.trans hq
  -- a wait for a job stays as it is, and the job has not settled
  have hjob : ∀ {j k w g}, on = .wait j k w → AwaitsJob m w g →
      Lasts m.advance.2 D g ∧ m.advance.2.timetable.waits[w]? ≠ some .cancelled := by
    intro j k w g hon hawaits
    have hpending := (hsleeps hon).pending
    refine ⟨fun hg => absurd hg (hawaits.not_hasSettled hsound (hsleeps hon)), ?_⟩
    obtain ⟨job, -, hheeds⟩ := hawaits
    rcases (Machine.advanced_advance hnext).waits w with hsame | ⟨_, _, ht', hcontent, -⟩
    · rw [hsame, hpending]
      nofun
    · exact absurd hcontent (hheeds.untimed rfl ht')
  cases hs with
  | entry _ _ _ => cases hqueued.symm.trans hwaits
  | delay hin hover hsole =>
    refine .delay (hin.later hl) (hover.advance hsound.orderly hnext ?_ hsole)
      (hsole.of_timers (Machine.of_timer?_advance hnext))
    rw [(hsleeps rfl).pending]
    nofun
  | join hin hstands hg _ _ =>
    obtain ⟨owner, body, hplace⟩ := hin.placed
    obtain ⟨hlasts, hw⟩ := hjob rfl
      (h.awaitsJob ht hseated.rests (.inl rfl) hplace.head_mem_nodes rfl hstands hg)
    exact .join (hin.later hl) hstands hg hlasts hw
  | await hin hstands _ _ =>
    obtain ⟨owner, body, hplace⟩ := hin.placed
    obtain ⟨hlasts, hw⟩ := hjob rfl
      (h.awaitsJob ht hseated.rests (.inr ⟨_, _, rfl⟩) hplace.head_mem_nodes rfl hstands rfl)
    exact .await (hin.later hl) hstands hlasts hw
  | @children _ _ j _ _ _ hchain harrives _ _ _ _ =>
    -- another child is still open
    obtain ⟨job, hjob, ⟨-, hq⟩ | ⟨hne, -⟩⟩ := hwaits
    · cases hqueued.symm.trans hq
    · obtain ⟨c, hc⟩ := List.exists_mem_of_ne_nil _ hne
      have hb := Machine.bond?_of_job? hjob
      have htwo : 2 ≤ j := by
        obtain ⟨_, _, _, _, _, _, -, hg, -⟩ := hchain.closes
        exact hg.two_le
      obtain ⟨-, -, -, hlt, -⟩ := hsound.tree.links.child hb hc
      have hctwo : 2 ≤ c := Nat.le_of_lt (Nat.lt_of_le_of_lt htwo hlt)
      obtain ⟨hopen, o, ho, hparent⟩ := h.upheld.listed hb hc hctwo
      exact .children hchain (harrives.mono hl.kept.trace) hctwo ho hparent
        fun hg => absurd hopen (hasSettled_iff.1 hg).2

theorem Punctual.tick (ht : t.Valid) (hp : Punctual t L D ⟨m, .idle⟩) (h : History t L ⟨m, .idle⟩)
    (hready : m.dispatcher.ready = []) (hnext : m.timetable.clock.next? = some time)
    (hf : Follows t L m ⟨m.advance.2, .idle⟩) : Punctual t L D ⟨m.advance.2, .idle⟩ := by
  have hl : Later L m D L m.advance.2 D := by
    refine ⟨List.prefix_refl L, hf.kept, ?_, fun _ => rfl, .inl⟩
    rw [Machine.now_advance hnext]
    exact Nat.le_max_left _ _
  refine ⟨hp.untroubled.congr rfl,
    hp.account.later hl h.upheld rfl hf.upheld rfl (fun _ he => .inl he) (fun _ hg _ => .inl hg), nofun,
    fun {i task} hi => ?_, hp.ending⟩
  have hold := (Dispatcher.task?_of_seats (Machine.seats_wakeAll ..) i).symm.trans hi
  exact (hp.seated hold).tick ht h (h.upheld.seated hold)
    (h.upheld.sound.orderly.aligned.isQueued_of_ready hready i) hnext hl

end Idle

end RacePuzzle
