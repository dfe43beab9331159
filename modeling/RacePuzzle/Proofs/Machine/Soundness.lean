import RacePuzzle.Proofs.Machine.Evolution

/-! What is true of a machine at any time: the tree of jobs is in order, cancellation has reached
all that it has to reach, tickets and seats agree, and the clock knows all of its timers. -/
namespace RacePuzzle.Machine

variable {ε τ : Type} {m m' : Machine ε τ} {allowed : Suspension → Prop}

structure Orderly (m : Machine ε τ) : Prop where
  aligned : m.dispatcher.Aligned
  complete : m.timetable.clock.timers.Complete
  fresh : ∀ {k timer}, m.timetable.timer? k = some timer → k < m.timetable.clock.nextSeq
  timed : ∀ {k timer}, m.timetable.timer? k = some timer → timer.content < m.timetable.waits.size
  registered : ∀ {s : SignalId} {signal : Signal} {w : WaitId}, m.signals[s]? = some signal →
    w ∈ signal.waiters → w < m.timetable.waits.size

theorem Orderly.congr (h : Orderly m) (ht : m'.timetable = m.timetable)
    (hs : m'.signals = m.signals) (hd : m'.dispatcher.Aligned) : Orderly m' := by
  refine ⟨hd, ?_, ?_, ?_, ?_⟩ <;> simp only [ht, hs]
  · exact h.complete
  · exact h.fresh
  · exact h.timed
  · exact h.registered

theorem Orderly.wakeAll (h : Orderly m) (ss : List Ticket) : Orderly (m.wakeAll ss) :=
  h.congr rfl rfl (Dispatcher.aligned_wakeAll h.aligned ss)

theorem Orderly.updateJob (h : Orderly m) (j : JobId) (f : Job → Job) :
    Orderly (m.updateJob j f) :=
  h.congr rfl rfl h.aligned

theorem Orderly.set_jobs (h : Orderly m) (jobs : Array Job) : Orderly { m with jobs := jobs } :=
  h.congr rfl rfl h.aligned

theorem Orderly.updateEnv (h : Orderly m) (f : ε → ε) : Orderly (m.updateEnv f) :=
  h.congr rfl rfl h.aligned

theorem Orderly.resolution (h : Orderly m) {outcome : Wait} {ws : List WaitId} {ss : List Ticket}
    {t : Timetable} {signals : Array Signal} (hr : Resolution outcome ws ss m t signals) :
    Orderly ({ m with timetable := t, signals := signals }.wakeAll ss) := by
  have hsize : t.waits.size = m.timetable.waits.size := hr.resolves.size
  refine ⟨Dispatcher.aligned_wakeAll h.aligned ss, hr.complete h.complete, fun {k timer} ht => ?_,
    fun {k timer} ht => ?_, fun {s signal w} hs hw => ?_⟩
  · exact Nat.lt_of_lt_of_eq (h.fresh (hr.live ht)) hr.seq.symm
  · exact Nat.lt_of_lt_of_eq (h.timed (hr.live ht)) hsize.symm
  · obtain ⟨signal₀, hs₀, hsub⟩ := hr.waiters hs
    exact Nat.lt_of_lt_of_eq (h.registered hs₀ (hsub w hw)) hsize.symm

theorem Orderly.interruptAll (h : Orderly m) (waits : List (Nat × OpenWait)) :
    Orderly (m.interruptAll waits) := by
  induction waits generalizing m with
  | nil => exact h
  | cons wait rest ih =>
    obtain ⟨waiter, on⟩ := wait
    cases on with
    | signal w => exact ih (h.resolution (resolution_resolve m w))
    | timer => exact ih (h.resolution (resolution_cancelTimer m waiter).choose_spec)

theorem Orderly.cancelAll (h : Orderly m) (jobs : List JobId) : Orderly (m.cancelAll jobs) :=
  cancelAll_induction (R := fun m m' => Orderly m → Orderly m') (fun _ => id) (fun f g h => g (f h))
    (fun _ _ h => (h.set_jobs _).interruptAll _) m jobs h

theorem Orderly.cancel (h : Orderly m) (j : JobId) : Orderly (m.cancel j) := h.cancelAll [j]

theorem Orderly.fail (h : Orderly m) (j : JobId) (kind : ExceptionKind) :
    Orderly (m.fail j kind) :=
  fail_induction (R := fun m m' => Orderly m → Orderly m') (fun _ => id) (fun f g h => g (f h))
    (fun _ _ h => (h.set_jobs _).interruptAll _) (fun _ _ _ h => h.set_jobs _) m j kind h

theorem Orderly.conclude (h : Orderly m) (j : JobId) (result : Completion) :
    Orderly (m.conclude j result) := by
  unfold Machine.conclude
  split
  · exact h
  · exact h.cancel j
  · exact h.fail ..

theorem Orderly.passOnFailure (h : Orderly m) (job : Job) : Orderly (m.passOnFailure job) := by
  unfold Machine.passOnFailure
  split
  · split
    · exact h
    · exact h.fail ..
  · exact h

theorem Orderly.fire (h : Orderly m) (s : SignalId) : Orderly (m.fire s) := by
  unfold Machine.fire
  split
  · next waiters hs => exact h.resolution (resolution_fire hs)
  · exact h

theorem Orderly.advance (h : Orderly m) {time : Nat} (ht : m.timetable.clock.next? = some time) :
    Orderly m.advance.2 :=
  h.resolution (exists_resolution_advance ht).choose_spec

theorem Orderly.unlink (h : Orderly m) (p c : JobId) : Orderly (m.unlink p c) := by
  unfold Machine.unlink
  split
  · exact h
  · dsimp only
    split
    · exact (h.set_jobs _).wakeAll _
    · exact h.set_jobs _

theorem Orderly.newSignal (h : Orderly m) : Orderly m.newSignal.2 := by
  refine ⟨h.aligned, h.complete, h.fresh, h.timed, fun {s signal w} hs hw => ?_⟩
  have hs : (m.signals.push Signal.unfired)[s]? = some signal := hs
  rw [Array.getElem?_push] at hs
  split at hs
  · obtain rfl := Option.some.inj hs
    simp [Signal.unfired] at hw
  · exact h.registered hs hw

theorem Orderly.child (h : Orderly m) (p : JobId) (kind : JobRole) : Orderly (m.child p kind).2 :=
  (h.newSignal.set_jobs _).updateJob _ _

theorem aligned_spawn {d : Dispatcher τ} (h : d.Aligned) (task : τ) : (d.spawn task).Aligned := by
  refine ⟨by simp [Dispatcher.spawn, h.size], fun i seat hs => ?_, fun i e he => ?_,
    fun i hq => ?_⟩
  · simp only [Dispatcher.spawn, Array.getElem?_push] at hs
    split at hs
    · next hi =>
      obtain rfl := Option.some.inj hs
      exact h.size.trans hi.symm
    · exact h.seat i seat hs
  · simp only [Dispatcher.spawn, Array.getElem?_push] at he
    split at he
    · next hi =>
      obtain rfl := Option.some.inj he
      exact h.size.symm.trans hi.symm
    · exact h.entry i e he
  · by_cases hi : i = d.tickets.size
    · exact List.mem_append_right _ (by simp [hi, h.size])
    · refine List.mem_append_left _ (h.queued i ?_)
      simpa [Dispatcher.isQueued, Dispatcher.spawn, Array.getElem?_push, hi] using hq

theorem Orderly.spawn (h : Orderly m) (task : τ) : Orderly (m.spawn task) :=
  h.congr rfl rfl (aligned_spawn h.aligned task)

theorem Orderly.settle (h : Orderly m) (j : JobId) : Orderly (m.settle j).2 := by
  unfold Machine.settle
  split
  · exact h
  · next job _ =>
    cases job.parent with
    | none => exact (((h.updateJob j _).passOnFailure job).fire job.completion).updateJob _ _
    | some p =>
      exact ((((h.updateJob j _).passOnFailure job).fire job.completion).unlink p j).updateJob _ _

structure Sound (m : Machine ε τ) : Prop where
  tree : Tree none m
  cancelled : Cancelled [] m
  orderly : Orderly m

theorem Sound.updateEnv (h : Sound m) (f : ε → ε) : Sound (m.updateEnv f) :=
  ⟨h.tree.congr (fun _ => rfl) rfl, h.cancelled.congr fun _ => rfl, h.orderly.updateEnv f⟩

theorem Sound.wakeAll (h : Sound m) (ss : List Ticket) : Sound (m.wakeAll ss) :=
  ⟨h.tree.congr (fun _ => rfl) rfl, h.cancelled.congr fun _ => rfl, h.orderly.wakeAll ss⟩

theorem Sound.cancel (h : Sound m) (j : JobId) : Sound (m.cancel j) :=
  ⟨h.tree.of_sameBonds (sameBonds_cancel m j), h.cancelled.cancel j,
    h.orderly.cancel j⟩

theorem Sound.conclude (h : Sound m) (j : JobId) (result : Completion) :
    Sound (m.conclude j result) :=
  ⟨h.tree.of_sameBonds (sameBonds_conclude m j result), h.cancelled.conclude j result,
    h.orderly.conclude j result⟩

theorem Sound.fire (h : Sound m) {s : SignalId} (hlt : s < m.signals.size)
    (hbare : ∀ {j b}, m.bond? j = some b → b.completion ≠ s) : Sound (m.fire s) :=
  ⟨h.tree.fire hlt fun hj hc => absurd hc (hbare hj), h.cancelled.fire s, h.orderly.fire s⟩

theorem Sound.newSignal (h : Sound m) : Sound m.newSignal.2 := by
  refine ⟨⟨h.tree.links.congr fun _ => rfl, ?_⟩, h.cancelled.congr fun _ => rfl,
    h.orderly.newSignal⟩
  refine ⟨fun hj => ?_, h.tree.completions.inj, fun hj ho hx => ?_, fun {j b} hj hf => ?_⟩
  · exact Nat.lt_of_lt_of_eq (Nat.lt_succ_of_lt (h.tree.completions.lt hj))
      (Array.size_push ..).symm
  · exact hasFired_push (h.tree.completions.fired hj ho hx)
  · refine h.tree.completions.settled hj ?_
    have hne : b.completion ≠ m.signals.size := Nat.ne_of_lt (h.tree.completions.lt hj)
    simpa [hasFired, Machine.newSignal, Array.getElem?_push, hne] using hf

theorem Sound.child (h : Sound m) {p : JobId} {pj : Job} (hp : m.job? p = some pj)
    (hopen : pj.outcome = none) (kind : JobRole) : Sound (m.child p kind).2 :=
  ⟨h.tree.child_new (bond?_of_job? hp) hopen kind, h.cancelled.child_new hp kind,
    h.orderly.child p kind⟩

theorem Sound.spawn (h : Sound m) (task : τ) : Sound (m.spawn task) :=
  ⟨h.tree.congr (fun _ => rfl) rfl, h.cancelled.congr fun _ => rfl, h.orderly.spawn task⟩

theorem Sound.settle (h : Sound m) {j : JobId} {job : Job} (hj : m.job? j = some job)
    (hnone : job.children = []) : Sound (m.settle j).2 :=
  ⟨(settles_settle h.tree hj hnone).2.tree, h.cancelled.settle j, h.orderly.settle j⟩

theorem Sound.advance (h : Sound m) {time : Nat} (ht : m.timetable.clock.next? = some time) :
    Sound m.advance.2 :=
  ⟨h.tree.congr (fun _ => rfl) rfl, h.cancelled.congr fun _ => rfl, h.orderly.advance ht⟩

/-- A change of what neither bonds nor cancellation depend on. -/
theorem Sound.updateJob (h : Sound m) {j : JobId} {f : Job → Job}
    (hbond : ∀ job, (f job).bond = job.bond)
    (hf : ∀ job, m.job? j = some job → Job.Trimmed job (f job)) : Sound (m.updateJob j f) :=
  ⟨h.tree.congr (bond?_updateJob hbond) rfl, h.cancelled.updateJob hf, h.orderly.updateJob j f⟩

theorem bond?_awaitChildren {x : Option JobId} (hl : Links x m) (ticket : Ticket) (j k : JobId) :
    (m.awaitChildren ticket j).2.bond? k = m.bond? k := by
  cases hj : m.job? j with
  | none =>
    unfold bond? awaitChildren
    simp only [job?_updateJob]
    split
    · next hk => simp [hk, hj]
    · rfl
  | some job =>
    rw [awaitChildren_eq hl ticket hj]
    have hsame := bond?_updateJob (m := m) (j := j)
      (f := ({ · with idleSleeper := if job.children.isEmpty then none else some ticket }))
      (fun _ => rfl) k
    exact hsame

theorem Sound.awaitChildren (h : Sound m) (ticket : Ticket) (j : JobId) :
    Sound (m.awaitChildren ticket j).2 :=
  ⟨h.tree.congr (bond?_awaitChildren h.tree.links ticket j) rfl, h.cancelled.awaitChildren ticket j,
    h.orderly.updateJob _ _⟩

end RacePuzzle.Machine
