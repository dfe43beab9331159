import RacePuzzle.Generation.Puzzle
import RacePuzzle.Proofs.Generation.Growth
import RacePuzzle.Proofs.Simplification.Minimality

/-! The making of a puzzle. Between two rounds the program is valid and has no value that is not
from the stock, so that the names of what is gone can be drawn again. -/
namespace RacePuzzle

open Statement (bodyNodes valueOf? Steady Simpler Minimal)

namespace Statement

variable {n n' : Nat} {t t' : Statement}

theorem steady_valueOf? (pool : Pool) : Steady (valueOf? pool) where
  block _ head _ _ := by
    cases pool <;> cases head <;> rfl
  print _ _ _ := by
    cases pool
    · exact .inl rfl
    · exact .inl rfl
    · exact .inr rfl
  launch _ _ := by
    cases pool <;> rfl

/-- A program whose handles are all in use has as many usages as declarations, besides its root. -/
theorem Minimal.paired (h : t.Minimal) (ht : t.Valid) : 2 * t.declared.length + 1 ≤ t.size := by
  have hused : t.declared.length ≤ t.used.length :=
    (ht.declared.subperm fun var hvar => h.used var hvar).length_le
  obtain ⟨root, body, rfl, -⟩ := ht.exists_covered
  have hboth : ∀ l : List Statement,
      (l.filterMap declares?).length + (l.filterMap uses?).length ≤ l.length := by
    intro l
    induction l with
    | nil => exact Nat.le_refl 0
    | cons s rest ih =>
      have hs : s.declares?.toList.length + s.uses?.toList.length ≤ 1 := by
        cases hu : s.uses? with
        | none => cases s.declares? <;> simp
        | some var => exact declares?_of_uses? hu ▸ Nat.le_refl 1
      simp only [List.filterMap_cons, List.length_cons]
      cases hd : s.declares? <;> cases hu : s.uses? <;> rw [hd, hu] at hs <;>
        simp only [Option.toList_some, Option.toList_none, List.length_cons, List.length_nil] at hs ⊢ <;>
        omega
  have hbody := hboth (bodyNodes body)
  rw [length_bodyNodes] at hbody
  have hdeclared : (Statement.block root .coroutineScope body).declared =
      (bodyNodes body).filterMap declares? := rfl
  have huses : (Statement.block root .coroutineScope body).used = (bodyNodes body).filterMap uses? := rfl
  rw [hdeclared] at hused ⊢
  rw [huses] at hused
  rw [size]
  omega

theorem printOf?_eq_some {text : String} {print : Statement} (h : t.printOf? text = some print) :
    print ∈ t.nodes ∧ print.printedText? = some text :=
  ⟨List.mem_of_find?_eq_some h, by simpa using List.find?_some h⟩

theorem simultaneousPrint?_eq_some {events : List TimedPrint} {print : Statement}
    (h : t.simultaneousPrint? events = some print) :
    print ∈ t.nodes ∧ ∃ text, print.printedText? = some text := by
  induction events with
  | nil => cases h
  | cons first rest ih =>
    cases rest with
    | nil => cases h
    | cons second rest =>
      rw [simultaneousPrint?] at h
      split at h
      · simp only [Option.orElse_eq_orElse, Option.orElse_eq_or, Option.or_eq_some_iff] at h
        rcases h with h | ⟨-, h | ⟨-, h⟩⟩
        · exact ⟨(printOf?_eq_some h).1, _, (printOf?_eq_some h).2⟩
        · exact ⟨(printOf?_eq_some h).1, _, (printOf?_eq_some h).2⟩
        · exact ih h
      · exact ih h

def Separated (t : Statement) : Prop := t.simultaneousPrint? t.evaluate.events = none

/-- One print goes at most, and nothing else. -/
theorem separatePrints_cases (ht : t.Valid) (hn : Unused n [t]) :
    t.separatePrints = t ∧ t.Separated ∨
      Simpler n t t.separatePrints n ∧ t.separatePrints.size + 1 = t.size := by
  unfold separatePrints
  split
  · next print hprint =>
    obtain ⟨hmem, text, htext⟩ := simultaneousPrint?_eq_some hprint
    obtain ⟨root, body, rfl, -⟩ := ht.exists_covered
    cases print with
    | block => cases htext
    | leaf i action =>
      have hnone : (Statement.leaf i action).declares? = none := by
        cases action <;> first | rfl | cases htext
      have hsimpler := simpler_remove ht hn (get?_of_mem ht.ids hmem)
      rw [dropUsages, hnone] at hsimpler
      refine .inr ⟨hsimpler, ?_⟩
      have hbelow : .leaf i action ∈ bodyNodes body := by
        rcases List.mem_cons.1 hmem with he | hmem
        · cases he
        · exact hmem
      have hnodup := ht.ids
      rw [ids, nodes, List.map_cons, List.nodup_cons] at hnodup
      have hgains : Gains [.leaf i action] (spliceBody i [] body) body :=
        (inserted_spliceBody body hnodup.2 hbelow).gains
      have hsize := hgains.bodySize_eq
      have hremove : (Statement.block root .coroutineScope body).remove i =
          .block root .coroutineScope (spliceBody i [] body) := rfl
      rw [id, hremove, size, size, hsize]
      rfl
  · next hnone => exact .inl ⟨rfl, hnone⟩

end Statement

namespace Supply

@[simp] theorem names_renewFor (s : Supply) (t : Statement) :
    (s.renewFor t).names = s.names.renewFor t :=
  rfl

@[simp] theorem nextId_renewFor (s : Supply) (t : Statement) : (s.renewFor t).nextId = s.nextId := by
  rw [renewFor]

end Supply

namespace Generation

variable {ample : Prop} {s s' : Supply} {t : Statement} {target : Nat} {config : PuzzleConfig}

/-- A program from which the next round can start, when the pools are renewed. -/
structure Resumable (target : Nat) (s : Supply) (t : Statement) : Prop where
  valid : t.Valid
  distinct : Statement.Distinct t.nodes
  unused : Statement.Unused s.nextId [t]
  stocked : ∀ pool, ∀ value ∈ t.valuesOf pool, value ∈ pool.stock
  seconds : Statement.WholeSeconds t.nodes
  paired : 2 * t.declared.length ≤ t.size
  size : t.size ≤ target

theorem Growing.resumable (h : Growing target s t) : Resumable target s t :=
  ⟨h.valid, h.distinct, h.supplies.unused, fun pool => (h.supplies.names pool).stocked, h.seconds,
    h.paired, h.size⟩

theorem Resumable.growing (h : Resumable target s t) : Growing target (s.renewFor t) t where
  valid := h.valid
  supplies :=
    { unused := by
        rw [Supply.nextId_renewFor]
        exact h.unused
      names := fun pool => by
        rw [Supply.names_renewFor]
        exact s.names.suits_renewFor (h.stocked pool) }
  distinct := h.distinct
  seconds := h.seconds
  paired := h.paired
  size := h.size

theorem Resumable.simpler (h : Resumable target s t) {t' : Statement}
    (hs : Simpler s.nextId t t' s'.nextId) (hpaired : 2 * t'.declared.length ≤ t'.size) :
    Resumable target s' t' where
  valid := hs.valid
  distinct := h.distinct.sublist hs.own
  unused := hs.unused
  stocked pool value hvalue :=
    h.stocked pool value ((hs.own (Statement.steady_valueOf? pool)).subset hvalue)
  seconds d hd := h.seconds d ((hs.own Statement.steady_delay?).subset hd)
  paired := hpaired
  size := Nat.le_trans hs.size h.size

def Simplified (t : Statement) : Prop :=
  ∀ n, (∀ i ∈ t.ids, i < n) → t.simplify.run n = (.ok t, n)

/-- Simplification of a valid program finds no violation. -/
theorem yields_simplify (h : Resumable target s t) : Yields ample (simplify t) s fun t' s' =>
    Resumable target s' t' ∧ t'.Minimal ∧ Simplified t' := by
  have hget : ∀ rest : Supply → Generation Statement,
      (get >>= rest : Generation Statement).run s = (rest s).run s := fun _ => rfl
  have hids : ∀ i ∈ t.ids, i < s.nextId := fun i hi => h.unused i (by
    simpa [bodyNodes, Statement.ids] using hi)
  obtain ⟨r, n', hsimplify, hminimal, hfixed⟩ :=
    t.simplify_minimal (Statement.validate_eq_ok_iff.2 h.valid) s.nextId hids
  obtain ⟨r', n'', hsimplify', -, hsimpler⟩ := Statement.settlesTo_simplify h.valid h.unused
  obtain ⟨hr, hn⟩ := Prod.mk.inj (hsimplify.symm.trans hsimplify')
  obtain rfl := Except.ok.inj hr
  subst hn
  unfold Yields
  rw [simplify, hget, hsimplify]
  refine ⟨h.simpler hsimpler ?_, hminimal, hfixed⟩
  exact Nat.le_of_succ_le (hminimal.paired hsimpler.valid)

/-- A round ends with a program for the next one, or with one that is simplified, and separated if it
has to be. -/
theorem yields_playRound (h : Resumable config.target s t) :
    Yields (config.target ≤ 1027) (playRound config t) s fun t' s' =>
      Resumable config.target s' t' ∧
        (config.target ≤ t'.size → Simplified t' ∧ (config.separate → t'.Separated)) := by
  have hrenew : Yields (config.target ≤ 1027) (modify (·.renewFor t)) s
      fun _ s' => s' = s.renewFor t := rfl
  refine hrenew.bind fun _ s₁ hs₁ => ?_
  subst hs₁
  refine (yields_grow h.growing).bind fun grown s₂ ⟨hgrown, _⟩ => ?_
  refine (yields_simplify hgrown.resumable).bind fun r s₃ ⟨hr, hminimal, hfixed⟩ => yields_pure ?_
  split
  · rcases Statement.separatePrints_cases hr.valid hr.unused with ⟨he, hseparated⟩ | ⟨hsimpler, hsize⟩
    · rw [he]
      exact ⟨hr, fun _ => ⟨hfixed, fun _ => hseparated⟩⟩
    · have hpaired := hminimal.paired hr.valid
      have hdeclared := (hsimpler.own Statement.steady_declares?).length_le
      change r.separatePrints.declared.length ≤ r.declared.length at hdeclared
      have hle := hr.size
      exact ⟨hr.simpler hsimpler (by omega), fun hge => absurd hge (by omega)⟩
  · next hnot => exact ⟨hr, fun _ => ⟨hfixed, fun hseparate => absurd hseparate hnot⟩⟩

/-- A puzzle as it is asked for, after more than `played` rounds. -/
structure Finished (config : PuzzleConfig) (played : Nat) (puzzle : Puzzle) : Prop where
  size : puzzle.program.size = config.target
  valid : puzzle.program.validate = .ok ()
  expected : puzzle.expected = puzzle.program.evaluate
  simplified : Simplified puzzle.program
  distinct : Statement.Distinct puzzle.program.nodes
  stocked : ∀ pool, ∀ value ∈ puzzle.program.valuesOf pool, value ∈ pool.stock
  seconds : Statement.WholeSeconds puzzle.program.nodes
  separated : config.separate → puzzle.program.Separated
  played : played < puzzle.rounds

theorem run_playRounds_succ (config : PuzzleConfig) (played rounds : Nat) (t : Statement) (s : Supply) :
    playRounds config played (rounds + 1) t s =
      ExceptT.bindCont (fun simplified => if config.target ≤ simplified.size then
          return ⟨simplified, simplified.evaluate, played + 1⟩
        else playRounds config (played + 1) rounds simplified)
        ((playRound config t).run s).1 ((playRound config t).run s).2 :=
  rfl

/-- Round after round the program stays resumable, until it keeps its size. -/
theorem playRounds_cases (rounds : Nat) (played : Nat) (h : Resumable config.target s t) :
    match (playRounds config played rounds t s).1 with
    | .ok puzzle => Finished config played puzzle ∧ puzzle.rounds ≤ played + rounds
    | .error fault => fault = .unsettled (played + rounds) ∨
      1027 < config.target ∧ ∃ pool, fault = .exhausted pool := by
  induction rounds generalizing played t s with
  | zero => exact .inl rfl
  | succ rounds ih =>
    have hround := yields_playRound h
    unfold Yields at hround
    rw [run_playRounds_succ]
    generalize (playRound config t).run s = result at hround
    obtain ⟨fault | r, s'⟩ := result
    · exact .inr ⟨Nat.lt_of_not_le hround.1, hround.2⟩
    · obtain ⟨hr, hsettled⟩ := hround
      dsimp only [ExceptT.bindCont]
      by_cases hsize : config.target ≤ r.size
      · rw [if_pos hsize]
        obtain ⟨hsimplified, hseparated⟩ := hsettled hsize
        have hplayed : played + 1 ≤ played + (rounds + 1) := by omega
        exact ⟨⟨Nat.le_antisymm hr.size hsize, Statement.validate_eq_ok_iff.2 hr.valid, rfl,
          hsimplified, hr.distinct, hr.stocked, hr.seconds, hseparated, Nat.lt_succ_self _⟩, hplayed⟩
      · rw [if_neg hsize]
        have hrest := ih (played + 1) hr
        rw [Nat.add_assoc, Nat.add_comm 1 rounds] at hrest
        split at hrest
        · next puzzle he =>
          exact ⟨{ hrest.1 with played := Nat.lt_of_succ_lt hrest.1.played }, hrest.2⟩
        · next fault he =>
          exact hrest

end Generation

namespace PuzzleConfig

theorem maxRounds_ne_zero {config : PuzzleConfig} (h : config.check = .ok ()) : config.maxRounds ≠ 0 := by
  unfold check at h
  intro hzero
  rw [if_pos hzero] at h
  split at h
  · cases h
  · split at h <;> cases h

theorem two_le_target {config : PuzzleConfig} (h : config.check = .ok ()) : 2 ≤ config.target := by
  unfold check at h
  split at h
  · cases h
  · next hlt => exact Nat.not_lt.1 hlt

end PuzzleConfig

/-- A puzzle is what the rounds make of a seedling. -/
theorem Puzzle.make_eq {config : PuzzleConfig} (firstId : StatementId) (hcheck : config.check = .ok ()) :
    Puzzle.make config firstId = (ExceptT.bindCont
      (Generation.playRounds config 0 config.maxRounds)
      ((Generation.seedling config.target).run (.ofSeed config.ingredients config.seed firstId)).1
      ((Generation.seedling config.target).run
        (.ofSeed config.ingredients config.seed firstId)).2).1 := by
  unfold Puzzle.make
  rw [hcheck]
  rfl

/-- From a good configuration a puzzle is made as it is asked for, or the rounds are over, or a pool is
exhausted. -/
theorem Puzzle.make_outcome (config : PuzzleConfig) (firstId : StatementId)
    (hcheck : config.check = .ok ()) :
    match Puzzle.make config firstId with
    | .ok puzzle => Generation.Finished config 0 puzzle ∧ puzzle.rounds ≤ config.maxRounds
    | .error fault => fault = .unsettled config.maxRounds ∨
      1027 < config.target ∧ ∃ pool, fault = .exhausted pool := by
  have hseedling := Generation.yields_seedling config.ingredients config.seed firstId
    (PuzzleConfig.two_le_target hcheck)
  unfold Generation.Yields at hseedling
  rw [Puzzle.make_eq firstId hcheck]
  generalize (Generation.seedling config.target).run
    (.ofSeed config.ingredients config.seed firstId) = result at hseedling
  obtain ⟨fault | t, s⟩ := result
  · obtain ⟨hlarge, pool, rfl⟩ := hseedling
    exact .inr ⟨Nat.lt_of_not_le hlarge, pool, rfl⟩
  · have hrounds := Generation.playRounds_cases config.maxRounds 0 hseedling.resumable
    rw [Nat.zero_add] at hrounds
    exact hrounds

/-- What is made is made from a good configuration, and as it is asked for. -/
theorem Puzzle.finished {config : PuzzleConfig} {firstId : StatementId} {puzzle : Puzzle}
    (h : Puzzle.make config firstId = .ok puzzle) : Generation.Finished config 0 puzzle := by
  cases hcheck : config.check with
  | error fault =>
    have hfails : Puzzle.make config firstId = .error (.config fault) := by
      unfold Puzzle.make
      rw [hcheck]
      rfl
    cases hfails.symm.trans h
  | ok =>
    have houtcome := Puzzle.make_outcome config firstId hcheck
    rw [h] at houtcome
    exact houtcome.1

/-- A round in which the program that has grown stays as it is. -/
theorem Generation.run_playRound_of_simplified {config : PuzzleConfig} {t₀ t : Statement} {s₀ s : Supply}
    (hgrow : (grow t₀ config.target).run (s₀.renewFor t₀) = (.ok t, s))
    (hsimplified : t.simplify.run s.nextId = (.ok t, s.nextId))
    (hseparated : config.separate → t.Separated) : (playRound config t₀).run s₀ = (.ok t, s) := by
  have hrun : (playRound config t₀).run s₀ = ExceptT.bindCont (fun grown => do
        let simplified ← simplify grown
        return if config.separate then simplified.separatePrints else simplified)
      ((grow t₀ config.target).run (s₀.renewFor t₀)).1
      ((grow t₀ config.target).run (s₀.renewFor t₀)).2 := rfl
  have hsimplify : (simplify t).run s = (.ok t, s) := by
    have hget : ∀ rest : Supply → Generation Statement,
        (get >>= rest : Generation Statement).run s = (rest s).run s := fun _ => rfl
    rw [simplify, hget, hsimplified]
    rfl
  have hsame : (if config.separate then t.separatePrints else t) = t := by
    split
    · next hseparate => rw [Statement.separatePrints, hseparated hseparate]
    · rfl
  have hend : (ExceptT.bindCont (fun simplified : Statement =>
        (pure (if config.separate then simplified.separatePrints else simplified) :
          Generation Statement))
      ((simplify t).run s).1 : StateM Supply _) ((simplify t).run s).2 = (.ok t, s) := by
    rw [hsimplify]
    exact congrArg (fun t => (Except.ok t, s)) hsame
  rw [hrun, hgrow]
  exact hend

def Generation.firstGrowth (target : Nat) : Generation Statement := do
  let t ← seedling target
  modify (·.renewFor t)
  grow t target

/-- A program of the target size that stays as it is when it is simplified and separated ends the first
round. -/
theorem Puzzle.make_of_first_round {config : PuzzleConfig} {firstId n : StatementId} {t : Statement}
    (hcheck : config.check = .ok ())
    (hgrown : ((Generation.firstGrowth config.target).run
      (.ofSeed config.ingredients config.seed firstId)).map Except.toOption Supply.nextId = (some t, n))
    (hsimplified : t.simplify.run n = (.ok t, n)) (hseparated : config.separate → t.Separated)
    (hsize : config.target ≤ t.size) : Puzzle.make config firstId = .ok ⟨t, t.evaluate, 1⟩ := by
  have hgrowth : (Generation.firstGrowth config.target).run
      (.ofSeed config.ingredients config.seed firstId) = ExceptT.bindCont (fun t => do
          modify (·.renewFor t)
          Generation.grow t config.target)
        ((Generation.seedling config.target).run (.ofSeed config.ingredients config.seed firstId)).1
        ((Generation.seedling config.target).run
          (.ofSeed config.ingredients config.seed firstId)).2 := rfl
  obtain ⟨rounds, hrounds⟩ := Nat.exists_eq_succ_of_ne_zero (PuzzleConfig.maxRounds_ne_zero hcheck)
  rw [hgrowth] at hgrown
  rw [Puzzle.make_eq firstId hcheck, hrounds]
  generalize (Generation.seedling config.target).run
    (.ofSeed config.ingredients config.seed firstId) = result at hgrown ⊢
  obtain ⟨fault | t₀, s₀⟩ := result
  · cases hgrown
  · change ((Generation.grow t₀ config.target).run (s₀.renewFor t₀)).map _ _ = _ at hgrown
    change (Generation.playRounds config 0 (rounds + 1) t₀ s₀).1 = _
    obtain ⟨hprogram, hnext⟩ := Prod.mk.inj hgrown
    rw [Generation.run_playRounds_succ, Generation.run_playRound_of_simplified
      (Generation.run_eq_of_toOption hprogram) (hnext ▸ hsimplified) hseparated]
    dsimp only [ExceptT.bindCont]
    rw [if_pos hsize]
    rfl

/-- A puzzle that is made from a good configuration is exactly what the configuration asks for: no
round breaks a program. Otherwise the rounds are over, or the pools were not enough for a program of
more than 1027 statements. -/
theorem Puzzle.make_cases (config : PuzzleConfig) (firstId : StatementId)
    (hcheck : config.check = .ok ()) :
    (∃ puzzle, Puzzle.make config firstId = .ok puzzle ∧
      puzzle.program.size = config.target ∧ puzzle.program.validate = .ok () ∧
      puzzle.expected = puzzle.program.evaluate ∧
      (∀ n, (∀ i ∈ puzzle.program.ids, i < n) →
        puzzle.program.simplify.run n = (.ok puzzle.program, n)) ∧
      1 ≤ puzzle.rounds ∧ puzzle.rounds ≤ config.maxRounds) ∨
    Puzzle.make config firstId = .error (.unsettled config.maxRounds) ∨
    1027 < config.target ∧ ∃ pool, Puzzle.make config firstId = .error (.exhausted pool) := by
  have houtcome := Puzzle.make_outcome config firstId hcheck
  generalize Puzzle.make config firstId = outcome at houtcome ⊢
  cases outcome with
  | ok puzzle =>
    obtain ⟨h, hle⟩ := houtcome
    exact .inl ⟨puzzle, rfl, h.size, h.valid, h.expected, h.simplified, h.played, hle⟩
  | error fault =>
    rcases houtcome with rfl | ⟨hlarge, pool, rfl⟩
    · exact .inr (.inl rfl)
    · exact .inr (.inr ⟨hlarge, pool, rfl⟩)

def caughtBetween : Statement :=
  .block 2 .coroutineScope
    [.block 1 (.tryCatch .generic) [.leaf 4 (.print "B"), .leaf 0 (.throwException .custom)],
      .leaf 3 (.print "A")]

set_option maxRecDepth 20000 in
theorem caughtBetween_is_an_exact_puzzle : ∃ puzzle,
    Puzzle.make ⟨5, [.print, .throwException, .tryCatch], 0, 1, false⟩ 0 = .ok puzzle ∧
      puzzle.program = caughtBetween ∧ puzzle.program.size = 5 ∧
      puzzle.program.validate = .ok () ∧ puzzle.expected = puzzle.program.evaluate ∧
      puzzle.program.simplify.run 5 = (.ok puzzle.program, 5) ∧ puzzle.rounds = 1 := by
  have hvalid : caughtBetween.validate = .ok () := by cbv
  have hreduced : caughtBetween.reduceBlocks.reduceLeaves = caughtBetween := by cbv
  have hwaits : caughtBetween.hangs = false := by cbv
  have hsimplified : caughtBetween.simplify.run 5 = (.ok caughtBetween, 5) :=
    caughtBetween.simplify_of_reconciled hvalid (by decide) hreduced ⟨by decide, by decide⟩ hwaits
  have hmake : Puzzle.make ⟨5, [.print, .throwException, .tryCatch], 0, 1, false⟩ 0 =
      .ok ⟨caughtBetween, caughtBetween.evaluate, 1⟩ :=
    Puzzle.make_of_first_round rfl (by decide +kernel) hsimplified Bool.noConfusion (by decide)
  rcases Puzzle.make_cases ⟨5, [.print, .throwException, .tryCatch], 0, 1, false⟩ 0 rfl with
    ⟨puzzle, hpuzzle, hsize, hok, hexpected, hfixed, hfirst, hlast⟩ | hunsettled | ⟨hlarge, -⟩
  · obtain rfl := Except.ok.inj (hmake.symm.trans hpuzzle)
    exact ⟨_, hmake, rfl, hsize, hok, hexpected, hfixed 5 (by decide), Nat.le_antisymm hlast hfirst⟩
  · cases hmake.symm.trans hunsettled
  · exact absurd hlarge (by decide)

end RacePuzzle
