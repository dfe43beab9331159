import RacePuzzle.Proofs.Generation.Supply

/-! A book that is kept of the names that are drawn. Whatever is asked for and in which order, each pool
has handed out a front part of what its last renewal gave it, and holds the rest. -/
namespace RacePuzzle

open Statement (valueOf?)

inductive NameRequest
  | draw (pool : Pool)
  /-- The pool fills up, except with the values that are in use. -/
  | renew (pool : Pool) (used : List String)
  /-- Every pool fills up, except with the values of a program. -/
  | renewFor (t : Statement)

def NameRequest.Renews (pool : Pool) : NameRequest → Prop
  | .draw _ => False
  | .renew pool' _ => pool' = pool
  | .renewFor _ => True

/-- A supply, what was in use in each pool when it was last renewed, and what it has handed out since. -/
structure NameBook where
  supply : Supply
  used : Pool → List String
  drawn : Pool → List String

/-- One of two results of a draw: nothing is left and nothing changes, or the first value goes. -/
theorem Generation.draw_cases (pool : Pool) (s : Supply) :
    (s.names.left pool = [] ∧ (draw pool).run s = (.error (.exhausted pool), s)) ∨
      ∃ value rest, s.names.left pool = value :: rest ∧
        (draw pool).run s = (.ok value, { s with names := s.names.withLeft rest pool }) := by
  rw [run_draw, Names.draw?]
  cases s.names.left pool with
  | nil => exact .inl ⟨rfl, rfl⟩
  | cons value rest => exact .inr ⟨value, rest, rfl, rfl⟩

namespace NameBook

open Generation (draw)

variable {l : NameBook} {pool : Pool} {s : Supply}

/-- At first the pools are full: nothing is in use and nothing has been drawn. -/
def blank (s : Supply) : NameBook := ⟨{ s with names := .full }, fun _ => [], fun _ => []⟩

/-- The book after one request. A draw that fails is no entry. -/
def record (l : NameBook) : NameRequest → NameBook
  | .draw pool =>
    match (draw pool).run l.supply with
    | (.ok value, supply) =>
      { l with supply := supply, drawn := Function.update l.drawn pool (l.drawn pool ++ [value]) }
    | (.error _, supply) => { l with supply := supply }
  | .renew pool used =>
    { supply := { l.supply with names := l.supply.names.renew pool used }
      used := Function.update l.used pool used
      drawn := Function.update l.drawn pool [] }
  | .renewFor t => ⟨l.supply.renewFor t, t.valuesOf, fun _ => []⟩

def ofRequests (s : Supply) (requests : List NameRequest) : NameBook :=
  requests.foldl record (blank s)

/-- What has been drawn from a pool comes before what is left in it, and together they are what the last
renewal gave. -/
def Balanced (l : NameBook) : Prop :=
  ∀ pool, l.drawn pool ++ l.supply.names.left pool = pool.stock.filter (· ∉ l.used pool)

theorem balanced_blank (s : Supply) : (blank s).Balanced := fun pool => by
  simp [blank]

theorem Balanced.record (h : l.Balanced) (request : NameRequest) : (l.record request).Balanced := by
  intro pool'
  cases request with
  | draw pool =>
    rw [NameBook.record]
    rcases Generation.draw_cases pool l.supply with ⟨-, hrun⟩ | ⟨value, rest, hleft, hrun⟩
    · rw [hrun]
      exact h pool'
    · rw [hrun]
      by_cases hp : pool' = pool
      · subst hp
        have hbefore := h pool'
        rw [hleft] at hbefore
        simpa using hbefore
      · simpa [hp, Names.left_withLeft_of_ne _ _ (Ne.symm hp)] using h pool'
  | renew pool used =>
    by_cases hp : pool' = pool
    · subst hp
      simp [NameBook.record, Names.renew]
    · simpa [NameBook.record, Names.renew, hp, Names.left_withLeft_of_ne _ _ (Ne.symm hp)] using h pool'
  | renewFor t =>
    exact Names.left_renewFor l.supply.names t pool'

theorem Balanced.records (h : l.Balanced) (requests : List NameRequest) :
    (requests.foldl NameBook.record l).Balanced := by
  induction requests generalizing l with
  | nil => exact h
  | cons request requests ih => exact ih (h.record request)

/-- A draw fails when everything that was there has been drawn. -/
theorem Balanced.left_eq_nil_iff (h : l.Balanced) :
    l.supply.names.left pool = [] ↔ ∀ value ∈ pool.stock, value ∉ l.used pool → value ∈ l.drawn pool := by
  have hpool := h pool
  have hnodup : (l.drawn pool ++ l.supply.names.left pool).Nodup :=
    hpool ▸ (Pool.nodup_stock pool).filter _
  constructor
  · intro hleft value hstock hused
    rw [hleft, List.append_nil] at hpool
    rw [hpool]
    exact List.mem_filter.2 ⟨hstock, decide_eq_true hused⟩
  · intro hall
    refine List.eq_nil_iff_forall_not_mem.2 fun value hvalue => ?_
    have hgiven : value ∈ pool.stock.filter (· ∉ l.used pool) :=
      hpool ▸ List.mem_append_right _ hvalue
    obtain ⟨hstock, hused⟩ := List.mem_filter.1 hgiven
    exact (List.nodup_append'.1 hnodup).2.2 (hall value hstock (of_decide_eq_true hused)) hvalue

/-- What is in use in a pool is noted until the pool is renewed. -/
theorem used_records (requests : List NameRequest)
    (hrequests : ∀ request ∈ requests, ¬ request.Renews pool) :
    (requests.foldl NameBook.record l).used pool = l.used pool := by
  induction requests generalizing l with
  | nil => rfl
  | cons request requests ih =>
    have hrequest := hrequests request List.mem_cons_self
    rw [List.foldl_cons, ih fun r hr => hrequests r (List.mem_cons_of_mem _ hr)]
    cases request with
    | draw pool' =>
      rw [NameBook.record]
      split <;> rfl
    | renew pool' used => exact Function.update_of_ne (fun he => hrequest he.symm) _ _
    | renewFor t => exact absurd trivial hrequest

theorem balanced_ofRequests (s : Supply) (requests : List NameRequest) :
    (ofRequests s requests).Balanced :=
  (balanced_blank s).records requests

/-- A value that a draw gives after a renewal is not in use. -/
theorem Balanced.not_mem_used (h : l.Balanced) {value : String} (hvalue : value ∈ l.drawn pool) :
    value ∉ l.used pool := by
  have hgiven : value ∈ pool.stock.filter (· ∉ l.used pool) := h pool ▸ List.mem_append_left _ hvalue
  exact of_decide_eq_true (List.mem_filter.1 hgiven).2

/-- No statement of the program that a pool was renewed for has a value that is drawn from it later. -/
theorem not_mem_nodes_of_drawn {t d : Statement} {before after : List NameRequest}
    (hafter : ∀ request ∈ after, ¬ request.Renews pool) {value : String}
    (hvalue : value ∈ (ofRequests s (before ++ .renewFor t :: after)).drawn pool)
    (hd : valueOf? pool d = some value) : d ∉ t.nodes := by
  have hused : (ofRequests s (before ++ .renewFor t :: after)).used pool = t.valuesOf pool := by
    rw [ofRequests, List.foldl_append, List.foldl_cons, used_records after hafter]
    rfl
  have hnot := (balanced_ofRequests s _).not_mem_used hvalue
  rw [hused] at hnot
  exact fun hmem => hnot (List.mem_filterMap.2 ⟨d, hmem, hd⟩)

/-- Whatever is asked for and in which order, what a pool has handed out since its last renewal is a
front part of its stock without the values that are in use, so that no value comes twice. A draw fails
only because the pool is exhausted, and then it changes nothing; it does fail as soon as every value
has been drawn that is not in use. After a renewal for a program no value is drawn that the program has. -/
theorem draws_are_accounted (s : Supply) (requests : List NameRequest) :
    let l := ofRequests s requests
    (∀ pool, (l.drawn pool).Nodup ∧ (∀ value ∈ l.drawn pool, value ∉ l.used pool) ∧
      l.drawn pool <+: pool.stock.filter (· ∉ l.used pool)) ∧
    (∀ pool, ((draw pool).run l.supply = (.error (.exhausted pool), l.supply) ↔
        ∀ value ∈ pool.stock, value ∉ l.used pool → value ∈ l.drawn pool) ∧
      ∀ fault s', (draw pool).run l.supply = (.error fault, s') →
        fault = .exhausted pool ∧ s' = l.supply) ∧
    ∀ t before after, requests = before ++ .renewFor t :: after →
      ((∀ request ∈ after, ¬ request.Renews .jobNames) → ∀ var ∈ l.drawn .jobNames,
        ∀ id, .leaf id (.job var) ∉ t.nodes ∧ ∀ body, .block id (.launchJob var) body ∉ t.nodes) ∧
      ((∀ request ∈ after, ¬ request.Renews .variableNames) → ∀ var ∈ l.drawn .variableNames,
        ∀ id result body, .block id (.async var result) body ∉ t.nodes) ∧
      ((∀ request ∈ after, ¬ request.Renews .strings) → ∀ text ∈ l.drawn .strings,
        ∀ id, .leaf id (.print text) ∉ t.nodes ∧ ∀ var, .leaf id (.printAwait var text) ∉ t.nodes ∧
          ∀ body, .block id (.async var text) body ∉ t.nodes) := by
  intro l
  have hbalanced : l.Balanced := balanced_ofRequests s requests
  refine ⟨fun pool => ⟨?_, fun _ => hbalanced.not_mem_used, ?_⟩, fun pool => ⟨?_, fun fault s' hrun => ?_⟩,
    fun t before after hrequests => ?_⟩
  · exact (List.prefix_append _ _).sublist.nodup (hbalanced pool ▸ (Pool.nodup_stock pool).filter _)
  · exact hbalanced pool ▸ List.prefix_append _ _
  · rw [← hbalanced.left_eq_nil_iff]
    rcases Generation.draw_cases pool l.supply with ⟨hleft, hrun⟩ | ⟨value, rest, hleft, hrun⟩
    · exact iff_of_true hrun hleft
    · exact iff_of_false (fun hfails => by cases hrun.symm.trans hfails) (by simp [hleft])
  · rcases Generation.draw_cases pool l.supply with ⟨-, hfails⟩ | ⟨value, rest, -, hruns⟩
    · cases hrun.symm.trans hfails
      exact ⟨rfl, rfl⟩
    · cases hrun.symm.trans hruns
  · subst hrequests
    exact ⟨fun hafter var hvar id =>
        ⟨not_mem_nodes_of_drawn hafter hvar rfl, fun _ => not_mem_nodes_of_drawn hafter hvar rfl⟩,
      fun hafter var hvar id _ _ => not_mem_nodes_of_drawn hafter hvar rfl,
      fun hafter text htext id =>
        ⟨not_mem_nodes_of_drawn hafter htext rfl, fun _ =>
          ⟨not_mem_nodes_of_drawn hafter htext rfl, fun _ => not_mem_nodes_of_drawn hafter htext rfl⟩⟩⟩

/-- The strings go on behind those that the program has. -/
example : (ofRequests (.ofSeed [] 0 0) [.draw .strings, .renewFor (.block 0 .coroutineScope
    [.leaf 1 (.print "A"), .block 2 (.async "value1" "C") [], .leaf 3 (.job "job1")]),
    .draw .strings, .draw .jobNames, .draw .strings]).drawn .strings = ["B", "D"] := by
  decide +kernel

end NameBook

end RacePuzzle
