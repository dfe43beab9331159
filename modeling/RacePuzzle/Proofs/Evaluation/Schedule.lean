import RacePuzzle.Evaluation.Trace
import RacePuzzle.Proofs.Program.Cover

/-! The schedule of a fork-join program, read off its tree. A launched child starts when it is
launched and completes when its body has ended and its own children have completed; a scope ends when
such a child would complete; a join moves the clock to the completion of what it waits for. -/
namespace RacePuzzle

/-- When the task behind a handle completes, and what that gives, if anything. -/
structure Promise where
  time : Nat
  result : Option String

abbrev Promises := String → Option Promise

/-- When code ends, when the last of the tasks that it starts beside itself completes, and what all
of it prints. -/
structure Span where
  finish : Nat
  settled : Nat
  events : List TimedPrint

namespace Action

def isForkJoin : Action → Bool
  | .delay _ | .print _ | .join _ | .printAwait _ _ => true
  | _ => false

def span (known : Promises) (now : Nat) : Action → Span
  | .delay time => ⟨now + time, 0, []⟩
  | .print text => ⟨now, 0, [⟨text, now⟩]⟩
  | .join var => ⟨(known var).elim now (max now ·.time), 0, []⟩
  | .printAwait var text =>
    match known var with
    | some ⟨time, some result⟩ => ⟨max now time, 0, [⟨result, max now time⟩]⟩
    | _ => ⟨now, 0, [⟨text, now⟩]⟩
  | _ => ⟨now, 0, []⟩

end Action

namespace Head

def isForkJoin : Head → Bool
  | .scopeLaunch => false
  | _ => true

def result? : Head → Option String
  | .async _ result => some result
  | _ => none

/-- The span of a block that begins at the time `now`, from that of its body. -/
def span (now : Nat) (head : Head) (inner : Span) : Span :=
  match head with
  | .launch | .scopeLaunch | .launchJob _ | .async _ _ =>
    ⟨now, max inner.finish inner.settled, inner.events⟩
  | .coroutineScope | .supervisorScope => ⟨max inner.finish inner.settled, 0, inner.events⟩
  | .tryCatch _ => inner

theorem span_of_task {head : Head} (hmakes : head.makesJob = true) (hscope : head.isScope = false)
    (now : Nat) (inner : Span) :
    head.span now inner = ⟨now, max inner.finish inner.settled, inner.events⟩ := by
  cases head with
  | coroutineScope | supervisorScope => cases hscope
  | tryCatch _ => cases hmakes
  | _ => rfl

theorem span_of_scope {head : Head} (hscope : head.isScope = true) (now : Nat) (inner : Span) :
    head.span now inner = ⟨max inner.finish inner.settled, 0, inner.events⟩ := by
  cases head with
  | coroutineScope | supervisorScope => rfl
  | _ => cases hscope

/-- A scope makes a job and binds no handle to it. -/
theorem makesJob_of_isScope {head : Head} (h : head.isScope = true) :
    head.makesJob = true ∧ head.declares? = none := by
  cases head with
  | coroutineScope | supervisorScope => exact ⟨rfl, rfl⟩
  | _ => cases h

end Head

namespace Statement

def isForkJoin : Statement → Bool
  | .leaf _ action => action.isForkJoin
  | .block _ head _ => head.isForkJoin

/-- Nothing in the program throws, is cancelled or waits for a bare job. -/
def ForkJoin (t : Statement) : Prop := ∀ s ∈ t.nodes, s.isForkJoin = true

instance (t : Statement) : Decidable t.ForkJoin := List.decidableBAll _ _

/-- What the statement binds a handle to, if what it starts completes at `time`. -/
def promise (s : Statement) (time : Nat) : Promise :=
  match s with
  | .leaf .. => ⟨time, none⟩
  | .block _ head _ => ⟨time, head.result?⟩

end Statement

/-- The promises after a statement whose tasks complete at `time`. -/
def Promises.after (known : Promises) (s : Statement) (time : Nat) : Promises := fun var =>
  if s.declares? = some var then some (s.promise time) else known var

namespace Statement

mutual
/-- The span of a statement that begins at the time `now`. -/
def span (known : Promises) (now : Nat) : Statement → Span
  | .leaf _ action => action.span known now
  | .block _ head body => head.span now (bodySpan known now body)
def bodySpan (known : Promises) (now : Nat) : List Statement → Span
  | [] => ⟨now, 0, []⟩
  | s :: rest =>
    let first := s.span known now
    let later := bodySpan (known.after s first.settled) first.finish rest
    ⟨later.finish, max first.settled later.settled, first.events ++ later.events⟩
end

def schedule (t : Statement) : Span := t.span (fun _ => none) 0

theorem le_finish_action (known : Promises) (now : Nat) (action : Action) :
    now ≤ (action.span known now).finish := by
  cases action with
  | delay time => exact Nat.le_add_right _ _
  | join var =>
    simp only [Action.span]
    cases known var with
    | none => exact Nat.le_refl _
    | some promise => exact Nat.le_max_left _ _
  | printAwait var text =>
    simp only [Action.span]
    split
    · exact Nat.le_max_left _ _
    · exact Nat.le_refl _
  | _ => exact Nat.le_refl _

mutual
theorem le_finish (known : Promises) (now : Nat) : (s : Statement) → now ≤ (s.span known now).finish
  | .leaf _ action => le_finish_action known now action
  | .block _ head body => by
    have hbody := le_finish_body known now body
    cases head with
    | coroutineScope | supervisorScope => exact Nat.le_trans hbody (Nat.le_max_left _ _)
    | tryCatch _ => exact hbody
    | _ => exact Nat.le_refl _
theorem le_finish_body (known : Promises) (now : Nat) :
    (body : List Statement) → now ≤ (bodySpan known now body).finish
  | [] => Nat.le_refl _
  | s :: rest => Nat.le_trans (le_finish known now s) (le_finish_body _ _ rest)
end

theorem ForkJoin.not_bare {t : Statement} (h : t.ForkJoin) (id : StatementId) (var : String) :
    .leaf id (.job var) ∉ t.nodes :=
  fun hmem => nomatch h _ hmem

theorem ForkJoin.ne_scopeLaunch {t : Statement} (h : t.ForkJoin) {id : StatementId} {head : Head}
    {body : List Statement} (hmem : .block id head body ∈ t.nodes) : head ≠ .scopeLaunch := by
  rintro rfl
  cases h _ hmem

mutual
theorem attached_eq_nodes : (s : Statement) → (∀ d ∈ s.nodes, d.isForkJoin = true) →
    s.attached = s.nodes
  | .leaf .., _ => rfl
  | .block id head body, h => by
    have hbody := bodyAttached_eq_bodyNodes body fun d hd => h d (List.mem_cons_of_mem _ hd)
    have hself := h _ List.mem_cons_self
    cases head with
    | scopeLaunch => cases hself
    | _ => exact congrArg _ hbody
theorem bodyAttached_eq_bodyNodes : (body : List Statement) →
    (∀ d ∈ bodyNodes body, d.isForkJoin = true) → bodyAttached body = bodyNodes body
  | [], _ => rfl
  | s :: rest, h => by
    rw [bodyAttached, bodyNodes, attached_eq_nodes s fun d hd => h d (List.mem_append_left _ hd),
      bodyAttached_eq_bodyNodes rest fun d hd => h d (List.mem_append_right _ hd)]
end

theorem ForkJoin.attached_eq {t : Statement} (h : t.ForkJoin) : t.attached = t.nodes :=
  attached_eq_nodes t h

mutual
/-- The blocks of a statement that make a job below the one in which it begins. -/
def makers : Statement → List Statement
  | .leaf .. => []
  | .block _ (.tryCatch _) body => bodyMakers body
  | .block id head body => [.block id head body]
def bodyMakers : List Statement → List Statement
  | [] => []
  | s :: rest => s.makers ++ bodyMakers rest
end

theorem makers_of_makesJob {id : StatementId} {head : Head} {body : List Statement}
    (h : head.makesJob = true) : (block id head body).makers = [.block id head body] := by
  cases head <;> first | rfl | cases h

/-- What makes a job in the body of a block is one of its makers. -/
theorem Placed.mem_makers {t block : Statement} {owner : Option Statement}
    {before body : List Statement} (h : Placed t owner before body) (howner : owner = some block) :
    bodyMakers body ⊆ bodyMakers block.body := by
  induction h with
  | root => cases howner
  | next _ ih => exact fun x hx => ih howner (List.mem_append_right _ hx)
  | @inside owner before id head body rest _ ih =>
    by_cases hmakes : head.makesJob = true
    · rw [ownerInside, if_pos hmakes] at howner
      obtain rfl := Option.some.inj howner
      exact List.Subset.refl _
    · rw [ownerInside, if_neg hmakes] at howner
      cases head with
      | tryCatch kind =>
        intro x hx
        refine ih howner ?_
        rw [bodyMakers, makers]
        exact List.mem_append_left _ hx
      | _ => exact absurd rfl hmakes

mutual
/-- A maker of a statement stands below the owner of the statement. -/
theorem exists_placed_of_mem_makers {t x : Statement} {owner : Option Statement}
    {before : List Statement} : (s : Statement) → {rest : List Statement} →
      Placed t owner before (s :: rest) → x ∈ s.makers →
      ∃ before' rest', Placed t owner before' (x :: rest')
  | .leaf .., _, _, hx => nomatch hx
  | .block id head body, rest, hp, hx => by
    by_cases hmakes : head.makesJob = true
    · rw [makers_of_makesJob hmakes, List.mem_singleton] at hx
      exact ⟨before, rest, hx ▸ hp⟩
    · have hinside := hp.inside
      rw [ownerInside, if_neg hmakes] at hinside
      cases head with
      | tryCatch kind => exact exists_placed_of_mem_bodyMakers body hinside hx
      | _ => exact absurd rfl hmakes
theorem exists_placed_of_mem_bodyMakers {t x : Statement} {owner : Option Statement}
    {before : List Statement} : (body : List Statement) → Placed t owner before body →
      x ∈ bodyMakers body → ∃ before' rest', Placed t owner before' (x :: rest')
  | [], _, hx => nomatch hx
  | s :: rest, hp, hx => by
    rcases List.mem_append.1 hx with hx | hx
    · exact exists_placed_of_mem_makers s hp hx
    · exact exists_placed_of_mem_bodyMakers rest hp.next hx
end

end Statement

end RacePuzzle
