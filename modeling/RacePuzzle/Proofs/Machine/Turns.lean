import RacePuzzle.Proofs.Machine.Queueing
import RacePuzzle.Proofs.Machine.Run
import Mathlib.Logic.Relation

/-! Whose turn it is. What happens to the tasks of a dispatcher is written down, the latest event first. However
tasks are started and woken meanwhile, by whomever, a poll is always of the task that has been waiting
for the longest time since it was woken, and a task that has ended is left alone. -/
namespace RacePuzzle

inductive TaskEvent (τ : Type)
  | spawned (ticket : Ticket) (task : τ)
  | woken (ticket : Ticket)
  /-- A poll of the task began. -/
  | began (ticket : Ticket) (task : τ)
  /-- A poll ended, and `task` is what is left to do. -/
  | paused (ticket : Ticket) (task : τ)
  | finished (ticket : Ticket)
  /-- All tasks were ended at once. -/
  | endedAll
  deriving DecidableEq

namespace TaskHistory

variable {τ : Type}

def isUnfinished (i : Ticket) : List (TaskEvent τ) → Bool
  | [] | .endedAll :: _ => false
  | .spawned j _ :: h => j == i || isUnfinished i h
  | .finished j :: h => j != i && isUnfinished i h
  | .woken _ :: h | .began _ _ :: h | .paused _ _ :: h => isUnfinished i h

/-- When the task was woken for the first time since its last poll began, if it was. A new task counts
as woken. -/
def waitingSince? (i : Ticket) : List (TaskEvent τ) → Option Nat
  | [] => none
  | .spawned j _ :: h | .woken j :: h =>
    if j = i then (waitingSince? i h).or (some h.length) else waitingSince? i h
  | .began j _ :: h => if j = i then none else waitingSince? i h
  | .paused _ _ :: h | .finished _ :: h | .endedAll :: h => waitingSince? i h

def latest? (i : Ticket) : List (TaskEvent τ) → Option τ
  | [] => none
  | .spawned j task :: h | .paused j task :: h => if j = i then some task else latest? i h
  | .woken _ :: h | .began _ _ :: h | .finished _ :: h | .endedAll :: h => latest? i h

def spawns : List (TaskEvent τ) → Nat
  | [] | .endedAll :: _ => 0
  | .spawned _ _ :: h => spawns h + 1
  | .woken _ :: h | .began _ _ :: h | .paused _ _ :: h | .finished _ :: h => spawns h

/-- The number of tasks that came to their end since all were ended. -/
def ends : List (TaskEvent τ) → Nat
  | [] | .endedAll :: _ => 0
  | .finished _ :: h => ends h + 1
  | .woken _ :: h | .began _ _ :: h | .paused _ _ :: h | .spawned _ _ :: h => ends h

variable {past : List (TaskEvent τ)} {i j : Ticket} {e : TaskEvent τ} {task : τ}

theorem waitingSince?_lt {n : Nat} (hn : waitingSince? i past = some n) : n < past.length := by
  induction past with
  | nil => cases hn
  | cons e past ih =>
    have hwoken (hn : (waitingSince? i past).or (some past.length) = some n) : n < past.length + 1 := by
      rcases Option.or_eq_some_iff.1 hn with hn | ⟨-, hn⟩
      · exact Nat.lt_succ_of_lt (ih hn)
      · exact Nat.lt_succ_of_le (Nat.le_of_eq (Option.some.inj hn).symm)
    cases e with
    | spawned j task | woken j =>
      simp only [waitingSince?] at hn
      split at hn
      · exact hwoken hn
      · exact Nat.lt_succ_of_lt (ih hn)
    | began j task =>
      simp only [waitingSince?] at hn
      split at hn
      · cases hn
      · exact Nat.lt_succ_of_lt (ih hn)
    | paused | finished | endedAll => exact Nat.lt_succ_of_lt (ih hn)

/-- The first task has been waiting for longer than the second. -/
def Before (past : List (TaskEvent τ)) (i j : Ticket) : Prop :=
  ∀ m ∈ waitingSince? i past, ∀ n ∈ waitingSince? j past, m < n

theorem Before.congr {past' : List (TaskEvent τ)} (h : Before past i j)
    (hi : waitingSince? i past' = waitingSince? i past) (hj : waitingSince? j past' = waitingSince? j past) :
    Before past' i j := by
  unfold Before
  rw [hi, hj]
  exact h

theorem pairwise_before_of_same {past' : List (TaskEvent τ)} {due : List Ticket} (h : due.Pairwise (Before past))
    (hsame : ∀ i ∈ due, waitingSince? i past' = waitingSince? i past) : due.Pairwise (Before past') :=
  h.imp_of_mem fun hi hj hij => hij.congr (hsame _ hi) (hsame _ hj)

/-- It is the task's turn to be polled, and `task` is what it has to do. -/
structure Turn (past : List (TaskEvent τ)) (i : Ticket) (task : τ) : Prop where
  unfinished : isUnfinished i past = true
  waiting : (waitingSince? i past).isSome = true
  first : ∀ j, j ≠ i → isUnfinished j past = true → Before past i j
  task : latest? i past = some task

/-- Every poll began when it was the task's turn. -/
def InTurn (past : List (TaskEvent τ)) : Prop :=
  ∀ later i task earlier, past = later ++ .began i task :: earlier → Turn earlier i task

theorem InTurn.cons (h : InTurn past) (he : ∀ {i task}, e = .began i task → Turn past i task) :
    InTurn (e :: past) := by
  intro later i task earlier heq
  rcases List.cons_eq_append_iff.1 heq with ⟨-, heq⟩ | ⟨later, -, heq⟩
  · obtain ⟨rfl, rfl⟩ := List.cons.inj heq.symm
    exact he rfl
  · exact h _ _ _ _ heq

def EndsTask (e : TaskEvent τ) (i : Ticket) (past : List (TaskEvent τ)) : Prop :=
  e = .finished i ∨ e = .endedAll ∧ isUnfinished i past = true

/-- What has ended is over for good. The tickets of tasks are numbered below `n`. -/
def Over (n : Nat) (past : List (TaskEvent τ)) : Prop :=
  ∀ later e earlier i, past = later ++ e :: earlier → EndsTask e i earlier →
    i < n ∧ isUnfinished i past = false ∧ ∀ task, .began i task ∉ later

theorem Over.cons {n n' : Nat} (h : Over n past) (hn : n ≤ n')
    (hnew : ∀ i task, e = .spawned i task → n ≤ i)
    (hbegan : ∀ i task, e = .began i task → isUnfinished i past = true)
    (hends : ∀ i, EndsTask e i past → i < n') : Over n' (e :: past) := by
  intro later e' earlier i heq hover
  rcases List.cons_eq_append_iff.1 heq with ⟨rfl, hcons⟩ | ⟨later, rfl, hpast⟩
  · obtain ⟨rfl, rfl⟩ := List.cons.inj hcons.symm
    refine ⟨hends i hover, ?_, fun _ => List.not_mem_nil⟩
    rcases hover with rfl | ⟨rfl, -⟩
    · simp [isUnfinished]
    · rfl
  · obtain ⟨hlt, hended, hnever⟩ := h _ _ _ _ hpast hover
    refine ⟨Nat.lt_of_lt_of_le hlt hn, ?_, fun task hmem => ?_⟩
    · cases e with
      | spawned j task =>
        have hij : j ≠ i := Nat.ne_of_gt (Nat.lt_of_lt_of_le hlt (hnew j task rfl))
        simpa [isUnfinished, hij] using hended
      | endedAll => rfl
      | finished j => simp [isUnfinished, hended]
      | woken | began | paused => exact hended
    · rcases List.mem_cons.1 hmem with rfl | hmem
      · exact absurd (hended.symm.trans (hbegan i task rfl)) (by decide)
      · exact hnever task hmem

end TaskHistory

open TaskHistory

namespace Dispatcher

variable {τ : Type}

/-- What a dispatcher can come to, and the history that brings it there. While a task is polled, it or
whoever it calls may start and wake tasks; any ticket ever given out may be used to wake. -/
inductive Runs : List (TaskEvent τ) → Dispatcher τ → Option (SeatId × Ticket) → Prop
  | empty : Runs [] .empty none
  | spawn {past d polled} (task : τ) : Runs past d polled →
      Runs (.spawned d.tickets.size task :: past) (d.spawn task) polled
  | wake {past d polled i} : Runs past d polled → i < d.tickets.size →
      Runs (.woken i :: past) (d.wake i) polled
  /-- The task of the first entry has ended. -/
  | skip {past d id rest d'} : Runs past d none → d.ready = id :: rest →
      ({ d with ready := rest } : Dispatcher τ).checkOut id = (none, d') → Runs past d' none
  | began {past d id rest i task d'} : Runs past d none → d.ready = id :: rest →
      ({ d with ready := rest } : Dispatcher τ).checkOut id = (some (i, task), d') →
      Runs (.began i task :: past) d' (some (id, i))
  | paused {past d id i} (task : τ) : Runs past d (some (id, i)) →
      Runs (.paused i task :: past) (d.checkIn id task) none
  | finished {past d id i} : Runs past d (some (id, i)) → Runs (.finished i :: past) (d.finish i) none
  | endAll {past d} : Runs past d none → Runs (.endedAll :: past) d.endAll none

variable {d d' : Dispatcher τ} {past : List (TaskEvent τ)} {polled : Option (SeatId × Ticket)} {id : SeatId}
  {i : Ticket} {task : τ}

structure InStep (past : List (TaskEvent τ)) (d : Dispatcher τ) (polled : Option (SeatId × Ticket)) : Prop
    extends d.Seated polled where
  new : ∀ {i}, d.tickets.size ≤ i → isUnfinished i past = false ∧ waitingSince? i past = none
  unfinished : ∀ {i}, i < d.tickets.size → isUnfinished i past = !d.hasFinished i
  queued : ∀ {i}, isUnfinished i past = true → d.isQueued i = (waitingSince? i past).isSome
  order : d.due.Pairwise (Before past)
  task : ∀ {id : SeatId} {seat : Seat τ} {task : τ}, d.seats[id]? = some seat → seat.task = some task →
    latest? seat.ticket past = some task
  inTurn : InTurn past
  ended : Over d.tickets.size past
  count : d.unfinished + ends past = spawns past

theorem inStep_empty : InStep ([] : List (TaskEvent τ)) .empty none where
  toSeated := seated_empty
  new _ := ⟨rfl, rfl⟩
  unfinished h := by simp [Dispatcher.empty] at h
  queued h := by simp [isUnfinished] at h
  order := .nil
  task h := by simp [Dispatcher.empty] at h
  inTurn _ _ _ _ h := by simp at h
  ended _ _ _ _ h := by simp at h
  count := rfl

namespace InStep

theorem lt_of_unfinished (h : InStep past d polled) (hi : isUnfinished i past = true) : i < d.tickets.size := by
  refine Nat.lt_of_not_le fun hge => ?_
  rw [(h.new hge).1] at hi
  cases hi

/-- Those stand in the queue who wait for their turn. -/
theorem mem_due_iff (h : InStep past d polled) :
    i ∈ d.due ↔ isUnfinished i past = true ∧ (waitingSince? i past).isSome = true := by
  rw [h.mem_due]
  constructor
  · rintro ⟨hq, hf⟩
    obtain ⟨entry, hentry⟩ := exists_entry_of_isQueued hq
    have hi : isUnfinished i past = true := by
      rw [h.unfinished (Array.getElem?_eq_some_iff.1 hentry).1, hf]
      rfl
    exact ⟨hi, h.queued hi ▸ hq⟩
  · rintro ⟨hi, hw⟩
    have hf := h.unfinished (h.lt_of_unfinished hi)
    rw [hi] at hf
    exact ⟨(h.queued hi).trans hw, by simpa using hf.symm⟩

/-- Whoever is woken while it waits keeps its turn. -/
theorem same_woken (h : InStep past d polled) (i : Ticket) :
    ∀ j ∈ d.due, waitingSince? j (.woken i :: past) = waitingSince? j past := by
  intro j hj
  obtain ⟨n, hn⟩ := Option.isSome_iff_exists.1 (h.mem_due_iff.1 hj).2
  simp only [waitingSince?, hn, Option.some_or, ite_self]

theorem wake (h : InStep past d polled) (hlt : i < d.tickets.size) :
    InStep (.woken i :: past) (d.wake i) polled where
  toSeated := h.toSeated.wake i
  new {j} hj := by
    rw [size_tickets_wake] at hj
    have hij : i ≠ j := Nat.ne_of_lt (Nat.lt_of_lt_of_le hlt hj)
    simpa only [isUnfinished, waitingSince?, if_neg hij] using h.new hj
  unfinished {j} hj := by
    rw [size_tickets_wake] at hj
    rw [hasFinished_wake]
    exact h.unfinished hj
  queued {j} hj := by
    by_cases hij : i = j
    · subst hij
      have hf := (h.unfinished hlt).symm.trans hj
      rw [isQueued_wake_self hlt (by simpa using hf)]
      cases hw : waitingSince? i past <;> simp [waitingSince?, hw]
    · simp only [waitingSince?, if_neg hij, isQueued_wake_of_ne (Ne.symm hij)]
      exact h.queued hj
  order := by
    have hold := pairwise_before_of_same h.order (h.same_woken i)
    rw [h.toSeated.due_wake]
    split
    · exact hold
    · next hidle =>
      simp only [not_or, Bool.not_eq_true] at hidle
      have hi : isUnfinished i past = true := by
        rw [h.unfinished hlt, hidle.2.1]
        rfl
      have hnone : waitingSince? i past = none := by
        simpa [hidle.1] using h.queued hi
      refine List.pairwise_append.2 ⟨hold, List.pairwise_singleton .., fun j hj k hk m hm n hn => ?_⟩
      obtain rfl := List.mem_singleton.1 hk
      rw [h.same_woken _ j hj] at hm
      obtain rfl : past.length = n := by simpa [waitingSince?, hnone] using hn
      exact waitingSince?_lt hm
  task hs ht := by
    rw [seats_wake] at hs
    exact h.task hs ht
  inTurn := h.inTurn.cons nofun
  ended := h.ended.cons (Nat.le_of_eq (size_tickets_wake d i).symm) nofun nofun
    (fun _ hends => by simp [EndsTask] at hends)
  count := by
    rw [unfinished_wake]
    exact h.count

theorem spawn (h : InStep past d polled) (task : τ) :
    InStep (.spawned d.tickets.size task :: past) (d.spawn task) polled := by
  have hnew := h.new (Nat.le_refl d.tickets.size)
  have hsize : (d.spawn task).tickets.size = d.tickets.size + 1 := Array.size_push ..
  have hunfinished {j : Ticket} (hj : j ≠ d.tickets.size) :
      isUnfinished j (.spawned d.tickets.size task :: past) = isUnfinished j past := by
    simp [isUnfinished, Ne.symm hj]
  have hwaiting {j : Ticket} (hj : j ≠ d.tickets.size) :
      waitingSince? j (.spawned d.tickets.size task :: past) = waitingSince? j past := by
    simp [waitingSince?, Ne.symm hj]
  have hwaits : waitingSince? d.tickets.size (.spawned d.tickets.size task :: past) = some past.length := by
    simp [waitingSince?, hnew.2]
  refine ⟨h.toSeated.spawn task, fun {j} hj => ?_, fun {j} hj => ?_, fun {j} hj => ?_, ?_,
    fun {id seat task'} hs ht => ?_, h.inTurn.cons nofun, h.ended.cons (by omega) (fun i _ he => ?_) nofun
      (fun _ hends => by simp [EndsTask] at hends), ?_⟩
  · have hne : j ≠ d.tickets.size := by omega
    rw [hunfinished hne, hwaiting hne]
    exact h.new (by omega)
  · rw [hasFinished_spawn]
    by_cases hne : j = d.tickets.size
    · simp [hne, isUnfinished, hasFinished_size]
    · rw [hunfinished hne]
      exact h.unfinished (by omega)
  · rw [isQueued_spawn]
    by_cases hne : j = d.tickets.size
    · simp [hne, hwaits]
    · rw [hunfinished hne] at hj
      simp [hne, hwaiting hne, h.queued hj]
  · have hold : ∀ j ∈ d.due, waitingSince? j (.spawned d.tickets.size task :: past) = waitingSince? j past :=
      fun j hj => hwaiting (Nat.ne_of_lt (h.lt_of_unfinished (h.mem_due_iff.1 hj).1))
    rw [h.toSeated.due_spawn]
    refine List.pairwise_append.2 ⟨pairwise_before_of_same h.order hold, List.pairwise_singleton ..,
      fun j hj k hk m hm n hn => ?_⟩
    obtain rfl := List.mem_singleton.1 hk
    rw [hold j hj] at hm
    obtain rfl := Option.some.inj (hwaits.symm.trans hn)
    exact waitingSince?_lt hm
  · rcases getElem?_seats_spawn hs with ⟨-, rfl⟩ | hs
    · obtain rfl := Option.some.inj ht
      exact if_pos rfl
    · obtain ⟨entry, hentry, -⟩ := h.ticket hs
      have hne : d.tickets.size ≠ seat.ticket := Nat.ne_of_gt (Array.getElem?_eq_some_iff.1 hentry).1
      exact (if_neg hne).trans (h.task hs ht)
  · obtain ⟨rfl, -⟩ := TaskEvent.spawned.inj he
    exact Nat.le_refl _
  · rw [unfinished_spawn]
    have := h.count
    simp only [ends, spawns]
    omega

section

variable {rest : List SeatId} {seat : Seat τ}

/-- An entry is dropped that is left over from a task at its end. -/
theorem skip (h : InStep past d none) (hr : d.ready = id :: rest) (hs : d.seats[id]? = some seat)
    (hf : d.hasFinished seat.ticket = true) : InStep past (d.unqueue seat.ticket rest) none where
  toSeated := h.toSeated.unqueue hr hs
  new hj := h.new (by simpa [Dispatcher.unqueue] using hj)
  unfinished hj := by
    rw [hasFinished_unqueue]
    exact h.unfinished (by simpa [Dispatcher.unqueue] using hj)
  queued {j} hj := by
    have hne : j ≠ seat.ticket := by
      rintro rfl
      rw [h.unfinished (h.lt_of_unfinished hj), hf] at hj
      cases hj
    rw [isQueued_unqueue, h.queued hj, bne_iff_ne.2 hne, Bool.and_true]
  order := by
    have hnone : d.holder? id = none := by
      rw [holder?, hs]
      simp [hf]
    have hdue := due_of_ready hr seat.ticket
    rw [hnone, Option.toList_none, List.nil_append] at hdue
    exact hdue ▸ h.order
  task := h.task
  inTurn := h.inTurn
  ended := by simpa [Dispatcher.unqueue] using h.ended
  count := by
    rw [unfinished_unqueue]
    exact h.count

/-- The task of the first entry is the one whose turn it is. -/
theorem turn (h : InStep past d none) (hr : d.ready = id :: rest) (hs : d.seats[id]? = some seat)
    (hf : d.hasFinished seat.ticket = false) (ht : seat.task = some task) : Turn past seat.ticket task := by
  have hholder : d.holder? id = some seat.ticket := holder?_eq_some.2 ⟨⟨seat, hs, rfl⟩, hf⟩
  have hdue := due_of_ready hr seat.ticket
  rw [hholder, Option.toList_some, List.singleton_append] at hdue
  have hmem := h.mem_due_iff.1 (hdue ▸ List.mem_cons_self)
  refine ⟨hmem.1, hmem.2, fun j hne hj m hm n hn => ?_, h.task hs ht⟩
  have horder := h.order
  rw [hdue, List.pairwise_cons] at horder
  have hin : j ∈ d.due := h.mem_due_iff.2 ⟨hj, Option.isSome_iff_exists.2 ⟨n, hn⟩⟩
  rw [hdue] at hin
  exact horder.1 j ((List.mem_cons.1 hin).resolve_left hne) m hm n hn

theorem began (h : InStep past d none) (hr : d.ready = id :: rest) (hs : d.seats[id]? = some seat)
    (hf : d.hasFinished seat.ticket = false) (ht : seat.task = some task) (polls : Nat) :
    InStep (.began seat.ticket task :: past)
      { (d.unqueue seat.ticket rest).setTask id seat.ticket none with polls := polls }
      (some (id, seat.ticket)) := by
  have hset := h.toSeated.begin hr hs hf polls
  have hdue := due_of_ready hr seat.ticket
  rw [← due_setTask (d := d.unqueue seat.ticket rest) hs none] at hdue
  have hsame {j : Ticket} (hj : j ≠ seat.ticket) :
      waitingSince? j (.began seat.ticket task :: past) = waitingSince? j past := by
    simp [waitingSince?, Ne.symm hj]
  refine ⟨hset, fun {j} hj => ?_, fun {j} hj => ?_, fun {j} hj => ?_, ?_, fun {k seat' task'} hs' ht' => ?_,
    h.inTurn.cons fun {i task'} he => ?_, h.ended.cons ?_ nofun (fun i task' he => ?_)
      (fun _ hends => by simp [EndsTask] at hends), ?_⟩
  · have hj : d.tickets.size ≤ j := by simpa [Dispatcher.unqueue, Dispatcher.setTask] using hj
    refine ⟨(h.new hj).1, ?_⟩
    simp [waitingSince?, (h.new hj).2]
  · refine (h.unfinished (by simpa [Dispatcher.unqueue, Dispatcher.setTask] using hj)).trans ?_
    exact congrArg _ (hasFinished_unqueue d seat.ticket rest j).symm
  · refine (isQueued_unqueue d seat.ticket rest j).trans ?_
    by_cases hne : j = seat.ticket
    · simp [waitingSince?, hne]
    · rw [hsame hne, bne_iff_ne.2 hne, Bool.and_true]
      exact h.queued hj
  · have horder := h.order
    rw [hdue, List.pairwise_append] at horder
    refine pairwise_before_of_same horder.2.1 fun j hj => hsame ?_
    rintro rfl
    have hq := (hset.mem_due.1 hj).1.symm.trans (isQueued_unqueue d seat.ticket rest seat.ticket)
    simp at hq
  · rcases getElem?_seats_setTask hs hs' with ⟨-, rfl⟩ | ⟨-, hs'⟩
    · cases ht'
    · exact h.task hs' ht'
  · obtain ⟨rfl, rfl⟩ := TaskEvent.began.inj he
    exact h.turn hr hs hf ht
  · simp [Dispatcher.unqueue, Dispatcher.setTask]
  · obtain ⟨rfl, rfl⟩ := TaskEvent.began.inj he
    exact (h.turn hr hs hf ht).unfinished
  · have hcount := (unfinished_setTask (d := d.unqueue seat.ticket rest) hs none).trans (unfinished_unqueue ..)
    exact (congrArg (· + ends past) hcount).trans h.count

end

theorem paused (h : InStep past d (some (id, i))) (task : τ) :
    InStep (.paused i task :: past) (d.checkIn id task) none := by
  obtain ⟨hseated, hdue⟩ := h.toSeated.checkIn task
  obtain ⟨⟨seat, hs, rfl⟩, -⟩ := holder?_eq_some.1 (h.polled rfl)
  have hin : d.checkIn id task = d.setTask id seat.ticket (some task) := by
    rw [Dispatcher.checkIn, hs]
    rfl
  refine ⟨hseated, fun {j} hj => ?_, fun {j} hj => ?_, fun {j} hj => ?_, ?_, fun {k seat' task'} hs' ht' => ?_,
    h.inTurn.cons (by simp), h.ended.cons ?_ (by simp) (by simp) (by simp [EndsTask]), ?_⟩
  · rw [tickets_checkIn] at hj
    exact h.new hj
  · rw [tickets_checkIn] at hj
    rw [hin]
    exact h.unfinished hj
  · rw [hin]
    exact h.queued hj
  · rw [hdue]
    exact pairwise_before_of_same h.order fun _ _ => rfl
  · rw [hin] at hs'
    rcases getElem?_seats_setTask hs hs' with ⟨rfl, rfl⟩ | ⟨hne, hs'⟩
    · obtain rfl := Option.some.inj ht'
      exact if_pos rfl
    · have hticket : seat.ticket ≠ seat'.ticket := fun he => hne (h.seat_unique hs hs' he).symm
      exact (if_neg hticket).trans (h.task hs' ht')
  · exact Nat.le_of_eq (by rw [tickets_checkIn])
  · rw [hin, unfinished_setTask hs]
    exact h.count

theorem finished (h : InStep past d (some (id, i))) : InStep (.finished i :: past) (d.finish i) none := by
  have hlt := h.toSeated.lt_of_polled
  have hsize : (d.finish i).tickets.size = d.tickets.size := Array.size_modify
  refine ⟨h.toSeated.finish, fun {j} hj => ?_, fun {j} hj => ?_, fun {j} hj => ?_, ?_, h.task,
    h.inTurn.cons nofun, h.ended.cons (Nat.le_of_eq hsize.symm) nofun nofun (fun j hends => ?_), ?_⟩
  · rw [hsize] at hj
    refine ⟨?_, (h.new hj).2⟩
    simp [isUnfinished, (h.new hj).1]
  · rw [hsize] at hj
    rw [hasFinished_finish hlt, isUnfinished, h.unfinished hj, Bool.not_or, Bool.and_comm]
    congr 1
    exact bne_comm
  · rw [isQueued_finish]
    refine h.queued (i := j) ?_
    simp only [isUnfinished, Bool.and_eq_true] at hj
    exact hj.2
  · rw [due_finish hlt]
    exact (pairwise_before_of_same h.order fun _ _ => rfl).filter _
  · obtain rfl : i = j := by simpa [EndsTask] using hends
    exact hsize.symm ▸ hlt
  · have hcount := h.count
    rw [← h.toSeated.unfinished_finish] at hcount
    simp only [ends, spawns]
    omega

theorem endAll (h : InStep past d none) : InStep (.endedAll :: past) d.endAll none where
  toSeated := h.toSeated.endAll
  new hj := by
    rw [size_tickets_endAll] at hj
    exact ⟨rfl, (h.new hj).2⟩
  unfinished hj := by
    rw [size_tickets_endAll] at hj
    rw [h.toSeated.hasFinished_endAll hj]
    rfl
  queued hj := by cases hj
  order := .nil
  task hs _ := by simp [Dispatcher.endAll] at hs
  inTurn := h.inTurn.cons nofun
  ended := h.ended.cons (Nat.le_of_eq (size_tickets_endAll d).symm) nofun nofun fun j hends => by
    have hj : isUnfinished j past = true := by simpa [EndsTask] using hends
    exact (size_tickets_endAll d).symm ▸ h.lt_of_unfinished hj
  count := rfl

end InStep

/-- However a dispatcher runs, it is in step with its history. -/
theorem Runs.inStep (h : Runs past d polled) : InStep past d polled := by
  induction h with
  | empty => exact inStep_empty
  | spawn task _ ih => exact ih.spawn task
  | wake _ hlt ih => exact ih.wake hlt
  | skip _ hr hout ih =>
    obtain ⟨seat, hs, ⟨task, -, -, hsome⟩ | ⟨-, hf, hnone⟩⟩ := ih.toSeated.checkOut_cases hr
    · cases hout.symm.trans hsome
    · obtain rfl := (Prod.mk.inj (hout.symm.trans hnone)).2
      exact ih.skip hr hs hf
  | began _ hr hout ih =>
    obtain ⟨seat, hs, ⟨task, ht, hf, hsome⟩ | ⟨-, -, hnone⟩⟩ := ih.toSeated.checkOut_cases hr
    · obtain ⟨hfirst, rfl⟩ := Prod.mk.inj (hout.symm.trans hsome)
      obtain ⟨rfl, rfl⟩ := Prod.mk.inj (Option.some.inj hfirst)
      exact ih.began hr hs hf ht _
    · cases hout.symm.trans hnone
  | paused task _ ih => exact ih.paused task
  | finished _ ih => exact ih.finished
  | endAll _ ih => exact ih.endAll

/-- How a dispatcher serves its tasks. -/
structure Served (past : List (TaskEvent τ)) (d : Dispatcher τ) : Prop where
  /-- No seat stands in the ready queue twice. -/
  nodup : d.ready.Nodup
  /-- A poll is of the task that has been waiting for the longest time since it was woken. -/
  inTurn : InTurn past
  /-- Those are to be polled who were woken since their last poll began. -/
  mem_due_iff : ∀ i, i ∈ d.due ↔ isUnfinished i past = true ∧ (waitingSince? i past).isSome = true
  order : d.due.Pairwise (Before past)
  /-- A task that has ended is never polled. -/
  ended : ∀ later e earlier i, past = later ++ e :: earlier → EndsTask e i earlier →
    ∀ task, .began i task ∉ later
  unfinished : d.unfinished + ends past = spawns past

theorem Runs.served (h : Runs past d polled) : Served past d where
  nodup := h.inStep.nodup
  inTurn := h.inStep.inTurn
  mem_due_iff _ := h.inStep.mem_due_iff
  order := h.inStep.order
  ended _ _ _ _ heq hends := (h.inStep.ended _ _ _ _ heq hends).2.2
  unfinished := h.inStep.count

/-- Where nothing is ready, nobody waits for a turn. -/
theorem Runs.waitingSince?_eq_none (h : Runs past d polled) (hr : d.ready = [])
    (hi : isUnfinished i past = true) :
    waitingSince? i past = none := by
  rw [← Option.not_isSome_iff_eq_none]
  intro hw
  have hmem := h.inStep.mem_due_iff.2 ⟨hi, hw⟩
  rw [due, hr] at hmem
  cases hmem

/-- What code may do to the dispatcher that polls it. -/
inductive Stir (d : Dispatcher τ) : Dispatcher τ → Prop
  | wake (i : Ticket) : Stir d (d.wake i)
  | spawn (task : τ) : Stir d (d.spawn task)

abbrev Stirs : Dispatcher τ → Dispatcher τ → Prop := Relation.ReflTransGen Stir

theorem Runs.stirs (h : Runs past d polled) (hd : d.Stirs d') :
    ∃ events, .endedAll ∉ events ∧ Runs (events ++ past) d' polled := by
  induction hd with
  | refl => exact ⟨[], nofun, h⟩
  | @tail d' _ _ hstir ih =>
    obtain ⟨events, hevents, ih⟩ := ih
    cases hstir with
    | spawn task => exact ⟨.spawned _ task :: events, by simp [hevents], ih.spawn task⟩
    | wake i =>
      by_cases hlt : i < d'.tickets.size
      · exact ⟨.woken i :: events, by simp [hevents], ih.wake hlt⟩
      · have hsame : d'.wake i = d' := by
          rw [Dispatcher.wake, Array.getElem?_eq_none (Nat.le_of_not_lt hlt)]
        exact ⟨events, hevents, hsame.symm ▸ ih⟩

end Dispatcher

variable {ε φ : Type} [FrameCode ε φ]

/-- All that the code of frames does to the dispatcher is to start tasks and to wake them. -/
structure FrameCode.OnlyStirs (ε φ : Type) [FrameCode ε φ] : Prop where
  resume : ∀ ticket frame result (m : FrameMachine ε φ),
    m.dispatcher.Stirs (FrameCode.resume ticket frame result m).2.dispatcher
  interrupted : ∀ why (m : FrameMachine ε φ), m.dispatcher.Stirs (FrameCode.interrupted why m).dispatcher

namespace FrameCode.OnlyStirs

variable (h : OnlyStirs ε φ) {past : List (TaskEvent (Task φ))} {m : FrameMachine ε φ}

include h

theorem unwind (ticket : Ticket) (frames : List φ) (result : Completion) (m : FrameMachine ε φ) :
    m.dispatcher.Stirs (FrameCode.unwind ticket frames result m).2.dispatcher := by
  induction frames generalizing result m with
  | nil => exact .refl
  | cons frame outer ih =>
    have hresume := h.resume ticket frame result m
    unfold FrameCode.unwind
    split
    · next result' m' heq =>
      rw [heq] at hresume
      exact hresume.trans (ih result' m')
    · next on inner m' heq =>
      rw [heq] at hresume
      exact hresume

theorem poll (ticket : Ticket) (task : Task φ) (m : FrameMachine ε φ) :
    m.dispatcher.Stirs (FrameCode.poll ticket task m).2.dispatcher := by
  have hresumed := Machine.dispatcher_resumption m ticket task.on
  unfold FrameCode.poll
  split
  · next m' heq =>
    rw [heq] at hresumed
    exact hresumed ▸ .refl
  · next result m' heq =>
    rw [heq] at hresumed
    have hproceed : m'.dispatcher.Stirs (FrameCode.proceed ticket task.frames result m').2.dispatcher := by
      cases result with
      | ok => exact h.unwind ..
      | error why => exact (h.interrupted why m').trans (h.unwind ..)
    have hproceed : m.dispatcher.Stirs (FrameCode.proceed ticket task.frames result m').2.dispatcher :=
      hresumed ▸ hproceed
    split
    · next heq => exact congrArg Prod.snd heq ▸ hproceed
    · next heq => exact congrArg Prod.snd heq ▸ hproceed

theorem runReady (hm : Dispatcher.Runs past m.dispatcher none) {id : SeatId} {rest : List SeatId}
    (hr : m.dispatcher.ready = id :: rest) :
    ∃ events, .endedAll ∉ events ∧ Dispatcher.Runs (events ++ past) (m.runReady id rest).dispatcher none := by
  unfold Machine.runReady
  split
  · next d hout => exact ⟨[], nofun, hm.skip hr hout⟩
  · next ticket task d hout =>
    obtain ⟨events, hevents, hpolled⟩ :=
      (hm.began hr hout).stirs (h.poll ticket task { m with dispatcher := d })
    have hpast : events ++ .began ticket task :: past = (events ++ [.began ticket task]) ++ past := by simp
    rw [hpast] at hpolled
    split
    · next m' heq =>
      rw [heq] at hpolled
      exact ⟨.finished ticket :: (events ++ [TaskEvent.began ticket task]), by simp [hevents],
        hpolled.finished⟩
    · next left m' heq =>
      rw [heq] at hpolled
      exact ⟨.paused ticket left :: (events ++ [TaskEvent.began ticket task]), by simp [hevents],
        hpolled.paused left⟩

/-- The polling of a machine is a run of its dispatcher. -/
theorem drain (hm : Dispatcher.Runs past m.dispatcher none) :
    ∃ events, .endedAll ∉ events ∧ Dispatcher.Runs (events ++ past) m.drain.dispatcher none := by
  fun_induction Machine.drain m generalizing past with
  | case1 m _ => exact ⟨[], List.not_mem_nil, hm⟩
  | case2 m id rest hr _ ih =>
    obtain ⟨events, hevents, hturn⟩ := h.runReady hm hr
    obtain ⟨events', hevents', hdrain⟩ := ih hturn
    exact ⟨events' ++ events, by simp [hevents, hevents'], by simpa using hdrain⟩

end FrameCode.OnlyStirs

end RacePuzzle
