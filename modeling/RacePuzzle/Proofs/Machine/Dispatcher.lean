import RacePuzzle.Machine.Dispatcher
import Mathlib.Tactic.Common

/-! Seats, tickets and the ready queue. As long as no seat is given up, the ticket of a task is the
number of its seat, and whoever is woken stands in the ready queue until it is polled. -/
namespace RacePuzzle.Dispatcher

variable {τ : Type}

/-- The task of the seat, unless it is polled or has ended. -/
def task? (d : Dispatcher τ) (i : SeatId) : Option τ := (d.seats[i]?).bind (·.task)

def isQueued (d : Dispatcher τ) (i : Ticket) : Bool := (d.tickets[i]?).any (·.queued)

structure Aligned (d : Dispatcher τ) : Prop where
  size : d.tickets.size = d.seats.size
  seat : ∀ (i : SeatId) (seat : Seat τ), d.seats[i]? = some seat → seat.ticket = i
  entry : ∀ (i : Ticket) (e : TicketEntry), d.tickets[i]? = some e → e.task = i
  queued : ∀ i, d.isQueued i → i ∈ d.ready

theorem hasFinished_wake (d : Dispatcher τ) (j i : Ticket) :
    (d.wake j).hasFinished i = d.hasFinished i := by
  unfold wake
  split
  · rfl
  · next e he =>
    split
    · rfl
    · by_cases hij : j = i
      · subst hij
        obtain ⟨hlt, hget⟩ := Array.getElem?_eq_some_iff.1 he
        simp [hasFinished, hlt, hget]
      · simp [hasFinished, hij]

theorem isQueued_wake_of {d : Dispatcher τ} {i : Ticket} (h : d.isQueued i) (j : Ticket) :
    (d.wake j).isQueued i := by
  unfold wake
  split
  · exact h
  · next e he =>
    split
    · exact h
    · by_cases hij : j = i
      · subst hij
        have hlt : j < d.tickets.size := (Array.getElem?_eq_some_iff.1 he).1
        simp [isQueued, hlt]
      · simpa [isQueued, hij] using h

theorem isQueued_wake_self {d : Dispatcher τ} {i : Ticket} (hlt : i < d.tickets.size)
    (h : d.hasFinished i = false) : (d.wake i).isQueued i := by
  have he : d.tickets[i]? = some d.tickets[i] := Array.getElem?_eq_getElem hlt
  have hf : d.tickets[i].finished = false := by simpa [hasFinished, he] using h
  unfold wake
  split
  · next hn => rw [he] at hn; simp at hn
  · next e he' =>
    obtain rfl : d.tickets[i] = e := by simpa [he] using he'
    split
    · next hq =>
      rw [hf, Bool.false_or] at hq
      simp [isQueued, he, hq]
    · simp [isQueued, hlt]

@[simp] theorem size_tickets_wake (d : Dispatcher τ) (j : Ticket) :
    (d.wake j).tickets.size = d.tickets.size := by
  unfold wake
  split
  · rfl
  · split <;> simp

@[simp] theorem polls_wake (d : Dispatcher τ) (j : Ticket) : (d.wake j).polls = d.polls := by
  unfold wake
  split
  · rfl
  · split <;> rfl

theorem length_ready_wake_le (d : Dispatcher τ) (j : Ticket) :
    (d.wake j).ready.length ≤ d.ready.length + 1 := by
  unfold wake
  split
  · simp
  · split <;> simp

theorem aligned_wake {d : Dispatcher τ} (h : d.Aligned) (j : Ticket) : (d.wake j).Aligned := by
  refine ⟨by simp [h.size], by simpa using h.seat, fun i e he => ?_, fun i hq => ?_⟩
  · unfold wake at he
    split at he
    · exact h.entry i e he
    · next e' he' =>
      split at he
      · exact h.entry i e he
      · by_cases hij : j = i
        · subst hij
          have hlt : j < d.tickets.size := (Array.getElem?_eq_some_iff.1 he').1
          obtain rfl : { e' with queued := true } = e := by simpa [hlt] using he
          exact h.entry j e' he'
        · exact h.entry i e (by simpa [Array.getElem?_setIfInBounds, hij] using he)
  · unfold wake at hq ⊢
    split
    · next hn => simp only [hn] at hq; exact h.queued i hq
    · next e' he' =>
      simp only [he'] at hq
      split
      · next hc => rw [if_pos hc] at hq; exact h.queued i hq
      · next hc =>
        rw [if_neg hc] at hq
        by_cases hij : j = i
        · simp [← hij, h.entry j e' he']
        · refine List.mem_append_left _ (h.queued i ?_)
          simpa [isQueued, hij] using hq

theorem hasFinished_wakeAll (d : Dispatcher τ) (js : List Ticket) (i : Ticket) :
    (d.wakeAll js).hasFinished i = d.hasFinished i := by
  induction js generalizing d with
  | nil => rfl
  | cons j rest ih => exact (ih (d.wake j)).trans (hasFinished_wake d j i)

theorem isQueued_wakeAll_of {d : Dispatcher τ} {i : Ticket} (h : d.isQueued i)
    (js : List Ticket) : (d.wakeAll js).isQueued i := by
  induction js generalizing d with
  | nil => exact h
  | cons j rest ih => exact ih (isQueued_wake_of h j)

@[simp] theorem size_tickets_wakeAll (d : Dispatcher τ) (js : List Ticket) :
    (d.wakeAll js).tickets.size = d.tickets.size := by
  induction js generalizing d with
  | nil => rfl
  | cons j rest ih => exact (ih (d.wake j)).trans (size_tickets_wake d j)

@[simp] theorem polls_wakeAll (d : Dispatcher τ) (js : List Ticket) :
    (d.wakeAll js).polls = d.polls := by
  induction js generalizing d with
  | nil => rfl
  | cons j rest ih => exact (ih (d.wake j)).trans (polls_wake d j)

theorem length_ready_wakeAll_le (d : Dispatcher τ) (js : List Ticket) :
    (d.wakeAll js).ready.length ≤ d.ready.length + js.length := by
  induction js generalizing d with
  | nil => exact Nat.le_refl _
  | cons j rest ih =>
    have h := ih (d.wake j)
    have hj := length_ready_wake_le d j
    simp only [List.length_cons]
    change ((d.wake j).wakeAll rest).ready.length ≤ _
    omega

theorem isQueued_wakeAll_of_mem {d : Dispatcher τ} {i : Ticket} (hlt : i < d.tickets.size)
    (h : d.hasFinished i = false) {js : List Ticket} (hi : i ∈ js) :
    (d.wakeAll js).isQueued i := by
  induction js generalizing d with
  | nil => simp at hi
  | cons j rest ih =>
    rcases List.mem_cons.1 hi with rfl | hi
    · exact isQueued_wakeAll_of (isQueued_wake_self hlt h) rest
    · exact ih (d := d.wake j) (by simpa using hlt) ((hasFinished_wake d j i).trans h) hi

theorem aligned_wakeAll {d : Dispatcher τ} (h : d.Aligned) (js : List Ticket) :
    (d.wakeAll js).Aligned := by
  induction js generalizing d with
  | nil => exact h
  | cons j rest ih => exact ih (aligned_wake h j)

theorem task?_of_seats {d d' : Dispatcher τ} (h : d'.seats = d.seats) (i : SeatId) :
    d'.task? i = d.task? i := by
  simp only [task?, h]

theorem task?_spawn (d : Dispatcher τ) (task : τ) (i : SeatId) :
    (d.spawn task).task? i = if i = d.seats.size then some task else d.task? i := by
  simp only [task?, spawn, Array.getElem?_push]
  split <;> rfl

theorem lt_of_task? {d : Dispatcher τ} {i : SeatId} {task : τ} (h : d.task? i = some task) :
    i < d.seats.size := by
  obtain ⟨seat, hs, -⟩ := Option.bind_eq_some_iff.1 h
  exact (Array.getElem?_eq_some_iff.1 hs).1

theorem task?_set {d : Dispatcher τ} {id : SeatId} {seat : Seat τ} (hs : d.seats[id]? = some seat)
    (task : Option τ) (i : SeatId) :
    ({ d with seats := d.seats.setIfInBounds id { seat with task := task } } :
      Dispatcher τ).task? i = if i = id then task else d.task? i := by
  have hlt : id < d.seats.size := (Array.getElem?_eq_some_iff.1 hs).1
  by_cases hi : i = id
  · subst hi
    simp [task?, hlt]
  · simp [task?, hi, Ne.symm hi]

theorem hasFinished_modify_queued (d : Dispatcher τ) (j : Ticket) (i : Ticket) :
    ({ d with tickets := d.tickets.modify j ({ · with queued := false }) } :
      Dispatcher τ).hasFinished i = d.hasFinished i := by
  simp only [hasFinished, Array.getElem?_modify]
  split
  · cases d.tickets[i]? <;> rfl
  · rfl

theorem isQueued_modify_queued (d : Dispatcher τ) (j : Ticket) (i : Ticket) :
    ({ d with tickets := d.tickets.modify j ({ · with queued := false }) } :
      Dispatcher τ).isQueued i = (d.isQueued i && i != j) := by
  simp only [isQueued, Array.getElem?_modify]
  by_cases hij : i = j
  · subst hij
    cases d.tickets[i]? <;> simp
  · simp [hij, Ne.symm hij]

theorem Aligned.isQueued_of_ready {d : Dispatcher τ} (h : d.Aligned) (hr : d.ready = []) (i : SeatId) :
    d.isQueued i = false := by
  by_contra hq
  have hmem := h.queued i (by simpa using hq)
  rw [hr] at hmem
  cases hmem

/-- What is left of the ready queue and the tickets when the first entry is taken off. -/
structure TakenOff (id : SeatId) (rest : List SeatId) (d d' : Dispatcher τ) : Prop where
  aligned : d'.Aligned
  ready : d'.ready = rest
  size : d'.seats.size = d.seats.size
  finished : ∀ i, d'.hasFinished i = d.hasFinished i
  queued : ∀ i, i ≠ id → d'.isQueued i = d.isQueued i

section CheckOut

variable {d : Dispatcher τ} {id : SeatId} {rest : List SeatId}

theorem takenOff_of_seat (h : d.Aligned) (hr : d.ready = id :: rest) {seat : Seat τ}
    (hs : d.seats[id]? = some seat) (task : Option τ) (polls : Nat) :
    TakenOff id rest d ⟨d.tickets.modify seat.ticket ({ · with queued := false }),
      d.seats.setIfInBounds id { seat with task := task }, rest, polls⟩ := by
  have hticket : seat.ticket = id := h.seat id seat hs
  rw [hticket]
  refine ⟨⟨by simp [h.size], fun i seat' hs' => ?_, fun i e he => ?_, fun i hq => ?_⟩, rfl, by simp,
    fun i => hasFinished_modify_queued d id i, fun i hi => ?_⟩
  · by_cases hi : i = id
    · subst hi
      have hlt : i < d.seats.size := (Array.getElem?_eq_some_iff.1 hs).1
      obtain rfl : { seat with task := task } = seat' := by simpa [hlt, hticket] using hs'
      exact hticket
    · exact h.seat i seat' (by simpa [Ne.symm hi] using hs')
  · rw [Array.getElem?_modify] at he
    split at he
    · obtain ⟨e', he', rfl⟩ := Option.map_eq_some_iff.1 he
      exact h.entry i e' he'
    · exact h.entry i e he
  · have hq := (isQueued_modify_queued d id i).symm.trans hq
    simp only [Bool.and_eq_true, bne_iff_ne] at hq
    have := h.queued i hq.1
    rw [hr] at this
    exact (List.mem_cons.1 this).resolve_left hq.2
  · refine (isQueued_modify_queued d id i).trans ?_
    simp [hi]

theorem checkOut_some (h : d.Aligned) (hr : d.ready = id :: rest) {ticket : Ticket} {task : τ}
    {d' : Dispatcher τ}
    (hout : ({ d with ready := rest } : Dispatcher τ).checkOut id = (some (ticket, task), d')) :
    TakenOff id rest d d' ∧ ticket = id ∧ d.task? id = some task ∧
      (∀ i, d'.task? i = if i = id then none else d.task? i) ∧ d'.polls = d.polls + 1 := by
  unfold checkOut at hout
  split at hout
  · simp at hout
  · next seat hs =>
    split at hout
    · simp at hout
    · next task' ht =>
      simp only [Prod.mk.injEq, Option.some.injEq] at hout
      obtain ⟨⟨rfl, rfl⟩, rfl⟩ := hout
      exact ⟨takenOff_of_seat h hr hs none _, h.seat id seat hs, by simp [task?, hs, ht],
        task?_set hs none, rfl⟩

/-- The entry is left over from a task that is not there. -/
theorem checkOut_none (h : d.Aligned) (hr : d.ready = id :: rest) {d' : Dispatcher τ}
    (hout : ({ d with ready := rest } : Dispatcher τ).checkOut id = (none, d')) :
    TakenOff id rest d d' ∧ d.task? id = none ∧ d'.seats = d.seats ∧ d'.polls = d.polls := by
  unfold checkOut at hout
  split at hout
  · next hs =>
    obtain rfl := (Prod.mk.inj hout).2
    have hs : d.seats[id]? = none := hs
    have hge : d.seats.size ≤ id := Array.getElem?_eq_none_iff.1 hs
    refine ⟨⟨⟨h.size, h.seat, h.entry, fun i hq => ?_⟩, rfl, rfl, fun _ => rfl, fun _ _ => rfl⟩,
      by simp [task?, hs], rfl, rfl⟩
    have hmem := h.queued i hq
    rw [hr] at hmem
    refine (List.mem_cons.1 hmem).resolve_left ?_
    rintro rfl
    have hnone : d.tickets[i]? = none := Array.getElem?_eq_none_iff.2 (h.size ▸ hge)
    simp [isQueued, hnone] at hq
  · next seat hs =>
    split at hout
    · next ht =>
      obtain rfl := (Prod.mk.inj hout).2
      have hseats : d.seats.setIfInBounds id { seat with task := none } = d.seats := by
        refine Array.ext_getElem? fun i => ?_
        rw [Array.getElem?_setIfInBounds]
        split
        · next hi =>
          subst hi
          have hs : d.seats[id]? = some seat := hs
          rw [hs, if_pos (Array.getElem?_eq_some_iff.1 hs).1, ← ht]
        · rfl
      have := takenOff_of_seat h hr hs none d.polls
      rw [hseats] at this
      exact ⟨this, by simp [task?, hs, ht], rfl, rfl⟩
    · simp at hout

/-- Whoever is first in the queue and sits in its seat can be polled. -/
theorem exists_checkOut (h : d.Aligned) (hr : d.ready = id :: rest) {task : τ} (htask : d.task? id = some task) :
    ∃ d', ({ d with ready := rest } : Dispatcher τ).checkOut id = (some (id, task), d') := by
  cases hout : ({ d with ready := rest } : Dispatcher τ).checkOut id with
  | mk polled d' =>
    cases polled with
    | none =>
      obtain ⟨-, hnone, -⟩ := checkOut_none h hr hout
      cases htask.symm.trans hnone
    | some polled =>
      obtain ⟨ticket, task'⟩ := polled
      obtain ⟨-, rfl, htask', -⟩ := checkOut_some h hr hout
      obtain rfl := Option.some.inj (htask.symm.trans htask')
      exact ⟨d', rfl⟩

end CheckOut

theorem task?_checkIn {d : Dispatcher τ} {id : SeatId} (hlt : id < d.seats.size) (task : τ)
    (i : SeatId) : (d.checkIn id task).task? i = if i = id then some task else d.task? i := by
  have hs : d.seats[id]? = some d.seats[id] := Array.getElem?_eq_getElem hlt
  unfold checkIn
  rw [hs]
  exact task?_set hs (some task) i

/-- A task that goes back to its seat leaves all seats as they were. -/
theorem task?_checkIn_of_checkOut {d d' : Dispatcher τ} {id : SeatId} {rest : List SeatId}
    {ticket : Ticket} {task : τ} (h : d.Aligned) (hr : d.ready = id :: rest)
    (hout : ({ d with ready := rest } : Dispatcher τ).checkOut id = (some (ticket, task), d'))
    (i : SeatId) : (d'.checkIn id task).task? i = d.task? i := by
  obtain ⟨hd, -, htask, hothers, -⟩ := checkOut_some h hr hout
  rw [task?_checkIn (hd.size ▸ lt_of_task? htask), hothers]
  split
  · next hi => exact hi ▸ htask.symm
  · rfl

theorem task?_checkIn_of_ne {d : Dispatcher τ} {id i : SeatId} (hne : i ≠ id) (task : τ) :
    (d.checkIn id task).task? i = d.task? i := by
  unfold checkIn
  split
  · rfl
  · next seat hs => exact (task?_set hs (some task) i).trans (if_neg hne)

theorem aligned_checkIn {d : Dispatcher τ} (h : d.Aligned) (id : SeatId) (task : τ) :
    (d.checkIn id task).Aligned := by
  unfold checkIn
  split
  · exact h
  · next seat hs =>
    refine ⟨by simp [h.size], fun i seat' hs' => ?_, h.entry, h.queued⟩
    by_cases hi : id = i
    · subst hi
      have hlt : id < d.seats.size := (Array.getElem?_eq_some_iff.1 hs).1
      obtain rfl : { seat with task := some task } = seat' := by simpa [hlt] using hs'
      exact h.seat id seat hs
    · exact h.seat i seat' (by simpa [hi] using hs')

@[simp] theorem tickets_checkIn (d : Dispatcher τ) (id : SeatId) (task : τ) :
    (d.checkIn id task).tickets = d.tickets := by
  unfold checkIn
  split <;> rfl

@[simp] theorem polls_checkIn (d : Dispatcher τ) (id : SeatId) (task : τ) :
    (d.checkIn id task).polls = d.polls := by
  unfold checkIn
  split <;> rfl

@[simp] theorem size_seats_checkIn (d : Dispatcher τ) (id : SeatId) (task : τ) :
    (d.checkIn id task).seats.size = d.seats.size := by
  unfold checkIn
  split <;> simp

theorem hasFinished_finish {d : Dispatcher τ} {j : Ticket} (hlt : j < d.tickets.size) (i : Ticket) :
    (d.finish j).hasFinished i = (d.hasFinished i || i == j) := by
  simp only [hasFinished, finish, Array.getElem?_modify]
  by_cases hij : i = j
  · subst hij
    simp [hlt]
  · simp [hij, Ne.symm hij]

theorem isQueued_finish (d : Dispatcher τ) (j i : Ticket) :
    (d.finish j).isQueued i = d.isQueued i := by
  simp only [isQueued, finish, Array.getElem?_modify]
  split
  · cases d.tickets[i]? <;> rfl
  · rfl

theorem aligned_finish {d : Dispatcher τ} (h : d.Aligned) (j : Ticket) : (d.finish j).Aligned := by
  refine ⟨by simp [finish, h.size], h.seat, fun i e he => ?_, fun i hq => ?_⟩
  · simp only [finish, Array.getElem?_modify] at he
    split at he
    · obtain ⟨e', he', rfl⟩ := Option.map_eq_some_iff.1 he
      exact h.entry i e' he'
    · exact h.entry i e he
  · rw [isQueued_finish] at hq
    exact h.queued i hq

theorem seat_work_le (w : τ → Nat) {d : Dispatcher τ} {i : SeatId} {seat : Seat τ}
    (hs : d.seats[i]? = some seat) : seat.work w ≤ d.work w := by
  have hset := seatsWork_set w (l := d.seats.toList) (by simpa using hs) { seat with task := none }
  have hnone : Seat.work w { seat with task := none } = 0 := rfl
  simp only [work]
  omega

theorem le_work (w : τ → Nat) {d : Dispatcher τ} {i : SeatId} {task : τ}
    (h : d.task? i = some task) : w task ≤ d.work w := by
  obtain ⟨seat, hs, ht⟩ := Option.bind_eq_some_iff.1 h
  have := seat_work_le w hs
  rwa [Seat.work, ht] at this

theorem exists_of_work_pos (w : τ → Nat) {d : Dispatcher τ} (h : 0 < d.work w) :
    ∃ i task, d.task? i = some task ∧ 0 < w task := by
  have hlist : ∀ l : List (Seat τ), 0 < seatsWork w l →
      ∃ (i : Nat) (seat : Seat τ), l[i]? = some seat ∧ 0 < seat.work w := by
    intro l
    induction l with
    | nil => intro h; simp [seatsWork] at h
    | cons seat rest ih =>
      intro h
      by_cases hs : 0 < seat.work w
      · exact ⟨0, seat, rfl, hs⟩
      · have hrest : 0 < seatsWork w rest := by
          simp only [seatsWork] at h
          omega
        obtain ⟨i, seat', hget, hpos⟩ := ih hrest
        exact ⟨i + 1, seat', hget, hpos⟩
  obtain ⟨i, seat, hget, hpos⟩ := hlist _ h
  cases ht : seat.task with
  | none => simp [Seat.work, ht] at hpos
  | some task =>
    refine ⟨i, task, ?_, by simpa [Seat.work, ht] using hpos⟩
    have hs : d.seats[i]? = some seat := by simpa using hget
    simp [task?, hs, ht]

theorem work_checkIn (w : τ → Nat) {d : Dispatcher τ} {id : SeatId} (hlt : id < d.seats.size)
    (hnone : d.task? id = none) (task : τ) : (d.checkIn id task).work w = d.work w + w task := by
  have hs : d.seats[id]? = some d.seats[id] := Array.getElem?_eq_getElem hlt
  have ht : d.seats[id].task = none := by simpa [task?, hs] using hnone
  have hset := seatsWork_set w (l := d.seats.toList) ((Array.getElem?_toList ..).trans hs)
    { d.seats[id] with task := some task }
  have hold : d.seats[id].work w = 0 := by simp [Seat.work, ht]
  have hnew : Seat.work w { d.seats[id] with task := some task } = w task := rfl
  have hin : (d.checkIn id task).work w =
      seatsWork w (d.seats.toList.set id { d.seats[id] with task := some task }) := by
    simp [checkIn, hs, work]
  rw [hin, work]
  rw [hold, hnew] at hset
  exact hset

end RacePuzzle.Dispatcher
