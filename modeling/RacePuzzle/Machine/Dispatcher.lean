import RacePuzzle.Time.Timetable

/-! Tasks that are polled in the order in which they were woken. A task sits in a seat, and its
ticket outlives it: a wake-up through the ticket of a task that has ended does nothing, also
after the seat's number went to another task. -/
namespace RacePuzzle

abbrev SeatId := Nat

structure TicketEntry where
  task : SeatId
  /-- The task stands in the ready queue. -/
  queued : Bool
  /-- The task has ended. -/
  finished : Bool
  deriving DecidableEq, Repr

structure Seat (τ : Type) where
  /-- Absent while the task is polled and once it has ended. -/
  task : Option τ
  ticket : Ticket

structure Dispatcher (τ : Type) where
  tickets : Array TicketEntry
  seats : Array (Seat τ)
  ready : List SeatId
  /-- The number of polls so far. -/
  polls : Nat

namespace Dispatcher

variable {τ : Type}

def empty : Dispatcher τ := ⟨#[], #[], [], 0⟩

/-- Puts the ticket's task at the end of the ready queue, unless it stands there or has ended. -/
def wake (d : Dispatcher τ) (ticket : Ticket) : Dispatcher τ :=
  match d.tickets[ticket]? with
  | none => d
  | some entry =>
    if entry.finished || entry.queued then d
    else { d with
      tickets := d.tickets.setIfInBounds ticket { entry with queued := true }
      ready := d.ready ++ [entry.task] }

def wakeAll (d : Dispatcher τ) (tickets : List Ticket) : Dispatcher τ :=
  tickets.foldl wake d

def spawn (d : Dispatcher τ) (task : τ) : Dispatcher τ :=
  { d with
    tickets := d.tickets.push ⟨d.seats.size, true, false⟩
    seats := d.seats.push ⟨some task, d.tickets.size⟩
    ready := d.ready ++ [d.seats.size] }

/-- Takes a task out of its seat to be polled. There is none if the task has ended. -/
def checkOut (d : Dispatcher τ) (id : SeatId) : Option (Ticket × τ) × Dispatcher τ :=
  match d.seats[id]? with
  | none => (none, d)
  | some seat =>
    let d := { d with tickets := d.tickets.modify seat.ticket ({ · with queued := false }) }
    match seat.task with
    | none => (none, d)
    | some task =>
      (some (seat.ticket, task),
        { d with seats := d.seats.setIfInBounds id { seat with task := none }
                 polls := d.polls + 1 })

/-- Puts a task that is not at its end back into its seat. -/
def checkIn (d : Dispatcher τ) (id : SeatId) (task : τ) : Dispatcher τ :=
  match d.seats[id]? with
  | none => d
  | some seat => { d with seats := d.seats.setIfInBounds id { seat with task := some task } }

def finish (d : Dispatcher τ) (ticket : Ticket) : Dispatcher τ :=
  { d with tickets := d.tickets.modify ticket ({ · with finished := true }) }

def hasFinished (d : Dispatcher τ) (ticket : Ticket) : Bool :=
  (d.tickets[ticket]?).any (·.finished)

def unfinished (d : Dispatcher τ) : Nat :=
  d.seats.countP fun seat => !d.hasFinished seat.ticket

/-- Ends every task. Seat numbers start anew, tickets do not. -/
def endAll (d : Dispatcher τ) : Dispatcher τ :=
  { d.seats.foldl (fun d seat => d.finish seat.ticket) d with seats := #[], ready := [] }

end Dispatcher

def Seat.work {τ : Type} (w : τ → Nat) (seat : Seat τ) : Nat :=
  match seat.task with
  | none => 0
  | some task => w task

def seatsWork {τ : Type} (w : τ → Nat) : List (Seat τ) → Nat
  | [] => 0
  | seat :: rest => seat.work w + seatsWork w rest

theorem seatsWork_concat {τ : Type} (w : τ → Nat) (seats : List (Seat τ)) (seat : Seat τ) :
    seatsWork w (seats ++ [seat]) = seatsWork w seats + seat.work w := by
  induction seats with
  | nil => simp [seatsWork]
  | cons first rest ih =>
    simp only [List.cons_append, seatsWork, ih]
    omega

namespace Dispatcher

variable {τ : Type}

def work (w : τ → Nat) (d : Dispatcher τ) : Nat :=
  seatsWork w d.seats.toList

@[simp] theorem seats_wake (d : Dispatcher τ) (ticket : Ticket) :
    (d.wake ticket).seats = d.seats := by
  unfold wake
  split
  · rfl
  · split <;> rfl

@[simp] theorem seats_wakeAll (d : Dispatcher τ) (tickets : List Ticket) :
    (d.wakeAll tickets).seats = d.seats := by
  induction tickets generalizing d with
  | nil => rfl
  | cons ticket rest ih => exact (ih (d.wake ticket)).trans (seats_wake d ticket)

@[simp] theorem seats_finish (d : Dispatcher τ) (ticket : Ticket) :
    (d.finish ticket).seats = d.seats := rfl

theorem work_spawn (w : τ → Nat) (d : Dispatcher τ) (task : τ) :
    (d.spawn task).work w = d.work w + w task := by
  simp [work, seatsWork_concat, spawn, Seat.work]

theorem seatsWork_set (w : τ → Nat) {l : List (Seat τ)} {i : Nat} {seat : Seat τ}
    (h : l[i]? = some seat) (new : Seat τ) :
    seatsWork w (l.set i new) + seat.work w = seatsWork w l + new.work w := by
  induction l generalizing i with
  | nil => simp at h
  | cons s rest ih =>
    cases i with
    | zero =>
      obtain rfl : s = seat := by simpa using h
      simp only [seatsWork, List.set_cons_zero]
      omega
    | succ i =>
      have := ih (i := i) (by simpa using h)
      simp only [seatsWork, List.set_cons_succ] at *
      omega

theorem work_checkOut (w : τ → Nat) {d d' : Dispatcher τ} {id : SeatId} {ticket : Ticket}
    {task : τ} (h : d.checkOut id = (some (ticket, task), d')) :
    d'.work w + w task = d.work w := by
  unfold checkOut at h
  split at h
  · simp at h
  · next seat hs =>
    split at h
    · simp at h
    · next t ht =>
      simp only [Prod.mk.injEq, Option.some.injEq] at h
      obtain ⟨⟨-, rfl⟩, rfl⟩ := h
      have hset := seatsWork_set w (l := d.seats.toList) (by simpa using hs)
        { seat with task := none }
      simp only [Seat.work, ht] at hset
      simpa [work] using hset

theorem work_checkOut_none (w : τ → Nat) {d d' : Dispatcher τ} {id : SeatId}
    (h : d.checkOut id = (none, d')) : d'.work w = d.work w := by
  unfold checkOut at h
  split at h
  · simp only [Prod.mk.injEq, true_and] at h
    rw [h]
  · split at h
    · simp only [Prod.mk.injEq, true_and] at h
      rw [← h]
      rfl
    · simp at h

@[simp] theorem ready_checkOut (d : Dispatcher τ) (id : SeatId) :
    (d.checkOut id).2.ready = d.ready := by
  unfold checkOut
  split
  · rfl
  · dsimp only
    split <;> rfl

theorem work_checkIn_le (w : τ → Nat) (d : Dispatcher τ) (id : SeatId) (task : τ) :
    (d.checkIn id task).work w ≤ d.work w + w task := by
  unfold checkIn
  split
  · exact Nat.le_add_right _ _
  · next seat hs =>
    have hset := seatsWork_set w (l := d.seats.toList) (by simpa using hs)
      { seat with task := some task }
    simp only [work, Array.toList_setIfInBounds]
    simp only [Seat.work] at hset
    omega

@[simp] theorem ready_checkIn (d : Dispatcher τ) (id : SeatId) (task : τ) :
    (d.checkIn id task).ready = d.ready := by
  unfold checkIn
  split <;> rfl

end Dispatcher

end RacePuzzle
