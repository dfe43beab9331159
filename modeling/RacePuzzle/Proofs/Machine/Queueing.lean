import RacePuzzle.Proofs.Machine.Dispatcher
import Mathlib.Data.List.Nodup

/-! The ready queue under everything that can happen to a dispatcher, also when all its tasks are ended and
their seats are given to others. Each entry of the queue is the seat of a task that was woken, and no seat
stands there twice. -/
namespace RacePuzzle.Dispatcher

variable {τ : Type} {d d' : Dispatcher τ} {polled : Option (SeatId × Ticket)} {id : SeatId}
  {ticket i : Ticket} {task : τ}

/-- The ticket in a seat whose task has not ended. -/
def holder? (d : Dispatcher τ) (id : SeatId) : Option Ticket :=
  ((d.seats[id]?).map (·.ticket)).filter fun i => !d.hasFinished i

/-- The tickets of the tasks that are to be polled, in order. What is left in the queue of a task that
has ended does not count. -/
def due (d : Dispatcher τ) : List Ticket := d.ready.filterMap d.holder?

/-- Seats, tickets and the ready queue agree while the task `polled`, if any, is polled in its seat. -/
structure Seated (d : Dispatcher τ) (polled : Option (SeatId × Ticket)) : Prop where
  ticket : ∀ {id : SeatId} {seat : Seat τ}, d.seats[id]? = some seat →
    ∃ entry, d.tickets[seat.ticket]? = some entry ∧ entry.task = id
  seat : ∀ {i : Ticket} {entry : TicketEntry}, d.tickets[i]? = some entry → entry.finished = false →
    ∃ seat, d.seats[entry.task]? = some seat ∧ seat.ticket = i
  ready : ∀ {id : SeatId}, id ∈ d.ready ↔ ∃ seat, d.seats[id]? = some seat ∧ d.isQueued seat.ticket = true
  nodup : d.ready.Nodup
  empty : ∀ {id : SeatId} {seat : Seat τ}, d.seats[id]? = some seat →
    (seat.task = none ↔ d.hasFinished seat.ticket = true ∨ polled = some (id, seat.ticket))
  polled : ∀ {id : SeatId} {i : Ticket}, polled = some (id, i) → d.holder? id = some i

theorem seated_empty : (empty : Dispatcher τ).Seated none where
  ticket h := by simp [Dispatcher.empty] at h
  seat h := by simp [Dispatcher.empty] at h
  ready := by simp [Dispatcher.empty]
  nodup := .nil
  empty h := by simp [Dispatcher.empty] at h
  polled := nofun

theorem hasFinished_of_entry {entry : TicketEntry} (h : d.tickets[i]? = some entry) :
    d.hasFinished i = entry.finished := by simp [hasFinished, h]

theorem isQueued_of_entry {entry : TicketEntry} (h : d.tickets[i]? = some entry) :
    d.isQueued i = entry.queued := by simp [isQueued, h]

theorem exists_entry_of_isQueued (h : d.isQueued i = true) : ∃ entry, d.tickets[i]? = some entry := by
  cases hentry : d.tickets[i]? with
  | none => simp [isQueued, hentry] at h
  | some entry => exact ⟨entry, rfl⟩

theorem Seated.seat_unique (h : d.Seated polled) {id' : SeatId} {seat seat' : Seat τ}
    (hs : d.seats[id]? = some seat) (hs' : d.seats[id']? = some seat') (he : seat.ticket = seat'.ticket) :
    id = id' := by
  obtain ⟨entry, hentry, rfl⟩ := h.ticket hs
  obtain ⟨entry', hentry', rfl⟩ := h.ticket hs'
  rw [he, hentry'] at hentry
  rw [Option.some.inj hentry]

theorem holder?_eq_some : d.holder? id = some i ↔
    (∃ seat, d.seats[id]? = some seat ∧ seat.ticket = i) ∧ d.hasFinished i = false := by
  simp [holder?, Option.filter_eq_some_iff]

theorem Seated.mem_due (h : d.Seated polled) :
    i ∈ d.due ↔ d.isQueued i = true ∧ d.hasFinished i = false := by
  simp only [due, List.mem_filterMap, holder?_eq_some, h.ready]
  constructor
  · rintro ⟨id, ⟨seat, hs, hq⟩, ⟨seat', hs', rfl⟩, hf⟩
    obtain rfl := Option.some.inj (hs.symm.trans hs')
    exact ⟨hq, hf⟩
  · rintro ⟨hq, hf⟩
    obtain ⟨entry, hentry⟩ := exists_entry_of_isQueued hq
    obtain ⟨seat, hs, rfl⟩ := h.seat hentry ((hasFinished_of_entry hentry).symm.trans hf)
    exact ⟨entry.task, ⟨seat, hs, hq⟩, ⟨seat, hs, rfl⟩, hf⟩

/-- Either the wake-up does nothing, or the task goes to the end of the queue. -/
theorem wake_cases (d : Dispatcher τ) (i : Ticket) :
    d.wake i = d ∧ (d.tickets[i]? = none ∨ d.hasFinished i = true ∨ d.isQueued i = true) ∨
      ∃ entry, d.tickets[i]? = some entry ∧ entry.finished = false ∧ entry.queued = false ∧
        d.wake i = { d with tickets := d.tickets.setIfInBounds i { entry with queued := true }
                            ready := d.ready ++ [entry.task] } := by
  unfold wake
  cases hentry : d.tickets[i]? with
  | none => exact .inl ⟨rfl, .inl rfl⟩
  | some entry =>
    dsimp only
    split
    · next hidle =>
      rw [Bool.or_eq_true] at hidle
      refine .inl ⟨rfl, .inr (hidle.imp ?_ ?_)⟩
      · exact (hasFinished_of_entry hentry).trans
      · exact (isQueued_of_entry hentry).trans
    · next hidle =>
      simp only [Bool.or_eq_true, not_or, Bool.not_eq_true] at hidle
      exact .inr ⟨entry, rfl, hidle.1, hidle.2, rfl⟩

theorem holder?_wake (d : Dispatcher τ) (i : Ticket) (id : SeatId) : (d.wake i).holder? id = d.holder? id := by
  simp only [holder?, seats_wake, hasFinished_wake]

/-- The tickets after a wake-up that puts the task into the queue. -/
theorem getElem?_tickets_wake {entry : TicketEntry} (hentry : d.tickets[i]? = some entry)
    (hwake : d.wake i = { d with tickets := d.tickets.setIfInBounds i { entry with queued := true }
                                 ready := d.ready ++ [entry.task] }) (j : Ticket) :
    (d.wake i).tickets[j]? = if j = i then some { entry with queued := true } else d.tickets[j]? := by
  rw [hwake]
  have hlt := (Array.getElem?_eq_some_iff.1 hentry).1
  by_cases hj : j = i
  · subst hj
    simp [hlt]
  · simp [hj, Ne.symm hj]

theorem isQueued_wake_of_ne {j : Ticket} (hj : j ≠ i) : (d.wake i).isQueued j = d.isQueued j := by
  rcases wake_cases d i with ⟨hsame, -⟩ | ⟨entry, hentry, -, -, hwake⟩
  · rw [hsame]
  · simp only [isQueued, getElem?_tickets_wake hentry hwake, if_neg hj]

/-- Tasks that stand in the queue once they are woken join it in their order. -/
theorem ready_wakeAll (h : d.Aligned) {is : List Ticket} (hnodup : is.Nodup)
    (hasleep : ∀ i ∈ is, i < d.tickets.size ∧ d.hasFinished i = false ∧ d.isQueued i = false) :
    (d.wakeAll is).ready = d.ready ++ is := by
  induction is generalizing d with
  | nil => exact (List.append_nil _).symm
  | cons i rest ih =>
    obtain ⟨hnew, hrest⟩ := List.nodup_cons.1 hnodup
    obtain ⟨hlt, hfinished, hqueued⟩ := hasleep i (.head _)
    have hready : (d.wake i).ready = d.ready ++ [i] := by
      rcases wake_cases d i with ⟨-, hnone | hf | hq⟩ | ⟨entry, hentry, -, -, hwake⟩
      · exact absurd hlt (Nat.not_lt_of_le (Array.getElem?_eq_none_iff.1 hnone))
      · cases hfinished.symm.trans hf
      · cases hqueued.symm.trans hq
      · rw [hwake, h.entry i entry hentry]
    refine (ih (aligned_wake h i) hrest fun j hj => ?_).trans ?_
    · have hne : j ≠ i := fun he => hnew (he ▸ hj)
      rw [size_tickets_wake, hasFinished_wake, isQueued_wake_of_ne hne]
      exact hasleep j (.tail _ hj)
    · rw [hready, List.append_assoc]
      rfl

theorem Seated.due_wake (h : d.Seated polled) (i : Ticket) :
    (d.wake i).due =
      if d.isQueued i = true ∨ d.hasFinished i = true ∨ d.tickets[i]? = none then d.due else d.due ++ [i] := by
  have hholder : (d.wake i).holder? = d.holder? := funext (holder?_wake d i)
  unfold due
  rw [hholder]
  rcases wake_cases d i with ⟨hsame, hidle⟩ | ⟨entry, hentry, hf, hq, hwake⟩
  · rw [hsame, if_pos (by tauto)]
  · obtain ⟨seat, hs, rfl⟩ := h.seat hentry hf
    have hf' := (hasFinished_of_entry hentry).trans hf
    have hq' := (isQueued_of_entry hentry).trans hq
    have hholds : d.holder? entry.task = some seat.ticket := holder?_eq_some.2 ⟨⟨seat, hs, rfl⟩, hf'⟩
    rw [if_neg (by simp [hf', hq', hentry]), hwake, List.filterMap_append]
    simp [hholds]

theorem Seated.wake (h : d.Seated polled) (i : Ticket) : (d.wake i).Seated polled := by
  rcases wake_cases d i with ⟨hsame, -⟩ | ⟨entry, hentry, hf, hq, hwake⟩
  · rw [hsame]
    exact h
  · have htickets := getElem?_tickets_wake hentry hwake
    have hq' := (isQueued_of_entry hentry).trans hq
    have hready : (d.wake i).ready = d.ready ++ [entry.task] := by rw [hwake]
    obtain ⟨seat, hs, rfl⟩ := h.seat hentry hf
    have hqueued (j : Ticket) : (d.wake seat.ticket).isQueued j = (d.isQueued j || j == seat.ticket) := by
      unfold isQueued
      rw [htickets]
      split
      · next hj => simp [hj]
      · next hj => simp [hj]
    refine ⟨fun hs' => ?_, fun {j entry'} hj hf' => ?_, fun {id} => ?_, ?_, fun {id seat'} hs' => ?_,
      fun hp => (holder?_wake ..).trans (h.polled hp)⟩
    · rw [seats_wake] at hs'
      obtain ⟨entry', hentry', htask⟩ := h.ticket hs'
      rw [htickets]
      split
      · next he =>
        rw [he, hentry] at hentry'
        obtain rfl := Option.some.inj hentry'
        exact ⟨_, rfl, htask⟩
      · exact ⟨entry', hentry', htask⟩
    · rw [seats_wake]
      rw [htickets] at hj
      split at hj
      · next he =>
        obtain rfl := Option.some.inj hj
        exact ⟨seat, hs, he.symm⟩
      · exact h.seat hj hf'
    · rw [hready, List.mem_append, h.ready, List.mem_singleton, seats_wake]
      simp only [hqueued, Bool.or_eq_true, beq_iff_eq]
      constructor
      · rintro (⟨seat', hs', hq⟩ | rfl)
        · exact ⟨seat', hs', .inl hq⟩
        · exact ⟨seat, hs, .inr rfl⟩
      · rintro ⟨seat', hs', hq | he⟩
        · exact .inl ⟨seat', hs', hq⟩
        · exact .inr (h.seat_unique hs' hs he)
    · rw [hready]
      refine List.nodup_append.2 ⟨h.nodup, List.pairwise_singleton .., fun id hid id' hid' he => ?_⟩
      obtain rfl := List.mem_singleton.1 hid'
      obtain ⟨seat', hs', hq''⟩ := h.ready.1 (he ▸ hid)
      obtain rfl := Option.some.inj (hs.symm.trans hs')
      exact absurd (hq'.symm.trans hq'') (by decide)
    · rw [seats_wake] at hs'
      rw [hasFinished_wake]
      exact h.empty hs'

theorem hasFinished_spawn (d : Dispatcher τ) (task : τ) (i : Ticket) :
    (d.spawn task).hasFinished i = d.hasFinished i := by
  simp only [hasFinished, spawn, Array.getElem?_push]
  split
  · next he => simp [he]
  · rfl

theorem isQueued_spawn (d : Dispatcher τ) (task : τ) (i : Ticket) :
    (d.spawn task).isQueued i = (d.isQueued i || i == d.tickets.size) := by
  simp only [isQueued, spawn, Array.getElem?_push]
  split
  · next he => simp [he]
  · next he => simp [he]

theorem hasFinished_size (d : Dispatcher τ) : d.hasFinished d.tickets.size = false := by
  simp [hasFinished]

theorem holder?_spawn (d : Dispatcher τ) (task : τ) (id : SeatId) :
    (d.spawn task).holder? id = if id = d.seats.size then some d.tickets.size else d.holder? id := by
  have hfinished : (d.spawn task).hasFinished = d.hasFinished := funext (hasFinished_spawn d task)
  have hseats : (d.spawn task).seats[id]? =
      if id = d.seats.size then some ⟨some task, d.tickets.size⟩ else d.seats[id]? := Array.getElem?_push
  unfold holder?
  rw [hfinished, hseats]
  split
  · simp [Option.filter, hasFinished_size]
  · rfl

theorem getElem?_seats_spawn {seat : Seat τ} (hs : (d.spawn task).seats[id]? = some seat) :
    id = d.seats.size ∧ seat = ⟨some task, d.tickets.size⟩ ∨ d.seats[id]? = some seat := by
  have hs : (d.seats.push ⟨some task, d.tickets.size⟩)[id]? = some seat := hs
  rw [Array.getElem?_push] at hs
  split at hs
  · next hid => exact .inl ⟨hid, (Option.some.inj hs).symm⟩
  · exact .inr hs

theorem Seated.lt_of_ready (h : d.Seated polled) (hid : id ∈ d.ready) : id < d.seats.size :=
  let ⟨_, hs, _⟩ := h.ready.1 hid
  (Array.getElem?_eq_some_iff.1 hs).1

theorem Seated.due_spawn (h : d.Seated polled) (task : τ) : (d.spawn task).due = d.due ++ [d.tickets.size] := by
  have hold : ∀ id ∈ d.ready, (d.spawn task).holder? id = d.holder? id := fun id hid => by
    rw [holder?_spawn, if_neg (Nat.ne_of_lt (h.lt_of_ready hid))]
  have hready : (d.spawn task).ready = d.ready ++ [d.seats.size] := rfl
  unfold due
  rw [hready, List.filterMap_append, List.filterMap_congr hold]
  simp [holder?_spawn]

theorem Seated.spawn (h : d.Seated polled) (task : τ) : (d.spawn task).Seated polled := by
  have hready : (d.spawn task).ready = d.ready ++ [d.seats.size] := rfl
  have hseats (id : SeatId) : (d.spawn task).seats[id]? =
      if id = d.seats.size then some ⟨some task, d.tickets.size⟩ else d.seats[id]? := Array.getElem?_push
  have htickets (i : Ticket) : (d.spawn task).tickets[i]? =
      if i = d.tickets.size then some ⟨d.seats.size, true, false⟩ else d.tickets[i]? := Array.getElem?_push
  have hold {id : SeatId} {seat : Seat τ} (hs : d.seats[id]? = some seat) :
      id ≠ d.seats.size ∧ seat.ticket ≠ d.tickets.size := by
    obtain ⟨entry, hentry, -⟩ := h.ticket hs
    exact ⟨Nat.ne_of_lt (Array.getElem?_eq_some_iff.1 hs).1,
      Nat.ne_of_lt (Array.getElem?_eq_some_iff.1 hentry).1⟩
  refine ⟨fun {id seat} hs => ?_, fun {i entry} hi hf => ?_, fun {id} => ?_, ?_, fun {id seat} hs => ?_,
    fun {id i} hp => ?_⟩
  · rw [hseats] at hs
    split at hs
    · next hid =>
      obtain rfl := Option.some.inj hs
      exact ⟨_, (htickets _).trans (if_pos rfl), hid.symm⟩
    · obtain ⟨entry, hentry, htask⟩ := h.ticket hs
      exact ⟨entry, (htickets _).trans ((if_neg (hold hs).2).trans hentry), htask⟩
  · rw [htickets] at hi
    split at hi
    · next he =>
      obtain rfl := Option.some.inj hi
      exact ⟨_, (hseats _).trans (if_pos rfl), he.symm⟩
    · obtain ⟨seat, hs, ht⟩ := h.seat hi hf
      exact ⟨seat, (hseats _).trans ((if_neg (hold hs).1).trans hs), ht⟩
  · rw [hready, List.mem_append, List.mem_singleton, h.ready]
    simp only [isQueued_spawn, Bool.or_eq_true, beq_iff_eq]
    constructor
    · rintro (⟨seat, hs, hq⟩ | rfl)
      · exact ⟨seat, (hseats _).trans ((if_neg (hold hs).1).trans hs), .inl hq⟩
      · exact ⟨_, (hseats _).trans (if_pos rfl), .inr rfl⟩
    · rintro ⟨seat, hs, hq⟩
      rw [hseats] at hs
      split at hs
      · next hid => exact .inr hid
      · exact .inl ⟨seat, hs, hq.resolve_right (hold hs).2⟩
  · rw [hready]
    refine List.nodup_append.2 ⟨h.nodup, List.pairwise_singleton .., fun id hid id' hid' he => ?_⟩
    obtain rfl := List.mem_singleton.1 hid'
    exact absurd (h.lt_of_ready hid) (Nat.not_lt_of_le (Nat.le_of_eq he.symm))
  · rw [hasFinished_spawn]
    rw [hseats] at hs
    split at hs
    · next hid =>
      obtain rfl := Option.some.inj hs
      refine iff_of_false (by simp) ?_
      rintro (hf | hp)
      · exact absurd hf (by simp [hasFinished_size])
      · obtain ⟨⟨seat, hs', -⟩, -⟩ := holder?_eq_some.1 (h.polled hp)
        exact (hold hs').1 hid
    · exact h.empty hs
  · have hholder := h.polled hp
    obtain ⟨⟨seat, hs, -⟩, -⟩ := holder?_eq_some.1 hholder
    rw [holder?_spawn, if_neg (hold hs).1]
    exact hholder

/-- The dispatcher after its first entry, the seat of `ticket`, is taken off. -/
def unqueue (d : Dispatcher τ) (ticket : Ticket) (rest : List SeatId) : Dispatcher τ :=
  { d with tickets := d.tickets.modify ticket ({ · with queued := false }), ready := rest }

theorem hasFinished_unqueue (d : Dispatcher τ) (ticket : Ticket) (rest : List SeatId) (i : Ticket) :
    (d.unqueue ticket rest).hasFinished i = d.hasFinished i := hasFinished_modify_queued d ticket i

theorem isQueued_unqueue (d : Dispatcher τ) (ticket : Ticket) (rest : List SeatId) (i : Ticket) :
    (d.unqueue ticket rest).isQueued i = (d.isQueued i && i != ticket) := isQueued_modify_queued d ticket i

theorem holder?_unqueue (d : Dispatcher τ) (ticket : Ticket) (rest : List SeatId) (id : SeatId) :
    (d.unqueue ticket rest).holder? id = d.holder? id := by
  have hfinished : (d.unqueue ticket rest).hasFinished = d.hasFinished :=
    funext (hasFinished_unqueue d ticket rest)
  unfold holder?
  rw [hfinished]
  rfl

theorem due_of_ready {rest : List SeatId} (hr : d.ready = id :: rest) (ticket : Ticket) :
    d.due = (d.holder? id).toList ++ (d.unqueue ticket rest).due := by
  have hholder : (d.unqueue ticket rest).holder? = d.holder? := funext (holder?_unqueue d ticket rest)
  unfold due
  rw [hr, hholder, List.filterMap_cons]
  cases d.holder? id <;> rfl

theorem Seated.unqueue (h : d.Seated polled) {rest : List SeatId} (hr : d.ready = id :: rest)
    {seat : Seat τ} (hs : d.seats[id]? = some seat) : (d.unqueue seat.ticket rest).Seated polled := by
  have hnodup := List.nodup_cons.1 (hr ▸ h.nodup)
  have htickets (j : Ticket) : (d.unqueue seat.ticket rest).tickets[j]? =
      if seat.ticket = j then d.tickets[j]?.map ({ · with queued := false }) else d.tickets[j]? :=
    Array.getElem?_modify ..
  refine ⟨fun {k seat'} hs' => ?_, fun {i entry} hi hf => ?_, fun {k} => ?_, hnodup.2, fun {k seat'} hs' => ?_,
    fun hp => (holder?_unqueue ..).trans (h.polled hp)⟩
  · obtain ⟨entry, hentry, htask⟩ := h.ticket hs'
    rw [htickets, hentry]
    split
    · exact ⟨_, rfl, htask⟩
    · exact ⟨_, rfl, htask⟩
  · rw [htickets] at hi
    split at hi
    · obtain ⟨entry, hentry, rfl⟩ := Option.map_eq_some_iff.1 hi
      obtain ⟨seat', hs', hticket⟩ := h.seat hentry (show entry.finished = false from hf)
      exact ⟨seat', hs', hticket⟩
    · exact h.seat hi hf
  · have hmem : k ∈ rest ↔ k ∈ d.ready ∧ k ≠ id := by
      rw [hr, List.mem_cons]
      constructor
      · exact fun hk => ⟨.inr hk, fun he => hnodup.1 (he ▸ hk)⟩
      · exact fun hk => hk.1.resolve_left hk.2
    refine hmem.trans ?_
    simp only [isQueued_unqueue, Bool.and_eq_true, bne_iff_ne, h.ready]
    constructor
    · rintro ⟨⟨seat', hs', hq⟩, hne⟩
      exact ⟨seat', hs', hq, fun he => hne (h.seat_unique hs' hs he)⟩
    · rintro ⟨seat', hs', hq, hne⟩
      refine ⟨⟨seat', hs', hq⟩, ?_⟩
      rintro rfl
      exact hne (by rw [Option.some.inj (hs'.symm.trans hs)])
  · rw [hasFinished_unqueue]
    exact h.empty hs'

def setTask (d : Dispatcher τ) (id : SeatId) (ticket : Ticket) (task : Option τ) : Dispatcher τ :=
  { d with seats := d.seats.setIfInBounds id ⟨task, ticket⟩ }

theorem getElem?_setTask {seat : Seat τ} (hs : d.seats[id]? = some seat) (task : Option τ) (k : SeatId) :
    (d.setTask id seat.ticket task).seats[k]? =
      if k = id then some ⟨task, seat.ticket⟩ else d.seats[k]? := by
  have hlt := (Array.getElem?_eq_some_iff.1 hs).1
  by_cases hk : k = id
  · subst hk
    simp [setTask, hlt]
  · simp [setTask, hk, Ne.symm hk]

theorem getElem?_seats_setTask {seat seat' : Seat τ} (hs : d.seats[id]? = some seat) {task : Option τ}
    {k : SeatId} (hs' : (d.setTask id seat.ticket task).seats[k]? = some seat') :
    k = id ∧ seat' = ⟨task, seat.ticket⟩ ∨ k ≠ id ∧ d.seats[k]? = some seat' := by
  rw [getElem?_setTask hs] at hs'
  split at hs'
  · next hk => exact .inl ⟨hk, (Option.some.inj hs').symm⟩
  · next hk => exact .inr ⟨hk, hs'⟩

theorem holder?_setTask {seat : Seat τ} (hs : d.seats[id]? = some seat) (task : Option τ) (k : SeatId) :
    (d.setTask id seat.ticket task).holder? k = d.holder? k := by
  have hfinished : (d.setTask id seat.ticket task).hasFinished = d.hasFinished := rfl
  unfold holder?
  rw [hfinished, getElem?_setTask hs]
  split
  · next hk =>
    subst hk
    rw [hs]
    rfl
  · rfl

theorem due_setTask {seat : Seat τ} (hs : d.seats[id]? = some seat) (task : Option τ) :
    (d.setTask id seat.ticket task).due = d.due :=
  congrArg (List.filterMap · d.ready) (funext (holder?_setTask hs task))

theorem Seated.setTask (h : d.Seated polled) {seat : Seat τ} (hs : d.seats[id]? = some seat) {task : Option τ}
    {polled' : Option (SeatId × Ticket)}
    (hempty : task = none ↔ d.hasFinished seat.ticket = true ∨ polled' = some (id, seat.ticket))
    (hother : ∀ {k i}, k ≠ id → (polled' = some (k, i) ↔ polled = some (k, i)))
    (hpolled : ∀ {k i}, polled' = some (k, i) → d.holder? k = some i) :
    (d.setTask id seat.ticket task).Seated polled' := by
  have hseats := getElem?_setTask hs task
  have hold {k : SeatId} {seat' : Seat τ} (hs' : (d.setTask id seat.ticket task).seats[k]? = some seat') :
      ∃ old, d.seats[k]? = some old ∧ old.ticket = seat'.ticket := by
    rw [hseats] at hs'
    split at hs'
    · next hk =>
      subst hk
      exact ⟨seat, hs, by rw [← Option.some.inj hs']⟩
    · exact ⟨seat', hs', rfl⟩
  have hnew {k : SeatId} {old : Seat τ} (hs' : d.seats[k]? = some old) :
      ∃ seat', (d.setTask id seat.ticket task).seats[k]? = some seat' ∧ seat'.ticket = old.ticket := by
    rw [hseats]
    split
    · next hk =>
      subst hk
      exact ⟨_, rfl, by rw [Option.some.inj (hs.symm.trans hs')]⟩
    · exact ⟨old, hs', rfl⟩
  refine ⟨fun {k seat'} hs' => ?_, fun {i entry} hi hf => ?_, fun {k} => ?_, h.nodup, fun {k seat'} hs' => ?_,
    fun hp => (holder?_setTask hs task _).trans (hpolled hp)⟩
  · obtain ⟨old, hold, hticket⟩ := hold hs'
    exact hticket ▸ h.ticket hold
  · obtain ⟨old, hold, hticket⟩ := h.seat hi hf
    obtain ⟨seat', hs', he⟩ := hnew hold
    exact ⟨seat', hs', he.trans hticket⟩
  · refine h.ready.trans ⟨?_, ?_⟩
    · rintro ⟨old, hold, hq⟩
      obtain ⟨seat', hs', he⟩ := hnew hold
      exact ⟨seat', hs', he ▸ hq⟩
    · rintro ⟨seat', hs', hq⟩
      obtain ⟨old, hold, he⟩ := hold hs'
      exact ⟨old, hold, he ▸ hq⟩
  · rw [hseats] at hs'
    split at hs'
    · next hk =>
      subst hk
      obtain rfl := Option.some.inj hs'
      exact hempty
    · next hk => exact (h.empty hs').trans (or_congr_right (hother hk).symm)

section

variable {rest : List SeatId}

/-- Either the task of the first entry is there to be polled, or it has ended and the entry is dropped. -/
theorem Seated.checkOut_cases (h : d.Seated none) (hr : d.ready = id :: rest) :
    ∃ seat, d.seats[id]? = some seat ∧
      ((∃ task, seat.task = some task ∧ d.hasFinished seat.ticket = false ∧
          ({ d with ready := rest } : Dispatcher τ).checkOut id = (some (seat.ticket, task),
            { (d.unqueue seat.ticket rest).setTask id seat.ticket none with polls := d.polls + 1 })) ∨
        seat.task = none ∧ d.hasFinished seat.ticket = true ∧
          ({ d with ready := rest } : Dispatcher τ).checkOut id = (none, d.unqueue seat.ticket rest)) := by
  obtain ⟨seat, hs, -⟩ := h.ready.1 (hr ▸ List.mem_cons_self)
  have hempty := h.empty hs
  simp only [reduceCtorEq, or_false] at hempty
  refine ⟨seat, hs, ?_⟩
  obtain ⟨task, ticket⟩ := seat
  have hs' : ({ d with ready := rest } : Dispatcher τ).seats[id]? = some ⟨task, ticket⟩ := hs
  cases task with
  | none =>
    refine .inr ⟨rfl, hempty.1 rfl, ?_⟩
    rw [checkOut, hs']
    rfl
  | some task =>
    refine .inl ⟨task, rfl, Bool.eq_false_iff.2 (fun hf => nomatch hempty.2 hf), ?_⟩
    rw [checkOut, hs']
    rfl

theorem Seated.begin (h : d.Seated none) (hr : d.ready = id :: rest) {seat : Seat τ}
    (hs : d.seats[id]? = some seat) (hf : d.hasFinished seat.ticket = false) (polls : Nat) :
    Seated { (d.unqueue seat.ticket rest).setTask id seat.ticket none with polls := polls }
      (some (id, seat.ticket)) := by
  have hu := h.unqueue hr hs
  have hholder : (d.unqueue seat.ticket rest).holder? id = some seat.ticket :=
    (holder?_unqueue ..).trans (holder?_eq_some.2 ⟨⟨seat, hs, rfl⟩, hf⟩)
  have hset : ((d.unqueue seat.ticket rest).setTask id seat.ticket none).Seated (some (id, seat.ticket)) :=
    hu.setTask hs (by simp) (fun {k i} hk => by simp [Ne.symm hk]) fun {k i} hp => by
      obtain ⟨rfl, rfl⟩ := Prod.mk.inj (Option.some.inj hp)
      exact hholder
  exact ⟨hset.ticket, hset.seat, hset.ready, hset.nodup, hset.empty, hset.polled⟩

end

theorem Seated.checkIn (h : d.Seated (some (id, i))) (task : τ) :
    (d.checkIn id task).Seated none ∧ (d.checkIn id task).due = d.due := by
  obtain ⟨⟨seat, hs, rfl⟩, hf⟩ := holder?_eq_some.1 (h.polled rfl)
  have hin : d.checkIn id task = d.setTask id seat.ticket (some task) := by
    rw [Dispatcher.checkIn, hs]
    rfl
  rw [hin]
  exact ⟨h.setTask hs (by simp [hf]) (fun {k j} hk => by simp [Ne.symm hk]) (by simp), due_setTask hs _⟩

theorem Seated.lt_of_polled (h : d.Seated (some (id, i))) : i < d.tickets.size := by
  obtain ⟨⟨seat, hs, rfl⟩, -⟩ := holder?_eq_some.1 (h.polled rfl)
  obtain ⟨entry, hentry, -⟩ := h.ticket hs
  exact (Array.getElem?_eq_some_iff.1 hentry).1

theorem holder?_finish (hlt : i < d.tickets.size) (k : SeatId) :
    (d.finish i).holder? k = (d.holder? k).filter (· != i) := by
  simp only [holder?, Option.filter_filter, seats_finish, hasFinished_finish hlt]
  congr 1
  funext j
  by_cases hj : j = i
  · simp [hj]
  · simp [bne]

theorem due_finish (hlt : i < d.tickets.size) : (d.finish i).due = d.due.filter (· != i) := by
  unfold due
  rw [List.filter_filterMap]
  exact congrArg (List.filterMap · d.ready) (funext (holder?_finish hlt))

theorem Seated.finish (h : d.Seated (some (id, i))) : (d.finish i).Seated none := by
  have hlt := h.lt_of_polled
  have hf := hasFinished_finish hlt
  obtain ⟨⟨polled, hpolled, hticket⟩, -⟩ := holder?_eq_some.1 (h.polled rfl)
  have htickets (j : Ticket) : (d.finish i).tickets[j]? =
      if i = j then d.tickets[j]?.map ({ · with finished := true }) else d.tickets[j]? :=
    Array.getElem?_modify ..
  refine ⟨fun {k seat} hs => ?_, fun {j entry} hj hfj => ?_, fun {k} => ?_, h.nodup, fun {k seat} hs => ?_,
    nofun⟩
  · obtain ⟨entry, hentry, htask⟩ := h.ticket hs
    rw [htickets, hentry]
    split
    · exact ⟨_, rfl, htask⟩
    · exact ⟨_, rfl, htask⟩
  · rw [htickets] at hj
    split at hj
    · obtain ⟨entry, -, rfl⟩ := Option.map_eq_some_iff.1 hj
      cases hfj
    · exact h.seat hj hfj
  · simp only [isQueued_finish, seats_finish]
    exact h.ready
  · rw [hf, h.empty hs, Bool.or_eq_true, beq_iff_eq]
    simp only [Option.some.injEq, Prod.mk.injEq, reduceCtorEq, or_false]
    refine or_congr_right ⟨fun he => he.2.symm, fun he => ⟨?_, he.symm⟩⟩
    exact h.seat_unique hpolled hs (hticket.trans he.symm)

theorem getElem?_finishAll (seats : List (Seat τ)) (d : Dispatcher τ) (i : Ticket) :
    (seats.foldl (fun d seat => d.finish seat.ticket) d).tickets[i]? =
      d.tickets[i]?.map fun entry =>
        { entry with finished := entry.finished || seats.any (·.ticket == i) } := by
  induction seats generalizing d with
  | nil => simp
  | cons seat rest ih =>
    rw [List.foldl_cons, ih]
    simp only [finish, Array.getElem?_modify, List.any_cons]
    by_cases hi : seat.ticket = i
    · cases d.tickets[i]? <;> simp [hi]
    · simp [hi, beq_false_of_ne hi]

theorem size_finishAll (seats : List (Seat τ)) (d : Dispatcher τ) :
    (seats.foldl (fun d seat => d.finish seat.ticket) d).tickets.size = d.tickets.size := by
  induction seats generalizing d with
  | nil => rfl
  | cons seat rest ih => exact (ih _).trans Array.size_modify

@[simp] theorem size_tickets_endAll (d : Dispatcher τ) : d.endAll.tickets.size = d.tickets.size := by
  simp only [endAll, ← Array.foldl_toList]
  exact size_finishAll ..

theorem Seated.hasFinished_endAll (h : d.Seated none) (hlt : i < d.tickets.size) :
    d.endAll.hasFinished i = true := by
  have hentry : d.tickets[i]? = some d.tickets[i] := Array.getElem?_eq_getElem hlt
  simp only [hasFinished, endAll, ← Array.foldl_toList, getElem?_finishAll, hentry, Option.map_some,
    Option.any_some, Bool.or_eq_true, List.any_eq_true, beq_iff_eq]
  cases hf : d.tickets[i].finished with
  | true => exact .inl rfl
  | false =>
    obtain ⟨seat, hs, rfl⟩ := h.seat hentry hf
    exact .inr ⟨seat, Array.mem_toList_iff.2 (Array.mem_of_getElem? hs), rfl⟩

theorem Seated.endAll (h : d.Seated none) : d.endAll.Seated none := by
  have hseats (id : SeatId) : d.endAll.seats[id]? = none := Array.getElem?_empty
  refine ⟨fun hs => ?_, fun {i entry} hi hf => ?_, fun {id} => ?_, .nil, fun hs => ?_, nofun⟩
  · cases (hseats _).symm.trans hs
  · have hlt := (Array.getElem?_eq_some_iff.1 hi).1
    rw [size_tickets_endAll] at hlt
    exact absurd ((hasFinished_of_entry hi).symm.trans (h.hasFinished_endAll hlt)) (by simp [hf])
  · refine iff_of_false List.not_mem_nil ?_
    rintro ⟨seat, hs, -⟩
    cases (hseats _).symm.trans hs
  · cases (hseats _).symm.trans hs

def seated (d : Dispatcher τ) : List Ticket := (d.seats.map (·.ticket)).toList

theorem unfinished_eq (d : Dispatcher τ) : d.unfinished = d.seated.countP fun i => !d.hasFinished i := by
  rw [seated, Array.countP_toList, Array.countP_map]
  rfl

theorem Seated.nodup_seated (h : d.Seated polled) : d.seated.Nodup := by
  rw [List.nodup_iff_getElem?_ne_getElem?]
  intro k k' hlt hlt' he
  simp only [seated, Array.getElem?_toList, Array.getElem?_map] at he
  have hlt' : k' < d.seats.size := by simpa [seated] using hlt'
  obtain ⟨seat, hs⟩ : ∃ seat, d.seats[k]? = some seat :=
    ⟨_, Array.getElem?_eq_getElem (Nat.lt_trans hlt hlt')⟩
  obtain ⟨seat', hs'⟩ : ∃ seat, d.seats[k']? = some seat := ⟨_, Array.getElem?_eq_getElem hlt'⟩
  rw [hs, hs'] at he
  exact absurd (h.seat_unique hs hs' (Option.some.inj he)) (Nat.ne_of_lt hlt)

theorem unfinished_of_same (hs : d'.seated = d.seated) (hf : ∀ i, d'.hasFinished i = d.hasFinished i) :
    d'.unfinished = d.unfinished := by
  simp only [unfinished_eq, hs, hf]

theorem seated_setTask {seat : Seat τ} (hs : d.seats[id]? = some seat) (task : Option τ) :
    (d.setTask id seat.ticket task).seated = d.seated := by
  refine List.ext_getElem? fun k => ?_
  simp only [seated, Array.getElem?_toList, Array.getElem?_map, getElem?_setTask hs]
  split
  · next hk =>
    rw [hk, hs]
    rfl
  · rfl

theorem unfinished_wake (d : Dispatcher τ) (i : Ticket) : (d.wake i).unfinished = d.unfinished :=
  unfinished_of_same (by simp [seated]) (hasFinished_wake d i)

theorem unfinished_unqueue (d : Dispatcher τ) (ticket : Ticket) (rest : List SeatId) :
    (d.unqueue ticket rest).unfinished = d.unfinished :=
  unfinished_of_same rfl (hasFinished_unqueue d ticket rest)

theorem unfinished_setTask {seat : Seat τ} (hs : d.seats[id]? = some seat) (task : Option τ) :
    (d.setTask id seat.ticket task).unfinished = d.unfinished :=
  unfinished_of_same (seated_setTask hs task) fun _ => rfl

theorem unfinished_spawn (d : Dispatcher τ) (task : τ) : (d.spawn task).unfinished = d.unfinished + 1 := by
  have hf : (d.spawn task).hasFinished = d.hasFinished := funext (hasFinished_spawn d task)
  have hs : (d.spawn task).seated = d.seated ++ [d.tickets.size] := by simp [seated, spawn]
  simp [unfinished_eq, hs, hf, hasFinished_size]

theorem Seated.unfinished_finish (h : d.Seated (some (id, i))) :
    (d.finish i).unfinished + 1 = d.unfinished := by
  obtain ⟨⟨seat, hs, rfl⟩, hf⟩ := holder?_eq_some.1 (h.polled rfl)
  have hmem : seat.ticket ∈ d.seated.filter fun i => !d.hasFinished i :=
    List.mem_filter.2 ⟨Array.mem_toList_iff.2 (Array.mem_map.2 ⟨seat, Array.mem_of_getElem? hs, rfl⟩),
      by simp [hf]⟩
  have hleft : (d.finish seat.ticket).seated.filter (fun i => !(d.finish seat.ticket).hasFinished i) =
      (d.seated.filter fun i => !d.hasFinished i).erase seat.ticket := by
    rw [(h.nodup_seated.filter _).erase_eq_filter, List.filter_filter]
    refine congrArg (List.filter · d.seated) (funext fun j => ?_)
    rw [hasFinished_finish h.lt_of_polled, Bool.not_or, Bool.and_comm]
    rfl
  rw [unfinished_eq, unfinished_eq, List.countP_eq_length_filter, List.countP_eq_length_filter, hleft,
    List.length_erase_of_mem hmem]
  exact Nat.succ_pred_eq_of_pos (List.length_pos_of_mem hmem)

end RacePuzzle.Dispatcher
