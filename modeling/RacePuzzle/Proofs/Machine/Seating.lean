import RacePuzzle.Proofs.Machine.Casting
import RacePuzzle.Machine.Dispatcher

/-! What of the tasks of one dispatcher shows in another. Both wake, seat and poll what shows in the
same order; what is hidden comes in between and leaves no mark. -/
namespace RacePuzzle

variable {τ : Type}

structure TicketEntry.Sees (seat : Roster) (e : TicketEntry) (o : Option TicketEntry) : Prop where
  task : seat e.task (o.map (·.task))
  queued : ∀ e' ∈ o, e'.queued = e.queued
  finished : ∀ e' ∈ o, e'.finished = e.finished

theorem TicketEntry.Sees.mono {seat seat' : Roster} {e : TicketEntry} {o : Option TicketEntry}
    (h : e.Sees seat o) (hseat : ∀ {i p}, seat i p → seat' i p) : e.Sees seat' o :=
  ⟨hseat h.task, h.queued, h.finished⟩

theorem TicketEntry.Sees.setQueued {seat : Roster} {e : TicketEntry} {o : Option TicketEntry}
    (h : e.Sees seat o) (queued : Bool) :
    TicketEntry.Sees seat { e with queued := queued } (o.map ({ · with queued := queued })) := by
  cases o with
  | none => exact ⟨h.task, nofun, nofun⟩
  | some e' => exact ⟨h.task, fun _ he => Option.some.inj he ▸ rfl, fun _ he =>
      Option.some.inj he ▸ h.finished e' rfl⟩

theorem TicketEntry.Sees.setFinished {seat : Roster} {e : TicketEntry} {o : Option TicketEntry}
    (h : e.Sees seat o) (finished : Bool) :
    TicketEntry.Sees seat { e with finished := finished } (o.map ({ · with finished := finished })) := by
  cases o with
  | none => exact ⟨h.task, nofun, nofun⟩
  | some e' => exact ⟨h.task, fun _ he => Option.some.inj he ▸ h.queued e' rfl, fun _ he =>
      Option.some.inj he ▸ rfl⟩

structure Seat.Sees (T : τ → Option τ → Prop) (seat : Roster) (s : Seat τ) (o : Option (Seat τ)) :
    Prop where
  ticket : seat s.ticket (o.map (·.ticket))
  hidden : o = none → ∀ x ∈ s.task, T x none
  shown : ∀ s' ∈ o, Option.Rel (fun x x' => T x (some x')) s.task s'.task

theorem Seat.Sees.mono {T T' : τ → Option τ → Prop} {seat seat' : Roster} {s : Seat τ}
    {o : Option (Seat τ)} (h : s.Sees T seat o) (hT : ∀ {x p}, T x p → T' x p)
    (hseat : ∀ {i p}, seat i p → seat' i p) : s.Sees T' seat' o := by
  refine ⟨hseat h.ticket, fun ho x hx => hT (h.hidden ho x hx), fun s' hs' => ?_⟩
  have hrel := h.shown s' hs'
  generalize s.task = x at hrel ⊢
  generalize s'.task = x' at hrel ⊢
  cases hrel with
  | some hx => exact .some (hT hx)
  | none => exact .none

/-- What shows of `d` is in `d'`; the tasks are related by `T`. -/
structure Dispatcher.Sees (T : τ → Option τ → Prop) (seat : Roster) (d d' : Dispatcher τ) : Prop where
  tickets : seat.Lists (TicketEntry.Sees seat) d.tickets d'.tickets
  seats : seat.Lists (Seat.Sees T seat) d.seats d'.seats
  ready : Sifted seat d.ready d'.ready

namespace Dispatcher.Sees

variable {T T' : τ → Option τ → Prop} {seat : Roster} {d d' : Dispatcher τ} {i i' : SeatId}
  {ticket ticket' : Ticket} {o : Option Ticket} {task task' : τ}

theorem mono (h : d.Sees T seat d') (hT : ∀ {x p}, T x p → T' x p) : d.Sees T' seat d' :=
  ⟨h.tickets, h.seats.mono fun _ _ hs => hs.mono hT id, h.ready⟩

theorem wake (h : d.Sees T seat d') (ho : seat ticket o) :
    (d.wake ticket).Sees T seat (o.elim d' d'.wake) := by
  unfold Dispatcher.wake
  cases o with
  | none =>
    obtain ⟨e, he, hsees⟩ := h.tickets.exists_get ho
    rw [he]
    dsimp only
    split
    · exact h
    · refine ⟨h.tickets.setLeft ho (hsees.setQueued true), h.seats, ?_⟩
      rw [Option.elim_none, ← List.append_nil d'.ready]
      exact h.ready.append (.single hsees.task)
  | some ticket' =>
    obtain ⟨e, e', he, he', hsees⟩ := h.tickets.exists_get_shown ho
    have hsame : (e'.finished || e'.queued) = (e.finished || e.queued) := by
      rw [hsees.finished e' rfl, hsees.queued e' rfl]
    rw [Option.elim_some, he, he']
    dsimp only
    rw [hsame]
    split
    · exact h
    · exact ⟨h.tickets.setShown ho (hsees.setQueued true), h.seats, h.ready.append (.single hsees.task)⟩

theorem wakeAll (h : d.Sees T seat d') {l l' : List Ticket} (hl : Sifted seat l l') :
    (d.wakeAll l).Sees T seat (d'.wakeAll l') := by
  induction hl generalizing d d' with
  | nil => exact h
  | hidden ho _ ih => exact ih (h.wake ho)
  | shown ho _ ih => exact ih (h.wake ho)

/-- The seats and the tickets have the same numbers. -/
theorem size_seats (h : d.Sees T seat d') :
    d.seats.size = d.tickets.size ∧ d'.seats.size = d'.tickets.size :=
  h.seats.fits.size_eq h.tickets.fits

theorem spawnHidden (h : d.Sees T seat d') (hT : T task none) :
    (d.spawn task).Sees T (seat.add d.seats.size none) d' := by
  have hseat : ∀ {i p}, seat i p → seat.add d.seats.size none i p := .inl
  have hself := seat.add_self d.seats.size none
  have htickets := (h.tickets.mono fun _ _ he => he.mono hseat).addHidden
    (x := ⟨d.seats.size, true, false⟩)
  have hseats := (h.seats.mono fun _ _ hs => hs.mono id hseat).addHidden
    (x := ⟨some task, d.tickets.size⟩)
  have hsize := h.size_seats.1
  refine ⟨?_, hseats ⟨hsize ▸ hself, fun _ x hx => Option.some.inj hx ▸ hT, nofun⟩, ?_⟩
  · rw [← hsize] at htickets
    exact htickets ⟨hself, nofun, nofun⟩
  · have hready := (h.ready.mono fun _ _ => hseat).append (.single hself)
    rwa [Option.toList_none, List.append_nil] at hready

theorem spawnShown (h : d.Sees T seat d') (hT : T task (some task')) :
    (d.spawn task).Sees T (seat.add d.seats.size (some d'.seats.size)) (d'.spawn task') := by
  have hseat : ∀ {i p}, seat i p → seat.add d.seats.size (some d'.seats.size) i p := .inl
  have hself := seat.add_self d.seats.size (some d'.seats.size)
  have htickets := (h.tickets.mono fun _ _ he => he.mono hseat).addShown
    (x := ⟨d.seats.size, true, false⟩) (y := ⟨d'.seats.size, true, false⟩)
  have hseats := (h.seats.mono fun _ _ hs => hs.mono id hseat).addShown
    (x := ⟨some task, d.tickets.size⟩) (y := ⟨some task', d'.tickets.size⟩)
  obtain ⟨hsize, hsize'⟩ := h.size_seats
  refine ⟨?_, hseats ⟨?_, nofun, fun _ hs => Option.some.inj hs ▸ .some hT⟩, ?_⟩
  · rw [← hsize, ← hsize'] at htickets
    exact htickets ⟨hself, fun _ he => Option.some.inj he ▸ rfl, fun _ he => Option.some.inj he ▸ rfl⟩
  · rw [← hsize, ← hsize']
    exact hself
  · exact (h.ready.mono fun _ _ => hseat).append (.single hself)

theorem checkOutHidden (h : d.Sees T seat d') (hi : seat i none) :
    (∀ p ∈ (d.checkOut i).1, seat p.1 none ∧ T p.2 none) ∧ (d.checkOut i).2.Sees T seat d' := by
  obtain ⟨s, hs, hsees⟩ := h.seats.exists_get hi
  have htickets := h.tickets.modify hsees.ticket fun _ _ he => he.setQueued false
  unfold Dispatcher.checkOut
  rw [hs]
  obtain ⟨x, ticket⟩ := s
  cases x with
  | none => exact ⟨nofun, htickets, h.seats, h.ready⟩
  | some task =>
    have hfree : Seat.Sees T seat ⟨none, ticket⟩ none := ⟨hsees.ticket, nofun, nofun⟩
    refine ⟨fun p hp => ?_, htickets, h.seats.setLeft hi hfree, h.ready⟩
    obtain rfl := Option.some.inj hp
    exact ⟨hsees.ticket, hsees.hidden rfl task rfl⟩

theorem checkOutShown (h : d.Sees T seat d') (hi : seat i (some i')) :
    Option.Rel (fun p p' => seat p.1 (some p'.1) ∧ T p.2 (some p'.2)) (d.checkOut i).1
      (d'.checkOut i').1 ∧ (d.checkOut i).2.Sees T seat (d'.checkOut i').2 := by
  obtain ⟨s, s', hs, hs', hsees⟩ := h.seats.exists_get_shown hi
  have htickets := h.tickets.modify hsees.ticket fun _ _ he => he.setQueued false
  have htask := hsees.shown s' rfl
  unfold Dispatcher.checkOut
  rw [hs, hs']
  obtain ⟨x, ticket⟩ := s
  obtain ⟨x', ticket'⟩ := s'
  cases htask with
  | none => exact ⟨.none, htickets, h.seats, h.ready⟩
  | some hT =>
    have hfree : Seat.Sees T seat ⟨none, ticket⟩ (some ⟨none, ticket'⟩) :=
      ⟨hsees.ticket, nofun, fun _ hs => Option.some.inj hs ▸ .none⟩
    exact ⟨.some ⟨hsees.ticket, hT⟩, htickets, h.seats.setShown hi hfree, h.ready⟩

theorem checkInHidden (h : d.Sees T seat d') (hi : seat i none) (hT : T task none) :
    (d.checkIn i task).Sees T seat d' := by
  obtain ⟨s, hs, hsees⟩ := h.seats.exists_get hi
  unfold Dispatcher.checkIn
  rw [hs]
  exact ⟨h.tickets, h.seats.setLeft hi ⟨hsees.ticket, fun _ _ hx => Option.some.inj hx ▸ hT, nofun⟩,
    h.ready⟩

theorem checkInShown (h : d.Sees T seat d') (hi : seat i (some i')) (hT : T task (some task')) :
    (d.checkIn i task).Sees T seat (d'.checkIn i' task') := by
  obtain ⟨s, s', hs, hs', hsees⟩ := h.seats.exists_get_shown hi
  unfold Dispatcher.checkIn
  rw [hs, hs']
  refine ⟨h.tickets, h.seats.setShown hi ⟨hsees.ticket, nofun, fun _ hs => ?_⟩, h.ready⟩
  exact Option.some.inj hs ▸ .some hT

theorem finish (h : d.Sees T seat d') (ho : seat ticket o) :
    (d.finish ticket).Sees T seat (o.elim d' d'.finish) := by
  have htickets := h.tickets.modify ho fun _ _ he => he.setFinished true
  cases o with
  | none => exact ⟨htickets, h.seats, h.ready⟩
  | some ticket' => exact ⟨htickets, h.seats, h.ready⟩

end Dispatcher.Sees

end RacePuzzle
