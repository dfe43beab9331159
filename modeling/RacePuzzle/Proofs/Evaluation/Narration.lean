import RacePuzzle.Proofs.Evaluation.Instants
import RacePuzzle.Proofs.Evaluation.Tally

/-! The narrative of a run. It has the values in their order and the pauses between them, in seconds. Where
delays take whole seconds no time is lost by that, and where no text looks like a pause, one who listens
from the beginning knows every value with its time. -/
namespace RacePuzzle

def pauseWords (seconds : Nat) : String := "(" ++ toString seconds ++ " sec)"

def secondsOf? (words : String) : Option Nat :=
  let seconds := Nat.ofDigitChars 10 (words.toList.filter Char.isDigit) 0
  if words = pauseWords seconds then some seconds else none

/-- The values of a narrative with their times, where it begins at `time`. -/
def listen (time : Nat) : List String → List TimedPrint
  | [] => []
  | words :: rest =>
    match secondsOf? words with
    | some seconds => listen (time + 1000 * seconds) rest
    | none => ⟨words, time⟩ :: listen time rest

theorem secondsOf?_pauseWords (seconds : Nat) : secondsOf? (pauseWords seconds) = some seconds := by
  have hdigits : ∀ c ∈ Nat.toDigits 10 seconds, c.isDigit = true := fun c hc =>
    Nat.isDigit_of_mem_toDigits (by decide) (by decide) hc
  have hfilter : (pauseWords seconds).toList.filter Char.isDigit = Nat.toDigits 10 seconds := by
    simpa [pauseWords, Nat.toString_eq_repr] using hdigits
  rw [secondsOf?, hfilter, Nat.ofDigitChars_ten_toDigits, if_pos rfl]

theorem secondsOf?_eq_none {words : String} (h : ∀ seconds, words ≠ pauseWords seconds) :
    secondsOf? words = none :=
  if_neg (h _)

theorem secondsOf?_marker (ending : Ending) : secondsOf? ending.marker = none := by
  cases ending <;> decide

theorem secondsOf?_handlerText : secondsOf? handlerText = none := by decide

theorem head?_pauseWords (seconds : Nat) : (pauseWords seconds).toList.head? = some '(' := by
  simp [pauseWords]

theorem listen_pause {time later : Nat} (htime : 1000 ∣ time) (hlater : 1000 ∣ later)
    (hle : time ≤ later) (words : List String) :
    listen time (Evaluation.pause time later ++ words) = listen later words := by
  unfold Evaluation.pause
  split
  · next he => rw [he, List.nil_append]
  · have hsum : time + 1000 * ((later - time) / 1000) = later := by
      rw [Nat.mul_div_cancel' (Nat.dvd_sub hlater htime), Nat.add_sub_cancel' hle]
    have hpause : listen time (pauseWords ((later - time) / 1000) :: words) =
        listen (time + 1000 * ((later - time) / 1000)) words := by
      rw [listen, secondsOf?_pauseWords]
    rw [hsum] at hpause
    exact hpause

/-- One who listens to values at whole seconds, in the order of their times, knows when they came. -/
theorem listen_narrate {time : Nat} {l : List TimedPrint} (htime : 1000 ∣ time)
    (hfrom : ∀ event ∈ l, time ≤ event.time) (hsorted : l.Pairwise fun e e' => e.time ≤ e'.time)
    (hseconds : ∀ event ∈ l, 1000 ∣ event.time) (hvalues : ∀ event ∈ l, secondsOf? event.value = none) :
    listen time (Evaluation.narrate time l) = l := by
  induction l generalizing time with
  | nil => rfl
  | cons event rest ih =>
    obtain ⟨hfirst, hsorted⟩ := List.pairwise_cons.1 hsorted
    obtain ⟨hevent, hseconds⟩ := List.forall_mem_cons.1 hseconds
    obtain ⟨hvalue, hvalues⟩ := List.forall_mem_cons.1 hvalues
    have hle : time ≤ event.time := hfrom event List.mem_cons_self
    rw [Evaluation.narrate, listen_pause htime hevent hle, listen, hvalue]
    exact congrArg (event :: ·) (ih hevent hfirst hsorted hseconds hvalues)

example : listen 0 ["A", "(2 sec)", "B", "(done)"] = [⟨"A", 0⟩, ⟨"B", 2000⟩, ⟨"(done)", 2000⟩] := by
  decide

variable {t : Statement} {L : Ledger} {s : Snapshot}

/-- A whole number of seconds, or the last instant, which the clock does not pass. -/
def OnTheSecond (time : Nat) : Prop := 1000 ∣ time ∨ Machine.maxTime ≤ time

theorem OnTheSecond.add {time d : Nat} (h : OnTheSecond time) (hd : 1000 ∣ d) :
    OnTheSecond (min (time + d) Machine.maxTime) := by
  unfold OnTheSecond at h ⊢
  omega

theorem Snapshot.Upheld.mem_delays (h : s.Upheld t L) {d : Nat} (hd : s.delay? = some d) : d ∈ t.delays := by
  unfold Snapshot.delay? at hd
  split at hd
  · next hf => exact List.mem_filterMap.2 ⟨_, h.mem_of_begins ⟨_, _, _, _, hf⟩, hd⟩
  · cases hd

/-- Where delays take whole seconds, all times of a run are whole seconds. -/
theorem History.onTheSecond (hdelays : ∀ d ∈ t.delays, 1000 ∣ d) (h : History t L s) :
    s.AllTimes OnTheSecond := by
  induction h with
  | start => exact Snapshot.allTimes_initial t (.inl (Nat.dvd_zero _))
  | next h hs _ _ ih =>
    exact ih.step hs h.upheld (fun _ htime => htime) fun d hd =>
      ih.now.add (hdelays d (h.upheld.mem_delays hd))

namespace Statement

/-- A run comes to rest by the horizon. Its timeline has the prints up to then, and then the marker at the
end of the program or at the horizon. -/
theorem exists_timeline (t : Statement) (limits : Limits) :
    ∃ (L : Ledger) (r : ProgramMachine) (marker : String) (time : Nat), History t L ⟨r, .idle⟩ ∧
      (t.evaluateWithin limits).timeline = prints r ++ [⟨marker, time⟩] ∧ time ≤ limits.horizon ∧
      (∀ p ∈ prints r, p.time ≤ time) ∧
      ((∃ result, r.env.ending = some (result, time)) ∨ time = limits.horizon) := by
  obtain ⟨r, hrests, henv⟩ := t.exists_restsAt_runWith limits
  obtain ⟨L, h⟩ := hrests.reaches.history
  obtain ⟨k, hrests⟩ := hrests
  have hnow : r.now ≤ limits.horizon := now_le_of_restsAt hrests .start (Nat.zero_le _)
  have hprints : prints (t.runWith limits).2 = prints r := prints_congr henv
  rcases t.evaluateWithin_cases limits with ⟨result, time, hended, he⟩ | he
  · rw [henv] at hended
    refine ⟨L, r, (Ending.ofCompletion result).marker, time, h, ?_,
      Nat.le_trans (h.ending_le_now hended) hnow, fun p hp => h.print_le_ending hended hp,
      .inl ⟨result, hended⟩⟩
    rw [he, hprints, Evaluation.timeline]
  · refine ⟨L, r, Ending.neverCompletes.marker, limits.horizon, h, ?_, Nat.le_refl _,
      fun p hp => Nat.le_trans (h.print_le_now hp) hnow, .inr rfl⟩
    rw [he, hprints, Evaluation.timeline]

theorem timeline_sorted (t : Statement) (limits : Limits) :
    (t.evaluateWithin limits).timeline.Pairwise fun e e' => e.time ≤ e'.time := by
  obtain ⟨L, r, marker, time, h, he, -, hle, -⟩ := t.exists_timeline limits
  rw [he]
  refine List.pairwise_append.2 ⟨h.prints_sorted, List.pairwise_singleton _ _, fun p hp e hmarker => ?_⟩
  obtain rfl := List.mem_singleton.1 hmarker
  exact hle p hp

/-- Nothing is rounded where delays take whole seconds and the horizon is at a whole second too. -/
theorem timeline_seconds (hdelays : ∀ d ∈ t.delays, 1000 ∣ d) {limits : Limits}
    (hhorizon : 1000 ∣ limits.horizon) (hmax : limits.horizon < Machine.maxTime) :
    ∀ event ∈ (t.evaluateWithin limits).timeline, 1000 ∣ event.time := by
  obtain ⟨L, r, marker, time, h, he, htime, hle, hend⟩ := t.exists_timeline limits
  have hall := h.onTheSecond hdelays
  have hseconds : ∀ time' ≤ time, OnTheSecond time' → 1000 ∣ time' := fun time' hle' hon =>
    hon.resolve_right (by omega)
  rw [he]
  refine List.forall_mem_append.2 ⟨fun p hp => ?_, List.forall_mem_singleton.2 ?_⟩
  · obtain ⟨e, hmem, hevent⟩ := List.mem_filterMap.1 hp
    exact hseconds _ (hle p hp) ((TraceEntry.of_event? hevent).2 ▸ hall.trace e hmem)
  · rcases hend with ⟨result, hended⟩ | hlast
    · exact hseconds time (Nat.le_refl _) (hall.ending hended)
    · exact hlast ▸ hhorizon

end Statement

/-- The results that handles stand for are those of the program. -/
theorem History.result_mem (h : History t L s) {var text : String} {j : JobId}
    (hmem : (var, .deferred j text) ∈ s.machine.env.handles) : text ∈ t.valuesOf .strings := by
  induction h with
  | start => cases hmem
  | next h hs _ _ ih =>
    rcases (Snapshot.notes_step h.upheld hs).handles with ⟨-, hsame⟩ | ⟨var', handle, hbinds, hnew, -⟩
    · exact ih (hsame ▸ hmem)
    · rw [hnew] at hmem
      rcases List.mem_cons.1 hmem with he | hmem
      · obtain ⟨rfl, rfl⟩ := Prod.mk.inj he
        cases hbinds with
        | deferred hbegins => exact List.mem_filterMap.2 ⟨_, h.upheld.mem_of_begins hbegins, rfl⟩
      · exact ih hmem

namespace Statement

/-- What a run prints is a text of the program, unless a handler prints it. -/
theorem value_of_event {limits : Limits} {event : TimedPrint}
    (hevent : event ∈ (t.evaluateWithin limits).events) :
    event.value = handlerText ∨ event.value ∈ t.valuesOf .strings := by
  by_contra hother
  -- no leaf has a text that is neither
  let kind (text : String) : Bool := decide ¬ (text = handlerText ∨ text ∈ t.valuesOf .strings)
  have hkind : ∀ text ∈ t.valuesOf .strings, kind text = false := fun text hmem => by simp [kind, hmem]
  have hle : (t.evaluateWithin limits).events.countP (kind ·.value) ≤
      t.nodes.countP (·.printedText?.any kind) :=
    t.countP_events_le_of_stands (by simp [kind])
      (fun h _ _ _ _ _ _ hlookup hresult =>
        absurd hresult (Bool.eq_false_iff.1 (hkind _ (h.result_mem (mem_of_lookup hlookup))))) limits
  have hnone : t.nodes.countP (·.printedText?.any kind) = 0 := by
    refine List.countP_eq_zero.2 fun s hs hany => ?_
    obtain ⟨text, htext, hk⟩ := (Option.any_eq_true _ _).1 hany
    have hmem := printed_subset_strings t.nodes (List.mem_filterMap.2 ⟨s, hs, htext⟩)
    exact Bool.eq_false_iff.1 (hkind text hmem) hk
  have hpos : 0 < (t.evaluateWithin limits).events.countP (kind ·.value) :=
    List.countP_pos_iff.2 ⟨event, hevent, decide_eq_true hother⟩
  omega

/-- Delays take whole seconds, and no text is the words for a pause. -/
structure Tellable (t : Statement) : Prop where
  delays : ∀ d ∈ t.delays, 1000 ∣ d
  texts : ∀ text ∈ t.valuesOf .strings, ∀ seconds, text ≠ pauseWords seconds

theorem Tellable.timeline_values (h : t.Tellable) {event : TimedPrint}
    (hevent : event ∈ t.evaluate.timeline) : secondsOf? event.value = none := by
  rcases List.mem_append.1 hevent with hevent | hmarker
  · rcases t.value_of_event hevent with hhandler | hmem
    · rw [hhandler, secondsOf?_handlerText]
    · exact secondsOf?_eq_none (h.texts _ hmem)
  · obtain rfl := List.mem_singleton.1 hmarker
    exact secondsOf?_marker _

/-- One who listens to the narrative of a run knows its timeline. -/
theorem Tellable.listen_sequential (h : t.Tellable) :
    listen 0 t.evaluate.sequential = t.evaluate.timeline :=
  listen_narrate (Nat.dvd_zero _) (fun _ _ => Nat.zero_le _) (t.timeline_sorted .default)
    (timeline_seconds h.delays (by decide) (by decide)) fun _ => h.timeline_values

end Statement

end RacePuzzle
