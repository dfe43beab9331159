import Mathlib.Data.List.Basic
import RacePuzzle.Program.Source
import RacePuzzle.Proofs.Program.Place

/-! How a source is read. The line on which a statement opens tells all about it but what stands where its
block ends, and a line that begins with a name opens a statement and one that does not ends a block; so the
lines of a program show everything about it but its ids and the texts of its awaits. -/
namespace RacePuzzle

def IsName (var : String) : Prop := var.toList ≠ [] ∧ var.toList.all Char.isAlphanum = true

instance (var : String) : Decidable (IsName var) := inferInstanceAs (Decidable (_ ∧ _))

def Action.displayed : Action → Action
  | .printAwait var _ => .printAwait var ""
  | action => action

/-- A head without what stands at the end of its block. -/
def Head.outline : Head → Head
  | .async var _ => .async var ""
  | .tryCatch _ => .tryCatch .generic
  | head => head

namespace Statement

mutual
/-- The program without what its source does not show: ids and the texts of awaits. -/
def displayed : Statement → Statement
  | .leaf _ action => .leaf 0 action.displayed
  | .block _ head body => .block 0 head (bodyDisplayed body)
def bodyDisplayed : List Statement → List Statement
  | [] => []
  | s :: rest => s.displayed :: bodyDisplayed rest
end

/-- The line on which the statement opens, without its indentation. -/
def opening : Statement → String
  | .leaf _ action => action.source
  | .block _ head _ => head.opening ++ " " ++ openBrace

def outline : Statement → Action ⊕ Head
  | .leaf _ action => .inl action.displayed
  | .block _ head _ => .inr head.outline

def Named (s : Statement) : Prop := ∀ var, s.declares? = some var ∨ s.uses? = some var → IsName var

instance (s : Statement) : Decidable s.Named :=
  decidable_of_iff ((∀ var ∈ s.declares?, IsName var) ∧ ∀ var ∈ s.uses?, IsName var)
    ⟨fun h var hvar => hvar.elim (h.1 var) (h.2 var),
      fun h => ⟨fun var hd => h var (.inl hd), fun var hu => h var (.inr hu)⟩⟩

end Statement

namespace Reading

def word (line : List Char) : List Char := line.takeWhile Char.isAlphanum

def afterWord (line : List Char) : List Char := line.dropWhile Char.isAlphanum

theorem word_append {w rest : List Char} (hw : w.all Char.isAlphanum = true)
    (hrest : rest.head?.any Char.isAlphanum = false) :
    word (w ++ rest) = w ∧ afterWord (w ++ rest) = rest := by
  have hend : rest.takeWhile Char.isAlphanum = [] ∧ rest.dropWhile Char.isAlphanum = rest := by
    cases rest with
    | nil => exact ⟨rfl, rfl⟩
    | cons c rest =>
      have hc : c.isAlphanum = false := hrest
      exact ⟨List.takeWhile_cons_of_neg (by simp [hc]), List.dropWhile_cons_of_neg (by simp [hc])⟩
  have hall := List.all_eq_true.1 hw
  unfold word afterWord
  rw [List.takeWhile_append_of_pos hall, List.dropWhile_append_of_pos hall, hend.1, hend.2, List.append_nil]
  exact ⟨rfl, rfl⟩

/-- The text in quotation marks before a last parenthesis. -/
def quoted (text : List Char) : String := .ofList text.dropLast.dropLast

def number (text : List Char) : Nat := Nat.ofDigitChars 10 (text.takeWhile Char.isDigit) 0

/-- After a word and a point. -/
def call (w rest : List Char) : Action ⊕ Head :=
  if rest = "join()".toList then .inl (.join (.ofList w))
  else if rest = "cancel()".toList then .inl (.cancel (.ofList w))
  else if rest = "complete()".toList then .inl (.completeJob (.ofList w))
  else .inr .scopeLaunch

/-- After a word and a parenthesis. -/
def argument (w rest : List Char) : Action ⊕ Head :=
  if w = "delay".toList then .inl (.delay (number rest))
  else if rest.head? = some '"' then .inl (.print (quoted rest.tail))
  else .inl (.printAwait (.ofList (word rest)) "")

/-- After the name that is declared. -/
def declaration (var rest : List Char) : Action ⊕ Head :=
  if rest = " = Job()".toList then .inl (.job (.ofList var))
  else if rest = (" = launch " ++ openBrace).toList then .inr (.launchJob (.ofList var))
  else .inr (.async (.ofList var) "")

/-- After a word and a blank. -/
def phrase (w rest : List Char) : Action ⊕ Head :=
  if w = "throw".toList then
    .inl (.throwException ((ExceptionKind.all.find? fun kind => (kind.sourceName ++ "()").toList = rest).getD
      .generic))
  else if w = "val".toList then declaration (word rest) (afterWord rest)
  else if w = "launch".toList then .inr .launch
  else if w = "coroutineScope".toList then .inr .coroutineScope
  else if w = "supervisorScope".toList then .inr .supervisorScope
  else .inr (.tryCatch .generic)

/-- What follows a word after the letter that is no part of it. -/
def clause (w : List Char) (c : Char) (rest : List Char) : Action ⊕ Head :=
  if c = '.' then call w rest else if c = '(' then argument w rest else phrase w rest

/-- A line begins with a word, and what follows says `said`. -/
inductive Says : List Char → Action ⊕ Head → Prop
  | intro {w rest : List Char} {c : Char} {said : Action ⊕ Head} : w ≠ [] →
      w.all Char.isAlphanum = true → c.isAlphanum = false → clause w c rest = said →
      Says (w ++ c :: rest) said

theorem Says.unique {line : List Char} {said said' : Action ⊕ Head} (h : Says line said)
    (h' : Says line said') : said = said' := by
  obtain ⟨-, hw, hc, rfl⟩ := h
  generalize hline : _ ++ _ :: _ = line at h'
  obtain ⟨-, hw', hc', rfl⟩ := h'
  have hstop (c : Char) (rest : List Char) (hc : c.isAlphanum = false) :
      (c :: rest).head?.any Char.isAlphanum = false := hc
  obtain ⟨hword, hafter⟩ := word_append hw (hstop _ _ hc)
  obtain ⟨hword', hafter'⟩ := word_append hw' (hstop _ _ hc')
  rw [hline] at hword hafter
  obtain rfl := hword.symm.trans hword'
  cases hafter.symm.trans hafter'
  rfl

/-- Such a line begins with a letter or a digit. -/
theorem Says.opens {line : List Char} {said : Action ⊕ Head} (h : Says line said) :
    ∃ c ∈ line.head?, c.isAlphanum = true := by
  obtain ⟨hne, hw, -, -⟩ := h
  refine ⟨_, ?_, List.all_eq_true.1 hw _ (List.head_mem hne)⟩
  rw [List.head?_append_of_ne_nil _ hne, List.head?_eq_some_head hne]
  rfl

theorem number_repr (n : Nat) : number (n.repr.toList ++ [')']) = n := by
  have hdigits : ∀ c ∈ n.repr.toList, c.isDigit = true := fun c hc =>
    Nat.isDigit_of_mem_toDigits (by decide) (by decide) (Nat.toList_repr ▸ hc)
  have hend : ([')'] : List Char).takeWhile Char.isDigit = [] := by decide
  unfold number
  rw [List.takeWhile_append_of_pos hdigits, hend, List.append_nil, Nat.toList_repr,
    Nat.ofDigitChars_ten_toDigits]

theorem quoted_append (text : String) : quoted (text.toList ++ ['"', ')']) = text := by
  unfold quoted
  simp [List.dropLast_append_of_ne_nil]

/-- A line that calls a handle says which and what for. -/
theorem says_call {var : String} (h : IsName var) (rest : String) :
    Says (var ++ ("." ++ rest)).toList (call var.toList rest.toList) := by
  have htext : (var ++ ("." ++ rest)).toList = var.toList ++ '.' :: rest.toList := by
    simp only [String.toList_append]
    rfl
  rw [htext]
  exact .intro h.1 h.2 (by decide) rfl

/-- A line that declares a handle says its name and what follows it. -/
theorem says_declaration {var : String} (h : IsName var) {rest : String}
    (hrest : rest.toList.head?.any Char.isAlphanum = false) :
    Says ("val " ++ var ++ rest).toList (declaration var.toList rest.toList) := by
  have htext : ("val " ++ var ++ rest).toList = "val".toList ++ ' ' :: (var.toList ++ rest.toList) := by
    simp only [String.toList_append, List.append_assoc]
    rfl
  obtain ⟨hword, hafter⟩ := word_append h.2 hrest
  rw [htext]
  refine .intro (by decide) (by decide) (by decide) ?_
  rw [clause, if_neg (by decide), if_neg (by decide), phrase, if_neg (by decide), if_pos rfl, hword, hafter]

end Reading

open Reading

theorem Action.says_source {action : Action}
    (h : ∀ var, action.declares? = some var ∨ action.uses? = some var → IsName var) :
    Says action.source.toList (.inl action.displayed) := by
  cases action with
  | delay time =>
    have htext : (Action.delay time).source.toList =
        "delay".toList ++ '(' :: (time.repr.toList ++ [')']) := by
      rw [source]
      simp only [String.toList_append, List.append_assoc]
      rfl
    rw [htext]
    refine .intro (by decide) (by decide) (by decide) ?_
    rw [clause, if_neg (by decide), if_pos rfl, argument, if_pos rfl, number_repr]
    rfl
  | print text =>
    have htext : (Action.print text).source.toList =
        "println".toList ++ '(' :: '"' :: (text.toList ++ ['"', ')']) := by
      rw [source, stringLiteral]
      simp only [String.toList_append, List.append_assoc]
      rfl
    rw [htext]
    refine .intro (by decide) (by decide) (by decide) ?_
    rw [clause, if_neg (by decide), if_pos rfl, argument, if_neg (by decide), List.head?_cons, if_pos rfl,
      List.tail_cons, quoted_append]
    rfl
  | throwException kind =>
    have htext : (Action.throwException kind).source.toList =
        "throw".toList ++ ' ' :: (kind.sourceName ++ "()").toList := by
      rw [source]
      simp only [String.toList_append, List.append_assoc]
      rfl
    rw [htext]
    exact .intro (by decide) (by decide) (by decide) (by cases kind <;> decide)
  | job var =>
    have hsays := says_declaration (h var (.inl rfl)) (show " = Job()".toList.head?.any _ = _ by decide)
    rwa [declaration, if_pos rfl, String.ofList_toList] at hsays
  | printAwait var text =>
    have htext : (Action.printAwait var text).source.toList =
        "println".toList ++ '(' :: (var.toList ++ ".await())".toList) := by
      rw [source]
      simp only [String.toList_append, List.append_assoc]
      rfl
    obtain ⟨hne, hname⟩ := h var (.inr rfl)
    obtain ⟨hword, -⟩ := word_append hname (show ".await())".toList.head?.any _ = _ by decide)
    have hquote : (var.toList ++ ".await())".toList).head? ≠ some '"' := by
      rw [List.head?_append_of_ne_nil _ hne]
      exact fun hhead => absurd (List.all_eq_true.1 hname _ (List.mem_of_mem_head? hhead)) (by decide)
    rw [htext]
    refine .intro (by decide) (by decide) (by decide) ?_
    rw [clause, if_neg (by decide), if_pos rfl, argument, if_neg (by decide), if_neg hquote, hword,
      String.ofList_toList]
    rfl
  | join var =>
    have hsays := says_call (h var (.inr rfl)) "join()"
    rwa [call, if_pos rfl, String.ofList_toList] at hsays
  | cancel var =>
    have hsays := says_call (h var (.inr rfl)) "cancel()"
    rwa [call, if_neg (by decide), if_pos rfl, String.ofList_toList] at hsays
  | completeJob var =>
    have hsays := says_call (h var (.inr rfl)) "complete()"
    rwa [call, if_neg (by decide), if_neg (by decide), if_pos rfl, String.ofList_toList] at hsays

/-- The line on which a block opens says its head, as far as it goes. -/
theorem Head.says_opening {head : Head} (h : ∀ var, head.declares? = some var → IsName var) :
    Says (head.opening ++ " " ++ openBrace).toList (.inr head.outline) := by
  have hphrase (w : List Char) (hne : w ≠ []) (hw : w.all Char.isAlphanum = true) :
      Says (w ++ ' ' :: openBrace.toList) (phrase w openBrace.toList) := .intro hne hw (by decide) rfl
  cases head with
  | launchJob var =>
    have hsays := says_declaration (h var rfl) (show (" = launch " ++ openBrace).toList.head?.any _ = _ by decide)
    rw [declaration, if_neg (by decide), if_pos rfl, String.ofList_toList] at hsays
    rwa [opening, String.append_assoc, String.append_assoc]
  | async var result =>
    have hsays := says_declaration (h var rfl) (show (" = async " ++ openBrace).toList.head?.any _ = _ by decide)
    rw [declaration, if_neg (by decide), if_neg (by decide), String.ofList_toList] at hsays
    rwa [opening, String.append_assoc, String.append_assoc]
  | launch => exact hphrase "launch".toList (by decide) (by decide)
  | scopeLaunch =>
    exact .intro (w := "backgroundScope".toList) (c := '.') (by decide) (by decide) (by decide) (by decide)
  | coroutineScope => exact hphrase "coroutineScope".toList (by decide) (by decide)
  | supervisorScope => exact hphrase "supervisorScope".toList (by decide) (by decide)
  | tryCatch kind =>
    change Says ("try" ++ " " ++ openBrace).toList (.inr (.tryCatch .generic))
    exact hphrase "try".toList (by decide) (by decide)

theorem Statement.says_opening {s : Statement} (h : s.Named) : Says s.opening.toList s.outline := by
  cases s with
  | leaf id action => exact Action.says_source h
  | block id head body => exact Head.says_opening fun var hvar => h var (.inl hvar)

theorem sourceLine_inj {depth : Nat} {text text' : String} :
    sourceLine depth text = sourceLine depth text' ↔ text = text' :=
  String.append_right_inj _

theorem sourceLine_succ (depth : Nat) (text : String) :
    sourceLine (depth + 1) text = sourceLine depth ("    " ++ text) := by
  unfold sourceLine
  rw [List.replicate_succ', String.join_append, String.append_assoc]
  rfl

theorem stringLiteral_inj {text text' : String} :
    stringLiteral text = stringLiteral text' ↔ text = text' := by
  unfold stringLiteral
  rw [String.append_left_inj, String.append_right_inj]

/-- The line begins a statement of a body at the depth. -/
def OpensAt (depth : Nat) (line : String) : Prop :=
  ∃ text, line = sourceLine depth text ∧ ∃ c ∈ text.toList.head?, c.isAlphanum = true

theorem not_opensAt {depth : Nat} {text : String} (h : text.toList.head?.any Char.isAlphanum = false) :
    ¬ OpensAt depth (sourceLine depth text) := by
  rintro ⟨text', he, c, hc, hopens⟩
  obtain rfl := sourceLine_inj.1 he
  rw [show text.toList.head? = some c from hc] at h
  cases hopens.symm.trans h

/-- A line further out does not begin with a blank. -/
theorem not_opensAt_succ {depth : Nat} {text : String} (h : text.toList.head? ≠ some ' ') :
    ¬ OpensAt (depth + 1) (sourceLine depth text) := by
  rintro ⟨text', he, -⟩
  rw [sourceLine_succ, sourceLine_inj] at he
  refine h ?_
  rw [he, String.toList_append]
  rfl

/-- No statement of a block opens on the line on which the block begins to close. -/
theorem Head.not_opensAt_closing (head : Head) (depth : Nat) (u : List String) :
    ∀ line ∈ (head.closing depth ++ u).head?, ¬ OpensAt (depth + 1) line := by
  intro line hline
  cases head with
  | async var result =>
    cases hline
    refine not_opensAt ?_
    rw [stringLiteral, String.append_assoc, String.toList_append]
    rfl
  | tryCatch kind =>
    cases hline
    refine not_opensAt_succ ?_
    simp only [String.append_assoc, String.toList_append]
    exact nofun
  | launch | scopeLaunch | coroutineScope | supervisorScope | launchJob =>
    cases hline
    exact not_opensAt_succ (by decide)

/-- What closes a block tells what the line on which it opens leaves open. -/
theorem Head.eq_of_closing {head head' : Head} (houtline : head.outline = head'.outline) {depth : Nat}
    {u u' : List String} (h : head.closing depth ++ u = head'.closing depth ++ u') :
    head = head' ∧ u = u' := by
  cases head <;> cases head' <;> cases houtline
  case async var result result' =>
    obtain ⟨hresult, hrest⟩ := List.cons.inj h
    obtain rfl := stringLiteral_inj.1 (sourceLine_inj.1 hresult)
    exact ⟨rfl, List.append_cancel_left h⟩
  case tryCatch kind kind' =>
    obtain ⟨hcatch, -⟩ := List.cons.inj h
    have hname := sourceLine_inj.1 hcatch
    rw [String.append_left_inj, String.append_left_inj, String.append_right_inj] at hname
    obtain rfl : kind = kind' := by
      cases kind <;> cases kind' <;> first | rfl | exact absurd hname (by decide)
    exact ⟨rfl, List.append_cancel_left h⟩
  all_goals exact ⟨rfl, List.append_cancel_left h⟩

namespace Statement

theorem outline_eq_of_lines {s s' : Statement} (hs : s.Named) (hs' : s'.Named) {depth : Nat}
    {u u' : List String} (h : s.sourceLines depth ++ u = s'.sourceLines depth ++ u') :
    s.outline = s'.outline := by
  have hfirst (x : Statement) (v : List String) :
      (x.sourceLines depth ++ v).head? = some (sourceLine depth x.opening) := by
    cases x <;> rfl
  have hlines := (hfirst s u).symm.trans ((congrArg List.head? h).trans (hfirst s' u'))
  have hopening : s.opening = s'.opening := sourceLine_inj.1 (Option.some.inj hlines)
  exact (says_opening hs).unique (hopening ▸ says_opening hs')

/-- The lines of a body that is not empty begin with one on which a statement opens. -/
theorem ne_bodySourceLines_cons {s : Statement} {rest : List Statement} {depth : Nat} {u v : List String}
    (hs : s.Named) (hv : ∀ line ∈ v.head?, ¬ OpensAt depth line) :
    v ≠ bodySourceLines depth (s :: rest) ++ u := by
  rintro rfl
  exact hv (sourceLine depth s.opening) (by cases s <;> rfl) ⟨s.opening, rfl, (says_opening hs).opens⟩

mutual
/-- Equal lines show equal statements, and end at the same place. -/
theorem displayed_eq_of_lines {depth : Nat} {u u' : List String} : (s s' : Statement) →
    (∀ x ∈ s.nodes, x.Named) → (∀ x ∈ s'.nodes, x.Named) →
    s.sourceLines depth ++ u = s'.sourceLines depth ++ u' → s.displayed = s'.displayed ∧ u = u'
  | .leaf id action, .leaf id' action', hs, hs', h => by
    have houtline := outline_eq_of_lines (hs _ List.mem_cons_self) (hs' _ List.mem_cons_self) h
    exact ⟨congrArg (leaf 0) (Sum.inl.inj houtline), List.tail_eq_of_cons_eq h⟩
  | .leaf .., .block .., hs, hs', h =>
    nomatch outline_eq_of_lines (hs _ List.mem_cons_self) (hs' _ List.mem_cons_self) h
  | .block .., .leaf .., hs, hs', h =>
    nomatch outline_eq_of_lines (hs _ List.mem_cons_self) (hs' _ List.mem_cons_self) h
  | .block id head body, .block id' head' body', hs, hs', h => by
    have houtline := outline_eq_of_lines (hs _ List.mem_cons_self) (hs' _ List.mem_cons_self) h
    have hlines : bodySourceLines (depth + 1) body ++ (head.closing depth ++ u) =
        bodySourceLines (depth + 1) body' ++ (head'.closing depth ++ u') :=
      (List.append_assoc ..).symm.trans ((List.tail_eq_of_cons_eq h).trans (List.append_assoc ..))
    obtain ⟨hbody, hclosing⟩ := bodyDisplayed_eq_of_lines body body'
      (fun x hx => hs x (List.mem_cons_of_mem _ hx)) (fun x hx => hs' x (List.mem_cons_of_mem _ hx))
      (head.not_opensAt_closing depth u) (head'.not_opensAt_closing depth u') hlines
    obtain ⟨rfl, hu⟩ := Head.eq_of_closing (Sum.inr.inj houtline) hclosing
    exact ⟨congrArg (block 0 head) hbody, hu⟩
theorem bodyDisplayed_eq_of_lines {depth : Nat} {u u' : List String} : (body body' : List Statement) →
    (∀ x ∈ bodyNodes body, x.Named) → (∀ x ∈ bodyNodes body', x.Named) →
    (∀ line ∈ u.head?, ¬ OpensAt depth line) → (∀ line ∈ u'.head?, ¬ OpensAt depth line) →
    bodySourceLines depth body ++ u = bodySourceLines depth body' ++ u' →
    bodyDisplayed body = bodyDisplayed body' ∧ u = u'
  | [], [], _, _, _, _, h => ⟨rfl, h⟩
  | [], s :: _, _, hs', hu, _, h =>
    absurd h (ne_bodySourceLines_cons (hs' s (List.mem_append_left _ (self_mem_nodes s))) hu)
  | s :: _, [], hs, _, _, hu', h =>
    absurd h.symm (ne_bodySourceLines_cons (hs s (List.mem_append_left _ (self_mem_nodes s))) hu')
  | s :: rest, s' :: rest', hs, hs', hu, hu', h => by
    rw [bodySourceLines, bodySourceLines, List.append_assoc, List.append_assoc] at h
    obtain ⟨hfirst, hlines⟩ := displayed_eq_of_lines s s' (fun x hx => hs x (List.mem_append_left _ hx))
      (fun x hx => hs' x (List.mem_append_left _ hx)) h
    obtain ⟨hrest, hend⟩ := bodyDisplayed_eq_of_lines rest rest'
      (fun x hx => hs x (List.mem_append_right _ hx)) (fun x hx => hs' x (List.mem_append_right _ hx))
      hu hu' hlines
    exact ⟨by rw [bodyDisplayed, bodyDisplayed, hfirst, hrest], hend⟩
end

end Statement

def SingleLine (text : String) : Prop := '\n' ∉ text.toList

instance (text : String) : Decidable (SingleLine text) := inferInstanceAs (Decidable (_ ∉ _))

theorem SingleLine.append {text text' : String} (h : SingleLine text) (h' : SingleLine text') :
    SingleLine (text ++ text') := by
  unfold SingleLine
  rw [String.toList_append, List.mem_append]
  exact fun hmem => hmem.elim h h'

theorem IsName.singleLine {var : String} (h : IsName var) : SingleLine var :=
  fun hmem => absurd (List.all_eq_true.1 h.2 _ hmem) (by decide)

theorem singleLine_sourceLine {depth : Nat} {text : String} (h : SingleLine text) :
    SingleLine (sourceLine depth text) := by
  refine .append ?_ h
  unfold SingleLine
  rw [String.toList_join, List.mem_flatMap]
  rintro ⟨blanks, hblanks, hmem⟩
  rw [List.eq_of_mem_replicate hblanks] at hmem
  exact absurd hmem (by decide)

theorem singleLine_stringLiteral {text : String} (h : SingleLine text) :
    SingleLine (stringLiteral text) :=
  (SingleLine.append (by decide) h).append (by decide)

theorem ExceptionKind.singleLine_sourceName (kind : ExceptionKind) : SingleLine kind.sourceName := by
  cases kind <;> decide

/-- The text that the statement itself shows between quotation marks. -/
def Statement.quotes? : Statement → Option String
  | .leaf _ (.print text) => some text
  | .block _ (.async _ result) _ => some result
  | _ => none

/-- The lines of the program stay apart and can be read. -/
structure Statement.Legible (t : Statement) : Prop where
  names : ∀ s ∈ t.nodes, s.Named
  quotes : ∀ s ∈ t.nodes, ∀ text, s.quotes? = some text → SingleLine text

instance (t : Statement) : Decidable t.Legible :=
  decidable_of_iff ((∀ s ∈ t.nodes, s.Named) ∧ ∀ s ∈ t.nodes, ∀ text ∈ s.quotes?, SingleLine text)
    ⟨fun h => ⟨h.1, h.2⟩, fun h => ⟨h.names, h.quotes⟩⟩

theorem Action.singleLine_source {id : StatementId} {action : Action}
    (hnamed : (Statement.leaf id action).Named)
    (hquotes : ∀ text, (Statement.leaf id action).quotes? = some text → SingleLine text) :
    SingleLine action.source := by
  cases action with
  | delay time =>
    have hdigits : SingleLine (toString time) := fun hmem =>
      absurd (Nat.isDigit_of_mem_toDigits (by decide) (by decide) (Nat.toList_repr ▸ hmem)) (by decide)
    exact (SingleLine.append (by decide) hdigits).append (by decide)
  | print text =>
    exact (SingleLine.append (by decide) (singleLine_stringLiteral (hquotes text rfl))).append (by decide)
  | throwException kind =>
    exact (SingleLine.append (by decide) kind.singleLine_sourceName).append (by decide)
  | job var => exact (SingleLine.append (by decide) (hnamed var (.inl rfl)).singleLine).append (by decide)
  | printAwait var text =>
    exact (SingleLine.append (by decide) (hnamed var (.inr rfl)).singleLine).append (by decide)
  | join var | cancel var | completeJob var => exact (hnamed var (.inr rfl)).singleLine.append (by decide)

theorem Head.singleLine_opening {head : Head} (h : ∀ var, head.declares? = some var → IsName var) :
    SingleLine head.opening := by
  cases head with
  | launchJob var | async var =>
    exact (SingleLine.append (by decide) (h var rfl).singleLine).append (by decide)
  | launch | scopeLaunch | coroutineScope | supervisorScope | tryCatch =>
    rw [opening]
    decide

theorem singleLine_openBrace : SingleLine openBrace := by decide

theorem Head.singleLine_closing {head : Head}
    (h : ∀ var result, head = .async var result → SingleLine result) (depth : Nat) :
    ∀ line ∈ head.closing depth, SingleLine line := by
  have hbrace : SingleLine (sourceLine depth closeBrace) := singleLine_sourceLine (by decide)
  intro line hline
  cases head with
  | async var result =>
    obtain rfl | rfl : _ ∨ _ := by simpa [closing] using hline
    · exact singleLine_sourceLine (singleLine_stringLiteral (h var result rfl))
    · exact hbrace
  | tryCatch kind =>
    obtain rfl | rfl | rfl : _ ∨ _ ∨ _ := by simpa [closing] using hline
    · have hopening : SingleLine (closeBrace ++ " catch (e: ") := by decide
      have hclosing := hopening.append kind.singleLine_sourceName
      have hend : SingleLine ") " := by decide
      exact singleLine_sourceLine ((hclosing.append hend).append singleLine_openBrace)
    · exact singleLine_sourceLine (by decide)
    · exact hbrace
  | launch | scopeLaunch | coroutineScope | supervisorScope | launchJob =>
    obtain rfl : _ = _ := by simpa [closing] using hline
    exact hbrace

namespace Statement

mutual
theorem singleLine_sourceLines : (s : Statement) → (∀ x ∈ s.nodes, x.Named) →
    (∀ x ∈ s.nodes, ∀ text, x.quotes? = some text → SingleLine text) → (depth : Nat) →
    ∀ line ∈ s.sourceLines depth, SingleLine line
  | .leaf id action, hnamed, hquotes, depth, line, hline => by
    obtain rfl := List.mem_singleton.1 hline
    exact singleLine_sourceLine
      (Action.singleLine_source (hnamed _ List.mem_cons_self) (hquotes _ List.mem_cons_self))
  | .block id head body, hnamed, hquotes, depth, line, hline => by
    rcases List.mem_cons.1 hline with rfl | hline
    · have hblank : SingleLine " " := by decide
      refine singleLine_sourceLine
        (.append (.append (Head.singleLine_opening fun var hvar => ?_) hblank) singleLine_openBrace)
      exact hnamed _ List.mem_cons_self var (.inl hvar)
    · rcases List.mem_append.1 hline with hbody | hclosing
      · exact singleLine_bodySourceLines body (fun x hx => hnamed x (List.mem_cons_of_mem _ hx))
          (fun x hx => hquotes x (List.mem_cons_of_mem _ hx)) (depth + 1) line hbody
      · refine Head.singleLine_closing (fun var result he => ?_) depth line hclosing
        exact hquotes _ List.mem_cons_self result (he ▸ rfl)
theorem singleLine_bodySourceLines : (body : List Statement) → (∀ x ∈ bodyNodes body, x.Named) →
    (∀ x ∈ bodyNodes body, ∀ text, x.quotes? = some text → SingleLine text) → (depth : Nat) →
    ∀ line ∈ bodySourceLines depth body, SingleLine line
  | [], _, _, _, _, hline => nomatch hline
  | s :: rest, hnamed, hquotes, depth, line, hline => by
    rcases List.mem_append.1 hline with hfirst | hrest
    · exact singleLine_sourceLines s (fun x hx => hnamed x (List.mem_append_left _ hx))
        (fun x hx => hquotes x (List.mem_append_left _ hx)) depth line hfirst
    · exact singleLine_bodySourceLines rest (fun x hx => hnamed x (List.mem_append_right _ hx))
        (fun x hx => hquotes x (List.mem_append_right _ hx)) depth line hrest
end

theorem sourceLines_ne_nil (s : Statement) (depth : Nat) : s.sourceLines depth ≠ [] := by
  cases s <;> exact List.cons_ne_nil _ _

/-- The lines of a source are what stands between its line breaks. -/
theorem Legible.splitOn_source {t : Statement} (h : t.Legible) :
    t.source.toList.splitOn '\n' = (t.sourceLines 0).map String.toList := by
  rw [source, String.toList_intercalate]
  refine List.splitOn_intercalate '\n' (fun line hline => ?_) (by simpa using t.sourceLines_ne_nil 0)
  obtain ⟨text, htext, rfl⟩ := List.mem_map.1 hline
  exact singleLine_sourceLines t h.names h.quotes 0 text htext

/-- Programs of one source are displayed alike. -/
theorem Legible.displayed_eq {t t' : Statement} (h : t.Legible) (h' : t'.Legible)
    (he : t.source = t'.source) : t.displayed = t'.displayed := by
  have hlines : t.sourceLines 0 = t'.sourceLines 0 := by
    refine (List.map_inj_right fun _ _ => String.toList_inj.1).1 ?_
    rw [← h.splitOn_source, ← h'.splitOn_source, he]
  exact (displayed_eq_of_lines t t' h.names h'.names (congrArg (· ++ []) hlines)).1

end Statement

end RacePuzzle
