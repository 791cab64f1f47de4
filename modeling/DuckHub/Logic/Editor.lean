import DuckHub.Lib.Roster
import DuckHub.Logic.PageSpec

/-!
# The page refines a roster

What each event does to the page, from the closed forms of the handlers, and
the simulation that carries every whole-run result: read as (value, text)
pairs, the option list is at all times a roster of course names whose
duplicate test recognizes exactly the names that read back unchanged as
element text, and whose taken names are the pieces of `courseslist`.

The simulation needs no restriction on what the user types. What the duplicate
test misses is part of the abstract machine, not an assumption about the run.
-/

namespace DuckHub.UserService

open Lib

/-! ## One event -/

/-- The event makes its handler throw: a name that passes every test is typed
into a list that can grow no further. -/
def Throws (p : Page) : Event → Prop
  | .addToList name =>
      refusal p name = none ∧ Select.maxLength ≤ p.courselist.options.length
  | .checkpasswd _ _ => False
  | .select _ => False
  | .removeFromList => False

instance (p : Page) : DecidablePred (Throws p)
  | .addToList name => inferInstanceAs (Decidable (refusal p name = none ∧
      Select.maxLength ≤ p.courselist.options.length))
  | .checkpasswd _ _ => inferInstanceAs (Decidable False)
  | .select _ => inferInstanceAs (Decidable False)
  | .removeFromList => inferInstanceAs (Decidable False)

theorem dispatch_eq {p p' : Page} {e : Event} (h : handle p e = .ok p') :
    dispatch p e = p' := by
  rw [dispatch, h]

theorem dispatch_of_error {p : Page} {e : Event} {err : ScriptError}
    (h : handle p e = .error err) : dispatch p e = p.fillIn e := by
  rw [dispatch, h]

theorem handle_addToList (p : Page) (name : Str) :
    handle p (.addToList name) =
      match refusal p name with
      | some a => .ok ({ p with coursename := name }.alert a)
      | none =>
          if p.courselist.options.length < Select.maxLength then
            .ok { p with coursename := name, courselist := p.courselist.append name }
          else .error .typeError :=
  addToList_eq (p.fillIn (.addToList name))

theorem dispatch_addToList (p : Page) (name : Str) :
    dispatch p (.addToList name) =
      match refusal p name with
      | some a => { p with coursename := name }.alert a
      | none =>
          if p.courselist.options.length < Select.maxLength then
            { p with coursename := name, courselist := p.courselist.append name }
          else { p with coursename := name } := by
  have hhandle := handle_addToList p name
  cases hrefusal : refusal p name with
  | some a =>
      rw [hrefusal] at hhandle
      exact dispatch_eq hhandle
  | none =>
      simp only [hrefusal] at hhandle ⊢
      split_ifs at hhandle ⊢ with hroom
      · exact dispatch_eq hhandle
      · exact dispatch_of_error hhandle

/-- What a handler does is what `dispatch` says, unless it throws. -/
theorem handle_eq (p : Page) (e : Event) :
    handle p e = if Throws p e then .error .typeError else .ok (dispatch p e) := by
  have hok : ∀ {p'}, handle p e = .ok p' → ¬ Throws p e →
      handle p e = if Throws p e then .error .typeError else .ok (dispatch p e) := by
    intro p' hhandle hquiet
    rw [if_neg hquiet, dispatch_eq hhandle, hhandle]
  cases e with
  | checkpasswd password password2 => exact hok (checkpasswd_eq _) id
  | addToList name =>
      have hhandle := handle_addToList p name
      cases hrefusal : refusal p name with
      | some a =>
          rw [hrefusal] at hhandle
          refine hok hhandle ?_
          rintro ⟨hnone, -⟩
          rw [hrefusal] at hnone
          exact Option.some_ne_none a hnone
      | none =>
          simp only [hrefusal] at hhandle
          split_ifs at hhandle with hroom
          · exact hok hhandle fun hthrows => Nat.not_lt.mpr hthrows.2 hroom
          · have hthrows : Throws p (.addToList name) := ⟨hrefusal, Nat.not_lt.mp hroom⟩
            rw [if_pos hthrows]
            exact hhandle
  | select index => exact hok rfl id
  | removeFromList =>
      rcases removeFromList_cases p with halert | ⟨k, hk, -, -, hremoved⟩
      · exact hok halert id
      · exact hok hremoved id

theorem dispatch_checkpasswd (p : Page) (password password2 : Str) :
    dispatch p (.checkpasswd password password2) =
      if password = password2 then
        let totalvalue := terminate bar (p.courselist.values.filter (· ≠ []))
        { p with
          password := password
          password2 := password2
          courses := totalvalue
          submitted := p.submitted ++ [totalvalue] }
      else
        { p with password := password, password2 := password2 }.alert
          .inequalPasswords :=
  dispatch_eq (checkpasswd_eq _)

theorem dispatch_removeFromList_of_selected {p : Page} {k : Nat}
    (h : p.courselist.selected = some k) (hk : k < p.courselist.options.length)
    (hvalue : p.courselist.options[k].value ≠ []) :
    dispatch p .removeFromList = { p with courselist := p.courselist.removed k hk } :=
  dispatch_eq (removeFromList_of_selected h hk hvalue)

theorem dispatch_removeFromList_of_none {p : Page}
    (h : p.courselist.selected = none) :
    dispatch p .removeFromList = p.alert .nothingSelected :=
  dispatch_eq (removeFromList_of_none h)

theorem dispatch_removeFromList_cases (p : Page) :
    dispatch p .removeFromList = p.alert .nothingSelected ∨
    ∃ k, ∃ hk : k < p.courselist.options.length,
      dispatch p .removeFromList =
        { p with courselist := p.courselist.removed k hk } := by
  rcases removeFromList_cases p with halert | ⟨k, hk, -, -, hremoved⟩
  · exact .inl (dispatch_eq halert)
  · exact .inr ⟨k, hk, dispatch_eq hremoved⟩

/-- What a removal leaves alone: nothing is submitted, and the only alert it
can show is the one for a missing selection. -/
theorem dispatch_removeFromList_frame (p : Page) :
    (dispatch p .removeFromList).submitted = p.submitted ∧
    ((dispatch p .removeFromList).alerts = p.alerts ∨
      (dispatch p .removeFromList).alerts = p.alerts ++ [.nothingSelected]) := by
  rcases dispatch_removeFromList_cases p with halert | ⟨k, hk, hremoved⟩
  · rw [halert]
    exact ⟨rfl, .inr rfl⟩
  · rw [hremoved]
    exact ⟨rfl, .inl rfl⟩

/-- Submitting leaves the list alone. -/
theorem dispatch_checkpasswd_courselist (p : Page) (password password2 : Str) :
    (dispatch p (.checkpasswd password password2)).courselist = p.courselist := by
  rw [dispatch_checkpasswd]
  split <;> rfl

/-- The script never writes the field it got from the servlet. -/
@[simp] theorem dispatch_courseslist (p : Page) (e : Event) :
    (dispatch p e).courseslist = p.courseslist := by
  cases e with
  | checkpasswd password password2 =>
      rw [dispatch_checkpasswd]
      split <;> rfl
  | addToList name =>
      rw [dispatch_addToList]
      split
      · rfl
      · split <;> rfl
  | select index => rfl
  | removeFromList =>
      rcases dispatch_removeFromList_cases p with halert | ⟨k, hk, hremoved⟩
      · rw [halert]
        rfl
      · rw [hremoved]

/-! ## The roster behind the page -/

/-- The names the script accepts in the first place. -/
def NameOk (name : Str) : Prop :=
  name ≠ [] ∧ bar ∉ name ∧ ¬ BeginsWithDigit name

instance : DecidablePred NameOk := fun name =>
  inferInstanceAs (Decidable (name ≠ [] ∧ bar ∉ name ∧ ¬ BeginsWithDigit name))

/-- The roster of course names: the duplicate test of `addToList` recognizes
the names that read back unchanged. -/
abbrev CourseRoster := Roster NameOk ReadsBack

/-- The names refused because some author has them. -/
def Taken (courseslist name : Str) : Prop := name ∈ splitBar courseslist

instance (courseslist : Str) : DecidablePred (Taken courseslist) := fun name =>
  inferInstanceAs (Decidable (name ∈ splitBar courseslist))

/-- The entry of a name: what can be read of an option whose value and text
were both set to it. -/
def entryOf (name : Str) : Str × Str := (name, normalText name)

/-- The page shows the roster: the entries of its names. -/
def Represents (p : Page) (r : CourseRoster) : Prop :=
  p.courselist.pairs = r.names.map entryOf

/-- The edit of the roster that an event amounts to. -/
def edit (p : Page) : Event → RosterOp Str
  | .addToList name => .add name
  | .removeFromList =>
      match p.courselist.selected with
      | some k => .remove k
      | none => .idle
  | .select _ => .idle
  | .checkpasswd _ _ => .idle

namespace Represents

variable {p : Page} {r : CourseRoster}

theorem values_eq (h : Represents p r) : p.courselist.values = r.names := by
  have hfst : p.courselist.pairs.map Prod.fst = p.courselist.values := by
    simp [Select.pairs, Select.values, OptionElement.pair, Function.comp_def]
  rw [← hfst, h]
  simp [entryOf, Function.comp_def]

theorem length_eq (h : Represents p r) :
    p.courselist.options.length = r.names.length := by
  rw [← h.values_eq, Select.values_length]

theorem value_eq (h : Represents p r) {k : Nat} (hk : k < p.courselist.options.length)
    (hr : k < r.names.length) : p.courselist.options[k].value = r.names[k] := by
  simp [← h.values_eq, Select.values]

/-- No option of a roster is blank, so what is selected can be removed. -/
theorem value_ne_nil (h : Represents p r) {k : Nat}
    (hk : k < p.courselist.options.length) : p.courselist.options[k].value ≠ [] := by
  rw [h.value_eq hk (h.length_eq ▸ hk)]
  exact (r.names_ok _ (List.getElem_mem _)).1

/-- The first scan of `addToList` is the duplicate test of the roster. -/
theorem assigned_iff (h : Represents p r) (name : Str) :
    Assigned p.courselist name ↔ name ∈ r.names ∧ ReadsBack name := by
  have hpair : Assigned p.courselist name ↔ (name, name) ∈ p.courselist.pairs := by
    simp [Assigned, Select.pairs, OptionElement.pair]
  rw [hpair, h, List.mem_map, ← normalText_eq_self_iff]
  constructor
  · rintro ⟨other, hmem, heq⟩
    obtain ⟨rfl, htext⟩ := Prod.mk.inj heq
    exact ⟨hmem, htext⟩
  · rintro ⟨hmem, htext⟩
    exact ⟨name, hmem, by rw [entryOf, htext]⟩

/-- For an admissible name only the two scans are left: the duplicate test,
then the names that authors have. -/
theorem refusal_eq (h : Represents p r) {name : Str} (hok : NameOk name) :
    refusal p name =
      if name ∈ r.names ∧ ReadsBack name then some .alreadyAssigned
      else if Taken p.courseslist name then some .takenByAuthor
      else none := by
  simp only [refusal, hok.1, hok.2.1, hok.2.2, if_false, h.assigned_iff]
  rfl

/-- The tests of `addToList` let through what the roster accepts. -/
theorem refusal_eq_none_iff (h : Represents p r) (name : Str) :
    refusal p name = none ↔ r.Accepts (Taken p.courseslist) name := by
  by_cases hok : NameOk name
  · rw [h.refusal_eq hok, Roster.Accepts]
    split_ifs <;> simp_all
  · have hrefused : refusal p name ≠ none := by
      unfold refusal NameOk at *
      split_ifs <;> simp_all
    exact iff_of_false hrefused fun hacc => hok hacc.1

/-- One event of the page is one edit of the roster, whose limit is that of
the select element. -/
theorem after_event (h : Represents p r) (e : Event) :
    Represents (dispatch p e)
      (r.apply Select.maxLength (Taken p.courseslist) (edit p e)) := by
  cases e with
  | checkpasswd password password2 =>
      rw [Represents, dispatch_checkpasswd_courselist]
      exact h
  | addToList name =>
      show Represents _ (r.add Select.maxLength (Taken p.courseslist) name)
      rw [dispatch_addToList]
      cases hrefusal : refusal p name with
      | none =>
          have hacc := (h.refusal_eq_none_iff name).mp hrefusal
          by_cases hroom : p.courselist.options.length < Select.maxLength
          · rw [if_pos hroom]
            show Select.pairs (p.courselist.append name) = _
            rw [Roster.add_of_accepts hacc (h.length_eq ▸ hroom), Select.append_pairs,
              List.map_append, ← h]
            rfl
          · -- the handler throws and the roster is full
            rw [if_neg hroom, Roster.add_of_full (h.length_eq ▸ Nat.not_lt.mp hroom)]
            exact h
      | some a =>
          have hacc : ¬ r.Accepts (Taken p.courseslist) name := by
            rw [← h.refusal_eq_none_iff, hrefusal]
            simp
          rw [Roster.add_of_refuses hacc]
          exact h
  | select index => exact h
  | removeFromList =>
      cases hsel : p.courselist.selected with
      | none =>
          rw [dispatch_removeFromList_of_none hsel, edit, hsel]
          exact h
      | some k =>
          have hk : k < p.courselist.options.length := p.courselist.selected_lt k hsel
          rw [dispatch_removeFromList_of_selected hsel hk (h.value_ne_nil hk), edit, hsel]
          show Select.pairs (p.courselist.removed k hk) = _
          rw [Select.removed_pairs, h, List.eraseIdx_map]
          rfl

/-- A run of the page is a run of the roster. -/
theorem after_run (h : Represents p r) (events : List Event) :
    Represents (run dispatch p events)
      (run (Roster.apply Select.maxLength (Taken p.courseslist)) r
        (labels dispatch edit p events)) := by
  have hsim : (run dispatch p events).courseslist = p.courseslist ∧
      Represents (run dispatch p events)
        (run (Roster.apply Select.maxLength (Taken p.courseslist)) r
          (labels dispatch edit p events)) := by
    refine run_simulates
      (fun q r' => q.courseslist = p.courseslist ∧ Represents q r') ?_ ⟨rfl, h⟩ events
    rintro q r' e ⟨hfield, hq⟩
    exact ⟨(dispatch_courseslist q e).trans hfield, hfield ▸ hq.after_event e⟩
  exact hsim.2

end Represents

/-- The script never writes the field it got from the servlet, in any run. -/
theorem run_courseslist (p : Page) (events : List Event) :
    (run dispatch p events).courseslist = p.courseslist :=
  run_invariant (fun q => q.courseslist = p.courseslist)
    (fun q e hq => (dispatch_courseslist q e).trans hq) rfl events

end DuckHub.UserService
