import DuckHub.Logic.Form

/-!
# Undoing a removal

An author's list is edited next to `courseslist`, the courses of all authors
as they are stored — those of the edited author included. Removing an entry
never changes that string, so a removed course can be typed in again only if
it came from the form in the first place: a stored name is still one that an
author already has, and `addToList` refuses it.
-/

namespace DuckHub.UserService

open Lib

/-- The page after the selected entry is removed and its name typed in
again. -/
def removeAndAdd (p : Page) (name : Str) : Page :=
  run dispatch p [.removeFromList, .addToList name]

/-- The removal of entry `i` is undone: the name is accepted without an alert,
and its entry, value and text, is at the end of the list, the others in their
order. -/
def Undone (p : Page) (i : Nat) (name : Str) : Prop :=
  (removeAndAdd p name).alerts = p.alerts ∧
  (removeAndAdd p name).courselist.pairs = moveToEnd p.courselist.pairs i

/-- The removal of entry `i` stands: the name is refused as one that an author
already has. -/
def StaysRemoved (p : Page) (i : Nat) (name : Str) : Prop :=
  (removeAndAdd p name).alerts = p.alerts ++ [.takenByAuthor] ∧
  (removeAndAdd p name).courselist.pairs = p.courselist.pairs.eraseIdx i

instance (p : Page) (i : Nat) (name : Str) : Decidable (Undone p i name) :=
  inferInstanceAs (Decidable (_ ∧ _))

/-! ## One page -/

namespace Represents

variable {p : Page} {r : CourseRoster} {i : Nat}

/-- Removing the selected entry of a roster alerts nothing. -/
theorem alerts_removeFromList (h : Represents p r)
    (hsel : p.courselist.selected = some i) :
    (dispatch p .removeFromList).alerts = p.alerts := by
  have hi : i < p.courselist.options.length := p.courselist.selected_lt i hsel
  rw [dispatch_removeFromList_of_selected hsel hi (h.value_ne_nil hi)]

theorem after_removeFromList (h : Represents p r)
    (hsel : p.courselist.selected = some i) :
    Represents (dispatch p .removeFromList) (r.remove i) := by
  have hafter := h.after_event .removeFromList
  rwa [edit, hsel] at hafter

/-- Removing and adding back, as the roster does it. -/
theorem removeAndAdd_pairs (h : Represents p r)
    (hsel : p.courselist.selected = some i) (hi : i < r.names.length) :
    (Taken p.courseslist r.names[i] →
      (removeAndAdd p r.names[i]).courselist.pairs = p.courselist.pairs.eraseIdx i) ∧
    (¬ Taken p.courseslist r.names[i] → r.names.length ≤ Select.maxLength →
      (removeAndAdd p r.names[i]).courselist.pairs = moveToEnd p.courselist.pairs i) := by
  have hafter : Represents (removeAndAdd p r.names[i])
      ((r.remove i).add Select.maxLength (Taken (dispatch p .removeFromList).courseslist)
        r.names[i]) :=
    (h.after_removeFromList hsel).after_event (.addToList r.names[i])
  simp only [dispatch_courseslist] at hafter
  constructor
  · intro htaken
    rw [hafter, Roster.remove_add_of_taken hi htaken, Roster.remove_names, h,
      List.eraseIdx_map]
  · intro hfree hcap
    rw [hafter, Roster.remove_add hi hcap hfree, h, map_moveToEnd]

/-- The duplicate test cannot refuse a name whose entry is gone. -/
theorem removeAndAdd_alerts (h : Represents p r)
    (hsel : p.courselist.selected = some i) (hi : i < r.names.length) :
    (removeAndAdd p r.names[i]).alerts =
      if Taken p.courseslist r.names[i] then p.alerts ++ [.takenByAuthor]
      else p.alerts := by
  have hok : NameOk r.names[i] := r.names_ok _ (List.getElem_mem hi)
  have hunseen : ¬ (r.names[i] ∈ (r.remove i).names ∧ ReadsBack r.names[i]) := by
    rintro ⟨hmem, hseen⟩
    exact Roster.seen_notMem_remove hi hseen hmem
  show (dispatch (dispatch p .removeFromList) (.addToList r.names[i])).alerts = _
  rw [dispatch_addToList, (h.after_removeFromList hsel).refusal_eq hok,
    if_neg hunseen, dispatch_courseslist]
  by_cases htaken : Taken p.courseslist r.names[i]
  · rw [if_pos htaken, if_pos htaken]
    show (dispatch p .removeFromList).alerts ++ _ = _
    rw [h.alerts_removeFromList hsel]
  · -- appended or not, nothing is alerted
    rw [if_neg htaken, if_neg htaken]
    dsimp only
    split_ifs <;> exact h.alerts_removeFromList hsel

/-- On a page that shows a roster no longer than it can grow, only
`courseslist` decides whether a removal can be undone. -/
theorem undone_or_staysRemoved (h : Represents p r)
    (hsel : p.courselist.selected = some i) {option : OptionElement}
    (hoption : p.courselist.options[i]? = some option) :
    (¬ Taken p.courseslist option.value → r.names.length ≤ Select.maxLength →
      Undone p i option.value) ∧
    (Taken p.courseslist option.value → StaysRemoved p i option.value) := by
  obtain ⟨hlt, rfl⟩ := List.getElem?_eq_some_iff.mp hoption
  have hi : i < r.names.length := h.length_eq ▸ hlt
  have hpairs := h.removeAndAdd_pairs hsel hi
  unfold Undone StaysRemoved
  rw [h.value_eq hlt hi, h.removeAndAdd_alerts hsel hi]
  constructor
  · intro hfree hcap
    exact ⟨if_neg hfree, hpairs.2 hfree hcap⟩
  · intro htaken
    exact ⟨if_pos htaken, hpairs.1 htaken⟩

end Represents

/-! ## Whole runs -/

/-- **Undo.** However an author's list has been edited, removing the selected
entry and typing its name in again moves the entry to the end of the list
exactly when the name is not one of the courses stored for that author; a
stored name is refused and stays removed. -/
theorem undone_iff_not_stored {aconf : AuthorsConfig} {table : AuthorTable}
    (hold : aconf.Holds table) (valid : table.Valid) {author : Str × List Str}
    (hauthor : author ∈ table.authors) {p : Page} (hedits : Edits aconf author p)
    (events : List Event) {i : Nat} {option : OptionElement}
    (hsel : (run dispatch p events).courselist.selected = some i)
    (hoption : (run dispatch p events).courselist.options[i]? = some option) :
    (Undone (run dispatch p events) i option.value ↔ option.value ∉ author.2) ∧
    (option.value ∈ author.2 →
      StaysRemoved (run dispatch p events) i option.value) := by
  have hafter := (hedits.represents valid hauthor).after_run events
  have hcases := hafter.undone_or_staysRemoved hsel hoption
  have hmem : option.value ∈ (run dispatch p events).courselist.values :=
    List.mem_map_of_mem (List.mem_of_getElem? hoption)
  rw [run_courseslist, taken_iff_stored hold valid hauthor hedits hmem] at hcases
  refine ⟨⟨?_, ?_⟩, hcases.2⟩
  · intro hundone hstored
    -- the two outcomes differ in their alerts
    have halerts := (hcases.2 hstored).1
    rw [hundone.1] at halerts
    simp at halerts
  · intro hnew
    refine hcases.1 hnew ?_
    -- a list past the limit holds stored names only
    rcases Roster.run_bounded Select.maxLength (Taken p.courseslist) (valid.roster hauthor)
      (labels dispatch edit p events) with hcap | hstart
    · exact hcap
    · rw [hafter.values_eq] at hmem
      exact absurd (hstart.subset hmem) hnew

/-! ## A form with one stored course -/

/-- A course typed into that form, picked and removed can be typed in again;
the stored one in front of it cannot. -/
theorem undone_typed_not_stored :
    Undone (run dispatch oneCourseForm [.addToList [unit 'b']]) 1 [unit 'b'] ∧
    StaysRemoved (run dispatch oneCourseForm [.addToList [unit 'b'], .select 0]) 0
      [unit 'a'] :=
  ⟨(undone_iff_not_stored oneCourse_holds oneCourse_valid (by decide)
      oneCourseForm_edits [.addToList [unit 'b']] (by decide)
      (by decide : _ = some (OptionElement.ofName [unit 'b']))).1.mpr (by decide),
    (undone_iff_not_stored oneCourse_holds oneCourse_valid (by decide)
      oneCourseForm_edits [.addToList [unit 'b'], .select 0] (by decide)
      (by decide : _ = some (OptionElement.ofName [unit 'a']))).2 (by decide)⟩

/-- Picking the stored course, whose name has no white space at all, removing
it and typing it in again does not bring it back. -/
theorem stored_course_not_undone :
    oneCourse.Valid ∧ (∀ course ∈ oneCourse.courses, ReadsBack course) ∧
    (oneCourse.config [[unit 'u']]).Holds oneCourse ∧
    ([unit 'u'], [[unit 'a']]) ∈ oneCourse.authors ∧
    Edits (oneCourse.config [[unit 'u']]) ([unit 'u'], [[unit 'a']]) oneCourseForm ∧
    (run dispatch oneCourseForm [.select 0]).courselist.selected = some 0 ∧
    (run dispatch oneCourseForm [.select 0]).courselist.options[0]? =
      some (.ofName [unit 'a']) ∧
    ¬ Undone (run dispatch oneCourseForm [.select 0]) 0 [unit 'a'] :=
  ⟨oneCourse_valid, by decide, oneCourse_holds, by decide, oneCourseForm_edits,
    by decide, by decide, by decide⟩

end DuckHub.UserService
