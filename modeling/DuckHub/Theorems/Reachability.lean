import DuckHub.Logic.Form
import DuckHub.Logic.Listing
import DuckHub.Theorems.ListInvariant

/-!
# Where a run can lead

Where the entries of the list come from, and which lists there can be. Every
entry was in the list from the start or was typed in, and the order is kept
(`run_pairs_sublist`). Which lists of names a form can be brought to is
characterized exactly (`reachable_values_iff`): the invariant of the roster is
the strongest there is.
-/

namespace DuckHub.UserService

open Lib

/-! ## Where entries come from -/

/-- The name an event types in. -/
def Event.typed : Event → Option Str
  | .addToList name => some name
  | .checkpasswd _ _ => none
  | .select _ => none
  | .removeFromList => none

namespace Listing

theorem refusal_eq_none_iff {l : Listing} {name : Str} :
    l.refusal name = none ↔ NameOk name ∧ ¬ l.Shows name ∧ ¬ Taken l.courseslist name := by
  unfold refusal NameOk
  split_ifs <;> simp_all

/-- The names among those typed in that the list can take at all. -/
def admitted (l : Listing) (names : List Str) : List Str :=
  names.filter fun name => decide (NameOk name ∧ ¬ Taken l.courseslist name)

/-- One event appends at most the name it types in, and only an admitted
one. -/
theorem step_sublist (l : Listing) (e : Event) :
    (l.step e).entries.Sublist
      (l.entries ++ (l.admitted e.typed.toList).map entryOf) := by
  cases e with
  | checkpasswd password password2 => exact List.sublist_append_left _ _
  | addToList name =>
      rcases l.step_addToList_cases name with ⟨hsame, -⟩ | ⟨hadd, hrefusal, -⟩
      · rw [hsame]
        exact List.sublist_append_left _ _
      · obtain ⟨hok, -, hfree⟩ := refusal_eq_none_iff.mp hrefusal
        have hadmitted : l.admitted (Event.addToList name).typed.toList = [name] :=
          List.filter_cons_of_pos (decide_eq_true ⟨hok, hfree⟩)
        rw [hadd, hadmitted]
        exact List.Sublist.refl _
  | select index => exact List.sublist_append_left _ _
  | removeFromList =>
      rw [step]
      cases l.picked with
      | some k =>
          exact (List.eraseIdx_sublist _ _).trans (List.sublist_append_left _ _)
      | none => exact List.sublist_append_left _ _

/-- A name listed after an event was listed before it or is admitted. -/
theorem mem_values_of_step {l : Listing} {e : Event} {name : Str}
    (h : name ∈ (l.step e).values) :
    name ∈ l.values ∨ (NameOk name ∧ ¬ Taken l.courseslist name) := by
  have hsub : (l.step e).values.Sublist
      ((l.entries ++ (l.admitted e.typed.toList).map entryOf).map Prod.fst) :=
    (l.step_sublist e).map _
  have hmem := hsub.subset h
  rw [List.map_append, List.mem_append, List.map_map] at hmem
  rcases hmem with hmem | hmem
  · exact .inl hmem
  · obtain ⟨other, hother, rfl⟩ := List.mem_map.mp hmem
    exact .inr (of_decide_eq_true (List.mem_filter.mp hother).2)

theorem run_sublist (l : Listing) (events : List Event) :
    (run step l events).entries.Sublist
      (l.entries ++ (l.admitted (events.filterMap Event.typed)).map entryOf) := by
  induction events generalizing l with
  | nil => exact List.sublist_append_left _ _
  | cons e rest ih =>
      have hsame : (l.step e).admitted = l.admitted := by
        funext names
        rw [admitted, admitted, step_courseslist]
      have hsplit : (e :: rest).filterMap Event.typed =
          e.typed.toList ++ rest.filterMap Event.typed := by
        cases htyped : e.typed <;> simp [htyped]
      have hrest := ih (l.step e)
      rw [hsame] at hrest
      rw [hsplit, admitted, List.filter_append, List.map_append, ← List.append_assoc]
      exact hrest.trans ((l.step_sublist e).append_right _)

end Listing

/-- **Where entries come from.** Whatever the page a run starts from, the
entries of its list are some of the start followed by some of the names typed
in, each in the order it came and at most as often; and of the names typed in
only those that are admissible and that no author has. -/
theorem run_pairs_sublist (p : Page) (events : List Event) :
    (run dispatch p events).courselist.pairs.Sublist
      (p.courselist.pairs ++ ((events.filterMap Event.typed).filter fun name =>
        decide (NameOk name ∧ ¬ Taken p.courseslist name)).map entryOf) := by
  have hsub := Listing.run_sublist p.listing events
  rw [← run_listing] at hsub
  exact hsub

/-- A name listed after a run was listed before it or is typed in on the way. -/
theorem mem_values_of_run {p : Page} {events : List Event} {name : Str}
    (h : name ∈ (run dispatch p events).courselist.values) :
    name ∈ p.courselist.values ∨ .addToList name ∈ events := by
  have hsub := (Listing.run_sublist p.listing events).map Prod.fst
  rw [← run_listing] at hsub
  rw [← Page.listing_values] at h
  have hmem := hsub.subset h
  rw [List.map_append, List.mem_append, List.map_map] at hmem
  rcases hmem with hmem | hmem
  · rw [← Page.listing_values]
    exact .inl hmem
  · obtain ⟨other, hother, rfl⟩ := List.mem_map.mp hmem
    obtain ⟨e, he, htyped⟩ := List.mem_filterMap.mp (List.mem_of_mem_filter hother)
    cases e with
    | checkpasswd password password2 => exact absurd htyped (by simp [Event.typed])
    | addToList coursename =>
        injection htyped with htyped
        subst htyped
        exact .inr he
    | select index => exact absurd htyped (by simp [Event.typed])
    | removeFromList => exact absurd htyped (by simp [Event.typed])

/-! ## Which lists there can be -/

/-- Every edit of the roster can be carried out on the page. -/
theorem Represents.realize {p : Page} {r : CourseRoster} (h : Represents p r)
    (ops : List (RosterOp Str)) :
    ∃ events, Represents (run dispatch p events)
      (run (Roster.apply Select.maxLength (Taken p.courseslist)) r ops) := by
  induction ops generalizing p r with
  | nil => exact ⟨[], h⟩
  | cons op rest ih =>
      cases op with
      | add name =>
          obtain ⟨events, hevents⟩ := ih (h.after_event (.addToList name))
          rw [dispatch_courseslist] at hevents
          exact ⟨.addToList name :: events, hevents⟩
      | remove i =>
          by_cases hi : i < p.courselist.options.length
          · -- pick entry `i`, then remove it
            have hselected : Represents (dispatch p (.select i)) r :=
              h.after_event (.select i)
            have hsel : (dispatch p (.select i)).courselist.selected = some i :=
              Select.setSelectedIndex_selected hi
            have hremoved := hselected.after_event .removeFromList
            rw [edit, hsel] at hremoved
            obtain ⟨events, hevents⟩ := ih hremoved
            rw [dispatch_courseslist, dispatch_courseslist] at hevents
            exact ⟨.select i :: .removeFromList :: events, hevents⟩
          · -- there is no entry `i`, so nothing has to be done
            have hnames : (r.remove i).names = r.names :=
              List.eraseIdx_of_length_le (h.length_eq ▸ Nat.le_of_not_lt hi)
            have hsame : Represents p (r.remove i) := by
              rw [Represents, hnames]
              exact h
            exact ih hsame
      | idle => exact ih h

/-- **The reachable lists.** From a well-formed list, a list of names is the
list of values of some reachable state exactly when a front part of it is left
of the values of the start, in their order, the rest are admissible names that
no author has, with such a rest it is not longer than the element can grow,
and the names that read back unchanged are pairwise distinct. -/
theorem reachable_values_iff {p : Page} (h : WellFormed p.courselist)
    (names : List Str) :
    (∃ events, (run dispatch p events).courselist.values = names) ↔
      ∃ front back, names = front ++ back ∧ front.Sublist p.courselist.values ∧
        (∀ name ∈ back, NameOk name ∧ ¬ Taken p.courseslist name) ∧
        (back ≠ [] → names.length ≤ Select.maxLength) ∧
        (names.filter (ReadsBack ·)).Nodup := by
  refine Iff.trans ?_
    (Roster.reachable_iff Select.maxLength (Taken p.courseslist) h.roster names)
  constructor
  · rintro ⟨events, rfl⟩
    exact ⟨_, (h.represents.after_run events).values_eq.symm⟩
  · rintro ⟨ops, rfl⟩
    obtain ⟨events, hevents⟩ := h.represents.realize ops
    exact ⟨events, hevents.values_eq⟩

/-- A stored course can go and a typed one come twice, if it ends in a
blank. -/
theorem reachable_values_twice :
    ∃ events, (run dispatch (.load [] (.ofNames [[unit 'a']] true))
      events).courselist.values = [[unit 'b', space], [unit 'b', space]] :=
  (reachable_values_iff (by decide) _).mpr
    ⟨[], [[unit 'b', space], [unit 'b', space]], rfl, List.nil_sublist _,
      by decide, by decide, by decide⟩

end DuckHub.UserService
