import DuckHub.Logic.Editor

/-!
# The course list over whole runs

What the author form promises about its list: values that are nonempty, free
of the separator, without a leading digit, and pairwise distinct. The first
three hold in every run. Distinctness does not: `addToList` looks for an
option whose value *and* text are the new name, and a name that does not read
back unchanged as element text is never found. `wellNamed_throughout_iff`
gives the exact condition on a run under which the list keeps its promise.
-/

namespace DuckHub.UserService

open Lib

/-- What the values of the course list are meant to be. -/
structure WellNamed (s : Select) : Prop where
  nonempty : ∀ value ∈ s.values, value ≠ []
  barFree : ∀ value ∈ s.values, bar ∉ value
  noDigit : ∀ value ∈ s.values, ¬ BeginsWithDigit value
  distinct : s.values.Nodup

/-- A list to start from: well named, with every text written with the same
string as the value, so that it reads back as the normalized value. -/
structure WellFormed (s : Select) : Prop extends WellNamed s where
  texts : ∀ option ∈ s.options, option.text = normalText option.value

/-- Well named is admissible, name by name, and distinct. -/
theorem wellNamed_iff {s : Select} :
    WellNamed s ↔ (∀ value ∈ s.values, NameOk value) ∧ s.values.Nodup := by
  constructor
  · intro h
    refine ⟨?_, h.distinct⟩
    intro value hvalue
    exact ⟨h.nonempty value hvalue, h.barFree value hvalue, h.noDigit value hvalue⟩
  · rintro ⟨hok, hnodup⟩
    constructor
    · intro value hvalue
      exact (hok value hvalue).1
    · intro value hvalue
      exact (hok value hvalue).2.1
    · intro value hvalue
      exact (hok value hvalue).2.2
    · exact hnodup

theorem wellFormed_iff {s : Select} :
    WellFormed s ↔
      WellNamed s ∧ ∀ option ∈ s.options, option.text = normalText option.value := by
  constructor
  · intro h
    exact ⟨h.toWellNamed, h.texts⟩
  · rintro ⟨hnamed, htexts⟩
    exact ⟨hnamed, htexts⟩

instance (s : Select) : Decidable (WellNamed s) := decidable_of_iff' _ wellNamed_iff

instance (s : Select) : Decidable (WellFormed s) := decidable_of_iff' _ wellFormed_iff

/-- The roster a well-formed list shows. -/
def WellFormed.roster {s : Select} (h : WellFormed s) : CourseRoster where
  names := s.values
  names_ok := (wellNamed_iff.mp h.toWellNamed).1
  seen_nodup := h.distinct.filter _

theorem WellFormed.represents {p : Page} (h : WellFormed p.courselist) :
    Represents p h.roster := by
  show p.courselist.options.map OptionElement.pair = List.map _ (List.map _ _)
  rw [List.map_map]
  refine List.map_congr_left fun option hoption => ?_
  simp [OptionElement.pair, entryOf, h.texts option hoption]

/-- Conversely, a page that shows a duplicate-free roster is well formed. -/
theorem Represents.wellFormed {p : Page} {r : CourseRoster} (h : Represents p r)
    (hnodup : r.names.Nodup) : WellFormed p.courselist := by
  have hok : ∀ value ∈ p.courselist.values, NameOk value := fun value hvalue =>
    r.names_ok value (h.values_eq ▸ hvalue)
  refine wellFormed_iff.mpr ⟨wellNamed_iff.mpr ⟨hok, h.values_eq ▸ hnodup⟩, ?_⟩
  intro option hoption
  have hpair : option.pair ∈ p.courselist.pairs := List.mem_map_of_mem hoption
  rw [h] at hpair
  obtain ⟨name, -, hname⟩ := List.mem_map.mp hpair
  obtain ⟨rfl, htext⟩ := Prod.mk.inj hname
  exact htext.symm

/-- What every run keeps, whatever is typed: the values are admissible names,
and those that read back unchanged are pairwise distinct. -/
theorem WellFormed.after_run {p : Page} (h : WellFormed p.courselist)
    (events : List Event) :
    let values := (run dispatch p events).courselist.values
    (∀ value ∈ values, NameOk value) ∧ (values.filter (ReadsBack ·)).Nodup := by
  have hafter := h.represents.after_run events
  show (∀ value ∈ (run dispatch p events).courselist.values, NameOk value) ∧ _
  rw [hafter.values_eq]
  exact ⟨Roster.names_ok _, Roster.seen_nodup _⟩

/-- The condition on one event: a name that is already in the list is typed
again only if it reads back unchanged as element text, or is refused because
of `courseslist`, or the list has no room for it. -/
def AddsSafely (p : Page) : Event → Prop
  | .addToList name =>
      name ∈ p.courselist.values → ReadsBack name ∨ name ∈ splitBar p.courseslist ∨
        Select.maxLength ≤ p.courselist.options.length
  | .checkpasswd _ _ => True
  | .select _ => True
  | .removeFromList => True

instance (p : Page) : DecidablePred (AddsSafely p)
  | .addToList name =>
      inferInstanceAs (Decidable (name ∈ p.courselist.values →
        ReadsBack name ∨ name ∈ splitBar p.courseslist ∨
          Select.maxLength ≤ p.courselist.options.length))
  | .checkpasswd _ _ => inferInstanceAs (Decidable True)
  | .select _ => inferInstanceAs (Decidable True)
  | .removeFromList => inferInstanceAs (Decidable True)

/-- On a well-formed list, an event leads to a well-named list exactly when
it adds safely; and then the list is well formed again. -/
theorem WellFormed.dispatch_iff {p : Page} (h : WellFormed p.courselist) (e : Event) :
    (AddsSafely p e → WellFormed (dispatch p e).courselist) ∧
    (¬ AddsSafely p e → ¬ WellNamed (dispatch p e).courselist) := by
  have hafter := h.represents.after_event e
  cases e with
  | addToList name =>
      have hlength : h.roster.names.length = p.courselist.options.length :=
        Select.values_length _
      have hiff : (h.roster.add Select.maxLength (Taken p.courseslist) name).names.Nodup ↔
          AddsSafely p (.addToList name) := by
        rw [Roster.add_nodup_iff h.distinct, hlength]
        rfl
      constructor
      · intro hsafe
        exact hafter.wellFormed (hiff.mpr hsafe)
      · intro hunsafe hnamed
        exact hunsafe (hiff.mp (hafter.values_eq ▸ hnamed.distinct))
  | checkpasswd password password2 =>
      exact ⟨fun _ => hafter.wellFormed h.distinct, fun hno => absurd trivial hno⟩
  | select index =>
      exact ⟨fun _ => hafter.wellFormed h.distinct, fun hno => absurd trivial hno⟩
  | removeFromList =>
      have hnodup : (h.roster.apply Select.maxLength (Taken p.courseslist)
          (edit p .removeFromList)).names.Nodup := by
        rw [edit]
        split
        · exact h.roster.remove_nodup h.distinct _
        · exact h.distinct
      exact ⟨fun _ => hafter.wellFormed hnodup, fun hno => absurd trivial hno⟩

/-- **The list invariant.** From a well-formed list, and whatever
`courseslist` is, the list is well named in every state of a run exactly when
every event of the run adds safely. -/
theorem wellNamed_throughout_iff {p : Page} (h : WellFormed p.courselist)
    (events : List Event) :
    (∀ q ∈ visited dispatch p events, WellNamed q.courselist) ↔
      Meets dispatch AddsSafely p events :=
  visited_iff_meets (fun q : Page => WellFormed q.courselist) (fun _ hq => hq.toWellNamed)
    (fun _ e hq => (hq.dispatch_iff e).1) (fun _ e hq => (hq.dispatch_iff e).2) h events

/-- A stored name that ends in a blank is typed again, and so is a new one
that does not; then the stored one is picked and removed. -/
theorem wellNamed_throughout_retyped :
    WellNamed (run dispatch
      (.load [unit 'a', space, bar] (.ofNames [[unit 'a', space]] false))
      [.addToList [unit 'a', space], .addToList [unit 'b'], .addToList [unit 'b'],
        .select 0, .removeFromList]).courselist :=
  (wellNamed_throughout_iff (by decide) _).mpr (by decide) _ (run_mem_visited _ _)

/-- Typing a name with a leading space twice lists it twice. -/
theorem leading_space_listed_twice :
    WellFormed (Select.ofNames [] false) ∧
    ¬ WellNamed (run dispatch (.load [] (.ofNames [] false))
      [.addToList [space, unit 'a'], .addToList [space, unit 'a']]).courselist := by
  decide

end DuckHub.UserService
