import Mathlib.Data.List.Lattice
import DuckHub.Logic.Editor
import DuckHub.Logic.ServletSpec

/-!
# The form of one author

Where the servlet and the page meet: the form in which the courses of one
author of a table are edited, next to the string the servlet builds over the
whole table. The page starts as the roster of the stored courses
(`Edits.represents`), and along every run the names it refuses as taken are,
within the list, exactly the stored ones (`taken_iff_stored`).
-/

namespace DuckHub.UserService

open Lib

/-- The tables the form is meant for: admissible course names, distinct
within and across authors. -/
structure AuthorTable.Valid (table : AuthorTable) : Prop where
  names_ok : ∀ course ∈ table.courses, NameOk course
  distinct : table.courses.Nodup

theorem AuthorTable.Valid.barFree {table : AuthorTable} (valid : table.Valid) :
    ∀ course ∈ table.courses, bar ∉ course := by
  intro course hcourse
  exact (valid.names_ok course hcourse).2.1

/-- Two authors have no course in common. -/
theorem AuthorTable.Valid.disjoint {table : AuthorTable} (valid : table.Valid)
    {author other : Str × List Str} (hauthor : author ∈ table.authors)
    (hother : other ∈ table.authors) (hne : other ≠ author) :
    List.Disjoint other.2 author.2 := by
  have hsymm : Std.Symm
      (Function.onFun List.Disjoint (Prod.snd : Str × List Str → List Str)) :=
    ⟨fun _ _ hdisjoint => List.Disjoint.symm hdisjoint⟩
  exact (List.nodup_flatMap.mp valid.distinct).2.forall hother hauthor hne

/-- The form for one author of a table: an option per stored course, whose
value and text were both set to it, and the string that the servlet builds
over the whole table. -/
structure Edits (aconf : AuthorsConfig) (author : Str × List Str) (p : Page) : Prop where
  pairs : p.courselist.pairs = author.2.map entryOf
  courseslist : gatherCourses aconf = .ok p.courseslist

/-- The form refuses every course of the table. -/
theorem Edits.taken_of_stored {aconf : AuthorsConfig} {table : AuthorTable}
    {author : Str × List Str} {p : Page} (hedits : Edits aconf author p)
    (hold : aconf.Holds table) (valid : table.Valid) {course : Str}
    (hcourse : course ∈ table.courses) : Taken p.courseslist course :=
  (hold.mem_splitBar_iff valid.barFree hedits.courseslist
    (valid.names_ok course hcourse).1).mpr hcourse

/-- The form as it is loaded, drop-down box or not. -/
theorem Edits.load {aconf : AuthorsConfig} {author : Str × List Str} {courseslist : Str}
    (hgather : gatherCourses aconf = .ok courseslist) (dropDown : Bool) :
    Edits aconf author (.load courseslist (.ofNames author.2 dropDown)) where
  pairs := by
    show (Select.ofNames author.2 dropDown).options.map OptionElement.pair = _
    rw [Select.ofNames_options, List.map_map]
    rfl
  courseslist := hgather

/-- The roster a stored course list starts from. -/
def AuthorTable.Valid.roster {table : AuthorTable} (valid : table.Valid)
    {author : Str × List Str} (hauthor : author ∈ table.authors) : CourseRoster where
  names := author.2
  names_ok := fun course hcourse =>
    valid.names_ok course (List.mem_flatMap.mpr ⟨author, hauthor, hcourse⟩)
  seen_nodup := ((List.nodup_flatMap.mp valid.distinct).1 author hauthor).filter _

theorem Edits.represents {aconf : AuthorsConfig} {table : AuthorTable}
    {author : Str × List Str} {p : Page} (hedits : Edits aconf author p)
    (valid : table.Valid) (hauthor : author ∈ table.authors) :
    Represents p (valid.roster hauthor) := hedits.pairs

/-- In a run of the form, a listed name is one that some author has exactly
when it was stored for the edited author: every other listed name was typed
in, and typing in a name that an author has is refused. -/
theorem taken_iff_stored {aconf : AuthorsConfig} {table : AuthorTable}
    (hold : aconf.Holds table) (valid : table.Valid) {author : Str × List Str}
    (hauthor : author ∈ table.authors) {p : Page} (hedits : Edits aconf author p)
    {events : List Event} {name : Str}
    (hname : name ∈ (run dispatch p events).courselist.values) :
    Taken p.courseslist name ↔ name ∈ author.2 := by
  have hafter := (hedits.represents valid hauthor).after_run events
  rw [hafter.values_eq] at hname
  have hok : NameOk name := Roster.names_ok _ name hname
  constructor
  · intro htaken
    exact Roster.run_taken _ _ hname htaken
  · intro hstored
    refine (hold.mem_splitBar_iff valid.barFree hedits.courseslist hok.1).mpr ?_
    exact List.mem_flatMap.mpr ⟨author, hauthor, hstored⟩

/-! ## Sample tables and forms -/

/-- One author, with one course. -/
def oneCourse : AuthorTable := ⟨[([unit 'u'], [[unit 'a']])], by decide⟩

/-- The form for that author. -/
def oneCourseForm : Page :=
  .load [unit 'a', bar] (.ofNames [[unit 'a']] false)

theorem oneCourse_valid : oneCourse.Valid := ⟨by decide, by decide⟩

theorem oneCourse_holds : (oneCourse.config [[unit 'u']]).Holds oneCourse :=
  oneCourse.config_holds (by decide)

theorem oneCourseForm_edits :
    Edits (oneCourse.config [[unit 'u']]) ([unit 'u'], [[unit 'a']]) oneCourseForm :=
  .load (by decide) false

/-- Two authors with one course each, the first of which ends in a blank. -/
def twoAuthors : AuthorTable :=
  ⟨[([unit 'u'], [[unit 'a', space]]), ([unit 'v'], [[unit 'b']])], by decide⟩

/-- The form for an author of that table with these courses. -/
def twoAuthorsForm (courses : List Str) : Page :=
  .load [unit 'b', bar, unit 'a', space, bar] (.ofNames courses true)

theorem twoAuthors_valid : twoAuthors.Valid := ⟨by decide, by decide⟩

theorem twoAuthors_holds :
    (twoAuthors.config [[unit 'v'], [unit 'u']]).Holds twoAuthors :=
  twoAuthors.config_holds (by decide)

theorem twoAuthorsForm_edits (author : Str × List Str) :
    Edits (twoAuthors.config [[unit 'v'], [unit 'u']]) author (twoAuthorsForm author.2) :=
  .load (by decide) true

end DuckHub.UserService
