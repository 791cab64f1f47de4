import DuckHub.Theorems.Reachability

/-!
# The table after an edit

What editing is for: a table in which the courses of one author are those that
the form lists. The names listed never collide with another author's
(`values_avoid_other_authors`), so the edited table is valid exactly as long
as the list is well named, which is decided by the events of the run
(`edited_valid_throughout_iff`). Two forms opened on one table can collide
only in a name that is new to the table and typed into both
(`forms_share_only_new_names`).
-/

namespace DuckHub.UserService

open Lib

/-- **No course of another author.** From the form of one author of a valid
table, no run brings a course of another author into the list. -/
theorem values_avoid_other_authors {aconf : AuthorsConfig} {table : AuthorTable}
    (hold : aconf.Holds table) (valid : table.Valid) {author : Str × List Str}
    (hauthor : author ∈ table.authors) {p : Page} (hedits : Edits aconf author p)
    (events : List Event) {other : Str × List Str} (hother : other ∈ table.authors)
    (hne : other ≠ author) :
    ∀ course ∈ other.2, course ∉ (run dispatch p events).courselist.values := by
  intro course hcourse hlisted
  have hall : course ∈ table.courses := List.mem_flatMap.mpr ⟨other, hother, hcourse⟩
  have htaken : Taken p.courseslist course := hedits.taken_of_stored hold valid hall
  have hstored : course ∈ author.2 :=
    (taken_iff_stored hold valid hauthor hedits hlisted).mp htaken
  -- distinctness across authors: no course is stored twice
  exact valid.disjoint hauthor hother hne hcourse hstored

/-- Typing in the other author's course. -/
theorem values_avoid_other_authors_two :
    [unit 'b'] ∉ (run dispatch (twoAuthorsForm [[unit 'a', space]])
      [.addToList [unit 'b']]).courselist.values :=
  @values_avoid_other_authors _ _ twoAuthors_holds twoAuthors_valid
    ([unit 'u'], [[unit 'a', space]]) (by decide) _ (twoAuthorsForm_edits _) _
    ([unit 'v'], [[unit 'b']]) (by decide) (by decide) _ (by decide)

namespace AuthorTable

/-- The table with other courses for the author under a key. -/
def withCourses (table : AuthorTable) (key : Str) (courses : List Str) : AuthorTable where
  authors := table.authors.map fun author =>
    (author.1, if author.1 = key then courses else author.2)
  keys_nodup := by
    rw [List.map_map]
    exact table.keys_nodup

/-- All courses but those of one author, who can be given any others. -/
theorem exists_others {table : AuthorTable} {author : Str × List Str}
    (hauthor : author ∈ table.authors) :
    ∃ others, table.courses.Perm (author.2 ++ others) ∧
      ∀ courses, (table.withCourses author.1 courses).courses.Perm (courses ++ others) := by
  obtain ⟨front, back, hsplit⟩ := List.append_of_mem hauthor
  have hkeys := table.keys_nodup
  rw [hsplit, List.map_append, List.map_cons, List.nodup_append, List.nodup_cons] at hkeys
  obtain ⟨-, ⟨hback, -⟩, hfront⟩ := hkeys
  -- the keys are distinct, so no other author is touched
  refine ⟨front.flatMap Prod.snd ++ back.flatMap Prod.snd, ?_, ?_⟩
  · rw [courses, hsplit, List.flatMap_append, List.flatMap_cons]
    exact List.perm_append_comm_assoc _ _ _
  · intro courses
    have hkept : ∀ part : List (Str × List Str), (∀ other ∈ part, other.1 ≠ author.1) →
        (part.map fun other =>
          (other.1, if other.1 = author.1 then courses else other.2)) = part := by
      intro part hpart
      refine (List.map_congr_left ?_).trans (List.map_id part)
      intro other hother
      rw [if_neg (hpart other hother)]
      rfl
    have hauthors : (table.withCourses author.1 courses).authors =
        front ++ (author.1, courses) :: back := by
      show table.authors.map _ = _
      rw [hsplit, List.map_append, List.map_cons, if_pos rfl, hkept front, hkept back]
      · intro other hother heq
        exact hback (heq ▸ List.mem_map_of_mem hother)
      · intro other hother heq
        exact hfront _ (List.mem_map_of_mem hother) _ List.mem_cons_self heq
    rw [AuthorTable.courses, hauthors, List.flatMap_append, List.flatMap_cons]
    exact List.perm_append_comm_assoc _ _ _

/-- Courses that avoid those of the other authors make a valid table exactly
when they are admissible and distinct. -/
theorem Valid.withCourses_iff {table : AuthorTable} (valid : table.Valid)
    {author : Str × List Str} (hauthor : author ∈ table.authors) {courses : List Str}
    (havoid : ∀ course ∈ courses, course ∈ table.courses → course ∈ author.2) :
    (table.withCourses author.1 courses).Valid ↔
      (∀ course ∈ courses, NameOk course) ∧ courses.Nodup := by
  obtain ⟨others, hperm, hedited⟩ := exists_others hauthor
  have hstored : (author.2 ++ others).Nodup := hperm.nodup_iff.mp valid.distinct
  constructor
  · intro hvalid
    constructor
    · intro course hcourse
      exact hvalid.names_ok course
        ((hedited courses).mem_iff.mpr (List.mem_append_left _ hcourse))
    · exact (List.nodup_append.mp ((hedited courses).nodup_iff.mp hvalid.distinct)).1
  · rintro ⟨hok, hnodup⟩
    constructor
    · intro course hcourse
      rcases List.mem_append.mp ((hedited courses).mem_iff.mp hcourse) with hmem | hmem
      · exact hok course hmem
      · exact valid.names_ok course (hperm.mem_iff.mpr (List.mem_append_right _ hmem))
    · refine (hedited courses).nodup_iff.mpr (List.nodup_append.mpr
        ⟨hnodup, (List.nodup_append.mp hstored).2.1, ?_⟩)
      rintro course hcourse other hother rfl
      -- a course of the edited author is no course of the others
      have hmine : course ∈ author.2 :=
        havoid course hcourse (hperm.mem_iff.mpr (List.mem_append_right _ hother))
      exact (List.nodup_append.mp hstored).2.2 course hmine course hother rfl

end AuthorTable

/-- No event brings in a taken name. -/
theorem taken_of_dispatch {p q : Page} {e : Event} {courses : List Str}
    (hfield : q.courseslist = p.courseslist)
    (hmine : ∀ name ∈ q.courselist.values, Taken p.courseslist name → name ∈ courses) :
    ∀ name ∈ (dispatch q e).courselist.values,
      Taken p.courseslist name → name ∈ courses := by
  intro name hname htaken
  rw [← Page.listing_values, dispatch_listing] at hname
  rcases Listing.mem_values_of_step hname with hmem | ⟨-, hfree⟩
  · rw [Page.listing_values] at hmem
    exact hmine name hmem htaken
  · have hsame : q.listing.courseslist = p.courseslist := hfield
    rw [hsame] at hfree
    exact absurd htaken hfree

/-- **The edited table.** From the form of one author of a valid table: the
table in which this author has the listed courses is valid in every state of a
run exactly when every event adds safely. -/
theorem edited_valid_throughout_iff {aconf : AuthorsConfig} {table : AuthorTable}
    (hold : aconf.Holds table) (valid : table.Valid) {author : Str × List Str}
    (hauthor : author ∈ table.authors) {p : Page} (hedits : Edits aconf author p)
    (events : List Event) :
    (∀ q ∈ visited dispatch p events,
      (table.withCourses author.1 q.courselist.values).Valid) ↔
      Meets dispatch AddsSafely p events := by
  have hstart : WellFormed p.courselist :=
    (hedits.represents valid hauthor).wellFormed
      ((List.nodup_flatMap.mp valid.distinct).1 author hauthor)
  -- the invariant: well formed, and every taken name listed is the author's own
  refine visited_iff_meets (fun q : Page => WellFormed q.courselist ∧
    q.courseslist = p.courseslist ∧ ∀ name ∈ q.courselist.values,
      Taken p.courseslist name → name ∈ author.2) ?_ ?_ ?_ ⟨hstart, rfl, ?_⟩ events
  · rintro q ⟨hq, -, hmine⟩
    refine (valid.withCourses_iff hauthor ?_).mpr (wellNamed_iff.mp hq.toWellNamed)
    intro course hcourse hstored
    exact hmine course hcourse (hedits.taken_of_stored hold valid hstored)
  · rintro q e ⟨hq, hfield, hmine⟩ hsafe
    refine ⟨(hq.dispatch_iff e).1 hsafe, (dispatch_courseslist q e).trans hfield, ?_⟩
    exact taken_of_dispatch hfield hmine
  · rintro q e ⟨hq, hfield, hmine⟩ hunsafe hvalid
    refine (hq.dispatch_iff e).2 hunsafe (wellNamed_iff.mpr ?_)
    refine (valid.withCourses_iff hauthor ?_).mp hvalid
    intro course hcourse hstored
    exact taken_of_dispatch hfield hmine course hcourse
      (hedits.taken_of_stored hold valid hstored)
  · intro name hname _
    rwa [(hedits.represents valid hauthor).values_eq] at hname

/-- A new course typed in twice, and a stored one that ends in a blank typed
in again. -/
theorem edited_valid_throughout_typed :
    (twoAuthors.withCourses [unit 'u'] (run dispatch (twoAuthorsForm [[unit 'a', space]])
      [.addToList [unit 'c'], .addToList [unit 'c'],
        .addToList [unit 'a', space]]).courselist.values).Valid :=
  (@edited_valid_throughout_iff _ _ twoAuthors_holds twoAuthors_valid
    ([unit 'u'], [[unit 'a', space]]) (by decide) _ (twoAuthorsForm_edits _)
    [.addToList [unit 'c'], .addToList [unit 'c'], .addToList [unit 'a', space]]).mpr
    (by decide) _ (run_mem_visited _ _)

/-- **Two forms on one table.** Two forms opened for different authors of a
valid table, over whatever order of the keys, can come to list the same name
only if the table does not have it and it was typed into both. -/
theorem forms_share_only_new_names {aconf aconf' : AuthorsConfig} {table : AuthorTable}
    (hold : aconf.Holds table) (hold' : aconf'.Holds table) (valid : table.Valid)
    {author author' : Str × List Str} (hauthor : author ∈ table.authors)
    (hauthor' : author' ∈ table.authors) (hne : author ≠ author') {p p' : Page}
    (hedits : Edits aconf author p) (hedits' : Edits aconf' author' p')
    (events events' : List Event) {name : Str}
    (hlisted : name ∈ (run dispatch p events).courselist.values)
    (hlisted' : name ∈ (run dispatch p' events').courselist.values) :
    name ∉ table.courses ∧ .addToList name ∈ events ∧ .addToList name ∈ events' := by
  have hnew : name ∉ table.courses := by
    intro hstored
    -- then the name is stored for both authors
    have hmine : name ∈ author.2 :=
      (taken_iff_stored hold valid hauthor hedits hlisted).mp
        (hedits.taken_of_stored hold valid hstored)
    have hmine' : name ∈ author'.2 :=
      (taken_iff_stored hold' valid hauthor' hedits' hlisted').mp
        (hedits'.taken_of_stored hold' valid hstored)
    exact valid.disjoint hauthor' hauthor hne hmine hmine'
  have htyped : ∀ {aconf : AuthorsConfig} {author : Str × List Str} {p : Page}
      {events : List Event}, author ∈ table.authors → Edits aconf author p →
      name ∈ (run dispatch p events).courselist.values → .addToList name ∈ events := by
    intro aconf author p events hauthor hedits hlisted
    rcases mem_values_of_run hlisted with hmem | htyped
    · rw [(hedits.represents valid hauthor).values_eq] at hmem
      exact absurd (List.mem_flatMap.mpr ⟨author, hauthor, hmem⟩) hnew
    · exact htyped
  exact ⟨hnew, htyped hauthor hedits hlisted, htyped hauthor' hedits' hlisted'⟩

/-- One new name typed into the forms of both authors, and listed in both. -/
theorem forms_share_only_new_names_typed :
    let events : List Event := [.addToList [unit 'b'], .addToList [unit 'c']]
    let events' : List Event := [.addToList [unit 'c'], .select 0]
    [unit 'c'] ∈ (run dispatch (twoAuthorsForm [[unit 'a', space]])
      events).courselist.values ∧
    [unit 'c'] ∈ (run dispatch (twoAuthorsForm [[unit 'b']]) events').courselist.values ∧
    [unit 'c'] ∉ twoAuthors.courses ∧
    .addToList [unit 'c'] ∈ events ∧ .addToList [unit 'c'] ∈ events' :=
  ⟨by decide, by decide,
    @forms_share_only_new_names _ _ _ twoAuthors_holds twoAuthors_holds twoAuthors_valid
      ([unit 'u'], [[unit 'a', space]]) ([unit 'v'], [[unit 'b']]) (by decide) (by decide)
      (by decide) _ _ (twoAuthorsForm_edits _) (twoAuthorsForm_edits _)
      [.addToList [unit 'b'], .addToList [unit 'c']] [.addToList [unit 'c'], .select 0]
      [unit 'c'] (by decide) (by decide)⟩

end DuckHub.UserService
