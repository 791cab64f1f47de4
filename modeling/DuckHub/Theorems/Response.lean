import DuckHub.Theorems.CourseCodec

/-!
# What the servlet answers and encodes

The servlet without the assumptions of the codec: which response any
configuration gets, null references and failing casts included
(`doPost_outcome`), and what the script makes of stored courses that hold a bar
themselves (`refuses_iff_piece`).
-/

namespace DuckHub.UserService

open Lib

/-- **Every response.** Whatever objects the session holds and whatever keys
and authors the configuration has, a request is redirected exactly when both
attributes pass their casts and not both say yes. Past the gate it gets the
page exactly when the nested loop stumbles over nothing. It ends in an
exception exactly when a cast of the gate fails, or past the gate, and then in
the one that the loop stumbles over first. -/
theorem doPost_outcome (aconf : AuthorsConfig) (session : HttpSession) :
    (doPost aconf session = .ok (.redirect "Config") ↔
      session.Typed ∧ ¬ session.Open) ∧
    (doPost aconf session = .ok (.page "text/html" "no-cache") ↔
      session.Open ∧ aconf.stumble = none) ∧
    ∀ exception, doPost aconf session = .error exception ↔
      (¬ session.Typed ∧ exception = .classCast) ∨
      (session.Open ∧ aconf.stumble = some exception) := by
  obtain ⟨huntyped, hclosed, hopen⟩ := doPost_eq aconf session
  obtain ⟨hstumbles, hgathers⟩ := aconf.gatherCourses_outcome
  by_cases htyped : session.Typed
  · by_cases hpassed : session.Open
    · -- past the gate everything hangs on the nested loop
      rw [hopen hpassed]
      cases hstumble : aconf.stumble with
      | none =>
          obtain ⟨courseslist, hgather⟩ := hgathers hstumble
          rw [hgather, ok_bind]
          simp [htyped, hpassed]
      | some exception =>
          rw [hstumbles exception hstumble]
          simp [htyped, hpassed, bind, Except.bind]
    · rw [hclosed htyped hpassed]
      simp [htyped, hpassed]
  · have hshut : ¬ session.Open := fun hpassed => htyped hpassed.typed
    rw [huntyped htyped]
    simp [htyped, hshut, eq_comm]

/-- **Courses that hold a bar.** Against the string the servlet builds for any
table, `addToList` refuses a new, admissible name exactly when it is one of
the pieces into which bars split the stored courses: a stored course with a
bar in it is not protected, its pieces are. Any other new name it appends to a
list that has room, and throws on one that has none. -/
theorem refuses_iff_piece {aconf : AuthorsConfig} {table : AuthorTable}
    (hold : aconf.Holds table) :
    ∃ courseslist, gatherCourses aconf = .ok courseslist ∧
      ∀ p : Page, p.courseslist = courseslist → NameOk p.coursename →
        (∀ option ∈ p.courselist.options, option.value ≠ p.coursename) →
        (Refuses p ↔ ∃ author ∈ table.authors, ∃ course ∈ author.2,
          p.coursename ∈ splitBar course) ∧
        (¬ Refuses p → p.courselist.options.length < Select.maxLength → Appends p) ∧
        (¬ Refuses p → Select.maxLength ≤ p.courselist.options.length →
          addToList p = .error .typeError) := by
  obtain ⟨order, -, hgather⟩ := hold.gatherCourses_eq
  refine ⟨_, hgather, ?_⟩
  rintro p hfield ⟨nonempty, barFree, noDigit⟩ new
  have hrefusal := refusal_of_new nonempty barFree noDigit new
  have hpiece : p.coursename ∈ splitBar p.courseslist ↔
      ∃ author ∈ table.authors, ∃ course ∈ author.2, p.coursename ∈ splitBar course := by
    rw [hfield, hold.mem_splitBar_iff_piece hgather nonempty, AuthorTable.courses]
    simp only [List.mem_flatMap]
    constructor
    · rintro ⟨course, ⟨author, hauthor, hcourse⟩, hmem⟩
      exact ⟨author, hauthor, course, hcourse, hmem⟩
    · rintro ⟨author, hauthor, course, hcourse, hmem⟩
      exact ⟨course, ⟨author, hauthor, hcourse⟩, hmem⟩
  rw [refuses_iff, not_not]
  refine ⟨?_, appends_of_room, throws_of_full⟩
  rw [hrefusal, ← hpiece]
  simp

/-- One author, with a course that holds a bar. -/
def barCourse : AuthorTable :=
  ⟨[([unit 'u'], [[unit 'a', bar, unit 'b']])], by decide⟩

/-- The form for a new list over that table, with a name filled in. -/
def barCourseForm (name : Str) : Page :=
  { Page.load [unit 'a', bar, unit 'b', bar] (.ofNames [] false) with coursename := name }

/-- The course `a|b` blocks `b`, which no author has, and not `c`. -/
theorem refuses_iff_piece_half :
    Refuses (barCourseForm [unit 'b']) ∧ Appends (barCourseForm [unit 'c']) := by
  have hold : (barCourse.config [[unit 'u']]).Holds barCourse :=
    barCourse.config_holds (by decide)
  obtain ⟨courseslist, hgather, hpages⟩ := refuses_iff_piece hold
  have hcomputed : gatherCourses (barCourse.config [[unit 'u']]) =
      .ok [unit 'a', bar, unit 'b', bar] := by decide
  rw [hcomputed] at hgather
  injection hgather with hgather
  subst hgather
  have hnew := hpages (barCourseForm [unit 'c']) rfl (by decide) (by decide)
  constructor
  · exact (hpages (barCourseForm [unit 'b']) rfl (by decide) (by decide)).1.mpr (by decide)
  · exact hnew.2.1 (by rw [hnew.1]; decide) (by decide)

end DuckHub.UserService
