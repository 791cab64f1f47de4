import DuckHub.Lib.Delimited
import DuckHub.UserService.Servlet

/-!
# What the servlet computes

The two loops of `doPost` in closed form. The inner loop appends the
separator-terminated encoding of a course vector (`appendCourses_eq`); the
nested loop yields the encoding of all courses of the table, each exactly as
often as the table has it, in the order in which the keys happen to be
enumerated (`Holds.gatherCourses_eq`). What a reader of `courseslist` can tell
from it does not depend on that order (`Holds.mem_splitBar_iff`).
-/

namespace DuckHub.UserService

open Lib

/-- Appending piece after piece, each followed by the separator. -/
private theorem foldl_append_bar (courses : List Str) (s : Str) :
    courses.foldl (fun courseslist course => courseslist ++ course ++ [bar]) s =
      s ++ terminate bar courses := by
  induction courses generalizing s with
  | nil => simp
  | cons course rest ih =>
      rw [List.foldl_cons, ih, terminate_cons]
      simp

/-- The inner loop throws nothing and appends the encoded vector. -/
theorem appendCourses_eq (authorCL : List Str) (courseslist : Str) :
    appendCourses authorCL courseslist =
      .ok (courseslist ++ terminate bar authorCL) := by
  unfold appendCourses
  rw [forLoop_foldl authorCL (fun s course => s ++ course ++ [bar]),
    foldl_append_bar]
  intro i s hi
  simp [elementAt, hi]

namespace AuthorsConfig

/-- The course vector found under a key, if there is an author and the author
has one. -/
def found (aconf : AuthorsConfig) (key : Str) : Option (List Str) :=
  (aconf.GetAuthor key).bind AcmeAuthor.getCourseList

/-- The courses found under a key. -/
def coursesOf (aconf : AuthorsConfig) (key : Str) : List Str := (aconf.found key).getD []

/-- The courses found under a key that is a string. -/
def coursesAt (aconf : AuthorsConfig) (key : JavaObject) : List Str :=
  (key.string?.map aconf.coursesOf).getD []

/-- What a round of the outer loop stumbles over: a key that is no string, or
one that leads to no course vector. -/
def stumbleAt (aconf : AuthorsConfig) (key : JavaObject) : Option JavaException :=
  match key.string? with
  | none => some .classCast
  | some key =>
      match aconf.found key with
      | none => some .nullPointer
      | some _ => none

/-- What the nested loop stumbles over: a missing table, or the first key in
the enumeration that a round stumbles over. -/
def stumble (aconf : AuthorsConfig) : Option JavaException :=
  match aconf.AuthorHash with
  | none => some .nullPointer
  | some keys => keys.findSome? aconf.stumbleAt

/-- A round of the outer loop appends what is found under its key, unless it
stumbles. -/
theorem appendAuthor_outcome (aconf : AuthorsConfig) (courseslist : Str)
    (key : JavaObject) :
    appendAuthor aconf courseslist key =
      match aconf.stumbleAt key with
      | some exception => .error exception
      | none => .ok (courseslist ++ terminate bar (aconf.coursesAt key)) := by
  unfold appendAuthor stumbleAt coursesAt cast
  cases key.string? with
  | none => rfl
  | some key =>
      dsimp only
      rw [ok_bind, Option.map_some, Option.getD_some, coursesOf, found]
      cases aconf.GetAuthor key with
      | none => rfl
      | some author =>
          show (notNull author.getCourseList >>= fun authorCL =>
            appendCourses authorCL courseslist) = _
          rw [Option.bind_some]
          cases author.getCourseList with
          | none => rfl
          | some courses => exact appendCourses_eq courses courseslist

/-- The outer loop appends the courses under all its keys, unless a round
stumbles; then the first such round ends it. -/
theorem foldlM_appendAuthor (aconf : AuthorsConfig) (keys : List JavaObject) (s : Str) :
    keys.foldlM (appendAuthor aconf) s =
      match keys.findSome? aconf.stumbleAt with
      | some exception => .error exception
      | none => .ok (s ++ terminate bar (keys.flatMap aconf.coursesAt)) := by
  induction keys generalizing s with
  | nil => simp [pure, Except.pure]
  | cons key rest ih =>
      rw [List.foldlM_cons, appendAuthor_outcome, List.findSome?_cons]
      cases aconf.stumbleAt key with
      | some exception => rfl
      | none =>
          dsimp only
          rw [ok_bind, ih, List.flatMap_cons, terminate_append, List.append_assoc]

/-- The nested loop yields a string, unless it stumbles. -/
theorem gatherCourses_outcome (aconf : AuthorsConfig) :
    (∀ exception, aconf.stumble = some exception → gatherCourses aconf = .error exception) ∧
    (aconf.stumble = none → ∃ courseslist, gatherCourses aconf = .ok courseslist) := by
  unfold gatherCourses stumble
  cases aconf.AuthorHash with
  | none =>
      -- without a table `keys()` is called on null
      constructor
      · intro exception hexception
        injection hexception with hexception
        rw [← hexception]
        rfl
      · intro hnone
        exact absurd hnone (Option.some_ne_none _)
  | some keys =>
      rw [notNull, ok_bind, foldlM_appendAuthor]
      constructor
      · intro exception hexception
        simp only at hexception
        rw [hexception]
      · intro hnone
        simp only at hnone
        rw [hnone]
        exact ⟨_, rfl⟩

namespace Holds

variable {aconf : AuthorsConfig} {table : AuthorTable}

theorem found_eq (h : aconf.Holds table) {author : Str × List Str}
    (hauthor : author ∈ table.authors) : aconf.found author.1 = some author.2 := by
  rw [found, h.author author hauthor]
  rfl

/-- The nested loop encodes the courses of the table, none lost and none
repeated, in an order fixed by the enumeration of the keys. -/
theorem gatherCourses_eq (h : aconf.Holds table) :
    ∃ order, order.Perm table.courses ∧
      gatherCourses aconf = .ok (terminate bar order) := by
  obtain ⟨keys, hhash, hperm⟩ := h.keys
  refine ⟨keys.flatMap aconf.coursesOf, ?_, ?_⟩
  · have hcourses : (table.authors.map Prod.fst).flatMap aconf.coursesOf =
        table.courses := by
      rw [List.flatMap_map]
      refine List.flatMap_congr fun author hauthor => ?_
      rw [coursesOf, h.found_eq hauthor, Option.getD_some]
    exact hcourses ▸ hperm.flatMap_right _
  · -- every key is a string and leads to an author of the table
    have hquiet : (keys.map JavaObject.string).findSome? aconf.stumbleAt = none := by
      rw [List.findSome?_eq_none_iff]
      intro key hkey
      obtain ⟨name, hname, rfl⟩ := List.mem_map.mp hkey
      obtain ⟨author, hauthor, rfl⟩ := List.mem_map.mp (hperm.subset hname)
      simp [stumbleAt, JavaObject.string?, h.found_eq hauthor]
    have hgather : gatherCourses aconf =
        (keys.map JavaObject.string).foldlM (appendAuthor aconf) [] := by
      rw [gatherCourses, hhash, notNull, ok_bind]
    rw [hgather, foldlM_appendAuthor, hquiet, List.flatMap_map]
    rfl

/-- Whatever the courses hold, a nonempty name is a piece of `courseslist`
exactly when it is a piece of some course. -/
theorem mem_splitBar_iff_piece (h : aconf.Holds table) {courseslist : Str}
    (hgather : gatherCourses aconf = .ok courseslist) {name : Str}
    (nonempty : name ≠ []) :
    name ∈ splitBar courseslist ↔ ∃ course ∈ table.courses, name ∈ splitBar course := by
  obtain ⟨order, hperm, horder⟩ := h.gatherCourses_eq
  rw [horder] at hgather
  injection hgather with hgather
  subst hgather
  rw [splitBar, mem_splitOn_terminate_iff nonempty]
  constructor
  · rintro ⟨course, hcourse, hpiece⟩
    exact ⟨course, hperm.mem_iff.mp hcourse, hpiece⟩
  · rintro ⟨course, hcourse, hpiece⟩
    exact ⟨course, hperm.mem_iff.mpr hcourse, hpiece⟩

/-- Whatever the order of the keys, a nonempty name is a piece of
`courseslist` exactly when some author has it as a course. -/
theorem mem_splitBar_iff (h : aconf.Holds table)
    (free : ∀ course ∈ table.courses, bar ∉ course) {courseslist : Str}
    (hgather : gatherCourses aconf = .ok courseslist) {name : Str}
    (nonempty : name ≠ []) :
    name ∈ splitBar courseslist ↔ name ∈ table.courses := by
  obtain ⟨order, hperm, horder⟩ := h.gatherCourses_eq
  rw [horder] at hgather
  injection hgather with hgather
  subst hgather
  rw [splitBar, mem_splitOn_terminate
    (fun course hcourse => free course (hperm.subset hcourse)) nonempty]
  exact hperm.mem_iff

end Holds

end AuthorsConfig

/-! ## The response -/

namespace HttpSession

/-- The attributes, where there are any, are of the classes they are cast
to. -/
def Typed (session : HttpSession) : Prop :=
  (∀ object ∈ session.loggedin, object.boolean?.isSome) ∧
  (∀ object ∈ session.config, object.acmeConfig?.isSome)

/-- Somebody is logged in and there is a configuration. -/
def Open (session : HttpSession) : Prop :=
  session.loggedin = some (.boolean true) ∧
  ∃ conf, session.config = some (.acmeConfig conf)

theorem Open.typed {session : HttpSession} (h : session.Open) : session.Typed := by
  obtain ⟨hloggedin, conf, hconfig⟩ := h
  constructor
  · intro object hobject
    rw [hloggedin, Option.mem_some] at hobject
    rw [← hobject]
    rfl
  · intro object hobject
    rw [hconfig, Option.mem_some] at hobject
    rw [← hobject]
    rfl

end HttpSession

theorem JavaObject.boolean?_eq_some_iff {object : JavaObject} {b : Bool} :
    object.boolean? = some b ↔ object = .boolean b := by
  cases object <;> simp [JavaObject.boolean?]

theorem JavaObject.acmeConfig?_eq_some_iff {object : JavaObject} {conf : AcmeConfig} :
    object.acmeConfig? = some conf ↔ object = .acmeConfig conf := by
  cases object <;> simp [JavaObject.acmeConfig?]

theorem castRef_eq_ok {α : Type} {view : JavaObject → Option α} {ref : Option JavaObject}
    (h : ∀ object ∈ ref, (view object).isSome) :
    castRef view ref = .ok (ref.bind view) := by
  cases ref with
  | none => rfl
  | some object =>
      obtain ⟨a, ha⟩ := Option.isSome_iff_exists.mp (h object rfl)
      rw [castRef, cast, ha, Option.bind_some, ha]
      rfl

theorem castRef_eq_error {α : Type} {view : JavaObject → Option α} {ref : Option JavaObject}
    (h : ¬ ∀ object ∈ ref, (view object).isSome) :
    castRef view ref = .error .classCast := by
  cases ref with
  | none => exact absurd (fun object hobject => absurd hobject (by simp)) h
  | some object =>
      cases hview : view object with
      | some a =>
          refine absurd ?_ h
          intro same hsame
          rw [← Option.mem_some.mp hsame, hview]
          rfl
      | none =>
          rw [castRef, cast, hview]
          rfl

/-- The gate: a failed cast ends the request before it, and only an open
session gets past it. -/
theorem doPost_eq (aconf : AuthorsConfig) (session : HttpSession) :
    (¬ session.Typed → doPost aconf session = .error .classCast) ∧
    (session.Typed → ¬ session.Open → doPost aconf session = .ok (.redirect "Config")) ∧
    (session.Open → doPost aconf session =
      (gatherCourses aconf >>= fun _ => .ok (.page "text/html" "no-cache"))) := by
  refine ⟨?_, ?_, ?_⟩
  · intro huntyped
    unfold doPost
    by_cases hloggedin : ∀ object ∈ session.loggedin, object.boolean?.isSome
    · have hconfig : ¬ ∀ object ∈ session.config, object.acmeConfig?.isSome :=
        fun hconfig => huntyped ⟨hloggedin, hconfig⟩
      rw [castRef_eq_ok hloggedin, ok_bind, castRef_eq_error hconfig]
      rfl
    · rw [castRef_eq_error hloggedin]
      rfl
  · rintro ⟨hloggedin, hconfig⟩ hclosed
    unfold doPost
    rw [castRef_eq_ok hloggedin, ok_bind, castRef_eq_ok hconfig, ok_bind, if_pos]
    by_contra hpassed
    rw [not_or, ne_eq, not_not] at hpassed
    obtain ⟨htrue, hnonnull⟩ := hpassed
    obtain ⟨conf, hconf⟩ := Option.ne_none_iff_exists'.mp hnonnull
    -- what the casts let through is what the references point to
    obtain ⟨object, hobject, hview⟩ := Option.bind_eq_some_iff.mp htrue
    obtain ⟨object', hobject', hview'⟩ := Option.bind_eq_some_iff.mp hconf
    rw [JavaObject.boolean?_eq_some_iff] at hview
    rw [JavaObject.acmeConfig?_eq_some_iff] at hview'
    exact hclosed ⟨hview ▸ hobject, conf, hview' ▸ hobject'⟩
  · intro hopen
    unfold doPost
    rw [castRef_eq_ok hopen.typed.1, ok_bind, castRef_eq_ok hopen.typed.2, ok_bind]
    obtain ⟨hloggedin, conf, hconfig⟩ := hopen
    rw [hloggedin, hconfig]
    rfl

/-- Past the gate, a configuration that holds a table gets the page. -/
theorem doPost_page {aconf : AuthorsConfig} {table : AuthorTable}
    (hold : aconf.Holds table) {session : HttpSession} (h : session.Open) :
    doPost aconf session = .ok (.page "text/html" "no-cache") := by
  obtain ⟨order, -, hgather⟩ := hold.gatherCourses_eq
  rw [(doPost_eq aconf session).2.2 h, hgather]
  rfl

/-- With `AuthorsConfig` as the repository has it, every request that gets
past the gate ends in a null pointer exception. -/
theorem doPost_stub {session : HttpSession} (h : session.Open) :
    doPost .stub session = .error .nullPointer := by
  rw [(doPost_eq .stub session).2.2 h]
  rfl

end DuckHub.UserService
