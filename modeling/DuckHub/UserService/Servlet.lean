import Mathlib.Data.List.Nodup
import Mathlib.Data.List.Perm.Basic
import DuckHub.Lib.Loop
import DuckHub.Script.Values

/-!
# The servlet

`UserService.doPost` and the classes it reads: the session gate, and the
nested loop that joins the courses of all authors into `courseslist`. A
reference that Java may find `null` is an `Option`, and dereferencing `null` is
an exception. What comes out of a session or an untyped collection is some
object (`JavaObject`), and casting it to a class it is not of is an exception
too; the elements of a course vector are strings.

`AuthorsConfig` is a parameter here because the repository ships it as a stub
(`AuthorsConfig.stub`): `AuthorHash` is `null` and `GetAuthor` returns `null`.
`AuthorTable` is what an implementation would hold, and `AuthorsConfig.Holds`
says that a configuration answers with that table, its keys enumerated in any
order.
-/

namespace DuckHub.UserService

open Lib

inductive JavaException
  | nullPointer
  | arrayIndexOutOfBounds
  | classCast
  deriving DecidableEq, Repr

/-- Dereferencing a reference. -/
def notNull {α : Type} : Option α → Except JavaException α
  | some a => .ok a
  | none => .error .nullPointer

/-! ## The classes -/

/-- `AcmeConfig`, a class without members. -/
structure AcmeConfig where
  deriving DecidableEq, Repr

/-- An object, of one of the classes `doPost` casts to or of another. -/
inductive JavaObject
  | string (s : Str)
  | boolean (b : Bool)
  | acmeConfig (conf : AcmeConfig)
  | other
  deriving DecidableEq, Repr

namespace JavaObject

def string? : JavaObject → Option Str
  | .string s => some s
  | _ => none

def boolean? : JavaObject → Option Bool
  | .boolean b => some b
  | _ => none

def acmeConfig? : JavaObject → Option AcmeConfig
  | .acmeConfig conf => some conf
  | _ => none

end JavaObject

/-- The cast of an object to the class that `view` recognizes. -/
def cast {α : Type} (view : JavaObject → Option α) (object : JavaObject) :
    Except JavaException α :=
  match view object with
  | some a => .ok a
  | none => .error .classCast

/-- The cast of a reference, which `null` passes. -/
def castRef {α : Type} (view : JavaObject → Option α) :
    Option JavaObject → Except JavaException (Option α)
  | none => .ok none
  | some object => do
      let a ← cast view object
      .ok (some a)

/-- `AcmeAuthor`: its course vector, empty unless it is set. -/
structure AcmeAuthor where
  courseList : Option (List Str) := some []
  deriving DecidableEq, Repr

def AcmeAuthor.setCourseList (author : AcmeAuthor) (v : Option (List Str)) : AcmeAuthor :=
  { author with courseList := v }

def AcmeAuthor.getCourseList (author : AcmeAuthor) : Option (List Str) :=
  author.courseList

@[simp] theorem AcmeAuthor.getCourseList_setCourseList (author : AcmeAuthor)
    (v : Option (List Str)) : (author.setCourseList v).getCourseList = v := rfl

/-- `AuthorsConfig`: the keys of `AuthorHash`, in the order in which `keys()`
enumerates them, and the lookup of an author. -/
structure AuthorsConfig where
  AuthorHash : Option (List JavaObject)
  GetAuthor : Str → Option AcmeAuthor

/-- The class as the repository has it. -/
def AuthorsConfig.stub : AuthorsConfig := ⟨none, fun _ => none⟩

/-- The two session attributes `doPost` reads. -/
structure HttpSession where
  loggedin : Option JavaObject
  config : Option JavaObject

/-! ## `doPost` -/

/-- `authorCL.elementAt(i)`. -/
def elementAt (authorCL : List Str) (i : Nat) : Except JavaException Str :=
  match authorCL[i]? with
  | some course => .ok course
  | none => .error .arrayIndexOutOfBounds

/-- The inner loop: append an author's courses to `courseslist`, each
followed by a bar. -/
def appendCourses (authorCL : List Str) (courseslist : Str) :
    Except JavaException Str :=
  forLoop (fun i courseslist => do
    let course ← elementAt authorCL i
    .ok (.yield (courseslist ++ course ++ [bar])))
    0 authorCL.length courseslist

/-- One round of the outer loop, for the author with this key. -/
def appendAuthor (aconf : AuthorsConfig) (courseslist : Str) (key : JavaObject) :
    Except JavaException Str := do
  let key ← cast JavaObject.string? key
  let acmeAuthor ← notNull (aconf.GetAuthor key)
  let authorCL ← notNull acmeAuthor.getCourseList
  appendCourses authorCL courseslist

/-- The nested loop over all authors, from the empty string. -/
def gatherCourses (aconf : AuthorsConfig) : Except JavaException Str := do
  let keys ← notNull aconf.AuthorHash
  keys.foldlM (appendAuthor aconf) []

/-- What the response carries: a redirect, or the page with its script. -/
inductive Reply
  | redirect (location : String)
  | page (contentType cacheControl : String)
  deriving DecidableEq, Repr

/-- `doPost`. The page is written from constants; `courseslist` is computed
and stays a local variable. -/
def doPost (aconf : AuthorsConfig) (session : HttpSession) :
    Except JavaException Reply := do
  let loggedin ← castRef JavaObject.boolean? session.loggedin
  let conf ← castRef JavaObject.acmeConfig? session.config
  if loggedin ≠ some true ∨ conf = none then
    .ok (.redirect "Config")
  else do
    let _courseslist ← gatherCourses aconf
    .ok (.page "text/html" "no-cache")

def doGet (aconf : AuthorsConfig) (session : HttpSession) :
    Except JavaException Reply :=
  doPost aconf session

/-! ## Author tables -/

/-- A finite table of authors: a key and a course list each. -/
structure AuthorTable where
  authors : List (Str × List Str)
  keys_nodup : (authors.map Prod.fst).Nodup

/-- All courses of all authors. -/
def AuthorTable.courses (table : AuthorTable) : List Str :=
  table.authors.flatMap Prod.snd

/-- The configuration holds the table: `keys()` enumerates its keys in some
order, and every author is found with the courses the table has. -/
structure AuthorsConfig.Holds (aconf : AuthorsConfig) (table : AuthorTable) : Prop where
  keys : ∃ keys : List Str, aconf.AuthorHash = some (keys.map .string) ∧
    keys.Perm (table.authors.map Prod.fst)
  author : ∀ author ∈ table.authors,
    aconf.GetAuthor author.1 = some { courseList := some author.2 }

/-- The configuration that looks authors up in the table and enumerates the
keys in the given order. -/
def AuthorTable.config (table : AuthorTable) (keys : List Str) : AuthorsConfig where
  AuthorHash := some (keys.map .string)
  GetAuthor key := (table.authors.find? (·.1 = key)).map fun author =>
    ({} : AcmeAuthor).setCourseList (some author.2)

/-- Every table is held by some configuration, with any enumeration of its
keys. -/
theorem AuthorTable.config_holds (table : AuthorTable) {keys : List Str}
    (hkeys : keys.Perm (table.authors.map Prod.fst)) :
    (table.config keys).Holds table where
  keys := ⟨keys, rfl, hkeys⟩
  author := by
    intro author hauthor
    have hfound : (table.authors.find? (·.1 = author.1)).isSome := by
      rw [List.find?_isSome]
      exact ⟨author, hauthor, by simp⟩
    obtain ⟨other, hother⟩ := Option.isSome_iff_exists.mp hfound
    have hkey : other.1 = author.1 := by simpa using List.find?_some hother
    have heq : other = author :=
      List.inj_on_of_nodup_map table.keys_nodup
        (List.mem_of_find?_eq_some hother) hauthor hkey
    simp [AuthorTable.config, hother, heq, AcmeAuthor.setCourseList]

end DuckHub.UserService
