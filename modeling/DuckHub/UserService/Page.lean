import DuckHub.Lib.Loop
import DuckHub.Script.Dom

/-!
# The course-list editor page

The script that `UserService.doPost` emits, function by function: the three
handlers of the author form (`checkpasswd`, `addToList`, `removeFromList`) and
`IsDigit`. The state is the form: its text fields, the select element with the
author's courses, the alerts shown so far, and what was submitted.

`courseslist`, the one field the script only reads, carries the string that
the servlet builds from the courses of all authors (`Servlet.lean`).

A handler may throw (`options[i]` past the end is `undefined`); the functions
below say so in their type. Which of them do, and when, is proved and not
decided here: `addToList` does, on a list that can grow no further, and the
others never do (`handle_eq` in `Logic/Editor.lean`).
-/

namespace DuckHub.UserService

open Lib

/-- The alert boxes of the script. -/
inductive Alert
  | inequalPasswords
  | blankValue
  | barSign
  | leadingDigit
  | alreadyAssigned
  | takenByAuthor
  | nothingToRemove
  | nothingSelected
  deriving DecidableEq, Repr

/-- The text of an alert box. -/
def Alert.message : Alert → String
  | .inequalPasswords => "Passwords are inequal"
  | .blankValue => "You cannot add blank values!"
  | .barSign => "Course name should not contain '|' sign!"
  | .leadingDigit => "Course name should start with a character!"
  | .alreadyAssigned => "You have already assigned this course for this author!"
  | .takenByAuthor =>
      "One of the authors already has a course with this name! Please, enter another name!"
  | .nothingToRemove => "There are no values which can be removed!"
  | .nothingSelected => "You must select an entry to be removed!"

/-- The text tells the reason: no two alerts look alike. -/
theorem Alert.message_injective : Function.Injective Alert.message := by
  intro a b h
  cases a <;> cases b <;> first | rfl | exact absurd h (by decide)

/-- `document.authorform` and what the page has shown and sent. -/
structure Page where
  password : Str
  password2 : Str
  coursename : Str
  courseslist : Str
  courses : Str
  courselist : Select
  alerts : List Alert
  /-- The `courses` field of each submission, in order. -/
  submitted : List Str
  deriving DecidableEq

/-- The form as it is loaded. -/
def Page.load (courseslist : Str) (courselist : Select) : Page where
  password := []
  password2 := []
  coursename := []
  courseslist := courseslist
  courses := []
  courselist := courselist
  alerts := []
  submitted := []

/-- `alert(...)`. -/
def Page.alert (p : Page) (a : Alert) : Page :=
  { p with alerts := p.alerts ++ [a] }

/-- The string `IsDigit` searches. -/
def digits : Str :=
  ['0', '1', '2', '3', '4', '5', '6', '7', '8', '9'].map unit

/-- `IsDigit(txtChar)`. The empty string occurs in every string, so it counts
as a digit; the caller excludes it. -/
def IsDigit (txtChar : Str) : Bool :=
  if indexOf digits txtChar < 0 then false else true

/-! ## `checkpasswd` -/

/-- The loop that joins the nonempty option values, each followed by a bar. -/
def totalvalueLoop (listField : Select) : Except ScriptError Str :=
  forLoop (fun i totalvalue => do
    let option ← listField.optionAt i
    if option.value ≠ [] then
      .ok (.yield (totalvalue ++ option.value ++ [bar]))
    else .ok (.yield totalvalue))
    0 listField.length []

def checkpasswd (p : Page) : Except ScriptError Page :=
  if p.password = p.password2 then do
    let totalvalue ← totalvalueLoop p.courselist
    .ok { p with
      courses := totalvalue
      submitted := p.submitted ++ [totalvalue] }
  else .ok (p.alert .inequalPasswords)

/-! ## `addToList` -/

/-- First scan: is there an option whose value and text are both the new
name? The state is the page and the flag `exists`. -/
def assignedLoop (newValue : Str) (p : Page) (exists' : Nat) :
    Except ScriptError (Page × Nat) :=
  forLoop (fun i (p, exists') => do
    let option ← p.courselist.optionAt i
    if option.value = newValue ∧ option.text = newValue then
      .ok (.done (p.alert .alreadyAssigned, 1))
    else .ok (.yield (p, exists')))
    0 p.courselist.length (p, exists')

/-- Second scan: is the new name among the pieces that came from the
servlet? -/
def fromJavaLoop (newValue : Str) (fromJava : List Str) (p : Page) (exists' : Nat) :
    Except ScriptError (Page × Nat) :=
  forLoop (fun i (p, exists') =>
    if fromJava[i]? = some newValue then
      .ok (.done (p.alert .takenByAuthor, 1))
    else .ok (.yield (p, exists')))
    0 fromJava.length (p, exists')

/-- Grow the list by one option, fill it in and select it. Where `length++` is
ignored there is no option to fill in, and the first assignment throws. -/
def appendOption (newValue : Str) (p : Page) : Except ScriptError Page := do
  -- `length++` returns the old length, the position of the new option
  let len := p.courselist.length
  let listField := p.courselist.setLength (len + 1)
  let listField ← listField.modifyOption len (·.setValue newValue)
  let listField ← listField.modifyOption len (·.setText newValue)
  .ok { p with courselist := listField.setSelectedIndex len }

def addToList (p : Page) : Except ScriptError Page :=
  let newValue := p.coursename
  let coursesValue := p.courseslist
  let fromJava := splitBar coursesValue
  if newValue = [] then .ok (p.alert .blankValue)
  else if indexOf newValue [bar] > -1 then .ok (p.alert .barSign)
  else if IsDigit (charAt newValue 0) then .ok (p.alert .leadingDigit)
  else do
    let (p, exists') ← assignedLoop newValue p 0
    let (p, exists') ←
      if exists' = 0 then fromJavaLoop newValue fromJava p exists'
      else .ok (p, exists')
    if exists' = 0 then appendOption newValue p
    else .ok p

/-! ## `removeFromList` -/

/-- One of the four guarded copies of a round of the first loop: when `cond`
holds, `read` of option `i` goes to position `slot` of the array. -/
def copyWhen (cond : Prop) [Decidable cond] (listField : Select) (i : Nat)
    (read : OptionElement → Str) (slot : Nat) (array : JsArray Str) :
    Except ScriptError (JsArray Str) :=
  if cond then do
    let option ← listField.optionAt i
    .ok (array.put slot (read option))
  else .ok array

/-- First loop: put text and value of every option except the selected one
into the two arrays, those behind it one position earlier. -/
def replaceLoop (listField : Select) (selected : Int) :
    Except ScriptError (JsArray Str × JsArray Str) :=
  forLoop (fun i (replaceTextArray, replaceValueArray) => do
    let replaceTextArray ←
      copyWhen (i < selected) listField i OptionElement.text i replaceTextArray
    let replaceTextArray ←
      copyWhen (i > selected) listField i OptionElement.text (i - 1) replaceTextArray
    let replaceValueArray ←
      copyWhen (i < selected) listField i OptionElement.value i replaceValueArray
    let replaceValueArray ←
      copyWhen (i > selected) listField i OptionElement.value (i - 1) replaceValueArray
    .ok (.yield (replaceTextArray, replaceValueArray)))
    0 listField.length
    (JsArray.ofLength (listField.length - 1), JsArray.ofLength (listField.length - 1))

/-- Second loop: put the arrays back into the options. -/
def putBackLoop (replaceTextArray replaceValueArray : JsArray Str)
    (listField : Select) : Except ScriptError Select :=
  forLoop (fun i listField => do
    let listField ←
      listField.modifyOption i (·.setValue (toDOMString (replaceValueArray.get i)))
    let listField ←
      listField.modifyOption i (·.setText (toDOMString (replaceTextArray.get i)))
    .ok (.yield listField))
    0 replaceTextArray.length listField

def removeFromList (p : Page) : Except ScriptError Page :=
  let listField := p.courselist
  -- a length is never negative, so this guard never fires
  if (listField.length : Int) = -1 then .ok (p.alert .nothingToRemove)
  else
    let selected := listField.selectedIndex
    if selected = -1 ∨ listField.value = [] then .ok (p.alert .nothingSelected)
    else do
      let (replaceTextArray, replaceValueArray) ← replaceLoop listField selected
      let listField := listField.setLength replaceTextArray.length
      let listField ← putBackLoop replaceTextArray replaceValueArray listField
      .ok { p with courselist := listField }

/-! ## The page as a machine -/

/-- What the user does: fill in a field and press its button, pick an entry
of the list, or press the button that removes the selected entry. -/
inductive Event
  | checkpasswd (password password2 : Str)
  | addToList (coursename : Str)
  | select (index : Int)
  | removeFromList
  deriving DecidableEq, Repr

/-- The page with the fields filled in, before the button is pressed. -/
def Page.fillIn (p : Page) : Event → Page
  | .checkpasswd password password2 =>
      { p with password := password, password2 := password2 }
  | .addToList coursename => { p with coursename := coursename }
  | .select _ => p
  | .removeFromList => p

/-- The handler an event runs, after the fields it fills in. -/
def handle (p : Page) (e : Event) : Except ScriptError Page :=
  let p := p.fillIn e
  match e with
  | .checkpasswd _ _ => checkpasswd p
  | .addToList _ => addToList p
  | .select index =>
      .ok { p with courselist := p.courselist.setSelectedIndex index }
  | .removeFromList => removeFromList p

/-- The page after an event. An exception ends the handler and leaves the page
as it found it: the only statement that throws is the first that follows a
`length++` without effect (`appendOption_of_full`), and nothing before it
changes the page. -/
def dispatch (p : Page) (e : Event) : Page :=
  match handle p e with
  | .ok p' => p'
  | .error _ => p.fillIn e

end DuckHub.UserService
