import DuckHub.Lib.WhiteSpace

/-!
# Strings and arrays

The values the servlet and the page script compute with. A string, in Java as
in the script, is a sequence of 16-bit code units: indexing, comparison,
`split` and `indexOf` work on code units and never look at the characters they
encode, so unpaired surrogates are strings like any other.

A script array may have holes; reading a hole or past the end gives
`undefined`, modelled as `none`.
-/

namespace DuckHub

open Lib

/-- One UTF-16 code unit. -/
abbrev CodeUnit := UInt16

/-- A string of Java or of the script. -/
abbrev Str := List CodeUnit

/-- The code unit of an ASCII character. -/
def unit (c : Char) : CodeUnit := c.val.toUInt16

/-- The separator of course lists. -/
def bar : CodeUnit := unit '|'

/-! ## String operations of the script -/

/-- `s.charAt(i)`: a string of one code unit, or empty past the end. -/
def charAt (s : Str) (i : Nat) : Str := s[i]?.toList

/-- The first position where `pattern` occurs in `s`, if there is one. -/
def firstMatch (pattern : Str) : Str → Option Nat
  | [] => if pattern = [] then some 0 else none
  | c :: rest =>
      if pattern.isPrefixOf (c :: rest) then some 0
      else (firstMatch pattern rest).map (· + 1)

/-- `s.indexOf(pattern)`: the first position, or `-1`. -/
def indexOf (s pattern : Str) : Int :=
  match firstMatch pattern s with
  | some i => i
  | none => -1

/-- `s.split("|")`. -/
def splitBar (s : Str) : List Str := s.splitOn bar

/-- A search for a single code unit finds it exactly where it occurs. -/
theorem indexOf_unit (s : Str) (c : CodeUnit) : -1 < indexOf s [c] ↔ c ∈ s := by
  have hfirst : (firstMatch [c] s).isSome ↔ c ∈ s := by
    induction s with
    | nil => simp [firstMatch]
    | cons d rest ih =>
        by_cases hcd : c = d
        · simp [firstMatch, List.isPrefixOf, hcd]
        · simp [firstMatch, List.isPrefixOf, hcd, ih]
  rw [← hfirst, indexOf]
  cases firstMatch [c] s with
  | none => simp
  | some i => simp; omega

/-! ## ASCII classes -/

/-- ASCII white space: tab, line feed, form feed, carriage return, space. -/
def isAsciiSpace (c : CodeUnit) : Bool :=
  c = 0x09 || c = 0x0A || c = 0x0C || c = 0x0D || c = 0x20

/-- The space, which stands for a run of white space once it is collapsed. -/
def space : CodeUnit := unit ' '

def isAsciiDigit (c : CodeUnit) : Bool := 0x30 ≤ c && c ≤ 0x39

/-- The string begins with an ASCII digit. -/
def BeginsWithDigit (s : Str) : Prop := s.head?.any isAsciiDigit = true

instance (s : Str) : Decidable (BeginsWithDigit s) :=
  inferInstanceAs (Decidable (_ = _))

/-- What the browser makes of a string that it reads back as element text. -/
def normalText (s : Str) : Str := stripAndCollapse isAsciiSpace space s

/-- The string reads back unchanged as element text. -/
abbrev ReadsBack (s : Str) : Prop := Tidy isAsciiSpace space s

theorem normalText_eq_self_iff {s : Str} : normalText s = s ↔ ReadsBack s :=
  stripAndCollapse_eq_self_iff

@[simp] theorem normalText_normalText (s : Str) :
    normalText (normalText s) = normalText s :=
  stripAndCollapse_idem s

/-! ## Arrays of the script -/

/-- A script array; `none` is a hole. -/
structure JsArray (α : Type) where
  slots : List (Option α)
  deriving DecidableEq, Repr

namespace JsArray

variable {α : Type}

/-- `new Array(n)`. -/
def ofLength (n : Nat) : JsArray α := ⟨List.replicate n none⟩

def length (a : JsArray α) : Nat := a.slots.length

/-- `a[i]`, which is `undefined` at a hole and past the end. -/
def get (a : JsArray α) (i : Nat) : Option α := a.slots[i]?.join

/-- `a[i] = v`, which extends the array with holes when `i` is past its
end. -/
def put (a : JsArray α) (i : Nat) (v : α) : JsArray α :=
  if i < a.slots.length then ⟨a.slots.set i (some v)⟩
  else ⟨a.slots ++ List.replicate (i - a.slots.length) none ++ [some v]⟩

/-- An array whose first slots are filled and whose other slots are holes. -/
def filled (n : Nat) (values : List α) : JsArray α :=
  ⟨values.map some ++ List.replicate (n - values.length) none⟩

theorem filled_nil (n : Nat) : filled n ([] : List α) = ofLength n := by
  simp [filled, ofLength]

theorem filled_full (values : List α) :
    filled values.length values = ⟨values.map some⟩ := by
  simp [filled]

/-- Writing the first hole fills one more slot. -/
theorem put_filled {n i : Nat} {values : List α} (hi : values.length = i)
    (hn : i < n) (v : α) :
    (filled n values).put i v = filled n (values ++ [v]) := by
  subst hi
  have hholes : n - values.length = n - (values.length + 1) + 1 := by omega
  have hlt : values.length < (filled n values).slots.length := by
    simp [filled]; omega
  rw [put, if_pos hlt]
  simp [filled, hholes, List.replicate_succ, List.set_append_right]

end JsArray

/-- What a DOM string attribute receives when a script value is assigned to
it: `undefined` becomes the word. -/
def toDOMString (v : Option Str) : Str :=
  v.getD (['u', 'n', 'd', 'e', 'f', 'i', 'n', 'e', 'd'].map unit)

end DuckHub
