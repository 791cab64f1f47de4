import DuckHub.Script.Values

/-!
# The select element

The part of the HTML standard's form interface that the page script touches:
the options of a `select` element with their `value` and `text`, the selected
index, and the writable `length`, which does not grow past `maxLength`.

Two points of the standard decide how course names read back:

* `option.value` is the `value` attribute as it was written, or the text when
  there is no such attribute;
* `option.text` is the text content stripped of white space at both ends,
  with inner runs collapsed to one space.

The markup of the element is not part of the servlet, so whether it is shown
as a drop-down box (in which the browser keeps an option selected whenever
options come or go) or as a list box is a field, `dropDown`. All options are
taken to be enabled: the script creates no others.
-/

namespace DuckHub

/-- What a script run may throw. Accessing a property of `undefined`, as in
`options[i].value` past the end, is a type error. -/
inductive ScriptError
  | typeError
  deriving DecidableEq, Repr

/-! ## Options -/

/-- An `option` element: its `value` attribute, if any, and text content. -/
structure OptionElement where
  valueAttr : Option Str
  content : Str
  deriving DecidableEq, Repr

namespace OptionElement

/-- A new option, without attributes and content. -/
def blank : OptionElement := ⟨none, []⟩

/-- The option whose value and text were both set to `name`. -/
def ofName (name : Str) : OptionElement := ⟨some name, name⟩

def text (o : OptionElement) : Str := normalText o.content

def value (o : OptionElement) : Str := o.valueAttr.getD o.text

def setValue (o : OptionElement) (v : Str) : OptionElement :=
  { o with valueAttr := some v }

def setText (o : OptionElement) (v : Str) : OptionElement :=
  { o with content := v }

/-- What a script can read of an option. -/
def pair (o : OptionElement) : Str × Str := (o.value, o.text)

/-- The option with its own value and text read and written back. -/
def rewritten (o : OptionElement) : OptionElement := ⟨some o.value, o.text⟩

@[simp] theorem value_ofName (name : Str) : (ofName name).value = name := rfl

@[simp] theorem text_ofName (name : Str) : (ofName name).text = normalText name := rfl

@[simp] theorem value_rewritten (o : OptionElement) : o.rewritten.value = o.value := rfl

/-- Copying the text loses nothing that can be read: it was normalized when
it was read, and normalizing again changes nothing. -/
@[simp] theorem text_rewritten (o : OptionElement) : o.rewritten.text = o.text := by
  simp [rewritten, text]

@[simp] theorem pair_rewritten (o : OptionElement) : o.rewritten.pair = o.pair := by
  simp [pair]

end OptionElement

/-! ## The element -/

/-- A `select` element with at most one selected option. -/
structure Select where
  options : List OptionElement
  selected : Option Nat
  dropDown : Bool
  selected_lt : ∀ i ∈ selected, i < options.length
  deriving DecidableEq

namespace Select

@[ext] theorem ext {s t : Select} (hoptions : s.options = t.options)
    (hselected : s.selected = t.selected) (hdrop : s.dropDown = t.dropDown) :
    s = t := by
  cases s; cases t
  simp only at hoptions hselected hdrop
  subst hoptions hselected hdrop
  rfl

def length (s : Select) : Nat := s.options.length

/-- The number of options up to which an assignment to `length` adds
options. -/
def maxLength : Nat := 100000

/-- The values of the options, in order. -/
def values (s : Select) : List Str := s.options.map OptionElement.value

/-- The options as a script reads them. -/
def pairs (s : Select) : List (Str × Str) := s.options.map OptionElement.pair

/-- The position of the selected option, or `-1`. -/
def selectedIndex (s : Select) : Int :=
  match s.selected with
  | some i => i
  | none => -1

/-- The value of the selected option, or the empty string. -/
def value (s : Select) : Str :=
  match s.selected.bind fun i => s.options[i]? with
  | some o => o.value
  | none => []

/-- Assignment to `selectedIndex`: a position that no option has selects
nothing. -/
def setSelectedIndex (s : Select) (index : Int) : Select where
  options := s.options
  selected :=
    if 0 ≤ index ∧ index.toNat < s.options.length then some index.toNat else none
  dropDown := s.dropDown
  selected_lt := by
    intro i hi
    split at hi
    · next h => exact Option.mem_some.mp hi ▸ h.2
    · exact absurd hi (by simp)

/-- The selectedness setting algorithm, which the browser runs when options
come or go: a drop-down box with nothing selected selects the first option
that is enabled, and all of them are. -/
def settle (s : Select) : Select :=
  if h : s.dropDown = true ∧ s.selected = none ∧ 0 < s.options.length then
    { s with
      selected := some 0
      selected_lt := fun _ hi => Option.mem_some.mp hi ▸ h.2.2 }
  else s

/-- Assignment to `length`: blank options are appended, unless there would be
too many, or the last options are dropped, and with them the selection if it
was among them. -/
def setLength (s : Select) (n : Nat) : Select :=
  if s.options.length < n then
    -- the standard ignores growth past the limit
    if maxLength < n then s
    else settle
      { s with
        options := s.options ++ List.replicate (n - s.options.length) .blank
        selected_lt := fun i hi => by
          have := s.selected_lt i hi
          simp only [List.length_append]
          omega }
  else if n < s.options.length then
    settle
      { s with
        options := s.options.take n
        selected := s.selected.filter (· < n)
        selected_lt := fun i hi => by
          have hin : i < n := by simpa using (Option.mem_filter_iff.mp hi).2
          have := s.selected_lt i (Option.mem_filter_iff.mp hi).1
          simp only [List.length_take]
          omega }
  else s

/-- An element as it is loaded, with one option per name. -/
def ofNames (names : List Str) (dropDown : Bool) : Select :=
  settle
    { options := names.map OptionElement.ofName
      selected := none
      dropDown := dropDown
      selected_lt := fun _ hi => absurd hi (by simp) }

/-- `options[i]`, whose properties are about to be read. -/
def optionAt (s : Select) (i : Nat) : Except ScriptError OptionElement :=
  match s.options[i]? with
  | some o => .ok o
  | none => .error .typeError

/-- An assignment to a property of `options[i]`. -/
def modifyOption (s : Select) (i : Nat) (f : OptionElement → OptionElement) :
    Except ScriptError Select :=
  if i < s.options.length then
    .ok { s with
      options := s.options.modify i f
      selected_lt := fun j hj => by simpa using s.selected_lt j hj }
  else .error .typeError

/-! ### What the operations change -/

@[simp] theorem values_length (s : Select) : s.values.length = s.options.length := by
  simp [values]

@[simp] theorem pairs_length (s : Select) : s.pairs.length = s.options.length := by
  simp [pairs]

theorem optionAt_of_lt {s : Select} {i : Nat} (hi : i < s.options.length) :
    s.optionAt i = .ok s.options[i] := by
  simp [optionAt, hi]

@[simp] theorem setSelectedIndex_options (s : Select) (index : Int) :
    (s.setSelectedIndex index).options = s.options := rfl

@[simp] theorem setSelectedIndex_dropDown (s : Select) (index : Int) :
    (s.setSelectedIndex index).dropDown = s.dropDown := rfl

theorem setSelectedIndex_selected {s : Select} {i : Nat} (hi : i < s.options.length) :
    (s.setSelectedIndex i).selected = some i := by
  simp [setSelectedIndex, hi]

@[simp] theorem settle_options (s : Select) : s.settle.options = s.options := by
  unfold settle
  split <;> rfl

@[simp] theorem settle_dropDown (s : Select) : s.settle.dropDown = s.dropDown := by
  unfold settle
  split <;> rfl

@[simp] theorem ofNames_options (names : List Str) (dropDown : Bool) :
    (ofNames names dropDown).options = names.map OptionElement.ofName := by
  simp [ofNames]

@[simp] theorem setLength_dropDown (s : Select) (n : Nat) :
    (s.setLength n).dropDown = s.dropDown := by
  unfold setLength
  split <;> split <;> simp

/-- Growth up to the limit appends blank options. -/
theorem setLength_options_of_lt {s : Select} {n : Nat} (hn : s.options.length < n)
    (hmax : n ≤ maxLength) :
    (s.setLength n).options =
      s.options ++ List.replicate (n - s.options.length) .blank := by
  rw [setLength, if_pos hn, if_neg (Nat.not_lt.mpr hmax), settle_options]

/-- Growth past the limit is ignored. -/
theorem setLength_of_full {s : Select} {n : Nat} (hn : s.options.length < n)
    (hmax : maxLength < n) : s.setLength n = s := by
  rw [setLength, if_pos hn, if_pos hmax]

theorem setLength_options_of_le {s : Select} {n : Nat} (hn : n ≤ s.options.length) :
    (s.setLength n).options = s.options.take n := by
  unfold setLength
  rw [if_neg (by omega)]
  split
  · simp
  · rw [List.take_of_length_le (by omega)]

/-- A selection stays; without one, a drop-down box that has options selects
the first. -/
theorem settle_selected (s : Select) :
    s.settle.selected =
      match s.selected with
      | some i => some i
      | none => if s.dropDown = true ∧ 0 < s.options.length then some 0 else none := by
  obtain ⟨options, selected, dropDown, hlt⟩ := s
  unfold settle
  cases selected with
  | some i => simp
  | none =>
      by_cases hdrop : dropDown = true ∧ 0 < options.length
      · simp [hdrop]
      · rw [dif_neg (fun h => hdrop ⟨h.1, h.2.2⟩)]
        simp [hdrop]

/-- Shortening keeps a selection that is not cut off. -/
theorem setLength_selected_of_lt {s : Select} {n : Nat} (hn : n < s.options.length) :
    (s.setLength n).selected =
      match s.selected.filter (· < n) with
      | some i => some i
      | none => if s.dropDown = true ∧ 0 < n then some 0 else none := by
  rw [setLength, if_neg (by omega), if_pos hn, settle_selected]
  simp only [List.length_take_of_le (Nat.le_of_lt hn)]

/-- The selected option exists, so the value read of the element is its
value. -/
theorem value_of_selected {s : Select} {i : Nat} (hi : s.selected = some i) :
    ∃ h : i < s.options.length, s.value = s.options[i].value := by
  have hlt : i < s.options.length := s.selected_lt i hi
  exact ⟨hlt, by simp [value, hi, hlt]⟩

end Select

end DuckHub
