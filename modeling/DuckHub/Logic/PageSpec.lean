import Mathlib.Data.List.InsertIdx
import DuckHub.Lib.Delimited
import DuckHub.UserService.Page

/-!
# What the page script does

One specification per handler, in closed form and with the loops gone:

* `checkpasswd_eq` — submit the encoded nonempty values, or alert;
* `addToList_eq` — the first refusal that applies (`refusal`), or one new,
  selected option at the end, or an exception if the list cannot grow;
* `removeFromList_cases` — an alert, or the selected entry is gone and every
  other option has been rewritten with its own value and text.

`Logic/Editor.lean` restates them for `dispatch`, which is all that later
modules use.
-/

namespace DuckHub

open Lib

namespace Select

/-! ## Select elements in closed form -/

/-- The element with its options replaced by as many others. -/
def withOptions (s : Select) (os : List OptionElement)
    (h : os.length = s.options.length) : Select :=
  { s with
    options := os
    selected_lt := fun i hi => h ▸ s.selected_lt i hi }

/-- The element with one more option, which is selected. -/
def append (s : Select) (name : Str) : Select where
  options := s.options ++ [.ofName name]
  selected := some s.options.length
  dropDown := s.dropDown
  selected_lt := fun i hi => by
    rw [← Option.mem_some.mp hi]
    simp

/-- The element without its entry `k`: the last option is dropped, and the
others take over the values and texts of the remaining entries. -/
def removed (s : Select) (k : Nat) (hk : k < s.options.length) : Select :=
  (s.setLength (s.options.length - 1)).withOptions
    ((s.options.eraseIdx k).map OptionElement.rewritten) (by
      rw [setLength_options_of_le (Nat.sub_le _ _), List.length_map,
        List.length_eraseIdx_of_lt hk, List.length_take]
      omega)

@[simp] theorem append_pairs (s : Select) (name : Str) :
    (s.append name).pairs = s.pairs ++ [(name, normalText name)] := by
  simp [append, pairs, OptionElement.pair]

@[simp] theorem removed_pairs (s : Select) (k : Nat) (hk : k < s.options.length) :
    (s.removed k hk).pairs = s.pairs.eraseIdx k := by
  simp [removed, withOptions, pairs, List.eraseIdx_map, Function.comp_def]

/-- An assignment to a property of an option that exists. -/
theorem modifyOption_of_lt {s : Select} {i : Nat} (f : OptionElement → OptionElement)
    (hi : i < s.options.length) :
    s.modifyOption i f = .ok (s.withOptions (s.options.modify i f) (by simp)) := by
  simp [modifyOption, hi, withOptions]

end Select

namespace UserService

/-! ## `IsDigit` -/

/-- The ten digits are one range of code units. -/
theorem mem_digits_iff (c : CodeUnit) : c ∈ digits ↔ isAsciiDigit c = true := by
  simp only [digits, List.map_cons, List.map_nil, List.mem_cons, List.not_mem_nil,
    or_false, isAsciiDigit, Bool.and_eq_true, decide_eq_true_eq,
    UInt16.le_iff_toNat_le, ← UInt16.toNat_inj]
  simp [unit]
  omega

/-- `IsDigit` on the first code unit is the range test. -/
theorem isDigit_charAt_zero {name : Str} (nonempty : name ≠ []) :
    IsDigit (charAt name 0) = true ↔ BeginsWithDigit name := by
  cases name with
  | nil => exact absurd rfl nonempty
  | cons c rest =>
      have hfound : -1 < indexOf digits [c] ↔ isAsciiDigit c = true :=
        (indexOf_unit digits c).trans (mem_digits_iff c)
      show IsDigit [c] = true ↔ isAsciiDigit c = true
      rw [← hfound, IsDigit]
      split <;> simp <;> omega

/-! ## `checkpasswd` -/

/-- Joining the nonempty values skips empty ones and ends each with a bar. -/
private theorem foldl_totalvalue (options : List OptionElement) (s : Str) :
    options.foldl (fun totalvalue option =>
        if option.value ≠ [] then totalvalue ++ option.value ++ [bar]
        else totalvalue) s =
      s ++ terminate bar ((options.map OptionElement.value).filter (· ≠ [])) := by
  induction options generalizing s with
  | nil => simp
  | cons option rest ih =>
      rw [List.foldl_cons, ih]
      by_cases hvalue : option.value = []
      · simp [hvalue]
      · simp [hvalue]

theorem totalvalueLoop_eq (s : Select) :
    totalvalueLoop s = .ok (terminate bar (s.values.filter (· ≠ []))) := by
  unfold totalvalueLoop Select.length
  rw [forLoop_foldl s.options (fun totalvalue option =>
        if option.value ≠ [] then totalvalue ++ option.value ++ [bar]
        else totalvalue), foldl_totalvalue]
  · rfl
  · intro i totalvalue hi
    rw [Select.optionAt_of_lt hi, ok_bind]
    split <;> rfl

/-- The passwords decide: equal ones submit the nonempty values, each
followed by a bar; different ones only alert. -/
theorem checkpasswd_eq (p : Page) :
    checkpasswd p = .ok (
      if p.password = p.password2 then
        let totalvalue := terminate bar (p.courselist.values.filter (· ≠ []))
        { p with
          courses := totalvalue
          submitted := p.submitted ++ [totalvalue] }
      else p.alert .inequalPasswords) := by
  unfold checkpasswd
  split
  · rw [totalvalueLoop_eq]
    rfl
  · rfl

/-! ## `addToList` -/

/-- The duplicate test of the first scan: some option reads back as `name` in
both fields. -/
def Assigned (s : Select) (name : Str) : Prop :=
  ∃ option ∈ s.options, option.value = name ∧ option.text = name

instance (s : Select) (name : Str) : Decidable (Assigned s name) :=
  inferInstanceAs (Decidable (∃ option ∈ s.options, _))

/-- Why `addToList` refuses a name, if it does: the first test that applies. -/
def refusal (p : Page) (name : Str) : Option Alert :=
  if name = [] then some .blankValue
  else if bar ∈ name then some .barSign
  else if BeginsWithDigit name then some .leadingDigit
  else if Assigned p.courselist name then some .alreadyAssigned
  else if name ∈ splitBar p.courseslist then some .takenByAuthor
  else none

private theorem any_iff_assigned (s : Select) (name : Str) :
    (s.options.any fun option =>
      decide (option.value = name ∧ option.text = name)) = true ↔
      Assigned s name := by
  simp [Assigned]

theorem assignedLoop_eq (name : Str) (p : Page) (exists' : Nat) :
    assignedLoop name p exists' = .ok (
      if Assigned p.courselist name then (p.alert .alreadyAssigned, 1)
      else (p, exists')) := by
  unfold assignedLoop Select.length
  rw [forLoop_search p.courselist.options
    (fun option => decide (option.value = name ∧ option.text = name))
    (p.alert .alreadyAssigned, 1)]
  · simp only [any_iff_assigned]
  · intro i hi
    simp only [Select.optionAt_of_lt hi, ok_bind, decide_eq_true_eq]
    split <;> rfl

theorem fromJavaLoop_eq (name : Str) (fromJava : List Str) (p : Page)
    (exists' : Nat) :
    fromJavaLoop name fromJava p exists' = .ok (
      if name ∈ fromJava then (p.alert .takenByAuthor, 1) else (p, exists')) := by
  unfold fromJavaLoop
  rw [forLoop_search fromJava (fun piece => decide (piece = name))
    (p.alert .takenByAuthor, 1)]
  · simp
  · intro i hi
    simp only [List.getElem?_eq_getElem hi, Option.some.injEq, decide_eq_true_eq]
    split <;> rfl

/-- The new option is the last one, has the name as value and text, and is
selected. -/
theorem appendOption_of_room (name : Str) {p : Page}
    (hroom : p.courselist.options.length < Select.maxLength) :
    appendOption name p = .ok { p with courselist := p.courselist.append name } := by
  have hgrown : (p.courselist.setLength (p.courselist.options.length + 1)).options =
      p.courselist.options ++ [.blank] := by
    simp [Select.setLength_options_of_lt (Nat.lt_succ_self _) hroom]
  unfold appendOption Select.length
  dsimp only
  rw [Select.modifyOption_of_lt _ (by simp [hgrown]), ok_bind,
    Select.modifyOption_of_lt _ (by simp [hgrown, Select.withOptions]), ok_bind]
  simp only [Except.ok.injEq, Page.mk.injEq, true_and, and_true]
  apply Select.ext
  · simp only [Select.setSelectedIndex_options, Select.withOptions, hgrown,
      modify_length_append]
    rfl
  · exact Select.setSelectedIndex_selected (by simp [Select.withOptions, hgrown])
  · simp [Select.withOptions, Select.append]

/-- On a full list `length++` does nothing, and the assignment that is meant
for the new option throws. -/
theorem appendOption_of_full (name : Str) {p : Page}
    (hfull : Select.maxLength ≤ p.courselist.options.length) :
    p.courselist.setLength (p.courselist.options.length + 1) = p.courselist ∧
    appendOption name p = .error .typeError := by
  have hignored : p.courselist.setLength (p.courselist.options.length + 1) =
      p.courselist :=
    Select.setLength_of_full (Nat.lt_succ_self _) (Nat.lt_succ_of_le hfull)
  refine ⟨hignored, ?_⟩
  unfold appendOption Select.length
  dsimp only
  rw [hignored, Select.modifyOption, if_neg (Nat.lt_irrefl _)]
  rfl

theorem appendOption_eq (name : Str) (p : Page) :
    appendOption name p =
      if p.courselist.options.length < Select.maxLength then
        .ok { p with courselist := p.courselist.append name }
      else .error .typeError := by
  split_ifs with hroom
  · exact appendOption_of_room name hroom
  · exact (appendOption_of_full name (Nat.not_lt.mp hroom)).2

/-- `addToList` alerts once, for the first test the name fails, or appends
it, or throws because there is no room. -/
theorem addToList_eq (p : Page) :
    addToList p =
      match refusal p p.coursename with
      | some a => .ok (p.alert a)
      | none =>
          if p.courselist.options.length < Select.maxLength then
            .ok { p with courselist := p.courselist.append p.coursename }
          else .error .typeError := by
  unfold addToList refusal
  by_cases hblank : p.coursename = []
  · simp [hblank]
  by_cases hbar : bar ∈ p.coursename
  · simp [hblank, hbar, indexOf_unit]
  by_cases hdigit : BeginsWithDigit p.coursename
  · simp [hblank, hbar, hdigit, indexOf_unit, isDigit_charAt_zero]
  simp only [hblank, hbar, hdigit, indexOf_unit, isDigit_charAt_zero hblank,
    gt_iff_lt, if_false, assignedLoop_eq, ok_bind]
  by_cases hassigned : Assigned p.courselist p.coursename
  · simp [hassigned]
  by_cases htaken : p.coursename ∈ splitBar p.courseslist
  · simp [hassigned, htaken, fromJavaLoop_eq]
  · simp [hassigned, htaken, fromJavaLoop_eq, appendOption_eq]

/-! ## `removeFromList` -/

/-- The array of the first loop before round `i`: what it has read so far,
without the entry `k` that is left out, and holes behind. -/
private def kept (read : OptionElement → Str) (s : Select) (k i : Nat) :
    JsArray Str :=
  .filled (s.options.length - 1) (((s.options.map read).take i).eraseIdx k)

/-- Round `k` of a copy that leaves out entry `k` adds nothing. -/
private theorem take_succ_eraseIdx_self {xs : List Str} {k : Nat} (hk : k < xs.length) :
    (xs.take (k + 1)).eraseIdx k = (xs.take k).eraseIdx k := by
  have hlen : (xs.take k).length = k := List.length_take_of_le (Nat.le_of_lt hk)
  rw [List.take_succ_eq_append_getElem hk,
    List.eraseIdx_append_of_length_le (Nat.le_of_eq hlen), hlen, Nat.sub_self,
    List.eraseIdx_of_length_le (Nat.le_of_eq hlen)]
  simp

/-- Every other round adds the entry it is at. -/
private theorem take_succ_eraseIdx_of_ne {xs : List Str} {k i : Nat} (hne : i ≠ k)
    (hi : i < xs.length) :
    (xs.take (i + 1)).eraseIdx k = (xs.take i).eraseIdx k ++ [xs[i]] := by
  have hlen : (xs.take i).length = i := List.length_take_of_le (Nat.le_of_lt hi)
  rw [List.take_succ_eq_append_getElem hi]
  by_cases hki : k < i
  · exact List.eraseIdx_append_of_lt_length (by omega) _
  · have hlast : [xs[i]].eraseIdx (k - i) = [xs[i]] :=
      List.eraseIdx_of_length_le (by simp only [List.length_singleton]; omega)
    rw [List.eraseIdx_append_of_length_le (by omega), hlen, hlast,
      List.eraseIdx_of_length_le (by omega)]

private theorem kept_put (read : OptionElement → Str) {s : Select} {k i slot : Nat}
    (hk : k < s.options.length) (hi : i < s.options.length) (hne : i ≠ k)
    (hslot : slot = if k < i then i - 1 else i) :
    (kept read s k i).put slot (read s.options[i]) = kept read s k (i + 1) := by
  have hi' : i < (s.options.map read).length := by simpa using hi
  have hlen : (((s.options.map read).take i).eraseIdx k).length = slot := by
    rw [List.length_eraseIdx, List.length_take_of_le (Nat.le_of_lt hi'), hslot]
  have hroom : slot < s.options.length - 1 := by
    rw [hslot]
    split <;> omega
  rw [kept, JsArray.put_filled hlen hroom, kept, take_succ_eraseIdx_of_ne hne hi',
    List.getElem_map]

/-- The two guarded copies of a round fill the next slot, whichever side of
the removed entry the round is on. -/
private theorem copyWhen_round (read : OptionElement → Str) (s : Select) {k i : Nat}
    (hk : k < s.options.length) (hi : i < s.options.length) :
    ∃ middle, copyWhen ((i : Int) < k) s i read i (kept read s k i) = .ok middle ∧
      copyWhen ((i : Int) > k) s i read (i - 1) middle = .ok (kept read s k (i + 1)) := by
  rcases Nat.lt_trichotomy i k with hlt | rfl | hgt
  · -- in front of the removed entry the position stays
    refine ⟨kept read s k (i + 1), ?_, by rw [copyWhen, if_neg (by omega)]⟩
    rw [copyWhen, if_pos (by omega), Select.optionAt_of_lt hi, ok_bind,
      kept_put read hk hi (by omega) (by rw [if_neg (by omega)])]
  · -- the removed entry itself is copied by neither
    refine ⟨kept read s i i, by rw [copyWhen, if_neg (by omega)], ?_⟩
    rw [copyWhen, if_neg (by omega), kept, kept,
      take_succ_eraseIdx_self (by simpa using hi)]
  · -- behind it the position is one less
    refine ⟨kept read s k i, by rw [copyWhen, if_neg (by omega)], ?_⟩
    rw [copyWhen, if_pos (by omega), Select.optionAt_of_lt hi, ok_bind,
      kept_put read hk hi (by omega) (by rw [if_pos hgt])]

private theorem kept_zero (read : OptionElement → Str) (s : Select) (k : Nat) :
    kept read s k 0 = JsArray.ofLength (s.options.length - 1) := by
  rw [kept, List.take_zero, List.eraseIdx_nil, JsArray.filled_nil]

private theorem kept_length (read : OptionElement → Str) {s : Select} {k : Nat}
    (hk : k < s.options.length) :
    kept read s k s.options.length =
      ⟨((s.options.eraseIdx k).map read).map some⟩ := by
  have hlen : ((s.options.eraseIdx k).map read).length = s.options.length - 1 := by
    rw [List.length_map, List.length_eraseIdx_of_lt hk]
  rw [kept, List.take_of_length_le (by simp), List.eraseIdx_map, ← hlen,
    JsArray.filled_full]

/-- After the first loop the arrays hold the texts and the values of all
entries but the selected one, and no hole is left. -/
theorem replaceLoop_eq {s : Select} {k : Nat} (hk : k < s.options.length) :
    replaceLoop s k = .ok
      (⟨((s.options.eraseIdx k).map OptionElement.text).map some⟩,
       ⟨((s.options.eraseIdx k).map OptionElement.value).map some⟩) := by
  unfold replaceLoop Select.length
  refine forLoop_eq_of_yield
    (fun i => (kept OptionElement.text s k i, kept OptionElement.value s k i)) ?_ ?_ ?_
  · rw [kept_zero, kept_zero]
  · rw [Nat.zero_add, kept_length _ hk, kept_length _ hk]
  · intro i _ hlt
    have hi : i < s.options.length := by omega
    obtain ⟨texts, htext, htext'⟩ := copyWhen_round OptionElement.text s hk hi
    obtain ⟨values, hvalue, hvalue'⟩ := copyWhen_round OptionElement.value s hk hi
    simp only [htext, htext', hvalue, hvalue', ok_bind]

private theorem toDOMString_get (strings : List Str) {i : Nat} (hi : i < strings.length) :
    toDOMString ((JsArray.mk (strings.map some)).get i) = strings[i] := by
  simp [JsArray.get, toDOMString, hi]

/-- The second loop rewrites every option: with texts and values read from
options `os`, the element ends with the options `os`, rewritten. -/
theorem putBackLoop_eq (os : List OptionElement) {s : Select}
    (hlen : os.length = s.options.length) :
    putBackLoop ⟨(os.map OptionElement.text).map some⟩
        ⟨(os.map OptionElement.value).map some⟩ s =
      .ok (s.withOptions (os.map OptionElement.rewritten) (by simpa using hlen)) := by
  have hmid : ∀ i, ((os.map OptionElement.rewritten).take i ++
      s.options.drop i).length = s.options.length := by
    intro i
    simp only [List.length_append, List.length_take, List.length_map, List.length_drop]
    omega
  unfold putBackLoop JsArray.length
  refine forLoop_eq_of_yield (fun i => s.withOptions _ (hmid i)) ?_ ?_ ?_
  · exact Select.ext (by simp [Select.withOptions]) rfl rfl
  · exact Select.ext (by simp [Select.withOptions, hlen, List.take_of_length_le]) rfl rfl
  · intro i _ hlt
    have hi : i < os.length := by simpa using hlt
    have his : i < s.options.length := by omega
    rw [Select.modifyOption_of_lt _ (by simpa [Select.withOptions, hmid i] using his),
      ok_bind,
      Select.modifyOption_of_lt _ (by simpa [Select.withOptions, hmid i] using his),
      ok_bind]
    simp only [Except.ok.injEq, ForInStep.yield.injEq]
    refine Select.ext ?_ rfl rfl
    simp only [Select.withOptions, List.modify_modify_eq]
    rw [toDOMString_get _ (by simpa using hi), toDOMString_get _ (by simpa using hi)]
    refine modify_take_append_drop _ (by simpa using hi) his ?_
    simp [OptionElement.setText, OptionElement.setValue, OptionElement.rewritten]

/-- The guard against an empty list never fires: `length` is never `-1`. -/
theorem length_ne_neg_one (s : Select) : (s.length : Int) ≠ -1 := by
  omega

/-- With nothing selected, the empty list included, `removeFromList` only
alerts. -/
theorem removeFromList_of_none {p : Page} (h : p.courselist.selected = none) :
    removeFromList p = .ok (p.alert .nothingSelected) := by
  rw [removeFromList, if_neg (length_ne_neg_one _)]
  simp [Select.selectedIndex, h]

/-- A selected entry with an empty value counts as no selection. -/
theorem removeFromList_of_blank {p : Page} (h : p.courselist.value = []) :
    removeFromList p = .ok (p.alert .nothingSelected) := by
  rw [removeFromList, if_neg (length_ne_neg_one _)]
  simp [h]

/-- A selected entry with a value is removed. -/
theorem removeFromList_of_selected {p : Page} {k : Nat}
    (h : p.courselist.selected = some k) (hk : k < p.courselist.options.length)
    (hvalue : p.courselist.options[k].value ≠ []) :
    removeFromList p = .ok { p with courselist := p.courselist.removed k hk } := by
  obtain ⟨_, hread⟩ := Select.value_of_selected h
  have hindex : p.courselist.selectedIndex = k := by
    simp [Select.selectedIndex, h]
  have hcond : ¬ (p.courselist.selectedIndex = -1 ∨ p.courselist.value = []) := by
    rw [hindex, hread, not_or]
    exact ⟨by omega, hvalue⟩
  rw [removeFromList, if_neg (length_ne_neg_one _)]
  dsimp only
  rw [if_neg hcond, hindex, replaceLoop_eq hk]
  have hlen : (p.courselist.options.eraseIdx k).length =
      p.courselist.options.length - 1 := List.length_eraseIdx_of_lt hk
  rw [ok_bind, putBackLoop_eq]
  · simp [JsArray.length, hlen, Select.removed]
  · simp only [JsArray.length, List.length_map, hlen]
    rw [Select.setLength_options_of_le (Nat.sub_le _ _), List.length_take]
    omega

/-- All that `removeFromList` can do: alert that nothing is selected, or
remove the selected entry. -/
theorem removeFromList_cases (p : Page) :
    removeFromList p = .ok (p.alert .nothingSelected) ∨
    ∃ k, ∃ hk : k < p.courselist.options.length,
      p.courselist.selected = some k ∧ p.courselist.options[k].value ≠ [] ∧
      removeFromList p = .ok { p with courselist := p.courselist.removed k hk } := by
  cases hsel : p.courselist.selected with
  | none => exact .inl (removeFromList_of_none hsel)
  | some k =>
      obtain ⟨hk, hvalue⟩ := Select.value_of_selected hsel
      by_cases hblank : p.courselist.value = []
      · exact .inl (removeFromList_of_blank hblank)
      · rw [hvalue] at hblank
        exact .inr ⟨k, hk, rfl, hblank, removeFromList_of_selected hsel hk hblank⟩

end UserService

end DuckHub
