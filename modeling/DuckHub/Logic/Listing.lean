import DuckHub.Logic.Editor

/-!
# What can be seen of the page

The listing of a page is all that a user or the script can tell about its
select element, the values and texts of the options and which one is selected,
next to the string from the servlet. It steps on its own: what the next
listing is, which alert is shown, which names are submitted and whether the
handler throws depends on the listing and the event alone (`dispatch_listing`,
`dispatch_alerts`, `dispatch_submitted`, `thrown_eq`), so a run of the page is
a run of the listing (`run_listing`, `run_alerts`, `run_submitted`,
`run_thrown`).

There are no loops, no attributes behind the values, no holes in arrays and
no text fields here, and no assumption on the page the run starts from.
-/

namespace DuckHub.UserService

open Lib

structure Listing where
  entries : List (Str × Str)
  selected : Option Nat
  dropDown : Bool
  courseslist : Str
  selected_lt : ∀ i ∈ selected, i < entries.length
  deriving DecidableEq

namespace Listing

@[ext] theorem ext {l m : Listing} (hentries : l.entries = m.entries)
    (hselected : l.selected = m.selected) (hdrop : l.dropDown = m.dropDown)
    (hfield : l.courseslist = m.courseslist) : l = m := by
  cases l; cases m
  simp only at hentries hselected hdrop hfield
  subst hentries hselected hdrop hfield
  rfl

def values (l : Listing) : List Str := l.entries.map Prod.fst

/-! ## The machine -/

/-- Some entry reads as the name in both fields. -/
def Shows (l : Listing) (name : Str) : Prop := (name, name) ∈ l.entries

instance (l : Listing) (name : Str) : Decidable (l.Shows name) :=
  inferInstanceAs (Decidable ((name, name) ∈ l.entries))

/-- The first test of `addToList` that a name fails. -/
def refusal (l : Listing) (name : Str) : Option Alert :=
  if name = [] then some .blankValue
  else if bar ∈ name then some .barSign
  else if BeginsWithDigit name then some .leadingDigit
  else if l.Shows name then some .alreadyAssigned
  else if Taken l.courseslist name then some .takenByAuthor
  else none

/-- A new entry at the end, selected. -/
def append (l : Listing) (name : Str) : Listing where
  entries := l.entries ++ [(name, normalText name)]
  selected := some l.entries.length
  dropDown := l.dropDown
  courseslist := l.courseslist
  selected_lt := fun i hi => by
    rw [← Option.mem_some.mp hi]
    simp

/-- Another selection; an index that no entry has selects nothing. -/
def choose (l : Listing) (index : Int) : Listing where
  entries := l.entries
  selected :=
    if 0 ≤ index ∧ index.toNat < l.entries.length then some index.toNat else none
  dropDown := l.dropDown
  courseslist := l.courseslist
  selected_lt := by
    intro i hi
    split at hi
    · next h => exact Option.mem_some.mp hi ▸ h.2
    · exact absurd hi (by simp)

/-- The entry that a removal takes: the selected one, unless its value is
empty. -/
def picked (l : Listing) : Option Nat :=
  l.selected.filter fun k => l.values[k]? ≠ some []

/-- The entry `k`, which is selected, is gone. The entry that moves into its
place is selected; behind the last one, only a drop-down box selects again. -/
def removed (l : Listing) (k : Nat) : Listing where
  entries := l.entries.eraseIdx k
  selected :=
    if k < l.entries.length - 1 then some k
    else if l.dropDown = true ∧ 0 < l.entries.length - 1 then some 0
    else none
  dropDown := l.dropDown
  courseslist := l.courseslist
  selected_lt := by
    intro i hi
    have hlen : l.entries.length - 1 ≤ (l.entries.eraseIdx k).length := by
      rw [List.length_eraseIdx]
      split <;> omega
    split_ifs at hi with hlt hdrop
    · rw [← Option.mem_some.mp hi]
      omega
    · rw [← Option.mem_some.mp hi]
      omega
    · exact absurd hi (by simp)

def step (l : Listing) : Event → Listing
  | .checkpasswd _ _ => l
  | .addToList name =>
      match l.refusal name with
      | some _ => l
      | none => if l.entries.length < Select.maxLength then l.append name else l
  | .select index => l.choose index
  | .removeFromList =>
      match l.picked with
      | some k => l.removed k
      | none => l

/-- No event changes the box or the string from the servlet. -/
theorem step_frame (l : Listing) (e : Event) :
    (l.step e).dropDown = l.dropDown ∧ (l.step e).courseslist = l.courseslist := by
  cases e with
  | checkpasswd password password2 => exact ⟨rfl, rfl⟩
  | addToList name =>
      rw [step]
      split
      · exact ⟨rfl, rfl⟩
      · split <;> exact ⟨rfl, rfl⟩
  | select index => exact ⟨rfl, rfl⟩
  | removeFromList =>
      rw [step]
      cases l.picked <;> exact ⟨rfl, rfl⟩

@[simp] theorem step_dropDown (l : Listing) (e : Event) :
    (l.step e).dropDown = l.dropDown := (l.step_frame e).1

@[simp] theorem step_courseslist (l : Listing) (e : Event) :
    (l.step e).courseslist = l.courseslist := (l.step_frame e).2

/-- The alerts an event shows: one or none. -/
def alerts (l : Listing) : Event → List Alert
  | .checkpasswd password password2 =>
      if password = password2 then [] else [.inequalPasswords]
  | .addToList name => (l.refusal name).toList
  | .select _ => []
  | .removeFromList =>
      match l.picked with
      | some _ => []
      | none => [.nothingSelected]

/-- The lists of names an event submits: one or none. -/
def submissions (l : Listing) : Event → List (List Str)
  | .checkpasswd password password2 =>
      if password = password2 then [l.values.filter (· ≠ [])] else []
  | .addToList _ => []
  | .select _ => []
  | .removeFromList => []

/-- The exceptions an event raises: one or none. -/
def thrown (l : Listing) : Event → List ScriptError
  | .checkpasswd _ _ => []
  | .addToList name =>
      if l.refusal name = none ∧ Select.maxLength ≤ l.entries.length then [.typeError]
      else []
  | .select _ => []
  | .removeFromList => []

/-- What adding a name does: it is refused, or there is no room, and nothing
changes; or it is the new last entry. -/
theorem step_addToList_cases (l : Listing) (name : Str) :
    (l.step (.addToList name) = l ∧
      (l.refusal name ≠ none ∨ Select.maxLength ≤ l.entries.length)) ∨
    (l.step (.addToList name) = l.append name ∧ l.refusal name = none ∧
      l.entries.length < Select.maxLength) := by
  rw [step]
  cases l.refusal name with
  | some a => exact .inl ⟨rfl, .inl (Option.some_ne_none a)⟩
  | none =>
      by_cases hroom : l.entries.length < Select.maxLength
      · exact .inr ⟨if_pos hroom, rfl, hroom⟩
      · exact .inl ⟨if_neg hroom, .inr (Nat.not_lt.mp hroom)⟩

end Listing

/-! ## The listing of a page -/

def Page.listing (p : Page) : Listing where
  entries := p.courselist.pairs
  selected := p.courselist.selected
  dropDown := p.courselist.dropDown
  courseslist := p.courseslist
  selected_lt := fun i hi => by
    rw [Select.pairs_length]
    exact p.courselist.selected_lt i hi

theorem Page.listing_values (p : Page) : p.listing.values = p.courselist.values := by
  simp [Page.listing, Listing.values, Select.pairs, Select.values,
    OptionElement.pair, Function.comp_def]

theorem refusal_listing (p : Page) (name : Str) :
    refusal p name = p.listing.refusal name := by
  have hassigned : Assigned p.courselist name ↔ p.listing.Shows name := by
    simp [Assigned, Listing.Shows, Page.listing, Select.pairs, OptionElement.pair]
  simp only [refusal, Listing.refusal, hassigned]
  rfl

/-- When an entry can be removed, the script removes it. -/
theorem dispatch_removeFromList_of_picked {p : Page} {k : Nat}
    (h : p.listing.picked = some k) :
    ∃ hk : k < p.courselist.options.length, p.courselist.selected = some k ∧
      dispatch p .removeFromList =
        { p with courselist := p.courselist.removed k hk } := by
  obtain ⟨hsel, hvalue⟩ := Option.filter_eq_some_iff.mp h
  have hk : k < p.courselist.options.length := p.courselist.selected_lt k hsel
  refine ⟨hk, hsel, dispatch_removeFromList_of_selected hsel hk ?_⟩
  simpa [Page.listing_values, Select.values, hk] using hvalue

/-- When none can, it only alerts. -/
theorem dispatch_removeFromList_of_not_picked {p : Page} (h : p.listing.picked = none) :
    dispatch p .removeFromList = p.alert .nothingSelected := by
  rcases removeFromList_cases p with halert | ⟨k, hk, hsel, hvalue, -⟩
  · exact dispatch_eq halert
  · -- a selected entry with a value could be removed
    have hpicked : p.listing.picked = some k := by
      refine Option.filter_eq_some_iff.mpr ⟨hsel, ?_⟩
      simpa [Page.listing_values, Select.values, hk] using hvalue
    rw [h] at hpicked
    exact absurd hpicked (by simp)

theorem removed_listing {p : Page} {k : Nat} (hk : k < p.courselist.options.length)
    (hsel : p.courselist.selected = some k) :
    Page.listing { p with courselist := p.courselist.removed k hk } =
      p.listing.removed k := by
  have hshorter : p.courselist.options.length - 1 < p.courselist.options.length := by
    omega
  apply Listing.ext
  · exact Select.removed_pairs _ _ hk
  · -- the script cuts off the last option and then moves the contents up
    show (p.courselist.setLength _).selected = _
    rw [Select.setLength_selected_of_lt hshorter, hsel]
    simp only [Listing.removed, Page.listing, Select.pairs_length]
    by_cases hlast : k < p.courselist.options.length - 1
    · rw [Option.filter_some_pos (by simpa using hlast), if_pos hlast]
    · rw [Option.filter_some_neg (by simpa using hlast), if_neg hlast]
  · show (p.courselist.setLength _).dropDown = _
    rw [Select.setLength_dropDown]
    rfl
  · rfl

/-- **One event of the page is one step of its listing.** -/
theorem dispatch_listing (p : Page) (e : Event) :
    (dispatch p e).listing = p.listing.step e := by
  cases e with
  | checkpasswd password password2 =>
      rw [dispatch_checkpasswd]
      split <;> rfl
  | addToList name =>
      have hlength : p.listing.entries.length = p.courselist.options.length :=
        Select.pairs_length _
      rw [dispatch_addToList, refusal_listing, Listing.step]
      cases p.listing.refusal name with
      | some a => rfl
      | none =>
          dsimp only
          rw [hlength]
          split_ifs
          · exact Listing.ext (Select.append_pairs _ _) (congrArg some hlength.symm) rfl rfl
          · rfl
  | select index =>
      apply Listing.ext
      · rfl
      · show (p.courselist.setSelectedIndex index).selected =
          (p.listing.choose index).selected
        simp [Select.setSelectedIndex, Listing.choose, Page.listing]
      · rfl
      · rfl
  | removeFromList =>
      rw [Listing.step]
      cases hpicked : p.listing.picked with
      | some k =>
          obtain ⟨hk, hsel, hremoved⟩ := dispatch_removeFromList_of_picked hpicked
          rw [hremoved]
          exact removed_listing hk hsel
      | none =>
          rw [dispatch_removeFromList_of_not_picked hpicked]
          rfl

theorem dispatch_alerts (p : Page) (e : Event) :
    (dispatch p e).alerts = p.alerts ++ p.listing.alerts e := by
  cases e with
  | checkpasswd password password2 =>
      rw [dispatch_checkpasswd, Listing.alerts]
      split
      · exact (List.append_nil _).symm
      · rfl
  | addToList name =>
      rw [dispatch_addToList, refusal_listing, Listing.alerts]
      cases p.listing.refusal name with
      | some a => rfl
      | none =>
          dsimp only
          split_ifs <;> exact (List.append_nil _).symm
  | select index => exact (List.append_nil _).symm
  | removeFromList =>
      rw [Listing.alerts]
      cases hpicked : p.listing.picked with
      | some k =>
          obtain ⟨hk, -, hremoved⟩ := dispatch_removeFromList_of_picked hpicked
          rw [hremoved]
          exact (List.append_nil _).symm
      | none =>
          rw [dispatch_removeFromList_of_not_picked hpicked]
          rfl

theorem dispatch_submitted (p : Page) (e : Event) :
    (dispatch p e).submitted =
      p.submitted ++ (p.listing.submissions e).map (terminate bar) := by
  cases e with
  | checkpasswd password password2 =>
      rw [dispatch_checkpasswd, Listing.submissions, Page.listing_values]
      split
      · rfl
      · exact (List.append_nil _).symm
  | addToList name =>
      rw [dispatch_addToList]
      split
      · exact (List.append_nil _).symm
      · split <;> exact (List.append_nil _).symm
  | select index => exact (List.append_nil _).symm
  | removeFromList =>
      rw [(dispatch_removeFromList_frame p).1]
      exact (List.append_nil _).symm

/-- The exceptions the handler of an event raises: one or none. -/
def thrown (p : Page) (e : Event) : List ScriptError :=
  match handle p e with
  | .ok _ => []
  | .error err => [err]

theorem thrown_eq (p : Page) (e : Event) : thrown p e = p.listing.thrown e := by
  rw [thrown, handle_eq]
  cases e with
  | checkpasswd password password2 => rfl
  | addToList name =>
      have hthrows : Throws p (.addToList name) ↔ p.listing.refusal name = none ∧
          Select.maxLength ≤ p.listing.entries.length := by
        rw [Throws, refusal_listing, Page.listing, Select.pairs_length]
      rw [Listing.thrown]
      simp only [hthrows]
      split_ifs <;> rfl
  | select index => rfl
  | removeFromList => rfl

/-! ## Runs -/

theorem run_listing (p : Page) (events : List Event) :
    (run dispatch p events).listing = run Listing.step p.listing events :=
  run_view dispatch_listing p events

theorem run_alerts (p : Page) (events : List Event) :
    (run dispatch p events).alerts =
      p.alerts ++ (labels Listing.step Listing.alerts p.listing events).flatten := by
  rw [run_log dispatch_alerts, labels_view dispatch_listing]

theorem run_submitted (p : Page) (events : List Event) :
    (run dispatch p events).submitted =
      p.submitted ++ ((labels Listing.step Listing.submissions p.listing events).flatten).map
        (terminate bar) := by
  rw [run_log dispatch_submitted, labels_map, ← List.map_flatten,
    labels_view dispatch_listing]

theorem run_thrown (p : Page) (events : List Event) :
    labels dispatch thrown p events = labels Listing.step Listing.thrown p.listing events := by
  have hsame : thrown = fun q e => q.listing.thrown e := by
    funext q e
    exact thrown_eq q e
  rw [hsame, labels_view dispatch_listing]

end DuckHub.UserService
