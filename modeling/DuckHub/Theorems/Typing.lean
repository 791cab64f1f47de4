import DuckHub.Theorems.Reachability

/-!
# Typing in a batch of names

What a run of `addToList` alone does, from any page. The entries it adds are
those of the names that pass the tests, each that reads back unchanged only
once, in the order in which they were typed, and as many of them as there is
room for (`pairs_after_typing`). Typing in once more a name that reads back
unchanged changes nothing (`typing_again_changes_nothing`).
-/

namespace DuckHub.UserService

open Lib

/-- The events that type in the names, one after the other. -/
def typing (names : List Str) : List Event := names.map Event.addToList

namespace Listing

/-! ## What a batch adds -/

/-- The names of a batch that are new to the list: those that pass the tests,
and of the occurrences of a name that reads back unchanged the first one. -/
def fresh (l : Listing) (names : List Str) : List Str :=
  (names.filter fun name =>
    decide (NameOk name ∧ ¬ l.Shows name ∧ ¬ Taken l.courseslist name)).eraseDupsBy
    fun later first => decide (later = first ∧ ReadsBack first)

theorem fresh_cons_of_refusal {l : Listing} {name : Str} (h : l.refusal name ≠ none)
    (rest : List Str) : l.fresh (name :: rest) = l.fresh rest := by
  rw [ne_eq, refusal_eq_none_iff] at h
  rw [fresh, List.filter_cons_of_neg (by simpa using h), fresh]

/-- After an addition the list shows the new name, if it reads back
unchanged. -/
theorem append_shows_iff (l : Listing) (name other : Str) :
    (l.append name).Shows other ↔ l.Shows other ∨ (other = name ∧ ReadsBack name) := by
  have hentry : (other, other) = (name, normalText name) ↔
      other = name ∧ ReadsBack name := by
    rw [Prod.mk.injEq, ← normalText_eq_self_iff]
    constructor
    · rintro ⟨rfl, htext⟩
      exact ⟨rfl, htext.symm⟩
    · rintro ⟨rfl, htext⟩
      exact ⟨rfl, htext.symm⟩
  rw [Shows, append, List.mem_append, List.mem_singleton, hentry]
  rfl

theorem fresh_cons_of_accepts {l : Listing} {name : Str} (h : l.refusal name = none)
    (rest : List Str) : l.fresh (name :: rest) = name :: (l.append name).fresh rest := by
  rw [refusal_eq_none_iff] at h
  have hrest : ((rest.filter fun other =>
        decide (NameOk other ∧ ¬ l.Shows other ∧ ¬ Taken l.courseslist other)).filter
        fun other => decide (other = name ∧ ReadsBack name) = false) =
      rest.filter fun other => decide (NameOk other ∧ ¬ (l.append name).Shows other ∧
        ¬ Taken (l.append name).courseslist other) := by
    rw [List.filter_filter]
    refine List.filter_congr fun other _ => ?_
    have hfield : (l.append name).courseslist = l.courseslist := rfl
    rw [Bool.eq_iff_iff, hfield]
    simp only [append_shows_iff, Bool.and_eq_true, decide_eq_true_eq, decide_eq_false_iff_not,
      not_or]
    tauto
  rw [fresh, List.filter_cons_of_pos (by simpa using h), List.eraseDupsBy_cons, hrest, fresh]

/-- A batch adds its new names in order, as long as there is room. -/
theorem entries_run_typing (l : Listing) (names : List Str) :
    (run step l (typing names)).entries =
      l.entries ++
        ((l.fresh names).take (Select.maxLength - l.entries.length)).map entryOf := by
  induction names generalizing l with
  | nil => simp [typing, run, fresh]
  | cons name rest ih =>
      show (run step (l.step (.addToList name)) (typing rest)).entries = _
      rcases l.step_addToList_cases name with
        ⟨hsame, hrefusal | hfull⟩ | ⟨hadd, hrefusal, hroom⟩
      · rw [hsame, ih, fresh_cons_of_refusal hrefusal]
      · -- no room now and none later
        rw [hsame, ih, Nat.sub_eq_zero_of_le hfull, List.take_zero, List.take_zero]
      · have hlength : (l.append name).entries.length = l.entries.length + 1 :=
          List.length_append
        have hleft : Select.maxLength - l.entries.length =
            Select.maxLength - (l.entries.length + 1) + 1 := by omega
        have hentries : (l.append name).entries = l.entries ++ [entryOf name] := rfl
        rw [hadd, ih, fresh_cons_of_accepts hrefusal, hlength, hleft, List.take_succ_cons,
          List.map_cons, hentries, List.append_assoc]
        rfl

/-! ## Once more -/

/-- Typing in the name changes nothing: it is refused, or there is no room. -/
def Blocks (l : Listing) (name : Str) : Prop :=
  l.refusal name ≠ none ∨ Select.maxLength ≤ l.entries.length

theorem Blocks.step_eq {l : Listing} {name : Str} (h : l.Blocks name) :
    l.step (.addToList name) = l := by
  rcases l.step_addToList_cases name with ⟨hsame, -⟩ | ⟨-, hrefusal, hroom⟩
  · exact hsame
  · rcases h with hrefused | hfull
    · exact absurd hrefusal hrefused
    · exact absurd hroom (Nat.not_lt.mpr hfull)

/-- A name that reads back unchanged cannot be added twice. -/
theorem blocks_after_typed (l : Listing) {name : Str} (htidy : ReadsBack name) :
    (l.step (.addToList name)).Blocks name := by
  rcases l.step_addToList_cases name with ⟨hsame, hblocks⟩ | ⟨hadd, -, -⟩
  · rw [hsame]
    exact hblocks
  · rw [hadd]
    refine .inl fun hnone => ?_
    exact (refusal_eq_none_iff.mp hnone).2.1 ((append_shows_iff _ _ _).mpr (.inr ⟨rfl, htidy⟩))

/-- As long as names are only added, a blocked name stays blocked. -/
theorem Blocks.step_addToList {l : Listing} {name : Str} (h : l.Blocks name)
    (other : Str) : (l.step (.addToList other)).Blocks name := by
  rcases l.step_addToList_cases other with ⟨hsame, -⟩ | ⟨hadd, -, hroom⟩
  · rwa [hsame]
  · rw [hadd]
    rcases h with hrefused | hfull
    · refine .inl fun hnone => hrefused ?_
      obtain ⟨hok, hshows, hfree⟩ := refusal_eq_none_iff.mp hnone
      rw [append_shows_iff, not_or] at hshows
      exact refusal_eq_none_iff.mpr ⟨hok, hshows.1, hfree⟩
    · exact absurd hroom (Nat.not_lt.mpr hfull)

theorem Blocks.run_typing {l : Listing} {name : Str} (h : l.Blocks name)
    (names : List Str) : (run step l (typing names)).Blocks name := by
  induction names generalizing l with
  | nil => exact h
  | cons other rest ih => exact ih (h.step_addToList other)

theorem blocks_of_typed (l : Listing) {names : List Str} {name : Str}
    (htyped : name ∈ names) (htidy : ReadsBack name) :
    (run step l (typing names)).Blocks name := by
  induction names generalizing l with
  | nil => exact absurd htyped List.not_mem_nil
  | cons other rest ih =>
      rcases List.mem_cons.mp htyped with rfl | htyped
      · exact (blocks_after_typed l htidy).run_typing rest
      · exact ih (l.step (.addToList other)) htyped

/-- A batch of blocked names leaves the listing as it is, and shows the alerts
of those that are refused. -/
theorem run_blocked (l : Listing) {names : List Str} (h : ∀ name ∈ names, l.Blocks name) :
    run step l (typing names) = l ∧
      (labels step alerts l (typing names)).flatten = names.filterMap l.refusal := by
  induction names with
  | nil => exact ⟨rfl, rfl⟩
  | cons name rest ih =>
      have hstep : l.step (.addToList name) = l := (h name List.mem_cons_self).step_eq
      obtain ⟨hrun, hshown⟩ := ih fun other hother => h other (List.mem_cons_of_mem _ hother)
      constructor
      · show run step (l.step (.addToList name)) (typing rest) = l
        rw [hstep, hrun]
      · show ((l.refusal name).toList ::
          labels step alerts (l.step (.addToList name)) (typing rest)).flatten = _
        rw [hstep, List.flatten_cons, hshown, List.filterMap_cons]
        cases l.refusal name <;> rfl

end Listing

/-! ## On the page -/

/-- **What a batch lists.** After typing in a batch of names on any page, the
list is what it was, followed by the entries of the names that are new to it,
in the order in which they were typed and as many as there is room for. -/
theorem pairs_after_typing (p : Page) (names : List Str) :
    (run dispatch p (typing names)).courselist.pairs =
      p.courselist.pairs ++ ((p.listing.fresh names).take
        (Select.maxLength - p.courselist.options.length)).map entryOf := by
  show (run dispatch p (typing names)).listing.entries = _
  rw [run_listing, Listing.entries_run_typing]
  show p.courselist.pairs ++ ((p.listing.fresh names).take
    (Select.maxLength - p.courselist.pairs.length)).map entryOf = _
  rw [Select.pairs_length]

/-- **Typing again.** Once a batch has been typed in, typing in any of its
names that read back unchanged, in any order and any number of times, changes
neither the list nor the selection; and it alerts each time, unless the list
is full. -/
theorem typing_again_changes_nothing (p : Page) {names again : List Str}
    (hagain : ∀ name ∈ again, name ∈ names ∧ ReadsBack name) :
    let q := run dispatch p (typing names)
    (run dispatch q (typing again)).listing = q.listing ∧
    (q.courselist.options.length < Select.maxLength →
      (run dispatch q (typing again)).alerts.length = q.alerts.length + again.length) := by
  have hblocked : ∀ name ∈ again, (run dispatch p (typing names)).listing.Blocks name := by
    intro name hname
    rw [run_listing]
    exact Listing.blocks_of_typed _ (hagain name hname).1 (hagain name hname).2
  obtain ⟨hrun, hshown⟩ := Listing.run_blocked _ hblocked
  dsimp only
  constructor
  · rw [run_listing _ (typing again), hrun]
  · intro hroom
    have hall : ∀ name ∈ again,
        ((run dispatch p (typing names)).listing.refusal name).isSome := by
      intro name hname
      rcases hblocked name hname with hrefused | hfull
      · exact Option.isSome_iff_ne_none.mpr hrefused
      · rw [Page.listing, Select.pairs_length] at hfull
        exact absurd hroom (Nat.not_lt.mpr hfull)
    rw [run_alerts _ (typing again), List.length_append, hshown,
      List.length_filterMap_eq_countP, List.countP_eq_length.mpr hall]

/-- Two names typed in, one of which ends in a blank, and then the other one
twice more. -/
theorem typing_again_changes_nothing_twice :
    let q := run dispatch (.load [] (.ofNames [] false))
      (typing [[unit 'a'], [unit 'b', space]])
    let q' := run dispatch q (typing [[unit 'a'], [unit 'a']])
    q'.listing = q.listing ∧ q'.alerts.length = q.alerts.length + 2 := by
  have hagain := @typing_again_changes_nothing (.load [] (.ofNames [] false))
    [[unit 'a'], [unit 'b', space]] [[unit 'a'], [unit 'a']] (by decide)
  exact ⟨hagain.1, hagain.2 (by decide)⟩

end DuckHub.UserService
