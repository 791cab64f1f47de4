import Mathlib.Data.Fintype.EquivFin
import DuckHub.Theorems.Reachability

/-!
# Which alerts a user can run into

From any page most alerts are only a few events away, and the alert for an
empty list is never shown: its guard compares a length with `-1`. Two depend
on the page (`reachable_alerts_iff`). The alert for a name of an author can be
shown exactly when the string from the servlet has an admissible piece. The
alert for a name that is listed already can be shown exactly when there is
such a name or room can be made for one: options with an empty value cannot be
removed, and enough of them leave no room for ever.
-/

namespace DuckHub.UserService

open Lib

/-- There is always a name that no author has and that reads back
unchanged. -/
theorem exists_free_name (courseslist : Str) :
    ∃ name, NameOk name ∧ ReadsBack name ∧ ¬ Taken courseslist name := by
  -- a row of one letter, of a length that no piece has
  obtain ⟨n, hn⟩ := Infinite.exists_notMem_finset
    (0 :: (splitBar courseslist).map List.length).toFinset
  rw [List.mem_toFinset, List.mem_cons, not_or] at hn
  obtain ⟨hpos, hlength⟩ := hn
  obtain ⟨m, rfl⟩ := Nat.exists_eq_succ_of_ne_zero hpos
  have hletter : ∀ c ∈ List.replicate (m + 1) (unit 'a'), c = unit 'a' :=
    fun c hc => List.eq_of_mem_replicate hc
  refine ⟨List.replicate (m + 1) (unit 'a'), ⟨by simp, ?_, ?_⟩, ?_, ?_⟩
  · intro hbar
    exact absurd (hletter bar hbar) (by decide)
  · show ¬ isAsciiDigit (unit 'a') = true
    decide
  · refine tidy_of_forall_not ?_
    intro c hc
    rw [hletter c hc]
    decide
  · intro htaken
    have hmem : (List.replicate (m + 1) (unit 'a')).length ∈
        (splitBar courseslist).map List.length := List.mem_map_of_mem htaken
    rw [List.length_replicate] at hmem
    exact hlength hmem

namespace Listing

/-- The number of entries with an empty value, of which none can be removed. -/
def blanks (l : Listing) : Nat := (l.entries.filter fun entry => entry.1 = []).length

/-- The alert can be shown. -/
def CanShow (l : Listing) : Alert → Prop
  | .nothingToRemove => False
  | .takenByAuthor => ∃ name ∈ splitBar l.courseslist, NameOk name
  | .alreadyAssigned =>
      (∃ name, NameOk name ∧ l.Shows name) ∨ l.blanks < Select.maxLength
  | .inequalPasswords => True
  | .blankValue => True
  | .barSign => True
  | .leadingDigit => True
  | .nothingSelected => True

theorem run_courseslist (l : Listing) (events : List Event) :
    (run step l events).courseslist = l.courseslist :=
  run_invariant (fun m : Listing => m.courseslist = l.courseslist)
    (fun m e h => (step_courseslist m e).trans h) rfl events

/-- A name that is admissible is refused for the reasons of the two scans
only. -/
theorem refusal_of_ok (l : Listing) {name : Str} (hok : NameOk name) :
    l.refusal name =
      if l.Shows name then some .alreadyAssigned
      else if Taken l.courseslist name then some .takenByAuthor
      else none := by
  obtain ⟨hblank, hbar, hdigit⟩ := hok
  rw [refusal, if_neg hblank, if_neg hbar, if_neg hdigit]

/-! ## Clearing a list -/

/-- Picking an entry with a value and pressing the button removes it. -/
theorem entries_select_remove {l : Listing} {front back : List (Str × Str)}
    {x : Str × Str} (hentries : l.entries = front ++ x :: back) (hvalue : x.1 ≠ []) :
    ((l.step (.select front.length)).step .removeFromList).entries = front ++ back := by
  have hsel : (l.choose front.length).selected = some front.length := by
    show (if _ then _ else _) = _
    simp [hentries]
  have hpicked : (l.choose front.length).picked = some front.length := by
    rw [picked, hsel]
    exact Option.filter_some_pos (by simpa [values, choose, hentries] using hvalue)
  show ((l.choose front.length).step .removeFromList).entries = _
  rw [step, hpicked]
  show l.entries.eraseIdx front.length = _
  rw [hentries, List.eraseIdx_append_of_length_le (Nat.le_refl _), Nat.sub_self]
  rfl

/-- All entries of one kind can be removed, if none of them has an empty
value. -/
theorem exists_run_remove {l : Listing} {kind : Str × Str → Bool}
    (hkind : ∀ entry, kind entry = true → entry.1 ≠ []) {front back : List (Str × Str)}
    (hentries : l.entries = front ++ back) :
    ∃ events, (run step l events).entries = front ++ back.filter fun x => !kind x := by
  induction back generalizing l front with
  | nil => exact ⟨[], hentries⟩
  | cons x back ih =>
      cases hx : kind x with
      | true =>
          obtain ⟨events, hcleared⟩ := ih (entries_select_remove hentries (hkind x hx))
          refine ⟨.select front.length :: .removeFromList :: events, ?_⟩
          rw [List.filter_cons_of_neg (by simp [hx])]
          exact hcleared
      | false =>
          have hnext : l.entries = (front ++ [x]) ++ back := by simp [hentries]
          obtain ⟨events, hcleared⟩ := ih hnext
          refine ⟨events, ?_⟩
          rw [hcleared, List.filter_cons_of_pos (by simp [hx]), List.append_assoc]
          rfl

/-- A list can be cleared of a name. -/
theorem exists_run_not_shows (l : Listing) {name : Str} (hname : name ≠ []) :
    ∃ events, ¬ (run step l events).Shows name := by
  obtain ⟨events, hcleared⟩ := @exists_run_remove l (fun entry => entry = (name, name))
    (fun entry hentry => by simp_all) [] l.entries rfl
  refine ⟨events, ?_⟩
  rw [Shows, hcleared]
  simp

/-- A list that not too many blank options clog can be brought to have
room. -/
theorem exists_run_room (l : Listing) (hblank : l.blanks < Select.maxLength) :
    ∃ events, (run step l events).entries.length < Select.maxLength := by
  obtain ⟨events, hcleared⟩ := @exists_run_remove l (fun entry => entry.1 ≠ [])
    (fun entry hentry => by simpa using hentry) [] l.entries rfl
  refine ⟨events, ?_⟩
  rw [hcleared]
  simpa [blanks] using hblank

/-! ## A clogged list -/

/-- Too many blank options, of which none can go, keep every event from adding
an entry. -/
theorem clogged_step {l m : Listing} (hclogged : Select.maxLength ≤ m.blanks)
    (hsub : m.entries.Sublist l.entries) (e : Event) :
    Select.maxLength ≤ (m.step e).blanks ∧ (m.step e).entries.Sublist l.entries := by
  cases e with
  | checkpasswd password password2 => exact ⟨hclogged, hsub⟩
  | addToList name =>
      rcases m.step_addToList_cases name with ⟨hsame, -⟩ | ⟨-, -, hroom⟩
      · rw [hsame]
        exact ⟨hclogged, hsub⟩
      · have hle : m.blanks ≤ m.entries.length := List.length_filter_le _ _
        omega
  | select index => exact ⟨hclogged, hsub⟩
  | removeFromList =>
      rw [step]
      cases hpicked : m.picked with
      | none => exact ⟨hclogged, hsub⟩
      | some k =>
          obtain ⟨hsel, hvalue⟩ := Option.filter_eq_some_iff.mp hpicked
          have hk : k < m.entries.length := m.selected_lt k hsel
          have hne : m.entries[k].1 ≠ [] := by simpa [values, hk] using hvalue
          -- the entry that goes is not blank
          have hperm : (m.entries[k] :: m.entries.eraseIdx k).Perm m.entries :=
            List.getElem_cons_eraseIdx_perm hk
          have hblanks := (hperm.filter fun entry => decide (entry.1 = [])).length_eq
          rw [List.filter_cons_of_neg (by simpa using hne)] at hblanks
          have hsame : (m.removed k).blanks = m.blanks := hblanks
          refine ⟨?_, (List.eraseIdx_sublist _ _).trans hsub⟩
          dsimp only
          rw [hsame]
          exact hclogged

theorem clogged_run {l : Listing} (hclogged : Select.maxLength ≤ l.blanks)
    (events : List Event) : (run step l events).entries.Sublist l.entries := by
  have hinv : Select.maxLength ≤ (run step l events).blanks ∧
      (run step l events).entries.Sublist l.entries :=
    run_invariant (fun m : Listing =>
      Select.maxLength ≤ m.blanks ∧ m.entries.Sublist l.entries)
      (fun m e hm => clogged_step hm.1 hm.2 e) ⟨hclogged, List.Sublist.refl _⟩ events
  exact hinv.2

/-! ## Both directions -/

/-- What is alerted somewhere in a run can be shown. -/
theorem canShow_of_mem_alerts {l : Listing} {events : List Event} {e : Event} {a : Alert}
    (h : a ∈ (run step l events).alerts e) : l.CanShow a := by
  cases e with
  | checkpasswd password password2 =>
      rw [alerts] at h
      split at h
      · exact absurd h List.not_mem_nil
      · rw [List.mem_singleton.mp h]
        trivial
  | addToList name =>
      have hrefusal : (run step l events).refusal name = some a := Option.mem_toList.mp h
      unfold refusal at hrefusal
      split_ifs at hrefusal with hblank hbar hdigit hshows htaken <;>
        injection hrefusal with hrefusal <;> subst hrefusal
      · trivial
      · trivial
      · trivial
      · have hok : NameOk name := ⟨hblank, hbar, hdigit⟩
        rcases Nat.lt_or_ge l.blanks Select.maxLength with hroom | hclogged
        · exact .inr hroom
        · -- nothing was ever added, so the name was there from the start
          exact .inl ⟨name, hok, (clogged_run hclogged events).subset hshows⟩
      · rw [run_courseslist] at htaken
        exact ⟨name, htaken, hblank, hbar, hdigit⟩
  | select index => exact absurd h List.not_mem_nil
  | removeFromList =>
      rw [alerts] at h
      split at h
      · exact absurd h List.not_mem_nil
      · rw [List.mem_singleton.mp h]
        trivial

/-- What can be shown is alerted at the end of some run. -/
theorem exists_run_alerts (l : Listing) {a : Alert} (h : l.CanShow a) :
    ∃ events e, (run step l events).alerts e = [a] := by
  have hlisted : ∀ {m : Listing} {name : Str}, NameOk name → m.Shows name →
      m.alerts (.addToList name) = [.alreadyAssigned] := by
    intro m name hok hshows
    rw [alerts, m.refusal_of_ok hok, if_pos hshows]
    rfl
  cases a with
  | inequalPasswords => exact ⟨[], .checkpasswd [] [unit 'a'], rfl⟩
  | blankValue => exact ⟨[], .addToList [], rfl⟩
  | barSign => exact ⟨[], .addToList [bar], rfl⟩
  | leadingDigit => exact ⟨[], .addToList [unit '0'], rfl⟩
  | alreadyAssigned =>
      rcases h with ⟨name, hok, hshows⟩ | hblank
      · exact ⟨[], .addToList name, hlisted hok hshows⟩
      · obtain ⟨events, hroom⟩ := l.exists_run_room hblank
        obtain ⟨name, hok, htidy, hfree⟩ := exists_free_name (run step l events).courseslist
        -- after one attempt the name is in the list, whether it was before or not
        refine ⟨events ++ [.addToList name], .addToList name, ?_⟩
        rw [run_append]
        refine hlisted hok ?_
        show ((run step l events).step (.addToList name)).Shows name
        rw [step, refusal_of_ok _ hok, if_neg hfree]
        by_cases hshows : (run step l events).Shows name
        · rw [if_pos hshows]
          exact hshows
        · rw [if_neg hshows]
          dsimp only
          rw [if_pos hroom]
          refine List.mem_append_right _ ?_
          rw [normalText_eq_self_iff.mpr htidy]
          exact List.mem_singleton_self _
  | takenByAuthor =>
      obtain ⟨name, htaken, hok⟩ := h
      obtain ⟨events, hgone⟩ := l.exists_run_not_shows hok.1
      refine ⟨events, .addToList name, ?_⟩
      have hstill : Taken (run step l events).courseslist name := by
        rw [run_courseslist]
        exact htaken
      rw [alerts, refusal_of_ok _ hok, if_neg hgone, if_pos hstill]
      rfl
  | nothingToRemove => exact absurd h id
  | nothingSelected => exact ⟨[.select (-1)], .removeFromList, rfl⟩

end Listing

/-- **The reachable alerts.** Whatever the page, an alert is shown by the last
event of some run exactly in these cases: never the one for an empty list; the
one for a name of an author, if the string from the servlet has an admissible
piece; the one for a name that is listed already, if the list has an
admissible name that reads back unchanged or fewer blank options than would
fill it; and every other one. -/
theorem reachable_alerts_iff (p : Page) (a : Alert) :
    (∃ events e, (dispatch (run dispatch p events) e).alerts =
      (run dispatch p events).alerts ++ [a]) ↔ p.listing.CanShow a := by
  have hshown : ∀ events e, (dispatch (run dispatch p events) e).alerts =
      (run dispatch p events).alerts ++ [a] ↔
      (run Listing.step p.listing events).alerts e = [a] := by
    intro events e
    rw [dispatch_alerts, List.append_cancel_left_eq, run_listing]
  simp only [hshown]
  constructor
  · rintro ⟨events, e, halerts⟩
    exact Listing.canShow_of_mem_alerts (halerts ▸ List.mem_singleton_self a)
  · exact Listing.exists_run_alerts p.listing

end DuckHub.UserService
