import DuckHub.Logic.Listing
import DuckHub.Theorems.ListInvariant

/-!
# Pressing the button that removes

Which entry is selected once the selected one is gone, and what that makes of
a button that is pressed again and again: in a list box it eats its way to the
end of the list and stops, a drop-down box starts over at the top until
nothing is left (`pressing_remove`). A drop-down box never loses its selection
while it has entries, so its button only fails on an empty list
(`remove_alerts_iff_empty`). Both rest on all options being enabled, as the
select element of the model has them: a browser that looks for an option to
select passes over disabled ones.
-/

namespace DuckHub.UserService

open Lib

namespace Listing

/-- No entry has an empty value. -/
def Nonblank (l : Listing) : Prop := ∀ entry ∈ l.entries, entry.1 ≠ []

theorem Nonblank.picked_eq {l : Listing} (h : l.Nonblank) : l.picked = l.selected := by
  rw [picked]
  cases hsel : l.selected with
  | none => rfl
  | some k =>
      have hlt : k < l.entries.length := l.selected_lt k hsel
      have hvalue : l.entries[k].1 ≠ [] := h _ (List.getElem_mem hlt)
      exact Option.filter_some_pos (by simpa [values, hlt] using hvalue)

/-! ## One press -/

section Press

variable {l : Listing} {front back : List (Str × Str)} {x : Str × Str}

/-- The selected entry is taken out of the middle; the next one is selected
after it, or else, in a drop-down box, the first. -/
theorem step_remove (hnonblank : l.Nonblank) (hentries : l.entries = front ++ x :: back)
    (hsel : l.selected = some front.length) :
    (l.step .removeFromList).entries = front ++ back ∧
    (l.step .removeFromList).selected =
      (if back ≠ [] then some front.length
      else if l.dropDown = true ∧ front ≠ [] then some 0 else none) ∧
    (l.step .removeFromList).dropDown = l.dropDown ∧
    l.alerts .removeFromList = [] := by
  have hpicked : l.picked = some front.length := hnonblank.picked_eq.trans hsel
  have hlen : l.entries.length - 1 = front.length + back.length := by
    rw [hentries, List.length_append, List.length_cons]
    omega
  rw [step, alerts, hpicked]
  refine ⟨?_, ?_, rfl, rfl⟩
  · show l.entries.eraseIdx front.length = _
    rw [hentries, List.eraseIdx_append_of_length_le (Nat.le_refl _), Nat.sub_self]
    rfl
  · show (if front.length < l.entries.length - 1 then _ else _) = _
    rw [hlen]
    cases back with
    | nil =>
        have hfront : 0 < front.length ↔ front ≠ [] := List.length_pos_iff
        simp [hfront]
    | cons y back => simp

theorem Nonblank.step_remove (hnonblank : l.Nonblank)
    (hentries : l.entries = front ++ x :: back) (hsel : l.selected = some front.length) :
    (l.step .removeFromList).Nonblank := by
  intro entry hentry
  rw [(Listing.step_remove hnonblank hentries hsel).1] at hentry
  refine hnonblank entry ?_
  rw [hentries]
  rcases List.mem_append.mp hentry with hentry | hentry
  · exact List.mem_append_left _ hentry
  · exact List.mem_append_right _ (List.mem_cons_of_mem _ hentry)

end Press

/-! ## Many presses -/

/-- With nothing selected every press only alerts. -/
theorem run_remove_of_none {l : Listing} (hsel : l.selected = none) (m : Nat) :
    run step l (List.replicate m .removeFromList) = l ∧
    (labels step alerts l (List.replicate m .removeFromList)).flatten =
      List.replicate m .nothingSelected := by
  have hpicked : l.picked = none := by rw [picked, hsel, Option.filter_none]
  have hstep : l.step .removeFromList = l := by rw [step, hpicked]
  have halerts : l.alerts .removeFromList = [.nothingSelected] := by rw [alerts, hpicked]
  induction m with
  | zero => exact ⟨rfl, rfl⟩
  | succ m ih =>
      constructor
      · show run step (l.step .removeFromList) (List.replicate m .removeFromList) = l
        rw [hstep]
        exact ih.1
      · show (l.alerts .removeFromList ::
          labels step alerts (l.step .removeFromList) _).flatten = _
        rw [hstep, halerts, List.flatten_cons, ih.2]
        rfl

/-- In a list box the presses take the entries from the selected one on. -/
theorem run_remove_listBox {l : Listing} {front back : List (Str × Str)}
    (hnonblank : l.Nonblank) (hbox : l.dropDown = false)
    (hentries : l.entries = front ++ back)
    (hsel : l.selected = if back ≠ [] then some front.length else none) (m : Nat) :
    (run step l (List.replicate m .removeFromList)).entries = front ++ back.drop m ∧
    (labels step alerts l (List.replicate m .removeFromList)).flatten =
      List.replicate (m - back.length) .nothingSelected := by
  induction m generalizing l back with
  | zero => exact ⟨by simpa [run] using hentries, by simp [labels]⟩
  | succ m ih =>
      cases back with
      | nil =>
          -- the end of the list is reached and with it the selection lost
          obtain ⟨hrun, halerts⟩ := run_remove_of_none (by simpa using hsel) (m + 1)
          exact ⟨by simpa [hrun] using hentries, by simpa using halerts⟩
      | cons x back =>
          have hsel' : l.selected = some front.length := by simpa using hsel
          obtain ⟨hentries', hselected', hdrop', halerts⟩ :=
            step_remove hnonblank hentries hsel'
          have hnext := ih (hnonblank.step_remove hentries hsel') (hdrop'.trans hbox)
            hentries' (by simpa [hbox] using hselected')
          constructor
          · exact hnext.1
          · show (l.alerts .removeFromList ::
              labels step alerts (l.step .removeFromList) _).flatten = _
            rw [halerts, List.flatten_cons, hnext.2, List.length_cons, Nat.add_sub_add_right]
            rfl

/-- In a drop-down box they go on at the top once the end is reached. -/
theorem run_remove_dropDown {l : Listing} {front back : List (Str × Str)}
    (hnonblank : l.Nonblank) (hbox : l.dropDown = true)
    (hentries : l.entries = front ++ back)
    (hsel : l.selected = if back ≠ [] then some front.length else none)
    (hend : back = [] → front = []) (m : Nat) :
    (run step l (List.replicate m .removeFromList)).entries =
      front.drop (m - back.length) ++ back.drop m ∧
    (labels step alerts l (List.replicate m .removeFromList)).flatten =
      List.replicate (m - (front.length + back.length)) .nothingSelected := by
  induction m generalizing l front back with
  | zero => exact ⟨by simpa [run] using hentries, by simp [labels]⟩
  | succ m ih =>
      cases back with
      | nil =>
          obtain rfl := hend rfl
          obtain ⟨hrun, halerts⟩ := run_remove_of_none (by simpa using hsel) (m + 1)
          exact ⟨by simpa [hrun] using hentries, by simpa using halerts⟩
      | cons x back =>
          have hsel' : l.selected = some front.length := by simpa using hsel
          obtain ⟨hentries', hselected', hdrop', halerts⟩ :=
            step_remove hnonblank hentries hsel'
          have hnonblank' := hnonblank.step_remove hentries hsel'
          have hflatten : (labels step alerts l
              (List.replicate (m + 1) .removeFromList)).flatten =
              (labels step alerts (l.step .removeFromList)
                (List.replicate m .removeFromList)).flatten := by
            show (l.alerts .removeFromList :: labels step alerts _ _).flatten = _
            rw [halerts, List.flatten_cons]
            rfl
          rw [hflatten]
          by_cases hback : back = []
          · -- the last entry is gone: what was in front is now behind
            subst hback
            have hselected'' : (l.step .removeFromList).selected =
                if front ≠ [] then some ([] : List (Str × Str)).length else none := by
              simpa [hbox] using hselected'
            obtain ⟨hrun, hrest⟩ := @ih (l.step .removeFromList) [] front hnonblank'
              (hdrop'.trans hbox) (by simpa using hentries') hselected'' (fun _ => rfl)
            constructor
            · show (run step (l.step .removeFromList) _).entries = _
              simpa using hrun
            · rw [hrest]
              simp
          · -- more behind: the selection stays where it is
            have hselected'' : (l.step .removeFromList).selected =
                if back ≠ [] then some front.length else none := by
              rw [hselected', if_pos hback, if_pos hback]
            obtain ⟨hrun, hrest⟩ := ih hnonblank' (hdrop'.trans hbox) hentries'
              hselected'' (fun h => absurd h hback)
            constructor
            · rw [List.length_cons, Nat.add_sub_add_right]
              exact hrun
            · rw [hrest, List.length_cons, ← Nat.add_assoc, Nat.add_sub_add_right]

end Listing

/-! ## On the page -/

/-- **Pressing the button.** Entry `k` of a list without empty values is
selected, and the button is pressed `m` times. A list box loses the entries
from `k` on, and alerts once there is nothing behind. A drop-down box, whose
options are all enabled, goes on with the entries in front of `k`, and alerts
once it is empty. -/
theorem pressing_remove {p : Page} (hvalues : ∀ value ∈ p.courselist.values, value ≠ [])
    {k : Nat} (hsel : p.courselist.selected = some k) (m : Nat) :
    let q := run dispatch p (List.replicate m .removeFromList)
    let pairs := p.courselist.pairs
    (p.courselist.dropDown = false →
      q.courselist.pairs = pairs.take k ++ pairs.drop (k + m) ∧
      q.alerts = p.alerts ++ List.replicate (m - (pairs.length - k)) .nothingSelected) ∧
    (p.courselist.dropDown = true →
      q.courselist.pairs =
        (pairs.take k).drop (m - (pairs.length - k)) ++ pairs.drop (k + m) ∧
      q.alerts = p.alerts ++ List.replicate (m - pairs.length) .nothingSelected) := by
  have hk : k < p.courselist.pairs.length := p.listing.selected_lt k hsel
  have hnonblank : p.listing.Nonblank := by
    intro entry hentry
    refine hvalues entry.1 ?_
    rw [← Page.listing_values]
    exact List.mem_map_of_mem hentry
  have hentries : p.listing.entries =
      p.courselist.pairs.take k ++ p.courselist.pairs.drop k :=
    (List.take_append_drop k _).symm
  have hfront : (p.courselist.pairs.take k).length = k :=
    List.length_take_of_le (Nat.le_of_lt hk)
  have hback : p.courselist.pairs.drop k ≠ [] := by
    rw [ne_eq, List.drop_eq_nil_iff]
    omega
  have hsel' : p.listing.selected = if p.courselist.pairs.drop k ≠ [] then
      some (p.courselist.pairs.take k).length else none := by
    rw [if_pos hback, hfront]
    exact hsel
  dsimp only
  rw [← List.drop_drop, run_alerts]
  constructor
  · intro hbox
    obtain ⟨hrun, halerts⟩ := Listing.run_remove_listBox hnonblank hbox hentries hsel' m
    rw [List.length_drop] at halerts
    rw [halerts]
    rw [← run_listing] at hrun
    exact ⟨hrun, rfl⟩
  · intro hbox
    obtain ⟨hrun, halerts⟩ := Listing.run_remove_dropDown hnonblank hbox hentries hsel'
      (fun h => absurd h hback) m
    rw [hfront, List.length_drop, Nat.add_sub_of_le (Nat.le_of_lt hk)] at halerts
    rw [List.length_drop] at hrun
    rw [halerts]
    rw [← run_listing] at hrun
    exact ⟨hrun, rfl⟩

/-- Three courses in a drop-down box, the second one picked, and the button
pressed four times. -/
theorem pressing_remove_four :
    (run dispatch (dispatch (.load [] (.ofNames [[unit 'a'], [unit 'b'], [unit 'c']] true))
      (.select 1)) (List.replicate 4 .removeFromList)).alerts = [.nothingSelected] := by
  have hpress := @pressing_remove (dispatch (.load [] (.ofNames
    [[unit 'a'], [unit 'b'], [unit 'c']] true)) (.select 1)) (by decide) 1 (by decide) 4
  exact (hpress.2 rfl).2

/-! ## Drop-down boxes -/

namespace Listing

/-- The event picks an entry that is there, if it picks one. -/
def Picks (l : Listing) : Event → Prop
  | .select index => 0 ≤ index ∧ index.toNat < l.entries.length
  | .checkpasswd _ _ => True
  | .addToList _ => True
  | .removeFromList => True

instance (l : Listing) : DecidablePred l.Picks
  | .select index =>
      inferInstanceAs (Decidable (0 ≤ index ∧ index.toNat < l.entries.length))
  | .checkpasswd _ _ => inferInstanceAs (Decidable True)
  | .addToList _ => inferInstanceAs (Decidable True)
  | .removeFromList => inferInstanceAs (Decidable True)

/-- A drop-down box with entries has one of them selected. -/
def Settled (l : Listing) : Prop :=
  l.dropDown = true → l.entries ≠ [] → l.selected ≠ none

theorem Settled.after_step {l : Listing} (h : l.Settled) {e : Event} (hpicks : l.Picks e) :
    (l.step e).Settled := by
  cases e with
  | checkpasswd password password2 => exact h
  | addToList name =>
      rcases l.step_addToList_cases name with ⟨hsame, -⟩ | ⟨hadd, -, -⟩
      · rw [hsame]
        exact h
      · rw [hadd]
        intro _ _
        exact Option.some_ne_none _
  | select index =>
      intro _ _
      show (if _ then _ else _) ≠ none
      have hthere : 0 ≤ index ∧ index.toNat < l.entries.length := hpicks
      rw [if_pos hthere]
      exact Option.some_ne_none _
  | removeFromList =>
      rw [step]
      cases hpicked : l.picked with
      | none => exact h
      | some k =>
          intro hbox hleft
          have hk : k < l.entries.length :=
            l.selected_lt k (Option.filter_eq_some_iff.mp hpicked).1
          have hlen : (l.entries.eraseIdx k).length = l.entries.length - 1 :=
            List.length_eraseIdx_of_lt hk
          have hpos : 0 < l.entries.length - 1 := hlen ▸ List.length_pos_iff.mpr hleft
          -- what is left makes the box select its first entry at the latest
          show (if _ then _ else if _ then _ else _) ≠ none
          split_ifs with hlt hdrop
          · exact Option.some_ne_none _
          · exact Option.some_ne_none _
          · exact absurd ⟨hbox, hpos⟩ hdrop

/-- In a settled drop-down box without empty values a removal fails on the
empty list only. -/
theorem Settled.alerts_removeFromList {l : Listing} (h : l.Settled)
    (hbox : l.dropDown = true) (hnonblank : l.Nonblank) :
    l.alerts .removeFromList = [] ↔ l.entries ≠ [] := by
  rw [alerts, hnonblank.picked_eq]
  cases hsel : l.selected with
  | none =>
      have hempty : l.entries = [] := by
        by_contra hentries
        exact h hbox hentries hsel
      simp [hempty]
  | some k =>
      have hk : k < l.entries.length := l.selected_lt k hsel
      have hentries : l.entries ≠ [] := List.length_pos_iff.mp (by omega)
      simp [hentries]

end Listing

/-- A form is loaded settled. -/
theorem Page.load_settled (courseslist : Str) (names : List Str) (dropDown : Bool) :
    (Page.load courseslist (.ofNames names dropDown)).listing.Settled := by
  intro hbox hentries
  have hdrop : dropDown = true := by
    have hsettle : (Select.ofNames names dropDown).dropDown = true := hbox
    rwa [Select.ofNames, Select.settle_dropDown] at hsettle
  have hnames : names ≠ [] := by
    rintro rfl
    exact hentries (by simp [Page.load, Page.listing, Select.pairs])
  show (Select.settle _).selected ≠ none
  rw [Select.settle_selected]
  simp [hdrop, List.length_pos_iff.mpr hnames]

theorem Represents.nonblank {p : Page} {r : CourseRoster} (h : Represents p r) :
    p.listing.Nonblank := by
  intro entry hentry
  have hvalue : entry.1 ∈ p.courselist.values := by
    rw [← Page.listing_values]
    exact List.mem_map_of_mem hentry
  rw [h.values_eq] at hvalue
  exact (r.names_ok _ hvalue).1

/-- **The button of a drop-down box.** From a well-formed, settled drop-down
box whose options are all enabled, and as long as selections pick entries that
are there, the button removes an entry whenever there is one: the alert for a
missing selection is shown on an empty list only. -/
theorem remove_alerts_iff_empty {p : Page} (h : WellFormed p.courselist)
    (hbox : p.courselist.dropDown = true) (hsettled : p.listing.Settled)
    {events : List Event}
    (hpicks : Meets dispatch (fun q e => q.listing.Picks e) p events) :
    let q := run dispatch p events
    (dispatch q .removeFromList).alerts = q.alerts ↔ q.courselist.options ≠ [] := by
  have hinv : (run dispatch p events).listing.Settled ∧
      (run dispatch p events).listing.dropDown = true ∧
      ∃ r, Represents (run dispatch p events) r := by
    refine run_invariant_of_meets (fun q : Page => q.listing.Settled ∧
      q.listing.dropDown = true ∧ ∃ r, Represents q r) ?_ ⟨hsettled, hbox, _, h.represents⟩
      hpicks
    rintro q e ⟨hq, hqbox, r, hrep⟩ he
    refine ⟨?_, ?_, _, hrep.after_event e⟩
    · rw [dispatch_listing]
      exact hq.after_step he
    · rw [dispatch_listing, Listing.step_dropDown]
      exact hqbox
  obtain ⟨hq, hqbox, r, hrep⟩ := hinv
  have hremove := hq.alerts_removeFromList hqbox hrep.nonblank
  have hempty : (run dispatch p events).listing.entries = [] ↔
      (run dispatch p events).courselist.options = [] := List.map_eq_nil_iff
  dsimp only
  rw [dispatch_alerts, List.append_right_eq_self, hremove, ne_eq, hempty]

/-- Three courses in a drop-down box, the last one picked and removed: the
selection is back at the top, and the next two presses succeed. The one after
them fails. -/
theorem remove_alerts_iff_empty_wraps :
    let p := Page.load [] (.ofNames [[unit 'a'], [unit 'b'], [unit 'c']] true)
    let wrapped := run dispatch p [.select 2, .removeFromList]
    let emptied := run dispatch p
      [.select 2, .removeFromList, .removeFromList, .removeFromList]
    (dispatch wrapped .removeFromList).alerts = wrapped.alerts ∧
    (dispatch emptied .removeFromList).alerts ≠ emptied.alerts := by
  have hall : ∀ events, Meets dispatch (fun q e => q.listing.Picks e)
      (.load [] (.ofNames [[unit 'a'], [unit 'b'], [unit 'c']] true)) events → _ :=
    fun events => @remove_alerts_iff_empty _ (by decide) (by decide)
      (Page.load_settled _ _ _) events
  constructor
  · exact (hall _ (by decide)).mpr (by decide)
  · intro hsame
    exact (hall _ (by decide)).mp hsame (by decide)

end DuckHub.UserService
