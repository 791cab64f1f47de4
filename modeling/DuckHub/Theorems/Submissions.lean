import DuckHub.Theorems.Reachability

/-!
# What a reader of the submissions learns

A form can be submitted again and again while its list is edited. Splitting
each submitted string at the bar and dropping the last piece gives back the
names that were listed when it was submitted, exactly as long as none of them
holds a bar; from a list without bars that is always so
(`submissions_decode`). From a well-formed list each string encodes the roster
that was listed (`submitted_encodesRoster`).
-/

namespace DuckHub.UserService

open Lib

/-- The names in a submitted string. -/
def decodeCourses (courses : Str) : List Str := (splitBar courses).dropLast

/-- The names listed each time a run submits. -/
def snapshots (p : Page) (events : List Event) : List (List Str) :=
  (labels dispatch (fun q e => q.listing.submissions e) p events).flatten

theorem submitted_eq_snapshots (p : Page) (events : List Event) :
    (run dispatch p events).submitted =
      p.submitted ++ (snapshots p events).map (terminate bar) := by
  rw [run_submitted, snapshots, labels_view dispatch_listing]

/-- Events bring in no bar. -/
theorem Listing.barFree_step {l : Listing} (h : ∀ value ∈ l.values, bar ∉ value)
    (e : Event) : ∀ value ∈ (l.step e).values, bar ∉ value := by
  intro value hvalue
  rcases mem_values_of_step hvalue with hmem | ⟨hok, -⟩
  · exact h value hmem
  · exact hok.2.1

theorem barFree_snapshots {p : Page} (h : ∀ value ∈ p.courselist.values, bar ∉ value)
    (events : List Event) : ∀ names ∈ snapshots p events, ∀ name ∈ names, bar ∉ name := by
  refine labels_forall (fun q : Page => ∀ value ∈ q.listing.values, bar ∉ value)
    ?_ ?_ ?_ events
  · intro q e hq
    rw [dispatch_listing]
    exact Listing.barFree_step hq e
  · intro q e hq names hnames name hname
    cases e with
    | checkpasswd password password2 =>
        rw [Listing.submissions] at hnames
        split at hnames
        · rw [List.mem_singleton.mp hnames] at hname
          exact hq name (List.mem_of_mem_filter hname)
        · exact absurd hnames List.not_mem_nil
    | addToList coursename => exact absurd hnames List.not_mem_nil
    | select index => exact absurd hnames List.not_mem_nil
    | removeFromList => exact absurd hnames List.not_mem_nil
  · rw [Page.listing_values]
    exact h

/-- **Submissions decode.** In any run from any page, decoding the strings
submitted gives the names listed at each submission exactly when none of these
names holds a bar; and from a page whose values hold none, that is so whatever
is typed. -/
theorem submissions_decode (p : Page) (events : List Event) :
    ((run dispatch p events).submitted.map decodeCourses =
        p.submitted.map decodeCourses ++ snapshots p events ↔
      ∀ names ∈ snapshots p events, ∀ name ∈ names, bar ∉ name) ∧
    ((∀ value ∈ p.courselist.values, bar ∉ value) →
      (run dispatch p events).submitted.map decodeCourses =
        p.submitted.map decodeCourses ++ snapshots p events) := by
  have hiff : (run dispatch p events).submitted.map decodeCourses =
        p.submitted.map decodeCourses ++ snapshots p events ↔
      ∀ names ∈ snapshots p events, ∀ name ∈ names, bar ∉ name := by
    rw [submitted_eq_snapshots, List.map_append, List.append_cancel_left_eq, List.map_map]
    have hround : ∀ names : List Str,
        (decodeCourses ∘ terminate bar) names = names ↔ ∀ name ∈ names, bar ∉ name :=
      fun names => dropLast_splitOn_terminate_iff
    constructor
    · -- two equal maps agree at each list
      intro hall names hnames
      refine (hround names).mp ?_
      have hsame : (snapshots p events).map (decodeCourses ∘ terminate bar) =
          (snapshots p events).map id := by rw [hall, List.map_id]
      exact List.map_inj_left.mp hsame names hnames
    · intro hfree
      have hsame : (snapshots p events).map (decodeCourses ∘ terminate bar) =
          (snapshots p events).map id :=
        List.map_congr_left fun names hnames => (hround names).mpr (hfree names hnames)
      rw [hsame, List.map_id]
  refine ⟨hiff, ?_⟩
  intro hfree
  exact hiff.mpr (barFree_snapshots hfree events)

/-! ## Rosters -/

/-- The string encodes the names, which are those of a roster. -/
def EncodesRoster (courses : Str) (names : List Str) : Prop :=
  courses = terminate bar names ∧ ∃ r : CourseRoster, r.names = names

/-- So splitting it gives back the names, which are admissible, the
recognizable ones pairwise distinct. -/
theorem EncodesRoster.decodes {courses : Str} {names : List Str}
    (h : EncodesRoster courses names) :
    decodeCourses courses = names ∧ (∀ name ∈ names, NameOk name) ∧
      (names.filter (ReadsBack ·)).Nodup := by
  obtain ⟨rfl, r, rfl⟩ := h
  refine ⟨dropLast_splitOn_terminate ?_, r.names_ok, r.seen_nodup⟩
  intro name hname
  exact (r.names_ok name hname).2.1

/-- Whenever a run from a well-formed list submits, the list shows a
roster. -/
theorem roster_snapshots {p : Page} (h : WellFormed p.courselist) (events : List Event) :
    ∀ names ∈ snapshots p events, ∃ r : CourseRoster, r.names = names := by
  refine labels_forall (fun q : Page => ∃ r, Represents q r) ?_ ?_ ⟨_, h.represents⟩ events
  · rintro q e ⟨r, hq⟩
    exact ⟨_, hq.after_event e⟩
  · rintro q e ⟨r, hq⟩ names hnames
    cases e with
    | checkpasswd password password2 =>
        rw [Listing.submissions] at hnames
        split at hnames
        · -- no name of a roster is empty, so all of them are submitted
          have hall : q.courselist.values.filter (· ≠ []) = r.names := by
            rw [hq.values_eq, List.filter_eq_self]
            intro name hname
            simpa using (r.names_ok name hname).1
          rw [List.mem_singleton.mp hnames, Page.listing_values, hall]
          exact ⟨r, rfl⟩
        · exact absurd hnames List.not_mem_nil
    | addToList coursename => exact absurd hnames List.not_mem_nil
    | select index => exact absurd hnames List.not_mem_nil
    | removeFromList => exact absurd hnames List.not_mem_nil

/-- **What is submitted is well formed.** In every run from a well-formed
list, the strings submitted encode, one by one, the rosters listed at the
submissions. -/
theorem submitted_encodesRoster {p : Page} (h : WellFormed p.courselist)
    (hfresh : p.submitted = []) (events : List Event) :
    List.Forall₂ EncodesRoster (run dispatch p events).submitted (snapshots p events) := by
  rw [submitted_eq_snapshots, hfresh, List.nil_append, List.forall₂_map_left_iff,
    List.forall₂_same]
  intro names hnames
  exact ⟨rfl, roster_snapshots h events names hnames⟩

/-- Two courses, submitted as they are and again with a third. -/
theorem submitted_encodesRoster_twice :
    List.Forall₂ EncodesRoster
      [[unit 'a', bar, unit 'b', bar], [unit 'a', bar, unit 'b', bar, unit 'c', bar]]
      [[[unit 'a'], [unit 'b']], [[unit 'a'], [unit 'b'], [unit 'c']]] := by
  have htwo := @submitted_encodesRoster
    (.load [] (.ofNames [[unit 'a'], [unit 'b']] false)) (by decide) rfl
    [.checkpasswd [] [], .addToList [unit 'c'], .checkpasswd [] []]
  have hsubmitted : (run dispatch (.load [] (.ofNames [[unit 'a'], [unit 'b']] false))
      [.checkpasswd [] [], .addToList [unit 'c'], .checkpasswd [] []]).submitted =
      [[unit 'a', bar, unit 'b', bar],
        [unit 'a', bar, unit 'b', bar, unit 'c', bar]] := by decide
  have hlisted : snapshots (.load [] (.ofNames [[unit 'a'], [unit 'b']] false))
      [.checkpasswd [] [], .addToList [unit 'c'], .checkpasswd [] []] =
      [[[unit 'a'], [unit 'b']], [[unit 'a'], [unit 'b'], [unit 'c']]] := by decide
  rwa [hsubmitted, hlisted] at htwo

end DuckHub.UserService
