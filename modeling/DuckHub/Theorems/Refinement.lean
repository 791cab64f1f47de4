import DuckHub.Theorems.Reachability

/-!
# The page against its abstractions

Results that compare whole runs: the script against its two abstract
machines, exceptions included, a run against the same run without the refused
events, and two forms whose servlets enumerated the authors in different
orders.
-/

namespace DuckHub.UserService

open Lib

/-! ## The script and its machines -/

/-- **The page refines its listing.** From any page, what can be seen of the
list, the alerts and the submissions of a run, and which of its events throw,
are those of the machine without loops. -/
theorem page_refines_listing (p : Page) (events : List Event) :
    (run dispatch p events).listing = run Listing.step p.listing events ∧
    (run dispatch p events).alerts =
      p.alerts ++ (labels Listing.step Listing.alerts p.listing events).flatten ∧
    (run dispatch p events).submitted =
      p.submitted ++ ((labels Listing.step Listing.submissions p.listing events).flatten).map
        (terminate bar) ∧
    labels dispatch thrown p events = labels Listing.step Listing.thrown p.listing events :=
  ⟨run_listing p events, run_alerts p events, run_submitted p events, run_thrown p events⟩

/-- **The page refines the roster.** From a well-formed list, every state of a
run shows a roster that was edited step by step. A name is added without an
alert exactly when that roster accepts it, and the handler throws exactly when
the roster accepts the name and has no room for it. -/
theorem page_refines_roster {p : Page} (h : WellFormed p.courselist) :
    ∃ r : CourseRoster, r.names = p.courselist.values ∧ ∀ events : List Event,
      let q := run dispatch p events
      let r' := run (Roster.apply Select.maxLength (Taken p.courseslist)) r
        (labels dispatch edit p events)
      Represents q r' ∧ ∀ name,
        ((dispatch q (.addToList name)).alerts = q.alerts ↔
          r'.Accepts (Taken p.courseslist) name) ∧
        (handle q (.addToList name) = .error .typeError ↔
          r'.Accepts (Taken p.courseslist) name ∧ Select.maxLength ≤ r'.names.length) := by
  refine ⟨h.roster, rfl, ?_⟩
  intro events
  have hafter := h.represents.after_run events
  refine ⟨hafter, ?_⟩
  intro name
  have haccepts := hafter.refusal_eq_none_iff name
  rw [run_courseslist] at haccepts
  constructor
  · -- an alert and a refusal are the same thing
    rw [← haccepts, refusal_listing, dispatch_alerts, Listing.alerts]
    simp
  · rw [← haccepts, ← hafter.length_eq, handle_eq]
    show (if Throws _ _ then _ else _) = _ ↔ Throws _ (.addToList name)
    split_ifs with hthrows
    · exact iff_of_true rfl hthrows
    · exact iff_of_false (by simp) hthrows

/-- A list of one course, to which another is added: the roster behind it
accepts that one no more, and a third one still, for which it has room. -/
theorem page_refines_roster_one :
    ∃ r : CourseRoster,
      Represents (run dispatch (.load [] (.ofNames [[unit 'a']] false))
        [.addToList [unit 'b']]) r ∧
      r.names = [[unit 'a'], [unit 'b']] ∧
      ¬ r.Accepts (Taken []) [unit 'b'] ∧ r.Accepts (Taken []) [unit 'c'] ∧
      handle (run dispatch (.load [] (.ofNames [[unit 'a']] false))
        [.addToList [unit 'b']]) (.addToList [unit 'c']) ≠ .error .typeError := by
  obtain ⟨r, -, hruns⟩ := page_refines_roster
    (by decide : WellFormed (Page.load [] (.ofNames [[unit 'a']] false)).courselist)
  obtain ⟨hshows, hnames⟩ := hruns [.addToList [unit 'b']]
  refine ⟨_, hshows, ?_, ?_, ?_, ?_⟩
  · rw [← hshows.values_eq]
    decide
  · intro haccepts
    exact absurd ((hnames [unit 'b']).1.mpr haccepts) (by decide)
  · exact (hnames [unit 'c']).1.mp (by decide)
  · intro hthrows
    have hfull := ((hnames [unit 'c']).2.mp hthrows).2
    rw [← hshows.length_eq] at hfull
    exact absurd hfull (by decide)

/-! ## Exceptions -/

/-- An event lengthens the list by the name it types in, at most. -/
theorem length_dispatch_le (p : Page) (e : Event) :
    (dispatch p e).courselist.options.length ≤
      p.courselist.options.length + e.typed.toList.length := by
  have hlength := (p.listing.step_sublist e).length_le
  rw [← dispatch_listing, List.length_append, List.length_map] at hlength
  have hadmitted : (p.listing.admitted e.typed.toList).length ≤ e.typed.toList.length :=
    List.length_filter_le _ _
  have hbefore : p.listing.entries.length = p.courselist.options.length :=
    Select.pairs_length _
  have hafter : (dispatch p e).listing.entries.length =
      (dispatch p e).courselist.options.length := Select.pairs_length _
  omega

/-- A run that types in no more names than there is room for throws
nowhere. -/
theorem not_throws_of_room {p : Page} {events : List Event}
    (hroom : p.courselist.options.length + (events.filterMap Event.typed).length ≤
      Select.maxLength) :
    Meets dispatch (fun q e => ¬ Throws q e) p events := by
  induction events generalizing p with
  | nil => trivial
  | cons e rest ih =>
      have htyped : ((e :: rest).filterMap Event.typed).length =
          e.typed.toList.length + (rest.filterMap Event.typed).length := by
        cases htyped : e.typed with
        | none => simp [htyped]
        | some name => simp [htyped, Nat.add_comm]
      have hlonger := length_dispatch_le p e
      constructor
      · intro hthrows
        cases e with
        | addToList name =>
            have hfull : Select.maxLength ≤ p.courselist.options.length := hthrows.2
            have hone : (Event.addToList name).typed.toList.length = 1 := rfl
            omega
        | checkpasswd password password2 => exact hthrows
        | select index => exact hthrows
        | removeFromList => exact hthrows
      · exact ih (by omega)

/-- **When the script throws.** On any page that a run leads to, a handler
throws exactly when it is `addToList`, for a name that passes every test, on a
list that can grow no further; nothing that can be seen changes then. So the
handlers of a run all return exactly when it has no such event, which is so
whenever the options there are at the start and the names typed in are not
too many together. -/
theorem script_throws_iff (p : Page) (events : List Event) :
    (∀ e, let q := run dispatch p events
      (handle q e = .error .typeError ↔ Throws q e) ∧
      (Throws q e → (dispatch q e).listing = q.listing ∧
        (dispatch q e).alerts = q.alerts ∧ (dispatch q e).submitted = q.submitted)) ∧
    (events.foldlM handle p = .ok (run dispatch p events) ↔
      Meets dispatch (fun q e => ¬ Throws q e) p events) ∧
    (p.courselist.options.length + (events.filterMap Event.typed).length ≤
        Select.maxLength →
      events.foldlM handle p = .ok (run dispatch p events)) := by
  have hruns : events.foldlM handle p = .ok (run dispatch p events) ↔
      Meets dispatch (fun q e => ¬ Throws q e) p events := by
    refine foldlM_eq_ok_run_iff ?_ ?_ p events
    · intro q e hquiet
      rw [handle_eq, if_neg hquiet]
    · intro q e hthrows
      exact ⟨.typeError, by rw [handle_eq, if_pos (not_not.mp hthrows)]⟩
  refine ⟨?_, hruns, fun hroom => hruns.mpr (not_throws_of_room hroom)⟩
  intro e
  generalize run dispatch p events = q
  have hhandle := handle_eq q e
  constructor
  · rw [hhandle]
    split_ifs with hthrows
    · exact iff_of_true rfl hthrows
    · exact iff_of_false (by simp) hthrows
  · intro hthrows
    rw [if_pos hthrows] at hhandle
    rw [dispatch_of_error hhandle]
    cases e <;> exact ⟨rfl, rfl, rfl⟩

/-! ## Refused events -/

/-- The event shows no alert. -/
def heeds (p : Page) (e : Event) : Bool := (dispatch p e).alerts = p.alerts

/-- The event shows no alert, as far as the listing goes. -/
def Listing.heeds (l : Listing) (e : Event) : Bool := (l.alerts e).isEmpty

theorem heeds_eq (p : Page) (e : Event) : heeds p e = p.listing.heeds e := by
  rw [heeds, dispatch_alerts, Listing.heeds, Bool.eq_iff_iff, decide_eq_true_iff,
    List.append_right_eq_self, List.isEmpty_iff]

/-- An event that alerts changes nothing that can be seen and submits
nothing. -/
theorem Listing.step_of_not_heeds (l : Listing) (e : Event) (h : l.heeds e = false) :
    l.step e = l ∧ l.submissions e = [] := by
  cases e with
  | checkpasswd password password2 =>
      by_cases hpasswd : password = password2
      · simp [heeds, alerts, hpasswd] at h
      · exact ⟨rfl, by rw [submissions, if_neg hpasswd]⟩
  | addToList name =>
      refine ⟨?_, rfl⟩
      rw [step]
      cases hrefusal : l.refusal name with
      | some a => rfl
      | none => simp [heeds, alerts, hrefusal] at h
  | select index => simp [heeds, alerts] at h
  | removeFromList =>
      refine ⟨?_, rfl⟩
      rw [step]
      cases hpicked : l.picked with
      | some k => simp [heeds, alerts, hpicked] at h
      | none => rfl

/-- **Refused events leave no trace.** Strike out of any run the events that
ended in an alert, each judged where it happened: the run that is left shows
no alert at all, and its list, its selection and its submissions are those of
the whole run. -/
theorem refused_events_leave_no_trace (p : Page) (events : List Event) :
    let heeded := effective dispatch heeds p events
    (run dispatch p heeded).listing = (run dispatch p events).listing ∧
    (run dispatch p heeded).submitted = (run dispatch p events).submitted ∧
    (run dispatch p heeded).alerts = p.alerts := by
  have hheeds : heeds = fun q e => q.listing.heeds e := by
    funext q e
    exact heeds_eq q e
  have hidle : ∀ (l : Listing) (e : Event), l.heeds e = false → l.step e = l :=
    fun l e h => (l.step_of_not_heeds e h).1
  dsimp only
  -- which events are struck out can be told from the listing
  rw [hheeds, effective_view dispatch_listing]
  refine ⟨?_, ?_, ?_⟩
  · rw [run_listing, run_listing, run_effective hidle]
  · rw [run_submitted, run_submitted,
      labels_effective hidle fun l e h => (l.step_of_not_heeds e h).2]
  · have hquiet : ∀ (l : Listing) (e : Event), l.heeds e = true → l.alerts e = [] :=
      fun l e h => List.isEmpty_iff.mp h
    rw [run_alerts, labels_effective_nil hidle hquiet, List.append_nil]

/-! ## The order of the authors -/

namespace Listing

/-- Two listings that show the same and check a name against the same
pieces. -/
structure Alike (l m : Listing) : Prop where
  entries : l.entries = m.entries
  selected : l.selected = m.selected
  dropDown : l.dropDown = m.dropDown
  pieces : ∀ name, name ≠ [] →
    (name ∈ splitBar l.courseslist ↔ name ∈ splitBar m.courseslist)

variable {l m : Listing}

theorem Alike.refusal_eq (h : Alike l m) (name : Str) : l.refusal name = m.refusal name := by
  unfold refusal
  by_cases hblank : name = []
  · simp [hblank]
  · have hshows : l.Shows name ↔ m.Shows name := by rw [Shows, Shows, h.entries]
    have htaken : Taken l.courseslist name ↔ Taken m.courseslist name :=
      h.pieces name hblank
    simp only [hblank, if_false, hshows, htaken]

theorem Alike.picked_eq (h : Alike l m) : l.picked = m.picked := by
  rw [picked, picked, h.selected, values, values, h.entries]

/-- No event tells them apart. -/
theorem Alike.after_step (h : Alike l m) (e : Event) : Alike (l.step e) (m.step e) := by
  cases e with
  | checkpasswd password password2 => exact h
  | addToList name =>
      rw [step, step, h.refusal_eq name, h.entries]
      cases m.refusal name with
      | some a => exact h
      | none =>
          dsimp only
          split_ifs
          · refine ⟨?_, ?_, h.dropDown, h.pieces⟩
            · show l.entries ++ _ = m.entries ++ _
              rw [h.entries]
            · show some l.entries.length = some m.entries.length
              rw [h.entries]
          · exact h
  | select index =>
      refine ⟨h.entries, ?_, h.dropDown, h.pieces⟩
      show (if _ then _ else _) = if _ then _ else _
      rw [h.entries]
  | removeFromList =>
      rw [step, step, h.picked_eq]
      cases m.picked with
      | some k =>
          refine ⟨?_, ?_, h.dropDown, h.pieces⟩
          · show l.entries.eraseIdx k = m.entries.eraseIdx k
            rw [h.entries]
          · show (if _ then _ else _) = if _ then _ else _
            rw [h.entries, h.dropDown]
      | none => exact h

theorem Alike.alerts_eq (h : Alike l m) (e : Event) : l.alerts e = m.alerts e := by
  cases e with
  | checkpasswd password password2 => rfl
  | addToList name => rw [alerts, alerts, h.refusal_eq name]
  | select index => rfl
  | removeFromList => rw [alerts, alerts, h.picked_eq]

theorem Alike.submissions_eq (h : Alike l m) (e : Event) :
    l.submissions e = m.submissions e := by
  cases e with
  | checkpasswd password password2 =>
      rw [submissions, submissions, values, values, h.entries]
  | addToList name => rfl
  | select index => rfl
  | removeFromList => rfl

end Listing

/-- Two pages that look alike show the same list, the same selection and the
same new alerts, and submit the same, in every run. -/
theorem run_alike {p q : Page} (h : Listing.Alike p.listing q.listing)
    (halerts : p.alerts = q.alerts) (hsubmitted : p.submitted = q.submitted)
    (events : List Event) :
    Listing.Alike (run dispatch p events).listing (run dispatch q events).listing ∧
    (run dispatch p events).alerts = (run dispatch q events).alerts ∧
    (run dispatch p events).submitted = (run dispatch q events).submitted := by
  have hstep : ∀ (l m : Listing) (e : Event), Listing.Alike l m →
      Listing.Alike (l.step e) (m.step e) := fun l m e halike => halike.after_step e
  refine ⟨?_, ?_, ?_⟩
  · rw [run_listing, run_listing]
    exact run_related Listing.Alike hstep h events
  · rw [run_alerts, run_alerts, halerts, labels_related Listing.Alike hstep
      (fun l m e halike => halike.alerts_eq e) h]
  · rw [run_submitted, run_submitted, hsubmitted, labels_related Listing.Alike hstep
      (fun l m e halike => halike.submissions_eq e) h]

/-- **The order of the authors is invisible.** Two configurations that hold
the same table may enumerate its keys in different orders and so build
different strings: a form over the one and the same form over the other show
the same list, the same selection and the same alerts, and submit the same,
in every run. -/
theorem keyOrder_invisible {aconf aconf' : AuthorsConfig} {table : AuthorTable}
    (hold : aconf.Holds table) (hold' : aconf'.Holds table) (s : Select) :
    ∃ courseslist courseslist', gatherCourses aconf = .ok courseslist ∧
      gatherCourses aconf' = .ok courseslist' ∧ ∀ events : List Event,
        let q := run dispatch (.load courseslist s) events
        let q' := run dispatch (.load courseslist' s) events
        q.courselist.pairs = q'.courselist.pairs ∧
        q.courselist.selected = q'.courselist.selected ∧
        q.alerts = q'.alerts ∧ q.submitted = q'.submitted := by
  obtain ⟨order, -, hgather⟩ := hold.gatherCourses_eq
  obtain ⟨order', -, hgather'⟩ := hold'.gatherCourses_eq
  refine ⟨_, _, hgather, hgather', ?_⟩
  intro events
  -- the strings differ, their nonempty pieces do not
  have halike : Listing.Alike (Page.load (terminate bar order) s).listing
      (Page.load (terminate bar order') s).listing := by
    refine ⟨rfl, rfl, rfl, ?_⟩
    intro name hname
    show name ∈ splitBar (terminate bar order) ↔ name ∈ splitBar (terminate bar order')
    rw [hold.mem_splitBar_iff_piece hgather hname,
      hold'.mem_splitBar_iff_piece hgather' hname]
  obtain ⟨hlisting, halerts, hsubmitted⟩ := run_alike halike rfl rfl events
  exact ⟨hlisting.entries, hlisting.selected, halerts, hsubmitted⟩

/-- Two authors, enumerated both ways. -/
theorem keyOrder_invisible_two :
    let a := unit 'a'
    let b := unit 'b'
    let table : AuthorTable := ⟨[([a], [[a]]), ([b], [[b]])], by decide⟩
    ∃ courseslist courseslist', gatherCourses (table.config [[a], [b]]) = .ok courseslist ∧
      gatherCourses (table.config [[b], [a]]) = .ok courseslist' ∧
      ∀ events : List Event,
        (run dispatch (.load courseslist (.ofNames [[a]] false)) events).alerts =
          (run dispatch (.load courseslist' (.ofNames [[a]] false)) events).alerts := by
  intro a b table
  have hold : (table.config [[a], [b]]).Holds table := table.config_holds (by decide)
  have hold' : (table.config [[b], [a]]).Holds table := table.config_holds (by decide)
  obtain ⟨courseslist, courseslist', hgather, hgather', hruns⟩ :=
    keyOrder_invisible hold hold' (.ofNames [[a]] false)
  exact ⟨courseslist, courseslist', hgather, hgather', fun events => (hruns events).2.2.1⟩

end DuckHub.UserService
