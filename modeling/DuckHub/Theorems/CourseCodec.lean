import DuckHub.Logic.Form

/-!
# One format, two encoders, one decoder

The servlet encodes the courses of all authors into `courseslist`; the script
decodes that string when a course is added, and encodes the author's own list
into `courses` when the form is submitted. The three loops agree on one
format: each name followed by a bar.
-/

namespace DuckHub.UserService

open Lib

/-- `addToList` refuses the name in the form: it alerts, and the list is as
it was. -/
def Refuses (p : Page) : Prop :=
  ∃ a p', addToList p = .ok p' ∧ p'.alerts = p.alerts ++ [a] ∧
    p'.courselist = p.courselist

/-- `addToList` adds the name in the form: without an alert, one option with
that value comes after the options there were, and it is selected. -/
def Appends (p : Page) : Prop :=
  ∃ option p', addToList p = .ok p' ∧ p'.alerts = p.alerts ∧
    p'.courselist.options = p.courselist.options ++ [option] ∧
    option.value = p.coursename ∧
    p'.courselist.selectedIndex = p.courselist.options.length

theorem refuses_iff (p : Page) : Refuses p ↔ refusal p p.coursename ≠ none := by
  unfold Refuses
  rw [addToList_eq]
  cases refusal p p.coursename with
  | none =>
      simp only [ne_eq, not_true_eq_false, iff_false]
      rintro ⟨a, p', hp', halerts, -⟩
      split_ifs at hp' with hroom
      injection hp' with hp'
      subst hp'
      simp at halerts
  | some a => exact iff_of_true ⟨a, _, rfl, rfl, rfl⟩ (by simp)

/-- A name that passes every test is appended if there is room. -/
theorem appends_of_room {p : Page} (h : refusal p p.coursename = none)
    (hroom : p.courselist.options.length < Select.maxLength) : Appends p := by
  refine ⟨.ofName p.coursename, { p with courselist := p.courselist.append p.coursename },
    ?_, rfl, rfl, rfl, ?_⟩
  · rw [addToList_eq, h]
    exact if_pos hroom
  · simp [Select.selectedIndex, Select.append]

/-- On a full list it is not, and the script throws. -/
theorem throws_of_full {p : Page} (h : refusal p p.coursename = none)
    (hfull : Select.maxLength ≤ p.courselist.options.length) :
    addToList p = .error .typeError := by
  rw [addToList_eq, h]
  exact if_neg (Nat.not_lt.mpr hfull)

/-- For an admissible name that no option has, the second scan decides. -/
theorem refusal_of_new {p : Page} {name : Str} (nonempty : name ≠ [])
    (barFree : bar ∉ name) (noDigit : ¬ BeginsWithDigit name)
    (new : ∀ option ∈ p.courselist.options, option.value ≠ name) :
    refusal p name =
      if name ∈ splitBar p.courseslist then some .takenByAuthor else none := by
  have hassigned : ¬ Assigned p.courselist name := by
    rintro ⟨option, hoption, hvalue, -⟩
    exact new option hoption hvalue
  simp [refusal, nonempty, barFree, noDigit, hassigned]

/-- **Codec agreement.** Against the string the servlet builds for a table,
in whatever order it enumerates the authors, `addToList` refuses a new,
admissible name exactly when it is a course of some author; otherwise it
appends it to a list that has room, and throws on one that has none. And what
`checkpasswd` submits is what the servlet's inner loop appends for the nonempty
values of the list, so that splitting gives them back. -/
theorem encoders_and_decoder_agree :
    (∀ (table : AuthorTable) (aconf : AuthorsConfig), aconf.Holds table →
      (∀ course ∈ table.courses, bar ∉ course) →
      ∃ courseslist, gatherCourses aconf = .ok courseslist ∧
        ∀ p : Page, p.courseslist = courseslist →
          p.coursename ≠ [] → bar ∉ p.coursename → ¬ BeginsWithDigit p.coursename →
          (∀ option ∈ p.courselist.options, option.value ≠ p.coursename) →
          (Refuses p ↔ ∃ author ∈ table.authors, p.coursename ∈ author.2) ∧
          (¬ Refuses p → p.courselist.options.length < Select.maxLength → Appends p) ∧
          (¬ Refuses p → Select.maxLength ≤ p.courselist.options.length →
            addToList p = .error .typeError)) ∧
    (∀ p : Page, (∀ option ∈ p.courselist.options, bar ∉ option.value) →
      p.password = p.password2 →
      let names := p.courselist.values.filter (· ≠ [])
      ∃ p', checkpasswd p = .ok p' ∧
        (∀ courseslist, appendCourses names courseslist =
          .ok (courseslist ++ p'.courses)) ∧
        splitBar p'.courses = names ++ [[]] ∧
        (splitBar p'.courses).dropLast = names) := by
  constructor
  · intro table aconf hold free
    obtain ⟨order, -, hgather⟩ := hold.gatherCourses_eq
    refine ⟨_, hgather, ?_⟩
    intro p hfield nonempty barFree noDigit new
    have hrefusal := refusal_of_new nonempty barFree noDigit new
    have hmem : p.coursename ∈ splitBar p.courseslist ↔
        ∃ author ∈ table.authors, p.coursename ∈ author.2 := by
      rw [hfield, hold.mem_splitBar_iff free hgather nonempty,
        AuthorTable.courses, List.mem_flatMap]
    rw [refuses_iff, not_not]
    refine ⟨?_, appends_of_room, throws_of_full⟩
    rw [hrefusal, ← hmem]
    simp
  · intro p free hpasswd
    have hnames : ∀ name ∈ p.courselist.values.filter (· ≠ []), bar ∉ name := by
      intro name hname
      obtain ⟨option, hoption, rfl⟩ := List.mem_map.mp (List.mem_of_mem_filter hname)
      exact free option hoption
    refine ⟨_, checkpasswd_eq p, ?_⟩
    rw [if_pos hpasswd]
    refine ⟨appendCourses_eq _, splitOn_terminate hnames, ?_⟩
    exact dropLast_splitOn_terminate hnames

/-- Two authors, one without courses. -/
def oneWithout : AuthorTable :=
  ⟨[([unit 'a'], [[unit 'a', unit 'b'], [unit 'b']]), ([unit 'b'], [])], by decide⟩

/-- The authors enumerated the other way round: `ab` is refused, its first
letter is not. -/
theorem encoders_and_decoder_agree_sample :
    let a := unit 'a'
    let b := unit 'b'
    let form (name : Str) : Page :=
      { Page.load [a, b, bar, b, bar] (.ofNames [[b, b], [b, a]] false) with
        coursename := name }
    (Refuses (form [a, b]) ∧ Appends (form [a])) ∧
      ∃ p', checkpasswd (form []) = .ok p' ∧
        splitBar p'.courses = [[b, b], [b, a], []] := by
  intro a b form
  have hold : (oneWithout.config [[b], [a]]).Holds oneWithout :=
    oneWithout.config_holds (by decide)
  obtain ⟨courseslist, hgather, hadd⟩ :=
    encoders_and_decoder_agree.1 oneWithout _ hold (by decide)
  have hfield : courseslist = [a, b, bar, b, bar] := by
    have hcomputed : gatherCourses (oneWithout.config [[b], [a]]) =
        .ok [a, b, bar, b, bar] := by decide
    rw [hcomputed] at hgather
    injection hgather with hgather
    exact hgather.symm
  subst hfield
  obtain ⟨p', hsubmit, -, hpieces, -⟩ :=
    encoders_and_decoder_agree.2 (form []) (by decide) rfl
  refine ⟨⟨?_, ?_⟩, p', hsubmit, hpieces⟩
  · exact (hadd (form [a, b]) rfl (by decide) (by decide) (by decide) (by decide)).1.mpr
      (by decide)
  · have hnew := hadd (form [a]) rfl (by decide) (by decide) (by decide) (by decide)
    exact hnew.2.1 (by rw [hnew.1]; decide) (by decide)

/-! ## A full list -/

/-- A form over the table of one course whose list has as many options as
`length++` can make, and a name in it that neither has. -/
def fullForm : Page :=
  { Page.load [unit 'a', bar]
      (.ofNames (List.replicate Select.maxLength [unit 'b']) false) with
    coursename := [unit 'c'] }

theorem fullForm_options : fullForm.courselist.options =
    (List.replicate Select.maxLength [unit 'b']).map OptionElement.ofName :=
  Select.ofNames_options _ _

/-- The name is new, admissible and no course of the table, and yet it is
neither refused nor appended. -/
theorem full_list_neither_refuses_nor_appends :
    (oneCourse.config [[unit 'u']]).Holds oneCourse ∧
    (∀ course ∈ oneCourse.courses, bar ∉ course) ∧
    gatherCourses (oneCourse.config [[unit 'u']]) = .ok fullForm.courseslist ∧
    fullForm.coursename ≠ [] ∧ bar ∉ fullForm.coursename ∧
    ¬ BeginsWithDigit fullForm.coursename ∧
    (∀ option ∈ fullForm.courselist.options, option.value ≠ fullForm.coursename) ∧
    (∀ author ∈ oneCourse.authors, fullForm.coursename ∉ author.2) ∧
    ¬ Refuses fullForm ∧ ¬ Appends fullForm := by
  have hnew : ∀ option ∈ fullForm.courselist.options, option.value ≠ fullForm.coursename := by
    intro option hoption
    rw [fullForm_options] at hoption
    obtain ⟨name, hname, rfl⟩ := List.mem_map.mp hoption
    rw [List.eq_of_mem_replicate hname]
    decide
  have hfull : Select.maxLength ≤ fullForm.courselist.options.length := by
    rw [fullForm_options, List.length_map, List.length_replicate]
  have hrefusal : refusal fullForm fullForm.coursename = none :=
    (refusal_of_new (by decide) (by decide) (by decide) hnew).trans (by decide)
  refine ⟨oneCourse_holds, by decide, by decide, by decide, by decide, by decide, hnew,
    by decide, ?_, ?_⟩
  · rw [refuses_iff, hrefusal]
    simp
  · rintro ⟨option, p', hp', -⟩
    rw [throws_of_full hrefusal hfull] at hp'
    exact absurd hp' (by simp)

end DuckHub.UserService
