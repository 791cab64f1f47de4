import Mathlib.Data.List.Nodup
import Mathlib.Data.List.Perm.Basic
import DuckHub.Lib.Run

/-!
# Rosters: ordered lists of names with an imperfect duplicate test

A roster is an ordered list of admissible names that is edited by appending a
name and by removing the entry at a position. A name is refused when it is
not admissible (`ok`), when the duplicate test finds it in the list, or when
it is `taken` elsewhere. The duplicate test only recognizes some names
(`seen`): an admissible name it does not recognize can be appended again. A
name that is not refused is appended as long as the list is shorter than
`cap`; a list may be longer than that from the start.

What such a list guarantees over every run is in the structure itself: all
names are admissible, and the recognizable ones are pairwise distinct. The
lemmas say what follows for the whole list: when it stays duplicate-free
(`add_nodup_iff`), when a removal can be undone (`remove_add`), that a run
never brings in a name that is taken (`run_taken`) or leads past the limit
(`run_bounded`), and exactly which lists a run can lead to (`reachable_iff`).
-/

namespace DuckHub.Lib

variable {α : Type*}

/-- The list with the entry at position `i` moved to the end. -/
def moveToEnd (l : List α) (i : Nat) : List α :=
  l.eraseIdx i ++ l[i]?.toList

theorem map_moveToEnd {β : Type*} (f : α → β) (l : List α) (i : Nat) :
    (moveToEnd l i).map f = moveToEnd (l.map f) i := by
  cases h : l[i]? <;> simp [moveToEnd, List.eraseIdx_map, h]

/-- Behind the first entry every position is one more. -/
theorem foldl_eraseIdx_cons (a : α) (l : List α) (positions : List Nat) :
    (positions.map (· + 1)).foldl List.eraseIdx (a :: l) =
      a :: positions.foldl List.eraseIdx l := by
  induction positions generalizing l with
  | nil => rfl
  | cons i rest ih => exact ih (l.eraseIdx i)

/-- Removals alone leave any sublist one likes. -/
theorem exists_eraseIdx_of_sublist {part whole : List α} (h : part.Sublist whole) :
    ∃ positions : List Nat, positions.foldl List.eraseIdx whole = part := by
  induction h with
  | slnil => exact ⟨[], rfl⟩
  | cons a _ ih =>
      obtain ⟨positions, hpositions⟩ := ih
      exact ⟨0 :: positions, hpositions⟩
  | cons_cons a _ ih =>
      obtain ⟨positions, hpositions⟩ := ih
      refine ⟨positions.map (· + 1), ?_⟩
      rw [foldl_eraseIdx_cons, hpositions]

/-- An ordered list of admissible names whose recognizable members are
pairwise distinct. -/
structure Roster (ok seen : α → Prop) [DecidablePred seen] where
  names : List α
  names_ok : ∀ name ∈ names, ok name
  seen_nodup : (names.filter (seen ·)).Nodup

/-- One edit of a roster. -/
inductive RosterOp (α : Type*)
  | add (name : α)
  | remove (i : Nat)
  | idle

namespace Roster

section Edits

variable {ok seen : α → Prop} [DecidablePred seen]

/-- Drop the entry at a position. -/
def remove (r : Roster ok seen) (i : Nat) : Roster ok seen where
  names := r.names.eraseIdx i
  names_ok := fun name hname => r.names_ok name (List.mem_of_mem_eraseIdx hname)
  seen_nodup := r.seen_nodup.sublist ((List.eraseIdx_sublist _ _).filter _)

@[simp] theorem remove_names (r : Roster ok seen) (i : Nat) :
    (r.remove i).names = r.names.eraseIdx i := rfl

variable {r : Roster ok seen}

theorem remove_nodup (h : r.names.Nodup) (i : Nat) : (r.remove i).names.Nodup :=
  h.sublist (List.eraseIdx_sublist _ _)

/-- A recognizable name occurs once, so its removal takes it out. -/
theorem seen_notMem_remove {i : Nat} (hi : i < r.names.length)
    (hseen : seen r.names[i]) : r.names[i] ∉ (r.remove i).names := by
  intro hmem
  have hperm : (r.names[i] :: r.names.eraseIdx i).Perm r.names :=
    List.getElem_cons_eraseIdx_perm hi
  have hnodup : ((r.names[i] :: r.names.eraseIdx i).filter (seen ·)).Nodup :=
    (hperm.filter _).nodup_iff.mpr r.seen_nodup
  rw [List.filter_cons_of_pos (by simpa using hseen), List.nodup_cons] at hnodup
  exact hnodup.1 (List.mem_filter.mpr ⟨hmem, by simpa using hseen⟩)

/-- The name passes all three tests. -/
def Accepts (taken : α → Prop) (r : Roster ok seen) (name : α) : Prop :=
  ok name ∧ ¬ (name ∈ r.names ∧ seen name) ∧ ¬ taken name

/-- After a removal the name is accepted again unless it is taken. -/
theorem accepts_remove_iff {taken : α → Prop} {i : Nat} (hi : i < r.names.length) :
    (r.remove i).Accepts taken r.names[i] ↔ ¬ taken r.names[i] := by
  constructor
  · intro hacc
    exact hacc.2.2
  · intro htaken
    refine ⟨r.names_ok _ (List.getElem_mem hi), ?_, htaken⟩
    rintro ⟨hmem, hseen⟩
    exact seen_notMem_remove hi hseen hmem

end Edits

variable {ok seen : α → Prop} [DecidableEq α] [DecidablePred ok] [DecidablePred seen]
variable (cap : Nat) (taken : α → Prop) [DecidablePred taken]

instance (r : Roster ok seen) (name : α) : Decidable (r.Accepts taken name) :=
  inferInstanceAs (Decidable (_ ∧ _ ∧ _))

/-- Append a name, unless one of the tests refuses it or the list is full. -/
def add (r : Roster ok seen) (name : α) : Roster ok seen :=
  if h : r.Accepts taken name ∧ r.names.length < cap then
    { names := r.names ++ [name]
      names_ok := by
        intro other hother
        rcases List.mem_append.mp hother with hother | hother
        · exact r.names_ok other hother
        · exact List.mem_singleton.mp hother ▸ h.1.1
      seen_nodup := by
        rw [List.filter_append]
        refine List.nodup_append.mpr ⟨r.seen_nodup, ?_, ?_⟩
        · exact (List.nodup_singleton name).filter _
        · rintro a ha b hb rfl
          have hname : a = name := by simpa using List.mem_of_mem_filter hb
          obtain ⟨hmem, hseen⟩ := List.mem_filter.mp ha
          exact h.1.2.1 (hname ▸ ⟨hmem, of_decide_eq_true hseen⟩) }
  else r

/-- The roster as a machine. -/
def apply (r : Roster ok seen) : RosterOp α → Roster ok seen
  | .add name => r.add cap taken name
  | .remove i => r.remove i
  | .idle => r

variable {cap taken} {r : Roster ok seen} {name : α}

theorem add_of_accepts (h : r.Accepts taken name) (hroom : r.names.length < cap) :
    (r.add cap taken name).names = r.names ++ [name] := by
  rw [add, dif_pos ⟨h, hroom⟩]

theorem add_of_refuses (h : ¬ r.Accepts taken name) : r.add cap taken name = r := by
  rw [add, dif_neg fun hadd => h hadd.1]

theorem add_of_full (h : cap ≤ r.names.length) : r.add cap taken name = r := by
  rw [add, dif_neg fun hadd => Nat.not_lt.mpr h hadd.2]

/-- An addition appends the name, which passed the tests and found room, or
changes nothing. -/
theorem add_cases (cap : Nat) (taken : α → Prop) [DecidablePred taken]
    (r : Roster ok seen) (name : α) :
    ((r.add cap taken name).names = r.names ++ [name] ∧ r.Accepts taken name ∧
      r.names.length < cap) ∨ r.add cap taken name = r := by
  by_cases hacc : r.Accepts taken name
  · rcases Nat.lt_or_ge r.names.length cap with hroom | hfull
    · exact .inl ⟨add_of_accepts hacc hroom, hacc, hroom⟩
    · exact .inr (add_of_full hfull)
  · exact .inr (add_of_refuses hacc)

/-- An addition keeps the list duplicate-free exactly when the name, if it is
already listed, is recognized or taken, or the list is full. -/
theorem add_nodup_iff (h : r.names.Nodup) :
    (r.add cap taken name).names.Nodup ↔
      (name ∈ r.names → seen name ∨ taken name ∨ cap ≤ r.names.length) := by
  rcases add_cases cap taken r name with ⟨hadd, ⟨-, hdup, htaken⟩, hroom⟩ | hsame
  · rw [hadd, List.nodup_append_comm]
    simp only [List.singleton_append, List.nodup_cons, h, and_true]
    constructor
    · intro hnew hmem
      exact absurd hmem hnew
    · intro hex hmem
      rcases hex hmem with hseen | hbad | hfull
      · exact hdup ⟨hmem, hseen⟩
      · exact htaken hbad
      · exact Nat.not_lt.mpr hfull hroom
  · refine iff_of_true (hsame.symm ▸ h) ?_
    intro hmem
    by_contra hnot
    rw [not_or, not_or] at hnot
    -- a listed name that no test stops would have been appended
    have hacc : r.Accepts taken name :=
      ⟨r.names_ok name hmem, fun hdup => hnot.1 hdup.2, hnot.2.1⟩
    have hlonger := add_of_accepts hacc (Nat.not_le.mp hnot.2.2)
    rw [hsame] at hlonger
    exact absurd (congrArg List.length hlonger) (by simp)

/-- Adding a removed name back moves its entry to the end, unless the name is
taken. The removal itself makes room for it. -/
theorem remove_add {i : Nat} (hi : i < r.names.length) (hcap : r.names.length ≤ cap)
    (hfree : ¬ taken r.names[i]) :
    ((r.remove i).add cap taken r.names[i]).names = moveToEnd r.names i := by
  have hroom : (r.remove i).names.length < cap := by
    rw [remove_names, List.length_eraseIdx_of_lt hi]
    omega
  rw [add_of_accepts ((accepts_remove_iff hi).mpr hfree) hroom, remove_names, moveToEnd,
    List.getElem?_eq_getElem hi]
  rfl

/-- A taken name does not come back. -/
theorem remove_add_of_taken {i : Nat} (hi : i < r.names.length)
    (htaken : taken r.names[i]) : (r.remove i).add cap taken r.names[i] = r.remove i :=
  add_of_refuses fun hacc => (accepts_remove_iff hi).mp hacc htaken

/-! ## Runs -/

/-- One edit brings in no taken name. -/
theorem apply_taken (r : Roster ok seen) (op : RosterOp α)
    (hmem : name ∈ (r.apply cap taken op).names) (htaken : taken name) :
    name ∈ r.names := by
  cases op with
  | add other =>
      rw [apply] at hmem
      rcases add_cases cap taken r other with ⟨hadd, hacc, -⟩ | hsame
      · rw [hadd] at hmem
        rcases List.mem_append.mp hmem with hmem | hmem
        · exact hmem
        · exact absurd (List.mem_singleton.mp hmem ▸ htaken) hacc.2.2
      · rwa [hsame] at hmem
  | remove i => exact List.mem_of_mem_eraseIdx hmem
  | idle => exact hmem

/-- A taken name in the list at the end of a run was there at its start. -/
theorem run_taken (r : Roster ok seen) (ops : List (RosterOp α))
    (hmem : name ∈ (run (apply cap taken) r ops).names) (htaken : taken name) :
    name ∈ r.names := by
  have hinv : ∀ other ∈ (run (apply cap taken) r ops).names, taken other →
      other ∈ r.names := by
    refine run_invariant
      (fun q : Roster ok seen => ∀ other ∈ q.names, taken other → other ∈ r.names)
      ?_ (fun _ h _ => h) ops
    intro q op hq other hother hbad
    exact hq other (q.apply_taken op hother hbad) hbad
  exact hinv name hmem htaken

/-! ## Reachable rosters -/

theorem run_remove_names (r : Roster ok seen) (positions : List Nat) :
    (run (apply cap taken) r (positions.map .remove)).names =
      positions.foldl List.eraseIdx r.names := by
  induction positions generalizing r with
  | nil => rfl
  | cons i rest ih => exact ih (r.remove i)

/-- Names that pass the tests one after the other, and for which there is
room, are all appended. -/
theorem run_add_names (r : Roster ok seen) {back : List α}
    (hback : ∀ name ∈ back, ok name ∧ ¬ taken name)
    (hseen : ((r.names ++ back).filter (seen ·)).Nodup)
    (hroom : back ≠ [] → (r.names ++ back).length ≤ cap) :
    (run (apply cap taken) r (back.map .add)).names = r.names ++ back := by
  induction back generalizing r with
  | nil => exact (List.append_nil _).symm
  | cons first rest ih =>
      have hnew : ¬ (first ∈ r.names ∧ seen first) := by
        rintro ⟨hmem, hfirst⟩
        rw [List.filter_append, List.nodup_append] at hseen
        refine hseen.2.2 first ?_ first ?_ rfl
        · exact List.mem_filter.mpr ⟨hmem, decide_eq_true hfirst⟩
        · exact List.mem_filter.mpr ⟨List.mem_cons_self, decide_eq_true hfirst⟩
      have hacc : r.Accepts taken first :=
        ⟨(hback first List.mem_cons_self).1, hnew, (hback first List.mem_cons_self).2⟩
      have hfits : (r.names ++ first :: rest).length ≤ cap := hroom (by simp)
      have hlt : r.names.length < cap := by
        rw [List.length_append, List.length_cons] at hfits
        omega
      have hnames : (r.add cap taken first).names ++ rest = r.names ++ first :: rest := by
        rw [add_of_accepts hacc hlt, List.append_assoc]
        rfl
      show (run (apply cap taken) (r.add cap taken first) (rest.map .add)).names = _
      rw [ih _ (fun name hname => hback name (List.mem_cons_of_mem _ hname))
        (hnames ▸ hseen) (fun _ => hnames ▸ hfits), hnames]

/-- What is left of the start in a reachable list, and what was added and not
removed again. -/
theorem run_parts (cap : Nat) (taken : α → Prop) [DecidablePred taken]
    (r : Roster ok seen) (ops : List (RosterOp α)) :
    ∃ front back, (run (apply cap taken) r ops).names = front ++ back ∧
      front.Sublist r.names ∧ (∀ name ∈ back, ok name ∧ ¬ taken name) ∧
      (back ≠ [] → (front ++ back).length ≤ cap) := by
  refine run_invariant (fun q : Roster ok seen => ∃ front back,
    q.names = front ++ back ∧ front.Sublist r.names ∧
      (∀ name ∈ back, ok name ∧ ¬ taken name) ∧
      (back ≠ [] → (front ++ back).length ≤ cap))
    ?_ ⟨r.names, [], by simp, List.Sublist.refl _, by simp, by simp⟩ ops
  rintro q op ⟨front, back, hq, hfront, hback, hcap⟩
  cases op with
  | add name =>
      rw [apply]
      rcases add_cases cap taken q name with ⟨hadd, hacc, hroom⟩ | hsame
      · refine ⟨front, back ++ [name], ?_, hfront, ?_, ?_⟩
        · rw [hadd, hq, List.append_assoc]
        · intro other hother
          rcases List.mem_append.mp hother with hother | hother
          · exact hback other hother
          · rw [List.mem_singleton.mp hother]
            exact ⟨hacc.1, hacc.2.2⟩
        · intro _
          rw [← List.append_assoc, ← hq, List.length_append]
          exact hroom
      · exact ⟨front, back, by rw [hsame, hq], hfront, hback, hcap⟩
  | remove i =>
      rw [apply, remove_names, hq]
      by_cases hi : i < front.length
      · refine ⟨front.eraseIdx i, back, ?_, ?_, hback, ?_⟩
        · exact List.eraseIdx_append_of_lt_length hi _
        · exact (List.eraseIdx_sublist _ _).trans hfront
        · intro hne
          have hle := hcap hne
          have hshorter := List.length_eraseIdx_le front i
          rw [List.length_append] at hle ⊢
          omega
      · refine ⟨front, back.eraseIdx (i - front.length), ?_, hfront, ?_, ?_⟩
        · exact List.eraseIdx_append_of_length_le (Nat.le_of_not_lt hi) _
        · intro name hname
          exact hback name (List.mem_of_mem_eraseIdx hname)
        · intro hne
          have hback' : back ≠ [] := by
            rintro rfl
            exact hne List.eraseIdx_nil
          have hle := hcap hback'
          have hshorter := List.length_eraseIdx_le back (i - front.length)
          rw [List.length_append] at hle ⊢
          omega
  | idle => exact ⟨front, back, hq, hfront, hback, hcap⟩

/-- A list that is longer than the limit holds nothing but what it started
with. -/
theorem run_bounded (cap : Nat) (taken : α → Prop) [DecidablePred taken]
    (r : Roster ok seen) (ops : List (RosterOp α)) :
    (run (apply cap taken) r ops).names.length ≤ cap ∨
      (run (apply cap taken) r ops).names.Sublist r.names := by
  obtain ⟨front, back, hnames, hfront, -, hcap⟩ := r.run_parts cap taken ops
  by_cases hback : back = []
  · refine .inr ?_
    rwa [hnames, hback, List.append_nil]
  · exact .inl (hnames ▸ hcap hback)

/-- **The reachable rosters.** The lists a run can lead to are those of which
a front part is left of the start, in its order, and the rest are admissible
names that are not taken, as long as the recognizable names are distinct and
a list with such a rest keeps to the limit. -/
theorem reachable_iff (cap : Nat) (taken : α → Prop) [DecidablePred taken]
    (r : Roster ok seen) (l : List α) :
    (∃ ops, (run (apply cap taken) r ops).names = l) ↔
      ∃ front back, l = front ++ back ∧ front.Sublist r.names ∧
        (∀ name ∈ back, ok name ∧ ¬ taken name) ∧
        (back ≠ [] → l.length ≤ cap) ∧ (l.filter (seen ·)).Nodup := by
  constructor
  · rintro ⟨ops, rfl⟩
    obtain ⟨front, back, hnames, hfront, hback, hcap⟩ := r.run_parts cap taken ops
    exact ⟨front, back, hnames, hfront, hback, hnames ▸ hcap, Roster.seen_nodup _⟩
  · rintro ⟨front, back, rfl, hfront, hback, hcap, hseen⟩
    -- first cut the start down to the front part, then add the rest in order
    obtain ⟨positions, hpositions⟩ := exists_eraseIdx_of_sublist hfront
    have hremoved : (run (apply cap taken) r (positions.map .remove)).names = front :=
      (run_remove_names r positions).trans hpositions
    refine ⟨positions.map .remove ++ back.map .add, ?_⟩
    rw [run_append, run_add_names _ hback (hremoved.symm ▸ hseen) (hremoved.symm ▸ hcap),
      hremoved]

end Roster

end DuckHub.Lib
