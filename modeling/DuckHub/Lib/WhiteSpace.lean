import Mathlib.Data.List.DropRight
import Mathlib.Data.List.Chain

/-!
# Stripping and collapsing white space

The normalization that replaces each run of white space by one blank and then
strips white space at both ends, over any alphabet: `isSpace` says which
symbols are white space and `blank` is the one that stands for a run.

`Tidy` describes its fixed points without reference to the normalization:
`stripAndCollapse_eq_self_iff` says the two agree, and idempotence
(`stripAndCollapse_idem`) is the fact that the output is tidy.
-/

namespace DuckHub.Lib

variable {α : Type*}

/-- Replace each run of white space by one blank: a white-space symbol that
another one follows is dropped, the last of a run becomes the blank. -/
def squeeze (isSpace : α → Bool) (blank : α) : List α → List α
  | [] => []
  | [c] => if isSpace c then [blank] else [c]
  | c :: d :: rest =>
      if isSpace c then
        if isSpace d then squeeze isSpace blank (d :: rest)
        else blank :: squeeze isSpace blank (d :: rest)
      else c :: squeeze isSpace blank (d :: rest)

/-- Collapse runs, then strip both ends. -/
def stripAndCollapse (isSpace : α → Bool) (blank : α) (l : List α) : List α :=
  ((squeeze isSpace blank l).dropWhile isSpace).rdropWhile isSpace

/-- Every white-space symbol is the blank and no two stand side by side. -/
structure Squeezed (isSpace : α → Bool) (blank : α) (l : List α) : Prop where
  blanks : ∀ c ∈ l, isSpace c = true → c = blank
  single : l.IsChain fun c d => ¬ (isSpace c = true ∧ isSpace d = true)

/-- No white space at either end, none repeated inside, and none but the
blank. -/
structure Tidy (isSpace : α → Bool) (blank : α) (l : List α) : Prop
    extends Squeezed isSpace blank l where
  head : ∀ h : l ≠ [], isSpace (l.head h) = false
  last : ∀ h : l ≠ [], isSpace (l.getLast h) = false

variable {isSpace : α → Bool} {blank : α}

/-! ## Collapsing -/

/-- A symbol that is not white space is kept as it is. -/
theorem squeeze_cons_of_not {c : α} (hc : isSpace c = false) (rest : List α) :
    squeeze isSpace blank (c :: rest) = c :: squeeze isSpace blank rest := by
  cases rest with
  | nil => simp [squeeze, hc]
  | cons d rest => simp [squeeze, hc]

/-- Collapsing leaves single blanks only. -/
theorem squeezed_squeeze (l : List α) :
    Squeezed isSpace blank (squeeze isSpace blank l) := by
  fun_induction squeeze isSpace blank l with
  | case1 => exact ⟨by simp, by simp⟩
  | case2 c hc => exact ⟨by simp, by simp⟩
  | case3 c hc => exact ⟨by simp [hc], by simp⟩
  | case4 c d rest hc hd ih => exact ih
  | case5 c d rest hc hd ih =>
      -- the run ends here, so the next symbol is kept and is no white space
      have hd' : isSpace d = false := by simpa using hd
      rw [squeeze_cons_of_not hd'] at ih ⊢
      refine ⟨?_, ?_⟩
      · intro e he hspace
        rcases List.mem_cons.mp he with rfl | he
        · rfl
        · exact ih.blanks e he hspace
      · exact List.isChain_cons_cons.mpr ⟨by simp [hd'], ih.single⟩
  | case6 c d rest hc ih =>
      have hc' : isSpace c = false := by simpa using hc
      refine ⟨?_, ?_⟩
      · intro e he hspace
        rcases List.mem_cons.mp he with rfl | he
        · simp [hc'] at hspace
        · exact ih.blanks e he hspace
      · exact ih.single.cons fun e _ => by simp [hc']

/-- Nothing is left to collapse in a string of single blanks. -/
theorem Squeezed.squeeze_eq {l : List α} (h : Squeezed isSpace blank l)
    (last : ∀ hne : l ≠ [], isSpace (l.getLast hne) = false) :
    squeeze isSpace blank l = l := by
  fun_induction squeeze isSpace blank l with
  | case1 => rfl
  | case2 c hc => simpa [hc] using last (by simp)
  | case3 c hc => rfl
  | case4 c d rest hc hd ih =>
      exact absurd ⟨hc, hd⟩ (List.isChain_cons_cons.mp h.single).1
  | case5 c d rest hc hd ih =>
      have tail : Squeezed isSpace blank (d :: rest) :=
        ⟨fun e he => h.blanks e (List.mem_cons_of_mem _ he), h.single.tail⟩
      rw [ih tail (fun hne => by simpa using last (by simp)),
        h.blanks c List.mem_cons_self hc]
  | case6 c d rest hc ih =>
      have tail : Squeezed isSpace blank (d :: rest) :=
        ⟨fun e he => h.blanks e (List.mem_cons_of_mem _ he), h.single.tail⟩
      rw [ih tail (fun hne => by simpa using last (by simp))]

/-- Whatever is cut off at the ends, single blanks stay single. -/
theorem Squeezed.of_append {front middle back : List α}
    (h : Squeezed isSpace blank (front ++ middle ++ back)) :
    Squeezed isSpace blank middle := by
  refine ⟨fun c hc => h.blanks c (by simp [hc]), ?_⟩
  exact h.single.left_of_append.right_of_append

/-! ## Fixed points -/

/-- The normal form is tidy. -/
theorem tidy_stripAndCollapse (l : List α) :
    Tidy isSpace blank (stripAndCollapse isSpace blank l) := by
  unfold stripAndCollapse
  have hsqueezed : Squeezed isSpace blank (squeeze isSpace blank l) :=
    squeezed_squeeze l
  generalize squeeze isSpace blank l = front at hsqueezed ⊢
  have hsplit : front = front.takeWhile isSpace ++
      (front.dropWhile isSpace).rdropWhile isSpace ++
      (front.dropWhile isSpace).rtakeWhile isSpace := by
    rw [List.append_assoc, List.rdropWhile_append_rtakeWhile,
      List.takeWhile_append_dropWhile]
  refine ⟨(hsplit ▸ hsqueezed).of_append, ?_, ?_⟩
  · intro hne
    -- stripping at the end leaves the first symbol in place
    have hpre := List.rdropWhile_prefix isSpace (front.dropWhile isSpace)
    rw [hpre.head hne]
    exact List.head_dropWhile_not isSpace _
  · intro hne
    simpa using List.rdropWhile_last_not isSpace _ hne

/-- A tidy string is its own normal form. -/
theorem Tidy.stripAndCollapse_eq {l : List α} (h : Tidy isSpace blank l) :
    stripAndCollapse isSpace blank l = l := by
  have hhead : l.dropWhile isSpace = l := by
    cases l with
    | nil => rfl
    | cons c rest => simpa using h.head (by simp)
  have hlast : l.rdropWhile isSpace = l :=
    List.rdropWhile_eq_self_iff.mpr fun hne => by simp [h.last hne]
  rw [stripAndCollapse, h.squeeze_eq h.last, hhead, hlast]

/-- The fixed points of the normalization are the tidy strings. -/
theorem stripAndCollapse_eq_self_iff {l : List α} :
    stripAndCollapse isSpace blank l = l ↔ Tidy isSpace blank l :=
  ⟨fun h => h ▸ tidy_stripAndCollapse l, Tidy.stripAndCollapse_eq⟩

/-- Without white space there is nothing to normalize. -/
theorem tidy_of_forall_not {l : List α} (h : ∀ c ∈ l, isSpace c = false) :
    Tidy isSpace blank l := by
  refine ⟨⟨?_, ?_⟩, ?_, ?_⟩
  · intro c hc hspace
    exact absurd (h c hc) (by simp [hspace])
  · refine (List.pairwise_of_forall_mem_list ?_).isChain
    rintro c hc d - ⟨hspace, -⟩
    exact absurd (h c hc) (by simp [hspace])
  · intro hne
    exact h _ (List.head_mem hne)
  · intro hne
    exact h _ (List.getLast_mem hne)

/-- Normalizing twice is normalizing once. -/
@[simp] theorem stripAndCollapse_idem (l : List α) :
    stripAndCollapse isSpace blank (stripAndCollapse isSpace blank l) =
      stripAndCollapse isSpace blank l :=
  (tidy_stripAndCollapse l).stripAndCollapse_eq

instance [DecidableEq α] (l : List α) : Decidable (Tidy isSpace blank l) :=
  decidable_of_iff _ stripAndCollapse_eq_self_iff

end DuckHub.Lib
