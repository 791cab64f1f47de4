import Mathlib.Data.List.Basic

/-!
# Separator-terminated lists

The list format in which every piece is *followed* by one separator, so that
the empty list of pieces is the empty string and a nonempty list ends in a
separator. Splitting at the separator therefore yields the pieces and one
last, empty piece.

The encoder (`terminate`) and the split decoder (`List.splitOn`) are related
here once, over any alphabet, under the only condition that matters: no piece
contains the separator.
-/

namespace DuckHub.Lib

variable {α : Type*}

/-- Every piece followed by one separator. -/
def terminate (sep : α) (pieces : List (List α)) : List α :=
  pieces.flatMap fun piece => piece ++ [sep]

@[simp] theorem terminate_nil (sep : α) : terminate sep [] = [] := rfl

@[simp] theorem terminate_cons (sep : α) (piece : List α)
    (pieces : List (List α)) :
    terminate sep (piece :: pieces) = piece ++ sep :: terminate sep pieces := by
  simp [terminate]

/-- Encodings concatenate: the format has no state across pieces. -/
theorem terminate_append (sep : α) (left right : List (List α)) :
    terminate sep (left ++ right) = terminate sep left ++ terminate sep right := by
  simp [terminate]

variable [DecidableEq α]

/-- Splitting an encoding yields its pieces and one last empty piece, the
rest of the string after the last separator. -/
theorem splitOn_terminate {sep : α} {pieces : List (List α)}
    (free : ∀ piece ∈ pieces, sep ∉ piece) :
    (terminate sep pieces).splitOn sep = pieces ++ [[]] := by
  induction pieces with
  | nil => rfl
  | cons piece rest ih =>
      have headFree : sep ∉ piece := free piece List.mem_cons_self
      have tailFree : ∀ other ∈ rest, sep ∉ other := by
        intro other member
        exact free other (List.mem_cons_of_mem _ member)
      rw [terminate_cons, List.splitOn_append_cons_self_of_not_mem headFree,
        ih tailFree]
      rfl

/-- The extra empty piece is never mistaken for a nonempty one: a nonempty
name is a piece of the split exactly when it was encoded. -/
theorem mem_splitOn_terminate {sep : α} {pieces : List (List α)}
    (free : ∀ piece ∈ pieces, sep ∉ piece) {name : List α} (nonempty : name ≠ []) :
    name ∈ (terminate sep pieces).splitOn sep ↔ name ∈ pieces := by
  rw [splitOn_terminate free]
  simp [nonempty]

/-- Pieces that hold the separator are split up themselves: nothing else
happens to an encoding that is not free of it. -/
theorem splitOn_terminate_eq_flatMap (sep : α) (pieces : List (List α)) :
    (terminate sep pieces).splitOn sep = pieces.flatMap (List.splitOn sep) ++ [[]] := by
  induction pieces with
  | nil => rfl
  | cons piece rest ih =>
      rw [terminate_cons, List.splitOn_append_cons_self, ih, List.flatMap_cons,
        List.append_assoc]

/-- A nonempty name is in the split exactly when it is in the split of a
piece. -/
theorem mem_splitOn_terminate_iff {sep : α} {pieces : List (List α)} {name : List α}
    (nonempty : name ≠ []) :
    name ∈ (terminate sep pieces).splitOn sep ↔
      ∃ piece ∈ pieces, name ∈ piece.splitOn sep := by
  rw [splitOn_terminate_eq_flatMap]
  simp [nonempty]

/-- No piece of a split holds the separator. -/
theorem notMem_of_mem_splitOn {sep : α} {l piece : List α}
    (hpiece : piece ∈ l.splitOn sep) : sep ∉ piece := by
  induction l generalizing piece with
  | nil =>
      rw [List.splitOn_nil, List.mem_singleton] at hpiece
      simp [hpiece]
  | cons c rest ih =>
      rw [List.splitOn_cons_eq_if_modifyHead] at hpiece
      split at hpiece
      · rcases List.mem_cons.mp hpiece with rfl | hpiece
        · exact List.not_mem_nil
        · exact ih hpiece
      · next hc =>
          obtain ⟨first, others, hsplit⟩ :=
            List.exists_cons_of_ne_nil (List.splitOn_ne_nil sep rest)
          rw [hsplit, List.modifyHead_cons] at hpiece
          rw [hsplit] at ih
          rcases List.mem_cons.mp hpiece with rfl | hpiece
          · have hne : sep ≠ c := fun heq => hc (by simp [heq])
            simpa [hne] using ih List.mem_cons_self
          · exact ih (List.mem_cons_of_mem _ hpiece)

/-- Dropping the last piece of the split inverts the encoding. -/
theorem dropLast_splitOn_terminate {sep : α} {pieces : List (List α)}
    (free : ∀ piece ∈ pieces, sep ∉ piece) :
    ((terminate sep pieces).splitOn sep).dropLast = pieces := by
  rw [splitOn_terminate free]
  simp

/-- The round trip succeeds for no other pieces. -/
theorem dropLast_splitOn_terminate_iff {sep : α} {pieces : List (List α)} :
    ((terminate sep pieces).splitOn sep).dropLast = pieces ↔
      ∀ piece ∈ pieces, sep ∉ piece := by
  constructor
  · intro hround piece hpiece
    rw [splitOn_terminate_eq_flatMap, List.dropLast_concat] at hround
    rw [← hround] at hpiece
    obtain ⟨whole, -, hsplit⟩ := List.mem_flatMap.mp hpiece
    exact notMem_of_mem_splitOn hsplit
  · exact dropLast_splitOn_terminate

end DuckHub.Lib
