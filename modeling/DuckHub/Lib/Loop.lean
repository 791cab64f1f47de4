import Mathlib.Data.List.Basic

/-!
# Counted loops that may break or throw

`forLoop` is the loop `for (i = start; i < start + count; i++)` of a C-like
language over an explicit state, with the two ways such a loop ends early: a
`break` (`ForInStep.done`) and an exception (`Except.error`).

`forLoop_spec` is the invariant rule, in total-correctness form: it proves
that the loop ends without an exception. The loops programs actually contain
are derived from it — a state known in closed form at every round
(`forLoop_eq_of_yield`), a traversal that accumulates (`forLoop_foldl`) and a
search that breaks at the first hit (`forLoop_search`).
-/

namespace DuckHub.Lib

universe u v

variable {σ ε β : Type*}

/-- A computation that returned goes on with what it returned. -/
@[simp] theorem ok_bind {ε : Type u} {α γ : Type v} (a : α) (f : α → Except ε γ) :
    (Except.ok a >>= f) = f a := rfl

/-- `for (i = start; i < start + count; i++) body`, where `body` yields the
state of the next round or is done on `break`. -/
def forLoop (body : Nat → σ → Except ε (ForInStep σ)) :
    Nat → Nat → σ → Except ε σ
  | _, 0, s => .ok s
  | i, count + 1, s =>
      match body i s with
      | .error err => .error err
      | .ok (.done s') => .ok s'
      | .ok (.yield s') => forLoop body (i + 1) count s'

variable {body : Nat → σ → Except ε (ForInStep σ)}

/-- The invariant rule. `I i` holds before round `i`; a round that goes on
re-establishes it, a round that breaks establishes the postcondition. -/
theorem forLoop_spec (I : Nat → σ → Prop) (Q : σ → Prop) {start count : Nat}
    (round : ∀ i s, start ≤ i → i < start + count → I i s →
      (∃ s', body i s = .ok (.yield s') ∧ I (i + 1) s') ∨
      (∃ s', body i s = .ok (.done s') ∧ Q s'))
    (exit : ∀ s, I (start + count) s → Q s) {s : σ} (entry : I start s) :
    ∃ s', forLoop body start count s = .ok s' ∧ Q s' := by
  induction count generalizing start s with
  | zero => exact ⟨s, rfl, exit s entry⟩
  | succ count ih =>
      rcases round start s (Nat.le_refl _) (by omega) entry with
        ⟨s', hbody, hinv⟩ | ⟨s', hbody, hpost⟩
      · rw [forLoop, hbody]
        refine ih ?_ ?_ hinv
        · intro i t hle hlt
          exact round i t (by omega) (by omega)
        · intro t ht
          exact exit t (by rwa [Nat.add_right_comm, Nat.add_assoc] at ht)
      · exact ⟨s', by rw [forLoop, hbody], hpost⟩

/-- A loop that never breaks and whose state before round `i` is `f i`. -/
theorem forLoop_eq_of_yield {start count : Nat} (f : Nat → σ) {s t : σ}
    (entry : s = f start) (exit : f (start + count) = t)
    (round : ∀ i, start ≤ i → i < start + count →
      body i (f i) = .ok (.yield (f (i + 1)))) :
    forLoop body start count s = .ok t := by
  have hloop : ∃ s', forLoop body start count s = .ok s' ∧ s' = t := by
    refine forLoop_spec (fun i s => s = f i) _ ?_ (fun _ hs => hs.trans exit) entry
    rintro i s hle hlt rfl
    exact .inl ⟨f (i + 1), round i hle hlt, rfl⟩
  obtain ⟨s', hrun, rfl⟩ := hloop
  exact hrun

/-- A traversal that updates the state by each element in turn is a fold. -/
theorem forLoop_foldl (xs : List β) (update : σ → β → σ) (s : σ)
    (round : ∀ i t, ∀ h : i < xs.length,
      body i t = .ok (.yield (update t xs[i]))) :
    forLoop body 0 xs.length s = .ok (xs.foldl update s) := by
  refine forLoop_eq_of_yield (fun i => (xs.take i).foldl update s) (by simp)
    (by simp) ?_
  intro i _ hlt
  have hi : i < xs.length := by omega
  rw [round i _ hi, List.take_succ_eq_append_getElem hi, List.foldl_append]
  rfl

/-- A search that leaves the state alone until the first element that
satisfies `p` and breaks there with `hit`. -/
theorem forLoop_search (xs : List β) (p : β → Bool) (hit s : σ)
    (round : ∀ i, ∀ h : i < xs.length,
      body i s = .ok (if p xs[i] then .done hit else .yield s)) :
    forLoop body 0 xs.length s = .ok (if xs.any p then hit else s) := by
  have hloop : ∃ s', forLoop body 0 xs.length s = .ok s' ∧
      s' = if xs.any p then hit else s := by
    refine forLoop_spec (fun i t => t = s ∧ (xs.take i).any p = false) _ ?_ ?_
      ⟨rfl, rfl⟩
    · rintro i t _ hlt ⟨rfl, hnone⟩
      have hi : i < xs.length := by omega
      rw [round i hi]
      cases hp : p xs[i] with
      | false =>
          refine .inl ⟨t, by simp, rfl, ?_⟩
          rw [List.take_succ_eq_append_getElem hi, List.any_append, hnone]
          simp [hp]
      | true =>
          have hany : xs.any p = true :=
            List.any_eq_true.mpr ⟨xs[i], List.getElem_mem hi, hp⟩
          exact .inr ⟨hit, by simp, by simp [hany]⟩
    · rintro t ⟨rfl, hnone⟩
      rw [Nat.zero_add, List.take_length] at hnone
      simp [hnone]
  obtain ⟨s', hrun, rfl⟩ := hloop
  exact hrun

/-! ## Writing list slots -/

/-- Rewriting the slot right behind a front part. -/
theorem modify_length_append (front back : List β) (x : β) (f : β → β) :
    (front ++ x :: back).modify front.length f = front ++ f x :: back := by
  rw [List.modify_eq_take_drop, List.take_left, List.drop_left]
  rfl

/-- One round of overwriting a list slot by slot: the first `i` slots are
new, and slot `i` gets its new content. -/
theorem modify_take_append_drop {xs ys : List β} {i : Nat} (f : β → β)
    (hx : i < xs.length) (hy : i < ys.length) (hf : f ys[i] = xs[i]) :
    (xs.take i ++ ys.drop i).modify i f = xs.take (i + 1) ++ ys.drop (i + 1) := by
  have hlen : (xs.take i).length = i := List.length_take_of_le (by omega)
  have hwrite := modify_length_append (xs.take i) (ys.drop (i + 1)) ys[i] f
  rw [hlen] at hwrite
  rw [List.drop_eq_getElem_cons hy, hwrite, hf,
    List.take_succ_eq_append_getElem hx, List.append_assoc]
  rfl

end DuckHub.Lib
