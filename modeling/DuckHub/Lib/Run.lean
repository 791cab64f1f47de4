import Mathlib.Data.List.Basic

/-!
# Runs of a deterministic machine

A machine is a total step function on states; a run is the list of events fed
to it. `visited` lists the states a run goes through, the start included, and
`Meets` says that every event of a run satisfies a condition on itself and the
state it arrives in.

A few rules package the inductions over runs:

* `run_invariant` — what every step preserves holds at the end of every run;
* `visited_iff_meets` — when meeting a condition preserves an invariant and
  missing it breaks the property, a run has the property throughout *iff* it
  meets the condition throughout;
* `run_simulates` — a step simulation lifts to runs;
* `run_view`, `run_log`, `run_related` — the same for a view that steps on its
  own, for a log that every step extends, and for two machines fed the same
  events;
* `run_effective` — events that change nothing can be struck from a run.
-/

namespace DuckHub.Lib

variable {σ η τ κ : Type*}

/-- The state at the end of a run. -/
def run (step : σ → η → σ) (s : σ) (events : List η) : σ :=
  events.foldl step s

/-- The states a run goes through, from the start to the end. -/
def visited (step : σ → η → σ) : σ → List η → List σ
  | s, [] => [s]
  | s, e :: rest => s :: visited step (step s e) rest

/-- Every event of the run satisfies `ok` in the state it arrives in. -/
def Meets (step : σ → η → σ) (ok : σ → η → Prop) : σ → List η → Prop
  | _, [] => True
  | s, e :: rest => ok s e ∧ Meets step ok (step s e) rest

instance decidableMeets (step : σ → η → σ) (ok : σ → η → Prop)
    [∀ s e, Decidable (ok s e)] :
    ∀ s events, Decidable (Meets step ok s events)
  | _, [] => .isTrue trivial
  | s, e :: rest =>
      have := decidableMeets step ok (step s e) rest
      inferInstanceAs (Decidable (ok s e ∧ Meets step ok (step s e) rest))

variable {step : σ → η → σ}

/-- A run can be cut anywhere. -/
theorem run_append (s : σ) (front back : List η) :
    run step s (front ++ back) = run step (run step s front) back :=
  List.foldl_append

/-- The start is visited. -/
theorem start_mem_visited (s : σ) (events : List η) :
    s ∈ visited step s events := by
  cases events with
  | nil => exact List.mem_singleton_self s
  | cons e rest => exact List.mem_cons_self

/-- The end of the run is visited. -/
theorem run_mem_visited (s : σ) (events : List η) :
    run step s events ∈ visited step s events := by
  induction events generalizing s with
  | nil => exact List.mem_singleton_self s
  | cons e rest ih => exact List.mem_cons_of_mem s (ih (step s e))

/-- A step function that fails exactly where a condition is missed makes runs
that fail exactly when they miss it somewhere. -/
theorem foldlM_eq_ok_run_iff {ε : Type*} {f : σ → η → Except ε σ} {ok : σ → η → Prop}
    (returns : ∀ s e, ok s e → f s e = .ok (step s e))
    (fails : ∀ s e, ¬ ok s e → ∃ err, f s e = .error err) (s : σ) (events : List η) :
    events.foldlM f s = .ok (run step s events) ↔ Meets step ok s events := by
  induction events generalizing s with
  | nil => exact iff_of_true rfl trivial
  | cons e rest ih =>
      rw [List.foldlM_cons]
      by_cases hok : ok s e
      · rw [returns s e hok]
        show rest.foldlM f (step s e) = .ok (run step (step s e) rest) ↔
          ok s e ∧ Meets step ok (step s e) rest
        rw [ih, and_iff_right hok]
      · obtain ⟨err, herr⟩ := fails s e hok
        rw [herr]
        refine iff_of_false ?_ fun hmeets => hok hmeets.1
        show Except.error err ≠ _
        simp

/-- What every step preserves holds at the end of every run. -/
theorem run_invariant (Inv : σ → Prop) (keep : ∀ s e, Inv s → Inv (step s e))
    {s : σ} (start : Inv s) (events : List η) : Inv (run step s events) := by
  induction events generalizing s with
  | nil => exact start
  | cons e rest ih => exact ih (keep s e start)

/-- What every step keeps that meets a condition holds at the end of every run
that meets it. -/
theorem run_invariant_of_meets (Inv : σ → Prop) {ok : σ → η → Prop}
    (keep : ∀ s e, Inv s → ok s e → Inv (step s e)) {s : σ} (start : Inv s)
    {events : List η} (hmeets : Meets step ok s events) : Inv (run step s events) := by
  induction events generalizing s with
  | nil => exact start
  | cons e rest ih => exact ih (keep s e start hmeets.1) hmeets.2

/-- The exact condition for a property to hold throughout a run. `Inv` is
the invariant that carries the induction: it implies the property, events
that meet the condition preserve it, and an event that misses the condition
leads to a state without the property. -/
theorem visited_iff_meets (Inv : σ → Prop) {P : σ → Prop} {ok : σ → η → Prop}
    (sound : ∀ s, Inv s → P s) (keep : ∀ s e, Inv s → ok s e → Inv (step s e))
    (miss : ∀ s e, Inv s → ¬ ok s e → ¬ P (step s e)) {s : σ} (start : Inv s)
    (events : List η) :
    (∀ t ∈ visited step s events, P t) ↔ Meets step ok s events := by
  induction events generalizing s with
  | nil => simpa [visited, Meets] using sound s start
  | cons e rest ih =>
      constructor
      · intro hall
        have hnext : P (step s e) :=
          hall _ (List.mem_cons_of_mem _ (start_mem_visited _ rest))
        have hok : ok s e := by
          by_contra hmiss
          exact miss s e start hmiss hnext
        exact ⟨hok, (ih (keep s e start hok)).mp fun t ht =>
          hall t (List.mem_cons_of_mem _ ht)⟩
      · rintro ⟨hok, hrest⟩ t ht
        rcases List.mem_cons.mp ht with rfl | ht
        · exact sound t start
        · exact (ih (keep s e start hok)).mpr hrest t ht

/-! ## Simulation -/

/-- The events of the simulating machine along a run of the simulated one. -/
def labels (step : σ → η → σ) (label : σ → η → κ) : σ → List η → List κ
  | _, [] => []
  | s, e :: rest => label s e :: labels step label (step s e) rest

/-- A step simulation lifts to runs. -/
theorem run_simulates {step' : τ → κ → τ} {label : σ → η → κ}
    (R : σ → τ → Prop)
    (square : ∀ s t e, R s t → R (step s e) (step' t (label s e)))
    {s : σ} {t : τ} (start : R s t) (events : List η) :
    R (run step s events) (run step' t (labels step label s events)) := by
  induction events generalizing s t with
  | nil => exact start
  | cons e rest ih => exact ih (square s t e start)

/-- Two machines fed the same events stay related. -/
theorem run_related {step' : τ → η → τ} (R : σ → τ → Prop)
    (square : ∀ s t e, R s t → R (step s e) (step' t e)) {s : σ} {t : τ}
    (start : R s t) (events : List η) : R (run step s events) (run step' t events) := by
  induction events generalizing s t with
  | nil => exact start
  | cons e rest ih => exact ih (square s t e start)

/-- A view that steps on its own: what is seen after a run is a run from what
was seen before it. -/
theorem run_view {view : σ → τ} {step' : τ → η → τ}
    (square : ∀ s e, view (step s e) = step' (view s) e) (s : σ) (events : List η) :
    view (run step s events) = run step' (view s) events := by
  refine run_related (fun s t => view s = t) ?_ rfl events
  rintro s t e rfl
  exact square s e

/-! ## Outputs -/

/-- Outputs that depend on a view only are those of the machine of views. -/
theorem labels_view {view : σ → τ} {step' : τ → η → τ} {out : τ → η → κ}
    (square : ∀ s e, view (step s e) = step' (view s) e) (s : σ) (events : List η) :
    labels step (fun s e => out (view s) e) s events = labels step' out (view s) events := by
  induction events generalizing s with
  | nil => rfl
  | cons e rest ih => rw [labels, labels, ih, square]

theorem labels_map {τ' : Type*} (f : κ → τ') (out : σ → η → κ) (s : σ) (events : List η) :
    labels step (fun s e => f (out s e)) s events = (labels step out s events).map f := by
  induction events generalizing s with
  | nil => rfl
  | cons e rest ih => rw [labels, labels, ih, List.map_cons]

/-- Related machines that put out the same put out the same in every run. -/
theorem labels_related {step' : τ → η → τ} {out : σ → η → κ} {out' : τ → η → κ}
    (R : σ → τ → Prop) (square : ∀ s t e, R s t → R (step s e) (step' t e))
    (same : ∀ s t e, R s t → out s e = out' t e) {s : σ} {t : τ} (start : R s t)
    (events : List η) : labels step out s events = labels step' out' t events := by
  induction events generalizing s t with
  | nil => rfl
  | cons e rest ih => rw [labels, labels, same s t e start, ih (square s t e start)]

/-- A log that every step only extends holds, after a run, what the steps put
out one after the other. -/
theorem run_log {log : σ → List κ} {emit : σ → η → List κ}
    (extend : ∀ s e, log (step s e) = log s ++ emit s e) (s : σ) (events : List η) :
    log (run step s events) = log s ++ (labels step emit s events).flatten := by
  induction events generalizing s with
  | nil => simp [run, labels]
  | cons e rest ih =>
      have hrest : log (run step s (e :: rest)) =
          log (step s e) ++ (labels step emit (step s e) rest).flatten := ih (step s e)
      rw [hrest, extend, labels, List.flatten_cons, List.append_assoc]

/-- What a run puts out has the properties that an invariant gives to every
single output. -/
theorem labels_forall (Inv : σ → Prop) {emit : σ → η → List κ} {Q : κ → Prop}
    (keep : ∀ s e, Inv s → Inv (step s e))
    (each : ∀ s e, Inv s → ∀ k ∈ emit s e, Q k) {s : σ} (start : Inv s)
    (events : List η) : ∀ k ∈ (labels step emit s events).flatten, Q k := by
  induction events generalizing s with
  | nil =>
      intro k hk
      exact absurd hk List.not_mem_nil
  | cons e rest ih =>
      intro k hk
      rw [labels, List.flatten_cons] at hk
      rcases List.mem_append.mp hk with hk | hk
      · exact each s e start k hk
      · exact ih (keep s e start) k hk

/-! ## Events without effect -/

/-- The events of a run that are kept when each is judged in the state it
arrives in. -/
def effective (step : σ → η → σ) (keep : σ → η → Bool) : σ → List η → List η
  | _, [] => []
  | s, e :: rest =>
      if keep s e then e :: effective step keep (step s e) rest
      else effective step keep (step s e) rest

/-- What is kept is decided on a view that steps on its own. -/
theorem effective_view {view : σ → τ} {step' : τ → η → τ} {keep' : τ → η → Bool}
    (square : ∀ s e, view (step s e) = step' (view s) e) (s : σ) (events : List η) :
    effective step (fun s e => keep' (view s) e) s events =
      effective step' keep' (view s) events := by
  induction events generalizing s with
  | nil => rfl
  | cons e rest ih => rw [effective, effective, ih, square]

section Effective

variable {keep : σ → η → Bool} (idle : ∀ s e, keep s e = false → step s e = s)

include idle

/-- Striking out events that change nothing does not change where a run
ends. -/
theorem run_effective (s : σ) (events : List η) :
    run step s (effective step keep s events) = run step s events := by
  induction events generalizing s with
  | nil => rfl
  | cons e rest ih =>
      rw [effective]
      cases hkeep : keep s e with
      | true => exact ih (step s e)
      | false =>
          -- the event changed nothing, so the rest starts where it did
          have hrest := ih (step s e)
          rw [idle s e hkeep] at hrest ⊢
          simpa [run, idle s e hkeep] using hrest

/-- What is left puts out what the whole run did, when the events struck out
were silent. -/
theorem labels_effective {emit : σ → η → List κ}
    (silent : ∀ s e, keep s e = false → emit s e = []) (s : σ) (events : List η) :
    (labels step emit s (effective step keep s events)).flatten =
      (labels step emit s events).flatten := by
  induction events generalizing s with
  | nil => rfl
  | cons e rest ih =>
      rw [effective]
      cases hkeep : keep s e with
      | true => simpa [labels] using ih (step s e)
      | false =>
          have hrest := ih (step s e)
          rw [idle s e hkeep] at hrest
          simpa [labels, silent s e hkeep, idle s e hkeep] using hrest

/-- What is left puts out nothing that only the events struck out did. -/
theorem labels_effective_nil {emit : σ → η → List κ}
    (silent : ∀ s e, keep s e = true → emit s e = []) (s : σ) (events : List η) :
    (labels step emit s (effective step keep s events)).flatten = [] := by
  induction events generalizing s with
  | nil => rfl
  | cons e rest ih =>
      rw [effective]
      cases hkeep : keep s e with
      | true => simpa [labels, silent s e hkeep] using ih (step s e)
      | false =>
          have hrest := ih (step s e)
          rw [idle s e hkeep] at hrest ⊢
          simpa using hrest

end Effective

end DuckHub.Lib
