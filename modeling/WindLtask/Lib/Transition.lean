/-!
# Runs of a labelled transition system

A run records the state before each of its steps together with the label of the
step.  The rules below are the ones every component of the development uses: an
invariant that each admitted step keeps holds along a run of admitted steps, and
when a step that is not admitted breaks the safety property at once, a run is
safe exactly when all its steps are admitted.
-/

namespace WindLtask.Lib

variable {σ ε : Type}

/-- Runs from `start`: the steps taken, each with the state before it. -/
inductive Run (step : σ → ε → σ → Prop) (start : σ) : List (σ × ε) → σ → Prop where
  | nil : Run step start [] start
  | snoc {steps : List (σ × ε)} {s t : σ} {label : ε}
      (before : Run step start steps s) (last : step s label t) :
      Run step start (steps ++ [(s, label)]) t

/-- The states a run passes through, its last state included. -/
def visited (steps : List (σ × ε)) (final : σ) : List σ :=
  steps.map Prod.fst ++ [final]

theorem visited_snoc (steps : List (σ × ε)) (s t : σ) (label : ε) :
    visited (steps ++ [(s, label)]) t = visited steps s ++ [t] := by
  simp [visited]

namespace Run

variable {step : σ → ε → σ → Prop} {start : σ}

/-- An invariant kept by every admitted step holds at the end of a run. -/
theorem invariant (admitted : σ → ε → Prop) (Inv : σ → Prop) (first : Inv start)
    (keep : ∀ s label t, Inv s → admitted s label → step s label t → Inv t)
    {steps : List (σ × ε)} {t : σ} (run : Run step start steps t)
    (ok : ∀ taken ∈ steps, admitted taken.1 taken.2) : Inv t := by
  induction run with
  | nil => exact first
  | @snoc steps s t label before last ih =>
      have inv := ih fun taken member => ok taken (List.mem_append_left _ member)
      exact keep s label t inv (ok (s, label) (by simp)) last

/-- The same invariant holds at every state the run passes through. -/
theorem invariant_visited (admitted : σ → ε → Prop) (Inv : σ → Prop) (first : Inv start)
    (keep : ∀ s label t, Inv s → admitted s label → step s label t → Inv t)
    {steps : List (σ × ε)} {t : σ} (run : Run step start steps t)
    (ok : ∀ taken ∈ steps, admitted taken.1 taken.2) :
    ∀ s ∈ visited steps t, Inv s := by
  induction run with
  | nil =>
      intro s member
      have same : s = start := by simpa [visited] using member
      exact same ▸ first
  | @snoc steps s t label before last ih =>
      have okBefore : ∀ taken ∈ steps, admitted taken.1 taken.2 :=
        fun taken member => ok taken (List.mem_append_left _ member)
      intro u member
      rw [visited_snoc] at member
      rcases List.mem_append.mp member with earlier | final
      · exact ih okBefore u earlier
      · have same : u = t := by simpa using final
        subst same
        exact invariant admitted Inv first keep (before.snoc last) ok

/--
What was there and what the steps put in is what they got out and what is still there,
in this order, when each step between admitted states keeps the balance.
-/
theorem balance {A : Type} (admitted : σ → Prop) (content : σ → List A) (put got : σ → ε → List A)
    (each : ∀ s label t, admitted s → admitted t → step s label t →
      content s ++ put s label = got s label ++ content t)
    {steps : List (σ × ε)} {t : σ} (run : Run step start steps t)
    (ok : ∀ s ∈ visited steps t, admitted s) :
    content start ++ steps.flatMap (fun taken => put taken.1 taken.2) =
      steps.flatMap (fun taken => got taken.1 taken.2) ++ content t := by
  induction run with
  | nil => simp
  | @snoc steps s t label before last ih =>
      rw [visited_snoc] at ok
      have early := ih fun u member => ok u (List.mem_append_left _ member)
      have here : admitted s := ok s (by simp [visited])
      have now := each s label t here (ok t (by simp)) last
      simp only [List.flatMap_append, List.flatMap_singleton, ← List.append_assoc, early]
      rw [List.append_assoc, now, ← List.append_assoc]

/-- A step of a run has been taken. -/
theorem taken {steps : List (σ × ε)} {s t : σ} {label : ε} (run : Run step start steps t)
    (member : (s, label) ∈ steps) : ∃ u, step s label u := by
  induction run with
  | nil => cases member
  | @snoc steps s' t' label' before last ih =>
      rcases List.mem_append.mp member with earlier | final
      · exact ih earlier
      · obtain ⟨rfl, rfl⟩ := Prod.mk.inj (List.mem_singleton.mp final)
        exact ⟨_, last⟩

/-- A preorder that every step goes up relates every visited state to the last one. -/
theorem ascending (R : σ → σ → Prop) (refl : ∀ s, R s s)
    (trans : ∀ {s t u}, R s t → R t u → R s u) (up : ∀ s label t, step s label t → R s t)
    {steps : List (σ × ε)} {t : σ} (run : Run step start steps t) :
    ∀ s ∈ visited steps t, R s t := by
  induction run with
  | nil =>
      intro s member
      have same : s = start := by simpa [visited] using member
      exact same ▸ refl s
  | @snoc steps s t label before last ih =>
      intro u member
      rw [visited_snoc] at member
      rcases List.mem_append.mp member with earlier | final
      · exact trans (ih u earlier) (up s label t last)
      · have same : u = t := by simpa using final
        exact same ▸ refl u

/--
When a step that is not admitted leads to an unsafe state, a run passes through
safe states only if and only if all its steps are admitted.
-/
theorem safe_iff (admitted : σ → ε → Prop) (Inv Safe : σ → Prop) (first : Inv start)
    (keep : ∀ s label t, Inv s → admitted s label → step s label t → Inv t)
    (safe : ∀ s, Inv s → Safe s)
    (breaks : ∀ s label t, Inv s → ¬ admitted s label → step s label t → ¬ Safe t)
    {steps : List (σ × ε)} {t : σ} (run : Run step start steps t) :
    (∀ s ∈ visited steps t, Safe s) ↔ ∀ taken ∈ steps, admitted taken.1 taken.2 := by
  constructor
  · intro allSafe
    induction run with
    | nil => simp
    | @snoc steps s t label before last ih =>
        have safeBefore : ∀ u ∈ visited steps s, Safe u := fun u member =>
          allSafe u (by rw [visited_snoc]; exact List.mem_append_left _ member)
        have okBefore := ih safeBefore
        have inv := invariant admitted Inv first keep before okBefore
        have okLast : admitted s label := by
          apply Classical.byContradiction
          intro bad
          exact breaks s label t inv bad last (allSafe t (by simp [visited_snoc]))
        intro taken member
        rcases List.mem_append.mp member with earlier | final
        · exact okBefore taken earlier
        · have same : taken = (s, label) := by simpa using final
          exact same ▸ okLast
  · intro ok s member
    exact safe s (invariant_visited admitted Inv first keep run ok s member)

end Run

/-! ## Deterministic systems -/

section Deterministic

/-- The steps that a list of labels takes. -/
def trace (next : σ → ε → σ) : σ → List ε → List (σ × ε)
  | _, [] => []
  | s, label :: rest => (s, label) :: trace next (next s label) rest

/-- Every label of the list is allowed where its turn comes. -/
def Legal (allowed : σ → ε → Prop) (next : σ → ε → σ) : σ → List ε → Prop
  | _, [] => True
  | s, label :: rest => allowed s label ∧ Legal allowed next (next s label) rest

variable {allowed : σ → ε → Prop} {next : σ → ε → σ}

instance decidableLegal [∀ s label, Decidable (allowed s label)] :
    (s : σ) → (labels : List ε) → Decidable (Legal allowed next s labels)
  | _, [] => .isTrue trivial
  | s, label :: rest =>
      have := decidableLegal (next s label) rest
      inferInstanceAs (Decidable (allowed s label ∧ Legal allowed next (next s label) rest))

theorem legal_iff (s : σ) (labels : List ε) :
    Legal allowed next s labels ↔ ∀ taken ∈ trace next s labels, allowed taken.1 taken.2 := by
  induction labels generalizing s with
  | nil => simp [Legal, trace]
  | cons label rest ih => simp [Legal, trace, ih]

/-- A legal list of labels extends a run to the state that its steps compute. -/
theorem Run.extend {start : σ} {labels : List ε} {steps : List (σ × ε)} {s : σ}
    (run : Run (fun s label t => allowed s label ∧ t = next s label) start steps s)
    (legal : Legal allowed next s labels) :
    Run (fun s label t => allowed s label ∧ t = next s label) start
      (steps ++ trace next s labels) (labels.foldl next s) := by
  induction labels generalizing steps s with
  | nil => simpa [trace] using run
  | cons label rest ih =>
      have longer := ih (run.snoc ⟨legal.1, rfl⟩) legal.2
      simpa [trace] using longer

/-- A legal list of labels is a run from the start. -/
theorem Run.of_legal {start : σ} {labels : List ε} (legal : Legal allowed next start labels) :
    Run (fun s label t => allowed s label ∧ t = next s label) start
      (trace next start labels) (labels.foldl next start) :=
  Run.nil.extend legal

/-- Labels that a partial step function follows extend a run. -/
theorem Run.follow {step : σ → ε → Option σ} {start s final : σ} {labels : List ε}
    {steps : List (σ × ε)} (run : Run (fun s label t => step s label = some t) start steps s)
    (is : labels.foldlM step s = some final) :
    ∃ more, Run (fun s label t => step s label = some t) start (steps ++ more) final ∧
      more.map Prod.snd = labels := by
  induction labels generalizing steps s with
  | nil =>
      have same : s = final := by simpa using is
      exact ⟨[], by simpa [same] using run, rfl⟩
  | cons label labels ih =>
      rw [List.foldlM_cons] at is
      obtain ⟨t, first, rest⟩ := Option.bind_eq_some_iff.mp is
      obtain ⟨more, longer, same⟩ := ih (run.snoc first) rest
      exact ⟨(s, label) :: more, by simpa using longer, by simp [same]⟩

end Deterministic

end WindLtask.Lib
