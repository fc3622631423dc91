import AdvancedOperatingSystems.Foundations.Runs

/-!
# Runs that an abstract machine accepts

The steps of a system emit labels: what can be seen of them from outside. An abstract
machine is a relation between its states for each label. A relation between the states of
the two that every step keeps, while the machine takes the labels of the step, makes the
machine take the labels of every run.
-/

namespace AdvancedOperatingSystems.Foundations

universe u

variable {σ μ : Type u} {ε φ ι : Type*}

/-- The machine gets from one state to another by taking the labels in order. -/
def Takes (next : μ → ι → μ → Prop) : μ → List ι → μ → Prop
  | m, [], m' => m = m'
  | m, l :: ls, m' => ∃ n, next m l n ∧ Takes next n ls m'

section Takes

variable {next : μ → ι → μ → Prop} {m m' : μ}

@[simp] theorem takes_nil : Takes next m [] m' ↔ m = m' := Iff.rfl

theorem takes_cons {l : ι} {ls : List ι} :
    Takes next m (l :: ls) m' ↔ ∃ n, next m l n ∧ Takes next n ls m' := Iff.rfl

@[simp] theorem takes_singleton {l : ι} : Takes next m [l] m' ↔ next m l m' := by
  simp [takes_cons]

theorem takes_append {ls ks : List ι} :
    Takes next m (ls ++ ks) m' ↔ ∃ n, Takes next m ls n ∧ Takes next n ks m' := by
  induction ls generalizing m with
  | nil => simp
  | cons l ls ih =>
    simp only [List.cons_append, takes_cons, ih]
    constructor
    · rintro ⟨n, hn, k, hk, h⟩
      exact ⟨k, ⟨n, hn, hk⟩, h⟩
    · rintro ⟨k, ⟨n, hn, hk⟩, h⟩
      exact ⟨n, hn, k, hk, h⟩

end Takes

variable (step : σ → ε → Except φ σ) (emit : σ → ε → List ι)

/-- The labels of a run, up to the first fault. -/
def history : σ → List ε → List ι
  | _, [] => []
  | s, e :: es =>
      match step s e with
      | .error _ => []
      | .ok t => emit s e ++ history t es

variable {step emit}

theorem history_cons {s t : σ} {e : ε} {es : List ε} (h : step s e = .ok t) :
    history step emit s (e :: es) = emit s e ++ history step emit t es := by
  rw [history, h]

/-- A simulation for the guarded steps is one for the guarded runs, also for those that end
in a fault. -/
theorem takes_history {R : σ → μ → Prop} {next : μ → ι → μ → Prop} (guard : σ → ε → Prop)
    (hstep : ∀ s m e t, R s m → guard s e → step s e = .ok t →
      ∃ n, Takes next m (emit s e) n ∧ R t n)
    {s : σ} {m : μ} {es : List ε} (hR : R s m) (hg : Guarded step guard s es) :
    ∃ n, Takes next m (history step emit s es) n ∧ ∀ t, exec step s es = .ok t → R t n := by
  induction es generalizing s m with
  | nil =>
    refine ⟨m, rfl, fun t ht => ?_⟩
    cases ht
    exact hR
  | cons e es ih =>
    rw [exec_cons]
    cases hu : step s e with
    | error f =>
      refine ⟨m, by simp [history, hu], fun t ht => ?_⟩
      cases ht
    | ok u =>
      obtain ⟨k, hk, hRk⟩ := hstep s m e u hR hg.1 hu
      obtain ⟨n, hn, hRn⟩ := ih hRk (hg.2 u hu)
      rw [history_cons hu]
      exact ⟨n, takes_append.mpr ⟨k, hk, hn⟩, hRn⟩

end AdvancedOperatingSystems.Foundations
