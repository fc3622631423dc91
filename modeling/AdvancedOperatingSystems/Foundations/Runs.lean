import Mathlib.Data.List.Basic
import Mathlib.Tactic.Common

/-!
# Runs of a system whose steps may fail

A step takes a state and an event and either yields the next state or stops
with a fault. `exec` performs a list of events; a run that faults ends there.
A loop is such a run as well: its body is the step and the values of the loop
variable are the events.
`Guarded` says that every step of a run meets a condition on the state it is
taken in, and `exec_isOk_iff_guarded` turns an exact condition for one step
into an exact condition for whole runs.
-/

namespace AdvancedOperatingSystems.Foundations

universe u

variable {σ τ : Type u} {ε φ : Type*}

def Returns (r : Except φ σ) : Prop := ∃ s, r = .ok s

@[simp] theorem returns_ok (s : σ) : Returns (.ok s : Except φ σ) := ⟨s, rfl⟩

@[simp] theorem not_returns_error (e : φ) : ¬ Returns (.error e : Except φ σ) := by
  rintro ⟨s, hs⟩
  cases hs

theorem returns_bind (r : Except φ σ) (f : σ → Except φ τ) :
    Returns (r >>= f) ↔ ∃ s, r = .ok s ∧ Returns (f s) := by
  cases r with
  | error e => simp [bind, Except.bind]
  | ok s => simp [bind, Except.bind]

theorem ok_bind (s : σ) (f : σ → Except φ τ) : (Except.ok s >>= f) = f s := rfl

theorem bind_ok_iff {r : Except φ σ} {f : σ → Except φ τ} {t : τ} :
    (r >>= f) = .ok t ↔ ∃ s, r = .ok s ∧ f s = .ok t := by
  cases r with
  | error e => simp [bind, Except.bind]
  | ok s => simp [bind, Except.bind]

section Runs

variable (step : σ → ε → Except φ σ)

def exec : σ → List ε → Except φ σ
  | s, [] => .ok s
  | s, e :: es => step s e >>= fun t => exec t es

@[simp] theorem exec_nil (s : σ) : exec step s [] = .ok s := rfl

theorem exec_cons (s : σ) (e : ε) (es : List ε) :
    exec step s (e :: es) = step s e >>= fun t => exec step t es := rfl

theorem exec_append (s : σ) (es fs : List ε) :
    exec step s (es ++ fs) = exec step s es >>= fun t => exec step t fs := by
  induction es generalizing s with
  | nil => simp [bind, Except.bind]
  | cons e es ih =>
    simp only [List.cons_append, exec_cons, ih]
    cases step s e <;> rfl

theorem exec_snoc {s u : σ} {es : List ε} {e : ε} :
    exec step s (es ++ [e]) = .ok u ↔ ∃ t, exec step s es = .ok t ∧ step t e = .ok u := by
  rw [exec_append, bind_ok_iff]
  simp only [exec_cons, exec_nil, bind_ok_iff, Except.ok.injEq, exists_eq_right]

theorem exec_ne_ok {e : ε} {es : List ε} (he : e ∈ es) (hfault : ∀ s t, step s e ≠ .ok t) (s t : σ) :
    exec step s es ≠ .ok t := by
  induction es generalizing s with
  | nil => cases he
  | cons e' es ih =>
    rw [exec_cons]
    intro hrun
    obtain ⟨s', hstep, hrun⟩ := bind_ok_iff.mp hrun
    rcases List.mem_cons.mp he with rfl | he
    · exact hfault s s' hstep
    · exact ih he s' hrun

/-- Every step the run takes meets the guard in the state it is taken in. -/
def Guarded (guard : σ → ε → Prop) : σ → List ε → Prop
  | _, [] => True
  | s, e :: es => guard s e ∧ ∀ t, step s e = .ok t → Guarded guard t es

variable {step} {guard : σ → ε → Prop}

theorem Guarded.append {s : σ} {es fs : List ε} :
    Guarded step guard s (es ++ fs) ↔
      Guarded step guard s es ∧ ∀ t, exec step s es = .ok t → Guarded step guard t fs := by
  induction es generalizing s with
  | nil => simp [Guarded]
  | cons e es ih =>
    simp only [List.cons_append, Guarded, exec_cons, bind_ok_iff, ih]
    constructor
    · rintro ⟨hg, h⟩
      exact ⟨⟨hg, fun t ht => (h t ht).1⟩, fun u ⟨t, ht, hu⟩ => (h t ht).2 u hu⟩
    · rintro ⟨⟨hg, h⟩, h'⟩
      exact ⟨hg, fun t ht => ⟨h t ht, fun u hu => h' u ⟨t, ht, hu⟩⟩⟩

theorem Guarded.last {s t : σ} {es : List ε} {e : ε}
    (h : Guarded step guard s (es ++ [e])) (ht : exec step s es = .ok t) : guard t e :=
  ((Guarded.append.mp h).2 t ht).1

theorem guarded_of_forall {condition : ε → Prop} {s : σ} {es : List ε}
    (h : ∀ e ∈ es, condition e) : Guarded step (fun _ e => condition e) s es := by
  induction es generalizing s with
  | nil => trivial
  | cons e es ih =>
    rw [List.forall_mem_cons] at h
    exact ⟨h.1, fun t _ => ih h.2⟩

theorem Guarded.of_append {s : σ} {es fs : List ε} (h : Guarded step guard s (es ++ fs)) :
    Guarded step guard s es := (Guarded.append.mp h).1

theorem Guarded.and {guard' : σ → ε → Prop} {s : σ} {es : List ε}
    (h : Guarded step guard s es) (h' : Guarded step guard' s es) :
    Guarded step (fun s e => guard s e ∧ guard' s e) s es := by
  induction es generalizing s with
  | nil => trivial
  | cons e es ih => exact ⟨⟨h.1, h'.1⟩, fun t ht => ih (h.2 t ht) (h'.2 t ht)⟩

/-- A decidable guard is decided along the run. -/
instance decidableGuarded [∀ s e, Decidable (guard s e)] :
    ∀ (s : σ) (es : List ε), Decidable (Guarded step guard s es)
  | _, [] => isTrue trivial
  | s, e :: es =>
      match h : step s e with
      | .error _ => decidable_of_iff (guard s e) (by simp [Guarded, h])
      | .ok t =>
          have := decidableGuarded t es
          decidable_of_iff (guard s e ∧ Guarded step guard t es) (by simp [Guarded, h])

/-- What every guarded step preserves holds at the end of every guarded run. -/
theorem Guarded.invariant {I : σ → Prop}
    (preserve : ∀ s e t, I s → guard s e → step s e = .ok t → I t)
    {s t : σ} {es : List ε} (hs : I s) (hg : Guarded step guard s es)
    (ht : exec step s es = .ok t) : I t := by
  induction es generalizing s with
  | nil => cases ht; exact hs
  | cons e es ih =>
    obtain ⟨u, hu, ht⟩ := bind_ok_iff.mp ht
    exact ih (preserve s e u hs hg.1 hu) (hg.2 u hu) ht

/-- In the states of an invariant that a guard preserves, a run that meets the guard meets
what follows from it there. -/
theorem Guarded.imp {I : σ → Prop} {guard' : σ → ε → Prop}
    (preserve : ∀ s e t, I s → guard s e → step s e = .ok t → I t)
    (give : ∀ s e, I s → guard s e → guard' s e)
    {s : σ} {es : List ε} (hs : I s) (hg : Guarded step guard s es) :
    Guarded step guard' s es := by
  induction es generalizing s with
  | nil => trivial
  | cons e es ih =>
    exact ⟨give s e hs hg.1, fun t ht => ih (preserve s e t hs hg.1 ht) (hg.2 t ht)⟩

theorem Guarded.mono {guard' : σ → ε → Prop} {s : σ} {es : List ε}
    (hg : Guarded step guard s es) (give : ∀ s e, guard s e → guard' s e) :
    Guarded step guard' s es :=
  hg.imp (I := fun _ => True) (fun _ _ _ _ _ _ => trivial) (fun s e _ => give s e) trivial

/-- Two guards that agree in the states of an invariant agree along runs, if the
second preserves the invariant. -/
theorem guarded_congr {I : σ → Prop} {D guard' : σ → ε → Prop}
    (agree : ∀ s e, I s → D s e → (guard s e ↔ guard' s e))
    (preserve : ∀ s e t, I s → D s e → guard' s e → step s e = .ok t → I t)
    {s : σ} {es : List ε} (hs : I s) (hd : Guarded step D s es) :
    Guarded step guard s es ↔ Guarded step guard' s es := by
  induction es generalizing s with
  | nil => exact Iff.rfl
  | cons e es ih =>
    unfold Guarded
    rw [agree s e hs hd.1]
    apply and_congr_right
    intro hg
    apply forall_congr'
    intro t
    apply imp_congr_right
    intro ht
    exact ih (preserve s e t hs hd.1 hg ht) (hd.2 t ht)

/-- Where the guard is the exact condition for one step to lead from the property to the
property, the property holds in every state that a run reaches if and only if all of its
steps meet the guard. -/
theorem always_iff_guarded {I P : σ → Prop} {D : σ → ε → Prop}
    (preserve : ∀ s e t, I s → D s e → step s e = .ok t → I t)
    (exact_guard : ∀ s e t, I s → D s e → P s → step s e = .ok t → (P t ↔ guard s e))
    {s t : σ} {es : List ε} (hs : I s) (hP : P s) (hd : Guarded step D s es)
    (ht : exec step s es = .ok t) :
    (∀ pre, pre <+: es → ∀ u, exec step s pre = .ok u → P u) ↔ Guarded step guard s es := by
  induction es generalizing s with
  | nil =>
    refine iff_of_true (fun pre hpre u hu => ?_) trivial
    obtain rfl := List.prefix_nil.mp hpre
    cases hu
    exact hP
  | cons e es ih =>
    obtain ⟨u, hu, ht⟩ := bind_ok_iff.mp ht
    have hiff := exact_guard s e u hs hd.1 hP hu
    have hone : exec step s [e] = .ok u := by
      rw [exec_cons, hu]
      rfl
    constructor
    · intro h
      have hPu : P u := h [e] (by simp) u hone
      refine ⟨hiff.mp hPu, fun v hv => ?_⟩
      obtain rfl := Except.ok.inj (hu.symm.trans hv)
      refine (ih (preserve s e u hs hd.1 hu) hPu (hd.2 u hu) ht).mp fun pre hpre w hw => ?_
      exact h (e :: pre) (List.cons_prefix_cons.mpr ⟨rfl, hpre⟩) w
        (bind_ok_iff.mpr ⟨u, hu, hw⟩)
    · rintro ⟨hg, hrest⟩ pre hpre w hw
      rcases List.prefix_cons_iff.mp hpre with rfl | ⟨pre', rfl, hpre'⟩
      · cases hw
        exact hP
      · obtain ⟨v, hv, hw⟩ := bind_ok_iff.mp hw
        obtain rfl := Except.ok.inj (hu.symm.trans hv)
        exact (ih (preserve s e u hs hd.1 hu) (hiff.mpr hg) (hd.2 u hu) ht).mpr (hrest u hu) pre'
          hpre' w hw

theorem exec_invariant {I : σ → Prop}
    (preserve : ∀ s e t, I s → step s e = .ok t → I t)
    {s t : σ} {es : List ε} (hs : I s) (ht : exec step s es = .ok t) : I t := by
  induction es generalizing s with
  | nil => cases ht; exact hs
  | cons e es ih =>
    obtain ⟨u, hu, ht⟩ := bind_ok_iff.mp ht
    exact ih (preserve s e u hs hu) ht

/-- Where the guard is the exact condition for one step to return, a run
returns if and only if all of its steps meet the guard. -/
theorem exec_returns_iff_guarded {I : σ → Prop}
    (preserve : ∀ s e t, I s → step s e = .ok t → I t)
    (exact_guard : ∀ s e, I s → (Returns (step s e) ↔ guard s e))
    {s : σ} (hs : I s) (es : List ε) :
    Returns (exec step s es) ↔ Guarded step guard s es := by
  induction es generalizing s with
  | nil => simp [Guarded]
  | cons e es ih =>
    rw [exec_cons, returns_bind, Guarded, ← exact_guard s e hs]
    constructor
    · rintro ⟨t, ht, hr⟩
      refine ⟨⟨t, ht⟩, fun u hu => ?_⟩
      have htu : t = u := Except.ok.inj (ht.symm.trans hu)
      subst htu
      exact (ih (preserve s e t hs ht)).mp hr
    · rintro ⟨⟨t, ht⟩, h⟩
      exact ⟨t, ht, (ih (preserve s e t hs ht)).mpr (h t ht)⟩

end Runs

end AdvancedOperatingSystems.Foundations
