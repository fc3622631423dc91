import Mathlib.Data.List.Basic
import Mathlib.Tactic.Common

/-!
# Computations that leave a trace

A traced computation lists the accesses it makes and either ends with a value
or does not end. The accesses made before it stops making progress are kept, so
that a property of all accesses is meaningful for a computation that never ends.
-/

namespace AdvancedOperatingSystems.Foundations

/-- A computation with its accesses in order; no value means that it does not end. -/
structure Traced (ρ α : Type) where
  trace : List ρ
  value : Option α

namespace Traced

variable {ρ α β : Type}

instance : Monad (Traced ρ) where
  pure a := ⟨[], some a⟩
  bind x f :=
    match x.value with
    | none => ⟨x.trace, none⟩
    | some a => ⟨x.trace ++ (f a).trace, (f a).value⟩

def diverge : Traced ρ α := ⟨[], none⟩

@[simp] theorem pure_value (a : α) : (pure a : Traced ρ α).value = some a := rfl

@[simp] theorem pure_trace (a : α) : (pure a : Traced ρ α).trace = [] := rfl

@[simp] theorem diverge_value : (diverge : Traced ρ α).value = none := rfl

@[simp] theorem diverge_trace : (diverge : Traced ρ α).trace = [] := rfl

variable {x : Traced ρ α} {f : α → Traced ρ β}

theorem bind_value : (x >>= f).value = x.value.bind fun a => (f a).value := by
  rcases x with ⟨t, _ | a⟩ <;> rfl

theorem bind_value_eq_some {b : β} :
    (x >>= f).value = some b ↔ ∃ a, x.value = some a ∧ (f a).value = some b := by
  rw [bind_value, Option.bind_eq_some_iff]

theorem bind_value_of_some {a : α} (h : x.value = some a) : (x >>= f).value = (f a).value := by
  rw [bind_value, h, Option.bind_some]

theorem mem_bind_trace {r : ρ} :
    r ∈ (x >>= f).trace ↔ r ∈ x.trace ∨ ∃ a, x.value = some a ∧ r ∈ (f a).trace := by
  rcases x with ⟨t, _ | a⟩
  · simp [bind]
  · simp [bind, List.mem_append]

theorem mem_bind_pure_trace {g : α → β} {r : ρ} :
    r ∈ (x >>= fun a => pure (g a)).trace ↔ r ∈ x.trace := by
  rw [mem_bind_trace]
  constructor
  · rintro (h | ⟨a, -, h⟩)
    · exact h
    · exact absurd h List.not_mem_nil
  · exact Or.inl

end Traced

end AdvancedOperatingSystems.Foundations
