import Mathlib.Algebra.BigOperators.Ring.Finset
import Mathlib.Algebra.Order.BigOperators.Group.Finset

/-!
# Totals over agents

A table gives each agent `0, 1, …, n - 1` an entry, and each entry has a cost. Changing the
entry of one agent changes the total by the difference of the two costs.
-/

namespace AdvancedOperatingSystems.Foundations

variable {α : Type*} {n : ℕ} {cost : α → ℕ} {table : ℕ → α} {i : ℕ}

def total (n : ℕ) (cost : α → ℕ) (table : ℕ → α) : ℕ := ∑ i ∈ Finset.range n, cost (table i)

theorem total_update (cost : α → ℕ) (table : ℕ → α) (hi : i < n) (v : α) :
    total n cost (Function.update table i v) + cost (table i) = total n cost table + cost v := by
  have hmem : i ∈ Finset.range n := Finset.mem_range.mpr hi
  have hrest : ∑ j ∈ (Finset.range n).erase i, cost (Function.update table i v j) =
      ∑ j ∈ (Finset.range n).erase i, cost (table j) := by
    apply Finset.sum_congr rfl
    intro j hj
    rw [Function.update_of_ne (Finset.ne_of_mem_erase hj)]
  unfold total
  rw [← Finset.add_sum_erase _ _ hmem, ← Finset.add_sum_erase _ _ hmem, Function.update_self, hrest]
  omega

theorem total_const (cost : α → ℕ) (v : α) (hv : cost v = 0) : total n cost (fun _ => v) = 0 := by
  simp [total, hv]

theorem cost_le_total (cost : α → ℕ) (table : ℕ → α) (hi : i < n) :
    cost (table i) ≤ total n cost table :=
  Finset.single_le_sum (f := fun j => cost (table j)) (fun _ _ => Nat.zero_le _)
    (Finset.mem_range.mpr hi)

theorem total_le_mul {cost' : α → ℕ} {k : ℕ} (h : ∀ i < n, cost (table i) ≤ k * cost' (table i)) :
    total n cost table ≤ k * total n cost' table := by
  unfold total
  rw [Finset.mul_sum]
  exact Finset.sum_le_sum fun i hi => h i (Finset.mem_range.mp hi)

end AdvancedOperatingSystems.Foundations
