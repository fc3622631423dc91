import Mathlib.Logic.Function.Basic
import Mathlib.Tactic.Common

/-!
# An allocator and its owners

Places hold numbers of an area, 0 for none, and the allocator marks numbers as used. In an
allocation no number is held twice, and within the area exactly the numbers that are held are
used: nothing is lost and nothing is given out twice.
-/

namespace AdvancedOperatingSystems.Foundations

variable {κ : Type*} {area : ℕ → Prop} {own own' : κ → ℕ} {used used' : ℕ → Bool} {b : ℕ}

/-- The places hold numbers of the area, each its own, and these are the used ones. -/
structure Allocation (area : ℕ → Prop) (own : κ → ℕ) (used : ℕ → Bool) : Prop where
  nonzero : ¬ area 0
  inside : ∀ x, own x ≠ 0 → area (own x) ∧ used (own x) = true
  apart : ∀ x y, own x ≠ 0 → own x = own y → x = y
  owned : ∀ b, area b → used b = true → ∃ x, own x = b

namespace Allocation

theorem ne_zero (h : Allocation area own used) (hb : area b) : b ≠ 0 := by
  rintro rfl
  exact h.nonzero hb

theorem ne_of_unused (h : Allocation area own used) (harea : area b) (hb : used b = false)
    (x : κ) : own x ≠ b := by
  rintro rfl
  rw [(h.inside x (h.ne_zero harea)).2] at hb
  cases hb

theorem congr (h : Allocation area own used) (hown : ∀ x, own' x = own x)
    (hused : ∀ b, area b → used' b = used b) : Allocation area own' used' where
  nonzero := h.nonzero
  inside x hx := by
    rw [hown] at hx ⊢
    obtain ⟨hin, hmark⟩ := h.inside x hx
    exact ⟨hin, (hused _ hin).trans hmark⟩
  apart x y hx heq := by
    rw [hown] at hx heq
    rw [hown] at heq
    exact h.apart x y hx heq
  owned b hb hmark := by
    rw [hused b hb] at hmark
    obtain ⟨x, hx⟩ := h.owned b hb hmark
    exact ⟨x, (hown x).trans hx⟩

/-- A place that is empty takes a number that is not used. -/
theorem claim [DecidableEq κ] (h : Allocation area own used) {x : κ} (hx : own x = 0)
    (harea : area b) (hb : used b = false) (hown : ∀ y, own' y = Function.update own x b y)
    (hused : ∀ c, area c → used' c = Function.update used b true c) :
    Allocation area own' used' where
  nonzero := h.nonzero
  inside y hy := by
    rw [hown] at hy ⊢
    by_cases hyx : y = x
    · subst hyx
      rw [Function.update_self, hused b harea, Function.update_self]
      exact ⟨harea, rfl⟩
    · rw [Function.update_of_ne hyx] at hy ⊢
      obtain ⟨hin, hmark⟩ := h.inside y hy
      rw [hused _ hin, Function.update_of_ne (h.ne_of_unused harea hb y)]
      exact ⟨hin, hmark⟩
  apart y z hy heq := by
    rw [hown] at hy heq
    rw [hown] at heq
    by_cases hyx : y = x
    · by_cases hzx : z = x
      · rw [hyx, hzx]
      · rw [hyx, Function.update_self, Function.update_of_ne hzx] at heq
        exact absurd heq.symm (h.ne_of_unused harea hb z)
    · rw [Function.update_of_ne hyx] at hy heq
      by_cases hzx : z = x
      · rw [hzx, Function.update_self] at heq
        exact absurd heq (h.ne_of_unused harea hb y)
      · rw [Function.update_of_ne hzx] at heq
        exact h.apart y z hy heq
  owned c hc hmark := by
    rw [hused c hc] at hmark
    by_cases hcb : c = b
    · exact ⟨x, by rw [hown, Function.update_self, hcb]⟩
    · rw [Function.update_of_ne hcb] at hmark
      obtain ⟨y, hy⟩ := h.owned c hc hmark
      have hyx : y ≠ x := by
        rintro rfl
        exact h.ne_zero hc (hy.symm.trans hx)
      exact ⟨y, by rw [hown, Function.update_of_ne hyx, hy]⟩

/-- Places give up their numbers, and the marks of these are cleared. -/
theorem release (h : Allocation area own used) (gone : κ → Prop)
    (hgone : ∀ x, gone x → own' x = 0) (hkept : ∀ x, ¬ gone x → own' x = own x)
    (hcleared : ∀ x, gone x → own x ≠ 0 → used' (own x) = false)
    (hused : ∀ b, area b → (∀ x, gone x → own x ≠ b) → used' b = used b) :
    Allocation area own' used' where
  nonzero := h.nonzero
  inside x hx := by
    have hx' : ¬ gone x := fun hg => hx (hgone x hg)
    rw [hkept x hx'] at hx ⊢
    obtain ⟨hin, hmark⟩ := h.inside x hx
    refine ⟨hin, (hused _ hin ?_).trans hmark⟩
    rintro y hy heq
    have hne : own y ≠ 0 := by
      rw [heq]
      exact hx
    exact hx' (h.apart y x hne heq ▸ hy)
  apart x y hx heq := by
    have hx' : ¬ gone x := fun hg => hx (hgone x hg)
    have hy' : ¬ gone y := fun hg => hx (heq.trans (hgone y hg))
    rw [hkept x hx'] at hx heq
    rw [hkept y hy'] at heq
    exact h.apart x y hx heq
  owned b hb hmark := by
    have hfree : ∀ x, gone x → own x ≠ b := by
      rintro x hx rfl
      rw [hcleared x hx (h.ne_zero hb)] at hmark
      cases hmark
    rw [hused b hb hfree] at hmark
    obtain ⟨x, hx⟩ := h.owned b hb hmark
    exact ⟨x, (hkept x fun hg => hfree x hg hx).trans hx⟩

end Allocation

end AdvancedOperatingSystems.Foundations
