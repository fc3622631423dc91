import Mathlib.Logic.Function.Basic
import Mathlib.Algebra.Order.Group.Nat

/-!
# Blocks of marks

Owners hold blocks of a row of marks, all of one width. A mark does not say whose it is, so a
block is safe only while its owners and its marks agree.
-/

namespace AdvancedOperatingSystems.Foundations

def markBlock (width : ℕ) (mark : ℕ → Bool) (b : ℕ) (value : Bool) : ℕ → Bool := fun i =>
  if b ≤ i ∧ i < b + width then value else mark i

/-- The owners hold whole blocks of the row, each its own, with all marks set. -/
structure Blocks {κ : Type*} (width limit : ℕ) (own : κ → Option ℕ) (mark : ℕ → Bool) : Prop where
  aligned : ∀ x b, own x = some b → b % width = 0
  marked : ∀ x b, own x = some b → ∀ d < width, mark (b + d) = true
  apart : ∀ x y b, own x = some b → own y = some b → x = y
  uniform : ∀ i < limit, mark i = mark (i - i % width)

namespace Blocks

variable {κ : Type*} {width limit : ℕ} {own own' : κ → Option ℕ} {mark : ℕ → Bool} {x y : κ}
  {b b' i : ℕ}

theorem lt_of_aligned (hb : b % width = 0) (hb' : b' % width = 0) (h : b < b') :
    b + width ≤ b' := by
  by_contra hlt
  have hsub : b' - b < width := by omega
  have hmod : (b' - b) % width = 0 := by
    rw [Nat.sub_mod_eq_zero_of_mod_eq]
    rw [hb, hb']
  rw [Nat.mod_eq_of_lt hsub] at hmod
  omega

theorem disjoint (h : Blocks width limit own mark) (hx : own x = some b) (hy : own y = some b')
    (hne : x ≠ y) : b + width ≤ b' ∨ b' + width ≤ b := by
  rcases Nat.lt_trichotomy b b' with hlt | heq | hlt
  · exact Or.inl (lt_of_aligned (h.aligned x b hx) (h.aligned y b' hy) hlt)
  · subst heq
    exact absurd (h.apart x y b hx hy) hne
  · exact Or.inr (lt_of_aligned (h.aligned y b' hy) (h.aligned x b hx) hlt)

theorem mem_block (hb : b % width = 0) (hwidth : 0 < width) :
    b ≤ i ∧ i < b + width ↔ i - i % width = b := by
  have hi := Nat.mod_lt i hwidth
  have hle := Nat.mod_le i width
  have halign : (i - i % width) % width = 0 :=
    Nat.sub_mod_eq_zero_of_mod_eq (Nat.mod_mod i width).symm
  constructor
  · rintro ⟨hlow, hhigh⟩
    rcases Nat.lt_trichotomy (i - i % width) b with hlt | heq | hlt
    · have := lt_of_aligned halign hb hlt
      omega
    · exact heq
    · have := lt_of_aligned hb halign hlt
      omega
  · omega

theorem uniform_markBlock (h : Blocks width limit own mark) (hb : b % width = 0)
    (hwidth : 0 < width) (value : Bool) (hi : i < limit) :
    markBlock width mark b value i = markBlock width mark b value (i - i % width) := by
  have hmod : (i - i % width) % width = 0 :=
    Nat.sub_mod_eq_zero_of_mod_eq (Nat.mod_mod i width).symm
  simp only [markBlock, mem_block hb hwidth]
  rw [hmod, Nat.sub_zero]
  split_ifs
  · rfl
  · exact h.uniform i hi

theorem mono (h : Blocks width limit own mark) (hsub : ∀ x b, own' x = some b → own x = some b) :
    Blocks width limit own' mark where
  aligned x b hx := h.aligned x b (hsub x b hx)
  marked x b hx := h.marked x b (hsub x b hx)
  apart x y b hx hy := h.apart x y b (hsub x b hx) (hsub y b hy)
  uniform := h.uniform

theorem empty (hown : ∀ x, own x = none) (hmark : ∀ i < limit, mark i = false) :
    Blocks width limit own mark where
  aligned x b hx := by
    rw [hown x] at hx
    cases hx
  marked x b hx := by
    rw [hown x] at hx
    cases hx
  apart x y b hx := by
    rw [hown x] at hx
    cases hx
  uniform i hi := by
    rw [hmark i hi, hmark _ (Nat.lt_of_le_of_lt (Nat.sub_le i _) hi)]

/-- An owner takes a block that no other owner holds. -/
theorem claim [DecidableEq κ] (h : Blocks width limit own mark) (hwidth : 0 < width)
    (hb : b % width = 0) (hfree : ∀ y, y ≠ x → own y ≠ some b) :
    Blocks width limit (Function.update own x (some b)) (markBlock width mark b true) where
  aligned := by
    intro y b' hy
    by_cases hyx : y = x
    · rw [hyx, Function.update_self] at hy
      cases hy
      exact hb
    · rw [Function.update_of_ne hyx] at hy
      exact h.aligned y b' hy
  marked := by
    intro y b' hy d hd
    unfold markBlock
    split_ifs with hin
    · rfl
    · by_cases hyx : y = x
      · rw [hyx, Function.update_self] at hy
        cases hy
        exact absurd ⟨Nat.le_add_right b d, Nat.add_lt_add_left hd b⟩ hin
      · rw [Function.update_of_ne hyx] at hy
        exact h.marked y b' hy d hd
  apart := by
    intro y z b' hy hz
    by_cases hyx : y = x
    · by_cases hzx : z = x
      · rw [hyx, hzx]
      · rw [hyx, Function.update_self] at hy
        rw [Function.update_of_ne hzx] at hz
        cases hy
        exact absurd hz (hfree z hzx)
    · rw [Function.update_of_ne hyx] at hy
      by_cases hzx : z = x
      · rw [hzx, Function.update_self] at hz
        cases hz
        exact absurd hy (hfree y hyx)
      · rw [Function.update_of_ne hzx] at hz
        exact h.apart y z b' hy hz
  uniform := fun _ hi => h.uniform_markBlock hb hwidth true hi

/-- The marks of a block are cleared that no owner holds any more. -/
theorem release (h : Blocks width limit own mark) (hwidth : 0 < width) (hb : b % width = 0)
    (hsub : ∀ y b', own' y = some b' → own y = some b' ∧ b' ≠ b) :
    Blocks width limit own' (markBlock width mark b false) where
  aligned y b' hy := h.aligned y b' (hsub y b' hy).1
  marked := by
    intro y b' hy d hd
    obtain ⟨hown, hne⟩ := hsub y b' hy
    have hb' := h.aligned y b' hown
    have hout : ¬ (b ≤ b' + d ∧ b' + d < b + width) := by
      rw [mem_block hb hwidth]
      have hin : b' ≤ b' + d ∧ b' + d < b' + width :=
        ⟨Nat.le_add_right b' d, Nat.add_lt_add_left hd b'⟩
      rw [(mem_block hb' hwidth).mp hin]
      exact hne
    unfold markBlock
    rw [if_neg hout]
    exact h.marked y b' hown d hd
  apart y z b' hy hz := h.apart y z b' (hsub y b' hy).1 (hsub z b' hz).1
  uniform := fun _ hi => h.uniform_markBlock hb hwidth false hi

theorem unowned (h : Blocks width limit own mark) (hwidth : 0 < width) (hfree : mark b = false)
    (x : κ) : own x ≠ some b := by
  intro hx
  have hmark := h.marked x b hx 0 hwidth
  rw [Nat.add_zero, hfree] at hmark
  cases hmark

theorem first_aligned (h : Blocks width limit own mark) (hi : i < limit) (hfree : mark i = false)
    (hfirst : ∀ j < i, mark j = true) : i % width = 0 := by
  by_contra hmod
  have hle := Nat.mod_le i width
  have hset := hfirst (i - i % width) (by omega)
  rw [← h.uniform i hi, hfree] at hset
  cases hset

end Blocks

end AdvancedOperatingSystems.Foundations
