import AdvancedOperatingSystems.Riscv.Pmp
import AdvancedOperatingSystems.SecureBoot.Start
import Mathlib.Tactic.IntervalCases

/-!
# The PMP partition

The part of `start` that sets up the PMP, for each choice of the kernels it is compiled for, and
which memory the kernel `kernelpmp2` may read afterwards.
-/

namespace AdvancedOperatingSystems.SecureBoot

open Riscv

/-- One megabyte. -/
abbrev MB : ℕ := BSIZE * BSIZE

abbrev dramStart : ℕ := 0x80000000

abbrev dramEnd : ℕ := dramStart + 128 * MB

/-- The upper bound for `kernelpmp1`. -/
def topAddr : ℕ := (dramStart + 117 * MB) >>> 2

/-- The upper bound of the first region of `kernelpmp2`. -/
def torAddr : ℕ := (dramStart + (118 * MB - 1)) >>> 2

def pmpcfgVal : BitVec 64 :=
  (1 <<< 0 ||| 1 <<< 1 ||| 1 <<< 2 ||| 1 <<< 3) ||| 0x83 <<< 8 ||| 0x1f <<< 16 ||| 0x83 <<< 24 |||
    0x1f <<< 32

/-- The part of `start` that writes the PMP registers. -/
def pmpSetup (kernelpmp1 kernelpmp2 : Bool) (p : Pmp) : Pmp :=
  let p := if !kernelpmp1 || !kernelpmp2 then (p.writeAddr 0 0x3fffffffffffff).writeCfg0 0xf else p
  let p := if kernelpmp1 then
      (p.writeAddr 0 topAddr).writeCfg0 (1 <<< 0 ||| 1 <<< 1 ||| 1 <<< 2 ||| 1 <<< 3)
    else p
  if kernelpmp2 then
    let p := p.writeAddr 0 torAddr
    let p := p.writeAddr 1 0x21DBFFFF
    let p := p.writeAddr 2 0x21E3FFFF
    let p := p.writeAddr 3 0x21EFFFFF
    let p := p.writeAddr 4 0x21FBFFFF
    p.writeCfg0 pmpcfgVal
  else p

/-- The regions that `kernelpmp2` is not to have: 118 to 120 MB and 122 to 126 MB. -/
def Isolated (a : ℕ) : Prop :=
  dramStart + 118 * MB ≤ a ∧ a < dramStart + 120 * MB ∨
    dramStart + 122 * MB ≤ a ∧ a < dramStart + 126 * MB

section Setup

variable {kernelpmp1 : Bool} {addr : ℕ → ℕ} {p : Pmp} {i a : ℕ}

theorem pmpSetup_eq (kernelpmp1 : Bool) (addr : ℕ → ℕ) :
    ∃ p : Pmp, p.Unlocked ∧ (∀ i, 8 ≤ i → p.cfg i = 0) ∧
      pmpSetup kernelpmp1 true (Pmp.reset addr) =
        (((((p.writeAddr 0 torAddr).writeAddr 1 0x21DBFFFF).writeAddr 2 0x21E3FFFF).writeAddr 3
          0x21EFFFFF).writeAddr 4 0x21FBFFFF).writeCfg0 pmpcfgVal := by
  have hreset := Pmp.unlocked_reset addr
  have hbyte : ∀ i < 8, ((0xf : BitVec 64).extractLsb' (8 * i) 8).getLsbD 7 = false := by decide
  have hstep : ∀ x, (((Pmp.reset addr).writeAddr 0 x).writeCfg0 0xf).Unlocked ∧
      ∀ i, 8 ≤ i → (((Pmp.reset addr).writeAddr 0 x).writeCfg0 0xf).cfg i = 0 := by
    intro x
    have h := hreset.writeAddr 0 x
    refine ⟨h.writeCfg0 hbyte, fun i hi => ?_⟩
    rw [h.writeCfg0_cfg, if_neg (by omega), Pmp.writeAddr_cfg]
    rfl
  cases kernelpmp1 with
  | false => exact ⟨_, (hstep 0x3fffffffffffff).1, (hstep 0x3fffffffffffff).2, rfl⟩
  | true => exact ⟨_, (hstep topAddr).1, (hstep topAddr).2, rfl⟩

theorem pmpSetup_cfg (i : ℕ) : (pmpSetup kernelpmp1 true (Pmp.reset addr)).cfg i =
    if i < 8 then pmpcfgVal.extractLsb' (8 * i) 8 else 0 := by
  obtain ⟨p, hp, hzero, heq⟩ := pmpSetup_eq kernelpmp1 addr
  rw [heq, Pmp.Unlocked.writeCfg0_cfg]
  · simp only [Pmp.writeAddr_cfg]
    split_ifs with hi
    · rfl
    · exact hzero i (by omega)
  · exact ((((hp.writeAddr 0 _).writeAddr 1 _).writeAddr 2 _).writeAddr 3 _).writeAddr 4 _

theorem pmpSetup_addr : ∀ i < 5, (pmpSetup kernelpmp1 true (Pmp.reset addr)).addr i =
    [torAddr, 0x21DBFFFF, 0x21E3FFFF, 0x21EFFFFF, 0x21FBFFFF].getD i 0 := by
  obtain ⟨p, hp, -, heq⟩ := pmpSetup_eq kernelpmp1 addr
  have h₁ := hp.writeAddr 0 torAddr
  have h₂ := h₁.writeAddr 1 0x21DBFFFF
  have h₃ := h₂.writeAddr 2 0x21E3FFFF
  have h₄ := h₃.writeAddr 3 0x21EFFFFF
  rw [heq, Pmp.writeCfg0_addr, h₄.writeAddr_addr, h₃.writeAddr_addr, h₂.writeAddr_addr,
    h₁.writeAddr_addr, hp.writeAddr_addr]
  have htor : torAddr % 2 ^ 54 = torAddr := by decide
  rw [htor]
  intro i hi
  interval_cases i <;> simp

theorem pmpSetup_mode : (pmpSetup kernelpmp1 true (Pmp.reset addr)).mode i =
    if i = 0 then 1 else if i = 2 ∨ i = 4 then 3 else 0 := by
  unfold Pmp.mode
  rw [pmpSetup_cfg]
  by_cases hi : i < 8
  · rw [if_pos hi]
    interval_cases i <;> decide
  · rw [if_neg hi, if_neg (by omega), if_neg (by omega)]
    rfl

theorem pmpSetup_readable (h : (pmpSetup kernelpmp1 true (Pmp.reset addr)).mode i ≠ 0) :
    (pmpSetup kernelpmp1 true (Pmp.reset addr)).r i = true := by
  rw [pmpSetup_mode] at h
  unfold Pmp.r
  rw [pmpSetup_cfg]
  split_ifs at h with h₀ h₁
  · rw [h₀]
    decide
  · rcases h₁ with rfl | rfl <;> decide
  · exact absurd rfl h

/-- What `kernelpmp2` may load: the first region up to four bytes before its end, and two regions
of 2 MB. -/
theorem pmpSetup_permitted : (pmpSetup kernelpmp1 true (Pmp.reset addr)).loadPermitted a = true ↔
    a < dramStart + 118 * MB - 4 ∨ dramStart + 120 * MB ≤ a ∧ a < dramStart + 122 * MB ∨
      dramStart + 126 * MB ≤ a ∧ a < dramStart + 128 * MB := by
  rw [Pmp.loadPermitted_of_readable fun i => pmpSetup_readable]
  have hfirst : (pmpSetup kernelpmp1 true (Pmp.reset addr)).Matches 0 a ↔
      a < dramStart + 118 * MB - 4 := by
    rw [Pmp.matches_tor pmpSetup_mode, Pmp.bottom, Pmp.top, pmpSetup_addr 0 (by omega)]
    exact and_iff_right (Nat.zero_le a)
  have hthird : (pmpSetup kernelpmp1 true (Pmp.reset addr)).Matches 2 a ↔
      dramStart + 120 * MB ≤ a ∧ a < dramStart + 122 * MB := by
    rw [@Pmp.matches_napot _ 2 a 18 pmpSetup_mode (by rw [pmpSetup_addr 2 (by omega)]; decide),
      pmpSetup_addr 2 (by omega)]
    exact Iff.rfl
  have hfifth : (pmpSetup kernelpmp1 true (Pmp.reset addr)).Matches 4 a ↔
      dramStart + 126 * MB ≤ a ∧ a < dramStart + 128 * MB := by
    rw [@Pmp.matches_napot _ 4 a 18 pmpSetup_mode (by rw [pmpSetup_addr 4 (by omega)]; decide),
      pmpSetup_addr 4 (by omega)]
    exact Iff.rfl
  rw [← hfirst, ← hthird, ← hfifth]
  constructor
  · rintro ⟨i, -, hmatch⟩
    by_cases h₀ : i = 0
    · exact Or.inl (h₀ ▸ hmatch)
    · by_cases h₂ : i = 2
      · exact Or.inr (Or.inl (h₂ ▸ hmatch))
      · by_cases h₄ : i = 4
        · exact Or.inr (Or.inr (h₄ ▸ hmatch))
        · refine absurd hmatch (Pmp.matches_off ?_)
          rw [pmpSetup_mode, if_neg h₀, if_neg (by omega)]
  · rintro (h | h | h)
    · exact ⟨0, by decide, h⟩
    · exact ⟨2, by decide, h⟩
    · exact ⟨4, by decide, h⟩

/-- In the memory, `kernelpmp2` may load just what lies outside of the isolated regions, but for
the last four bytes before 118 MB. -/
theorem kernelpmp2_isolated_iff (h : dramStart ≤ a ∧ a < dramEnd) :
    ((pmpSetup kernelpmp1 true (Pmp.reset addr)).loadPermitted a = true ↔ ¬ Isolated a) ↔
      ¬ (dramStart + 118 * MB - 4 ≤ a ∧ a < dramStart + 118 * MB) := by
  rw [pmpSetup_permitted]
  unfold Isolated
  simp only [dramEnd, dramStart, MB, BSIZE] at *
  omega

end Setup

/-- The first byte of the memory. -/
theorem first_byte_isolated_iff :
    ((pmpSetup false true (Pmp.reset fun _ => 0)).loadPermitted dramStart = true ↔
        ¬ Isolated dramStart) ↔
      ¬ (dramStart + 118 * MB - 4 ≤ dramStart ∧ dramStart < dramStart + 118 * MB) :=
  kernelpmp2_isolated_iff (by decide)

/-- The last byte before 118 MB is outside of the isolated regions, and may not be loaded. -/
theorem last_byte_refused :
    ¬ ∀ a, dramStart ≤ a ∧ a < dramEnd →
      ((pmpSetup false true (Pmp.reset fun _ => 0)).loadPermitted a = true ↔ ¬ Isolated a) := by
  intro h
  have hlast := h (dramStart + 118 * MB - 1) (by decide)
  rw [pmpSetup_permitted] at hlast
  revert hlast
  unfold Isolated
  decide

end AdvancedOperatingSystems.SecureBoot
