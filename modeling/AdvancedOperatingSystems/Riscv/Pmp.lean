import Mathlib.Data.Nat.Notation
import Mathlib.Tactic.Common
import Mathlib.Tactic.Ring

/-!
# Physical memory protection

The PMP entries of a hart: address registers and configuration bytes, with the writes that locked
entries ignore, the four ways of matching an address, and the rule that the lowest-numbered entry
that matches decides. A supervisor-mode access that no entry matches is refused.
-/

namespace AdvancedOperatingSystems.Riscv

abbrev PMPENTRIES : ℕ := 64

/-- The PMP registers. An address register has bits 55 to 2 of an address. -/
structure Pmp where
  addr : ℕ → ℕ
  cfg : ℕ → BitVec 8

/-- The number of ones at the lower end of the `n` lowest bits. -/
def trailingOnes : ℕ → ℕ → ℕ
  | 0, _ => 0
  | n + 1, x => if x % 2 = 1 then trailingOnes n (x / 2) + 1 else 0

namespace Pmp

variable (p : Pmp)

/-- The registers after a reset: every entry is off and unlocked. -/
def reset (addr : ℕ → ℕ) : Pmp := ⟨addr, fun _ => 0⟩

/-- The field `R` of an entry. -/
def r (i : ℕ) : Bool := (p.cfg i).getLsbD 0

/-- The field `A` of an entry. -/
def mode (i : ℕ) : ℕ := ((p.cfg i).extractLsb' 3 2).toNat

/-- The field `L` of an entry. -/
def locked (i : ℕ) : Bool := (p.cfg i).getLsbD 7

def top (i : ℕ) : ℕ := 4 * p.addr i

def bottom : ℕ → ℕ
  | 0 => 0
  | i + 1 => 4 * p.addr i

def napotSize (i : ℕ) : ℕ := 2 ^ (trailingOnes 54 (p.addr i) + 3)

/-- Whether an entry matches a byte: `A` is OFF, TOR, NA4 or NAPOT. -/
def Matches (i a : ℕ) : Prop :=
  match p.mode i with
  | 0 => False
  | 1 => p.bottom i ≤ a ∧ a < p.top i
  | 2 => a / 4 = p.addr i
  | _ => a / p.napotSize i = 4 * p.addr i / p.napotSize i

instance (i a : ℕ) : Decidable (p.Matches i a) := by
  unfold Matches
  split <;> infer_instance

def loadPermitted (a : ℕ) : Bool :=
  match (List.range PMPENTRIES).find? fun i => p.Matches i a with
  | none => false
  | some i => p.r i

/-- A write of `pmpaddr<i>`. The bound of a locked TOR entry is locked with it. -/
def writeAddr (i x : ℕ) : Pmp :=
  if p.locked i || p.locked (i + 1) && p.mode (i + 1) == 1 then p
  else { p with addr := Function.update p.addr i (x % 2 ^ 54) }

/-- A write of `pmpcfg0`, which has the bytes of the first eight entries. -/
def writeCfg0 (x : BitVec 64) : Pmp :=
  { p with cfg := fun i => if i < 8 ∧ p.locked i = false then x.extractLsb' (8 * i) 8 else p.cfg i }

section Rules

variable {p} {i a : ℕ}

theorem matches_off (h : p.mode i = 0) : ¬ p.Matches i a := by
  unfold Matches
  rw [h]
  exact id

theorem matches_tor (h : p.mode i = 1) : p.Matches i a ↔ p.bottom i ≤ a ∧ a < p.top i := by
  unfold Matches
  rw [h]
  exact Iff.rfl

theorem matches_napot {k : ℕ} (h : p.mode i = 3) (hk : trailingOnes 54 (p.addr i) = k) :
    p.Matches i a ↔ 4 * p.addr i / 2 ^ (k + 3) * 2 ^ (k + 3) ≤ a ∧
      a < (4 * p.addr i / 2 ^ (k + 3) + 1) * 2 ^ (k + 3) := by
  have hpos : 0 < 2 ^ (k + 3) := Nat.two_pow_pos _
  unfold Matches napotSize
  rw [h, hk]
  simp only
  rw [← Nat.le_div_iff_mul_le hpos, ← Nat.div_lt_iff_lt_mul hpos]
  omega

theorem loadPermitted_of_readable (h : ∀ i, p.mode i ≠ 0 → p.r i = true) :
    p.loadPermitted a = true ↔ ∃ i < PMPENTRIES, p.Matches i a := by
  unfold loadPermitted
  cases hfind : (List.range PMPENTRIES).find? fun i => p.Matches i a with
  | none =>
    rw [List.find?_range_eq_none] at hfind
    simp only [Bool.false_eq_true, false_iff]
    rintro ⟨i, hi, hmatch⟩
    simpa [hmatch] using hfind i hi
  | some k =>
    rw [List.find?_range_eq_some] at hfind
    obtain ⟨hmatch, hk, -⟩ := hfind
    have hmatch : p.Matches k a := of_decide_eq_true hmatch
    have hr : p.r k = true := h k fun hoff => matches_off hoff hmatch
    exact iff_of_true hr ⟨k, List.mem_range.mp hk, hmatch⟩

def Unlocked (p : Pmp) : Prop := ∀ i, p.locked i = false

theorem unlocked_reset (addr : ℕ → ℕ) : (reset addr).Unlocked := by
  intro i
  show (0 : BitVec 8).getLsbD 7 = false
  decide

theorem Unlocked.writeAddr_addr (h : p.Unlocked) (i x : ℕ) :
    (p.writeAddr i x).addr = Function.update p.addr i (x % 2 ^ 54) := by
  unfold writeAddr
  rw [h i, h (i + 1), Bool.false_and, Bool.or_false, if_neg Bool.false_ne_true]

theorem writeAddr_cfg (i x : ℕ) : (p.writeAddr i x).cfg = p.cfg := by
  unfold writeAddr
  split_ifs <;> rfl

theorem Unlocked.writeAddr (h : p.Unlocked) (i x : ℕ) : (p.writeAddr i x).Unlocked := by
  intro j
  unfold locked
  rw [writeAddr_cfg]
  exact h j

theorem writeCfg0_addr (x : BitVec 64) : (p.writeCfg0 x).addr = p.addr := rfl

theorem Unlocked.writeCfg0_cfg (h : p.Unlocked) (x : BitVec 64) (i : ℕ) :
    (p.writeCfg0 x).cfg i = if i < 8 then x.extractLsb' (8 * i) 8 else p.cfg i := by
  simp only [writeCfg0, h i, and_true]

theorem Unlocked.writeCfg0 (h : p.Unlocked) {x : BitVec 64}
    (hx : ∀ i < 8, (x.extractLsb' (8 * i) 8).getLsbD 7 = false) : (p.writeCfg0 x).Unlocked := by
  intro i
  have hi := h i
  unfold locked at *
  rw [h.writeCfg0_cfg]
  split_ifs with hlt
  · exact hx i hlt
  · exact hi

end Rules

end Pmp

end AdvancedOperatingSystems.Riscv
