import Mathlib.Data.List.Basic
import Mathlib.Data.Nat.ModEq
import Mathlib.Logic.Function.Basic
import Mathlib.Tactic.Common

/-!
# Ring buffers with counters that wrap

The counters of a ring buffer count what was ever put in and taken out, modulo `2 ^ w`; a
cell is found by the counter modulo the size of the ring. If the size divides `2 ^ w`, the
counters may wrap and the buffer is still a queue.
-/

namespace AdvancedOperatingSystems.Foundations

variable {w : ℕ} {β : Type*}

structure Ring (w : ℕ) (β : Type*) where
  data : ℕ → β
  nread : BitVec w
  nwrite : BitVec w

namespace Ring

variable (size : ℕ) (r : Ring w β)

def put (x : β) : Ring w β :=
  { r with data := Function.update r.data (r.nwrite.toNat % size) x, nwrite := r.nwrite + 1 }

def front : β := r.data (r.nread.toNat % size)

def take : Ring w β := { r with nread := r.nread + 1 }

structure Holds (q : List β) : Prop where
  length_le : q.length ≤ size
  nwrite : r.nwrite = r.nread + BitVec.ofNat w q.length
  cells : ∀ k, ∀ hk : k < q.length, r.data ((r.nread.toNat + k) % size) = q[k]

variable {size r} {q : List β} {x : β}

theorem holds_nil (h : r.nwrite = r.nread) : r.Holds size [] :=
  ⟨Nat.zero_le _, by simp [h], fun k hk => absurd hk (Nat.not_lt_zero k)⟩

theorem Holds.front_eq (hq : r.Holds size (x :: q)) : r.front size = x :=
  hq.cells 0 (Nat.succ_pos _)

section Counters

variable (hdvd : size ∣ 2 ^ w)

include hdvd

theorem wrap_mod (n : ℕ) : n % 2 ^ w % size = n % size := Nat.mod_mod_of_dvd n hdvd

theorem Holds.put (hq : r.Holds size q) (hlen : q.length < size) :
    (r.put size x).Holds size (q ++ [x]) where
  length_le := by
    rw [List.length_append, List.length_singleton]
    exact hlen
  nwrite := by
    change r.nwrite + 1 = r.nread + BitVec.ofNat w (q ++ [x]).length
    rw [hq.nwrite, List.length_append, List.length_singleton, BitVec.ofNat_add, BitVec.add_assoc]
    rfl
  cells := by
    have hcell : r.nwrite.toNat % size = (r.nread.toNat + q.length) % size := by
      rw [hq.nwrite, BitVec.toNat_add, BitVec.toNat_ofNat, Nat.add_mod_mod, wrap_mod hdvd]
    intro k hk
    change Function.update r.data (r.nwrite.toNat % size) x ((r.nread.toNat + k) % size) = _
    rw [hcell]
    rw [List.length_append, List.length_singleton] at hk
    rcases Nat.lt_succ_iff_lt_or_eq.mp hk with hlt | rfl
    · -- an older cell is not the one written
      have hne : (r.nread.toNat + k) % size ≠ (r.nread.toNat + q.length) % size := by
        intro heq
        have hmod : k % size = q.length % size := Nat.ModEq.add_left_cancel' _ heq
        rw [Nat.mod_eq_of_lt (Nat.lt_trans hlt hlen), Nat.mod_eq_of_lt hlen] at hmod
        omega
      rw [Function.update_of_ne hne, List.getElem_append_left hlt]
      exact hq.cells k hlt
    · simp

theorem Holds.take (hq : r.Holds size (x :: q)) : r.take.Holds size q where
  length_le := Nat.le_of_succ_le hq.length_le
  nwrite := by
    change r.nwrite = r.nread + 1 + BitVec.ofNat w q.length
    rw [hq.nwrite, List.length_cons, Nat.add_comm q.length 1, BitVec.ofNat_add, ← BitVec.add_assoc]
    rfl
  cells := by
    intro k hk
    have hcell : (r.take.nread.toNat + k) % size = (r.nread.toNat + (k + 1)) % size := by
      have hnext : r.take.nread.toNat % size = (r.nread.toNat + 1) % size := by
        change (r.nread + BitVec.ofNat w 1).toNat % size = _
        rw [BitVec.toNat_add, BitVec.toNat_ofNat, Nat.add_mod_mod, wrap_mod hdvd]
      rw [Nat.add_mod, hnext, ← Nat.add_mod, Nat.add_assoc, Nat.add_comm 1 k]
    rw [hcell]
    exact hq.cells (k + 1) (Nat.succ_lt_succ hk)

end Counters

theorem Holds.empty_iff (hq : r.Holds size q) (hlt : size < 2 ^ w) :
    r.nread = r.nwrite ↔ q = [] := by
  have hlen := hq.length_le
  rw [hq.nwrite]
  constructor
  · intro h
    have hzero : BitVec.ofNat w q.length = 0 := by
      simpa using h.symm
    have := congrArg BitVec.toNat hzero
    rw [BitVec.toNat_ofNat, Nat.mod_eq_of_lt (by omega)] at this
    exact List.length_eq_zero_iff.mp this
  · rintro rfl
    simp

theorem Holds.full_iff (hq : r.Holds size q) (hlt : size < 2 ^ w) :
    r.nwrite = r.nread + BitVec.ofNat w size ↔ q.length = size := by
  have hlen := hq.length_le
  rw [hq.nwrite, BitVec.add_right_inj]
  constructor
  · intro h
    have := congrArg BitVec.toNat h
    rwa [BitVec.toNat_ofNat, BitVec.toNat_ofNat, Nat.mod_eq_of_lt (by omega),
      Nat.mod_eq_of_lt hlt] at this
  · intro h
    rw [h]

end Ring

end AdvancedOperatingSystems.Foundations
