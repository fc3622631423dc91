import Mathlib.Data.Nat.Notation
import Mathlib.Tactic.Common
import Mathlib.Tactic.Ring

/-!
# Byte-addressed memory

A memory of bytes with little-endian loads and stores of any width, at any address: the
address space is a circle of `2 ^ 64` bytes, and a region is an address with a length.
-/

namespace AdvancedOperatingSystems.Riscv

abbrev ByteMemory := BitVec 64 → BitVec 8

/-- The `k`-th byte of a word, the lowest first. -/
def byteOf {w : ℕ} (v : BitVec w) (k : ℕ) : BitVec 8 := v.extractLsb' (8 * k) 8

/-- The address lies in the `n` bytes from `p` on. -/
def InRegion (p : BitVec 64) (n : ℕ) (a : BitVec 64) : Prop := (a - p).toNat < n

theorem inRegion_iff {p a : BitVec 64} {n : ℕ} : InRegion p n a ↔ (a - p).toNat < n := Iff.rfl

instance (p : BitVec 64) (n : ℕ) (a : BitVec 64) : Decidable (InRegion p n a) :=
  inferInstanceAs (Decidable (_ < _))

namespace ByteMemory

variable (m : ByteMemory)

/-- The `n` bytes from `a` on as a word. -/
def load (a : BitVec 64) : (n : ℕ) → BitVec (8 * n)
  | 0 => 0#0
  | n + 1 => (m (a + BitVec.ofNat 64 n) ++ load a n).cast (by omega)

/-- Write a word of `n` bytes. -/
def store (a : BitVec 64) (n : ℕ) (v : BitVec (8 * n)) : ByteMemory := fun b =>
  if InRegion a n b then byteOf v (b - a).toNat else m b

/-- `memset(a, 0, n)`. -/
def zero (a : BitVec 64) (n : ℕ) : ByteMemory := fun b =>
  if InRegion a n b then 0 else m b

end ByteMemory

section Bytes

theorem byteOf_load (m : ByteMemory) (a : BitVec 64) {n k : ℕ} (hk : k < n) :
    byteOf (m.load a n) k = m (a + BitVec.ofNat 64 k) := by
  induction n with
  | zero => omega
  | succ n ih =>
    apply BitVec.eq_of_getLsbD_eq
    intro i hi
    simp only [byteOf, ByteMemory.load, BitVec.getLsbD_extractLsb', hi, decide_true,
      Bool.true_and, BitVec.getLsbD_cast, BitVec.getLsbD_append]
    by_cases hlast : k = n
    · rw [if_neg (by omega), hlast, Nat.add_sub_cancel_left]
    · have hbyte := congrArg (fun b => b.getLsbD i) (ih (by omega))
      rw [if_pos (by omega)]
      simpa [byteOf, hi] using hbyte

theorem eq_of_byteOf_eq {n : ℕ} {v w : BitVec (8 * n)}
    (h : ∀ k < n, byteOf v k = byteOf w k) : v = w := by
  apply BitVec.eq_of_getLsbD_eq
  intro i hi
  have hbyte := h (i / 8) (by omega)
  have hbit := congrArg (fun b => b.getLsbD (i % 8)) hbyte
  have hsplit : 8 * (i / 8) + i % 8 = i := by omega
  have hlt : i % 8 < 8 := by omega
  simpa [byteOf, BitVec.getLsbD_extractLsb', hsplit, hlt] using hbit

theorem load_eq_iff {m : ByteMemory} {a : BitVec 64} {n : ℕ} {v : BitVec (8 * n)} :
    m.load a n = v ↔ ∀ k < n, m (a + BitVec.ofNat 64 k) = byteOf v k := by
  constructor
  · intro h k hk
    rw [← h, byteOf_load m a hk]
  · intro h
    apply eq_of_byteOf_eq
    intro k hk
    rw [byteOf_load m a hk]
    exact h k hk

theorem load_congr {m m' : ByteMemory} {a : BitVec 64} {n : ℕ}
    (h : ∀ k < n, m (a + BitVec.ofNat 64 k) = m' (a + BitVec.ofNat 64 k)) :
    m.load a n = m'.load a n := by
  apply load_eq_iff.2
  intro k hk
  rw [byteOf_load m' a hk]
  exact h k hk

end Bytes

section Regions

theorem inRegion_add {p : BitVec 64} {n k : ℕ} (hn : n ≤ 2 ^ 64) (hk : k < n) :
    InRegion p n (p + BitVec.ofNat 64 k) := by
  have hsub : p + BitVec.ofNat 64 k - p = BitVec.ofNat 64 k := by
    rw [BitVec.add_comm, BitVec.add_sub_cancel]
  rw [InRegion, hsub, BitVec.toNat_ofNat, Nat.mod_eq_of_lt (by omega)]
  exact hk

theorem add_offset (p a : BitVec 64) : p + BitVec.ofNat 64 (a - p).toNat = a := by
  rw [BitVec.ofNat_toNat, BitVec.setWidth_eq, BitVec.add_comm, BitVec.sub_add_cancel]

theorem add_ofNat_add (p : BitVec 64) (j k : ℕ) :
    p + BitVec.ofNat 64 j + BitVec.ofNat 64 k = p + BitVec.ofNat 64 (j + k) := by
  rw [BitVec.ofNat_add, BitVec.add_assoc]

theorem sub_offset (a p : BitVec 64) (k : ℕ) :
    (a - (p + BitVec.ofNat 64 k)).toNat =
      ((a - p).toNat + (2 ^ 64 - k % 2 ^ 64)) % 2 ^ 64 := by
  simp only [BitVec.toNat_sub, BitVec.toNat_add, BitVec.toNat_ofNat]
  omega

theorem inRegion_offset_iff {p a : BitVec 64} {k n : ℕ} (h : k + n ≤ 2 ^ 64) (hn : 0 < n) :
    InRegion (p + BitVec.ofNat 64 k) n a ↔ k ≤ (a - p).toNat ∧ (a - p).toNat < k + n := by
  have hlt := (a - p).isLt
  rw [InRegion, sub_offset, Nat.mod_eq_of_lt (a := k) (by omega)]
  omega

theorem inRegion_word_iff {p a : BitVec 64} {count j : ℕ} (hcount : 8 * count ≤ 2 ^ 64)
    (hj : j < count) :
    InRegion (p + BitVec.ofNat 64 (8 * j)) 8 a ↔ (a - p).toNat / 8 = j := by
  unfold InRegion at *
  rw [sub_offset]
  omega

theorem word_offset {p a : BitVec 64} {j : ℕ} (hj : (a - p).toNat / 8 = j) :
    (a - (p + BitVec.ofNat 64 (8 * j))).toNat = (a - p).toNat % 8 := by
  rw [sub_offset]
  omega

theorem store_word {m : ByteMemory} {p a : BitVec 64} {count j : ℕ} (v : BitVec 64)
    (hcount : 8 * count ≤ 2 ^ 64) (hj : j < count) :
    m.store (p + BitVec.ofNat 64 (8 * j)) 8 v a =
      if (a - p).toNat / 8 = j then byteOf v ((a - p).toNat % 8) else m a := by
  unfold ByteMemory.store
  by_cases hword : (a - p).toNat / 8 = j
  · rw [if_pos ((inRegion_word_iff hcount hj).2 hword), if_pos hword, word_offset hword]
  · rw [if_neg (fun hr => hword ((inRegion_word_iff hcount hj).1 hr)), if_neg hword]

/-- Store a row of words from `p` on. -/
def ByteMemory.storeRow (m : ByteMemory) (p : BitVec 64) (v : ℕ → BitVec 64) : ℕ → ByteMemory
  | 0 => m
  | n + 1 => (m.storeRow p v n).store (p + BitVec.ofNat 64 (8 * n)) 8 (v n)

theorem storeRow_apply (m : ByteMemory) (p a : BitVec 64) (v : ℕ → BitVec 64) {n : ℕ}
    (hn : 8 * n ≤ 2 ^ 64) :
    m.storeRow p v n a =
      if InRegion p (8 * n) a then byteOf (v ((a - p).toNat / 8)) ((a - p).toNat % 8)
      else m a := by
  induction n with
  | zero => simp [ByteMemory.storeRow, InRegion]
  | succ n ih =>
    rw [ByteMemory.storeRow, store_word (v n) hn (Nat.lt_succ_self n), ih (by omega)]
    by_cases hword : (a - p).toNat / 8 = n
    · rw [if_pos hword, if_pos (inRegion_iff.2 (by omega)), hword]
    · by_cases hin : InRegion p (8 * n) a
      · have hlt := inRegion_iff.1 hin
        rw [if_neg hword, if_pos hin, if_pos (inRegion_iff.2 (by omega))]
      · have hge : ¬ InRegion p (8 * (n + 1)) a := by
          rw [inRegion_iff] at *
          omega
        rw [if_neg hword, if_neg hin, if_neg hge]

end Regions

end AdvancedOperatingSystems.Riscv
