import AdvancedOperatingSystems.Foundations.Traced
import Mathlib.Tactic.Ring

/-!
# SHA-256 as the boot loader computes it

`sha256_init`, `sha256_update` and `sha256_final` over a context of a 64-byte
buffer, its fill level, the number of bits hashed and the eight state words. The
loop of `sha256_update` counts with a 32-bit word up to a 64-bit length.
-/

namespace AdvancedOperatingSystems.SecureBoot

open Foundations

abbrev Byte := BitVec 8

abbrev Word := BitVec 32

abbrev Addr := BitVec 64

abbrev Memory := Addr → Byte

structure Sha256Ctx where
  data : Array Byte
  datalen : Word
  bitlen : BitVec 64
  state : Array Word
  deriving DecidableEq, Repr

/-- The round constants. -/
def k : Array Word := #[
  0x428a2f98, 0x71374491, 0xb5c0fbcf, 0xe9b5dba5, 0x3956c25b, 0x59f111f1, 0x923f82a4, 0xab1c5ed5,
  0xd807aa98, 0x12835b01, 0x243185be, 0x550c7dc3, 0x72be5d74, 0x80deb1fe, 0x9bdc06a7, 0xc19bf174,
  0xe49b69c1, 0xefbe4786, 0x0fc19dc6, 0x240ca1cc, 0x2de92c6f, 0x4a7484aa, 0x5cb0a9dc, 0x76f988da,
  0x983e5152, 0xa831c66d, 0xb00327c8, 0xbf597fc7, 0xc6e00bf3, 0xd5a79147, 0x06ca6351, 0x14292967,
  0x27b70a85, 0x2e1b2138, 0x4d2c6dfc, 0x53380d13, 0x650a7354, 0x766a0abb, 0x81c2c92e, 0x92722c85,
  0xa2bfe8a1, 0xa81a664b, 0xc24b8b70, 0xc76c51a3, 0xd192e819, 0xd6990624, 0xf40e3585, 0x106aa070,
  0x19a4c116, 0x1e376c08, 0x2748774c, 0x34b0bcb5, 0x391c0cb3, 0x4ed8aa4a, 0x5b9cca4f, 0x682e6ff3,
  0x748f82ee, 0x78a5636f, 0x84c87814, 0x8cc70208, 0x90befffa, 0xa4506ceb, 0xbef9a3f7, 0xc67178f2]

def ch (x y z : Word) : Word := (x &&& y) ^^^ (~~~x &&& z)

def maj (x y z : Word) : Word := (x &&& y) ^^^ (x &&& z) ^^^ (y &&& z)

def ep0 (x : Word) : Word := x.rotateRight 2 ^^^ x.rotateRight 13 ^^^ x.rotateRight 22

def ep1 (x : Word) : Word := x.rotateRight 6 ^^^ x.rotateRight 11 ^^^ x.rotateRight 25

def sig0 (x : Word) : Word := x.rotateRight 7 ^^^ x.rotateRight 18 ^^^ (x >>> 3)

def sig1 (x : Word) : Word := x.rotateRight 17 ^^^ x.rotateRight 19 ^^^ (x >>> 10)

/-- The working variables of a round. -/
structure Working where
  a : Word
  b : Word
  c : Word
  d : Word
  e : Word
  f : Word
  g : Word
  h : Word

/-- The message schedule `m`. -/
def schedule (data : Array Byte) : Array Word :=
  let byte := fun j => (data.getD j 0).setWidth 32
  let first := (Array.range 16).map fun i =>
    (byte (4 * i) <<< 24) ||| (byte (4 * i + 1) <<< 16) ||| (byte (4 * i + 2) <<< 8) |||
      byte (4 * i + 3)
  (List.range' 16 48).foldl (fun m i =>
    m.push (sig1 (m.getD (i - 2) 0) + m.getD (i - 7) 0 + sig0 (m.getD (i - 15) 0) +
      m.getD (i - 16) 0)) first

def round (m : Array Word) (w : Working) (i : ℕ) : Working :=
  let t1 := w.h + ep1 w.e + ch w.e w.f w.g + k.getD i 0 + m.getD i 0
  let t2 := ep0 w.a + maj w.a w.b w.c
  ⟨t1 + t2, w.a, w.b, w.c, w.d + t1, w.e, w.f, w.g⟩

def sha256Transform (ctx : Sha256Ctx) : Sha256Ctx :=
  let m := schedule ctx.data
  let s := fun i => ctx.state.getD i 0
  let w := (List.range 64).foldl (round m) ⟨s 0, s 1, s 2, s 3, s 4, s 5, s 6, s 7⟩
  { ctx with
    state := #[s 0 + w.a, s 1 + w.b, s 2 + w.c, s 3 + w.d, s 4 + w.e, s 5 + w.f, s 6 + w.g,
      s 7 + w.h] }

/-- `sha256_init`. The buffer keeps what it held, which is never read. -/
def sha256Init : Sha256Ctx where
  data := Array.replicate 64 0
  datalen := 0
  bitlen := 0
  state := #[0x6a09e667, 0xbb67ae85, 0x3c6ef372, 0xa54ff53a, 0x510e527f, 0x9b05688c, 0x1f83d9ab,
    0x5be0cd19]

/-- The body of the loop of `sha256_update`. -/
def absorb (ctx : Sha256Ctx) (b : Byte) : Sha256Ctx :=
  let ctx := { ctx with
    data := ctx.data.setIfInBounds ctx.datalen.toNat b
    datalen := ctx.datalen + 1 }
  if ctx.datalen = 64 then
    let ctx := sha256Transform ctx
    { ctx with bitlen := ctx.bitlen + 512, datalen := 0 }
  else ctx

def loadByte (mem : Memory) (a : Addr) : Traced Addr Byte := ⟨[a], some (mem a)⟩

/-- `sha256_update` from index `i` on, for as many iterations as there is fuel. -/
def sha256Update (mem : Memory) (data : Addr) (len : BitVec 64) :
    ℕ → Word → Sha256Ctx → Traced Addr Sha256Ctx
  | 0, _, _ => Traced.diverge
  | fuel + 1, i, ctx =>
      if i.setWidth 64 < len then do
        let b ← loadByte mem (data + i.setWidth 64)
        sha256Update mem data len fuel (i + 1) (absorb ctx b)
      else pure ctx

/-- Fill the buffer from `datalen` on with a one bit and zeros up to `stop`. -/
def padTo (ctx : Sha256Ctx) (stop : ℕ) : Sha256Ctx :=
  let n := ctx.datalen.toNat
  { ctx with
    data := (List.range' (n + 1) (stop - (n + 1))).foldl (fun d i => d.setIfInBounds i 0)
      (ctx.data.setIfInBounds n 0x80) }

/-- `sha256_final`: the digest, most significant byte of each word first. -/
def sha256Final (ctx : Sha256Ctx) : List Byte :=
  let ctx :=
    if ctx.datalen < 56 then padTo ctx 56
    else
      let ctx := sha256Transform (padTo ctx 64)
      { ctx with data := (List.range 56).foldl (fun d i => d.setIfInBounds i 0) ctx.data }
  let bitlen := ctx.bitlen + ctx.datalen.setWidth 64 * 8
  let ctx := sha256Transform { ctx with
    bitlen := bitlen
    data := (List.range 8).foldl
      (fun d i => d.setIfInBounds (63 - i) ((bitlen >>> (8 * i)).setWidth 8)) ctx.data }
  (List.range 8).flatMap fun w => (List.range 4).map fun i =>
    ((ctx.state.getD w 0 >>> (24 - i * 8)) &&& 0xff).setWidth 8

section Update

variable {mem : Memory} {data : Addr} {len : BitVec 64}

theorem mem_sha256Update_trace {fuel : ℕ} {i : Word} {ctx : Sha256Ctx} {a : Addr}
    (h : a ∈ (sha256Update mem data len fuel i ctx).trace) :
    ∃ j : Word, j.setWidth 64 < len ∧ a = data + j.setWidth 64 := by
  induction fuel generalizing i ctx with
  | zero => simp [sha256Update] at h
  | succ fuel ih =>
    rw [sha256Update] at h
    split_ifs at h with hi
    · rcases Traced.mem_bind_trace.mp h with h | ⟨b, _, h⟩
      · exact ⟨i, hi, by simpa [loadByte] using h⟩
      · exact ih h
    · simp at h

/-- Every address below the length is read, as far as the counter reaches. -/
theorem sha256Update_reads {fuel n : ℕ} {i : Word} {ctx : Sha256Ctx} (hfuel : n < fuel)
    (hbound : i.toNat + n < 2 ^ 32) (hlen : i.toNat + n < len.toNat) :
    data + BitVec.ofNat 64 (i.toNat + n) ∈ (sha256Update mem data len fuel i ctx).trace := by
  induction fuel generalizing i ctx n with
  | zero => omega
  | succ fuel ih =>
    have hi : i.setWidth 64 < len := by
      rw [BitVec.lt_def, BitVec.toNat_setWidth, Nat.mod_eq_of_lt (by omega)]
      omega
    rw [sha256Update, if_pos hi, Traced.mem_bind_trace]
    cases n with
    | zero =>
      left
      have hcast := (BitVec.ofNat_toNat 64 i).symm
      simp only [loadByte, hcast, Nat.add_zero, List.mem_singleton]
    | succ n =>
      right
      have hnext : (i + 1).toNat = i.toNat + 1 := by
        rw [BitVec.toNat_add]
        exact Nat.mod_eq_of_lt (by simp; omega)
      refine ⟨_, rfl, ?_⟩
      have hsum : i.toNat + (n + 1) = (i + 1).toNat + n := by omega
      rw [hsum]
      exact ih (by omega) (by omega) (by omega)

/-- The bytes from index `i` on, `n` of them. -/
def bytesFrom (mem : Memory) (data : Addr) (i n : ℕ) : List Byte :=
  (List.range' i n).map fun j => mem (data + BitVec.ofNat 64 j)

theorem bytesFrom_succ (mem : Memory) (data : Addr) (i n : ℕ) :
    bytesFrom mem data i (n + 1) =
      mem (data + BitVec.ofNat 64 i) :: bytesFrom mem data (i + 1) n := by
  simp [bytesFrom, List.range'_succ]

/-- Below `2^32` the loop ends, given fuel, after all bytes have been absorbed. -/
theorem sha256Update_value {fuel : ℕ} {i : Word} {ctx : Sha256Ctx} (hlen : len.toNat < 2 ^ 32)
    (hi : i.toNat ≤ len.toNat) :
    (sha256Update mem data len fuel i ctx).value =
      if len.toNat - i.toNat < fuel then
        some ((bytesFrom mem data i.toNat (len.toNat - i.toNat)).foldl absorb ctx)
      else none := by
  induction fuel generalizing i ctx with
  | zero => rfl
  | succ fuel ih =>
    have hlt : i.setWidth 64 < len ↔ i.toNat < len.toNat := by
      rw [BitVec.lt_def, BitVec.toNat_setWidth, Nat.mod_eq_of_lt (by omega)]
    rw [sha256Update]
    by_cases h : i.toNat < len.toNat
    · have hnext : (i + 1).toNat = i.toNat + 1 := by
        rw [BitVec.toNat_add]
        exact Nat.mod_eq_of_lt (by simp; omega)
      have hcast := (BitVec.ofNat_toNat 64 i).symm
      have hsplit : len.toNat - i.toNat = (len.toNat - (i.toNat + 1)) + 1 := by omega
      rw [if_pos (hlt.mpr h), Traced.bind_value_of_some rfl, ih (by omega), hnext, hsplit,
        bytesFrom_succ, List.foldl_cons, hcast]
      simp only [Nat.add_lt_add_iff_right]
    · have hzero : len.toNat - i.toNat = 0 := by omega
      rw [if_neg (fun h' => h (hlt.mp h')), hzero, if_pos (Nat.succ_pos _)]
      rfl

theorem sha256Update_diverges (hlen : 2 ^ 32 ≤ len.toNat) (fuel : ℕ) (i : Word)
    (ctx : Sha256Ctx) : (sha256Update mem data len fuel i ctx).value = none := by
  induction fuel generalizing i ctx with
  | zero => rfl
  | succ fuel ih =>
    have hi : i.setWidth 64 < len := by
      rw [BitVec.lt_def, BitVec.toNat_setWidth, Nat.mod_eq_of_lt (by omega)]
      omega
    rw [sha256Update, if_pos hi, Traced.bind_value_of_some rfl]
    exact ih _ _

theorem sha256Update_total (hlen : len.toNat < 2 ^ 32) (ctx : Sha256Ctx) :
    (sha256Update mem data len (len.toNat + 1) 0 ctx).value =
      some ((bytesFrom mem data 0 len.toNat).foldl absorb ctx) := by
  rw [sha256Update_value hlen (Nat.zero_le _), if_pos (Nat.lt_succ_of_le (Nat.sub_le _ _))]
  rfl

theorem sha256Update_eq_some {fuel : ℕ} {ctx out : Sha256Ctx}
    (h : (sha256Update mem data len fuel 0 ctx).value = some out) :
    len.toNat < 2 ^ 32 ∧ out = (bytesFrom mem data 0 len.toNat).foldl absorb ctx := by
  have hlen : len.toNat < 2 ^ 32 := by
    by_contra hlen
    rw [sha256Update_diverges (by omega)] at h
    cases h
  rw [sha256Update_value hlen (by simp)] at h
  split_ifs at h
  cases h
  exact ⟨hlen, rfl⟩

end Update

end AdvancedOperatingSystems.SecureBoot
