import AdvancedOperatingSystems.SecureBoot.Sha256

/-!
# The boot loader

`start` with the functions of `elf.c` and `load.c`. Two kernel images lie in
memory: the normal one at `RAMDISK` and the recovery one at `RECOVERYDISK`. The
memory modelled here is the RAM behind the loader's own code, data and stack: a
run that stores below or above it is not the machine's. A panic of the loader
loops forever, as `sha256_update` may do.
-/

namespace AdvancedOperatingSystems.SecureBoot

open Foundations

abbrev RAMDISK : Addr := 0x84000000

abbrev RECOVERYDISK : Addr := 0x84500000

theorem RAMDISK_toNat : RAMDISK.toNat = 0x84000000 := rfl

theorem RECOVERYDISK_toNat : RECOVERYDISK.toNat = 0x84500000 := rfl

abbrev PHYSTOP : ℕ := 0x88000000

/-- Where `sys_info_ptr` points to. -/
abbrev SYS_INFO : Addr := 0x80080000

theorem SYS_INFO_toNat : SYS_INFO.toNat = 0x80080000 := rfl

/-- Where the linker script has put the loader: its code, data and stack end at
`bound`, the word at `end` included, below the system information table. -/
structure Loader where
  bound : Addr
  /-- The word at `end`. -/
  endWord : BitVec 64
  bound_le : bound.toNat ≤ SYS_INFO.toNat

def Loader.Free (L : Loader) (a : Addr) : Prop := L.bound.toNat ≤ a.toNat ∧ a.toNat < PHYSTOP

abbrev BSIZE : ℕ := 1024

abbrev FSSIZE : ℕ := 2000

inductive Kernel
  | normal
  | recovery
  deriving DecidableEq, Repr

def Kernel.disk : Kernel → Addr
  | .normal => RAMDISK
  | .recovery => RECOVERYDISK

@[simp] theorem disk_normal : Kernel.normal.disk = RAMDISK := rfl

@[simp] theorem disk_recovery : Kernel.recovery.disk = RECOVERYDISK := rfl

/-- The little-endian number in the `n` bytes from `a` on. -/
def wordAt (mem : Memory) (a : Addr) : ℕ → ℕ
  | 0 => 0
  | n + 1 => (mem a).toNat + 256 * wordAt mem (a + 1) n

/-- Load `n` bytes, zero-extended. -/
def load (mem : Memory) (a : Addr) (n : ℕ) : Traced Addr (BitVec 64) :=
  ⟨(List.range n).map fun j => a + BitVec.ofNat 64 j, some (BitVec.ofNat 64 (wordAt mem a n))⟩

section Elf

variable (mem : Memory)

/-- `find_kernel_load_addr`: the header it leaves in `kernel_elfhdr`, and `vaddr`
of the second program header. -/
def findKernelLoadAddr (ktype : Kernel) : Traced Addr (Addr × Addr) := do
  let elfhdr := ktype.disk
  let phoff ← load mem (elfhdr + 32) 8
  let phentsize ← load mem (elfhdr + 54) 2
  let phdr := elfhdr + phoff + phentsize
  let vaddr ← load mem (phdr + 16) 8
  return (elfhdr, vaddr)

/-- `find_kernel_size`. The product of the two 16-bit fields is an `int`. -/
def findKernelSize (elfhdr : Addr) : Traced Addr (BitVec 64) := do
  let shoff ← load mem (elfhdr + 40) 8
  let shentsize ← load mem (elfhdr + 58) 2
  let shnum ← load mem (elfhdr + 60) 2
  return shoff + (shentsize.setWidth 32 * shnum.setWidth 32).signExtend 64

def findKernelEntryAddr (elfhdr : Addr) : Traced Addr Addr := load mem (elfhdr + 24) 8

end Elf

/-- `kernel_copy`: the contents of one block of the image. -/
def kernelCopy (mem : Memory) (ktype : Kernel) (blockno : ℕ) : Traced Addr (ℕ → Byte) :=
  if FSSIZE ≤ blockno then Traced.diverge
  else
    let addr := ktype.disk + BitVec.ofNat 64 (BSIZE * blockno)
    ⟨(List.range BSIZE).map fun j => addr + BitVec.ofNat 64 j,
      some fun j => mem (addr + BitVec.ofNat 64 j)⟩

/-- `memmove` of one block into memory. -/
def storeBlock (mem : Memory) (dst : Addr) (data : ℕ → Byte) : Memory :=
  fun a => if (a - dst).toNat < BSIZE then data (a - dst).toNat else mem a

/-- `4096/BSIZE`. -/
abbrev blockToSkip : ℕ := 4

/-- `(kernel_binary_size+BSIZE-1)/BSIZE` as an `int`. -/
def blockNum (size : BitVec 64) : Int := (((size + 1023) / 1024).setWidth 32).toInt

def blocks (size : BitVec 64) : List ℕ :=
  List.range' blockToSkip ((blockNum size).toNat - blockToSkip)

def copyBlock (ktype : Kernel) (loadAddr : Addr) (mem : Memory) (i : ℕ) : Traced Addr Memory := do
  let data ← kernelCopy mem ktype i
  return storeBlock mem (loadAddr + BitVec.ofNat 64 (BSIZE * (i - blockToSkip))) data

def copyBlocks (ktype : Kernel) (loadAddr : Addr) : List ℕ → Memory → Traced Addr Memory
  | [], mem => pure mem
  | i :: is, mem => copyBlock ktype loadAddr mem i >>= copyBlocks ktype loadAddr is

/-- `memmove` of a list of bytes into memory. -/
def storeBytes (mem : Memory) (dst : Addr) (bytes : List Byte) : Memory := fun a =>
  if (a - dst).toNat < bytes.length then bytes.getD (a - dst).toNat 0 else mem a

def wordBytes (x : BitVec 64) : List Byte :=
  (List.range 8).map fun j => (x >>> (8 * j)).setWidth 8

/-- What `is_secure_boot` writes to the table. -/
def storeMeasurements (mem : Memory) (expected observed : List Byte) : Memory :=
  storeBytes (storeBytes mem (SYS_INFO + 64) (observed.take 32)) (SYS_INFO + 32) (expected.take 32)

/-- What `start` writes to the table at `out`. -/
def systemInformation (L : Loader) : List Byte :=
  wordBytes 0x80000000 ++ wordBytes L.endWord ++ wordBytes 0x80000000 ++
    wordBytes (0x80000000 + 128 * 1024 * 1024)

/-- What the loader leaves: memory once the kernel has been copied and at the
`mret`, the register `mepc` and the measurements in the table. -/
structure Boot where
  copied : Memory
  mem : Memory
  mepc : Addr
  observedKernelMeasurement : List Byte
  expectedKernelMeasurement : List Byte

/-- `setup_recovery_kernel`: memory and `mepc`. -/
def setupRecoveryKernel (mem : Memory) : Traced Addr (Memory × Addr) := do
  let (elfhdr, loadAddr) ← findKernelLoadAddr mem .recovery
  let size ← findKernelSize mem elfhdr
  let mem ← copyBlocks .recovery loadAddr (blocks size) mem
  let entry ← findKernelEntryAddr mem elfhdr
  return (mem, entry)

/-- `is_secure_boot` up to the comparison: the observed measurement. -/
def observe (fuel : ℕ) (mem : Memory) (elfhdr : Addr) : Traced Addr (List Byte) := do
  let size ← findKernelSize mem elfhdr
  let ctx ← sha256Update mem RAMDISK size fuel 0 sha256Init
  return sha256Final ctx

/-- The part of `start` before the comparison, with `kernel_elfhdr` and the load
address it has found. -/
def measure (fuel : ℕ) (mem : Memory) : Traced Addr ((Addr × Addr) × List Byte) := do
  let found ← findKernelLoadAddr mem .normal
  let observed ← observe fuel mem found.1
  return (found, observed)

/-- The part of `start` that loads a normal kernel. -/
def loadNormal (elfhdr loadAddr : Addr) (mem : Memory) : Traced Addr (Memory × Addr) := do
  let size ← findKernelSize mem elfhdr
  let mem ← copyBlocks .normal loadAddr (blocks size) mem
  let entry ← findKernelEntryAddr mem elfhdr
  return (mem, entry)

/-- `start`. The trusted hash is a constant of the generated `measurements.h`. -/
def start (L : Loader) (trustedKernelHash : List Byte) (fuel : ℕ) (mem : Memory) :
    Traced Addr Boot := do
  let ((elfhdr, loadAddr), observed) ← measure fuel mem
  let mem := storeMeasurements mem trustedKernelHash observed
  let (copied, mepc) ←
    if observed = trustedKernelHash then loadNormal elfhdr loadAddr mem
    else setupRecoveryKernel mem
  return ⟨copied, storeBytes copied SYS_INFO (systemInformation L), mepc, observed,
    trustedKernelHash⟩

section Fields

variable (mem : Memory) (disk : Addr)

/-- The address of the field `vaddr` of the second program header. -/
def vaddrField : Addr :=
  disk + BitVec.ofNat 64 (wordAt mem (disk + 32) 8) + BitVec.ofNat 64 (wordAt mem (disk + 54) 2)
    + 16

def imageLoadAddr : Addr := BitVec.ofNat 64 (wordAt mem (vaddrField mem disk) 8)

/-- The size that the header of an image gives. -/
def imageSize : BitVec 64 :=
  BitVec.ofNat 64 (wordAt mem (disk + 40) 8) +
    ((BitVec.ofNat 64 (wordAt mem (disk + 58) 2)).setWidth 32 *
      (BitVec.ofNat 64 (wordAt mem (disk + 60) 2)).setWidth 32).signExtend 64

def imageEntry : Addr := BitVec.ofNat 64 (wordAt mem (disk + 24) 8)

theorem findKernelLoadAddr_value (ktype : Kernel) :
    (findKernelLoadAddr mem ktype).value = some (ktype.disk, imageLoadAddr mem ktype.disk) := rfl

theorem findKernelSize_value : (findKernelSize mem disk).value = some (imageSize mem disk) := rfl

theorem findKernelEntryAddr_value :
    (findKernelEntryAddr mem disk).value = some (imageEntry mem disk) := rfl

variable {mem disk}

@[simp] theorem load_value {a : Addr} {n : ℕ} :
    (load mem a n).value = some (BitVec.ofNat 64 (wordAt mem a n)) := rfl

theorem mem_load_trace {a b : Addr} {n : ℕ} :
    b ∈ (load mem a n).trace ↔ ∃ j < n, b = a + BitVec.ofNat 64 j := by
  simp [load, eq_comm]

theorem mem_findKernelLoadAddr_trace {ktype : Kernel} {a : Addr} :
    a ∈ (findKernelLoadAddr mem ktype).trace ↔
      (∃ j < 8, a = ktype.disk + 32 + BitVec.ofNat 64 j) ∨
      (∃ j < 2, a = ktype.disk + 54 + BitVec.ofNat 64 j) ∨
      ∃ j < 8, a = vaddrField mem ktype.disk + BitVec.ofNat 64 j := by
  simp only [findKernelLoadAddr, Traced.mem_bind_trace, mem_load_trace, Traced.pure_trace,
    List.not_mem_nil, and_false, exists_false, or_false, load_value, Option.some.injEq,
    exists_eq_left', vaddrField]

theorem mem_findKernelSize_trace {a : Addr} :
    a ∈ (findKernelSize mem disk).trace ↔
      (∃ j < 8, a = disk + 40 + BitVec.ofNat 64 j) ∨ (∃ j < 2, a = disk + 58 + BitVec.ofNat 64 j) ∨
      ∃ j < 2, a = disk + 60 + BitVec.ofNat 64 j := by
  simp only [findKernelSize, Traced.mem_bind_trace, mem_load_trace, Traced.pure_trace,
    List.not_mem_nil, and_false, exists_false, or_false, load_value, Option.some.injEq,
    exists_eq_left']

theorem wordAt_congr {mem' : Memory} {a : Addr} {n : ℕ}
    (h : ∀ j < n, mem' (a + BitVec.ofNat 64 j) = mem (a + BitVec.ofNat 64 j)) :
    wordAt mem' a n = wordAt mem a n := by
  induction n generalizing a with
  | zero => rfl
  | succ n ih =>
    have h₀ := h 0 (by omega)
    have hnext : ∀ j < n, mem' (a + 1 + BitVec.ofNat 64 j) = mem (a + 1 + BitVec.ofNat 64 j) := by
      intro j hj
      have hj' := h (j + 1) (by omega)
      have haddr : a + BitVec.ofNat 64 (j + 1) = a + 1 + BitVec.ofNat 64 j := by
        rw [Nat.add_comm, BitVec.ofNat_add, BitVec.add_assoc]
        rfl
      rwa [haddr] at hj'
    simp only [BitVec.add_zero] at h₀
    rw [wordAt, wordAt, ih hnext, h₀]

theorem wordAt_lt (mem : Memory) (a : Addr) (n : ℕ) : wordAt mem a n < 256 ^ n := by
  induction n generalizing a with
  | zero => exact Nat.one_pos
  | succ n ih =>
    have hrest := ih (a + 1)
    have hbyte := (mem a).isLt
    rw [wordAt, Nat.pow_succ]
    omega

theorem wordAt_inj {mem' : Memory} {a : Addr} {n : ℕ} (h : wordAt mem' a n = wordAt mem a n) :
    ∀ j < n, mem' (a + BitVec.ofNat 64 j) = mem (a + BitVec.ofNat 64 j) := by
  induction n generalizing a with
  | zero => exact fun j hj => absurd hj (Nat.not_lt_zero j)
  | succ n ih =>
    have hbyte := (mem a).isLt
    have hbyte' := (mem' a).isLt
    rw [wordAt, wordAt] at h
    have hfirst : mem' a = mem a := BitVec.eq_of_toNat_eq (by omega)
    intro j hj
    cases j with
    | zero => simpa only [BitVec.add_zero] using hfirst
    | succ j =>
      have haddr : a + BitVec.ofNat 64 (j + 1) = a + 1 + BitVec.ofNat 64 j := by
        rw [Nat.add_comm, BitVec.ofNat_add, BitVec.add_assoc]
        rfl
      rw [haddr]
      exact ih (by omega) j (by omega)

end Fields

/-- Memory has the same `n` bytes from `a` on. -/
def SameBytes (mem mem' : Memory) (a : Addr) (n : ℕ) : Prop :=
  ∀ j < n, mem' (a + BitVec.ofNat 64 j) = mem (a + BitVec.ofNat 64 j)

def phdrOffset (mem : Memory) (disk : Addr) : ℕ :=
  wordAt mem (disk + 32) 8 + wordAt mem (disk + 54) 2

section SameBytes

variable {mem mem' : Memory} {disk : Addr} {n : ℕ}

theorem SameBytes.word (h : SameBytes mem mem' disk n) {off k : ℕ} (hoff : off + k ≤ n) :
    wordAt mem' (disk + BitVec.ofNat 64 off) k = wordAt mem (disk + BitVec.ofNat 64 off) k := by
  apply wordAt_congr
  intro j hj
  rw [BitVec.add_assoc, ← BitVec.ofNat_add]
  exact h _ (by omega)

theorem SameBytes.imageSize_eq (h : SameBytes mem mem' disk n) (hn : 62 ≤ n) :
    imageSize mem' disk = imageSize mem disk := by
  have h₁ := @SameBytes.word mem mem' disk n h 40 8 (by omega)
  have h₂ := @SameBytes.word mem mem' disk n h 58 2 (by omega)
  have h₃ := @SameBytes.word mem mem' disk n h 60 2 (by omega)
  simp only [imageSize]
  exact congrArg₂ (· + ·) (congrArg _ h₁)
    (congrArg _ (congrArg₂ (· * ·) (congrArg _ (congrArg _ h₂)) (congrArg _ (congrArg _ h₃))))

theorem SameBytes.phdrOffset_eq (h : SameBytes mem mem' disk n) (hn : 56 ≤ n) :
    phdrOffset mem' disk = phdrOffset mem disk := by
  have h₁ : wordAt mem' (disk + 32) 8 = wordAt mem (disk + 32) 8 :=
    @SameBytes.word mem mem' disk n h 32 8 (by omega)
  have h₂ : wordAt mem' (disk + 54) 2 = wordAt mem (disk + 54) 2 :=
    @SameBytes.word mem mem' disk n h 54 2 (by omega)
  rw [phdrOffset, phdrOffset, h₁, h₂]

theorem vaddrField_offset :
    vaddrField mem disk = disk + BitVec.ofNat 64 (phdrOffset mem disk + 16) := by
  rw [vaddrField, phdrOffset, BitVec.ofNat_add, BitVec.ofNat_add, BitVec.add_assoc,
    BitVec.add_assoc, BitVec.add_assoc]
  rfl

theorem SameBytes.vaddrField_eq (h : SameBytes mem mem' disk n) (hn : 56 ≤ n) :
    vaddrField mem' disk = vaddrField mem disk := by
  rw [vaddrField_offset, vaddrField_offset, h.phdrOffset_eq hn]

theorem SameBytes.loadAddr_eq (h : SameBytes mem mem' disk n) (hn : 56 ≤ n)
    (hphdr : phdrOffset mem disk + 24 ≤ n) :
    imageLoadAddr mem' disk = imageLoadAddr mem disk := by
  rw [imageLoadAddr, imageLoadAddr, h.vaddrField_eq hn, vaddrField_offset, h.word (by omega)]

end SameBytes

section Copy

variable {mem : Memory} {ktype : Kernel} {loadAddr : Addr}

theorem copyBlock_value {i : ℕ} (hi : i < FSSIZE) :
    (copyBlock ktype loadAddr mem i).value =
      some (storeBlock mem (loadAddr + BitVec.ofNat 64 (BSIZE * (i - blockToSkip)))
        fun j => mem (ktype.disk + BitVec.ofNat 64 (BSIZE * i + j))) := by
  have haddr : ∀ j, ktype.disk + BitVec.ofNat 64 (BSIZE * i) + BitVec.ofNat 64 j =
      ktype.disk + BitVec.ofNat 64 (BSIZE * i + j) := fun j => by
    rw [BitVec.add_assoc, ← BitVec.ofNat_add]
  simp only [copyBlock, kernelCopy, if_neg (Nat.not_le.mpr hi)]
  simp only [haddr]
  rfl

theorem copyBlock_diverges {i : ℕ} (hi : FSSIZE ≤ i) :
    (copyBlock ktype loadAddr mem i).value = none := by
  simp only [copyBlock, kernelCopy, if_pos hi]
  rfl

theorem copyBlock_trace {i : ℕ} {a : Addr} :
    a ∈ (copyBlock ktype loadAddr mem i).trace ↔
      i < FSSIZE ∧ ∃ j < BSIZE, a = ktype.disk + BitVec.ofNat 64 (BSIZE * i + j) := by
  have haddr : ∀ j, ktype.disk + BitVec.ofNat 64 (BSIZE * i) + BitVec.ofNat 64 j =
      ktype.disk + BitVec.ofNat 64 (BSIZE * i + j) := fun j => by
    rw [BitVec.add_assoc, ← BitVec.ofNat_add]
  simp only [copyBlock, Traced.mem_bind_trace, Traced.pure_trace, List.not_mem_nil, and_false,
    exists_false, or_false, kernelCopy]
  by_cases hi : FSSIZE ≤ i
  · simp only [hi, ↓reduceIte, Traced.diverge_trace, List.not_mem_nil, Nat.not_lt.mpr hi,
      false_and]
  · simp only [hi, ↓reduceIte, haddr, List.mem_map, List.mem_range, Nat.not_le.mp hi, true_and,
      eq_comm]

theorem storeBlock_hit {dst : Addr} {data : ℕ → Byte} {j : ℕ} (hj : j < BSIZE) :
    storeBlock mem dst data (dst + BitVec.ofNat 64 j) = data j := by
  have hoff : (dst + BitVec.ofNat 64 j - dst).toNat = j := by
    rw [BitVec.add_comm, BitVec.add_sub_cancel, BitVec.toNat_ofNat]
    exact Nat.mod_eq_of_lt (by simp only [BSIZE] at hj; omega)
  rw [storeBlock, hoff, if_pos hj]

theorem storeBlock_miss {dst a : Addr} {data : ℕ → Byte}
    (h : ∀ j < BSIZE, a ≠ dst + BitVec.ofNat 64 j) : storeBlock mem dst data a = mem a := by
  have hoff : ¬ (a - dst).toNat < BSIZE := by
    intro hlt
    refine h _ hlt ?_
    rw [BitVec.ofNat_toNat, BitVec.setWidth_eq, BitVec.add_comm, BitVec.sub_add_cancel]
  rw [storeBlock, if_neg hoff]

theorem offset_toNat {a : Addr} {n : ℕ} (h : a.toNat + n < 2 ^ 64) :
    (a + BitVec.ofNat 64 n).toNat = a.toNat + n := by
  rw [BitVec.toNat_add, BitVec.toNat_ofNat, Nat.mod_eq_of_lt (a := n) (by omega),
    Nat.mod_eq_of_lt h]

theorem offset_inj {a : Addr} {l l' : ℕ} (hl : l < 2 ^ 64) (hl' : l' < 2 ^ 64)
    (h : a + BitVec.ofNat 64 l = a + BitVec.ofNat 64 l') : l = l' := by
  have h' := congrArg BitVec.toNat ((BitVec.add_right_inj a).mp h)
  rwa [BitVec.toNat_ofNat, BitVec.toNat_ofNat, Nat.mod_eq_of_lt hl, Nat.mod_eq_of_lt hl'] at h'

/-- Blocks of the image are copied to block `t` of the load area and on, one
after another, if the load area is apart from the image. -/
theorem copyBlocks_value {t n : ℕ} (hn : blockToSkip + t + n ≤ FSSIZE)
    (hapart : ∀ l < BSIZE * (t + n), ∀ j < BSIZE * FSSIZE,
      loadAddr + BitVec.ofNat 64 l ≠ ktype.disk + BitVec.ofNat 64 j) :
    ∃ mem', (copyBlocks ktype loadAddr (List.range' (blockToSkip + t) n) mem).value = some mem' ∧
      (∀ l, BSIZE * t ≤ l → l < BSIZE * (t + n) →
        mem' (loadAddr + BitVec.ofNat 64 l) =
          mem (ktype.disk + BitVec.ofNat 64 (BSIZE * blockToSkip + l))) ∧
      ∀ a, (∀ l, BSIZE * t ≤ l → l < BSIZE * (t + n) → a ≠ loadAddr + BitVec.ofNat 64 l) →
        mem' a = mem a := by
  simp only [blockToSkip, BSIZE, FSSIZE] at hn hapart ⊢
  induction n generalizing t mem with
  | zero => exact ⟨mem, rfl, fun l h₁ h₂ => by omega, fun _ _ => rfl⟩
  | succ n ih =>
    have hvalue : (copyBlock ktype loadAddr mem (4 + t)).value = _ :=
      copyBlock_value (by simp only [FSSIZE]; omega)
    rw [Nat.add_sub_cancel_left] at hvalue
    generalize hmem : storeBlock mem _ _ = mem₁ at hvalue
    obtain ⟨mem', hok, hhit, hmiss⟩ := @ih mem₁ (t + 1) (by omega)
      (fun l hl => hapart l (by omega))
    have hdst : ∀ j, loadAddr + BitVec.ofNat 64 (BSIZE * t) + BitVec.ofNat 64 j =
        loadAddr + BitVec.ofNat 64 (1024 * t + j) := fun j => by
      rw [BitVec.add_assoc, ← BitVec.ofNat_add]
    -- the block just stored, and what lies outside of it
    have hin : ∀ j < 1024, mem₁ (loadAddr + BitVec.ofNat 64 (1024 * t + j)) =
        mem (ktype.disk + BitVec.ofNat 64 (1024 * (4 + t) + j)) := fun j hj => by
      rw [← hmem, ← hdst, storeBlock_hit hj]
    have hout : ∀ a, (∀ j < 1024, a ≠ loadAddr + BitVec.ofNat 64 (1024 * t + j)) →
        mem₁ a = mem a := fun a ha => by
      rw [← hmem]
      refine storeBlock_miss fun j hj => ?_
      rw [hdst]
      exact ha j hj
    refine ⟨mem', ?_, fun l h₁ h₂ => ?_, fun a ha => ?_⟩
    · rw [List.range'_succ, copyBlocks, Traced.bind_value_of_some hvalue]
      exact hok
    · by_cases hl : l < 1024 * (t + 1)
      · have hsame : mem' (loadAddr + BitVec.ofNat 64 l) = mem₁ (loadAddr + BitVec.ofNat 64 l) :=
          hmiss _ fun l' h₁' h₂' h => by
            have := offset_inj (by omega) (by omega) h
            omega
        have hblock := hin (l - 1024 * t) (by omega)
        have hl₁ : 1024 * t + (l - 1024 * t) = l := by omega
        have hl₂ : 1024 * (4 + t) + (l - 1024 * t) = 1024 * 4 + l := by omega
        rw [hl₁, hl₂] at hblock
        rw [hsame, hblock]
      · rw [hhit l (by omega) (by omega)]
        refine hout _ fun j hj h => ?_
        exact hapart (1024 * t + j) (by omega) (1024 * 4 + l) (by omega) h.symm
    · rw [hmiss a fun l h₁ h₂ => ha l (by omega) (by omega)]
      exact hout a fun j hj => ha _ (by omega) (by omega)

/-- What the loop over the blocks reads. It stops at the end of the file system. -/
theorem mem_copyBlocks_trace {i n : ℕ} {a : Addr} :
    a ∈ (copyBlocks ktype loadAddr (List.range' i n) mem).trace ↔
      ∃ b, i ≤ b ∧ b < i + n ∧ b < FSSIZE ∧
        ∃ j < BSIZE, a = ktype.disk + BitVec.ofNat 64 (BSIZE * b + j) := by
  induction n generalizing i mem with
  | zero =>
    simp only [List.range'_zero, copyBlocks, Traced.pure_trace, List.not_mem_nil, false_iff]
    rintro ⟨b, h₁, h₂, _⟩
    omega
  | succ n ih =>
    rw [List.range'_succ, copyBlocks, Traced.mem_bind_trace, copyBlock_trace]
    constructor
    · rintro (⟨hi, hj⟩ | ⟨mem₁, _, h⟩)
      · exact ⟨i, Nat.le_refl i, by omega, hi, hj⟩
      · obtain ⟨b, h₁, h₂, h₃⟩ := ih.mp h
        exact ⟨b, by omega, by omega, h₃⟩
    · rintro ⟨b, h₁, h₂, h₃, h₄⟩
      by_cases hb : b = i
      · subst hb
        exact Or.inl ⟨h₃, h₄⟩
      · right
        exact ⟨_, copyBlock_value (by omega), ih.mpr ⟨b, by omega, by omega, h₃, h₄⟩⟩

end Copy

section Loaders

variable {before : Memory}

theorem copyBlocks_ends {ktype : Kernel} {loadAddr : Addr} {is : List ℕ} {mem : Memory}
    (h : ∀ i ∈ is, i < FSSIZE) : ∃ mem', (copyBlocks ktype loadAddr is mem).value = some mem' := by
  induction is generalizing mem with
  | nil => exact ⟨mem, rfl⟩
  | cons i is ih =>
    obtain ⟨mem', hmem'⟩ := @ih
      (storeBlock mem (loadAddr + BitVec.ofNat 64 (BSIZE * (i - blockToSkip)))
        fun j => mem (ktype.disk + BitVec.ofNat 64 (BSIZE * i + j)))
      (fun i' hi' => h i' (List.mem_cons_of_mem _ hi'))
    refine ⟨mem', ?_⟩
    rw [copyBlocks, Traced.bind_value_of_some (copyBlock_value (h i List.mem_cons_self))]
    exact hmem'

theorem setupRecoveryKernel_eq : (setupRecoveryKernel before).value =
    (copyBlocks .recovery (imageLoadAddr before RECOVERYDISK)
      (blocks (imageSize before RECOVERYDISK)) before).value.map
        fun m => (m, imageEntry m RECOVERYDISK) := by
  rw [setupRecoveryKernel, Traced.bind_value_of_some (findKernelLoadAddr_value before .recovery)]
  simp only [disk_recovery, Traced.bind_value, findKernelSize_value, Option.bind_some,
    findKernelEntryAddr_value, Traced.pure_value]
  rw [Option.map_eq_bind]
  rfl

theorem loadNormal_eq {elfhdr loadAddr : Addr} : (loadNormal elfhdr loadAddr before).value =
    (copyBlocks .normal loadAddr (blocks (imageSize before elfhdr)) before).value.map
      fun m => (m, imageEntry m elfhdr) := by
  simp only [loadNormal, Traced.bind_value, findKernelSize_value, Option.bind_some,
    findKernelEntryAddr_value, Traced.pure_value]
  rw [Option.map_eq_bind]
  rfl

theorem start_measured {L : Loader} {trusted observed : List Byte} {fuel : ℕ} {mem : Memory}
    {found : Addr × Addr} (h : (measure fuel mem).value = some (found, observed)) :
    (start L trusted fuel mem).value =
      (if observed = trusted then
          loadNormal found.1 found.2 (storeMeasurements mem trusted observed)
        else setupRecoveryKernel (storeMeasurements mem trusted observed)).value.map fun p =>
        ⟨p.1, storeBytes p.1 SYS_INFO (systemInformation L), p.2, observed, trusted⟩ := by
  rw [start, Traced.bind_value_of_some h, Option.map_eq_bind]
  by_cases hpass : observed = trusted
  · simp only [hpass, ↓reduceIte, Traced.bind_value]
    rfl
  · simp only [hpass, ↓reduceIte, Traced.bind_value]
    rfl

end Loaders

section Table

variable {mem : Memory} {dst a : Addr} {bytes expected observed : List Byte}

theorem storeBytes_far (h : bytes.length ≤ (a - dst).toNat) :
    storeBytes mem dst bytes a = mem a := if_neg (Nat.not_lt.mpr h)

theorem storeMeasurements_far (ha : RAMDISK.toNat ≤ a.toNat) :
    storeMeasurements mem expected observed a = mem a := by
  have hlen : ∀ bytes : List Byte, (bytes.take 32).length ≤ 32 := fun bytes => by
    rw [List.length_take]
    exact Nat.min_le_left _ _
  rw [RAMDISK_toNat] at ha
  have hfar₁ : 32 ≤ (a - (SYS_INFO + 32)).toNat := by
    simp only [SYS_INFO]
    bv_omega
  have hfar₂ : 32 ≤ (a - (SYS_INFO + 64)).toNat := by
    simp only [SYS_INFO]
    bv_omega
  rw [storeMeasurements, storeBytes_far (Nat.le_trans (hlen _) hfar₁),
    storeBytes_far (Nat.le_trans (hlen _) hfar₂)]

theorem storeMeasurements_same (ktype : Kernel) {n : ℕ} (hn : n ≤ 2 ^ 63) :
    SameBytes mem (storeMeasurements mem expected observed) ktype.disk n := by
  intro j hj
  apply storeMeasurements_far
  cases ktype with
  | normal =>
    rw [disk_normal, offset_toNat (by rw [RAMDISK_toNat]; omega)]
    exact Nat.le_add_right _ _
  | recovery =>
    rw [disk_recovery, offset_toNat (by rw [RECOVERYDISK_toNat]; omega), RAMDISK_toNat,
      RECOVERYDISK_toNat]
    omega

end Table

end AdvancedOperatingSystems.SecureBoot
