import AdvancedOperatingSystems.SecureBoot.Start

/-!
# Booting with an arbitrary normal image

Before the measurement is compared, the loader follows offsets and sizes of the
header it has yet to verify. The verification stays within the area of the
normal image, ends, and falls back to the recovery kernel exactly when those
offsets and sizes stay within that area.
-/

namespace AdvancedOperatingSystems.SecureBoot

open Foundations

def InImage (a : Addr) : Prop := RAMDISK ≤ a ∧ a < RECOVERYDISK

def loadedSize (size : BitVec 64) : ℕ := BSIZE * ((blockNum size).toNat - blockToSkip)

/-- The recovery image, its second program header included, fits the file system.
Its load area is apart from it, in RAM and not over the loader. -/
structure WellFormedRecovery (L : Loader) (mem : Memory) : Prop where
  size_le : (imageSize mem RECOVERYDISK).toNat ≤ BSIZE * FSSIZE
  phdr : phdrOffset mem RECOVERYDISK + 56 ≤ BSIZE * FSSIZE
  apart : ∀ l < loadedSize (imageSize mem RECOVERYDISK), ∀ j < BSIZE * FSSIZE,
    imageLoadAddr mem RECOVERYDISK + BitVec.ofNat 64 l ≠ RECOVERYDISK + BitVec.ofNat 64 j
  free : ∀ l < loadedSize (imageSize mem RECOVERYDISK),
    L.Free (imageLoadAddr mem RECOVERYDISK + BitVec.ofNat 64 l)

/-- The recovery image of `mem`, but for its first page, lies at its load address in `mem'`. -/
def RecoveryLoaded (mem mem' : Memory) : Prop :=
  ∀ l < loadedSize (imageSize mem RECOVERYDISK),
    mem' (imageLoadAddr mem RECOVERYDISK + BitVec.ofNat 64 l) =
      mem (RECOVERYDISK + BitVec.ofNat 64 (BSIZE * blockToSkip + l))

/-- The boot is fail-safe: all that is read before the comparison belongs to the
image area, the comparison is reached, and a wrong measurement leads to the
recovery kernel. -/
structure FailSafe (L : Loader) (trusted : List Byte) (mem : Memory) : Prop where
  reads : ∀ fuel, ∀ a ∈ (measure fuel mem).trace, InImage a
  ends : ∃ fuel, (measure fuel mem).value.isSome
  recovery : ∀ fuel found observed, (measure fuel mem).value = some (found, observed) →
    observed ≠ trusted →
    ∃ boot, (start L trusted fuel mem).value = some boot ∧
      boot.mepc = imageEntry mem RECOVERYDISK ∧ RecoveryLoaded mem boot.copied

/-- The header stays within the area of the image: the field `vaddr` of the second
program header lies in it, and the size it gives does not exceed it. -/
structure HeaderInside (mem : Memory) : Prop where
  vaddr : RAMDISK ≤ vaddrField mem RAMDISK ∧
    (vaddrField mem RAMDISK).toNat + 8 ≤ RECOVERYDISK.toNat
  size : (imageSize mem RAMDISK).toNat ≤ RECOVERYDISK.toNat - RAMDISK.toNat

theorem blockNum_eq {size : BitVec 64} (h : size.toNat < 2 ^ 32) :
    (blockNum size).toNat = (size.toNat + 1023) / 1024 := by
  have hsum : (size + 1023).toNat = size.toNat + 1023 := offset_toNat (n := 1023) (by omega)
  have hquot : ((size + 1023) / 1024).toNat = (size.toNat + 1023) / 1024 := by
    rw [BitVec.toNat_udiv, hsum]
    rfl
  have hword : (((size + 1023) / 1024).setWidth 32).toNat = (size.toNat + 1023) / 1024 := by
    rw [BitVec.toNat_setWidth, hquot]
    exact Nat.mod_eq_of_lt (by omega)
  rw [blockNum, BitVec.toInt_eq_toNat_of_lt (by omega), Int.toNat_natCast, hword]

section Reads

variable {mem : Memory}

theorem measure_value (fuel : ℕ) (mem : Memory) :
    (measure fuel mem).value =
      (sha256Update mem RAMDISK (imageSize mem RAMDISK) fuel 0 sha256Init).value.map fun ctx =>
        ((RAMDISK, imageLoadAddr mem RAMDISK), sha256Final ctx) := by
  simp only [measure, observe, Traced.bind_value, findKernelLoadAddr_value, findKernelSize_value,
    Option.bind_some, Traced.pure_value, disk_normal]
  cases (sha256Update mem RAMDISK (imageSize mem RAMDISK) fuel 0 sha256Init).value <;> rfl

theorem mem_measure_trace {fuel : ℕ} {a : Addr} :
    a ∈ (measure fuel mem).trace ↔
      a ∈ (findKernelLoadAddr mem .normal).trace ∨ a ∈ (findKernelSize mem RAMDISK).trace ∨
        a ∈ (sha256Update mem RAMDISK (imageSize mem RAMDISK) fuel 0 sha256Init).trace := by
  simp only [measure, observe, Traced.mem_bind_trace, findKernelLoadAddr_value,
    findKernelSize_value, Option.some.injEq, exists_eq_left', Traced.pure_trace,
    List.not_mem_nil, and_false, exists_false, or_false]
  rfl

/-- What the measurement reads lies between `lo` and `hi` if the fields of the header do. -/
theorem measure_within {lo hi fuel : ℕ} (hlo : lo ≤ RAMDISK.toNat) (hhi : RAMDISK.toNat + 62 ≤ hi)
    (htop : hi ≤ 2 ^ 33) (hv : lo ≤ (vaddrField mem RAMDISK).toNat)
    (hv' : (vaddrField mem RAMDISK).toNat + 8 ≤ hi)
    (hsize : RAMDISK.toNat + (imageSize mem RAMDISK).toNat ≤ hi) {a : Addr}
    (ha : a ∈ (measure fuel mem).trace) : lo ≤ a.toNat ∧ a.toNat < hi := by
  rw [RAMDISK_toNat] at hlo hhi hsize
  have hfield : ∀ c j, c + j < 62 →
      lo ≤ (RAMDISK + BitVec.ofNat 64 c + BitVec.ofNat 64 j).toNat ∧
        (RAMDISK + BitVec.ofNat 64 c + BitVec.ofNat 64 j).toNat < hi := by
    intro c j h
    rw [BitVec.add_assoc, ← BitVec.ofNat_add, offset_toNat (by rw [RAMDISK_toNat]; omega),
      RAMDISK_toNat]
    omega
  rcases mem_measure_trace.mp ha with ha | ha | ha
  · rcases mem_findKernelLoadAddr_trace.mp ha with ⟨j, hj, rfl⟩ | ⟨j, hj, rfl⟩ | ⟨j, hj, rfl⟩
    · exact hfield 32 j (by omega)
    · exact hfield 54 j (by omega)
    · rw [disk_normal, offset_toNat (by omega)]
      omega
  · rcases mem_findKernelSize_trace.mp ha with ⟨j, hj, rfl⟩ | ⟨j, hj, rfl⟩ | ⟨j, hj, rfl⟩
    · exact hfield 40 j (by omega)
    · exact hfield 58 j (by omega)
    · exact hfield 60 j (by omega)
  · obtain ⟨j, hj, rfl⟩ := mem_sha256Update_trace ha
    rw [BitVec.lt_def, BitVec.toNat_setWidth, Nat.mod_eq_of_lt (by omega)] at hj
    rw [← BitVec.ofNat_toNat, offset_toNat (by rw [RAMDISK_toNat]; omega), RAMDISK_toNat]
    omega

/-- Conversely the fields of the header lie there if the measurement reads nothing else and has
the fuel to read beyond `hi`. -/
theorem within_of_reads {lo hi fuel : ℕ} (hhi : RAMDISK.toNat ≤ hi) (htop : hi ≤ 2 ^ 32)
    (hfuel : hi - RAMDISK.toNat < fuel ∨ (imageSize mem RAMDISK).toNat < fuel)
    (h : ∀ a ∈ (measure fuel mem).trace, lo ≤ a.toNat ∧ a.toNat < hi) :
    (lo ≤ (vaddrField mem RAMDISK).toNat ∧ (vaddrField mem RAMDISK).toNat + 8 ≤ hi) ∧
      RAMDISK.toNat + (imageSize mem RAMDISK).toNat ≤ hi := by
  have hfield : ∀ j < 8, vaddrField mem RAMDISK + BitVec.ofNat 64 j ∈ (measure fuel mem).trace :=
    fun j hj => mem_measure_trace.mpr (Or.inl (mem_findKernelLoadAddr_trace.mpr
      (Or.inr (Or.inr ⟨j, hj, rfl⟩))))
  have hfirst := h _ (hfield 0 (by omega))
  have hlast := (h _ (hfield 7 (by omega))).2
  simp only [BitVec.add_zero] at hfirst
  rw [offset_toNat (by omega)] at hlast
  refine ⟨⟨hfirst.1, by omega⟩, ?_⟩
  by_contra hsize
  have hram := RAMDISK_toNat
  -- the byte at `hi` is hashed as well
  have hread : RAMDISK + BitVec.ofNat 64 ((0 : Word).toNat + (hi - RAMDISK.toNat)) ∈
      (sha256Update mem RAMDISK (imageSize mem RAMDISK) fuel 0 sha256Init).trace :=
    sha256Update_reads (by omega) (by change 0 + _ < _; omega) (by change 0 + _ < _; omega)
  have hbyte := (h _ (mem_measure_trace.mpr (Or.inr (Or.inr hread)))).2
  rw [offset_toNat (by change _ + (0 + _) < _; omega)] at hbyte
  change _ + (0 + _) < _ at hbyte
  omega

theorem measure_reads_iff :
    (∀ fuel, ∀ a ∈ (measure fuel mem).trace, InImage a) ↔ HeaderInside mem := by
  simp only [InImage, BitVec.le_def, BitVec.lt_def]
  constructor
  · intro h
    obtain ⟨hv, hsize⟩ := within_of_reads (by decide) (by decide)
      (Or.inl (Nat.lt_succ_self (RECOVERYDISK.toNat - RAMDISK.toNat))) (h _)
    exact ⟨⟨BitVec.le_def.mpr hv.1, hv.2⟩, by omega⟩
  · intro h fuel a ha
    have hsize := h.size
    rw [RECOVERYDISK_toNat, RAMDISK_toNat] at hsize
    exact measure_within (Nat.le_refl _) (by decide) (by decide) (BitVec.le_def.mp h.vaddr.1)
      h.vaddr.2 (by rw [RECOVERYDISK_toNat, RAMDISK_toNat]; omega) ha

theorem measure_ends (h : HeaderInside mem) : ∃ fuel, (measure fuel mem).value.isSome := by
  have hsize := h.size
  rw [RECOVERYDISK_toNat, RAMDISK_toNat] at hsize
  refine ⟨(imageSize mem RAMDISK).toNat + 1, ?_⟩
  rw [measure_value, Option.isSome_map, sha256Update_total (by omega)]
  rfl

end Reads

section Recovery

variable {L : Loader} {mem before : Memory}

/-- `setup_recovery_kernel` on a well-formed recovery image. -/
theorem setupRecoveryKernel_value (h : WellFormedRecovery L mem) :
    ∃ mem', (setupRecoveryKernel mem).value = some (mem', imageEntry mem RECOVERYDISK) ∧
      RecoveryLoaded mem mem' := by
  have hsize := h.size_le
  simp only [BSIZE, FSSIZE] at hsize
  have hnum : (blockNum (imageSize mem RECOVERYDISK)).toNat = _ := blockNum_eq (by omega)
  have hapart : ∀ l < loadedSize (imageSize mem RECOVERYDISK), ∀ j < BSIZE * FSSIZE,
    imageLoadAddr mem RECOVERYDISK + BitVec.ofNat 64 l ≠
      Kernel.recovery.disk + BitVec.ofNat 64 j := h.apart
  rw [loadedSize] at hapart
  obtain ⟨mem', hok, hhit, hmiss⟩ := @copyBlocks_value mem .recovery
    (imageLoadAddr mem RECOVERYDISK) 0 ((blockNum (imageSize mem RECOVERYDISK)).toNat - blockToSkip)
    (by simp only [blockToSkip, FSSIZE]; omega) (by simpa only [Nat.zero_add] using hapart)
  simp only [Nat.mul_zero, Nat.zero_add, Nat.zero_le, forall_const] at hhit hmiss
  -- the header of the recovery image is not in the load area
  have hkept : ∀ j < 8, mem' (RECOVERYDISK + 24 + BitVec.ofNat 64 j) =
      mem (RECOVERYDISK + 24 + BitVec.ofNat 64 j) := by
    intro j hj
    refine hmiss _ fun l hl h' => hapart l hl (24 + j) (by simp only [BSIZE, FSSIZE]; omega) ?_
    rw [← h', BitVec.ofNat_add, ← BitVec.add_assoc, disk_recovery]
    rfl
  have hentry : imageEntry mem' RECOVERYDISK = imageEntry mem RECOVERYDISK := by
    rw [imageEntry, imageEntry, wordAt_congr hkept]
  refine ⟨mem', ?_, hhit⟩
  have hcopy : (copyBlocks .recovery (imageLoadAddr mem RECOVERYDISK)
      (blocks (imageSize mem RECOVERYDISK)) mem).value = some mem' := hok
  rw [setupRecoveryKernel, Traced.bind_value_of_some (findKernelLoadAddr_value mem .recovery)]
  simp only [disk_recovery, Traced.bind_value, findKernelSize_value, Option.bind_some, hcopy,
    findKernelEntryAddr_value, hentry, Traced.pure_value]

theorem WellFormedRecovery.same (h : WellFormedRecovery L mem)
    (hsame : SameBytes mem before RECOVERYDISK (BSIZE * FSSIZE)) :
    imageSize before RECOVERYDISK = imageSize mem RECOVERYDISK ∧
      imageLoadAddr before RECOVERYDISK = imageLoadAddr mem RECOVERYDISK ∧
      imageEntry before RECOVERYDISK = imageEntry mem RECOVERYDISK := by
  have hphdr := h.phdr
  simp only [BSIZE, FSSIZE] at hphdr hsame
  have hentry : wordAt before (RECOVERYDISK + 24) 8 = wordAt mem (RECOVERYDISK + 24) 8 :=
    @SameBytes.word mem before RECOVERYDISK _ hsame 24 8 (by omega)
  refine ⟨hsame.imageSize_eq (by omega), hsame.loadAddr_eq (by omega) (by omega), ?_⟩
  rw [imageEntry, imageEntry, hentry]

theorem WellFormedRecovery.stored (h : WellFormedRecovery L mem)
    (hsame : SameBytes mem before RECOVERYDISK (BSIZE * FSSIZE)) : WellFormedRecovery L before := by
  obtain ⟨hsize, haddr, -⟩ := h.same hsame
  have hphdr : phdrOffset before RECOVERYDISK = phdrOffset mem RECOVERYDISK :=
    hsame.phdrOffset_eq (by simp only [BSIZE, FSSIZE]; omega)
  constructor
  · rw [hsize]
    exact h.size_le
  · rw [hphdr]
    exact h.phdr
  · rw [hsize, haddr]
    exact h.apart
  · rw [hsize, haddr]
    exact h.free

theorem RecoveryLoaded.stored (h : WellFormedRecovery L mem)
    (hsame : SameBytes mem before RECOVERYDISK (BSIZE * FSSIZE)) {mem' : Memory}
    (hloaded : RecoveryLoaded before mem') : RecoveryLoaded mem mem' := by
  obtain ⟨hsize, haddr, -⟩ := h.same hsame
  intro l hl
  have hbyte := hloaded l (by rwa [hsize])
  rw [haddr] at hbyte
  have hle := h.size_le
  simp only [BSIZE, FSSIZE] at hle
  rw [loadedSize, blockNum_eq (by omega)] at hl
  rw [hbyte]
  exact hsame _ (by simp only [BSIZE, FSSIZE, blockToSkip] at *; omega)

theorem start_recovery (h : WellFormedRecovery L mem) {trusted observed : List Byte} {fuel : ℕ}
    {found : Addr × Addr} (hmeasure : (measure fuel mem).value = some (found, observed))
    (hne : observed ≠ trusted) :
    ∃ boot, (start L trusted fuel mem).value = some boot ∧
      boot.mepc = imageEntry mem RECOVERYDISK ∧ RecoveryLoaded mem boot.copied := by
  have hsame : SameBytes mem (storeMeasurements mem trusted observed) RECOVERYDISK
      (BSIZE * FSSIZE) := storeMeasurements_same .recovery (by decide)
  obtain ⟨mem', hok, hloaded⟩ := setupRecoveryKernel_value (h.stored hsame)
  refine ⟨⟨mem', storeBytes mem' SYS_INFO (systemInformation L), imageEntry _ RECOVERYDISK,
    observed, trusted⟩, ?_, (h.same hsame).2.2, hloaded.stored h hsame⟩
  rw [start, Traced.bind_value_of_some hmeasure]
  simp only [hne, ↓reduceIte]
  rw [Traced.bind_value_of_some hok]
  rfl

end Recovery

/-- With a well-formed recovery image the boot is fail-safe if and only if the
header of the normal image stays within its area. -/
theorem boot_failSafe_iff {L : Loader} {mem : Memory} (h : WellFormedRecovery L mem)
    (trusted : List Byte) : FailSafe L trusted mem ↔ HeaderInside mem :=
  ⟨fun hsafe => measure_reads_iff.mp hsafe.reads, fun hinside =>
    ⟨measure_reads_iff.mpr hinside, measure_ends hinside,
      fun _ _ _ hmeasure hne => start_recovery h hmeasure hne⟩⟩

/-- Two images: the normal one gives `shoff`, all else in its header being zero; the
recovery one has two pages, its load address is `0x80100000` and its entry too. -/
def sampleMemory (shoff : BitVec 64) : Memory := fun a =>
  if 40 ≤ (a - RAMDISK).toNat ∧ (a - RAMDISK).toNat < 48 then
    (shoff >>> (8 * ((a - RAMDISK).toNat - 40))).setWidth 8
  else if a = RECOVERYDISK + 26 ∨ a = RECOVERYDISK + 138 then 0x10
  else if a = RECOVERYDISK + 27 ∨ a = RECOVERYDISK + 139 then 0x80
  else if a = RECOVERYDISK + 32 then 64
  else if a = RECOVERYDISK + 41 then 0x20
  else if a = RECOVERYDISK + 54 then 56
  else 0

def sampleLoader : Loader := ⟨0x80010000, 0, by decide⟩

theorem sampleMemory_wellFormed (shoff : BitVec 64) :
    WellFormedRecovery sampleLoader (sampleMemory shoff) := by
  have hsize : imageSize (sampleMemory shoff) RECOVERYDISK = 0x2000 := by
    simp [imageSize, wordAt, sampleMemory]
  have haddr : imageLoadAddr (sampleMemory shoff) RECOVERYDISK = 0x80100000 := by
    simp [imageLoadAddr, vaddrField, wordAt, sampleMemory]
  have hloaded : loadedSize 0x2000 = 4096 := by decide
  have hphdr : phdrOffset (sampleMemory shoff) RECOVERYDISK = 120 := by
    simp [phdrOffset, wordAt, sampleMemory]
  have harea : ∀ l < 4096, ((0x80100000 : Addr) + BitVec.ofNat 64 l).toNat = 0x80100000 + l :=
    fun l hl => offset_toNat (by change 0x80100000 + l < _; omega)
  refine ⟨by rw [hsize]; decide, by rw [hphdr]; decide, fun l hl j hj h => ?_, fun l hl => ?_⟩
  · rw [hsize, hloaded] at hl
    rw [haddr] at h
    have h' := congrArg BitVec.toNat h
    simp only [BSIZE, FSSIZE] at hj
    rw [harea l hl, offset_toNat (by rw [RECOVERYDISK_toNat]; omega), RECOVERYDISK_toNat] at h'
    omega
  · rw [hsize, hloaded] at hl
    rw [haddr, Loader.Free, harea l hl]
    change 0x80010000 ≤ 0x80100000 + l ∧ 0x80100000 + l < 0x88000000
    omega

/-- The case of a header with every field zero but `shoff`, which is `2^32`. -/
theorem sample_failSafe_iff :
    FailSafe sampleLoader [] (sampleMemory 0x100000000) ↔
      HeaderInside (sampleMemory 0x100000000) :=
  boot_failSafe_iff (sampleMemory_wellFormed _) []

/-- With such a header the hash loop never ends, although the recovery image is well-formed. -/
theorem large_shoff_not_failSafe :
    WellFormedRecovery sampleLoader (sampleMemory 0x100000000) ∧
      ¬ FailSafe sampleLoader [] (sampleMemory 0x100000000) := by
  refine ⟨sampleMemory_wellFormed _, fun hsafe => ?_⟩
  obtain ⟨fuel, h⟩ := hsafe.ends
  have hval : imageSize (sampleMemory 0x100000000) RAMDISK = 0x100000000 := by decide
  rw [measure_value, hval, sha256Update_diverges (by decide)] at h
  cases h

end AdvancedOperatingSystems.SecureBoot
