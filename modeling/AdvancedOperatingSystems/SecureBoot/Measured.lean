import AdvancedOperatingSystems.SecureBoot.FailSafe

/-!
# What is loaded and what was measured

The measurement covers as many bytes as the header says; loading copies whole
blocks of 1024 bytes, to an address that stands where the header says. The two
agree when nothing is loaded at all, when loading stops at the end of the file
system, and when the size is a multiple of the block size and the address is
measured too. Elsewhere the tail of the last block is loaded unmeasured, or the
place of what is loaded is.
-/

namespace AdvancedOperatingSystems.SecureBoot

open Foundations

/-- The image passes `is_secure_boot`. -/
def Passes (trusted : List Byte) (mem : Memory) : Prop :=
  ∃ fuel found, (measure fuel mem).value = some (found, trusted)

def measuredSize (mem : Memory) : ℕ := (imageSize mem RAMDISK).toNat

def Measured (mem : Memory) (a : Addr) : Prop :=
  ∃ l < measuredSize mem, a = RAMDISK + BitVec.ofNat 64 l

/-- The load loop of `start`. -/
def loadLoop (mem : Memory) : Traced Addr Memory :=
  copyBlocks .normal (imageLoadAddr mem RAMDISK) (blocks (imageSize mem RAMDISK)) mem

/-- What is loaded is what was measured: every byte copied belongs to the measured
part, and the load area and its contents are determined by the measured part. -/
structure LoadsMeasured (L : Loader) (trusted : List Byte) (mem : Memory) : Prop where
  covered : ∀ a ∈ (loadLoop mem).trace, Measured mem a
  determined : ∀ mem', (∀ a, Measured mem a → mem' a = mem a) →
    ∀ fuel fuel' boot boot', (start L trusted fuel mem).value = some boot →
      (start L trusted fuel' mem').value = some boot' →
      ∀ l < loadedSize (imageSize mem RAMDISK),
        imageLoadAddr mem' RAMDISK = imageLoadAddr mem RAMDISK ∧
        boot'.mem (imageLoadAddr mem RAMDISK + BitVec.ofNat 64 l) =
          boot.mem (imageLoadAddr mem RAMDISK + BitVec.ofNat 64 l)

/-- Sizes for which no block is loaded beyond the measured bytes: a multiple of
the block size, at most the page that is skipped, or more than the file system. -/
def BlocksMeasured (n : ℕ) : Prop :=
  n % BSIZE = 0 ∨ n ≤ BSIZE * blockToSkip ∨ BSIZE * FSSIZE < n

/-- The field `vaddr` of the second program header belongs to the measured part. -/
def VaddrMeasured (mem : Memory) : Prop :=
  ∀ j < 8, Measured mem (vaddrField mem RAMDISK + BitVec.ofNat 64 j)

/-- Nothing is loaded, loading stops at the end of the file system, or whole blocks
are measured and the load address is. -/
def LoadMeasured (mem : Memory) : Prop :=
  measuredSize mem ≤ BSIZE * blockToSkip ∨ BSIZE * FSSIZE < measuredSize mem ∨
    measuredSize mem % BSIZE = 0 ∧ VaddrMeasured mem

theorem LoadMeasured.blocks {mem : Memory} (h : LoadMeasured mem) :
    BlocksMeasured (measuredSize mem) := by
  rcases h with hsmall | hlarge | ⟨hmod, -⟩
  · exact Or.inr (Or.inl hsmall)
  · exact Or.inr (Or.inr hlarge)
  · exact Or.inl hmod

section Covered

variable {trusted : List Byte} {mem : Memory}

def digest (mem : Memory) : List Byte :=
  sha256Final ((bytesFrom mem RAMDISK 0 (measuredSize mem)).foldl absorb sha256Init)

theorem measure_eq_some {fuel : ℕ} {found : Addr × Addr} {observed : List Byte}
    (h : (measure fuel mem).value = some (found, observed)) :
    found = (RAMDISK, imageLoadAddr mem RAMDISK) ∧ measuredSize mem < 2 ^ 32 ∧
      observed = digest mem := by
  rw [measure_value, Option.map_eq_some_iff] at h
  obtain ⟨ctx, hctx, hpair⟩ := h
  obtain ⟨hlt, rfl⟩ := sha256Update_eq_some hctx
  obtain ⟨rfl, rfl⟩ := Prod.mk.inj hpair
  exact ⟨rfl, hlt, rfl⟩

theorem measure_fuel {fuel : ℕ} {r : (Addr × Addr) × List Byte}
    (h : (measure fuel mem).value = some r) : measuredSize mem < fuel := by
  obtain ⟨-, hlt, -⟩ := measure_eq_some h
  rw [measure_value, sha256Update_value hlt (Nat.zero_le _)] at h
  by_contra hfuel
  have hno : ¬ (imageSize mem RAMDISK).toNat - (0 : Word).toNat < fuel := hfuel
  rw [if_neg hno] at h
  cases h

theorem passes_digest (h : measuredSize mem < 2 ^ 32) : Passes (digest mem) mem := by
  refine ⟨measuredSize mem + 1, (RAMDISK, imageLoadAddr mem RAMDISK), ?_⟩
  rw [measure_value, measuredSize, sha256Update_total h]
  rfl

theorem Passes.spec (h : Passes trusted mem) :
    measuredSize mem < 2 ^ 32 ∧ digest mem = trusted := by
  obtain ⟨fuel, found, hvalue⟩ := h
  obtain ⟨_, hlt, heq⟩ := measure_eq_some hvalue
  exact ⟨hlt, heq.symm⟩

theorem covered_iff (h : measuredSize mem < 2 ^ 32) :
    (∀ a ∈ (loadLoop mem).trace, Measured mem a) ↔ BlocksMeasured (measuredSize mem) := by
  have hnum : (blockNum (imageSize mem RAMDISK)).toNat = (measuredSize mem + 1023) / 1024 :=
    blockNum_eq h
  simp only [loadLoop, blocks, hnum, mem_copyBlocks_trace, BlocksMeasured, disk_normal]
  simp only [blockToSkip, FSSIZE, BSIZE]
  constructor
  · intro hall
    by_contra hno
    simp only [not_or] at hno
    -- the last byte of the last block
    obtain ⟨l, hl, haddr⟩ := hall
      (RAMDISK + BitVec.ofNat 64 (1024 * (measuredSize mem / 1024) + 1023))
      ⟨measuredSize mem / 1024, by omega, by omega, by omega, 1023, by omega, rfl⟩
    have heq := offset_inj (by omega) (by omega) haddr
    omega
  · rintro hn a ⟨b, hb, hlt, hfs, j, hj, rfl⟩
    exact ⟨1024 * b + j, by omega, rfl⟩

end Covered

section Determined

/-- Copying the same blocks keeps two memories in agreement, and makes them agree
on the blocks written, as long as they agree on the blocks read. -/
theorem copyBlocks_agree {loadAddr : Addr} {is : List ℕ} {S : Addr → Prop}
    {mem mem' out out' : Memory}
    (hS : ∀ i ∈ is, i < FSSIZE → ∀ j < BSIZE, S (RAMDISK + BitVec.ofNat 64 (BSIZE * i + j)))
    (hagree : ∀ a, S a → mem' a = mem a)
    (hout : (copyBlocks .normal loadAddr is mem).value = some out)
    (hout' : (copyBlocks .normal loadAddr is mem').value = some out') :
    ∀ a, (S a ∨ ∃ i ∈ is, ∃ j < BSIZE,
        a = loadAddr + BitVec.ofNat 64 (BSIZE * (i - blockToSkip)) + BitVec.ofNat 64 j) →
      out' a = out a := by
  induction is generalizing S mem mem' with
  | nil =>
    rintro a (ha | ⟨i, hi, _⟩)
    · cases hout
      cases hout'
      exact hagree a ha
    · cases hi
  | cons i is ih =>
    obtain ⟨mem₁, h₁, hout⟩ := Traced.bind_value_eq_some.mp hout
    obtain ⟨mem₁', h₁', hout'⟩ := Traced.bind_value_eq_some.mp hout'
    by_cases hi : i < FSSIZE
    · rw [copyBlock_value hi] at h₁ h₁'
      simp only [disk_normal, Option.some.injEq] at h₁ h₁'
      -- agreement on the memory written so far, with this block added
      have hstep : ∀ a, (S a ∨ ∃ j < BSIZE,
          a = loadAddr + BitVec.ofNat 64 (BSIZE * (i - blockToSkip)) + BitVec.ofNat 64 j) →
          mem₁' a = mem₁ a := by
        intro a ha
        rw [← h₁, ← h₁']
        by_cases hblock : ∃ j < BSIZE,
            a = loadAddr + BitVec.ofNat 64 (BSIZE * (i - blockToSkip)) + BitVec.ofNat 64 j
        · obtain ⟨j, hj, rfl⟩ := hblock
          rw [storeBlock_hit hj, storeBlock_hit hj]
          exact hagree _ (hS i List.mem_cons_self hi j hj)
        · have hmiss : ∀ j < BSIZE, a ≠ loadAddr + BitVec.ofNat 64 (BSIZE * (i - blockToSkip)) +
              BitVec.ofNat 64 j := fun j hj h => hblock ⟨j, hj, h⟩
          rw [storeBlock_miss hmiss, storeBlock_miss hmiss]
          exact hagree a (ha.resolve_right hblock)
      intro a ha
      refine ih (fun i' hi' hfs j hj => Or.inl (hS i' (List.mem_cons_of_mem _ hi') hfs j hj))
        hstep hout hout' a ?_
      rcases ha with ha | ⟨i', hi', j, hj, rfl⟩
      · exact Or.inl (Or.inl ha)
      · rcases List.mem_cons.mp hi' with rfl | hi'
        · exact Or.inl (Or.inr ⟨j, hj, rfl⟩)
        · exact Or.inr ⟨i', hi', j, hj, rfl⟩
    · rw [copyBlock_diverges (by omega)] at h₁
      cases h₁

variable {L : Loader} {trusted : List Byte} {mem mem' : Memory}

theorem Measured.stored {a : Addr} (ha : Measured mem a) (hlt : measuredSize mem < 2 ^ 32)
    (expected observed : List Byte) (before : Memory) :
    storeMeasurements before expected observed a = before a := by
  obtain ⟨l, hl, rfl⟩ := ha
  apply storeMeasurements_far
  rw [offset_toNat (by rw [RAMDISK_toNat]; omega)]
  exact Nat.le_add_right _ _

/-- What `start` leaves when the digest is the trusted one. -/
theorem start_normal_iff (h : digest mem = trusted) {boot : Boot} :
    (∃ fuel, (start L trusted fuel mem).value = some boot) ↔
      measuredSize mem < 2 ^ 32 ∧ ∃ m,
        (copyBlocks .normal (imageLoadAddr mem RAMDISK) (blocks (imageSize mem RAMDISK))
          (storeMeasurements mem trusted trusted)).value = some m ∧
        boot = ⟨m, storeBytes m SYS_INFO (systemInformation L), imageEntry m RAMDISK, trusted,
          trusted⟩ := by
  have hsame : SameBytes mem (storeMeasurements mem trusted trusted) RAMDISK 62 :=
    storeMeasurements_same .normal (by omega)
  have hsize := hsame.imageSize_eq (Nat.le_refl _)
  constructor
  · rintro ⟨fuel, hboot⟩
    obtain ⟨⟨found, observed⟩, hmeasure, -⟩ := Traced.bind_value_eq_some.mp hboot
    obtain ⟨rfl, hlt, rfl⟩ := measure_eq_some hmeasure
    rw [start_measured hmeasure, h, if_pos rfl, loadNormal_eq, hsize, Option.map_map] at hboot
    obtain ⟨m, hcopy, hmem⟩ := Option.map_eq_some_iff.mp hboot
    exact ⟨hlt, m, hcopy, hmem.symm⟩
  · rintro ⟨hlt, m, hcopy, rfl⟩
    obtain ⟨fuel, found, hmeasure⟩ := passes_digest hlt
    obtain ⟨rfl, -, -⟩ := measure_eq_some hmeasure
    refine ⟨fuel, ?_⟩
    rw [start_measured hmeasure, h, if_pos rfl, loadNormal_eq, hsize, hcopy]
    rfl

theorem start_ends (h : digest mem = trusted) (hsize : measuredSize mem ≤ BSIZE * FSSIZE) :
    ∃ fuel boot, (start L trusted fuel mem).value = some boot := by
  simp only [BSIZE, FSSIZE] at hsize
  have hnum : (blockNum (imageSize mem RAMDISK)).toNat = (measuredSize mem + 1023) / 1024 :=
    blockNum_eq (by change measuredSize mem < _; omega)
  obtain ⟨m, hcopy⟩ := @copyBlocks_ends .normal (imageLoadAddr mem RAMDISK)
    (blocks (imageSize mem RAMDISK)) (storeMeasurements mem trusted trusted) fun i hi => by
      rw [blocks, hnum, List.mem_range'_1] at hi
      simp only [FSSIZE, blockToSkip] at *
      omega
  obtain ⟨fuel, hvalue⟩ := (start_normal_iff h).mpr ⟨by omega, m, hcopy, rfl⟩
  exact ⟨fuel, _, hvalue⟩

theorem header_measured (hlarge : BSIZE * blockToSkip < measuredSize mem)
    (hagree : ∀ a, Measured mem a → mem' a = mem a) : SameBytes mem mem' RAMDISK 4096 := by
  simp only [BSIZE, blockToSkip] at hlarge
  exact fun j hj => hagree _ ⟨j, by omega, rfl⟩

theorem copyBlocks_bounded {ktype : Kernel} {loadAddr : Addr} {is : List ℕ} {out : Memory}
    (h : (copyBlocks ktype loadAddr is mem).value = some out) : ∀ i ∈ is, i < FSSIZE := by
  induction is generalizing mem with
  | nil => exact fun i hi => absurd hi List.not_mem_nil
  | cons i is ih =>
    obtain ⟨mem₁, hblock, hrest⟩ := Traced.bind_value_eq_some.mp h
    have hi : i < FSSIZE := by
      by_contra hge
      rw [copyBlock_diverges (by omega)] at hblock
      cases hblock
    intro i' hi'
    rcases List.mem_cons.mp hi' with rfl | hi'
    · exact hi
    · exact ih hrest i' hi'

theorem digest_congr (hsize : imageSize mem' RAMDISK = imageSize mem RAMDISK)
    (hagree : ∀ a, Measured mem a → mem' a = mem a) : digest mem' = digest mem := by
  have hbytes : bytesFrom mem' RAMDISK 0 (measuredSize mem) =
      bytesFrom mem RAMDISK 0 (measuredSize mem) := by
    refine List.map_congr_left fun l hl => hagree _ ⟨l, ?_, rfl⟩
    rw [List.mem_range'_1] at hl
    omega
  rw [digest, digest, measuredSize, hsize]
  exact congrArg _ (congrArg _ hbytes)

/-- Where the blocks loaded and the load address are measured, two images that agree
on the measured bytes leave the same contents in the same place. -/
theorem loadArea_determined (h : Passes trusted mem) (hn : LoadMeasured mem)
    (hagree : ∀ a, Measured mem a → mem' a = mem a) {fuel fuel' : ℕ}
    {boot boot' : Boot} (hboot : (start L trusted fuel mem).value = some boot)
    (hboot' : (start L trusted fuel' mem').value = some boot') {l : ℕ}
    (hl : l < loadedSize (imageSize mem RAMDISK)) :
    imageLoadAddr mem' RAMDISK = imageLoadAddr mem RAMDISK ∧
      boot'.mem (imageLoadAddr mem RAMDISK + BitVec.ofNat 64 l) =
        boot.mem (imageLoadAddr mem RAMDISK + BitVec.ofNat 64 l) := by
  obtain ⟨hlt, hdigest⟩ := h.spec
  have hnum : (blockNum (imageSize mem RAMDISK)).toNat = (measuredSize mem + 1023) / 1024 :=
    blockNum_eq hlt
  have hblocks := hn.blocks
  simp only [loadedSize, hnum, BSIZE, blockToSkip] at hl
  have hlarge : BSIZE * blockToSkip < measuredSize mem := by
    simp only [BSIZE, blockToSkip]
    omega
  have hheader := header_measured hlarge hagree
  have hsize := hheader.imageSize_eq (by omega)
  obtain ⟨-, out, hout, rfl⟩ := (start_normal_iff hdigest).mp ⟨fuel, hboot⟩
  obtain ⟨-, out', hout', rfl⟩ :=
    (start_normal_iff ((digest_congr hsize hagree).trans hdigest)).mp ⟨fuel', hboot'⟩
  -- more blocks than the file system has are not copied at all
  have hmeasured : measuredSize mem % BSIZE = 0 ∧ VaddrMeasured mem := by
    refine (hn.resolve_left (Nat.not_le.mpr hlarge)).resolve_left fun hover => ?_
    obtain ⟨i, hi, hfs⟩ : ∃ i ∈ blocks (imageSize mem RAMDISK), FSSIZE ≤ i := by
      refine ⟨FSSIZE, ?_, Nat.le_refl _⟩
      rw [blocks, hnum, List.mem_range'_1]
      simp only [BSIZE, blockToSkip, FSSIZE] at *
      omega
    exact Nat.not_lt.mpr hfs (copyBlocks_bounded hout i hi)
  have haddr : imageLoadAddr mem' RAMDISK = imageLoadAddr mem RAMDISK := by
    rw [imageLoadAddr, imageLoadAddr, hheader.vaddrField_eq (by omega)]
    exact congrArg _ (wordAt_congr fun j hj => hagree _ (hmeasured.2 j hj))
  rw [hsize, haddr] at hout'
  have hstored : ∀ a, Measured mem a → storeMeasurements mem' trusted trusted a =
      storeMeasurements mem trusted trusted a := fun a ha => by
    rw [ha.stored hlt, ha.stored hlt, hagree a ha]
  have hcopied := copyBlocks_agree (fun i hi hfs j hj => ⟨BSIZE * i + j, ?_, rfl⟩) hstored
    hout hout' (imageLoadAddr mem RAMDISK + BitVec.ofNat 64 l) (Or.inr
      ⟨blockToSkip + l / BSIZE, ?_, l % BSIZE, Nat.mod_lt _ (by decide), ?_⟩)
  · refine ⟨haddr, ?_⟩
    change storeBytes out' _ _ _ = storeBytes out _ _ _
    unfold storeBytes
    rw [hcopied]
  · rw [blocks, hnum, List.mem_range'_1] at hi
    simp only [BlocksMeasured, BSIZE, blockToSkip, FSSIZE] at *
    omega
  · rw [blocks, hnum, List.mem_range'_1]
    simp only [BSIZE, blockToSkip]
    omega
  · rw [Nat.add_sub_cancel_left, BitVec.add_assoc, ← BitVec.ofNat_add, Nat.div_add_mod]

/-- A load address with an unmeasured byte may be any other. -/
theorem vaddr_measured (h : Passes trusted mem)
    (hlarge : BSIZE * blockToSkip < measuredSize mem) (hfits : measuredSize mem ≤ BSIZE * FSSIZE)
    (hloads : LoadsMeasured L trusted mem) : VaddrMeasured mem := by
  obtain ⟨hlt, hdigest⟩ := h.spec
  intro j hj
  by_contra hno
  -- another value of that byte
  obtain ⟨mem', hmem'⟩ : ∃ mem', mem' = Function.update mem
      (vaddrField mem RAMDISK + BitVec.ofNat 64 j)
      (mem (vaddrField mem RAMDISK + BitVec.ofNat 64 j) + 1) := ⟨_, rfl⟩
  have hagree : ∀ a, Measured mem a → mem' a = mem a := by
    intro a ha
    rw [hmem', Function.update_of_ne]
    rintro rfl
    exact hno ha
  have hheader := header_measured hlarge hagree
  have hsize := hheader.imageSize_eq (by omega)
  obtain ⟨fuel, boot, hboot⟩ := @start_ends L trusted mem hdigest hfits
  obtain ⟨fuel', boot', hboot'⟩ := @start_ends L trusted mem'
    ((digest_congr hsize hagree).trans hdigest) (by rwa [measuredSize, hsize])
  have hnum : (blockNum (imageSize mem RAMDISK)).toNat = (measuredSize mem + 1023) / 1024 :=
    blockNum_eq hlt
  have haddr := (hloads.determined mem' hagree fuel fuel' boot boot' hboot hboot' 0 (by
    rw [loadedSize, hnum]
    simp only [BSIZE, blockToSkip] at *
    omega)).1
  rw [imageLoadAddr, imageLoadAddr, hheader.vaddrField_eq (by omega)] at haddr
  have hword := congrArg BitVec.toNat haddr
  have hword₁ : wordAt mem' (vaddrField mem RAMDISK) 8 < 2 ^ 64 := wordAt_lt _ _ 8
  have hword₂ : wordAt mem (vaddrField mem RAMDISK) 8 < 2 ^ 64 := wordAt_lt _ _ 8
  rw [BitVec.toNat_ofNat, BitVec.toNat_ofNat, Nat.mod_eq_of_lt hword₁,
    Nat.mod_eq_of_lt hword₂] at hword
  have hbyte := wordAt_inj hword j hj
  rw [hmem', Function.update_self] at hbyte
  have hone : (mem (vaddrField mem RAMDISK + BitVec.ofNat 64 j) + 1).toNat = _ :=
    congrArg BitVec.toNat hbyte
  rw [BitVec.toNat_add] at hone
  change (_ + 1) % 256 = _ at hone
  omega

end Determined

/-- For an image that passes, what is loaded is what was measured if and only if
no block is loaded beyond the measured bytes, and to no unmeasured address. -/
theorem loadsMeasured_iff {L : Loader} {trusted : List Byte} {mem : Memory}
    (h : Passes trusted mem) : LoadsMeasured L trusted mem ↔ LoadMeasured mem := by
  constructor
  · intro hloads
    have hblocks := (covered_iff h.spec.1).mp hloads.covered
    by_cases hsmall : measuredSize mem ≤ BSIZE * blockToSkip
    · exact Or.inl hsmall
    by_cases hlarge : BSIZE * FSSIZE < measuredSize mem
    · exact Or.inr (Or.inl hlarge)
    exact Or.inr (Or.inr ⟨(hblocks.resolve_right (not_or.mpr ⟨hsmall, hlarge⟩)),
      vaddr_measured h (Nat.not_le.mp hsmall) (Nat.not_lt.mp hlarge) hloads⟩)
  · intro hn
    exact ⟨(covered_iff h.spec.1).mpr hn.blocks, fun _ hagree _ _ _ _ hboot hboot' _ hl =>
      loadArea_determined h hn hagree hboot hboot' hl⟩

theorem measuredSize_sample : measuredSize (sampleMemory 5000) = 5000 := by decide

theorem sample_loadsMeasured_iff :
    LoadsMeasured sampleLoader (digest (sampleMemory 5000)) (sampleMemory 5000) ↔
      LoadMeasured (sampleMemory 5000) :=
  loadsMeasured_iff (passes_digest (by rw [measuredSize_sample]; decide))

/-- An image of 5000 bytes passes, and 120 bytes beyond the measured ones are loaded. -/
theorem unmeasured_tail_loaded :
    Passes (digest (sampleMemory 5000)) (sampleMemory 5000) ∧
      ¬ LoadsMeasured sampleLoader (digest (sampleMemory 5000)) (sampleMemory 5000) := by
  have hlt : measuredSize (sampleMemory 5000) < 2 ^ 32 := by
    rw [measuredSize_sample]
    decide
  refine ⟨passes_digest hlt, fun hloads => ?_⟩
  have hn := (covered_iff hlt).mp hloads.covered
  rw [measuredSize_sample] at hn
  exact absurd hn (by simp only [BlocksMeasured, BSIZE, blockToSkip, FSSIZE]; omega)

end AdvancedOperatingSystems.SecureBoot
