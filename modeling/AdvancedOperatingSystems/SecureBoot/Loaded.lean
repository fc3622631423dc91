import AdvancedOperatingSystems.SecureBoot.Measured

/-!
# The kernel that is loaded

The block loops copy what lies behind the first page of a file, whatever it is. The second program
header says how much of that is the segment and that zeros follow it. The load area may lie anywhere
in RAM behind the loader, also over the image it comes from, and it may reach the system information
table.
-/

namespace AdvancedOperatingSystems.SecureBoot

open Foundations

section Blocks

/-- When its block is copied, the source of byte `l` has been overwritten by byte `l - d`. -/
def Overwritten (d l : ℕ) : Prop := d ≤ l ∧ (l - d) / BSIZE < l / BSIZE

instance (d l : ℕ) : Decidable (Overwritten d l) := inferInstanceAs (Decidable (_ ∧ _))

theorem Overwritten.lt {d l : ℕ} (h : Overwritten d l) : l - d < l := by
  have hlt := h.2
  by_contra hge
  rw [Nat.le_antisymm (Nat.sub_le l d) (Nat.not_lt.mp hge)] at hlt
  exact Nat.lt_irrefl _ hlt

/-- Byte `l` of a load area that begins `d` bytes behind its source. -/
def landed (src : ℕ → Byte) (d l : ℕ) : Byte :=
  if _ : Overwritten d l then landed src d (l - d) else src l
termination_by l
decreasing_by exact Overwritten.lt ‹_›

/-- Memory after `n` blocks from `src` have been copied to `dst`. -/
def afterBlocks (mem : Memory) (src dst : Addr) (n : ℕ) : Memory := fun a =>
  if (a - dst).toNat < BSIZE * n then
    landed (fun l => mem (src + BitVec.ofNat 64 l)) (dst - src).toNat (a - dst).toNat
  else mem a

variable {src w : ℕ → Byte} {d l n : ℕ} {mem : Memory} {dst source : Addr}

theorem landed_overwritten (h : Overwritten d l) : landed src d l = landed src d (l - d) := by
  rw [landed, dif_pos h]

theorem landed_source (h : ¬ Overwritten d l) : landed src d l = src l := by
  rw [landed, dif_neg h]

/-- The right bytes have landed outside of `skip` if and only if each byte agrees with the one that
is copied there instead of it. -/
theorem landed_iff {skip : ℕ → Prop} (hskip : ∀ l < n, Overwritten d l → ¬ skip (l - d)) :
    (∀ l < n, ¬ skip l → landed src d l = w l) ↔
      (∀ l < n, ¬ skip l → ¬ Overwritten d l → src l = w l) ∧
      ∀ l < n, ¬ skip l → Overwritten d l → w (l - d) = w l := by
  constructor
  · intro h
    constructor
    · intro l hl hs ho
      rw [← h l hl hs, landed_source ho]
    · intro l hl hs ho
      have hback := h (l - d) (Nat.lt_trans ho.lt hl) (hskip l hl ho)
      rw [← h l hl hs, landed_overwritten ho, hback]
  · rintro ⟨hsource, hback⟩ l
    induction l using Nat.strongRecOn with
    | ind l ih =>
      intro hl hs
      by_cases ho : Overwritten d l
      · rw [landed_overwritten ho, ih (l - d) ho.lt (Nat.lt_trans ho.lt hl) (hskip l hl ho)]
        exact hback l hl hs ho
      · rw [landed_source ho]
        exact hsource l hl hs ho

theorem source_in_area (hn : BSIZE * (n + 1) ≤ 2 ^ 64) (hl : BSIZE * n ≤ l)
    (hl' : l < BSIZE * (n + 1)) :
    (source + BitVec.ofNat 64 l - dst).toNat < BSIZE * n ↔ Overwritten (dst - source).toNat l := by
  simp only [BSIZE, Overwritten] at *
  have hd := (dst - source).isLt
  have hoff : (source + BitVec.ofNat 64 l - dst).toNat =
      (2 ^ 64 - (dst - source).toNat + l) % 2 ^ 64 := by
    bv_omega
  rw [hoff]
  omega

theorem source_offset (h : Overwritten (dst - source).toNat l) (hl : l < 2 ^ 64) :
    (source + BitVec.ofNat 64 l - dst).toNat = l - (dst - source).toNat := by
  have hle := h.1
  have hd := (dst - source).isLt
  have hoff : (source + BitVec.ofNat 64 l - dst).toNat =
      (2 ^ 64 - (dst - source).toNat + l) % 2 ^ 64 := by
    bv_omega
  rw [hoff]
  omega

/-- The bytes of one more block are the next ones to land. -/
theorem afterBlocks_succ (hn : BSIZE * (n + 1) ≤ 2 ^ 64) :
    storeBlock (afterBlocks mem source dst n) (dst + BitVec.ofNat 64 (BSIZE * n))
      (fun j => afterBlocks mem source dst n (source + BitVec.ofNat 64 (BSIZE * n + j))) =
    afterBlocks mem source dst (n + 1) := by
  funext a
  have hsub : (a - (dst + BitVec.ofNat 64 (BSIZE * n))).toNat =
      ((a - dst).toNat + (2 ^ 64 - BSIZE * n)) % 2 ^ 64 := by
    simp only [BSIZE] at hn ⊢
    bv_omega
  have hl := (a - dst).isLt
  unfold storeBlock
  rw [hsub]
  by_cases hbefore : (a - dst).toNat < BSIZE * n
  · -- the byte was copied before
    have hnot : ¬ ((a - dst).toNat + (2 ^ 64 - BSIZE * n)) % 2 ^ 64 < BSIZE := by
      simp only [BSIZE] at *
      omega
    rw [if_neg hnot]
    unfold afterBlocks
    rw [if_pos hbefore, if_pos (by simp only [BSIZE] at *; omega)]
  · have hmod : ((a - dst).toNat + (2 ^ 64 - BSIZE * n)) % 2 ^ 64 =
        (a - dst).toNat - BSIZE * n := by
      simp only [BSIZE] at *
      omega
    rw [hmod]
    by_cases hblock : (a - dst).toNat < BSIZE * (n + 1)
    · have hin : (a - dst).toNat - BSIZE * n < BSIZE := by
        simp only [BSIZE] at *
        omega
      have hsum : BSIZE * n + ((a - dst).toNat - BSIZE * n) = (a - dst).toNat := by omega
      simp only [if_pos hin, hsum]
      have harea := @source_in_area _ n dst source hn (Nat.not_lt.mp hbefore) hblock
      unfold afterBlocks
      rw [if_pos hblock]
      by_cases ho : Overwritten (dst - source).toNat (a - dst).toNat
      · rw [if_pos (harea.mpr ho), landed_overwritten ho, source_offset ho hl]
      · rw [if_neg (fun hlt => ho (harea.mp hlt)), landed_source ho]
    · have hout : ¬ (a - dst).toNat - BSIZE * n < BSIZE := by
        simp only [BSIZE] at *
        omega
      unfold afterBlocks
      rw [if_neg hout, if_neg hbefore, if_neg hblock]

theorem copyBlocks_append {ktype : Kernel} {loadAddr : Addr} {is js : List ℕ} {mem : Memory} :
    (copyBlocks ktype loadAddr (is ++ js) mem).value =
      (copyBlocks ktype loadAddr is mem).value.bind fun mem' =>
        (copyBlocks ktype loadAddr js mem').value := by
  induction is generalizing mem with
  | nil => rfl
  | cons i is ih =>
    rw [List.cons_append, copyBlocks, Traced.bind_value, copyBlocks, Traced.bind_value]
    cases (copyBlock ktype loadAddr mem i).value with
    | none => rfl
    | some mem' => exact ih

/-- The segment in the file of a kernel begins behind the first page. -/
def segmentSource (ktype : Kernel) : Addr := ktype.disk + 4096

theorem copyBlocks_after {ktype : Kernel} {loadAddr : Addr} (hn : blockToSkip + n ≤ FSSIZE) :
    (copyBlocks ktype loadAddr (List.range' blockToSkip n) mem).value =
      some (afterBlocks mem (segmentSource ktype) loadAddr n) := by
  induction n with
  | zero =>
    have hzero : afterBlocks mem (segmentSource ktype) loadAddr 0 = mem := by
      funext a
      exact if_neg (Nat.not_lt_zero _)
    rw [hzero]
    rfl
  | succ n ih =>
    rw [List.range'_1_concat, copyBlocks_append, ih (by omega), Option.bind_some, copyBlocks,
      Traced.bind_value, copyBlock_value (by omega), Option.bind_some]
    have hsource : ∀ j, ktype.disk + BitVec.ofNat 64 (BSIZE * (blockToSkip + n) + j) =
        segmentSource ktype + BitVec.ofNat 64 (BSIZE * n + j) := by
      intro j
      rw [segmentSource, Nat.mul_add, Nat.add_assoc, BitVec.ofNat_add, ← BitVec.add_assoc]
      rfl
    simp only [hsource, Nat.add_sub_cancel_left]
    rw [afterBlocks_succ (by simp only [BSIZE, FSSIZE, blockToSkip] at *; omega)]
    rfl

theorem copyBlocks_over {ktype : Kernel} {loadAddr : Addr} (hn : FSSIZE < blockToSkip + n) :
    (copyBlocks ktype loadAddr (List.range' blockToSkip n) mem).value = none := by
  obtain ⟨m, hm⟩ : ∃ m, blockToSkip + m = FSSIZE := ⟨FSSIZE - blockToSkip, by decide⟩
  obtain ⟨k, rfl⟩ : ∃ k, n = m + (k + 1) := ⟨n - m - 1, by omega⟩
  rw [← List.range'_append_1, List.range'_succ, copyBlocks_append,
    copyBlocks_after (Nat.le_of_eq hm),
    Option.bind_some, copyBlocks, Traced.bind_value, copyBlock_diverges (Nat.le_of_eq hm.symm)]
  rfl

end Blocks

section Elf

variable (mem : Memory) (disk : Addr)

abbrev ELF_PROG_LOAD : ℕ := 1

def kernelPhdr : Addr :=
  disk + BitVec.ofNat 64 (wordAt mem (disk + 32) 8) + BitVec.ofNat 64 (wordAt mem (disk + 54) 2)

def segmentType : ℕ := wordAt mem (kernelPhdr mem disk) 4

def segmentOff : ℕ := wordAt mem (kernelPhdr mem disk + 8) 8

def filesz : ℕ := wordAt mem (kernelPhdr mem disk + 32) 8

def memsz : ℕ := wordAt mem (kernelPhdr mem disk + 40) 8

def shoff : ℕ := wordAt mem (disk + 40) 8

/-- The length of the file: the section headers come last. -/
def fileSize : ℕ :=
  shoff mem disk + wordAt mem (disk + 58) 2 * wordAt mem (disk + 60) 2

end Elf

/-- The file of a kernel lies in memory. Its second program header, of 56 bytes, describes a
segment behind the first page and before the section headers. -/
structure KernelElf (mem : Memory) (ktype : Kernel) : Prop where
  load : segmentType mem ktype.disk = ELF_PROG_LOAD
  off : segmentOff mem ktype.disk = 4096
  sizes : filesz mem ktype.disk ≤ memsz mem ktype.disk
  behind : 4096 + filesz mem ktype.disk ≤ shoff mem ktype.disk
  phdr : phdrOffset mem ktype.disk + 56 ≤ fileSize mem ktype.disk
  inRam : ktype.disk.toNat + fileSize mem ktype.disk ≤ PHYSTOP

/-- The segment of the kernel whose file is in `mem` lies at its address in `mem'`. -/
structure SegmentLoaded (mem : Memory) (ktype : Kernel) (mem' : Memory) : Prop where
  file : ∀ l < filesz mem ktype.disk,
    mem' (imageLoadAddr mem ktype.disk + BitVec.ofNat 64 l) =
      mem (segmentSource ktype + BitVec.ofNat 64 l)
  bss : ∀ l, filesz mem ktype.disk ≤ l → l < memsz mem ktype.disk →
    mem' (imageLoadAddr mem ktype.disk + BitVec.ofNat 64 l) = 0

/-- The byte that belongs at offset `l` of the segment. -/
def segmentByte (mem : Memory) (ktype : Kernel) (l : ℕ) : Byte :=
  if l < filesz mem ktype.disk then mem (segmentSource ktype + BitVec.ofNat 64 l) else 0

/-- The number of bytes from the segment in the file on to its load address. -/
def distance (mem : Memory) (ktype : Kernel) : ℕ :=
  (imageLoadAddr mem ktype.disk - segmentSource ktype).toNat

/-- The number of bytes from the load address on that the copy writes or the segment has. -/
def areaSize (mem : Memory) (disk : Addr) : ℕ :=
  max (memsz mem disk) (loadedSize (imageSize mem disk))

/-- The load area and the segment are in RAM and not over the loader. -/
def AreaFree (L : Loader) (mem : Memory) (ktype : Kernel) : Prop :=
  ∀ l < areaSize mem ktype.disk, L.Free (imageLoadAddr mem ktype.disk + BitVec.ofNat 64 l)

/-- The load address leaves the loader below and as many bytes of RAM above as are needed. -/
def AreaInside (L : Loader) (mem : Memory) (ktype : Kernel) : Prop :=
  areaSize mem ktype.disk = 0 ∨ L.bound.toNat ≤ (imageLoadAddr mem ktype.disk).toNat ∧
    (imageLoadAddr mem ktype.disk).toNat + areaSize mem ktype.disk ≤ PHYSTOP

/-- What is copied leaves the segment in memory, apart from the bytes in `info` that something else
is written to afterwards. Memory is `before` just before the copy. -/
structure CopiesSegment (mem before : Memory) (ktype : Kernel) (info : ℕ → Prop) : Prop where
  /-- The file has at most as many blocks as the file system. -/
  fits : fileSize mem ktype.disk ≤ BSIZE * FSSIZE
  /-- What lies behind the segment in the file is zero where it is copied into the bss. -/
  tail : ∀ l < memsz mem ktype.disk, ¬ info l → l < loadedSize (imageSize mem ktype.disk) →
    ¬ Overwritten (distance mem ktype) l → filesz mem ktype.disk ≤ l →
    mem (segmentSource ktype + BitVec.ofNat 64 l) = 0
  /-- Where the copy has overwritten its own source, the same byte stands there. -/
  again : ∀ l < memsz mem ktype.disk, ¬ info l → l < loadedSize (imageSize mem ktype.disk) →
    Overwritten (distance mem ktype) l →
    segmentByte mem ktype (l - distance mem ktype) = segmentByte mem ktype l
  /-- The rest of the bss is zero as it is. -/
  rest : ∀ l < memsz mem ktype.disk, ¬ info l → loadedSize (imageSize mem ktype.disk) ≤ l →
    before (imageLoadAddr mem ktype.disk + BitVec.ofNat 64 l) = 0

section Segment

variable {L : Loader} {mem mem' before : Memory} {ktype : Kernel} {info : ℕ → Prop} {l : ℕ}

theorem areaFree_iff : AreaFree L mem ktype ↔ AreaInside L mem ktype := by
  unfold AreaFree AreaInside Loader.Free
  generalize areaSize mem ktype.disk = n
  generalize imageLoadAddr mem ktype.disk = dst
  simp only [PHYSTOP]
  constructor
  · intro h
    by_cases hn : n = 0
    · exact Or.inl hn
    right
    have hfirst := h 0 (by omega)
    simp only [BitVec.add_zero] at hfirst
    refine ⟨hfirst.1, ?_⟩
    by_contra hover
    -- the byte just above RAM
    have hlast := (h (0x88000000 - dst.toNat) (by omega)).2
    rw [offset_toNat (by omega)] at hlast
    omega
  · rintro (hn | ⟨hlow, hhigh⟩) l hl
    · omega
    · rw [offset_toNat (by omega)]
      omega

theorem memsz_lt (mem : Memory) (disk : Addr) : memsz mem disk < 2 ^ 64 :=
  wordAt_lt mem (kernelPhdr mem disk + 40) 8

theorem segmentLoaded_iff (hsizes : filesz mem ktype.disk ≤ memsz mem ktype.disk) :
    SegmentLoaded mem ktype mem' ↔ ∀ l < memsz mem ktype.disk,
      mem' (imageLoadAddr mem ktype.disk + BitVec.ofNat 64 l) = segmentByte mem ktype l := by
  constructor
  · intro h l hl
    unfold segmentByte
    by_cases hfile : l < filesz mem ktype.disk
    · rw [if_pos hfile]
      exact h.file l hfile
    · rw [if_neg hfile]
      exact h.bss l (Nat.not_lt.mp hfile) hl
  · intro h
    constructor
    · intro l hl
      rw [h l (by omega), segmentByte, if_pos hl]
    · intro l hl hl'
      rw [h l hl', segmentByte, if_neg (Nat.not_lt.mpr hl)]

theorem product_toNat {a b : ℕ} (ha : a < 2 ^ 32) (hb : b < 2 ^ 32) (h : a * b < 2 ^ 31) :
    (((BitVec.ofNat 64 a).setWidth 32 * (BitVec.ofNat 64 b).setWidth 32).signExtend 64).toNat =
      a * b := by
  have hcast : ∀ c < 2 ^ 32, ((BitVec.ofNat 64 c).setWidth 32).toNat = c := by
    intro c hc
    rw [BitVec.toNat_setWidth, BitVec.toNat_ofNat, Nat.mod_eq_of_lt (a := c) (by omega)]
    exact Nat.mod_eq_of_lt hc
  have hmul : ((BitVec.ofNat 64 a).setWidth 32 * (BitVec.ofNat 64 b).setWidth 32).toNat =
      a * b := by
    rw [BitVec.toNat_mul, hcast a ha, hcast b hb]
    exact Nat.mod_eq_of_lt (by omega)
  rw [BitVec.signExtend_eq_setWidth_of_msb_false
    (BitVec.msb_eq_false_iff_two_mul_lt.mpr (by rw [hmul]; omega)), BitVec.toNat_setWidth, hmul]
  exact Nat.mod_eq_of_lt (by omega)

theorem KernelElf.imageSize_toNat (h : KernelElf mem ktype) :
    (imageSize mem ktype.disk).toNat = fileSize mem ktype.disk := by
  have hram := h.inRam
  have hdisk : 0x80000000 ≤ ktype.disk.toNat := by
    cases ktype <;> decide
  have hentry := wordAt_lt mem (ktype.disk + 58) 2
  have hnum := wordAt_lt mem (ktype.disk + 60) 2
  simp only [fileSize, shoff, PHYSTOP] at hram ⊢
  rw [imageSize, BitVec.toNat_add, product_toNat (by omega) (by omega) (by omega),
    BitVec.toNat_ofNat]
  omega

theorem KernelElf.size_lt (h : KernelElf mem ktype) : fileSize mem ktype.disk ≤ 2 ^ 27 := by
  have hram := h.inRam
  have hdisk : 0x80000000 ≤ ktype.disk.toNat := by
    cases ktype <;> decide
  simp only [PHYSTOP] at hram
  omega

theorem KernelElf.blockNum (h : KernelElf mem ktype) :
    (blockNum (imageSize mem ktype.disk)).toNat = (fileSize mem ktype.disk + 1023) / 1024 := by
  have hlt := h.size_lt
  rw [blockNum_eq (by rw [h.imageSize_toNat]; omega), h.imageSize_toNat]

theorem KernelElf.filesz_le (h : KernelElf mem ktype) :
    filesz mem ktype.disk ≤ loadedSize (imageSize mem ktype.disk) := by
  have hbehind := h.behind
  rw [loadedSize, h.blockNum]
  simp only [fileSize, BSIZE, blockToSkip] at *
  omega

/-- Another memory with the same file, and the same bytes behind it up to the end of a block. -/
def SameFile (mem before : Memory) (ktype : Kernel) : Prop :=
  SameBytes mem before ktype.disk (fileSize mem ktype.disk + BSIZE)

theorem segmentSource_offset (ktype : Kernel) (l : ℕ) :
    segmentSource ktype + BitVec.ofNat 64 l = ktype.disk + BitVec.ofNat 64 (4096 + l) := by
  rw [segmentSource, BitVec.ofNat_add, ← BitVec.add_assoc]
  rfl

theorem KernelElf.source_lt (h : KernelElf mem ktype) {l : ℕ}
    (hl : l < loadedSize (imageSize mem ktype.disk)) :
    4096 + l < fileSize mem ktype.disk + BSIZE := by
  rw [loadedSize, h.blockNum] at hl
  simp only [BSIZE, blockToSkip] at *
  omega

theorem distance_back (ho : Overwritten (distance mem ktype) l) :
    imageLoadAddr mem ktype.disk + BitVec.ofNat 64 (l - distance mem ktype) =
      segmentSource ktype + BitVec.ofNat 64 l := by
  have hle := ho.1
  unfold distance at *
  generalize imageLoadAddr mem ktype.disk = dst at *
  generalize segmentSource ktype = source at *
  have hsplit : l = (dst - source).toNat + (l - (dst - source).toNat) := by omega
  generalize l - (dst - source).toNat = k at *
  rw [hsplit, BitVec.ofNat_add, BitVec.ofNat_toNat, BitVec.setWidth_eq, ← BitVec.add_assoc,
    BitVec.add_comm source, BitVec.sub_add_cancel]

theorem afterBlocks_at {m : ℕ} (hl : l < 2 ^ 64) :
    afterBlocks before (segmentSource ktype) (imageLoadAddr mem ktype.disk) m
        (imageLoadAddr mem ktype.disk + BitVec.ofNat 64 l) =
      if l < BSIZE * m then
        landed (fun l => before (segmentSource ktype + BitVec.ofNat 64 l)) (distance mem ktype) l
      else before (imageLoadAddr mem ktype.disk + BitVec.ofNat 64 l) := by
  have hoff : (imageLoadAddr mem ktype.disk + BitVec.ofNat 64 l -
      imageLoadAddr mem ktype.disk).toNat = l := by
    rw [BitVec.add_comm, BitVec.add_sub_cancel, BitVec.toNat_ofNat]
    exact Nat.mod_eq_of_lt hl
  unfold afterBlocks distance
  rw [hoff]

/-- The block loop leaves the segment, if it ends, exactly under the conditions above. -/
theorem copy_loads_iff (h : KernelElf mem ktype) (hsame : SameFile mem before ktype)
    (hinfo : ∀ l, info l → ∀ j < fileSize mem ktype.disk + BSIZE,
      imageLoadAddr mem ktype.disk + BitVec.ofNat 64 l ≠ ktype.disk + BitVec.ofNat 64 j) :
    (∃ mem', (copyBlocks ktype (imageLoadAddr mem ktype.disk)
        (blocks (imageSize mem ktype.disk)) before).value = some mem' ∧
      ∀ l < memsz mem ktype.disk, ¬ info l →
        mem' (imageLoadAddr mem ktype.disk + BitVec.ofNat 64 l) = segmentByte mem ktype l) ↔
      CopiesSegment mem before ktype info := by
  have hnum := h.blockNum
  have hbehind := h.behind
  have hmemsz := memsz_lt mem ktype.disk
  have hfile := h.filesz_le
  by_cases hfits : fileSize mem ktype.disk ≤ BSIZE * FSSIZE
  · have hcopy : (copyBlocks ktype (imageLoadAddr mem ktype.disk)
        (blocks (imageSize mem ktype.disk)) before).value = _ := copyBlocks_after
      (by simp only [fileSize, BSIZE, FSSIZE, blockToSkip] at *; omega)
    have hback : ∀ l < min (memsz mem ktype.disk) (loadedSize (imageSize mem ktype.disk)),
        Overwritten (distance mem ktype) l → ¬ info (l - distance mem ktype) := by
      intro l hl ho hi
      refine hinfo _ hi (4096 + l) (h.source_lt (by omega)) ?_
      rw [distance_back ho, segmentSource_offset]
    have hlanded := @landed_iff (fun l => before (segmentSource ktype + BitVec.ofNat 64 l))
      (segmentByte mem ktype) (distance mem ktype)
      (min (memsz mem ktype.disk) (loadedSize (imageSize mem ktype.disk))) info hback
    have hbefore : ∀ l < loadedSize (imageSize mem ktype.disk),
        before (segmentSource ktype + BitVec.ofNat 64 l) =
          mem (segmentSource ktype + BitVec.ofNat 64 l) := by
      intro l hl
      rw [segmentSource_offset]
      exact hsame _ (h.source_lt hl)
    constructor
    · rintro ⟨mem', hvalue, hall⟩
      rw [hcopy, Option.some.injEq] at hvalue
      subst hvalue
      have hsplit := hlanded.mp fun l hl hi => by
        have hbyte := hall l (by omega) hi
        rwa [afterBlocks_at (by omega), if_pos (by unfold loadedSize at hl; omega)] at hbyte
      refine ⟨hfits, fun l hl hi hl' ho hfilesz => ?_, fun l hl hi hl' ho => ?_,
        fun l hl hi hl' => ?_⟩
      · have hbyte := hsplit.1 l (by omega) hi ho
        rwa [hbefore l hl', segmentByte, if_neg (Nat.not_lt.mpr hfilesz)] at hbyte
      · exact hsplit.2 l (by omega) hi ho
      · have hbyte := hall l hl hi
        rwa [afterBlocks_at (by omega), if_neg (by unfold loadedSize at hl'; omega), segmentByte,
          if_neg (by omega)] at hbyte
    · intro hcopies
      refine ⟨_, hcopy, fun l hl hi => ?_⟩
      rw [afterBlocks_at (by omega)]
      split_ifs with hl'
      · refine hlanded.mpr ⟨fun l hl hi ho => ?_, fun l hl hi ho => ?_⟩ l
          (by unfold loadedSize; omega) hi
        · rw [hbefore l (by omega), segmentByte]
          split_ifs with hfilesz
          · rfl
          · exact hcopies.tail l (by omega) hi (by omega) ho (by omega)
        · exact hcopies.again l (by omega) hi (by omega) ho
      · have hrest := hcopies.rest l hl hi (by unfold loadedSize; omega)
        rw [hrest, segmentByte, if_neg (by unfold loadedSize at hfile; omega)]
  · have hover : (copyBlocks ktype (imageLoadAddr mem ktype.disk)
        (blocks (imageSize mem ktype.disk)) before).value = none := copyBlocks_over
      (by simp only [fileSize, BSIZE, FSSIZE, blockToSkip] at *; omega)
    constructor
    · rintro ⟨mem', hvalue, -⟩
      rw [hover] at hvalue
      cases hvalue
    · intro hcopies
      exact absurd hcopies.fits hfits

end Segment

section Table

/-- The kernel that `start` loads. -/
def bootedKernel (trustedKernelHash : List Byte) (mem : Memory) : Kernel :=
  if digest mem = trustedKernelHash then .normal else .recovery

/-- `start` reads and stores in RAM behind the loader alone and ends, and it leaves the segment of
the kernel it boots. -/
def StartLoads (L : Loader) (trustedKernelHash : List Byte) (mem : Memory) : Prop :=
  ∃ fuel boot, (start L trustedKernelHash fuel mem).value = some boot ∧
    (∀ a ∈ (start L trustedKernelHash fuel mem).trace, L.Free a) ∧
    AreaFree L mem (bootedKernel trustedKernelHash mem) ∧
    SegmentLoaded mem (bootedKernel trustedKernelHash mem) boot.mem

/-- `setup_recovery_kernel` reads and stores in RAM behind the loader alone and ends, and it leaves
the segment of the recovery kernel. -/
def SetupLoads (L : Loader) (mem : Memory) : Prop :=
  ∃ mem' entry, (setupRecoveryKernel mem).value = some (mem', entry) ∧
    (∀ a ∈ (setupRecoveryKernel mem).trace, L.Free a) ∧ AreaFree L mem .recovery ∧
    SegmentLoaded mem .recovery mem'

/-- Byte `l` of the segment lies where `start` writes the table. -/
def InTable (mem : Memory) (ktype : Kernel) (l : ℕ) : Prop :=
  (imageLoadAddr mem ktype.disk + BitVec.ofNat 64 l - SYS_INFO).toNat < 32

/-- The conditions on `start`: the measurement stays in RAM behind the loader, and so do the load
area and the segment; the copy leaves the segment but for the table, and the table has the bytes of
the segment. -/
structure StartClean (L : Loader) (trustedKernelHash : List Byte) (mem : Memory)
    (ktype : Kernel) : Prop where
  header : L.bound.toNat ≤ (vaddrField mem RAMDISK).toNat ∧
    (vaddrField mem RAMDISK).toNat + 8 ≤ PHYSTOP
  measured : RAMDISK.toNat + measuredSize mem ≤ PHYSTOP
  area : AreaInside L mem ktype
  copies : CopiesSegment mem (storeMeasurements mem trustedKernelHash (digest mem)) ktype
    (InTable mem ktype)
  table : ∀ l < memsz mem ktype.disk, InTable mem ktype l →
    (systemInformation L).getD
      (imageLoadAddr mem ktype.disk + BitVec.ofNat 64 l - SYS_INFO).toNat 0 =
      segmentByte mem ktype l

variable {L : Loader} {mem mem' before : Memory} {ktype : Kernel} {trusted : List Byte} {l : ℕ}

theorem Loader.free_image (L : Loader) (ktype : Kernel) {j : ℕ}
    (hj : ktype.disk.toNat + j < PHYSTOP) : L.Free (ktype.disk + BitVec.ofNat 64 j) := by
  have hbound := L.bound_le
  have hdisk : 0x84000000 ≤ ktype.disk.toNat := by
    cases ktype <;> decide
  simp only [PHYSTOP] at hj
  rw [SYS_INFO_toNat] at hbound
  rw [Loader.Free, offset_toNat (by omega)]
  exact ⟨by omega, hj⟩

theorem Loader.free_block (L : Loader) (ktype : Kernel) {j : ℕ} (hj : j < BSIZE * FSSIZE) :
    L.Free (ktype.disk + BitVec.ofNat 64 j) := by
  apply L.free_image
  simp only [BSIZE, FSSIZE, PHYSTOP] at *
  cases ktype with
  | normal => rw [disk_normal, RAMDISK_toNat]; omega
  | recovery => rw [disk_recovery, RECOVERYDISK_toNat]; omega

theorem Loader.free_field (L : Loader) (ktype : Kernel) {c j : ℕ} (h : c + j < 1024) :
    L.Free (ktype.disk + BitVec.ofNat 64 c + BitVec.ofNat 64 j) := by
  rw [BitVec.add_assoc, ← BitVec.ofNat_add]
  exact L.free_block ktype (by simp only [BSIZE, FSSIZE]; omega)

theorem Loader.free_copy (L : Loader) (ktype : Kernel) {loadAddr a : Addr} {size : BitVec 64}
    (ha : a ∈ (copyBlocks ktype loadAddr (blocks size) before).trace) : L.Free a := by
  obtain ⟨b, -, -, hb, j, hj, rfl⟩ := mem_copyBlocks_trace.mp ha
  exact L.free_block ktype (by simp only [BSIZE, FSSIZE] at *; omega)

theorem Loader.free_size (L : Loader) (ktype : Kernel) {a : Addr}
    (ha : a ∈ (findKernelSize before ktype.disk).trace) : L.Free a := by
  rcases mem_findKernelSize_trace.mp ha with ⟨j, hj, rfl⟩ | ⟨j, hj, rfl⟩ | ⟨j, hj, rfl⟩
  · exact @Loader.free_field L ktype 40 j (by omega)
  · exact @Loader.free_field L ktype 58 j (by omega)
  · exact @Loader.free_field L ktype 60 j (by omega)

theorem Loader.free_entry (L : Loader) (ktype : Kernel) {a : Addr}
    (ha : a ∈ (findKernelEntryAddr before ktype.disk).trace) : L.Free a := by
  obtain ⟨j, hj, rfl⟩ := mem_load_trace.mp ha
  exact @Loader.free_field L ktype 24 j (by omega)

theorem loadNormal_reads {loadAddr a : Addr} (ha : a ∈ (loadNormal RAMDISK loadAddr before).trace) :
    L.Free a := by
  simp only [loadNormal, Traced.mem_bind_trace, Traced.pure_trace, List.not_mem_nil, and_false,
    exists_false, or_false] at ha
  rcases ha with ha | ⟨size, -, ha | ⟨m, -, ha⟩⟩
  · exact L.free_size .normal ha
  · exact L.free_copy .normal ha
  · exact L.free_entry .normal ha

theorem setupRecoveryKernel_reads (h : KernelElf mem .recovery) (hsame : SameFile mem before .recovery)
    {a : Addr} (ha : a ∈ (setupRecoveryKernel before).trace) : L.Free a := by
  simp only [setupRecoveryKernel, Traced.mem_bind_trace, Traced.pure_trace, List.not_mem_nil,
    and_false, exists_false, or_false] at ha
  rcases ha with ha | ⟨found, hfound, ha | ⟨size, -, ha | ⟨m, -, ha⟩⟩⟩
  · rcases mem_findKernelLoadAddr_trace.mp ha with ⟨j, hj, rfl⟩ | ⟨j, hj, rfl⟩ | ⟨j, hj, rfl⟩
    · exact @Loader.free_field L .recovery 32 j (by omega)
    · exact @Loader.free_field L .recovery 54 j (by omega)
    · have hphdr := h.phdr
      have hram := h.inRam
      rw [hsame.vaddrField_eq (by simp only [BSIZE]; omega), vaddrField_offset, BitVec.add_assoc,
        ← BitVec.ofNat_add]
      exact L.free_image .recovery (by omega)
  · cases Option.some.inj ((findKernelLoadAddr_value before .recovery).symm.trans hfound)
    exact L.free_size .recovery ha
  · exact L.free_copy .recovery ha
  · cases Option.some.inj ((findKernelLoadAddr_value before .recovery).symm.trans hfound)
    exact L.free_entry .recovery ha

theorem KernelElf.sameFile (h : KernelElf mem ktype) (expected observed : List Byte) :
    SameFile mem (storeMeasurements mem expected observed) ktype := by
  have hlt := h.size_lt
  exact storeMeasurements_same ktype (by simp only [BSIZE]; omega)

theorem SameFile.loadAddr_eq (hsame : SameFile mem before ktype) (h : KernelElf mem ktype) :
    imageLoadAddr before ktype.disk = imageLoadAddr mem ktype.disk := by
  have hphdr := h.phdr
  exact SameBytes.loadAddr_eq hsame (by simp only [BSIZE]; omega) (by omega)

theorem SameFile.imageSize_eq (hsame : SameFile mem before ktype) :
    imageSize before ktype.disk = imageSize mem ktype.disk :=
  SameBytes.imageSize_eq hsame (by simp only [BSIZE]; omega)

theorem systemInformation_length : (systemInformation L).length = 32 := by
  simp [systemInformation, wordBytes]

section Start

variable (h : KernelElf mem (bootedKernel trusted mem)) {fuel : ℕ} {found : Addr × Addr}
  (hmeasure : (measure fuel mem).value = some (found, digest mem))

include h hmeasure

/-- What `start` leaves once the measurement has ended. -/
theorem start_booted : (start L trusted fuel mem).value =
    (copyBlocks (bootedKernel trusted mem) (imageLoadAddr mem (bootedKernel trusted mem).disk)
      (blocks (imageSize mem (bootedKernel trusted mem).disk))
      (storeMeasurements mem trusted (digest mem))).value.map fun m =>
        ⟨m, storeBytes m SYS_INFO (systemInformation L),
          imageEntry m (bootedKernel trusted mem).disk, digest mem, trusted⟩ := by
  obtain ⟨rfl, -, -⟩ := measure_eq_some hmeasure
  have hsame := h.sameFile trusted (digest mem)
  have hsize := hsame.imageSize_eq
  have haddr := hsame.loadAddr_eq h
  rw [start_measured hmeasure]
  unfold bootedKernel at *
  by_cases hpass : digest mem = trusted
  · simp only [hpass, ↓reduceIte, disk_normal] at hsize ⊢
    rw [loadNormal_eq, hsize, Option.map_map]
    rfl
  · simp only [hpass, ↓reduceIte, disk_recovery] at hsize haddr ⊢
    rw [setupRecoveryKernel_eq, hsize, haddr, Option.map_map]
    rfl

theorem start_reads {a : Addr} (ha : a ∈ (start L trusted fuel mem).trace) :
    a ∈ (measure fuel mem).trace ∨ L.Free a := by
  obtain ⟨rfl, -, -⟩ := measure_eq_some hmeasure
  have hsame := h.sameFile trusted (digest mem)
  rcases Traced.mem_bind_trace.mp ha with ha | ⟨r, hr, ha⟩
  · exact Or.inl ha
  right
  cases Option.some.inj (hmeasure.symm.trans hr)
  unfold bootedKernel at *
  by_cases hpass : digest mem = trusted
  · simp only [hpass, ↓reduceIte, Traced.mem_bind_pure_trace] at ha
    exact loadNormal_reads ha
  · simp only [hpass, ↓reduceIte, Traced.mem_bind_pure_trace] at ha h hsame
    exact setupRecoveryKernel_reads h hsame ha

end Start

theorem setup_loads_iff (h : KernelElf mem .recovery) :
    SetupLoads L mem ↔
      AreaInside L mem .recovery ∧ CopiesSegment mem mem .recovery fun _ => False := by
  have hsame : SameFile mem mem .recovery := fun _ _ => rfl
  rw [← copy_loads_iff h hsame (fun _ hi => hi.elim), ← areaFree_iff, SetupLoads]
  simp only [setupRecoveryKernel_eq, Option.map_eq_some_iff, Prod.mk.injEq, not_false_eq_true,
    true_implies]
  constructor
  · rintro ⟨mem', entry, ⟨m, hcopy, rfl, -⟩, -, harea, hloaded⟩
    exact ⟨harea, m, hcopy, (segmentLoaded_iff h.sizes).mp hloaded⟩
  · rintro ⟨harea, m, hcopy, hall⟩
    exact ⟨m, _, ⟨m, hcopy, rfl, rfl⟩, fun _ ha => setupRecoveryKernel_reads h hsame ha, harea,
      (segmentLoaded_iff h.sizes).mpr hall⟩

/-- The bytes of the segment after the table has been written. -/
theorem storeBytes_loaded_iff (hsizes : filesz mem ktype.disk ≤ memsz mem ktype.disk) :
    SegmentLoaded mem ktype (storeBytes mem' SYS_INFO (systemInformation L)) ↔
      (∀ l < memsz mem ktype.disk, ¬ InTable mem ktype l →
        mem' (imageLoadAddr mem ktype.disk + BitVec.ofNat 64 l) = segmentByte mem ktype l) ∧
      ∀ l < memsz mem ktype.disk, InTable mem ktype l →
        (systemInformation L).getD
          (imageLoadAddr mem ktype.disk + BitVec.ofNat 64 l - SYS_INFO).toNat 0 =
          segmentByte mem ktype l := by
  rw [segmentLoaded_iff hsizes]
  unfold storeBytes InTable
  rw [systemInformation_length]
  constructor
  · intro h
    constructor
    · intro l hl ht
      have hbyte := h l hl
      rwa [if_neg ht] at hbyte
    · intro l hl ht
      have hbyte := h l hl
      rwa [if_pos ht] at hbyte
  · rintro ⟨hout, hin⟩ l hl
    by_cases ht : (imageLoadAddr mem ktype.disk + BitVec.ofNat 64 l - SYS_INFO).toNat < 32
    · rw [if_pos ht]
      exact hin l hl ht
    · rw [if_neg ht]
      exact hout l hl ht

theorem KernelElf.not_inTable (h : KernelElf mem ktype) (ht : InTable mem ktype l) {j : ℕ}
    (hj : j < fileSize mem ktype.disk + BSIZE) :
    imageLoadAddr mem ktype.disk + BitVec.ofNat 64 l ≠ ktype.disk + BitVec.ofNat 64 j := by
  intro heq
  have hram := h.inRam
  have hdisk : 0x84000000 ≤ ktype.disk.toNat := by
    cases ktype <;> decide
  simp only [PHYSTOP, BSIZE] at hram hj
  have haddr := offset_toNat (a := ktype.disk) (n := j) (by omega)
  rw [InTable, heq] at ht
  generalize ktype.disk + BitVec.ofNat 64 j = a at *
  simp only [SYS_INFO] at ht
  bv_omega

theorem start_loads_iff (h : KernelElf mem (bootedKernel trusted mem)) :
    StartLoads L trusted mem ↔ StartClean L trusted mem (bootedKernel trusted mem) := by
  have hcopies := copy_loads_iff h (h.sameFile trusted (digest mem))
    (fun l ht j hj => h.not_inTable ht hj)
  have hlow : L.bound.toNat ≤ RAMDISK.toNat := Nat.le_trans L.bound_le (by decide)
  constructor
  · rintro ⟨fuel, boot, hvalue, hreads, harea, hloaded⟩
    obtain ⟨⟨found, observed⟩, hmeasure, -⟩ := Traced.bind_value_eq_some.mp hvalue
    obtain ⟨-, hlt, rfl⟩ := measure_eq_some hmeasure
    obtain ⟨hheader, hsize⟩ := within_of_reads (by decide) (by decide)
      (Or.inr (measure_fuel hmeasure)) fun a ha =>
        hreads a (Traced.mem_bind_trace.mpr (Or.inl ha))
    rw [start_booted h hmeasure] at hvalue
    obtain ⟨m, hcopy, rfl⟩ := Option.map_eq_some_iff.mp hvalue
    obtain ⟨hout, hin⟩ := (storeBytes_loaded_iff h.sizes).mp hloaded
    exact ⟨hheader, hsize, areaFree_iff.mp harea, hcopies.mp ⟨m, hcopy, hout⟩, hin⟩
  · intro hclean
    obtain ⟨m, hcopy, hout⟩ := hcopies.mpr hclean.copies
    have hmeasured := hclean.measured
    have hlt : measuredSize mem < 2 ^ 32 := by
      simp only [PHYSTOP] at hmeasured
      omega
    obtain ⟨fuel, found, hmeasure⟩ := passes_digest hlt
    refine ⟨fuel, _, by rw [start_booted h hmeasure, hcopy]; rfl, fun a ha => ?_,
      areaFree_iff.mpr hclean.area, (storeBytes_loaded_iff h.sizes).mpr ⟨hout, hclean.table⟩⟩
    rcases start_reads h hmeasure ha with ha | ha
    · exact measure_within hlow (by decide) (by decide) hclean.header.1 hclean.header.2
        hmeasured ha
    · exact ha

/-- The segment of a kernel lies in memory after booting, file bytes and zeros, exactly when the
place of the segment is in RAM and not the loader's, the file fits the file system and nothing but
zeros is copied to the bss, lies in the rest of it or is written over it. -/
theorem kernel_loaded_iff (h : KernelElf mem ktype) :
    (ktype = .recovery → (SetupLoads L mem ↔
      AreaInside L mem .recovery ∧ CopiesSegment mem mem .recovery fun _ => False)) ∧
    (ktype = bootedKernel trusted mem →
      (StartLoads L trusted mem ↔ StartClean L trusted mem ktype)) := by
  constructor
  · intro hrecovery
    subst hrecovery
    exact setup_loads_iff h
  · intro hbooted
    subst hbooted
    exact start_loads_iff h

end Table

/-- A recovery kernel of 16 bytes and 16 bytes of bss at `0x80100000`. Behind the segment the file
goes on with zeros, or with a one. -/
def sampleKernel (dirty : Bool) : Memory := fun a =>
  if a = RECOVERYDISK + 32 ∨ a = RECOVERYDISK + 40 then 64
  else if a = RECOVERYDISK + 54 then 56
  else if a = RECOVERYDISK + 120 then 1
  else if a = RECOVERYDISK + 41 ∨ a = RECOVERYDISK + 129 ∨ a = RECOVERYDISK + 138 ∨
    a = RECOVERYDISK + 152 then 16
  else if a = RECOVERYDISK + 139 then 0x80
  else if a = RECOVERYDISK + 160 then 32
  else if dirty ∧ a = RECOVERYDISK + 4112 then 1
  else 0

theorem sampleKernel_elf (dirty : Bool) : KernelElf (sampleKernel dirty) .recovery := by
  cases dirty with
  | false => exact ⟨by decide, by decide, by decide, by decide, by decide, by decide⟩
  | true => exact ⟨by decide, by decide, by decide, by decide, by decide, by decide⟩

theorem sample_kernel_loaded_iff :
    (Kernel.recovery = .recovery → (SetupLoads sampleLoader (sampleKernel false) ↔
      AreaInside sampleLoader (sampleKernel false) .recovery ∧
        CopiesSegment (sampleKernel false) (sampleKernel false) .recovery fun _ => False)) ∧
    (Kernel.recovery = bootedKernel [] (sampleKernel false) →
      (StartLoads sampleLoader [] (sampleKernel false) ↔
        StartClean sampleLoader [] (sampleKernel false) .recovery)) :=
  kernel_loaded_iff (sampleKernel_elf false)

/-- The byte behind the segment is copied to the bss. -/
theorem section_loaded_to_bss :
    KernelElf (sampleKernel true) .recovery ∧ ¬ SetupLoads sampleLoader (sampleKernel true) := by
  refine ⟨sampleKernel_elf true, fun hloads => ?_⟩
  have hcopies := ((setup_loads_iff (sampleKernel_elf true)).mp hloads).2
  have hzero := hcopies.tail 16 (by decide) not_false (by decide) (by decide) (by decide)
  revert hzero
  decide

end AdvancedOperatingSystems.SecureBoot
