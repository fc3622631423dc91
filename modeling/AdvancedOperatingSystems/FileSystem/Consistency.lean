import AdvancedOperatingSystems.FileSystem.Volume

/-!
# Consistent volumes

The bitmap and the inodes of a volume say the same: each data block that is in use belongs to
one place of one inode. A function of `fs.c` holds the copy of one inode, which may be newer
than the one on disk; the volume is consistent with that copy in its place.
-/

namespace AdvancedOperatingSystems.FileSystem

open Foundations Riscv DemandPaging StoreProgram

/-- The places of an inode for block numbers: `addrs`, then the entries of the indirect block. -/
abbrev NSLOTS : ℕ := NDIRECT + 1 + NINDIRECT

/-- The block number in a place of an inode. -/
def entry (mem : ℕ → Block) (ip : Dinode) (s : ℕ) : ℕ :=
  if s ≤ NDIRECT then ip.addrs s
  else if ip.addrs NDIRECT = 0 then 0
  else field (mem (ip.addrs NDIRECT)) (4 * (s - (NDIRECT + 1))) 4

/-- The place of the `bn`-th block of a file. -/
def slotOf (bn : ℕ) : ℕ := if bn < NDIRECT then bn else bn + 1

def byteAt (mem : ℕ → Block) (ip : Dinode) (k : ℕ) : Byte :=
  mem (entry mem ip (slotOf (k / BSIZE))) (k % BSIZE)

def Dinode.bytes (ip : Dinode) (mem : ℕ → Block) : List Byte :=
  (List.range ip.size).map (byteAt mem ip)

section Entries

variable {mem mem' : ℕ → Block} {ip : Dinode} {bn bn' s k : ℕ}

theorem slotOf_ne (bn : ℕ) : slotOf bn ≠ NDIRECT := by
  unfold slotOf
  split_ifs <;> omega

theorem slotOf_inj (h : slotOf bn = slotOf bn') : bn = bn' := by
  unfold slotOf at h
  split_ifs at h <;> omega

theorem slotOf_lt (h : bn < MAXFILE) : slotOf bn < NSLOTS := by
  unfold slotOf
  split_ifs <;> simp only [MAXFILE, NSLOTS] at h ⊢ <;> omega

theorem entry_le (h : s ≤ NDIRECT) : entry mem ip s = ip.addrs s := if_pos h

theorem entry_congr (h : ip.addrs NDIRECT ≠ 0 → mem' (ip.addrs NDIRECT) = mem (ip.addrs NDIRECT))
    (s : ℕ) : entry mem' ip s = entry mem ip s := by
  unfold entry
  split_ifs with hs hzero
  · rfl
  · rfl
  · rw [h hzero]

theorem div_lt_maxfile (h : k < MAXFILE * BSIZE) : k / BSIZE < MAXFILE := by
  rw [Nat.div_lt_iff_lt_mul (by decide)]
  exact h

end Entries

def owner (sb : Superblock) (mem : ℕ → Block) (I : ℕ → Dinode) (x : ℕ × ℕ) : ℕ :=
  if x.1 < sb.ninodes ∧ x.2 < NSLOTS then entry mem (I x.1) x.2 else 0

/-- The blocks of the inodes are in order. -/
structure Consistent (sb : Superblock) (mem : ℕ → Block) (I : ℕ → Dinode) : Prop where
  reserved : ∀ b < sb.size, ¬ sb.Data b → sb.used mem b = true
  alloc : Allocation sb.Data (owner sb mem I) (sb.used mem)
  bounded : ∀ i < sb.ninodes, (I i).size ≤ MAXFILE * BSIZE
  whole : ∀ i < sb.ninodes, ∀ bn, BSIZE * bn < (I i).size → entry mem (I i) (slotOf bn) ≠ 0
  vacant : ∀ i < sb.ninodes, (I i).type = 0 →
    (I i).size = 0 ∧ ∀ s < NSLOTS, entry mem (I i) s = 0

def Volume (sb : Superblock) (mem : ℕ → Block) : Prop := Consistent sb mem (sb.inode mem)

/-- A volume with the copy of an inode that is in use. -/
structure Open (sb : Superblock) (inum : ℕ) (mem : ℕ → Block) (ip : Dinode) : Prop where
  lt : inum < sb.ninodes
  live : ip.type ≠ 0
  fits : ip.Fits
  consistent : Consistent sb mem (Function.update (sb.inode mem) inum ip)

def Others (sb : Superblock) (inum : ℕ) (mem mem' : ℕ → Block) : Prop :=
  ∀ j < sb.ninodes, j ≠ inum → sb.inode mem' j = sb.inode mem j ∧
    (sb.inode mem j).bytes mem' = (sb.inode mem j).bytes mem

theorem Others.refl {sb : Superblock} {i : ℕ} {mem : ℕ → Block} : Others sb i mem mem :=
  fun _ _ _ => ⟨rfl, rfl⟩

theorem Others.trans {sb : Superblock} {i : ℕ} {mem mem' mem'' : ℕ → Block}
    (h : Others sb i mem mem') (h' : Others sb i mem' mem'') : Others sb i mem mem'' := by
  intro j hj hji
  obtain ⟨hino, hbytes⟩ := h j hj hji
  obtain ⟨hino', hbytes'⟩ := h' j hj hji
  rw [hino] at hino' hbytes'
  exact ⟨hino', hbytes'.trans hbytes⟩

/-- The blocks that a file has keep their numbers and their contents. -/
def SameBlocks (mem : ℕ → Block) (ip : Dinode) (mem' : ℕ → Block) (ip' : Dinode) : Prop :=
  ∀ bn < MAXFILE, entry mem ip (slotOf bn) ≠ 0 →
    entry mem' ip' (slotOf bn) = entry mem ip (slotOf bn) ∧
      mem' (entry mem ip (slotOf bn)) = mem (entry mem ip (slotOf bn))

namespace SameBlocks

variable {mem mem' mem'' : ℕ → Block} {ip ip' ip'' : Dinode} {k : ℕ}

theorem refl : SameBlocks mem ip mem ip := fun _ _ _ => ⟨rfl, rfl⟩

theorem trans (h : SameBlocks mem ip mem' ip') (h' : SameBlocks mem' ip' mem'' ip'') :
    SameBlocks mem ip mem'' ip'' := by
  intro bn hbn hne
  obtain ⟨hentry, hmem⟩ := h bn hbn hne
  have hlater := h' bn hbn
  rw [hentry] at hlater
  obtain ⟨hentry', hmem'⟩ := hlater hne
  exact ⟨hentry', hmem'.trans hmem⟩

theorem byteAt_eq (h : SameBlocks mem ip mem' ip') (hk : k < MAXFILE * BSIZE)
    (hne : entry mem ip (slotOf (k / BSIZE)) ≠ 0) : byteAt mem' ip' k = byteAt mem ip k := by
  obtain ⟨hentry, hmem⟩ := h _ (div_lt_maxfile hk) hne
  unfold byteAt
  rw [hentry, hmem]

end SameBlocks

namespace Consistent

variable {sb : Superblock} {mem mem' : ℕ → Block} {I I' : ℕ → Dinode} {i j s t k : ℕ}

theorem owner_eq (hi : i < sb.ninodes) (hs : s < NSLOTS) :
    owner sb mem I (i, s) = entry mem (I i) s := if_pos ⟨hi, hs⟩

theorem inside (h : Consistent sb mem I) (hi : i < sb.ninodes) (hs : s < NSLOTS)
    (hne : entry mem (I i) s ≠ 0) :
    sb.Data (entry mem (I i) s) ∧ sb.used mem (entry mem (I i) s) = true := by
  have hinside := h.alloc.inside (i, s)
  rw [owner_eq hi hs] at hinside
  exact hinside hne

theorem apart (h : Consistent sb mem I) (hi : i < sb.ninodes) (hs : s < NSLOTS)
    (hj : j < sb.ninodes) (ht : t < NSLOTS) (hne : entry mem (I i) s ≠ 0)
    (heq : entry mem (I i) s = entry mem (I j) t) : i = j ∧ s = t := by
  have hapart := h.alloc.apart (i, s) (j, t)
  rw [owner_eq hi hs, owner_eq hj ht, Prod.mk.injEq] at hapart
  exact hapart hne heq

theorem block_ne_zero (h : Consistent sb mem I) (hi : i < sb.ninodes) (hk : k < (I i).size) :
    k / BSIZE < MAXFILE ∧ entry mem (I i) (slotOf (k / BSIZE)) ≠ 0 := by
  refine ⟨div_lt_maxfile (Nat.lt_of_lt_of_le hk (h.bounded i hi)), h.whole i hi _ ?_⟩
  exact Nat.lt_of_le_of_lt (Nat.mul_div_le k BSIZE) hk

theorem lt_maxfile (h : Consistent sb mem I) (hi : i < sb.ninodes) (bn : ℕ)
    (hbn : BSIZE * bn < (I i).size) : bn < MAXFILE := by
  have hlt := Nat.lt_of_lt_of_le hbn (h.bounded i hi)
  rw [Nat.mul_comm] at hlt
  exact Nat.lt_of_mul_lt_mul_right hlt

/-- The order depends on the marks and the places. -/
theorem congr (h : Consistent sb mem I)
    (hused : ∀ b < sb.size, sb.used mem' b = sb.used mem b)
    (hentry : ∀ i < sb.ninodes, ∀ s < NSLOTS, entry mem' (I' i) s = entry mem (I i) s)
    (htype : ∀ i < sb.ninodes, (I' i).type = (I i).type)
    (hsize : ∀ i < sb.ninodes, (I' i).size = (I i).size) : Consistent sb mem' I' where
  reserved b hb hdata := (hused b hb).trans (h.reserved b hb hdata)
  alloc := by
    apply h.alloc.congr
    · rintro ⟨i, s⟩
      by_cases hin : i < sb.ninodes ∧ s < NSLOTS
      · rw [owner_eq hin.1 hin.2, owner_eq hin.1 hin.2, hentry i hin.1 s hin.2]
      · exact (if_neg hin).trans (if_neg hin).symm
    · intro b hb
      exact hused b hb.2
  bounded i hi := by
    rw [hsize i hi]
    exact h.bounded i hi
  whole i hi bn hbn := by
    rw [hsize i hi] at hbn
    rw [hentry i hi _ (slotOf_lt (h.lt_maxfile hi bn hbn))]
    exact h.whole i hi bn hbn
  vacant i hi htype' := by
    rw [htype i hi] at htype'
    obtain ⟨hzero, hall⟩ := h.vacant i hi htype'
    rw [hsize i hi]
    exact ⟨hzero, fun s hs => (hentry i hi s hs).trans (hall s hs)⟩

theorem same_file (h : Consistent sb mem I) (hi : i < sb.ninodes) (mem' : ℕ → Block)
    (hmem : ∀ t < NSLOTS, entry mem (I i) t ≠ 0 →
      mem' (entry mem (I i) t) = mem (entry mem (I i) t)) :
    (∀ s, entry mem' (I i) s = entry mem (I i) s) ∧ (I i).bytes mem' = (I i).bytes mem := by
  have hentry : ∀ s, entry mem' (I i) s = entry mem (I i) s := by
    apply entry_congr
    intro hne
    have hind : entry mem (I i) NDIRECT = (I i).addrs NDIRECT := entry_le le_rfl
    have := hmem NDIRECT (by decide)
    rw [hind] at this
    exact this hne
  refine ⟨hentry, List.map_congr_left fun k hk => ?_⟩
  obtain ⟨hlt, hne⟩ := h.block_ne_zero hi (List.mem_range.mp hk)
  unfold byteAt
  rw [hentry, hmem _ (slotOf_lt hlt) hne]

end Consistent

namespace Open

variable {sb : Superblock} {mem mem' : ℕ → Block} {ip ip' : Dinode} {i j s t k b slot : ℕ}

theorem inside (h : Open sb i mem ip) (hs : s < NSLOTS) (hne : entry mem ip s ≠ 0) :
    sb.Data (entry mem ip s) ∧ sb.used mem (entry mem ip s) = true := by
  have := h.consistent.inside h.lt hs
  rw [Function.update_self] at this
  exact this hne

theorem inj (h : Open sb i mem ip) (hs : s < NSLOTS) (ht : t < NSLOTS)
    (hne : entry mem ip s ≠ 0) (heq : entry mem ip s = entry mem ip t) : s = t := by
  have := h.consistent.apart h.lt hs h.lt ht
  rw [Function.update_self] at this
  exact (this hne heq).2

theorem ne_other (h : Open sb i mem ip) (hs : s < NSLOTS) (hj : j < sb.ninodes) (hji : j ≠ i)
    (ht : t < NSLOTS) (hne : entry mem ip s ≠ 0) :
    entry mem ip s ≠ entry mem (sb.inode mem j) t := by
  intro heq
  have := h.consistent.apart h.lt hs hj ht
  rw [Function.update_self, Function.update_of_ne hji] at this
  exact hji (this hne heq).1.symm

theorem indirect_eq (mem : ℕ → Block) (ip : Dinode) : entry mem ip NDIRECT = ip.addrs NDIRECT :=
  entry_le le_rfl

theorem block_ne_zero (h : Open sb i mem ip) (hk : k < ip.size) :
    k / BSIZE < MAXFILE ∧ entry mem ip (slotOf (k / BSIZE)) ≠ 0 := by
  have := h.consistent.block_ne_zero (k := k) h.lt
  rw [Function.update_self] at this
  exact this hk

/-- A place that was empty has a new block: the copy and perhaps its indirect block name it, and
everything else stays. -/
theorem claim (h : Open sb i mem ip) (hslot : slot < NSLOTS) (hempty : entry mem ip slot = 0)
    (hb : sb.Data b) (hfree : sb.used mem b = false)
    (hused : ∀ c < sb.size, sb.used mem' c = Function.update (sb.used mem) b true c)
    (hino : ∀ j < sb.ninodes, sb.inode mem' j = sb.inode mem j)
    (hmem : ∀ x, sb.Data x → x ≠ b → x ≠ ip.addrs NDIRECT → mem' x = mem x)
    (hentry : ∀ s < NSLOTS, entry mem' ip' s = Function.update (entry mem ip) slot b s)
    (htype : ip'.type = ip.type) (hsize : ip'.size = ip.size) (hfits : ip'.Fits) :
    Open sb i mem' ip' ∧ Others sb i mem mem' ∧ SameBlocks mem ip mem' ip' := by
  have hpos := h.consistent.alloc.ne_zero hb
  have hnone := h.consistent.alloc.ne_of_unused hb hfree
  -- blocks of other inodes are neither the new block nor the indirect block
  have hother : ∀ j < sb.ninodes, j ≠ i → (∀ s, entry mem' (sb.inode mem j) s =
      entry mem (sb.inode mem j) s) ∧ (sb.inode mem j).bytes mem' = (sb.inode mem j).bytes mem := by
    intro j hj hji
    have hI : Function.update (sb.inode mem) i ip j = sb.inode mem j :=
      Function.update_of_ne hji _ _
    have hsame := h.consistent.same_file hj mem'
    rw [hI] at hsame
    apply hsame
    intro t ht hne
    have hin := h.consistent.inside hj ht
    rw [hI] at hin
    apply hmem _ (hin hne).1
    · have := hnone (j, t)
      rwa [Consistent.owner_eq hj ht, hI] at this
    · intro heq
      rw [← indirect_eq mem ip] at heq
      exact h.ne_other (by decide) hj hji ht (heq ▸ hne) heq.symm
  have hold : ∀ s < NSLOTS, entry mem ip s ≠ 0 → entry mem' ip' s = entry mem ip s := by
    intro s hs hne
    rw [hentry s hs, Function.update_of_ne]
    rintro rfl
    exact hne hempty
  have hothers : Others sb i mem mem' := fun j hj hji => ⟨hino j hj, (hother j hj hji).2⟩
  have hblocks : SameBlocks mem ip mem' ip' := by
    intro bn hbn hne
    have hs := slotOf_lt hbn
    rw [hold _ hs hne]
    refine ⟨rfl, hmem _ (h.inside hs hne).1 ?_ ?_⟩
    · have := hnone (i, slotOf bn)
      rwa [Consistent.owner_eq h.lt hs, Function.update_self] at this
    · intro heq
      rw [← indirect_eq mem ip] at heq
      exact slotOf_ne _ (h.inj hs (by decide) hne heq)
  refine ⟨⟨h.lt, htype ▸ h.live, hfits, ?_⟩, hothers, hblocks⟩
  have hI : ∀ j < sb.ninodes, j ≠ i →
      Function.update (sb.inode mem') i ip' j = Function.update (sb.inode mem) i ip j := by
    intro j hj hji
    rw [Function.update_of_ne hji, Function.update_of_ne hji, hino j hj]
  have hentries : ∀ j < sb.ninodes, j ≠ i → ∀ s,
      entry mem' (Function.update (sb.inode mem') i ip' j) s =
        entry mem (Function.update (sb.inode mem) i ip j) s := by
    intro j hj hji s
    rw [hI j hj hji, Function.update_of_ne hji]
    exact (hother j hj hji).1 s
  refine ⟨?_, ?_, ?_, ?_, ?_⟩
  · intro c hc hdata
    rw [hused c hc, Function.update_of_ne]
    · exact h.consistent.reserved c hc hdata
    · rintro rfl
      exact hdata hb
  · apply h.consistent.alloc.claim (x := (i, slot)) _ hb hfree _ fun c hc => hused c hc.2
    · rw [Consistent.owner_eq h.lt hslot, Function.update_self]
      exact hempty
    · rintro ⟨j, s⟩
      by_cases hin : j < sb.ninodes ∧ s < NSLOTS
      · obtain ⟨hj, hs⟩ := hin
        rw [Consistent.owner_eq hj hs]
        by_cases hji : j = i
        · subst hji
          rw [Function.update_self, hentry s hs]
          by_cases hss : s = slot
          · rw [hss, Function.update_self, Function.update_self]
          · have hne : (j, s) ≠ (j, slot) := fun heq => hss (Prod.mk.inj heq).2
            rw [Function.update_of_ne hss, Function.update_of_ne hne, Consistent.owner_eq hj hs,
              Function.update_self]
        · have hne : (j, s) ≠ (i, slot) := fun heq => hji (Prod.mk.inj heq).1
          rw [Function.update_of_ne hne, Consistent.owner_eq hj hs, hentries j hj hji]
      · have hne : (j, s) ≠ (i, slot) := by
          rintro heq
          obtain ⟨rfl, rfl⟩ := Prod.mk.inj heq
          exact hin ⟨h.lt, hslot⟩
        rw [Function.update_of_ne hne]
        exact (if_neg hin).trans (if_neg hin).symm
  · intro j hj
    by_cases hji : j = i
    · subst hji
      have := h.consistent.bounded j hj
      rw [Function.update_self] at this ⊢
      rwa [hsize]
    · rw [hI j hj hji]
      exact h.consistent.bounded j hj
  · intro j hj bn hbn
    by_cases hji : j = i
    · subst hji
      rw [Function.update_self] at hbn ⊢
      rw [hsize] at hbn
      have hlt := h.consistent.lt_maxfile hj bn
      have hne := h.consistent.whole j hj bn
      rw [Function.update_self] at hlt hne
      rw [hold _ (slotOf_lt (hlt hbn)) (hne hbn)]
      exact hne hbn
    · rw [hI j hj hji] at hbn
      rw [hentries j hj hji]
      exact h.consistent.whole j hj bn hbn
  · intro j hj hzero
    by_cases hji : j = i
    · subst hji
      rw [Function.update_self, htype] at hzero
      exact absurd hzero h.live
    · rw [hI j hj hji] at hzero
      have hvacant := h.consistent.vacant j hj hzero
      refine ⟨by rw [hI j hj hji]; exact hvacant.1, fun s hs => ?_⟩
      rw [hentries j hj hji]
      exact hvacant.2 s hs

/-- Writing to a block of the file changes the bytes in it. -/
theorem write (h : Open sb i mem ip) {bn : ℕ} (hbn : bn < MAXFILE)
    (hne : entry mem ip (slotOf bn) ≠ 0) (data : Block) :
    Open sb i (Function.update mem (entry mem ip (slotOf bn)) data) ip ∧
      Others sb i mem (Function.update mem (entry mem ip (slotOf bn)) data) ∧
      (∀ s, entry (Function.update mem (entry mem ip (slotOf bn)) data) ip s = entry mem ip s) ∧
      (∀ c < sb.size, sb.used (Function.update mem (entry mem ip (slotOf bn)) data) c =
        sb.used mem c) ∧
      ∀ k < MAXFILE * BSIZE, byteAt (Function.update mem (entry mem ip (slotOf bn)) data) ip k =
        if k / BSIZE = bn then data (k % BSIZE) else byteAt mem ip k := by
  have hslot := slotOf_lt hbn
  obtain ⟨⟨hlow, hhigh⟩, hmark⟩ := h.inside hslot hne
  set e := entry mem ip (slotOf bn) with he
  set mem' := Function.update mem e data with hmem'
  have hkeep : ∀ x, x ≠ e → mem' x = mem x := fun x hx => Function.update_of_ne hx _ _
  have hused : ∀ c < sb.size, sb.used mem' c = sb.used mem c := by
    intro c hc
    apply sb.used_congr _ hc
    intro x _ hx
    exact hkeep x (by omega)
  have hino : ∀ j < sb.ninodes, sb.inode mem' j = sb.inode mem j := by
    intro j hj
    apply sb.inode_congr _ hj
    intro x hx
    have := sb.bmapstart_lt
    exact hkeep x (by omega)
  have hentry : ∀ s, entry mem' ip s = entry mem ip s := by
    apply entry_congr
    intro hind
    apply hkeep
    intro heq
    rw [← indirect_eq mem ip] at heq hind
    exact slotOf_ne bn (h.inj (by decide) hslot hind heq).symm
  have hother : ∀ j < sb.ninodes, j ≠ i → (∀ s, entry mem' (sb.inode mem j) s =
      entry mem (sb.inode mem j) s) ∧ (sb.inode mem j).bytes mem' = (sb.inode mem j).bytes mem := by
    intro j hj hji
    have hI : Function.update (sb.inode mem) i ip j = sb.inode mem j :=
      Function.update_of_ne hji _ _
    have hsame := h.consistent.same_file hj mem'
    rw [hI] at hsame
    apply hsame
    intro t ht htne
    exact hkeep _ fun heq => h.ne_other hslot hj hji ht hne heq.symm
  refine ⟨⟨h.lt, h.live, h.fits, ?_⟩, fun j hj hji => ⟨hino j hj, (hother j hj hji).2⟩, hentry,
    hused, fun k hk => ?_⟩
  · have hI : ∀ j < sb.ninodes, Function.update (sb.inode mem') i ip j =
        Function.update (sb.inode mem) i ip j := by
      intro j hj
      by_cases hji : j = i
      · rw [hji, Function.update_self, Function.update_self]
      · rw [Function.update_of_ne hji, Function.update_of_ne hji, hino j hj]
    apply h.consistent.congr hused
    · intro j hj s _
      rw [hI j hj]
      by_cases hji : j = i
      · rw [hji, Function.update_self]
        exact hentry s
      · rw [Function.update_of_ne hji]
        exact (hother j hj hji).1 s
    · exact fun j hj => congrArg Dinode.type (hI j hj)
    · exact fun j hj => congrArg Dinode.size (hI j hj)
  · unfold byteAt
    rw [hentry]
    by_cases hkbn : k / BSIZE = bn
    · rw [if_pos hkbn, hkbn, ← he, hmem', Function.update_self]
    · rw [if_neg hkbn]
      apply congrFun
      apply hkeep
      intro heq
      by_cases hzero : entry mem ip (slotOf (k / BSIZE)) = 0
      · exact hne (heq ▸ hzero)
      · exact hkbn (slotOf_inj (h.inj (slotOf_lt (div_lt_maxfile hk)) hslot hzero heq))

/-- The copy has a new size, and blocks for it. -/
theorem resize (h : Open sb i mem ip) (size : ℕ) (hbound : size ≤ MAXFILE * BSIZE)
    (hwhole : ∀ bn, BSIZE * bn < size → entry mem ip (slotOf bn) ≠ 0) :
    Open sb i mem { ip with size := size } := by
  have hlt : size < 2 ^ 32 := by
    simp only [MAXFILE, BSIZE, NDIRECT, NINDIRECT] at hbound
    omega
  refine ⟨h.lt, h.live, ⟨h.fits.type, h.fits.major, h.fits.minor, h.fits.nlink, hlt, h.fits.addrs,
    h.fits.bounded⟩, h.consistent.reserved, ?_, fun j hj => ?_, fun j hj bn hbn => ?_,
    fun j hj hzero => ?_⟩
  · apply h.consistent.alloc.congr _ fun _ _ => rfl
    rintro ⟨j, t⟩
    by_cases hin : j < sb.ninodes ∧ t < NSLOTS
    · rw [Consistent.owner_eq hin.1 hin.2, Consistent.owner_eq hin.1 hin.2]
      by_cases hji : j = i
      · rw [hji, Function.update_self, Function.update_self]
        rfl
      · rw [Function.update_of_ne hji, Function.update_of_ne hji]
    · exact (if_neg hin).trans (if_neg hin).symm
  · by_cases hji : j = i
    · rw [hji, Function.update_self]
      exact hbound
    · have := h.consistent.bounded j hj
      rw [Function.update_of_ne hji] at this ⊢
      exact this
  · by_cases hji : j = i
    · rw [hji, Function.update_self] at hbn ⊢
      exact hwhole bn hbn
    · have := h.consistent.whole j hj bn
      rw [Function.update_of_ne hji] at this hbn ⊢
      exact this hbn
  · by_cases hji : j = i
    · rw [hji, Function.update_self] at hzero
      exact absurd hzero h.live
    · have := h.consistent.vacant j hj
      rw [Function.update_of_ne hji] at this hzero ⊢
      exact this hzero

/-- Other fields of the copy have changed. -/
theorem relabel (h : Open sb i mem ip) {major minor nlink : ℕ} (hmajor : major < 2 ^ 16)
    (hminor : minor < 2 ^ 16) (hnlink : nlink < 2 ^ 16) :
    Open sb i mem { ip with major := major, minor := minor, nlink := nlink } := by
  refine ⟨h.lt, h.live, ⟨h.fits.type, hmajor, hminor, hnlink, h.fits.size, h.fits.addrs,
    h.fits.bounded⟩, ?_⟩
  have hI : ∀ j, Function.update (sb.inode mem) i
        { ip with major := major, minor := minor, nlink := nlink } j =
      if j = i then { ip with major := major, minor := minor, nlink := nlink }
      else Function.update (sb.inode mem) i ip j := by
    intro j
    by_cases hji : j = i
    · rw [hji, Function.update_self, if_pos rfl]
    · rw [Function.update_of_ne hji, Function.update_of_ne hji, if_neg hji]
  apply h.consistent.congr fun _ _ => rfl
  · intro j _ t _
    rw [hI]
    split_ifs with hji
    · rw [hji, Function.update_self]
      rfl
    · rfl
  · intro j _
    rw [hI]
    split_ifs with hji
    · rw [hji, Function.update_self]
    · rfl
  · intro j _
    rw [hI]
    split_ifs with hji
    · rw [hji, Function.update_self]
    · rfl

/-- `iupdate` stores the copy. -/
theorem close (h : Open sb i mem ip) :
    Volume sb (sb.stored mem i ip) ∧ Others sb i mem (sb.stored mem i ip) ∧
      (∀ s, entry (sb.stored mem i ip) ip s = entry mem ip s) ∧
      (∀ c < sb.size, sb.used (sb.stored mem i ip) c = sb.used mem c) ∧
      ip.bytes (sb.stored mem i ip) = ip.bytes mem := by
  have hino : sb.inode (sb.stored mem i ip) = Function.update (sb.inode mem) i ip :=
    sb.inode_stored h.fits
  have hblock := Superblock.iblock_lt h.lt
  have hkeep : ∀ x, sb.bmapstart ≤ x → sb.stored mem i ip x = mem x := fun x hx =>
    Function.update_of_ne (by omega) _ _
  have hdata : ∀ x, sb.Data x → sb.stored mem i ip x = mem x := fun x hx =>
    hkeep x (Nat.le_trans (Nat.le_of_lt sb.bmapstart_lt) hx.1)
  have hused : ∀ c < sb.size, sb.used (sb.stored mem i ip) c = sb.used mem c := fun c hc =>
    sb.used_congr (fun x hx _ => hkeep x hx) hc
  have hsame : ∀ j < sb.ninodes,
      (∀ s, entry (sb.stored mem i ip) (Function.update (sb.inode mem) i ip j) s =
        entry mem (Function.update (sb.inode mem) i ip j) s) ∧
      (Function.update (sb.inode mem) i ip j).bytes (sb.stored mem i ip) =
        (Function.update (sb.inode mem) i ip j).bytes mem := fun j hj =>
    h.consistent.same_file hj _ fun t ht hne => hdata _ (h.consistent.inside hj ht hne).1
  have hself := hsame i h.lt
  rw [Function.update_self] at hself
  refine ⟨?_, ?_, hself.1, hused, hself.2⟩
  · unfold Volume
    rw [hino]
    exact h.consistent.congr hused (fun j hj s _ => (hsame j hj).1 s) (fun _ _ => rfl)
      fun _ _ => rfl
  · intro j hj hji
    have := (hsame j hj).2
    rw [hino]
    rw [Function.update_of_ne hji] at this ⊢
    exact ⟨rfl, this⟩

end Open

end AdvancedOperatingSystems.FileSystem
