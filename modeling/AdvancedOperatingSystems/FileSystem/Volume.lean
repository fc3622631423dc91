import AdvancedOperatingSystems.FileSystem.Inode
import AdvancedOperatingSystems.Foundations.Allocation
import Mathlib.Data.List.Basic

/-!
# What a volume holds

The blocks of a volume as a bitmap, a table of inodes and data blocks, and what the functions
of `fs.c` that change one block do to these.
-/

namespace AdvancedOperatingSystems.FileSystem

open Foundations Riscv DemandPaging StoreProgram

section Bits

variable (data : Block) (bi c : ℕ)

theorem bit_eq : bit data bi = (data (bi / 8)).getLsbD (bi % 8) := by
  have hmask : bitMask bi = BitVec.twoPow 8 (bi % 8) := (BitVec.twoPow_eq 8 (bi % 8)).symm
  have hlt : bi % 8 < 8 := Nat.mod_lt bi (by omega)
  unfold bit
  rw [hmask, BitVec.and_twoPow]
  cases (data (bi / 8)).getLsbD (bi % 8) with
  | false => simp
  | true =>
    have hne : BitVec.twoPow 8 (bi % 8) ≠ 0#8 := by
      intro h
      have := congrArg (fun x => BitVec.getLsbD x (bi % 8)) h
      simp [hlt] at this
    simpa using hne

theorem getLsbD_bitMask (j : ℕ) :
    (bitMask bi).getLsbD j = decide (j = bi % 8) := by
  have hmask : bitMask bi = BitVec.twoPow 8 (bi % 8) := (BitVec.twoPow_eq 8 (bi % 8)).symm
  have hlt : bi % 8 < 8 := Nat.mod_lt bi (by omega)
  rw [hmask, BitVec.getLsbD_twoPow]
  simp [hlt, eq_comm]

theorem bit_setBit : bit (setBit bi data) c = if c = bi then true else bit data c := by
  have hc : c % 8 < 8 := Nat.mod_lt c (by omega)
  rw [bit_eq, bit_eq, setBit]
  by_cases hbyte : c / 8 = bi / 8
  · rw [hbyte, Function.update_self, BitVec.getLsbD_or, getLsbD_bitMask bi (c % 8)]
    by_cases heq : c = bi
    · simp [heq]
    · have hmod : c % 8 ≠ bi % 8 := by omega
      simp [heq, hmod]
  · have heq : c ≠ bi := by
      rintro rfl
      exact hbyte rfl
    rw [Function.update_of_ne hbyte, if_neg heq]

theorem bit_clearBit : bit (clearBit bi data) c = if c = bi then false else bit data c := by
  have hc : c % 8 < 8 := Nat.mod_lt c (by omega)
  rw [bit_eq, bit_eq, clearBit]
  by_cases hbyte : c / 8 = bi / 8
  · rw [hbyte, Function.update_self, BitVec.getLsbD_and, BitVec.getLsbD_not,
      getLsbD_bitMask bi (c % 8)]
    by_cases heq : c = bi
    · simp [heq]
    · have hmod : c % 8 ≠ bi % 8 := by omega
      simp [heq, hmod, hc]
  · have heq : c ≠ bi := by
      rintro rfl
      exact hbyte rfl
    rw [Function.update_of_ne hbyte, if_neg heq]

end Bits

section Fields

/-- The number that was stored is read back. -/
theorem field_putField (data : Block) {off n w : ℕ} (hw : w < 256 ^ n) :
    field (putField data off n w) off n = w := by
  -- the last `n` bytes of a number stored from `base` on
  have hloop : ∀ m base, m + base = n →
      field (putField data off n w) (off + base) m = w / 256 ^ base := by
    intro m
    induction m with
    | zero =>
      intro base hbase
      rw [Nat.zero_add] at hbase
      rw [hbase, Nat.div_eq_of_lt hw]
      rfl
    | succ m ih =>
      intro base hbase
      have hin : off ≤ off + base ∧ off + base < off + n := ⟨Nat.le_add_right _ _, by omega⟩
      have hbyte : (putField data off n w (off + base)).toNat = w / 256 ^ base % 256 := by
        rw [putField, if_pos hin, BitVec.toNat_ofNat, Nat.add_sub_cancel_left]
      rw [field, hbyte, Nat.add_assoc, ih (base + 1) (by omega), pow_succ, ← Nat.div_div_eq_div_mul]
      exact Nat.mod_add_div _ _
  simpa using hloop n 0 rfl

theorem field_putField_of_disjoint (data : Block) {off n off' n' : ℕ} (w : ℕ)
    (h : off + n ≤ off' ∨ off' + n' ≤ off) :
    field (putField data off n w) off' n' = field data off' n' := by
  apply field_congr
  intro k hlow hhigh
  rw [putField, if_neg]
  omega

theorem field_foldl_putField {l : List (ℕ × ℕ × ℕ)} {base off n : ℕ} (data : Block)
    (hout : ∀ x ∈ l, base + x.1 + x.2.1 ≤ off ∨ off + n ≤ base + x.1) :
    field (l.foldl (fun data x => putField data (base + x.1) x.2.1 x.2.2) data) off n =
      field data off n := by
  induction l generalizing data with
  | nil => rfl
  | cons x l ih =>
    rw [List.forall_mem_cons] at hout
    rw [List.foldl_cons, ih _ hout.2, field_putField_of_disjoint _ _ hout.1]

theorem field_foldl_putField_mem {l : List (ℕ × ℕ × ℕ)} {base : ℕ} (data : Block)
    (hapart : l.Pairwise fun x y => x.1 + x.2.1 ≤ y.1) (hfits : ∀ x ∈ l, x.2.2 < 256 ^ x.2.1)
    {x : ℕ × ℕ × ℕ} (hx : x ∈ l) :
    field (l.foldl (fun data x => putField data (base + x.1) x.2.1 x.2.2) data) (base + x.1) x.2.1 =
      x.2.2 := by
  induction l generalizing data with
  | nil => cases hx
  | cons y l ih =>
    rw [List.forall_mem_cons] at hfits
    rw [List.pairwise_cons] at hapart
    rw [List.foldl_cons]
    rcases List.mem_cons.mp hx with rfl | hx
    · rw [field_foldl_putField _ fun z hz => Or.inr (by have := hapart.1 z hz; omega),
        field_putField _ hfits.1]
    · exact ih _ hapart.2 hfits.2 hx

end Fields

namespace Dinode

/-- The numbers fit their fields. -/
structure Fits (ip : Dinode) : Prop where
  type : ip.type < 2 ^ 16
  major : ip.major < 2 ^ 16
  minor : ip.minor < 2 ^ 16
  nlink : ip.nlink < 2 ^ 16
  size : ip.size < 2 ^ 32
  addrs : ∀ k, ip.addrs k < 2 ^ 32
  bounded : ∀ k, NDIRECT < k → ip.addrs k = 0

theorem fits_decode (data : Block) (i : ℕ) : (decode data i).Fits where
  type := field_lt _ _ 2
  major := field_lt _ _ 2
  minor := field_lt _ _ 2
  nlink := field_lt _ _ 2
  size := field_lt _ _ 4
  addrs k := by
    unfold decode
    dsimp only
    split_ifs
    · exact field_lt _ _ 4
    · omega
  bounded k hk := if_neg (Nat.not_le_of_lt hk)

theorem fields_apart (ip : Dinode) : ip.fields.Pairwise fun x y => x.1 + x.2.1 ≤ y.1 := by
  simp only [fields, NDIRECT, List.cons_append, List.nil_append, List.pairwise_cons,
    List.pairwise_map, List.mem_cons, List.mem_map, List.mem_range]
  refine ⟨?_, ?_, ?_, ?_, ?_, ?_⟩
  · rintro x (rfl | rfl | rfl | rfl | ⟨k, -, rfl⟩) <;> dsimp only <;> omega
  · rintro x (rfl | rfl | rfl | ⟨k, -, rfl⟩) <;> dsimp only <;> omega
  · rintro x (rfl | rfl | ⟨k, -, rfl⟩) <;> dsimp only <;> omega
  · rintro x (rfl | ⟨k, -, rfl⟩) <;> dsimp only <;> omega
  · rintro x ⟨k, -, rfl⟩
    dsimp only
    omega
  · exact List.pairwise_lt_range.imp fun h => by omega

variable {ip : Dinode}

theorem Fits.fields (h : ip.Fits) : ∀ x ∈ ip.fields, x.2.2 < 256 ^ x.2.1 := by
  intro x hx
  rcases List.mem_append.mp hx with hx | hx
  · simp only [List.mem_cons, List.not_mem_nil, or_false] at hx
    rcases hx with rfl | rfl | rfl | rfl | rfl
    · exact h.type
    · exact h.major
    · exact h.minor
    · exact h.nlink
    · exact h.size
  · obtain ⟨k, -, rfl⟩ := List.mem_map.mp hx
    exact h.addrs k

theorem fields_bound : ∀ x ∈ ip.fields, x.1 + x.2.1 ≤ sizeofDinode := by
  intro x hx
  rcases List.mem_append.mp hx with hx | hx
  · simp only [List.mem_cons, List.not_mem_nil, or_false] at hx
    rcases hx with rfl | rfl | rfl | rfl | rfl <;> dsimp only [sizeofDinode] <;> omega
  · obtain ⟨k, hk, rfl⟩ := List.mem_map.mp hx
    have := List.mem_range.mp hk
    dsimp only [NDIRECT, sizeofDinode] at this ⊢
    omega

/-- The inode that was stored is read back. -/
theorem decode_encode (h : ip.Fits) (i : ℕ) (data : Block) :
    decode (ip.encode i data) i = ip := by
  have hread : ∀ x ∈ ip.fields,
      field (ip.encode i data) (sizeofDinode * i + x.1) x.2.1 = x.2.2 := fun x hx =>
    field_foldl_putField_mem data ip.fields_apart h.fields hx
  have hfixed : ∀ off n w, (off, n, w) ∈ ip.fields →
      field (ip.encode i data) (sizeofDinode * i + off) n = w := fun off n w hx => hread _ hx
  have haddrs : (decode (ip.encode i data) i).addrs = ip.addrs := by
    funext k
    unfold decode
    dsimp only
    split_ifs with hk
    · rw [Nat.add_assoc]
      apply hfixed
      apply List.mem_append_right
      exact List.mem_map.mpr ⟨k, List.mem_range.mpr (Nat.lt_succ_of_le hk), rfl⟩
    · exact (h.bounded k (Nat.lt_of_not_le hk)).symm
  obtain ⟨type, major, minor, nlink, size, addrs⟩ := ip
  unfold decode at haddrs ⊢
  dsimp only at haddrs
  rw [haddrs]
  congr 1
  · exact hfixed 0 2 type (by simp [Dinode.fields])
  · exact hfixed 2 2 major (by simp [Dinode.fields])
  · exact hfixed 4 2 minor (by simp [Dinode.fields])
  · exact hfixed 6 2 nlink (by simp [Dinode.fields])
  · exact hfixed 8 4 size (by simp [Dinode.fields])

/-- The other inodes of the block stay. -/
theorem decode_encode_of_ne {i j : ℕ} (hne : j ≠ i) (data : Block) :
    decode (ip.encode i data) j = decode data j := by
  have hread : ∀ off n, off + n ≤ sizeofDinode →
      field (ip.encode i data) (sizeofDinode * j + off) n =
        field data (sizeofDinode * j + off) n := by
    intro off n hoff
    apply field_foldl_putField
    intro x hx
    have hbound := fields_bound x hx
    simp only [sizeofDinode] at hbound hoff ⊢
    omega
  have haddrs : (decode (ip.encode i data) j).addrs = (decode data j).addrs := by
    funext k
    unfold decode
    dsimp only
    split_ifs with hk
    · rw [Nat.add_assoc, hread]
      simp only [NDIRECT] at hk
      simp only [sizeofDinode]
      omega
    · rfl
  unfold decode at haddrs ⊢
  dsimp only at haddrs
  rw [haddrs]
  congr 1
  · exact hread 0 2 (by decide)
  · exact hread 2 2 (by decide)
  · exact hread 4 2 (by decide)
  · exact hread 6 2 (by decide)
  · exact hread 8 4 (by decide)

end Dinode

namespace Superblock

variable (sb : Superblock) (mem : ℕ → Block)

def firstData : ℕ := sb.bmapstart + sb.size / BPB + 1

def Data (b : ℕ) : Prop := sb.firstData ≤ b ∧ b < sb.size

instance (b : ℕ) : Decidable (sb.Data b) := inferInstanceAs (Decidable (_ ∧ _))

def used (b : ℕ) : Bool := bit (mem (sb.bblock b)) (b % BPB)

def inode (inum : ℕ) : Dinode := Dinode.decode (mem (sb.iblock inum)) (inum % IPB)

/-- The blocks after an `iupdate`. -/
def stored (inum : ℕ) (ip : Dinode) : ℕ → Block :=
  Function.update mem (sb.iblock inum) (ip.encode (inum % IPB) (mem (sb.iblock inum)))

variable {sb} {mem mem' : ℕ → Block} {b c i j x : ℕ} {data : Block} {ip : Dinode}

theorem iblock_lt (hi : i < sb.ninodes) : sb.iblock i < sb.bmapstart := by
  have hle := sb.inodes_le
  have hdiv : i / IPB ≤ sb.ninodes / IPB := Nat.div_le_div_right (Nat.le_of_lt hi)
  unfold iblock
  omega

theorem le_bblock : sb.bmapstart ≤ sb.bblock b := Nat.le_add_left _ _

theorem bblock_lt (hb : b < sb.size) : sb.bblock b < sb.firstData := by
  have hdiv : b / BPB ≤ sb.size / BPB := Nat.div_le_div_right (Nat.le_of_lt hb)
  unfold bblock firstData
  omega

theorem bmapstart_lt : sb.bmapstart < sb.firstData := by
  exact Nat.lt_succ_of_le (Nat.le_add_right _ _)

theorem used_congr (h : ∀ x, sb.bmapstart ≤ x → x < sb.firstData → mem' x = mem x)
    (hb : b < sb.size) : sb.used mem' b = sb.used mem b := by
  unfold used
  rw [h _ le_bblock (bblock_lt hb)]

theorem inode_congr (h : ∀ x < sb.bmapstart, mem' x = mem x) (hi : i < sb.ninodes) :
    sb.inode mem' i = sb.inode mem i := by
  unfold inode
  rw [h _ (iblock_lt hi)]

theorem eq_of_bblock (hblock : sb.bblock c = sb.bblock b) (hbit : c % BPB = b % BPB) : c = b := by
  unfold bblock at hblock
  simp only [BPB, BSIZE] at hblock hbit
  omega

theorem used_mark : sb.used
      (Function.update mem (sb.bblock b) (setBit (b % BPB) (mem (sb.bblock b)))) c =
    Function.update (sb.used mem) b true c := by
  unfold used
  by_cases hblock : sb.bblock c = sb.bblock b
  · rw [hblock, Function.update_self, bit_setBit]
    by_cases hcb : c = b
    · rw [hcb, if_pos rfl, Function.update_self]
    · rw [if_neg fun hbit => hcb (eq_of_bblock hblock hbit), Function.update_of_ne hcb, hblock]
  · have hcb : c ≠ b := by
      rintro rfl
      exact hblock rfl
    rw [Function.update_of_ne hblock, Function.update_of_ne hcb]

theorem used_clear : sb.used
      (Function.update mem (sb.bblock b) (clearBit (b % BPB) (mem (sb.bblock b)))) c =
    Function.update (sb.used mem) b false c := by
  unfold used
  by_cases hblock : sb.bblock c = sb.bblock b
  · rw [hblock, Function.update_self, bit_clearBit]
    by_cases hcb : c = b
    · rw [hcb, if_pos rfl, Function.update_self]
    · rw [if_neg fun hbit => hcb (eq_of_bblock hblock hbit), Function.update_of_ne hcb, hblock]
  · have hcb : c ≠ b := by
      rintro rfl
      exact hblock rfl
    rw [Function.update_of_ne hblock, Function.update_of_ne hcb]

theorem inode_stored (hfits : ip.Fits) :
    sb.inode (sb.stored mem i ip) = Function.update (sb.inode mem) i ip := by
  funext j
  unfold inode stored
  by_cases hblock : sb.iblock j = sb.iblock i
  · rw [hblock, Function.update_self]
    by_cases hji : j = i
    · rw [hji, Function.update_self, Dinode.decode_encode hfits]
    · have hmod : j % IPB ≠ i % IPB := by
        intro hmod
        unfold iblock at hblock
        simp only [IPB, BSIZE, sizeofDinode] at hblock hmod
        omega
      rw [Function.update_of_ne hji, Dinode.decode_encode_of_ne hmod, hblock]
  · have hji : j ≠ i := by
      rintro rfl
      exact hblock rfl
    rw [Function.update_of_ne hblock, Function.update_of_ne hji]

end Superblock

section Allocator

variable {sb : Superblock} {s : Noted ℕ Block} {b : ℕ}

theorem firstFree_some {data : Block} {bi : ℕ} (h : firstFree sb data b = some bi) :
    bi < BPB ∧ b + bi < sb.size ∧ bit data bi = false := by
  unfold firstFree at h
  have hmem := List.mem_range.mp (List.mem_of_find?_eq_some h)
  have hbit := List.find?_some h
  rw [Nat.lt_min] at hmem
  exact ⟨hmem.1, by omega, by simpa using hbit⟩

theorem firstFree_none {data : Block} (h : firstFree sb data b = none) {bi : ℕ} (hbi : bi < BPB)
    (hsize : b + bi < sb.size) : bit data bi = true := by
  unfold firstFree at h
  rw [List.find?_eq_none] at h
  simpa using h bi (List.mem_range.mpr (Nat.lt_min.mpr ⟨hbi, by omega⟩))

/-- What `balloc` leaves: it has marked and zeroed a block that was not in use, or it returns 0
since there is none. -/
inductive Balloced (sb : Superblock) (s : Noted ℕ Block) : ℕ → Noted ℕ Block → Prop
  | block (b : ℕ) (hb : b < sb.size) (hfree : sb.used s.mem b = false) :
      Balloced sb s b
        { s with
          mem := Function.update
            (Function.update s.mem (sb.bblock b) (setBit (b % BPB) (s.mem (sb.bblock b)))) b
            fun _ => 0
          notes := (s.notes.insert (sb.bblock b)).insert b }
  | none (hfull : ∀ b < sb.size, sb.used s.mem b = true) : Balloced sb s 0 s

/-- `balloc` finds a block that is not in use, if there is one. -/
theorem balloc_ends (sb : Superblock) (s : Noted ℕ Block) :
    Ends (balloc sb) s (Balloced sb s) := by
  -- the blocks before the ones that are looked at are in use
  have hloop : ∀ n k, k + n = (sb.size + BPB - 1) / BPB →
      (∀ b < BPB * k, b < sb.size → sb.used s.mem b = true) →
      Ends (ballocLoop sb ((List.range' k n).map (BPB * ·))) s (Balloced sb s) := by
    intro n
    induction n with
    | zero =>
      intro k hk hprev
      rw [List.range'_zero, List.map_nil, ballocLoop, ends_pure]
      refine .none fun b hb => hprev b ?_ hb
      simp only [BPB, BSIZE] at hk ⊢
      omega
    | succ n ih =>
      intro k hk hprev
      rw [List.range'_succ, List.map_cons, ballocLoop, ends_bind, ends_get]
      have hbblock : ∀ bi < BPB, sb.bblock (BPB * k + bi) = sb.bblock (BPB * k) ∧
          (BPB * k + bi) % BPB = bi := by
        intro bi hbi
        unfold Superblock.bblock
        simp only [BPB, BSIZE] at hbi ⊢
        omega
      cases hfirst : firstFree sb (s.mem (sb.bblock (BPB * k))) (BPB * k) with
      | some bi =>
        obtain ⟨hbi, hsize, hbit⟩ := firstFree_some hfirst
        obtain ⟨hblock, hmod⟩ := hbblock bi hbi
        have hfree : sb.used s.mem (BPB * k + bi) = false := by
          unfold Superblock.used
          rw [hblock, hmod, hbit]
        have hresult := Balloced.block _ hsize hfree
        rw [hblock, hmod] at hresult
        simpa [bzero, ends_bind] using hresult
      | none =>
        apply ih (k + 1) (by omega)
        intro b hb hsize
        by_cases hlow : b < BPB * k
        · exact hprev b hlow hsize
        · have hbi : b - BPB * k < BPB := by
            rw [Nat.mul_succ] at hb
            omega
          have hsum : BPB * k + (b - BPB * k) = b := by omega
          obtain ⟨hblock, hmod⟩ := hbblock (b - BPB * k) hbi
          rw [hsum] at hblock hmod
          unfold Superblock.used
          rw [hblock, hmod]
          exact firstFree_none hfirst hbi (by omega)
  rw [balloc, List.range_eq_range']
  exact hloop _ 0 (Nat.zero_add _) fun b hb => by omega

theorem bfree_ends (hb : sb.used s.mem b = true) {post : Unit → Noted ℕ Block → Prop}
    (hpost : post ()
      { s with
        mem := Function.update s.mem (sb.bblock b) (clearBit (b % BPB) (s.mem (sb.bblock b)))
        notes := s.notes.insert (sb.bblock b) }) : Ends (bfree sb b) s post := by
  have hbit : bit (s.mem (sb.bblock b)) (b % BPB) = true := hb
  rw [bfree, ends_bind, ends_get, if_pos hbit, ends_modify]
  exact hpost

theorem iupdate_ends {i : ℕ} {ip : Dinode} {post : Unit → Noted ℕ Block → Prop}
    (hpost : post ()
      { s with mem := sb.stored s.mem i ip, notes := s.notes.insert (sb.iblock i) }) :
    Ends (iupdate sb i ip) s post := by
  rw [iupdate, ends_modify]
  exact hpost

end Allocator

end AdvancedOperatingSystems.FileSystem
