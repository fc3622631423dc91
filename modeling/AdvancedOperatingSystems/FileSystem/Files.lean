import AdvancedOperatingSystems.FileSystem.FileData
import AdvancedOperatingSystems.FileSystem.Lifecycle
import AdvancedOperatingSystems.Foundations.Simulation

/-!
# Files

What inodes are for: a table of files, each a row of bytes. A call of `fs.c` does to this table
what it says, to one file at a time, whatever it does to the bitmap, to indirect blocks and to
blocks of inodes. The volume stays consistent. A block holds what its buffer holds: what a failed
copy has left there stays, as if buffers were not recycled.
-/

namespace AdvancedOperatingSystems.FileSystem

open Foundations Riscv DemandPaging StoreProgram

/-- A file. Type 0 is no file. -/
structure FileData where
  type : ℕ
  major : ℕ
  minor : ℕ
  nlink : ℕ
  bytes : List Byte

abbrev Files (n : ℕ) := Fin n → FileData

/-- The calls on inodes. But for the first, they are about an inode that the caller locks. -/
inductive FileCall (n : ℕ)
  | create (type : BitVec 16)
  | write (i : Fin n) (src : ℕ → Option Byte) (off count : BitVec 32)
  | read (i : Fin n) (dst : ℕ → Bool) (off count : BitVec 32)
  | truncate (i : Fin n)
  | relabel (i : Fin n) (major minor nlink : BitVec 16)
  | put (i : Fin n)

inductive Reply
  | inode (inum : ℕ)
  | count (tot : Option ℕ)
  | bytes (bs : Option (List Byte))
  | done
  deriving DecidableEq

def allUsed (sb : Superblock) (mem : ℕ → Block) : Bool := (List.range sb.size).all (sb.used mem)

namespace FileCall

/-- The inode that a call locks. -/
def inode {n : ℕ} : FileCall n → Option (Fin n)
  | create _ => none
  | write i _ _ _ => some i
  | read i _ _ _ => some i
  | truncate i => some i
  | relabel i _ _ _ => some i
  | put i => some i

def Live {n : ℕ} (e : FileCall n) (F : Files n) : Prop := ∀ i, e.inode = some i → (F i).type ≠ 0

variable (sb : Superblock)

/-- The functions that a call performs. `put` is `iput` of the last reference to an inode. -/
def perform : FileCall sb.ninodes → FsProgram Reply
  | create type => do
      let inum ← ialloc sb type.toNat
      return .inode inum
  | write i src off count => do
      let ip ← ilock sb i
      let r ← writei sb i ip src off.toNat count.toNat
      return .count r.1
  | read i dst off count => do
      let ip ← ilock sb i
      let r ← readi sb ip dst off.toNat count.toNat
      return .bytes r.1
  | truncate i => do
      let ip ← ilock sb i
      let _ ← itrunc sb i ip
      return .done
  | relabel i major minor nlink => do
      let ip ← ilock sb i
      iupdate sb i { ip with major := major.toNat, minor := minor.toNat, nlink := nlink.toNat }
      return .done
  | put i => do
      let ip ← ilock sb i
      if ip.nlink = 0 then do
        iputFree sb i ip
        return .done
      else return .done

def step (s : Noted ℕ Block) (e : FileCall sb.ninodes) : Except Panic (Noted ℕ Block) :=
  ((e.perform sb).run s).map Prod.snd

/-- A call and its result, and whether every block is in use then. -/
abbrev Seen (n : ℕ) := FileCall n × Reply × Bool

def emit (s : Noted ℕ Block) (e : FileCall sb.ninodes) : List (Seen sb.ninodes) :=
  match (e.perform sb).run s with
  | .ok (r, t) => [(e, r, allUsed sb t.mem)]
  | .error _ => []

end FileCall

/-- The bytes that a read gives. A range that wraps around is empty. -/
def reading (dst : ℕ → Bool) (bs : List Byte) (off n : ℕ) : Option (List Byte) :=
  if 2 ^ 32 ≤ off + n then some []
  else if ∀ j < (bs.drop off).length, j < n → dst j = true then some ((bs.drop off).take n)
  else none

/-- The bytes `src 0, src 1, …` of a buffer, as far as they can be read. -/
def prefixOf (src : ℕ → Option Byte) (n : ℕ) : List Byte :=
  (List.range n).map fun j => (src j).getD 0

/-- Why a write of `n` bytes stops after `m` bytes and `c` more that it does not count: it is
complete, the volume is full, or the next byte cannot be read. -/
def Stops (src : ℕ → Option Byte) (n m c : ℕ) (full : Bool) : Prop :=
  m = n ∧ c = 0 ∨ m < n ∧ c = 0 ∧ full = true ∨ m + c < n ∧ src (m + c) = none

/-- What the calls mean. The bytes that a write does not count are in the file as far as its
size goes. -/
inductive Files.Next {n : ℕ} : Files n → FileCall.Seen n → Files n → Prop
  | create {F : Files n} {type : BitVec 16} {full : Bool} (i : Fin n) (hpos : i.val ≠ 0)
      (hfree : (F i).type = 0) :
      Next F (.create type, .inode i, full) (Function.update F i ⟨type.toNat, 0, 0, 0, []⟩)
  | noInode {F : Files n} {type : BitVec 16} {full : Bool}
      (hnone : ∀ i : Fin n, i.val ≠ 0 → (F i).type ≠ 0) :
      Next F (.create type, .inode 0, full) F
  | write {F : Files n} {i : Fin n} {src : ℕ → Option Byte} {off count : BitVec 32} {full : Bool}
      (m c : ℕ) (hlive : (F i).type ≠ 0) (hoff : off.toNat ≤ (F i).bytes.length)
      (hend : off.toNat + count.toNat ≤ MAXFILE * BSIZE)
      (hread : ∀ j < m + c, (src j).isSome) (hstops : Stops src count.toNat m c full) :
      Next F (.write i src off count, .count (some m), full)
        (Function.update F i
          { F i with
            bytes := (overwrite (F i).bytes off.toNat (prefixOf src (m + c))).take
              (max (F i).bytes.length (off.toNat + m)) })
  | refuse {F : Files n} {i : Fin n} {src : ℕ → Option Byte} {off count : BitVec 32} {full : Bool}
      (hlive : (F i).type ≠ 0)
      (hout : (F i).bytes.length < off.toNat ∨ MAXFILE * BSIZE < off.toNat + count.toNat) :
      Next F (.write i src off count, .count none, full) F
  | read {F : Files n} {i : Fin n} {dst : ℕ → Bool} {off count : BitVec 32} {full : Bool}
      (hlive : (F i).type ≠ 0) :
      Next F (.read i dst off count,
        .bytes (reading dst (F i).bytes off.toNat count.toNat), full) F
  | truncate {F : Files n} {i : Fin n} {full : Bool} (hlive : (F i).type ≠ 0) :
      Next F (.truncate i, .done, full) (Function.update F i { F i with bytes := [] })
  | relabel {F : Files n} {i : Fin n} {major minor nlink : BitVec 16} {full : Bool}
      (hlive : (F i).type ≠ 0) :
      Next F (.relabel i major minor nlink, .done, full)
        (Function.update F i
          { F i with major := major.toNat, minor := minor.toNat, nlink := nlink.toNat })
  | remove {F : Files n} {i : Fin n} {full : Bool} (hlive : (F i).type ≠ 0)
      (hnlink : (F i).nlink = 0) :
      Next F (.put i, .done, full) (Function.update F i { F i with type := 0, bytes := [] })
  | keep {F : Files n} {i : Fin n} {full : Bool} (hlive : (F i).type ≠ 0)
      (hnlink : (F i).nlink ≠ 0) : Next F (.put i, .done, full) F

namespace Superblock

variable (sb : Superblock)

def fileOf (mem : ℕ → Block) (ip : Dinode) : FileData :=
  ⟨ip.type, ip.major, ip.minor, ip.nlink, ip.bytes mem⟩

def files (mem : ℕ → Block) : Files sb.ninodes := fun i => fileOf mem (sb.inode mem i)

variable {sb} {mem mem' : ℕ → Block} {ip : Dinode}

theorem files_update {i : Fin sb.ninodes} (hothers : Others sb i mem mem')
    (hino : sb.inode mem' i = ip) :
    sb.files mem' = Function.update (sb.files mem) i (fileOf mem' ip) := by
  funext j
  by_cases hji : j = i
  · rw [hji, Function.update_self, ← hino]
    rfl
  · obtain ⟨hsame, hbytes⟩ := hothers j j.isLt fun h => hji (Fin.ext h)
    rw [Function.update_of_ne hji]
    unfold files fileOf
    rw [hsame, hbytes]

end Superblock

section Step

variable {sb : Superblock} {s : Noted ℕ Block} {i : ℕ}

theorem ilock_bind_ends {α : Type} {g : Dinode → FsProgram α} {post : α → Noted ℕ Block → Prop}
    (hlive : (sb.inode s.mem i).type ≠ 0) (h : Ends (g (sb.inode s.mem i)) s post) :
    Ends (ilock sb i >>= g) s post := by
  have hlock : ilock sb i = (.get (sb.iblock i) >>= fun data =>
      if (Dinode.decode data (i % IPB)).type = 0 then .stop "ilock: no type"
      else pure (Dinode.decode data (i % IPB))) := rfl
  rw [hlock, ends_bind, ends_bind, ends_get]
  have htype : (Dinode.decode (s.mem (sb.iblock i)) (i % IPB)).type ≠ 0 := hlive
  rw [if_neg htype, ends_pure]
  exact h

theorem ilock_bind_dead {g : Dinode → FsProgram Reply} (hdead : (sb.inode s.mem i).type = 0) :
    (ilock sb i >>= g).run s = .error "ilock: no type" := by
  have hlock : (ilock sb i).run s = .error "ilock: no type" := by
    have htype : (Dinode.decode (s.mem (sb.iblock i)) (i % IPB)).type = 0 := hdead
    have hrun : (ilock sb i).run s =
        (if (Dinode.decode (s.mem (sb.iblock i)) (i % IPB)).type = 0 then
          (.stop "ilock: no type" : FsProgram Dinode)
        else pure (Dinode.decode (s.mem (sb.iblock i)) (i % IPB))).run s := rfl
    rw [hrun, if_pos htype]
    rfl
  rw [run_andThen, hlock]
  rfl

end Step

section Calls

variable {sb : Superblock} {s : Noted ℕ Block}

theorem allUsed_of_full (h : Full sb s.mem) : allUsed sb s.mem = true :=
  List.all_eq_true.mpr fun b hb => h b (List.mem_range.mp hb)

/-- What each call does: the volume stays consistent, and the files change as they should. -/
abbrev Performs (sb : Superblock) (s : Noted ℕ Block) (e : FileCall sb.ninodes) : Prop :=
  Ends (e.perform sb) s fun r t =>
    Volume sb t.mem ∧ Files.Next (sb.files s.mem) (e, r, allUsed sb t.mem) (sb.files t.mem)

theorem create_performs (h : Volume sb s.mem) (type : BitVec 16) :
    Performs sb s (.create type) := by
  have hc : Consistent sb s.mem (sb.inode s.mem) := h
  refine (ialloc_ends sb type.toNat s).bind ?_
  intro i t ht
  rw [ends_pure]
  cases ht with
  | inode i hpos hi hfree hfirst =>
    have hfits : ({ Dinode.zero with type := type.toNat } : Dinode).Fits :=
      ⟨type.isLt, Nat.two_pow_pos 16, Nat.two_pow_pos 16, Nat.two_pow_pos 16, Nat.two_pow_pos 32,
        fun _ => Nat.two_pow_pos 32, fun _ _ => rfl⟩
    obtain ⟨hvolume, hothers⟩ := h.replace hi (hc.vacant i hi hfree).2 hfits rfl fun _ => rfl
    refine ⟨hvolume, ?_⟩
    have hupdate := sb.files_update (i := ⟨i, hi⟩) hothers
      (congrFun (sb.inode_stored hfits) i |>.trans (Function.update_self ..))
    rw [hupdate]
    exact .create ⟨i, hi⟩ hpos hfree
  | none hnone =>
    exact ⟨h, .noInode fun i hi => hnone i hi i.isLt⟩

theorem length_overwrite {bs new : List Byte} {off : ℕ} (h : off ≤ bs.length) :
    (overwrite bs off new).length = max bs.length (off + new.length) := by
  unfold overwrite
  simp only [List.length_append, List.length_take, List.length_drop]
  omega

theorem write_performs (h : Volume sb s.mem) {i : Fin sb.ninodes}
    (hlive : (sb.files s.mem i).type ≠ 0) (src : ℕ → Option Byte) (off count : BitVec 32) :
    Performs sb s (.write i src off count) := by
  apply ilock_bind_ends hlive
  refine (writei_ends (h.locked i.isLt hlive)).bind ?_
  have hlength : (sb.files s.mem i).bytes.length = (sb.inode s.mem i).size := length_bytes _ _
  rintro r t (⟨hr, -, rfl, hout⟩ | ⟨m, c, hr, hoff, hend, hw⟩)
  · rw [ends_pure, hr]
    refine ⟨h, .refuse hlive ?_⟩
    rwa [hlength]
  · rw [ends_pure, hr]
    refine ⟨hw.volume, ?_⟩
    have hstops : Stops src count.toNat m c (allUsed sb t.mem) := by
      rcases hw.done with hdone | ⟨hm, hc, hfull⟩ | hnone
      · exact Or.inl hdone
      · exact Or.inr (Or.inl ⟨hm, hc, allUsed_of_full hfull⟩)
      · exact Or.inr (Or.inr hnone)
    have hfile : Superblock.fileOf t.mem r.2 =
        { sb.files s.mem i with
          bytes := (overwrite (sb.files s.mem i).bytes off.toNat (prefixOf src (m + c))).take
            (max (sb.files s.mem i).bytes.length (off.toNat + m)) } := by
      have hsame := hw.same
      rw [hlength]
      unfold Superblock.fileOf
      rw [hw.bytes, hsame]
      rfl
    rw [sb.files_update hw.others hw.stored, hfile]
    exact .write m c hlive (by rwa [hlength]) hend hw.readable hstops

theorem read_performs (h : Volume sb s.mem) {i : Fin sb.ninodes}
    (hlive : (sb.files s.mem i).type ≠ 0) (dst : ℕ → Bool) (off count : BitVec 32) :
    Performs sb s (.read i dst off count) := by
  apply ilock_bind_ends hlive
  have hoff := off.isLt
  have hcount := count.isLt
  have hread : Ends (readi sb (sb.inode s.mem i) dst off.toNat count.toNat) s fun r t =>
      t = s ∧ r.1 = reading dst (sb.files s.mem i).bytes off.toNat count.toNat := by
    unfold reading
    by_cases hwrap : 2 ^ 32 ≤ off.toNat + count.toNat
    · have hlow : (off.toNat + count.toNat) % 2 ^ 32 < off.toNat := by omega
      unfold readi
      rw [if_pos (Or.inr hlow), ends_pure, if_pos hwrap]
      exact ⟨rfl, rfl⟩
    · rw [if_neg hwrap]
      apply (readi_ends (h.locked i.isLt hlive) dst (by omega)).mono
      rintro r t ⟨rfl, -, hr⟩
      exact ⟨rfl, hr⟩
  refine hread.bind ?_
  rintro r t ⟨rfl, hr⟩
  rw [ends_pure, hr]
  exact ⟨h, .read hlive⟩

theorem truncate_performs (h : Volume sb s.mem) {i : Fin sb.ninodes}
    (hlive : (sb.files s.mem i).type ≠ 0) : Performs sb s (.truncate i) := by
  apply ilock_bind_ends hlive
  refine (itrunc_ends (h.locked i.isLt hlive)).bind ?_
  rintro _ t ⟨rfl, -, hvolume, hino, hothers, -, -⟩
  rw [ends_pure]
  refine ⟨hvolume, ?_⟩
  rw [sb.files_update hothers hino]
  exact .truncate hlive

theorem relabel_performs (h : Volume sb s.mem) {i : Fin sb.ninodes}
    (hlive : (sb.files s.mem i).type ≠ 0) (major minor nlink : BitVec 16) :
    Performs sb s (.relabel i major minor nlink) := by
  apply ilock_bind_ends hlive
  have hopen := (h.locked i.isLt hlive).relabel major.isLt minor.isLt nlink.isLt
  obtain ⟨hvolume, hothers, -, -, hbytes⟩ := hopen.close
  rw [ends_bind]
  apply iupdate_ends
  rw [ends_pure]
  refine ⟨hvolume, ?_⟩
  have hino := congrFun (sb.inode_stored hopen.fits : sb.inode (sb.stored s.mem i _) = _) i
  rw [Function.update_self] at hino
  rw [sb.files_update hothers hino]
  unfold Superblock.fileOf
  rw [hbytes]
  exact .relabel hlive

theorem put_performs (h : Volume sb s.mem) {i : Fin sb.ninodes}
    (hlive : (sb.files s.mem i).type ≠ 0) : Performs sb s (.put i) := by
  apply ilock_bind_ends hlive
  by_cases hnlink : (sb.inode s.mem i).nlink = 0
  · rw [if_pos hnlink]
    refine (iputFree_ends (h.locked i.isLt hlive)).bind ?_
    rintro _ t ⟨hvolume, hino, hothers, -, -⟩
    rw [ends_pure]
    refine ⟨hvolume, ?_⟩
    rw [sb.files_update hothers hino]
    exact .remove hlive hnlink
  · rw [if_neg hnlink, ends_pure]
    exact ⟨h, .keep hlive hnlink⟩

theorem call_performs (h : Volume sb s.mem) (e : FileCall sb.ninodes)
    (hlive : e.Live (sb.files s.mem)) : Performs sb s e := by
  cases e with
  | create type => exact create_performs h type
  | write i src off count => exact write_performs h (hlive i rfl) src off count
  | read i dst off count => exact read_performs h (hlive i rfl) dst off count
  | truncate i => exact truncate_performs h (hlive i rfl)
  | relabel i major minor nlink => exact relabel_performs h (hlive i rfl) major minor nlink
  | put i => exact put_performs h (hlive i rfl)

/-- A call on an inode that is not in use. -/
theorem dead_call (e : FileCall sb.ninodes) (hdead : ¬ e.Live (sb.files s.mem)) :
    (e.perform sb).run s = .error "ilock: no type" := by
  have hinode : ∃ i, e.inode = some i ∧ (sb.inode s.mem i).type = 0 := by
    by_contra hnone
    apply hdead
    intro i hi hzero
    exact hnone ⟨i, hi, hzero⟩
  obtain ⟨i, hi, hzero⟩ := hinode
  cases e with
  | create type => cases hi
  | write j src off count =>
    cases hi
    exact ilock_bind_dead hzero
  | read j dst off count =>
    cases hi
    exact ilock_bind_dead hzero
  | truncate j =>
    cases hi
    exact ilock_bind_dead hzero
  | relabel j major minor nlink =>
    cases hi
    exact ilock_bind_dead hzero
  | put j =>
    cases hi
    exact ilock_bind_dead hzero

end Calls

section Blank

variable {sb : Superblock} {mem : ℕ → Block}

/-- A volume without files, as `mkfs` starts with: the inodes are zero, and the bitmap marks what
is not a data block. -/
theorem volume_blank (hzero : ∀ x < sb.bmapstart, mem x = fun _ => 0)
    (hmarks : ∀ b < sb.size, sb.used mem b = !decide (sb.Data b)) : Volume sb mem := by
  have hino : ∀ i < sb.ninodes, sb.inode mem i = Dinode.decode (fun _ => 0) (i % IPB) := by
    intro i hi
    unfold Superblock.inode
    rw [hzero _ (Superblock.iblock_lt hi)]
  have hempty : ∀ i < sb.ninodes, ∀ u, entry mem (sb.inode mem i) u = 0 := by
    intro i hi u
    have haddr : ∀ v, (sb.inode mem i).addrs v = 0 := by
      intro v
      rw [hino i hi]
      unfold Dinode.decode
      dsimp only
      split_ifs <;> rfl
    unfold entry
    rw [haddr, if_pos (haddr NDIRECT), ite_self]
  have hsize : ∀ i < sb.ninodes, (sb.inode mem i).size = 0 := by
    intro i hi
    rw [hino i hi]
    rfl
  have hnone : ∀ x, owner sb mem (sb.inode mem) x = 0 := by
    intro x
    unfold owner
    split_ifs with hin
    · exact hempty _ hin.1 _
    · rfl
  refine ⟨fun b hb hdata => ?_, ⟨fun h0 => ?_, fun x hx => absurd (hnone x) hx,
    fun x _ hx => absurd (hnone x) hx, fun b hb hmark => ?_⟩, fun i hi => ?_, fun i hi bn hbn => ?_,
    fun i hi _ => ⟨hsize i hi, fun u _ => hempty i hi u⟩⟩
  · rw [hmarks b hb, decide_eq_false hdata]
    rfl
  · exact absurd h0.1 (Nat.not_le_of_lt (Nat.lt_of_le_of_lt (Nat.zero_le _) sb.bmapstart_lt))
  · rw [hmarks b hb.2, decide_eq_true hb] at hmark
    cases hmark
  · rw [hsize i hi]
    exact Nat.zero_le _
  · rw [hsize i hi] at hbn
    exact absurd hbn (Nat.not_lt_zero _)

/-- Two blocks before sixteen data blocks, and one inode. -/
def sampleVolume : Superblock where
  size := 18
  ninodes := 2
  inodestart := 0
  bmapstart := 1
  inodes_le := by decide
  size_lt := by decide

/-- Inode 1 has its twelve direct blocks, and none behind them. -/
def sampleBlocks : Noted ℕ Block where
  mem b k :=
    if b = 0 then
      if k = 64 then 2 else if k = 73 then 48
      else if 76 ≤ k ∧ k < 124 ∧ k % 4 = 0 then BitVec.ofNat 8 ((k - 76) / 4 + 2) else 0
    else if b = 1 then if k = 0 then 255 else if k = 1 then 63 else 0
    else 7
  notes := []
  scribbles := []

theorem sampleBlocks_addrs (k : ℕ) :
    (sampleVolume.inode sampleBlocks.mem 1).addrs k = if k < 12 then k + 2 else 0 := by
  by_cases hk : k < 13
  · exact (show ∀ k < 13, (sampleVolume.inode sampleBlocks.mem 1).addrs k =
      if k < 12 then k + 2 else 0 by decide +kernel) k hk
  · rw [if_neg (by omega)]
    exact if_neg (by simp only [NDIRECT]; omega)

theorem sampleBlocks_entry (u : ℕ) : entry sampleBlocks.mem (sampleVolume.inode sampleBlocks.mem 1)
    u = if u < 12 then u + 2 else 0 := by
  have hnone : (sampleVolume.inode sampleBlocks.mem 1).addrs NDIRECT = 0 :=
    sampleBlocks_addrs NDIRECT
  unfold entry
  rw [if_pos hnone, sampleBlocks_addrs]
  simp only [NDIRECT]
  split_ifs <;> omega

theorem sampleBlocks_vacant (u : ℕ) :
    entry sampleBlocks.mem (sampleVolume.inode sampleBlocks.mem 0) u = 0 := by
  have haddrs : ∀ k, (sampleVolume.inode sampleBlocks.mem 0).addrs k = 0 := by
    intro k
    by_cases hk : k < 13
    · exact (show ∀ k < 13, (sampleVolume.inode sampleBlocks.mem 0).addrs k = 0 by
        decide +kernel) k hk
    · exact if_neg (by simp only [NDIRECT]; omega)
  unfold entry
  rw [haddrs, if_pos (haddrs NDIRECT), ite_self]

theorem sampleBlocks_owner (x : ℕ × ℕ) :
    owner sampleVolume sampleBlocks.mem (sampleVolume.inode sampleBlocks.mem) x =
      if x.1 = 1 ∧ x.2 < 12 then x.2 + 2 else 0 := by
  obtain ⟨i, u⟩ := x
  unfold owner
  obtain rfl | rfl | hi : i = 0 ∨ i = 1 ∨ 2 ≤ i := by omega
  · simp [sampleBlocks_vacant]
  · rw [sampleBlocks_entry]
    dsimp only
    by_cases hu : u < 12
    · rw [if_pos hu, if_pos (show 1 = 1 ∧ u < 12 from ⟨rfl, hu⟩)]
      exact if_pos ⟨by decide, Nat.lt_trans hu (by decide)⟩
    · rw [if_neg hu, ite_self, if_neg fun h => hu h.2]
  · rw [if_neg, if_neg] <;> simp only [sampleVolume] <;> omega

theorem sampleBlocks_volume : Volume sampleVolume sampleBlocks.mem := by
  have hmarks : ∀ b < 18, sampleVolume.used sampleBlocks.mem b = decide (b < 14) := by
    decide +kernel
  have hdata : ∀ b, sampleVolume.Data b ↔ 2 ≤ b ∧ b < 18 := fun b => Iff.rfl
  have hlive : (sampleVolume.inode sampleBlocks.mem 1).type ≠ 0 ∧
      (sampleVolume.inode sampleBlocks.mem 1).size = 12288 := by decide +kernel
  have hempty : (sampleVolume.inode sampleBlocks.mem 0).size = 0 := by decide +kernel
  refine ⟨fun b hb hnot => ?_, ⟨?_, fun x hx => ?_, fun x y hx hxy => ?_, fun b hb hmark => ?_⟩,
    fun i hi => ?_, fun i hi bn hbn => ?_, fun i hi hzero => ?_⟩
  · rw [hdata] at hnot
    rw [hmarks b hb, decide_eq_true_iff]
    change b < 18 at hb
    omega
  · rw [hdata]
    omega
  · rw [sampleBlocks_owner] at hx ⊢
    split_ifs at hx ⊢ with hin
    · rw [hdata, hmarks _ (by omega), decide_eq_true_iff]
      omega
    · exact absurd rfl hx
  · rw [sampleBlocks_owner] at hx hxy
    rw [sampleBlocks_owner] at hxy
    apply Prod.ext <;> split_ifs at hx hxy <;> omega
  · rw [hdata] at hb
    rw [hmarks b hb.2, decide_eq_true_iff] at hmark
    refine ⟨(1, b - 2), ?_⟩
    rw [sampleBlocks_owner, if_pos] <;> dsimp only <;> omega
  all_goals
    obtain rfl | rfl : i = 0 ∨ i = 1 := by
      change i < 2 at hi
      omega
  · omega
  · rw [hlive.2]
    decide
  · omega
  · rw [hlive.2] at hbn
    have hbn' : bn < 12 := by
      simp only [BSIZE] at hbn
      omega
    rw [sampleBlocks_entry, slotOf, if_pos hbn', if_pos hbn']
    omega
  · exact ⟨hempty, fun u _ => sampleBlocks_vacant u⟩
  · exact absurd hzero hlive.1

/-- The file is written into its indirect block, read and removed; the next one is written from
a buffer of which one byte can be read. -/
def sampleCalls : List (FileCall 2) :=
  [.write 1 (fun j => if j < 4 then some 8 else none) 12287 4, .read 1 (fun _ => true) 12286 9,
    .put 1, .create 3, .write 1 (fun j => if j < 1 then some 9 else none) 0 2,
    .read 1 (fun _ => true) 0 5]

end Blank

section Runs

variable {sb : Superblock} {s t : Noted ℕ Block} {e : FileCall sb.ninodes}

/-- A call that returns keeps the volume consistent, and the files take its label. -/
theorem FileCall.step_ok (h : Volume sb s.mem) (hstep : e.step sb s = .ok t) :
    Volume sb t.mem ∧ Takes Files.Next (sb.files s.mem) (e.emit sb s) (sb.files t.mem) := by
  unfold FileCall.step at hstep
  by_cases hlive : e.Live (sb.files s.mem)
  · obtain ⟨r, u, hrun, hvolume, hnext⟩ := call_performs h e hlive
    rw [hrun] at hstep
    cases hstep
    unfold FileCall.emit
    rw [hrun]
    exact ⟨hvolume, takes_singleton.mpr hnext⟩
  · rw [dead_call e hlive] at hstep
    cases hstep

/-- A call returns if and only if its inode is in use. -/
theorem FileCall.step_returns_iff (h : Volume sb s.mem) :
    Returns (e.step sb s) ↔ e.Live (sb.files s.mem) := by
  constructor
  · rintro ⟨t, ht⟩
    by_contra hdead
    unfold FileCall.step at ht
    rw [dead_call e hdead] at ht
    cases ht
  · intro hlive
    obtain ⟨r, t, hrun, -⟩ := call_performs h e hlive
    refine ⟨t, ?_⟩
    unfold FileCall.step
    rw [hrun]
    rfl

/-- Calls on a consistent volume, in any order, look like calls on a table of files: a write
changes the bytes of one file and of no other, a read gives what was written, and what a file
that was truncated or freed held is in no other file. -/
theorem files_refine (h : Volume sb s.mem) (es : List (FileCall sb.ninodes)) :
    ∃ F, Takes Files.Next (sb.files s.mem) (history (FileCall.step sb) (FileCall.emit sb) s es) F ∧
      ∀ t, exec (FileCall.step sb) s es = .ok t → sb.files t.mem = F := by
  have hstep : ∀ (s : Noted ℕ Block) (F : Files sb.ninodes) (e : FileCall sb.ninodes)
      (t : Noted ℕ Block), (Volume sb s.mem ∧ sb.files s.mem = F) → True → e.step sb s = .ok t →
      ∃ G, Takes Files.Next F (e.emit sb s) G ∧ (Volume sb t.mem ∧ sb.files t.mem = G) := by
    rintro s F e t ⟨hvolume, rfl⟩ - hok
    obtain ⟨hvolume', htakes⟩ := FileCall.step_ok hvolume hok
    exact ⟨_, htakes, hvolume', rfl⟩
  obtain ⟨F, htakes, hlast⟩ :=
    takes_history (fun _ _ => True) hstep ⟨h, rfl⟩ (guarded_of_forall fun _ _ => trivial)
  exact ⟨F, htakes, fun t ht => (hlast t ht).2⟩

/-- What was written is read, and not what the next file at the same inode has not written. -/
theorem sample_files_refine :
    (∃ F, Takes Files.Next (sampleVolume.files sampleBlocks.mem)
      (history (FileCall.step sampleVolume) (FileCall.emit sampleVolume) sampleBlocks sampleCalls)
        F ∧
      ∀ t, exec (FileCall.step sampleVolume) sampleBlocks sampleCalls = .ok t →
        sampleVolume.files t.mem = F) ∧
    (history (FileCall.step sampleVolume) (FileCall.emit sampleVolume) sampleBlocks
      sampleCalls).map (fun l => l.2.1) =
      [.count (some 4), .bytes (some [7, 8, 8, 8, 8]), .done, .inode 1, .count (some 0),
        .bytes (some [])] := by
  refine ⟨files_refine sampleBlocks_volume sampleCalls, ?_⟩
  decide +kernel

/-- Calls keep a volume consistent: in each state of a run the blocks marked in the bitmap are
those that the inodes hold, and none has two places. A run stops only at a call on an inode that
is not in use; no block is freed twice and no offset is out of range. The panics of `iget`, of
`log_write` and of `bget` are those of other layers and not of these programs. -/
theorem volume_kept (h : Volume sb s.mem) (es : List (FileCall sb.ninodes)) :
    (∀ t, exec (FileCall.step sb) s es = .ok t → Volume sb t.mem) ∧
      (Returns (exec (FileCall.step sb) s es) ↔
        Guarded (FileCall.step sb) (fun s e => e.Live (sb.files s.mem)) s es) := by
  have hpreserve : ∀ (s : Noted ℕ Block) (e : FileCall sb.ninodes) (t : Noted ℕ Block),
      Volume sb s.mem → e.step sb s = .ok t → Volume sb t.mem := by
    intro s e t hvolume hstep
    exact (FileCall.step_ok hvolume hstep).1
  refine ⟨fun t ht => ?_, ?_⟩
  · exact exec_invariant (I := fun s => Volume sb s.mem) hpreserve h ht
  · exact exec_returns_iff_guarded (I := fun s => Volume sb s.mem) hpreserve
      (fun s e hvolume => FileCall.step_returns_iff hvolume) h es

theorem sample_volume_kept :
    (∀ t, exec (FileCall.step sampleVolume) sampleBlocks sampleCalls = .ok t →
      Volume sampleVolume t.mem) ∧
    (Returns (exec (FileCall.step sampleVolume) sampleBlocks sampleCalls) ↔
      Guarded (FileCall.step sampleVolume) (fun s e => e.Live (sampleVolume.files s.mem))
        sampleBlocks sampleCalls) :=
  volume_kept sampleBlocks_volume sampleCalls

end Runs

end AdvancedOperatingSystems.FileSystem
