import AdvancedOperatingSystems.FileSystem.Log
import AdvancedOperatingSystems.Foundations.StoreProgram

/-!
# Blocks and inodes

The block allocator and the inodes of `fs.c`, as programs over the contents of the blocks.
`bread` gives the contents of a block; a change is noted by `log_write`. A buffer that is held
from its `bread` to its `log_write` is read and then changed here: nothing else changes it in
between. `struct inode` holds a copy of the `struct dinode` on disk, and the functions take it
and give it back.
-/

namespace AdvancedOperatingSystems.FileSystem

open Foundations Riscv DemandPaging

abbrev FsProgram := StoreProgram ℕ Block Panic

abbrev NDIRECT : ℕ := 12

abbrev NINDIRECT : ℕ := BSIZE / 4

abbrev MAXFILE : ℕ := NDIRECT + NINDIRECT

abbrev BPB : ℕ := BSIZE * 8

/-- `sizeof(struct dinode)`. -/
abbrev sizeofDinode : ℕ := 64

abbrev IPB : ℕ := BSIZE / sizeofDinode

/-- What the functions use of `struct superblock`: the inodes lie before the bitmap. -/
structure Superblock where
  size : ℕ
  ninodes : ℕ
  inodestart : ℕ
  bmapstart : ℕ
  inodes_le : inodestart + ninodes / IPB + 1 ≤ bmapstart
  size_lt : size < 2 ^ 31

namespace Superblock

variable (sb : Superblock)

def iblock (inum : ℕ) : ℕ := inum / IPB + sb.inodestart

def bblock (b : ℕ) : ℕ := b / BPB + sb.bmapstart

end Superblock

/-- `1 << (bi % 8)`. -/
def bitMask (bi : ℕ) : Byte := 1 <<< (bi % 8)

def bit (data : Block) (bi : ℕ) : Bool := data (bi / 8) &&& bitMask bi ≠ 0

def setBit (bi : ℕ) (data : Block) : Block :=
  Function.update data (bi / 8) (data (bi / 8) ||| bitMask bi)

def clearBit (bi : ℕ) (data : Block) : Block :=
  Function.update data (bi / 8) (data (bi / 8) &&& ~~~ bitMask bi)

section Allocator

variable (sb : Superblock)

def bzero (bno : ℕ) : FsProgram Unit := .modify bno fun _ _ => 0

/-- The inner loop of `balloc`: the first free bit of the blocks from `b` on. -/
def firstFree (data : Block) (b : ℕ) : Option ℕ :=
  (List.range (min BPB (sb.size - b))).find? fun bi => !bit data bi

/-- The outer loop of `balloc`. -/
def ballocLoop : List ℕ → FsProgram ℕ
  | [] => pure 0
  | b :: bs => do
      let data ← .get (sb.bblock b)
      match firstFree sb data b with
      | some bi => do
          .modify (sb.bblock b) (setBit bi)
          bzero (b + bi)
          return b + bi
      | none => ballocLoop bs

def balloc : FsProgram ℕ := ballocLoop sb ((List.range ((sb.size + BPB - 1) / BPB)).map (BPB * ·))

def bfree (b : ℕ) : FsProgram Unit := do
  let data ← .get (sb.bblock b)
  if bit data (b % BPB) then .modify (sb.bblock b) (clearBit (b % BPB))
  else .stop "freeing free block"

end Allocator

structure Dinode where
  type : ℕ
  major : ℕ
  minor : ℕ
  nlink : ℕ
  size : ℕ
  addrs : ℕ → ℕ

/-- Store a number in `n` bytes of a block. -/
def putField (data : Block) (off n w : ℕ) : Block := fun k =>
  if off ≤ k ∧ k < off + n then BitVec.ofNat 8 (w / 256 ^ (k - off)) else data k

namespace Dinode

/-- The `inum % IPB`-th inode in a block. -/
def decode (data : Block) (i : ℕ) : Dinode where
  type := field data (sizeofDinode * i) 2
  major := field data (sizeofDinode * i + 2) 2
  minor := field data (sizeofDinode * i + 4) 2
  nlink := field data (sizeofDinode * i + 6) 2
  size := field data (sizeofDinode * i + 8) 4
  addrs k := if k ≤ NDIRECT then field data (sizeofDinode * i + 12 + 4 * k) 4 else 0

/-- The fields of an inode: offset, width and value. -/
def fields (ip : Dinode) : List (ℕ × ℕ × ℕ) :=
  [(0, 2, ip.type), (2, 2, ip.major), (4, 2, ip.minor), (6, 2, ip.nlink), (8, 4, ip.size)] ++
    (List.range (NDIRECT + 1)).map fun k => (12 + 4 * k, 4, ip.addrs k)

def encode (ip : Dinode) (i : ℕ) (data : Block) : Block :=
  ip.fields.foldl (fun data x => putField data (sizeofDinode * i + x.1) x.2.1 x.2.2) data

def zero : Dinode := ⟨0, 0, 0, 0, 0, fun _ => 0⟩

/-- `ip->addrs[k] = addr`. -/
def setAddr (ip : Dinode) (k addr : ℕ) : Dinode :=
  { ip with addrs := Function.update ip.addrs k addr }

end Dinode

section Inodes

variable (sb : Superblock)

def iupdate (inum : ℕ) (ip : Dinode) : FsProgram Unit :=
  .modify (sb.iblock inum) (ip.encode (inum % IPB))

/-- What `ilock` reads of an inode that is not valid. -/
def ilock (inum : ℕ) : FsProgram Dinode := do
  let data ← .get (sb.iblock inum)
  let ip := Dinode.decode data (inum % IPB)
  if ip.type = 0 then .stop "ilock: no type" else return ip

/-- The loop of `ialloc`. -/
def iallocLoop (type : ℕ) : List ℕ → FsProgram ℕ
  | [] => pure 0
  | inum :: inums => do
      let data ← .get (sb.iblock inum)
      if (Dinode.decode data (inum % IPB)).type = 0 then do
        iupdate sb inum { Dinode.zero with type := type }
        return inum
      else iallocLoop type inums

/-- `ialloc`, up to the `iget` of the inode. 0 is no inode. -/
def ialloc (type : ℕ) : FsProgram ℕ := iallocLoop sb type (List.range' 1 (sb.ninodes - 1))

/-- The block in `ip->addrs[k]`, which is allocated if there is none. -/
def addrOf (ip : Dinode) (k : ℕ) : FsProgram (ℕ × Dinode) :=
  if ip.addrs k = 0 then do
    let addr ← balloc sb
    if addr = 0 then return (0, ip) else return (addr, ip.setAddr k addr)
  else pure (ip.addrs k, ip)

def bmap (ip : Dinode) (bn : ℕ) : FsProgram (ℕ × Dinode) :=
  if bn < NDIRECT then addrOf sb ip bn
  else if bn - NDIRECT < NINDIRECT then do
    let (addr, ip) ← addrOf sb ip NDIRECT
    if addr = 0 then return (0, ip)
    else do
      let a ← .get addr
      let entry := field a (4 * (bn - NDIRECT)) 4
      if entry = 0 then do
        let new ← balloc sb
        if new = 0 then return (0, ip)
        else do
          .modify addr fun a => putField a (4 * (bn - NDIRECT)) 4 new
          return (new, ip)
      else return (entry, ip)
  else .stop "bmap: out of range"

/-- `bfree` of the blocks in a list that are there. -/
def freeBlocks : List ℕ → FsProgram Unit
  | [] => pure ()
  | b :: bs =>
      if b = 0 then freeBlocks bs
      else do
        bfree sb b
        freeBlocks bs

/-- The part of `itrunc` about the indirect block. -/
def freeIndirect (ip : Dinode) : FsProgram Unit :=
  if ip.addrs NDIRECT = 0 then pure ()
  else do
    let a ← .get (ip.addrs NDIRECT)
    freeBlocks sb ((List.range NINDIRECT).map fun j => field a (4 * j) 4)
    bfree sb (ip.addrs NDIRECT)

def itrunc (inum : ℕ) (ip : Dinode) : FsProgram Dinode := do
  freeBlocks sb ((List.range NDIRECT).map ip.addrs)
  freeIndirect sb ip
  let ip := { ip with addrs := fun _ => 0, size := 0 }
  iupdate sb inum ip
  return ip

/-- The branch of `iput` that frees an inode without links. -/
def iputFree (inum : ℕ) (ip : Dinode) : FsProgram Unit := do
  let ip ← itrunc sb inum ip
  iupdate sb inum { ip with type := 0 }

/-- The bytes of a chunk: `min(n - tot, BSIZE - off%BSIZE)`. -/
def chunk (off n : ℕ) : ℕ := min n (BSIZE - off % BSIZE)

/-- The loop of `readi` with `n` bytes to go: the bytes, or nothing for -1. Byte `tot + j` can be
copied out if `dst (tot + j)` says so. The first argument bounds the iterations. -/
def readiLoop (dst : ℕ → Bool) : ℕ → ℕ → ℕ → ℕ → Dinode → FsProgram (Option (List Byte) × Dinode)
  | 0, _, _, _, ip => pure (some [], ip)
  | fuel + 1, tot, off, n, ip =>
      if n = 0 then pure (some [], ip)
      else do
        let (addr, ip) ← bmap sb ip (off / BSIZE)
        if addr = 0 then return (some [], ip)
        else do
          let data ← .get addr
          let m := chunk off n
          if (List.range m).all fun j => dst (tot + j) then do
            let (rest, ip) ← readiLoop dst fuel (tot + m) (off + m) (n - m) ip
            return (rest.map fun bs => ((List.range m).map fun j => data (off % BSIZE + j)) ++ bs, ip)
          else return (none, ip)

def readi (ip : Dinode) (dst : ℕ → Bool) (off n : ℕ) : FsProgram (Option (List Byte) × Dinode) :=
  if off > ip.size ∨ (off + n) % 2 ^ 32 < off then pure (some [], ip)
  else
    let n := if off + n > ip.size then ip.size - off else n
    readiLoop sb dst n 0 off n ip

/-- The bytes `src tot, src (tot + 1), …` that `either_copyin` copies, up to the first that cannot
be read. -/
def copied (src : ℕ → Option Byte) (tot m : ℕ) : ℕ :=
  ((List.range m).find? fun j => (src (tot + j)).isNone).getD m

def copyInto (src : ℕ → Option Byte) (tot boff m : ℕ) (data : Block) : Block := fun k =>
  if boff ≤ k ∧ k < boff + m then (src (tot + (k - boff))).getD 0 else data k

/-- The loop of `writei` with `n` bytes to go: how many bytes have been written. When the copy
fails the buffer keeps what was copied, without a `log_write`. -/
def writeiLoop (src : ℕ → Option Byte) : ℕ → ℕ → ℕ → ℕ → Dinode → FsProgram (ℕ × Dinode)
  | 0, tot, _, _, ip => pure (tot, ip)
  | fuel + 1, tot, off, n, ip =>
      if n = 0 then pure (tot, ip)
      else do
        let (addr, ip) ← bmap sb ip (off / BSIZE)
        if addr = 0 then return (tot, ip)
        else do
          let m := chunk off n
          if copied src tot m = m then do
            .modify addr (copyInto src tot (off % BSIZE) m)
            writeiLoop src fuel (tot + m) (off + m) (n - m) ip
          else do
            .modifySilently addr (copyInto src tot (off % BSIZE) (copied src tot m))
            return (tot, ip)

/-- `writei`: how many bytes have been written, or nothing for -1. -/
def writei (inum : ℕ) (ip : Dinode) (src : ℕ → Option Byte) (off n : ℕ) :
    FsProgram (Option ℕ × Dinode) :=
  if off > ip.size ∨ (off + n) % 2 ^ 32 < off then pure (none, ip)
  else if off + n > MAXFILE * BSIZE then pure (none, ip)
  else do
    let (tot, ip) ← writeiLoop sb src n 0 off n ip
    let ip := if off + tot > ip.size then { ip with size := off + tot } else ip
    iupdate sb inum ip
    return (some tot, ip)

end Inodes

end AdvancedOperatingSystems.FileSystem
