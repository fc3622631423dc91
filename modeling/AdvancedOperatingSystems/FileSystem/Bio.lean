import AdvancedOperatingSystems.DemandPaging.Memory
import Mathlib.Logic.Function.Basic

/-!
# The buffer cache

`bio.c` and the sleep locks of its buffers. The buffers are `bcache.buf[0 .. NBUF - 1]`,
named by their indices; `order` is the list through `next`, from `head.next` to `head.prev`.
The sections under `bcache.lock` are single steps. `virtio_disk_rw` moves one block between
a buffer and the disk; `b->dev` does not reach it. `written` lists the blocks in the order in
which they were written to the disk.
-/

namespace AdvancedOperatingSystems.FileSystem

open Foundations Riscv DemandPaging

abbrev MAXOPBLOCKS : ℕ := 10

abbrev LOGSIZE : ℕ := MAXOPBLOCKS * 3

abbrev NBUF : ℕ := MAXOPBLOCKS * 3

abbrev ROOTDEV : ℕ := 1

/-- The bytes of a block, from offset 0 to `BSIZE - 1`. -/
abbrev Block := ℕ → Byte

/-- Why a call does not return: a panic, or the process sleeps until another one acts. -/
inductive Stop
  | panic (message : Panic)
  | sleep
  deriving DecidableEq

/-- `struct buf`. `lock` is the process that holds the sleep lock, if it is locked. -/
structure Buf where
  valid : Bool
  dev : ℕ
  blockno : ℕ
  lock : Option ℕ
  refcnt : ℕ
  data : Block

structure Bio where
  buf : ℕ → Buf
  order : List ℕ
  disk : ℕ → Block
  written : List (ℕ × Block)

namespace Bio

variable (s : Bio)

/-- A buffer of zeroed memory, as all of them are at boot. -/
def emptyBuf : Buf := ⟨false, 0, 0, none, 0, fun _ => 0⟩

/-- `binit`: each buffer goes to the head of the list. -/
def binit (disk : ℕ → Block) : Bio :=
  { buf := fun _ => emptyBuf, order := (List.range NBUF).reverse, disk := disk, written := [] }

def setBuf (i : ℕ) (f : Buf → Buf) : Bio :=
  { s with buf := Function.update s.buf i (f (s.buf i)) }

section SetBuf

variable (i : ℕ) (f : Buf → Buf)

@[simp] theorem setBuf_self : (s.setBuf i f).buf i = f (s.buf i) := by simp [setBuf]

theorem setBuf_ne {j : ℕ} (h : j ≠ i) : (s.setBuf i f).buf j = s.buf j := by simp [setBuf, h]

@[simp] theorem setBuf_order : (s.setBuf i f).order = s.order := rfl

@[simp] theorem setBuf_disk : (s.setBuf i f).disk = s.disk := rfl

@[simp] theorem setBuf_written : (s.setBuf i f).written = s.written := rfl

end SetBuf

def Caches (i dev blockno : ℕ) : Prop := (s.buf i).dev = dev ∧ (s.buf i).blockno = blockno

instance (i dev blockno : ℕ) : Decidable (s.Caches i dev blockno) :=
  inferInstanceAs (Decidable (_ ∧ _))

/-- The section of `bget` under `bcache.lock`: the cached block, or else the least recently
used buffer that nobody refers to. -/
def bgetLocked (dev blockno : ℕ) : Except Stop (ℕ × Bio) :=
  match s.order.find? fun i => s.Caches i dev blockno with
  | some i => .ok (i, s.setBuf i fun b => { b with refcnt := b.refcnt + 1 })
  | none =>
      match s.order.reverse.find? fun i => (s.buf i).refcnt = 0 with
      | some i =>
          .ok (i, s.setBuf i fun b =>
            { b with dev := dev, blockno := blockno, valid := false, refcnt := 1 })
      | none => .error (.panic "bget: no buffers")

/-- `acquiresleep(&b->lock)`. -/
def acquiresleep (pid i : ℕ) : Except Stop Bio :=
  match (s.buf i).lock with
  | none => .ok (s.setBuf i fun b => { b with lock := some pid })
  | some _ => .error .sleep

/-- `holdingsleep(&b->lock)`. -/
def holdingsleep (pid i : ℕ) : Bool := (s.buf i).lock = some pid

/-- `releasesleep(&b->lock)`. -/
def releasesleep (i : ℕ) : Bio := s.setBuf i fun b => { b with lock := none }

def bget (pid dev blockno : ℕ) : Except Stop (ℕ × Bio) := do
  let (i, s) ← s.bgetLocked dev blockno
  let s ← s.acquiresleep pid i
  return (i, s)

/-- `virtio_disk_rw(b, 0)`. -/
def diskRead (i : ℕ) : Bio := s.setBuf i fun b => { b with data := s.disk b.blockno }

/-- `virtio_disk_rw(b, 1)`. -/
def diskWrite (i : ℕ) : Bio :=
  { s with
    disk := Function.update s.disk (s.buf i).blockno (s.buf i).data
    written := s.written ++ [((s.buf i).blockno, (s.buf i).data)] }

@[simp] theorem diskWrite_buf (i : ℕ) : (s.diskWrite i).buf = s.buf := rfl

/-- What `bread` does once it has the buffer. -/
def fill (i : ℕ) : Bio :=
  if (s.buf i).valid then s else (s.diskRead i).setBuf i fun b => { b with valid := true }

def bread (pid dev blockno : ℕ) : Except Stop (ℕ × Bio) := do
  let (i, s) ← s.bget pid dev blockno
  return (i, s.fill i)

def setData (i : ℕ) (data : Block) : Bio := s.setBuf i fun b => { b with data := data }

def bwrite (pid i : ℕ) : Except Stop Bio :=
  if s.holdingsleep pid i then .ok (s.diskWrite i) else .error (.panic "bwrite")

/-- The section of `brelse` under `bcache.lock`: without references the buffer goes to the
head of the list. -/
def brelseLocked (i : ℕ) : Bio :=
  let t := s.setBuf i fun b => { b with refcnt := b.refcnt - 1 }
  if (t.buf i).refcnt = 0 then { t with order := i :: t.order.erase i } else t

def brelse (pid i : ℕ) : Except Stop Bio :=
  if s.holdingsleep pid i then .ok ((s.releasesleep i).brelseLocked i)
  else .error (.panic "brelse")

def bpin (i : ℕ) : Bio := s.setBuf i fun b => { b with refcnt := b.refcnt + 1 }

def bunpin (i : ℕ) : Bio := s.setBuf i fun b => { b with refcnt := b.refcnt - 1 }

end Bio

end AdvancedOperatingSystems.FileSystem
