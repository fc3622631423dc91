import Mathlib.Tactic.Ring
import AdvancedOperatingSystems.DemandPaging.Vm

/-!
# Program files

Files as `readi` reads them, the ELF headers of `elf.h`, and the loading of
segments from `exec.c`. Offsets into files are `uint`s. A header is read into a
buffer that keeps its former bytes where a file is too short.
-/

namespace AdvancedOperatingSystems.DemandPaging

open Foundations Riscv Riscv.PageTable

abbrev Path := List Char

/-- A file. Its size is at most that of `MAXFILE` blocks. -/
structure File where
  size : ℕ
  byte : ℕ → Byte
  size_le : size ≤ 268 * BSIZE

/-- How many bytes `readi` copies. -/
def File.count (f : File) (off n : ℕ) : ℕ :=
  if f.size < off ∨ 2 ^ 32 ≤ off + n then 0 else min n (f.size - off)

/-- `readi` into a buffer: how many bytes it copies, and the buffer. -/
def readi (f : File) (off n : ℕ) (buf : ℕ → Byte) : ℕ × (ℕ → Byte) :=
  (f.count off n, fun j => if j < f.count off n then f.byte (off + j) else buf j)

/-- The little-endian number in `n` bytes of a buffer. -/
def field (buf : ℕ → Byte) (off : ℕ) : ℕ → ℕ
  | 0 => 0
  | n + 1 => (buf off).toNat + 256 * field buf (off + 1) n

theorem field_lt (buf : ℕ → Byte) (off n : ℕ) : field buf off n < 256 ^ n := by
  induction n generalizing off with
  | zero => exact Nat.one_pos
  | succ n ih =>
    have hbyte := (buf off).isLt
    have hrest := ih (off + 1)
    rw [field, pow_succ]
    omega

theorem field_congr {buf buf' : ℕ → Byte} {off n : ℕ}
    (h : ∀ j, off ≤ j → j < off + n → buf' j = buf j) : field buf' off n = field buf off n := by
  induction n generalizing off with
  | zero => rfl
  | succ n ih =>
    rw [field, field, h off le_rfl (by omega), ih fun j hlow hhigh => h j (by omega) (by omega)]

structure Elfhdr where
  magic : ℕ
  phoff : ℕ
  phnum : ℕ
  deriving DecidableEq, Repr

abbrev sizeofElfhdr : ℕ := 64

def Elfhdr.ofBytes (buf : ℕ → Byte) : Elfhdr :=
  ⟨field buf 0 4, field buf 32 8, field buf 56 2⟩

abbrev ELF_MAGIC : ℕ := 0x464C457F

structure Proghdr where
  type : ℕ
  flags : ℕ
  off : ℕ
  vaddr : ℕ
  filesz : ℕ
  memsz : ℕ
  deriving DecidableEq, Repr

abbrev sizeofProghdr : ℕ := 56

def Proghdr.ofBytes (buf : ℕ → Byte) : Proghdr :=
  ⟨field buf 0 4, field buf 4 4, field buf 8 8, field buf 16 8, field buf 32 8, field buf 40 8⟩

abbrev ELF_PROG_LOAD : ℕ := 1

/-- The value of `off` for program header `i`. -/
def Elfhdr.off (elf : Elfhdr) (i : ℕ) : ℕ := (elf.phoff + sizeofProghdr * i) % 2 ^ 32

def flags2perm (flags : ℕ) : Perm := ⟨flags.testBit 1, flags.testBit 0⟩

/-- The loop of `loadseg`: whether it succeeds, and memory. -/
def loadsegLoop (pt : PageTable ℕ) (va : ℕ) (f : File) (offset sz : ℕ) :
    List ℕ → Memory → Except Panic (Bool × Memory)
  | [], m => .ok (true, m)
  | i :: is, m =>
    let pa := pt.walkaddr ((va + i) % 2 ^ 64)
    if pa = 0 then .error "loadseg: address should exist"
    else
      let n := min (sz - i) PGSIZE
      let (got, data) := readi f ((offset + i) % 2 ^ 32) n (m.page pa)
      let m := m.write pa data
      if got = n then loadsegLoop pt va f offset sz is m else .ok (false, m)

/-- `loadseg`. The offset and the size are converted to `uint`. -/
def loadseg (pt : PageTable ℕ) (va : ℕ) (f : File) (offset sz : ℕ) (m : Memory) :
    Except Panic (Bool × Memory) :=
  loadsegLoop pt va f (offset % 2 ^ 32) (sz % 2 ^ 32) (pages 0 (sz % 2 ^ 32)) m

end AdvancedOperatingSystems.DemandPaging
