import AdvancedOperatingSystems.DemandPaging.Fault

/-!
# Executing a program

`exec` with `proc_pagetable` and `proc_freepagetable` of `proc.c`. A program of the
four names below is loaded at once, any other on demand. What `exec` writes to the
registers in the trapframe is left out. Sums and differences are those of `uint64`s.
-/

namespace AdvancedOperatingSystems.DemandPaging

open Foundations Riscv Riscv.PageTable

/-- The difference of two `uint64`s. -/
def sub64 (a b : ℕ) : ℕ := (a + 2 ^ 64 - b % 2 ^ 64) % 2 ^ 64

def procPagetable (r : Running) (trapframe : ℕ) (m : Memory) :
    Except Panic (Option Pagetable × Memory) :=
  match uvmcreate m with
  | none => .ok (none, m)
  | some (pg, m) => do
    let (ok, m, pt) ← mappages TRAMPOLINE ⟨m.trampoline, true, false, true, false⟩ (m, pg.table)
    if !ok then
      let m ← uvmfree r { pg with table := pt } 0 m
      return (none, m)
    else
      let (ok, m, pt) ← mappages TRAPFRAME ⟨trapframe, true, true, false, false⟩ (m, pt)
      if !ok then
        let (m, pt) ← uvmunmap r TRAMPOLINE 1 false (m, pt)
        let m ← uvmfree r { pg with table := pt } 0 m
        return (none, m)
      else return (some { pg with table := pt }, m)

def procFreepagetable (r : Running) (pg : Pagetable) (sz : ℕ) (m : Memory) :
    Except Panic Memory := do
  let s ← uvmunmap r TRAMPOLINE 1 false (m, pg.table)
  let (m, pt) ← uvmunmap r TRAPFRAME 1 false s
  uvmfree r { pg with table := pt } sz m

/-- Whether `exec` loads the program on demand. The test for `test10-cow3` compares no
bytes and never holds. -/
def isOndemand (path : Path) : Bool :=
  !(['/', 'i', 'n', 'i', 't'].isPrefixOf path || ['s', 'h'].isPrefixOf path ||
    ['t', 'e', 's', 't', '8', '-', 'c', 'o', 'w', '1'].isPrefixOf path ||
    ['t', 'e', 's', 't', '9', '-', 'c', 'o', 'w', '2'].isPrefixOf path)

/-- The last component of a path, cut to the size of `p->name`. -/
def progName (path : Path) : Path :=
  ((path.reverse.takeWhile fun ch => ch ≠ '/').reverse).take 15

/-- The loop of `exec` over the program headers: whether it succeeds, and the size. -/
def loadSegments (r : Running) (f : File) (elf : Elfhdr) (ondemand : Bool) :
    List ℕ → ℕ → Space → Except Panic (Bool × ℕ × Space)
  | [], sz, s => .ok (true, sz, s)
  | i :: is, sz, s =>
    let (got, buf) := readi f (elf.off i) sizeofProghdr fun _ => 0
    let ph := Proghdr.ofBytes buf
    let stop := (ph.vaddr + ph.memsz) % 2 ^ 64
    if got ≠ sizeofProghdr then .ok (false, sz, s)
    else if ph.type ≠ ELF_PROG_LOAD then loadSegments r f elf ondemand is sz s
    else if ph.memsz < ph.filesz then .ok (false, sz, s)
    else if stop < ph.vaddr then .ok (false, sz, s)
    else if ph.vaddr % PGSIZE ≠ 0 then .ok (false, sz, s)
    else if ondemand then loadSegments r f elf ondemand is (if sz < stop then stop else sz) s
    else do
      let (sz1, m, pt) ← uvmalloc r sz stop (flags2perm ph.flags) s
      if sz1 = 0 then return (false, sz, m, pt)
      else
        let (loaded, m) ← loadseg pt ph.vaddr f ph.off ph.filesz m
        if loaded then loadSegments r f elf ondemand is sz1 (m, pt)
        else return (false, sz1, m, pt)

/-- The byte of an array of `uint64`s. -/
def wordByte (words : List ℕ) (j : ℕ) : Byte :=
  BitVec.ofNat 8 (words.getD (j / 8) 0 / 256 ^ (j % 8))

/-- The loop of `exec` that pushes the argument strings: the stack pointer, the pushed
addresses and memory, if there is room. -/
def pushStrings (pt : PageTable ℕ) (stackbase : ℕ) :
    List (List Byte) → ℕ → List ℕ → Memory → Memory × Option (ℕ × List ℕ)
  | [], sp, ustack, m => (m, some (sp, ustack))
  | arg :: args, sp, ustack, m =>
    if MAXARG ≤ ustack.length then (m, none)
    else
      let sp := sub64 sp (arg.length + 1)
      let sp := sp - sp % 16
      if sp < stackbase then (m, none)
      else match copyout pt sp (fun j => arg.getD j 0) (arg.length + 1) m with
        | (false, m) => (m, none)
        | (true, m) => pushStrings pt stackbase args sp (ustack ++ [sp]) m

/-- The part of `exec` that fills the stack page: memory, and `argc` if there is room. -/
def pushArgs (pt : PageTable ℕ) (sz : ℕ) (argv : List (List Byte)) (m : Memory) :
    Memory × Option ℕ :=
  let stackbase := sub64 sz PGSIZE
  match pushStrings pt stackbase argv sz [] m with
  | (m, none) => (m, none)
  | (m, some (sp, ustack)) =>
    let size := (ustack.length + 1) * 8
    let sp := sub64 sp size
    let sp := sp - sp % 16
    if sp < stackbase then (m, none)
    else match copyout pt sp (wordByte (ustack ++ [0])) size m with
      | (false, m) => (m, none)
      | (true, m) => (m, some ustack.length)

/-- The new image of `exec`: `none` in place of `argc` is `goto bad`. The size and the
table are those it has built so far. -/
def buildImage (r : Running) (f : File) (elf : Elfhdr) (ondemand : Bool)
    (argv : List (List Byte)) (s : Space) : Except Panic (Option ℕ × ℕ × Space) := do
  let (ok, sz, s) ← loadSegments r f elf ondemand (List.range elf.phnum) 0 s
  if !ok then return (none, sz, s)
  else
    let sz := pgroundup64 sz
    let (sz1, m, pt) ← uvmalloc r sz ((sz + 2 * PGSIZE) % 2 ^ 64) permW s
    if sz1 = 0 then return (none, sz, m, pt)
    else
      let pt ← uvmclear (sub64 sz1 (2 * PGSIZE)) pt
      let (m, argc) := pushArgs pt sz1 argv m
      return (argc, sz1, m, pt)

/-- `exec`: `argc`, or `none` for -1. -/
def Proc.exec (path : Path) (argv : List (List Byte)) (namei : Path → Option File)
    (k : Kernel) (p : Proc) : Except Panic (Option ℕ × Kernel × Proc) :=
  let p := { p with ondemand := isOndemand path }
  let r : Running := ⟨k.groups, p.cowGroup⟩
  match namei path with
  | none => .ok (none, k, p)
  | some f =>
    let (got, buf) := readi f 0 sizeofElfhdr fun _ => 0
    let elf := Elfhdr.ofBytes buf
    if got ≠ sizeofElfhdr then .ok (none, k, p)
    else if elf.magic ≠ ELF_MAGIC then .ok (none, k, p)
    else do
      let (pg, m) ← procPagetable r (p.trapframe.getD 0) k.memory
      match pg with
      | none => return (none, { k with memory := m }, p)
      | some pg =>
        let (argc, sz, m, pt) ← buildImage r f elf p.ondemand argv (m, pg.table)
        let new := { pg with table := pt }
        match argc with
        | none =>
          let m ← procFreepagetable r new sz m
          return (none, { k with memory := m }, p)
        | some argc =>
          match p.pagetable with
          | none => .error kerneltrap
          | some old =>
            let m ← procFreepagetable r old p.sz m
            return (some argc, { k with memory := m }, { p with
              name := progName path, pagetable := some new, sz := sz,
              heapTracker := fun _ => .clear, residentHeapPages := 0 })

end AdvancedOperatingSystems.DemandPaging
