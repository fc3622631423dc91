import AdvancedOperatingSystems.DemandPaging.ExecFailure
import AdvancedOperatingSystems.TrapEmulate.Handlers

/-!
# Executing a program in the kernel with VMs

`exec` of the kernel that runs VMs, and the functions of `vm.c` and `proc.c` it calls where they
differ from those of the kernel with demand paging. The allocator, the walk of a page table,
`freewalk`, `copyout` and `loadseg` are the same in both kernels.
-/

namespace AdvancedOperatingSystems.VmExec

open Foundations Riscv Riscv.PageTable DemandPaging
open TrapEmulate (vmStart vmEnd)

/-- The body of the loop of `uvmunmap`. -/
def unmapPage (doFree : Bool) (s : Space) (a : ℕ) : Except Panic Space := do
  match ← s.2.walk a with
  | none => .error "uvmunmap: walk"
  | some none => .error "uvmunmap: not mapped"
  | some (some e) =>
    if e.onlyValid then .error "uvmunmap: not a leaf"
    else if doFree then
      let m ← s.1.kfree e.pa
      return (m, s.2.set a none)
    else return (s.1, s.2.set a none)

def uvmunmap (va npages : ℕ) (doFree : Bool) (s : Space) : Except Panic Space :=
  if va % PGSIZE ≠ 0 then .error "uvmunmap: not aligned"
  else Foundations.exec (unmapPage doFree) s (pages va (va + npages * PGSIZE))

/-- `uvmdealloc`. `exec` does not use the size it returns. -/
def uvmdealloc (oldsz newsz : ℕ) (s : Space) : Except Panic Space :=
  if oldsz ≤ newsz then .ok s
  else if pgroundup64 newsz < pgroundup64 oldsz then
    uvmunmap (pgroundup64 newsz) ((pgroundup64 oldsz - pgroundup64 newsz) / PGSIZE) true s
  else .ok s

/-- The loop of `uvmalloc` from the rounded old size on: whether it succeeds. -/
def uvmallocLoop (perm : Perm) (oldsz : ℕ) : List ℕ → Space → Except Panic (Bool × Space)
  | [], s => .ok (true, s)
  | a :: as, (m, pt) =>
    match m.kalloc with
    | none => do
      let s ← uvmdealloc a oldsz (m, pt)
      return (false, s)
    | some (mem, m) => do
      let (ok, m, pt) ← mappages a (perm.pte mem) (m.memset mem 0, pt)
      if ok then uvmallocLoop perm oldsz as (m, pt)
      else
        let m ← m.kfree mem
        let s ← uvmdealloc a oldsz (m, pt)
        return (false, s)

/-- `uvmalloc`: the new size, 0 on failure. -/
def uvmalloc (oldsz newsz : ℕ) (perm : Perm) (s : Space) : Except Panic (ℕ × Space) := do
  if newsz < oldsz then return (oldsz, s)
  else
    let oldsz := pgroundup64 oldsz
    let (ok, s) ← uvmallocLoop perm oldsz (pages oldsz newsz) s
    return (if ok then newsz else 0, s)

def uvmfree (pg : Pagetable) (sz : ℕ) (m : Memory) : Except Panic Memory := do
  let (m, table) ←
    if 0 < sz then uvmunmap 0 (pgroundup64 sz / PGSIZE) true (m, pg.table)
    else pure (m, pg.table)
  freewalk { pg with table := table } m

def procPagetable (trapframe : ℕ) (m : Memory) : Except Panic (Option Pagetable × Memory) :=
  match uvmcreate m with
  | none => .ok (none, m)
  | some (pg, m) => do
    let (ok, m, pt) ← mappages TRAMPOLINE ⟨m.trampoline, true, false, true, false⟩ (m, pg.table)
    if !ok then
      let m ← uvmfree { pg with table := pt } 0 m
      return (none, m)
    else
      let (ok, m, pt) ← mappages TRAPFRAME ⟨trapframe, true, true, false, false⟩ (m, pt)
      if !ok then
        let (m, pt) ← uvmunmap TRAMPOLINE 1 false (m, pt)
        let m ← uvmfree { pg with table := pt } 0 m
        return (none, m)
      else return (some { pg with table := pt }, m)

def procFreepagetable (pg : Pagetable) (sz : ℕ) (m : Memory) : Except Panic Memory := do
  let s ← uvmunmap TRAMPOLINE 1 false (m, pg.table)
  let (m, pt) ← uvmunmap TRAPFRAME 1 false s
  uvmfree { pg with table := pt } sz m

/-- The loop of `exec` over the program headers: whether it succeeds, and the size. -/
def loadSegments (f : File) (elf : Elfhdr) : List ℕ → ℕ → Space → Except Panic (Bool × ℕ × Space)
  | [], sz, s => .ok (true, sz, s)
  | i :: is, sz, s =>
    let (got, buf) := readi f (elf.off i) sizeofProghdr fun _ => 0
    let ph := Proghdr.ofBytes buf
    let stop := (ph.vaddr + ph.memsz) % 2 ^ 64
    if got ≠ sizeofProghdr then .ok (false, sz, s)
    else if ph.type ≠ ELF_PROG_LOAD then loadSegments f elf is sz s
    else if ph.memsz < ph.filesz then .ok (false, sz, s)
    else if stop < ph.vaddr then .ok (false, sz, s)
    else if ph.vaddr % PGSIZE ≠ 0 then .ok (false, sz, s)
    else do
      let (sz1, m, pt) ← uvmalloc sz stop (flags2perm ph.flags) s
      if sz1 = 0 then return (false, sz, m, pt)
      else
        let (loaded, m) ← loadseg pt ph.vaddr f ph.off ph.filesz m
        if loaded then loadSegments f elf is sz1 (m, pt)
        else return (false, sz1, m, pt)

/-- The new image of `exec`: `none` in place of `argc` is `goto bad`. The size and the
table are those it has built so far. -/
def buildImage (f : File) (elf : Elfhdr) (argv : List (List Byte)) (s : Space) :
    Except Panic (Option ℕ × ℕ × Space) := do
  let (ok, sz, s) ← loadSegments f elf (List.range elf.phnum) 0 s
  if !ok then return (none, sz, s)
  else
    let sz := pgroundup64 sz
    let (sz1, m, pt) ← uvmalloc sz ((sz + 2 * PGSIZE) % 2 ^ 64) permW s
    if sz1 = 0 then return (none, sz, m, pt)
    else
      let pt ← uvmclear (sub64 sz1 (2 * PGSIZE)) pt
      let (m, argc) := pushArgs pt sz1 argv m
      return (argc, sz1, m, pt)

/-- What `exec` reads and sets of `struct proc`, with the registers of the trapframe. -/
structure Proc where
  pagetable : Pagetable
  sz : ℕ
  name : Path
  trapframePage : ℕ
  trapframe : Trapframe

/-- `strncmp(p->name, "vm-", 3) == 0`. -/
def isVm (name : Path) : Bool := ['v', 'm', '-'].isPrefixOf name

/-- The end of `exec`, with the memory region of a VM: the result and memory. -/
def createRegion (argc : ℕ) (p : Proc) (m : Memory) : Except Panic (Option ℕ × Memory × Proc) :=
  if isVm p.name then do
    let (sz1, m, pt) ← uvmalloc vmStart (vmStart + 1024 * PGSIZE) permW (m, p.pagetable.table)
    let p := { p with pagetable := { p.pagetable with table := pt } }
    if sz1 = 0 then
      let m ← procFreepagetable p.pagetable p.sz m
      return (none, m, p)
    else return (some argc, m, p)
  else .ok (some argc, m, p)

/-- `exec`: `argc`, or `none` for -1. -/
def exec (path : Path) (argv : List (List Byte)) (namei : Path → Option File) (m : Memory)
    (p : Proc) : Except Panic (Option ℕ × Memory × Proc) :=
  match namei path with
  | none => .ok (none, m, p)
  | some f =>
    let (got, buf) := readi f 0 sizeofElfhdr fun _ => 0
    let elf := Elfhdr.ofBytes buf
    if got ≠ sizeofElfhdr then .ok (none, m, p)
    else if elf.magic ≠ ELF_MAGIC then .ok (none, m, p)
    else do
      let (pg, m) ← procPagetable p.trapframePage m
      match pg with
      | none => return (none, m, p)
      | some pg =>
        let (argc, sz, m, pt) ← buildImage f elf argv (m, pg.table)
        let new := { pg with table := pt }
        match argc with
        | none =>
          let m ← procFreepagetable new sz m
          return (none, m, p)
        | some argc =>
          let sp := stackPointer sz argv
          let old := p.pagetable
          let oldsz := p.sz
          let m ← procFreepagetable old oldsz m
          createRegion argc
            { p with
              name := progName path, pagetable := new, sz := sz
              trapframe := ⟨elfEntry buf, sp, sp⟩ } m

end AdvancedOperatingSystems.VmExec
