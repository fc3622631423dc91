import AdvancedOperatingSystems.DemandPaging.Elf

/-!
# Page faults

`pfault.c` with `copy_on_write` of `cow.c`. A `Cpu` runs a process: it holds the
state of the kernel, the process and the table its `satp` points to, which is that
of `p->pagetable`. `ticks` is a `uint`, and a disk block reads as it was last
written.
-/

namespace AdvancedOperatingSystems.DemandPaging

open Foundations Riscv Riscv.PageTable

/-- `struct heap_tracker_t`. The `startblock` -1 is `none`. -/
structure HeapPage where
  addr : ℕ
  lastLoadTime : ℕ
  loaded : Bool
  startblock : Option ℕ
  deriving DecidableEq, Repr

/-- `0xFFFFFFFFFFFFFFFF`. -/
abbrev unset : ℕ := 2 ^ 64 - 1

/-- An entry as `exec` clears it. -/
abbrev HeapPage.clear : HeapPage := ⟨unset, unset, false, none⟩

abbrev HeapPage.zero : HeapPage := ⟨0, 0, false, some 0⟩

/-- `enum procstate`, with one value for the states of a process that can run. -/
inductive ProcState
  | unused
  | used
  | live
  | zombie
  deriving DecidableEq, Repr

/-- `struct proc`. A parent is named by its place in the table `proc`. -/
structure Proc where
  state : ProcState
  xstate : BitVec 32
  pid : ℕ
  parent : Option ℕ
  sz : ℕ
  pagetable : Option Pagetable
  trapframe : Option ℕ
  name : Path
  ondemand : Bool
  heapTracker : ℕ → HeapPage
  residentHeapPages : ℕ
  cowGroup : ℕ
  cowEnabled : Bool

/-- The global state of the kernel. `bwritten` records the blocks written by `bwrite`. -/
structure Kernel where
  memory : Memory
  groups : CowGroups
  psaTracker : ℕ → Bool
  disk : ℕ → ℕ → Byte
  bwritten : List ℕ
  ticks : BitVec 32

structure Cpu where
  kernel : Kernel
  proc : Proc
  table : PageTable ℕ

/-- What `uvmunmap` reads while the process runs. -/
def Cpu.running (c : Cpu) : Running := ⟨c.kernel.groups, c.proc.cowGroup⟩

/-- The memory of the kernel with the table of the process. -/
def Cpu.space (c : Cpu) : Space := (c.kernel.memory, c.table)

def Cpu.setSpace (c : Cpu) (s : Space) : Cpu :=
  { c with kernel := { c.kernel with memory := s.1 }, table := s.2 }

def Kernel.bwrite (k : Kernel) (block : ℕ) (data : ℕ → Byte) : Kernel :=
  { k with disk := Function.update k.disk block data, bwritten := block :: k.bwritten }

section Swap

/-- The first free block the search of `evict_page_to_disk` finds, or 0. -/
@[irreducible] def freeBlock (psaTracker : ℕ → Bool) : ℕ :=
  ((List.range (PSASIZE - PSASTART)).find? fun i => !psaTracker i).getD 0

def setBlocks (psaTracker : ℕ → Bool) (blockno : ℕ) (value : Bool) : ℕ → Bool := fun i =>
  if blockno ≤ i ∧ i < blockno + 4 then value else psaTracker i

/-- The body of the loop that looks for the victim. -/
def victimStep (tracker : ℕ → HeapPage) (victim : Option ℕ) (i : ℕ) : Option ℕ :=
  if (tracker i).loaded then victim
  else match victim with
    | none => some i
    | some v => if (tracker i).lastLoadTime < (tracker v).lastLoadTime then some i else some v

@[irreducible] def victimPageIndex (tracker : ℕ → HeapPage) : Option ℕ :=
  (List.range MAXHEAP).foldl (victimStep tracker) none

def writePage (blockno : ℕ) (data : Page) (k : Kernel) : Kernel :=
  (List.range 4).foldl
    (fun k i => k.bwrite (PSASTART + blockno + i) fun j => data (BSIZE * i + j)) k

def evictPageToDisk (c : Cpu) : Except Panic Cpu :=
  let blockno := freeBlock c.kernel.psaTracker
  match victimPageIndex c.proc.heapTracker with
  | none => .error "heap_tracker[-1]"
  | some v =>
    let addr := (c.proc.heapTracker v).addr
    let tracker := Function.update c.proc.heapTracker v
      { c.proc.heapTracker v with loaded := true, startblock := some blockno }
    match c.kernel.memory.kalloc with
    | none => .error kerneltrap
    | some (kernelPage, m) => do
      let (_, m) := copyin c.table kernelPage addr m
      let k := { c.kernel with
        memory := m, psaTracker := setBlocks c.kernel.psaTracker blockno true }
      let k := writePage blockno (m.page kernelPage) k
      let s ← uvmunmap c.running addr 1 false (m, c.table)
      return ({ c with kernel := k, proc := { c.proc with heapTracker := tracker } } : Cpu).setSpace s

/-- The body of the loop of `retrieve_page_from_disk`. -/
def retrieveStep (uvaddr : ℕ) (s : Option ℕ × (ℕ → HeapPage)) (i : ℕ) :
    Option ℕ × (ℕ → HeapPage) :=
  if (s.2 i).addr = uvaddr ∧ (s.2 i).loaded = true then
    ((s.2 i).startblock, Function.update s.2 i { s.2 i with loaded := false })
  else s

/-- The loop of `retrieve_page_from_disk` over the tracker: `blockno` and the tracker. -/
@[irreducible] def retrieveScan (uvaddr : ℕ) (tracker : ℕ → HeapPage) : Option ℕ × (ℕ → HeapPage) :=
  (List.range MAXHEAP).foldl (retrieveStep uvaddr) (none, tracker)

def readPage (disk : ℕ → ℕ → Byte) (blockno : ℕ) : Page := fun j =>
  disk (PSASTART + blockno + j / BSIZE) (j % BSIZE)

/-- `retrieve_page_from_disk` once it has found the block. -/
def retrieveBlock (uvaddr blockno : ℕ) (c : Cpu) : Except Panic Cpu :=
  match c.kernel.memory.kalloc with
  | none => .error kerneltrap
  | some (kernelPage, m) => do
    let m := m.write kernelPage (readPage c.kernel.disk blockno)
    let (_, m, pt) ← uvmalloc c.running uvaddr ((uvaddr + PGSIZE) % 2 ^ 64) permW (m, c.table)
    let (_, m) := copyout pt uvaddr (m.page kernelPage) PGSIZE m
    let k := { c.kernel with psaTracker := setBlocks c.kernel.psaTracker blockno false }
    return ({ c with kernel := k } : Cpu).setSpace (m, pt)

def retrievePageFromDisk (uvaddr : ℕ) (c : Cpu) : Except Panic Cpu :=
  let scan := retrieveScan uvaddr c.proc.heapTracker
  let c := { c with proc := { c.proc with heapTracker := scan.2 } }
  match scan.1 with
  | none => .ok c
  | some blockno => retrieveBlock uvaddr blockno c

end Swap

/-- A trap into `usertrap`: its registers, what `namei` would find, and the former
bytes of the stack where the handler keeps the headers. -/
structure Trap where
  scause : ℕ
  stval : ℕ
  namei : Path → Option File
  elf : ℕ → Byte
  ph : ℕ → Byte

def Trap.alignedAddr (t : Trap) : ℕ := pgrounddown t.stval

def copyOnWrite (t : Trap) (c : Cpu) : Except Panic Cpu :=
  let addr := t.alignedAddr
  match c.kernel.memory.kalloc with
  | none => .error "Kernel Page couldn't be allocated\n"
  | some (kernelPage, m) => do
    let (copied, m) := copyin c.table kernelPage addr m
    if !copied then .error "Shared Page data couldn't be copied to kernel_page"
    else
      let s ← uvmunmap c.running addr 1 false (m, c.table)
      let (_, m, pt) ← uvmalloc c.running addr ((addr + PGSIZE) % 2 ^ 64) permW s
      let (copied, m) := copyout pt addr (m.page kernelPage) PGSIZE m
      if !copied then .error "Copying from kernel page to destination address failed"
      else
        let m ← m.kfree kernelPage
        return c.setSpace (m, pt)

/-- The loop of the handler over the program headers: the first segment with the address. -/
def findSegment (f : File) (elf : Elfhdr) (addr : ℕ) : List ℕ → (ℕ → Byte) → Option Proghdr
  | [], _ => none
  | i :: is, buf =>
    let buf := (readi f (elf.off i) sizeofProghdr buf).2
    let ph := Proghdr.ofBytes buf
    if ph.type = ELF_PROG_LOAD ∧ ph.vaddr ≤ addr ∧ addr < (ph.vaddr + ph.memsz) % 2 ^ 64 then some ph
    else findSegment f elf addr is buf

/-- The part of the handler that maps a page of the program file. -/
def loadFromFile (t : Trap) (c : Cpu) : Except Panic Cpu :=
  let addr := t.alignedAddr
  match t.namei c.proc.name with
  | none => .error "File not Found\n"
  | some f =>
    let elf := Elfhdr.ofBytes (readi f 0 sizeofElfhdr t.elf).2
    if elf.magic ≠ ELF_MAGIC then .error "Invalid ELF file\n"
    else match findSegment f elf addr (List.range elf.phnum) t.ph with
      | none => .ok c
      | some ph => do
        let (sz1, m, pt) ←
          uvmalloc c.running addr ((addr + PGSIZE) % 2 ^ 64) (flags2perm ph.flags) c.space
        if sz1 = 0 then .error "Failed to allocate a page\n"
        else
          let (loaded, m) ← loadseg pt addr f (ph.off + (addr - ph.vaddr)) PGSIZE m
          if !loaded then .error "Failed to load segment\n"
          else return c.setSpace (m, pt)

@[irreducible] def pageIndex (tracker : ℕ → HeapPage) (addr : ℕ) : Option ℕ :=
  (List.range MAXHEAP).find? fun i => (tracker i).addr = addr

/-- `if (p->resident_heap_pages == MAXRESHEAP)` of the handler. -/
def makeRoom (c : Cpu) : Except Panic Cpu :=
  if c.proc.residentHeapPages = MAXRESHEAP then do
    let c ← evictPageToDisk c
    return { c with proc := { c.proc with residentHeapPages := c.proc.residentHeapPages - 1 } }
  else .ok c

def growHeap (c : Cpu) : Except Panic Cpu := do
  let (sz, s) ← uvmalloc c.running c.proc.sz ((c.proc.sz + PGSIZE) % 2 ^ 64) permW c.space
  return ({ c with proc := { c.proc with sz := sz } } : Cpu).setSpace s

/-- The end of `heap_handle`. -/
def noteLoad (addr : ℕ) (c : Cpu) : Cpu :=
  let tracker := fun i =>
    if i < MAXHEAP ∧ (c.proc.heapTracker i).addr = addr then
      { c.proc.heapTracker i with lastLoadTime := c.kernel.ticks.toNat }
    else c.proc.heapTracker i
  { c with proc := { c.proc with
      heapTracker := tracker, residentHeapPages := c.proc.residentHeapPages + 1 } }

/-- `heap_handle` of the handler. -/
def heapHandle (addr pageIndex : ℕ) (c : Cpu) : Except Panic Cpu := do
  let c ← makeRoom c
  let c ← if (c.proc.heapTracker pageIndex).loaded then retrievePageFromDisk addr c else growHeap c
  return noteLoad addr c

/-- The test of the handler for a store to a shared page. -/
def cowFault (t : Trap) (c : Cpu) : Except Panic Bool :=
  if c.proc.cowEnabled ∧ t.scause = 15 then do
    match ← c.table.walk t.alignedAddr with
    | none => .error kerneltrap
    | some none => return false
    | some (some e) => return !e.w
  else .ok false

def pageFaultHandler (t : Trap) (c : Cpu) : Except Panic Cpu :=
  match pageIndex c.proc.heapTracker t.alignedAddr with
  | some i => heapHandle t.alignedAddr i c
  | none => do
    if ← cowFault t c then copyOnWrite t c else loadFromFile t c

end AdvancedOperatingSystems.DemandPaging
