import AdvancedOperatingSystems.DemandPaging.Access
import AdvancedOperatingSystems.DemandPaging.Exec

/-!
# The processes of the system

`uvmcopy_cow` of `cow.c` and the functions of `proc.c` on the table of processes. An
event is a user access, a system call or a copy of the kernel to the memory of a live
process. What a child inherits besides memory (registers, files) is left out.
-/

namespace AdvancedOperatingSystems.DemandPaging

open Foundations Riscv Riscv.PageTable

section CopyOnWrite

/-- The state of the loop of `uvmcopy_cow`. -/
structure CowCopy where
  groups : CowGroups
  memory : Memory
  old : PageTable ℕ
  new : PageTable ℕ

/-- The entry without `PTE_W`. -/
def readOnly (e : Pte) : Pte := { e with w := false }

/-- The loop of `uvmcopy_cow`: the address at which it gave up, if it did. -/
def uvmcopyCowLoop (group : ℕ) : List ℕ → CowCopy → Except Panic (Option ℕ × CowCopy)
  | [], s => .ok (none, s)
  | i :: is, s => do
    match ← s.old.walk i with
    | none => .error "uvmcopy: pte should exist"
    | some none => uvmcopyCowLoop group is s
    | some (some e) =>
      let (ok, m, new) ← mappages i (readOnly e) (s.memory, s.new)
      if !ok then return (some i, { s with memory := m, new := new })
      else
        let groups ← s.groups.addShmem group e.pa
        uvmcopyCowLoop group is ⟨groups, m, s.old.set i (some (readOnly e)), new⟩

/-- `uvmcopy_cow`: whether it succeeds. -/
def uvmcopyCow (group sz : ℕ) (s : CowCopy) : Except Panic (Bool × CowCopy) := do
  match ← uvmcopyCowLoop group (pages 0 sz) s with
  | (none, s) => return (true, s)
  | (some i, s) =>
    let (m, new) ← uvmunmap ⟨s.groups, group⟩ 0 (i / PGSIZE) true (s.memory, s.new)
    return (false, { s with memory := m, new := new })

/-- The body of the loop of `fork` over the pages of the parent. -/
def sharePage (group : ℕ) (pt : PageTable ℕ) (groups : CowGroups) (va : ℕ) :
    Except Panic CowGroups := do
  match ← pt.walk va with
  | some (some e) => groups.addShmem group e.pa
  | _ => return groups

end CopyOnWrite

/-- The kernel with the table `proc`. -/
structure System where
  kernel : Kernel
  proc : ℕ → Proc
  nextpid : ℕ
  initproc : ℕ

namespace System

variable (s : System)

def cpu (i : ℕ) : Option Cpu :=
  (s.proc i).pagetable.map fun pg => ⟨s.kernel, s.proc i, pg.table⟩

def setCpu (i : ℕ) (c : Cpu) : System :=
  { s with
    kernel := c.kernel
    proc := Function.update s.proc i
      { c.proc with pagetable := c.proc.pagetable.map fun pg => { pg with table := c.table } } }

/-- What `uvmunmap` reads while the process runs. -/
def running (i : ℕ) : Running := ⟨s.kernel.groups, (s.proc i).cowGroup⟩

def setMemory (m : Memory) : System := { s with kernel := { s.kernel with memory := m } }

def setGroups (groups : CowGroups) : System := { s with kernel := { s.kernel with groups := groups } }

def setProc (i : ℕ) (p : Proc) : System := { s with proc := Function.update s.proc i p }

end System

/-- `freeproc`, run by the given process. -/
def freeproc (r : Running) (p : Proc) (m : Memory) : Except Panic (Proc × Memory) := do
  let m ← (match p.trapframe with
    | none => .ok m
    | some trapframe => m.kfree trapframe)
  let m ← (match p.pagetable with
    | none => .ok m
    | some pg => procFreepagetable r pg p.sz m)
  return ({ p with
    trapframe := none, pagetable := none, sz := 0, pid := 0, parent := none, name := [],
    xstate := 0, state := .unused }, m)

def System.freeSlot (s : System) : Option ℕ :=
  (List.range NPROC).find? fun i => (s.proc i).state = .unused

/-- `allocproc`: the slot, its process and table, if it succeeds. -/
def System.allocproc (r : Running) (s : System) :
    Except Panic (Option (ℕ × Proc × Pagetable) × System) :=
  match s.freeSlot with
  | none => .ok (none, s)
  | some n =>
    let np := { s.proc n with pid := s.nextpid, state := .used }
    let s := { s with nextpid := s.nextpid + 1 }
    match s.kernel.memory.kalloc with
    | none => do
      let (np, m) ← freeproc r { np with trapframe := none } s.kernel.memory
      return (none, (s.setMemory m).setProc n np)
    | some (trapframe, m) => do
      let np := { np with trapframe := some trapframe }
      let (pg, m) ← procPagetable r trapframe m
      match pg with
      | none =>
        let (np, m) ← freeproc r { np with pagetable := none } m
        return (none, (s.setMemory m).setProc n np)
      | some pg =>
        let np := { np with pagetable := some pg }
        return (some (n, np, pg), (s.setMemory m).setProc n np)

/-- The first `fork(1)` of a process makes it a CoW group. -/
def joinGroup (p : Proc) (groups : CowGroups) : Proc × CowGroups :=
  if p.cowGroup = 0 then
    ({ p with cowGroup := p.pid, cowEnabled := true }, groups.cowGroupInit p.pid)
  else (p, groups)

/-- The end of `fork`: the child takes over what it inherits. -/
def System.startChild (s : System) (i n : ℕ) (np : Proc) (table : Pagetable) : System :=
  let p := s.proc i
  s.setProc n { np with
    pagetable := some table, sz := p.sz, name := p.name, ondemand := p.ondemand,
    parent := some i, state := .live }

/-- The copy of memory in `fork(1)` and what follows it. -/
def System.forkCow (s : System) (i n : ℕ) (np : Proc) (parent child : Pagetable) :
    Except Panic System := do
  let (p, groups) := joinGroup (s.proc i) s.kernel.groups
  let (ok, copy) ← uvmcopyCow p.cowGroup p.sz ⟨groups, s.kernel.memory, parent.table, child.table⟩
  let p := { p with pagetable := some { parent with table := copy.old } }
  let child := { child with table := copy.new }
  if !ok then
    let (np, m) ← freeproc ⟨copy.groups, p.cowGroup⟩ { np with pagetable := some child } copy.memory
    return (((s.setMemory m).setGroups copy.groups).setProc i p).setProc n np
  else
    let groups ← Foundations.exec (sharePage p.cowGroup copy.old) copy.groups (pages 0 p.sz)
    let groups ← groups.incrCowGroupCount p.cowGroup
    return (((s.setMemory copy.memory).setGroups groups).setProc i p).startChild i n
      { np with cowEnabled := true, cowGroup := p.cowGroup } child

/-- The copy of memory in `fork(0)` and what follows it. -/
def System.forkCopy (s : System) (i n : ℕ) (np : Proc) (parent child : Pagetable) :
    Except Panic System := do
  let (ok, m, table) ←
    uvmcopy (s.running i) parent.table (s.proc i).sz (s.kernel.memory, child.table)
  let child := { child with table := table }
  if !ok then
    let (np, m) ← freeproc (s.running i) { np with pagetable := some child } m
    return (s.setMemory m).setProc n np
  else return (s.setMemory m).startChild i n np child

def System.fork (s : System) (i : ℕ) (cow : Bool) : Except Panic System := do
  match (s.proc i).pagetable with
  | none => .error kerneltrap
  | some parent =>
    match ← s.allocproc (s.running i) with
    | (none, s) => return s
    | (some (n, np, child), s) =>
      if cow then s.forkCow i n np parent child else s.forkCopy i n np parent child

def initPsaRegions (psaTracker : ℕ → Bool) : ℕ → Bool := fun i =>
  if i < PSASIZE then false else psaTracker i

def System.reparent (s : System) (i : ℕ) : System :=
  { s with proc := fun j =>
      if j < NPROC ∧ (s.proc j).parent = some i then { s.proc j with parent := some s.initproc }
      else s.proc j }

def System.exit (s : System) (i : ℕ) (status : BitVec 32) : Except Panic System := do
  let s := { s with kernel := { s.kernel with psaTracker := initPsaRegions s.kernel.psaTracker } }
  let groups ←
    (if (s.proc i).cowEnabled then s.kernel.groups.decrCowGroupCount (s.proc i).cowGroup
    else .ok s.kernel.groups)
  if i = s.initproc then .error "init exiting"
  else
    let s := (s.setGroups groups).reparent i
    return s.setProc i { s.proc i with xstate := status, state := .zombie }

def statusByte (status : BitVec 32) (j : ℕ) : Byte := status.extractLsb' (8 * j) 8

/-- `wait`. Without a child to reap it changes nothing. -/
def System.wait (s : System) (i addr : ℕ) : Except Panic System := do
  match (List.range NPROC).find? fun j =>
      (s.proc j).parent = some i ∧ (s.proc j).state = .zombie with
  | none => return s
  | some j =>
    match (s.proc i).pagetable with
    | none => .error kerneltrap
    | some pg =>
      let (ok, m) :=
        if addr ≠ 0 then copyout pg.table addr (statusByte (s.proc j).xstate) 4 s.kernel.memory
        else (true, s.kernel.memory)
      if !ok then return s.setMemory m
      else
        let (p, m) ← freeproc (s.running i) (s.proc j) m
        return (s.setMemory m).setProc j p

/-- What the processes do. `write` is a copy of the kernel to a buffer of the process. -/
inductive Event
  | access (a : Access)
  | sbrk (bytes : Int)
  | fork (cow : Bool)
  | exec (path : Path) (argv : List (List Byte)) (namei : Path → Option File)
  | exit (status : BitVec 32)
  | wait (addr : ℕ)
  | write (dstva : ℕ) (src : ℕ → Byte) (len : ℕ)

/-- An event of a live process. -/
def System.run (s : System) (i : ℕ) (c : Cpu) : Event → Except Panic System
  | .access a => do
    let (_, c) ← DemandPaging.access a c
    return s.setCpu i c
  | .sbrk bytes => do
    let (_, c) ← growproc bytes c
    return s.setCpu i c
  | .fork cow => s.fork i cow
  | .exec path argv namei => do
    let (_, k, p) ← Proc.exec path argv namei s.kernel (s.proc i)
    return { s with kernel := k, proc := Function.update s.proc i p }
  | .exit status => s.exit i status
  | .wait addr => s.wait i addr
  | .write dstva src len => return s.setMemory (copyout c.table dstva src len s.kernel.memory).2

/-- A step of the system. Only live processes run. -/
def System.step (s : System) (e : ℕ × Event) : Except Panic System :=
  if (s.proc e.1).state = .live then
    match s.cpu e.1 with
    | none => .error kerneltrap
    | some c => s.run e.1 c e.2
  else .ok s

end AdvancedOperatingSystems.DemandPaging
