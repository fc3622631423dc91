import AdvancedOperatingSystems.TrapEmulate.State
import AdvancedOperatingSystems.Foundations.Runs

/-!
# The trap handlers

`trap_and_emulate` with the handlers it dispatches to, and the page-table
copies they make. A panic of the kernel is the error of the result.
`kalloc` succeeds throughout; the root pages it returns are inputs.
-/

namespace AdvancedOperatingSystems.TrapEmulate

open Foundations Riscv Riscv.PageTable

/-- `mappages(pagetable, va, PGSIZE, pa, perm)`: the missing table pages are
allocated, and a page that is mapped already is a panic. -/
def mappages (pt : PageTable Unit) (va : ℕ) (e : Pte) : Except Panic (PageTable Unit) :=
  if MAXVA ≤ va then .error "walk"
  else if (pt.leaf (vpn va)).isSome then .error "mappages: remap"
  else .ok
    { mid := Function.update pt.mid (midIndex va) (some ())
      low := Function.update pt.low (lowIndex va) (some ())
      leaf := Function.update pt.leaf (vpn va) (some e) }

/-- One iteration of `uvmunmap` with `do_free == 0`. -/
def unmapPage (pt : PageTable Unit) (va : ℕ) : Except Panic (PageTable Unit) :=
  if va % PGSIZE ≠ 0 then .error "uvmunmap: not aligned"
  else pt.walk va >>= fun
    | none => .error "uvmunmap: walk"
    | some none => .error "uvmunmap: not mapped"
    | some (some e) =>
        if e.onlyValid then .error "uvmunmap: not a leaf" else .ok (pt.set va none)

/-- `apply_pmp_restrictions`: `uvmunmap` of one page after another. The loop
variable is a 64-bit word; every address from `MAXVA` on panics in `walk`. -/
def applyPmpRestrictions (pt : PageTable Unit) (start stop : ℕ) :
    Except Panic (PageTable Unit) :=
  exec unmapPage pt (pages start stop)

/-- One iteration of `copy_pagetable_region`. -/
def copyPage (old new : PageTable Unit) (i : ℕ) : Except Panic (PageTable Unit) :=
  old.walk i >>= fun
    | none => .error "No mapping is present"
    | some none => .error ""
    | some (some e) => mappages new i e

def copyPagetableRegion (old new : PageTable Unit) (start stop : ℕ) :
    Except Panic (PageTable Unit) :=
  exec (copyPage old) new (pages start stop)

abbrev trampolinePage : ℕ := KERNBASE + 0x7000

/-- `proc_pagetable`: the trampoline and the trapframe and nothing else. -/
def procPagetable (p : Proc) : PageTable Unit where
  mid := fun i => if i = midIndex TRAPFRAME then some () else none
  low := fun i => if i = lowIndex TRAPFRAME then some () else none
  leaf := fun i =>
    if i = vpn TRAMPOLINE then some ⟨trampolinePage, true, false, true, false⟩
    else if i = vpn TRAPFRAME then some ⟨p.trapframePage, true, true, false, false⟩
    else none

/-- First and last address of the memory region of a VM. -/
abbrev vmStart : ℕ := 0x80000000

abbrev vmEnd : ℕ := 0x80400000

/-- `proc_pagetable` and the two copies the monitor always makes together. -/
def cloneTable (p : Proc) (old : PageTable Unit) : Except Panic (PageTable Unit) :=
  copyPagetableRegion old (procPagetable p) 0 p.sz >>= fun new =>
    copyPagetableRegion old new vmStart vmEnd

/-- Follow a `struct vm_reg` pointer; NULL ends in `kerneltrap`. -/
def deref : Option Slot → Except Panic Slot
  | none => .error "kerneltrap"
  | some i => .ok i

/-- Follow `p->pagetable`. -/
def derefTable : Option TableRef → Except Panic (PageTable Unit)
  | none => .error "kerneltrap"
  | some t => .ok t.table

section Handlers

variable (s : VmState) (p : Proc)

/-- `handle_ecall`. The updated `sstatus` and `mstatus` words are local copies
that are never stored back, so only the lookups of the registers remain. -/
def handleEcall : Except Panic (VmState × Proc) :=
  if s.currentMode = 0 then do
    let sepcReg ← deref (s.getVmReg 0x141)
    let _ ← deref (s.getVmReg 0x100)
    let stvecReg ← deref (s.getVmReg 0x105)
    let s := s.setVal sepcReg p.epc
    .ok ({ s with currentMode := 1 }, p.setEpc (s.slot stvecReg).val)
  else if s.currentMode = 1 then do
    let mepcReg ← deref (s.getVmReg 0x341)
    let _ ← deref (s.getVmReg 0x300)
    let mtvecReg ← deref (s.getVmReg 0x305)
    let s := s.setVal mepcReg p.epc
    let p := p.setEpc (s.slot mtvecReg).val
    .ok ({ s with currentMode := 2 }, { p with pagetable := s.oldPtable })
  else .ok (trapAndEmulateInit, p.setkilled)

def handleSret : Except Panic (VmState × Proc) :=
  if s.currentMode = 1 then do
    let sstatusReg ← deref (s.getVmReg 0x100)
    let sepcReg ← deref (s.getVmReg 0x141)
    let sstatus := (s.slot sstatusReg).val
    let spp := (sstatus >>> 8) &&& 1
    let spie := (sstatus >>> 5) &&& 1
    let sstatus := sstatus ||| (spie <<< 1) ||| (1#64 <<< 5)
    let s := if spp.toNat < 1 then { s with currentMode := spp.toNat } else s
    let s := s.setVal sstatusReg sstatus
    .ok (s, p.setEpc (s.slot sepcReg).val)
  else .ok (trapAndEmulateInit, { p with pagetable := s.oldPtable }.setkilled)

/-- `handle_mret` up to the PMP block. -/
def mretReturn : Except Panic (VmState × Proc) :=
  if 2 ≤ s.currentMode then do
    let mstatusReg ← deref (s.getVmReg 0x300)
    let mepcReg ← deref (s.getVmReg 0x341)
    let mstatus := (s.slot mstatusReg).val
    let mpp := (mstatus >>> 11) &&& 3
    let mpie := (mstatus >>> 7) &&& 1
    let mstatus := mstatus ||| (mpie <<< 3) ||| (1#64 <<< 7)
    let s := if mpp.toNat < 2 then { s with currentMode := mpp.toNat } else s
    let s := s.setVal mstatusReg mstatus
    .ok (s, p.setEpc (s.slot mepcReg).val)
  else .ok (trapAndEmulateInit, p.setkilled)

theorem pred_entry_lt (i : Fin 4) : i.val - 1 < 4 := by omega

/-- `start_addr` of PMP entry `i`: the bound of the entry before it. -/
def pmpStart (i : Fin 4) : ℕ :=
  if i.val = 0 then vmStart
  else (s.val (.pmpaddr ⟨i.val - 1, pred_entry_lt i⟩) <<< 2).toNat

/-- `end_addr` of PMP entry `i`. -/
def pmpEnd (i : Fin 4) : ℕ := (s.val (.pmpaddr i) <<< 2).toNat

/-- `rwx_bits` of PMP entry `i`. -/
def pmpRwx (i : Fin 4) : BitVec 64 := (s.val .pmpcfg0 >>> (i.val * 8)) &&& 7

/-- The loop over the PMP entries, which stops at the first zero bound. -/
def pmpLoop : List (Fin 4) → PageTable Unit → Except Panic (PageTable Unit)
  | [], new => .ok new
  | i :: is, new =>
      if s.val (.pmpaddr i) = 0 then .ok new
      else
        (if pmpRwx s i ≠ 7 then applyPmpRestrictions new (pmpStart s i) (pmpEnd s i)
          else .ok new) >>= pmpLoop is

/-- The PMP block of `handle_mret`; `page` is the root of the new table. -/
def mretPmp (page : KallocPage) : Except Panic (VmState × Proc) := do
  let old ← derefTable p.pagetable
  let new ← cloneTable p old
  let new ← pmpLoop s [0, 1, 2, 3] new
  .ok ({ s with newPtable := page.val }, { p with pagetable := some ⟨page, new⟩ })

def handleMret (page : KallocPage) : Except Panic (VmState × Proc) :=
  mretReturn s p >>= fun r =>
    if r.1.pmpConfiguration = 1 then mretPmp r.1 r.2 page else .ok r

/-- The CSR numbers whose write sets `pmp_configuration`. -/
def isPmpNumber (uimm : ℕ) : Bool :=
  uimm = 0x3a0 || uimm = 0x3b0 || uimm = 0x3b1 || uimm = 0x3b2 || uimm = 0x3b3

def handleCsrw (rs1 : BitVec 5) (uimm : ℕ) : Except Panic (VmState × Proc) :=
  let val := p.trapframe (Proc.regWord rs1)
  let (s, p) :=
    match s.getVmReg uimm with
    | some i =>
        if (s.slot i).mode ≤ s.currentMode then (s.setVal i val, p)
        else (trapAndEmulateInit, p.setkilled)
    | none => (trapAndEmulateInit, p.setkilled)
  let s := if isPmpNumber uimm then { s with pmpConfiguration := 1 } else s
  .ok (s, p.setEpc (p.epc + 4))

/-- `handle_csrr`. The lookup is followed without a test for NULL. -/
def handleCsrr (rd : BitVec 5) (uimm : ℕ) : Except Panic (VmState × Proc) := do
  let i ← deref (s.getVmReg uimm)
  let (s, p) :=
    if (s.slot i).mode ≤ s.currentMode then
      (s, p.setWord (Proc.regWord rd) (s.slot i).val)
    else (trapAndEmulateInit, p.setkilled)
  .ok (s, p.setEpc (p.epc + 4))

end Handlers

section Decode

variable (instruction : BitVec 32)

def rd : BitVec 5 := instruction.extractLsb' 7 5

def funct3 : ℕ := (instruction.extractLsb' 12 3).toNat

def rs1 : BitVec 5 := instruction.extractLsb' 15 5

def uimm : ℕ := (instruction.extractLsb' 20 12).toNat

theorem uimm_lt : uimm instruction < 2 ^ 12 := (instruction.extractLsb' 20 12).isLt

end Decode

/-- What one trap of the guest brings with it: the pc, the instruction word
there, the general registers, and the root pages that `kalloc` has for the tables
built meanwhile. -/
structure TrapInput where
  sepc : BitVec 64
  instruction : BitVec 32
  regs : BitVec 5 → BitVec 64
  oldPage : KallocPage
  newPage : KallocPage

/-- The process once `uservec` has saved `x1` to `x31` and `usertrap` the pc. -/
def Proc.trapped (p : Proc) (t : TrapInput) : Proc :=
  let saved : Trapframe := fun i =>
    if 4 < i.val then t.regs (BitVec.ofNat 5 (i.val - 4)) else p.trapframe i
  { p with trapframe := saved }.setEpc t.sepc

/-- The first statements of `trap_and_emulate`: the copy of the page table that
later switches return to is made at the first trap after an initialisation. -/
def saveOldPtable (page : KallocPage) (s : VmState) (p : Proc) : Except Panic VmState :=
  match s.oldPtable, p.pagetable with
  | none, some t => cloneTable p t.table >>= fun new =>
      .ok { s with oldPtable := some ⟨page, new⟩ }
  | _, _ => .ok s

/-- The `switch` of `trap_and_emulate`. There is no default case. -/
def dispatch (t : TrapInput) (s : VmState) (p : Proc) : Except Panic (VmState × Proc) :=
  match funct3 t.instruction with
  | 0 =>
      if uimm t.instruction = 0x102 then handleSret s p
      else if uimm t.instruction = 0x302 then handleMret s p t.newPage
      else handleEcall s p
  | 1 => handleCsrw s p (rs1 t.instruction) (uimm t.instruction)
  | 2 => handleCsrr s p (rd t.instruction) (uimm t.instruction)
  | _ => .ok (s, p)

def trapAndEmulate (t : TrapInput) (s : VmState) (p : Proc) :
    Except Panic (VmState × Proc) :=
  saveOldPtable t.oldPage s p >>= fun s => dispatch t s p

end AdvancedOperatingSystems.TrapEmulate
