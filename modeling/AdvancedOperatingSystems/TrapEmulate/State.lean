import AdvancedOperatingSystems.Riscv.Sv39
import Mathlib.Data.Fintype.Basic
import Mathlib.Tactic.FinCases

/-!
# State of the trap-and-emulate monitor

`struct vm_virtual_state` keeps 35 virtual registers, two page-table pointers,
the virtual privilege mode and a flag that says whether a PMP register has been
written. The registers are found by a linear scan that treats the whole
structure as an array of `struct vm_reg`, so its last entry overlaps the two
pointers.
-/

namespace AdvancedOperatingSystems.TrapEmulate

open Riscv

theorem neZero_entries : NeZero 4 := ⟨by decide⟩

theorem neZero_words : NeZero 36 := ⟨by decide⟩

attribute [instance] neZero_entries neZero_words

structure VmReg where
  code : ℕ
  mode : ℕ
  val : BitVec 64
  deriving DecidableEq, Repr

/-- The `struct vm_reg` fields of `struct vm_virtual_state`. -/
inductive Csr
  | sstatus | sie | stvec | scounteren
  | sscratch | sepc | scause | sip | stval
  | satp
  | mvendroid | marchid | mimpid | mhartid | mconfigptr
  | mstatus | misa | medeleg | mideleg | mie | mtvec | mcounteren | mstatush
  | mscratch | mepc | mcause | mtval | mip | mtinst | mtval2
  | pmpcfg0
  | pmpaddr (i : Fin 4)
  deriving DecidableEq, Repr

namespace Csr

def layout : List Csr :=
  [sstatus, sie, stvec, scounteren, sscratch, sepc, scause, sip, stval, satp,
    mvendroid, marchid, mimpid, mhartid, mconfigptr,
    mstatus, misa, medeleg, mideleg, mie, mtvec, mcounteren, mstatush,
    mscratch, mepc, mcause, mtval, mip, mtinst, mtval2,
    pmpcfg0, pmpaddr 0, pmpaddr 1, pmpaddr 2, pmpaddr 3]

/-- The values `trap_and_emulate_init` writes. -/
def initial : Csr → VmReg
  | sstatus => ⟨0x100, 1, 0⟩
  | sie => ⟨0x104, 1, 0⟩
  | stvec => ⟨0x105, 1, 0⟩
  | scounteren => ⟨0x106, 1, 0⟩
  | sscratch => ⟨0x140, 1, 0⟩
  | sepc => ⟨0x141, 1, 0⟩
  | scause => ⟨0x142, 1, 0⟩
  | stval => ⟨0x143, 1, 0⟩
  | sip => ⟨0x144, 1, 0⟩
  | satp => ⟨0x180, 1, 0⟩
  | mvendroid => ⟨0xf11, 2, 0x637365353336⟩
  | marchid => ⟨0xf12, 2, 0⟩
  | mimpid => ⟨0xf13, 2, 0⟩
  | mhartid => ⟨0xf14, 2, 0⟩
  | mconfigptr => ⟨0xf15, 2, 0⟩
  | mstatus => ⟨0x300, 2, 0⟩
  | misa => ⟨0x301, 2, 0⟩
  | medeleg => ⟨0x302, 2, 0⟩
  | mideleg => ⟨0x303, 2, 0⟩
  | mie => ⟨0x304, 2, 0⟩
  | mtvec => ⟨0x305, 2, 0⟩
  | mcounteren => ⟨0x306, 2, 0⟩
  | mstatush => ⟨0x310, 2, 0⟩
  | mscratch => ⟨0x340, 2, 0⟩
  | mepc => ⟨0x341, 2, 0⟩
  | mcause => ⟨0x342, 2, 0⟩
  | mtval => ⟨0x343, 2, 0⟩
  | mip => ⟨0x344, 2, 0⟩
  | mtinst => ⟨0x34A, 2, 0⟩
  | mtval2 => ⟨0x34B, 2, 0⟩
  | pmpcfg0 => ⟨0x3a0, 0, 0⟩
  | pmpaddr i => ⟨0x3b0 + i, 0, 0⟩

def code (c : Csr) : ℕ := (initial c).code

def mode (c : Csr) : ℕ := (initial c).mode

theorem mem_layout (c : Csr) : c ∈ layout := by
  cases c with
  | pmpaddr i => fin_cases i <;> simp [layout]
  | _ => simp [layout]

instance : Fintype Csr := Fintype.ofList layout mem_layout

theorem code_injective : Function.Injective code := by decide

theorem code_lt (c : Csr) : code c < 2 ^ 12 := by
  revert c
  decide

end Csr

/-- The address of a page that `kalloc` hands out. -/
def KallocPage := {a : BitVec 64 // KERNBASE ≤ a.toNat ∧ a.toNat < PHYSTOP ∧ a.toNat % PGSIZE = 0}

/-- A non-NULL `pagetable_t`: the address of the root page and the table there.
The tables the monitor points to are not modified after they are installed. -/
structure TableRef where
  page : KallocPage
  table : PageTable Unit

/-- `struct vm_virtual_state`. -/
structure VmState where
  reg : Csr → VmReg
  oldPtable : Option TableRef
  newPtable : BitVec 64
  currentMode : ℕ
  pmpConfiguration : ℕ

/-- `trap_and_emulate_init`: every field is overwritten. -/
def trapAndEmulateInit : VmState where
  reg := Csr.initial
  oldPtable := none
  newPtable := 0
  currentMode := 2
  pmpConfiguration := 0

/-- What `get_vm_reg` can point to: a register, or the entry after the last
register, which overlaps `old_ptable` and `new_ptable`. -/
inductive Slot
  | reg (c : Csr)
  | tail
  deriving DecidableEq, Repr

/-- The entries scanned: `sizeof(vm_state) / sizeof(struct vm_reg)` of them. -/
def slots : List Slot := Csr.layout.map Slot.reg ++ [Slot.tail]

/-- 35 registers of 16 bytes, two pointers and two `int`s make 584 bytes, so the
scan looks at one entry more than there are registers. -/
example : slots.length = (35 * 16 + 2 * 8 + 2 * 4) / 16 := by decide

namespace VmState

variable (s : VmState)

/-- The value of the pointer `old_ptable`. -/
def oldPtableAddr : BitVec 64 :=
  match s.oldPtable with
  | none => 0
  | some t => t.page.val

/-- The `struct vm_reg` found at an entry of the scan. -/
def slot : Slot → VmReg
  | .reg c => s.reg c
  | .tail => ⟨s.oldPtableAddr.toNat % 2 ^ 32, s.oldPtableAddr.toNat / 2 ^ 32, s.newPtable⟩

/-- `get_vm_reg`: the first entry whose `code` is the CSR number. -/
def getVmReg (csr : ℕ) : Option Slot :=
  slots.find? fun i => (s.slot i).code = csr

/-- Store through the `val` field of the entry. -/
def setVal (i : Slot) (v : BitVec 64) : VmState :=
  match i with
  | .reg c => { s with reg := Function.update s.reg c { s.reg c with val := v } }
  | .tail => { s with newPtable := v }

def val (c : Csr) : BitVec 64 := (s.reg c).val

/-- The codes and modes are the ones of the table; only values change. -/
def Intact : Prop := ∀ c, (s.reg c).code = c.code ∧ (s.reg c).mode = c.mode

theorem intact_init : trapAndEmulateInit.Intact := fun _ => ⟨rfl, rfl⟩

variable {s}

theorem Intact.setVal (h : s.Intact) (i : Slot) (v : BitVec 64) : (s.setVal i v).Intact := by
  intro c
  cases i with
  | tail => exact h c
  | reg d =>
    by_cases hc : c = d
    · subst hc
      simpa [VmState.setVal] using h c
    · simpa [VmState.setVal, hc] using h c

theorem Intact.getVmReg_code (h : s.Intact) (c : Csr) :
    s.getVmReg c.code = some (.reg c) := by
  have hfind : ∀ l : List Csr, c ∈ l →
      (l.map Slot.reg ++ [Slot.tail]).find? (fun i => (s.slot i).code = c.code)
        = some (.reg c) := by
    intro l
    induction l with
    | nil => simp
    | cons d l ih =>
      intro hc
      by_cases hd : d = c
      · subst hd
        simp [slot, (h d).1]
      · have hne : d.code ≠ c.code := fun hcode => hd (Csr.code_injective hcode)
        have hmem : c ∈ l := (List.mem_cons.mp hc).resolve_left (Ne.symm hd)
        simpa [slot, (h d).1, hne] using ih hmem
  exact hfind _ (Csr.mem_layout c)

theorem Intact.getVmReg_none (h : s.Intact) (hold : s.oldPtable.isSome) {csr : ℕ}
    (hcsr : csr < 2 ^ 12) (hne : ∀ c : Csr, c.code ≠ csr) : s.getVmReg csr = none := by
  obtain ⟨t, ht⟩ := Option.isSome_iff_exists.mp hold
  obtain ⟨hlo, hhi, _⟩ := t.page.property
  have htail : t.page.val.toNat % 2 ^ 32 ≠ csr := by
    simp only [KERNBASE, PHYSTOP] at hlo hhi
    omega
  have hregs : ∀ c : Csr, (s.reg c).code ≠ csr := fun c => by
    rw [(h c).1]
    exact hne c
  simpa [getVmReg, slots, slot, oldPtableAddr, ht, hregs] using htail

theorem Intact.getVmReg_eq_some (h : s.Intact) (hold : s.oldPtable.isSome) {csr : ℕ}
    (hcsr : csr < 2 ^ 12) {i : Slot} (hi : s.getVmReg csr = some i) :
    ∃ c : Csr, c.code = csr ∧ i = .reg c := by
  by_cases hc : ∃ c : Csr, c.code = csr
  · obtain ⟨c, rfl⟩ := hc
    rw [h.getVmReg_code] at hi
    exact ⟨c, rfl, (Option.some.inj hi).symm⟩
  · rw [h.getVmReg_none hold hcsr (fun c hcode => hc ⟨c, hcode⟩)] at hi
    cases hi

end VmState

/-- `struct trapframe` as its 36 consecutive words. -/
abbrev Trapframe := Fin 36 → BitVec 64

/-- The fields of `struct proc` that the monitor uses. -/
structure Proc where
  pagetable : Option TableRef
  sz : ℕ
  trapframePage : ℕ
  trapframe : Trapframe
  killed : Bool

namespace Proc

/-- Word of the trapframe holding `epc`. -/
def epcWord : Fin 36 := 3

/-- The word `&(p->trapframe->ra) + r - 1` points to. General register `x1` is
word 5, so number 0 designates `kernel_hartid`. -/
def regWord (r : BitVec 5) : Fin 36 := ⟨4 + r.toNat, by omega⟩

def epc (p : Proc) : BitVec 64 := p.trapframe epcWord

def setWord (p : Proc) (i : Fin 36) (v : BitVec 64) : Proc :=
  { p with trapframe := Function.update p.trapframe i v }

def setEpc (p : Proc) (v : BitVec 64) : Proc := p.setWord epcWord v

def setkilled (p : Proc) : Proc := { p with killed := true }

theorem regWord_ne_epcWord (r : BitVec 5) : regWord r ≠ epcWord := by
  simp [regWord, epcWord, Fin.ext_iff]
  omega

end Proc

end AdvancedOperatingSystems.TrapEmulate
