import AdvancedOperatingSystems.TrapEmulate.Tables

/-!
# VM processes under the monitor

`usertrap` as far as it concerns processes whose name starts with `vm-`, and the
machine they share: one `vm_state` and any number of processes, whose traps may
come in any order. Processes are told apart by their pid. Zombies are reaped by the
host, which this machine is a part of.
-/

namespace AdvancedOperatingSystems.TrapEmulate

open Foundations Riscv Riscv.PageTable

/-- A VM process as a successful `exec` leaves it: its image and all of the VM
region are mapped, and the image lies below the region. -/
structure VmImage where
  table : TableRef
  sz : ℕ
  trapframePage : ℕ
  trapframe : Trapframe
  sz_le : sz ≤ vmStart
  wf : table.table.Wf
  full : Full table.table sz

def VmImage.proc (img : VmImage) : Proc where
  pagetable := some img.table
  sz := img.sz
  trapframePage := img.trapframePage
  trapframe := img.trapframe
  killed := false

/-- Pages of the allocator: for the table of an image, and for the tables built later. -/
def KallocPage.sample : KallocPage := ⟨0x80100000, by decide⟩

def KallocPage.second : KallocPage := ⟨0x80102000, by decide⟩

def KallocPage.third : KallocPage := ⟨0x80103000, by decide⟩

/-- A program of one page with its VM region, read, write and execute throughout,
about to start with `argc`, which is 1, in `a0`. -/
def VmImage.onePage : VmImage where
  table :=
    { page := KallocPage.sample
      table :=
        { mid := fun i => if i = 0 ∨ i = 2 then some () else none
          low := fun i => if i = 0 ∨ i = 0x400 ∨ i = 0x401 then some () else none
          leaf := fun i =>
            if i = 0 ∨ 0x80000 ≤ i ∧ i < 0x80400 then
              some ⟨0x80200000 + PGSIZE * (i % 0x400), true, true, true, true⟩
            else none } }
  sz := PGSIZE
  trapframePage := 0x80101000
  trapframe := fun i => if i = Proc.regWord 10 then 1 else 0
  sz_le := by decide
  wf := by
    refine ⟨fun i hi => ?_, fun i hi => ?_, fun i e he => ?_⟩
    · simp only [Option.isSome_ite] at hi ⊢
      omega
    · simp only [Option.isSome_ite] at hi ⊢
      omega
    · simp only [Option.ite_none_right_eq_some, Option.some.injEq] at he
      exact he.2 ▸ rfl
  full := by
    intro a ha
    simp only [mem_vmPages, vmStart, vmEnd, PGSIZE] at ha
    have hpage : vpn a = 0 ∨ 0x80000 ≤ vpn a ∧ vpn a < 0x80400 := by
      simp only [vpn, PGSIZE]
      omega
    exact Option.isSome_iff_exists.mpr ⟨_, if_pos hpage⟩

/-- What `scause` says: 1 or 2, 8, an interrupt that `devintr` recognises, or
any other exception. -/
inductive Cause
  | illegal
  | ecall
  | device
  | other
  deriving DecidableEq, Repr

/-- `usertrap` for a VM, up to the test of `killed(p)` at its end. An `ecall` of
a process that has been killed already goes straight to `exit`. -/
def usertrap (cause : Cause) (t : TrapInput) (s : VmState) (p : Proc) :
    Except Panic (VmState × Proc) :=
  let p := p.trapped t
  match cause with
  | .illegal => trapAndEmulate t s p
  | .ecall => if p.killed then .ok (s, p) else trapAndEmulate t s p
  | .device => .ok (s, p)
  | .other => .ok (trapAndEmulateInit, { p with pagetable := s.oldPtable }.setkilled)

inductive ProcSlot
  | absent
  | running (p : Proc)
  | zombie (p : Proc)

/-- `if(killed(p)) exit(-1)`. -/
def leave (p : Proc) : ProcSlot := if p.killed then .zombie p else .running p

structure Machine where
  vm : VmState
  procs : ℕ → ProcSlot

/-- The monitor has been initialised and no VM has been started. -/
def boot : Machine := ⟨trapAndEmulateInit, fun _ => .absent⟩

inductive Event
  | exec (pid : ℕ) (img : VmImage)
  | trap (pid : ℕ) (cause : Cause) (t : TrapInput)
  | kill (pid : ℕ)

/-- One step. A pid that is in use is not given to another process, and events
of processes that do not run have no effect. -/
def step (m : Machine) : Event → Except Panic Machine
  | .exec pid img =>
      match m.procs pid with
      | .absent => .ok { m with procs := Function.update m.procs pid (.running img.proc) }
      | _ => .ok m
  | .trap pid cause t =>
      match m.procs pid with
      | .running p => usertrap cause t m.vm p >>= fun r =>
          .ok ⟨r.1, Function.update m.procs pid (leave r.2)⟩
      | _ => .ok m
  | .kill pid =>
      match m.procs pid with
      | .running p =>
          .ok { m with procs := Function.update m.procs pid (.running p.setkilled) }
      | _ => .ok m

@[simp] theorem Proc.trapped_pagetable (p : Proc) (t : TrapInput) :
    (p.trapped t).pagetable = p.pagetable := rfl

@[simp] theorem Proc.trapped_sz (p : Proc) (t : TrapInput) : (p.trapped t).sz = p.sz := rfl

@[simp] theorem Proc.trapped_killed (p : Proc) (t : TrapInput) :
    (p.trapped t).killed = p.killed := rfl

@[simp] theorem Proc.trapped_trapframePage (p : Proc) (t : TrapInput) :
    (p.trapped t).trapframePage = p.trapframePage := rfl

@[simp] theorem Proc.trapped_epc (p : Proc) (t : TrapInput) : (p.trapped t).epc = t.sepc := by
  simp [Proc.trapped, Proc.setEpc, Proc.setWord, Proc.epc]

@[simp] theorem Proc.trapped_regWord (p : Proc) (t : TrapInput) {r : BitVec 5} (hr : r ≠ 0) :
    (p.trapped t).trapframe (Proc.regWord r) = t.regs r := by
  have hpos : 0 < r.toNat := Nat.pos_of_ne_zero fun h => hr (BitVec.eq_of_toNat_eq h)
  have hindex : 4 < (Proc.regWord r).val := by
    show 4 < 4 + r.toNat
    omega
  simp only [Proc.trapped, Proc.setEpc, Proc.setWord,
    Function.update_of_ne (Proc.regWord_ne_epcWord r), if_pos hindex]
  simp [Proc.regWord]

/-- The trap reaches `trap_and_emulate`. -/
def Emulated (cause : Cause) (p : Proc) : Prop :=
  cause = .illegal ∨ cause = .ecall ∧ p.killed = false

theorem usertrap_emulated {cause : Cause} {t : TrapInput} {s : VmState} {p : Proc}
    (h : Emulated cause p) : usertrap cause t s p = trapAndEmulate t s (p.trapped t) := by
  rcases h with rfl | ⟨rfl, h⟩
  · rfl
  · simp [usertrap, h]

theorem usertrap_not_emulated {cause : Cause} {p : Proc} (h : ¬ Emulated cause p)
    (t : TrapInput) (s : VmState) :
    usertrap cause t s p = .ok (s, p.trapped t) ∧ cause ≠ .other ∨
      usertrap cause t s p =
        .ok (trapAndEmulateInit, { p.trapped t with pagetable := s.oldPtable }.setkilled) ∧
        cause = .other := by
  cases cause with
  | illegal => exact absurd (Or.inl rfl) h
  | ecall =>
    have hk : p.killed = true := by
      by_contra hk
      exact h (Or.inr ⟨rfl, by simpa using hk⟩)
    exact Or.inl ⟨by simp [usertrap, hk], by decide⟩
  | device => exact Or.inl ⟨rfl, by decide⟩
  | other => exact Or.inr ⟨rfl, rfl⟩

/-- The monitor's own state is in order. -/
structure VmState.Ok (s : VmState) : Prop where
  intact : s.Intact
  old_wf : ∀ t, s.oldPtable = some t → t.table.Wf

/-- A process that can trap has a page table, and its image lies below the region. -/
structure Proc.Ok (p : Proc) : Prop where
  table : ∃ t, p.pagetable = some t ∧ t.table.Wf
  sz_le : p.sz ≤ vmStart

theorem VmState.ok_init : trapAndEmulateInit.Ok :=
  ⟨VmState.intact_init, fun _ h => by cases h⟩

theorem VmImage.proc_ok (img : VmImage) : img.proc.Ok := ⟨⟨_, rfl, img.wf⟩, img.sz_le⟩

theorem VmState.Ok.setVal {s : VmState} (h : s.Ok) (i : Slot) (v : BitVec 64) :
    (s.setVal i v).Ok := by
  refine ⟨h.intact.setVal i v, ?_⟩
  cases i <;> exact h.old_wf

@[simp] theorem Proc.setEpc_pagetable (p : Proc) (v : BitVec 64) :
    (p.setEpc v).pagetable = p.pagetable := rfl

@[simp] theorem Proc.setEpc_sz (p : Proc) (v : BitVec 64) : (p.setEpc v).sz = p.sz := rfl

@[simp] theorem Proc.setEpc_killed (p : Proc) (v : BitVec 64) :
    (p.setEpc v).killed = p.killed := rfl

theorem Proc.setEpc_epc (p : Proc) (v : BitVec 64) : (p.setEpc v).epc = v := by
  simp [Proc.setEpc, Proc.setWord, Proc.epc]

@[simp] theorem Proc.setEpc_regWord (p : Proc) (v : BitVec 64) (r : BitVec 5) :
    (p.setEpc v).trapframe (Proc.regWord r) = p.trapframe (Proc.regWord r) := by
  simp [Proc.setEpc, Proc.setWord, Proc.regWord_ne_epcWord]

theorem Proc.Ok.setWord {p : Proc} (h : p.Ok) (i : Fin 36) (v : BitVec 64) :
    (p.setWord i v).Ok := ⟨h.table, h.sz_le⟩

theorem Proc.Ok.setEpc {p : Proc} (h : p.Ok) (v : BitVec 64) : (p.setEpc v).Ok :=
  h.setWord _ v

theorem Proc.Ok.trapped {p : Proc} (h : p.Ok) (t : TrapInput) : (p.trapped t).Ok :=
  ⟨h.table, h.sz_le⟩

theorem Proc.Ok.setkilled {p : Proc} (h : p.Ok) : p.setkilled.Ok := ⟨h.table, h.sz_le⟩

section Handlers

variable {s : VmState} {p : Proc}

theorem handleEcall_user (h : s.Intact) (hm : s.currentMode = 0) :
    handleEcall s p = .ok ({ s.setVal (.reg .sepc) p.epc with currentMode := 1 },
      p.setEpc (s.val .stvec)) := by
  have h₁ := h.getVmReg_code .sepc
  have h₂ := h.getVmReg_code .sstatus
  have h₃ := h.getVmReg_code .stvec
  simp only [Csr.code, Csr.initial] at h₁ h₂ h₃
  simp [handleEcall, hm, h₁, h₂, h₃, deref, bind, Except.bind, VmState.setVal, VmState.slot,
    VmState.val]

theorem handleEcall_supervisor (h : s.Intact) (hm : s.currentMode = 1) :
    handleEcall s p = .ok ({ s.setVal (.reg .mepc) p.epc with currentMode := 2 },
      { p.setEpc (s.val .mtvec) with pagetable := s.oldPtable }) := by
  have h₁ := h.getVmReg_code .mepc
  have h₂ := h.getVmReg_code .mstatus
  have h₃ := h.getVmReg_code .mtvec
  simp only [Csr.code, Csr.initial] at h₁ h₂ h₃
  simp [handleEcall, hm, h₁, h₂, h₃, deref, bind, Except.bind, VmState.setVal, VmState.slot,
    VmState.val]

theorem handleEcall_machine (hm : 2 ≤ s.currentMode) :
    handleEcall s p = .ok (trapAndEmulateInit, p.setkilled) := by
  rw [handleEcall, if_neg (by omega), if_neg (by omega)]

/-- The `sstatus` an `sret` leaves. -/
def sretStatus (s : VmState) : BitVec 64 :=
  s.val .sstatus ||| (((s.val .sstatus >>> 5) &&& 1) <<< 1) ||| (1#64 <<< 5)

/-- The mode an `sret` returns to. -/
def sretMode (s : VmState) : ℕ :=
  if ((s.val .sstatus >>> 8) &&& 1).toNat < 1 then ((s.val .sstatus >>> 8) &&& 1).toNat
  else s.currentMode

theorem handleSret_supervisor (h : s.Intact) (hm : s.currentMode = 1) :
    handleSret s p =
      .ok ({ s.setVal (.reg .sstatus) (sretStatus s) with currentMode := sretMode s },
        p.setEpc (s.val .sepc)) := by
  have h₁ := h.getVmReg_code .sepc
  have h₂ := h.getVmReg_code .sstatus
  simp only [Csr.code, Csr.initial] at h₁ h₂
  rw [handleSret, if_pos hm]
  simp only [h₁, h₂, deref, bind, Except.bind, VmState.slot, sretStatus, sretMode, VmState.val]
  by_cases hspp : ((s.reg .sstatus).val >>> 8 &&& 1).toNat < 1
  · simp only [hspp, ↓reduceIte]
    rfl
  · simp only [hspp, ↓reduceIte]
    rfl

theorem handleSret_other (hm : s.currentMode ≠ 1) :
    handleSret s p = .ok (trapAndEmulateInit, { p with pagetable := s.oldPtable }.setkilled) := by
  rw [handleSret, if_neg hm]

/-- The `mstatus` an `mret` leaves. -/
def mretStatus (s : VmState) : BitVec 64 :=
  s.val .mstatus ||| (((s.val .mstatus >>> 7) &&& 1) <<< 3) ||| (1#64 <<< 7)

/-- The mode an `mret` returns to. -/
def mretMode (s : VmState) : ℕ :=
  if ((s.val .mstatus >>> 11) &&& 3).toNat < 2 then ((s.val .mstatus >>> 11) &&& 3).toNat
  else s.currentMode

/-- The monitor's state after the privilege part of an `mret` in machine mode. -/
def mretState (s : VmState) : VmState :=
  { s.setVal (.reg .mstatus) (mretStatus s) with currentMode := mretMode s }

theorem mretReturn_machine (h : s.Intact) (hm : 2 ≤ s.currentMode) :
    mretReturn s p = .ok (mretState s, p.setEpc (s.val .mepc)) := by
  have h₁ := h.getVmReg_code .mepc
  have h₂ := h.getVmReg_code .mstatus
  simp only [Csr.code, Csr.initial] at h₁ h₂
  rw [mretReturn, if_pos hm]
  simp only [h₁, h₂, deref, bind, Except.bind, VmState.slot, mretState, mretStatus, mretMode,
    VmState.val]
  by_cases hmpp : ((s.reg .mstatus).val >>> 11 &&& 3).toNat < 2
  · simp only [hmpp, ↓reduceIte]
    rfl
  · simp only [hmpp, ↓reduceIte]
    rfl

theorem mretReturn_other (hm : ¬ 2 ≤ s.currentMode) :
    mretReturn s p = .ok (trapAndEmulateInit, p.setkilled) := by
  rw [mretReturn, if_neg hm]

theorem mretState_val (c : Csr) (hc : c ≠ .mstatus) : (mretState s).val c = s.val c := by
  simp [mretState, VmState.setVal, VmState.val, hc]

theorem VmState.Intact.mretState (h : s.Intact) : (mretState s).Intact :=
  fun c => h.setVal (.reg .mstatus) (mretStatus s) c

theorem restrictedPages_mretState : restrictedPages (mretState s) = restrictedPages s :=
  restrictedBy_congr (fun i => mretState_val _ (by simp)) (mretState_val _ (by simp)) _

theorem handleMret_returns_pmp (h : s.Intact) (hm : 2 ≤ s.currentMode)
    (hpmp : s.pmpConfiguration = 1) (page : KallocPage) :
    handleMret s p page = mretPmp (mretState s) (p.setEpc (s.val .mepc)) page := by
  have hpmp' : (mretState s).pmpConfiguration = 1 := hpmp
  simp [handleMret, mretReturn_machine h hm, bind, Except.bind, hpmp']

theorem handleMret_machine (h : s.Intact) (hm : 2 ≤ s.currentMode)
    (hpmp : s.pmpConfiguration ≠ 1) (page : KallocPage) :
    handleMret s p page = .ok (mretState s, p.setEpc (s.val .mepc)) := by
  have hpmp' : (mretState s).pmpConfiguration ≠ 1 := hpmp
  simp [handleMret, mretReturn_machine h hm, bind, Except.bind, hpmp']

theorem handleMret_other (hm : ¬ 2 ≤ s.currentMode) (page : KallocPage) :
    handleMret s p page = .ok (trapAndEmulateInit, p.setkilled) := by
  have hpmp : ¬ trapAndEmulateInit.pmpConfiguration = 1 := by decide
  simp [handleMret, mretReturn_other hm, bind, Except.bind, hpmp]

theorem handleCsrr_code (h : s.Intact) (rd : BitVec 5) (c : Csr) :
    handleCsrr s p rd c.code = .ok
      (if c.mode ≤ s.currentMode then
        (s, (p.setWord (Proc.regWord rd) (s.val c)).setEpc (p.epc + 4))
      else (trapAndEmulateInit, p.setkilled.setEpc (p.epc + 4))) := by
  have hepc : (p.setWord (Proc.regWord rd) (s.val c)).epc = p.epc := by
    simp [Proc.setWord, Proc.epc, Ne.symm (Proc.regWord_ne_epcWord rd)]
  have hval : (s.reg c).val = s.val c := rfl
  simp only [handleCsrr, h.getVmReg_code, deref, bind, Except.bind, VmState.slot, (h c).2, hval]
  split_ifs <;> simp [hepc]
  rfl

theorem handleCsrr_unknown (h : s.Intact) (hold : s.oldPtable.isSome) {csr : ℕ}
    (hcsr : csr < 2 ^ 12) (hne : ∀ c : Csr, c.code ≠ csr) (rd : BitVec 5) :
    handleCsrr s p rd csr = .error "kerneltrap" := by
  simp [handleCsrr, h.getVmReg_none hold hcsr hne, deref, bind, Except.bind]

theorem isPmpNumber_code (c : Csr) :
    isPmpNumber c.code = true ↔ c = .pmpcfg0 ∨ ∃ i, c = .pmpaddr i := by
  revert c
  decide

/-- The monitor's state after a `csrw` that is performed. -/
def csrwState (s : VmState) (c : Csr) (v : BitVec 64) : VmState :=
  { s.setVal (.reg c) v with
    pmpConfiguration := if isPmpNumber c.code then 1 else s.pmpConfiguration }

theorem handleCsrw_permitted (h : s.Intact) (rs1 : BitVec 5) {c : Csr}
    (hm : c.mode ≤ s.currentMode) :
    handleCsrw s p rs1 c.code =
      .ok (csrwState s c (p.trapframe (Proc.regWord rs1)), p.setEpc (p.epc + 4)) := by
  simp only [handleCsrw, h.getVmReg_code, VmState.slot, (h c).2, hm, ↓reduceIte, csrwState]
  split_ifs <;> rfl

theorem handleCsrw_refused (h : s.Intact) (rs1 : BitVec 5) {c : Csr}
    (hm : ¬ c.mode ≤ s.currentMode) :
    handleCsrw s p rs1 c.code = .ok (trapAndEmulateInit, p.setkilled.setEpc (p.epc + 4)) := by
  have hpmp : ¬ isPmpNumber c.code = true := by
    rw [isPmpNumber_code]
    rintro (rfl | ⟨i, rfl⟩) <;> exact hm (Nat.zero_le _)
  simp only [handleCsrw, h.getVmReg_code, VmState.slot, (h c).2, hm, ↓reduceIte, hpmp,
    Bool.false_eq_true]
  rfl

theorem csrwState_val_self (s : VmState) (c : Csr) (v : BitVec 64) :
    (csrwState s c v).val c = v := by
  simp [csrwState, VmState.setVal, VmState.val]

theorem csrwState_val_ne (s : VmState) {c d : Csr} (h : d ≠ c) (v : BitVec 64) :
    (csrwState s c v).val d = s.val d := by
  simp [csrwState, VmState.setVal, VmState.val, h]

theorem VmState.Ok.csrwState (h : s.Ok) (c : Csr) (v : BitVec 64) : (csrwState s c v).Ok :=
  ⟨h.intact.setVal (.reg c) v, h.old_wf⟩

theorem handleCsrw_unknown (h : s.Intact) (hold : s.oldPtable.isSome) {csr : ℕ}
    (hcsr : csr < 2 ^ 12) (hne : ∀ c : Csr, c.code ≠ csr) (rs1 : BitVec 5) :
    handleCsrw s p rs1 csr = .ok (trapAndEmulateInit, p.setkilled.setEpc (p.epc + 4)) := by
  have hpmp : ¬ isPmpNumber csr = true := by
    intro hp
    simp only [isPmpNumber, Bool.or_eq_true, decide_eq_true_eq] at hp
    rcases hp with (((rfl | rfl) | rfl) | rfl) | rfl
    · exact hne .pmpcfg0 rfl
    · exact hne (.pmpaddr 0) rfl
    · exact hne (.pmpaddr 1) rfl
    · exact hne (.pmpaddr 2) rfl
    · exact hne (.pmpaddr 3) rfl
  simp only [handleCsrw, h.getVmReg_none hold hcsr hne, hpmp, ↓reduceIte, Bool.false_eq_true]
  rfl

end Handlers

end AdvancedOperatingSystems.TrapEmulate
