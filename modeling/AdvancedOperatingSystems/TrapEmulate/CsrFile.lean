import AdvancedOperatingSystems.TrapEmulate.Machine

/-!
# The CSR accesses as a register file

A register file has the CSRs, the general registers with a zero that is hard-wired, and the
pc. The monitor keeps the general registers in the trapframe, where the place of `x0` is
taken by `kernel_hartid`. Between two instructions the process returns to its VM and traps
again.
-/

namespace AdvancedOperatingSystems.TrapEmulate

open Foundations Riscv

/-- The words of the trapframe that `usertrapret` sets: `kernel_satp`, `kernel_sp`,
`kernel_trap` and `kernel_hartid`. -/
structure KernelWords where
  satp : BitVec 64
  sp : BitVec 64
  trap : BitVec 64
  hartid : BitVec 64

def hartWord : Fin 36 := 4

def kernelWords : List (Fin 36) := [0, 1, 2, hartWord]

namespace Proc

def usertrapret (p : Proc) (k : KernelWords) : Proc :=
  (((p.setWord 0 k.satp).setWord 1 k.sp).setWord 2 k.trap).setWord hartWord k.hartid

/-- The next trap of a process whose registers were restored by `userret`. -/
def retrap (p : Proc) (instruction : BitVec 32) (page : KallocPage) : TrapInput :=
  ⟨p.epc, instruction, fun r => p.trapframe (regWord r), page, page⟩

theorem trapped_retrap (p : Proc) (instruction : BitVec 32) (page : KallocPage) :
    p.trapped (p.retrap instruction page) = p := by
  have hsaved : (fun i : Fin 36 => if 4 < i.val then
      p.trapframe (regWord (BitVec.ofNat 5 (i.val - 4))) else p.trapframe i) = p.trapframe := by
    funext i
    split_ifs with hi
    · have hword : regWord (BitVec.ofNat 5 (i.val - 4)) = i := by
        apply Fin.ext
        simp only [regWord, BitVec.toNat_ofNat]
        omega
      rw [hword]
    · rfl
  have hepc : Function.update p.trapframe epcWord p.epc = p.trapframe :=
    Function.update_eq_self _ _
  simp only [trapped, retrap, hsaved, setEpc, setWord, hepc]

end Proc

/-- A `csrw` or a `csrr`. -/
inductive Access
  | csrw (c : Csr) (rs1 : BitVec 5)
  | csrr (rd : BitVec 5) (c : Csr)

def Access.csr : Access → Csr
  | .csrw c _ => c
  | .csrr _ c => c

def Access.call (s : VmState) (p : Proc) : Access → Except Panic (VmState × Proc)
  | .csrw c rs1 => handleCsrw s p rs1 c.code
  | .csrr rd c => handleCsrr s p rd c.code

structure RegisterFile where
  csr : Csr → BitVec 64
  reg : BitVec 5 → BitVec 64
  pc : BitVec 64

namespace RegisterFile

variable (f : RegisterFile)

/-- What an access does to a register file. -/
def access : Access → RegisterFile
  | .csrw c rs1 => { f with csr := Function.update f.csr c (f.reg rs1), pc := f.pc + 4 }
  | .csrr rd c =>
      { f with reg := if rd = 0 then f.reg else Function.update f.reg rd (f.csr c), pc := f.pc + 4 }

end RegisterFile

def registerFile (s : VmState) (p : Proc) : RegisterFile where
  csr := s.val
  reg := fun r => if r = 0 then 0 else p.trapframe (Proc.regWord r)
  pc := p.epc

/-- Every access of a sequence is performed as by a register file, and leaves the fields of the
kernel alone. -/
def ActsAsFile : List (Access × KernelWords) → VmState → Proc → Prop
  | [], _, _ => True
  | (a, k) :: l, s, p =>
      ∃ s' p', a.call s p = .ok (s', p') ∧
        registerFile s' p' = (registerFile s p).access a ∧
        (∀ i ∈ kernelWords, p'.trapframe i = p.trapframe i) ∧
        ActsAsFile l s' (p'.usertrapret k)

/-- What an access to `x0` finds in its place. -/
def ZeroAgrees (f : RegisterFile) (hartid : BitVec 64) : Access → Prop
  | .csrw _ rs1 => rs1 = 0 → hartid = 0
  | .csrr rd c => rd = 0 → f.csr c = hartid

/-- Each `csrw` from `x0` is made while `kernel_hartid` is 0, and each `csrr` to `x0` is of a
register that has the value of `kernel_hartid`. -/
def ZerosAgree : List (Access × KernelWords) → RegisterFile → BitVec 64 → Prop
  | [], _, _ => True
  | (a, k) :: l, f, hartid => ZeroAgrees f hartid a ∧ ZerosAgree l (f.access a) k.hartid

section Accesses

variable {s : VmState} {p : Proc}

theorem regWord_zero : Proc.regWord 0 = hartWord := rfl

theorem regWord_injective : Function.Injective Proc.regWord := by
  intro r q h
  have hval := congrArg Fin.val h
  simp only [Proc.regWord] at hval
  exact BitVec.eq_of_toNat_eq (by omega)

theorem regWord_not_kernel {r : BitVec 5} (hr : r ≠ 0) : Proc.regWord r ∉ kernelWords := by
  have hpos : 0 < r.toNat := Nat.pos_of_ne_zero fun h => hr (BitVec.eq_of_toNat_eq h)
  intro hmem
  simp only [kernelWords, hartWord, Proc.regWord, List.mem_cons, List.not_mem_nil, or_false,
    Fin.ext_iff] at hmem
  simp at hmem
  omega

theorem epcWord_not_kernel : Proc.epcWord ∉ kernelWords := by decide

theorem usertrapret_word (p : Proc) (k : KernelWords) {i : Fin 36} (hi : i ∉ kernelWords) :
    (p.usertrapret k).trapframe i = p.trapframe i := by
  simp only [kernelWords, List.mem_cons, List.not_mem_nil, or_false, not_or] at hi
  simp [Proc.usertrapret, Proc.setWord, hi]

theorem usertrapret_hartid (p : Proc) (k : KernelWords) :
    (p.usertrapret k).trapframe hartWord = k.hartid := by
  simp [Proc.usertrapret, Proc.setWord]

theorem registerFile_usertrapret (s : VmState) (p : Proc) (k : KernelWords) :
    registerFile s (p.usertrapret k) = registerFile s p := by
  unfold registerFile
  congr 1
  · funext r
    split_ifs with hr
    · rfl
    · exact usertrapret_word p k (regWord_not_kernel hr)

theorem setEpc_kernel (p : Proc) (v : BitVec 64) {i : Fin 36} (hi : i ∈ kernelWords) :
    (p.setEpc v).trapframe i = p.trapframe i := by
  apply Function.update_of_ne
  rintro rfl
  exact epcWord_not_kernel hi

/-- A `csrw` is one of a register file if its source holds what a register file has there. -/
theorem csrw_acts_iff (c : Csr) (r : BitVec 5) :
    registerFile (csrwState s c (p.trapframe (Proc.regWord r))) (p.setEpc (p.epc + 4)) =
        (registerFile s p).access (.csrw c r) ↔
      ZeroAgrees (registerFile s p) (p.trapframe hartWord) (.csrw c r) := by
  have hsource : ZeroAgrees (registerFile s p) (p.trapframe hartWord) (.csrw c r) ↔
      p.trapframe (Proc.regWord r) = (registerFile s p).reg r := by
    simp only [ZeroAgrees, registerFile]
    by_cases hr : r = 0
    · rw [if_pos hr, hr, regWord_zero]
      exact ⟨fun h => h rfl, fun h _ => h⟩
    · rw [if_neg hr]
      exact iff_of_true (fun h => absurd h hr) rfl
  rw [hsource]
  constructor
  · intro h
    have hvalue := congrArg (fun f => f.csr c) h
    simpa [registerFile, RegisterFile.access, csrwState_val_self] using hvalue
  · intro h
    have hcsr : (csrwState s c (p.trapframe (Proc.regWord r))).val =
        Function.update s.val c ((registerFile s p).reg r) := by
      funext d
      by_cases hd : d = c
      · rw [hd, csrwState_val_self, Function.update_self, h]
      · rw [csrwState_val_ne s hd, Function.update_of_ne hd]
    simp only [registerFile, RegisterFile.access, hcsr, Proc.setEpc_regWord, Proc.setEpc_epc]

/-- A `csrr` is one of a register file; one to `x0` goes to a field of the kernel. -/
theorem csrr_acts_iff (r : BitVec 5) (c : Csr) :
    (registerFile s ((p.setWord (Proc.regWord r) (s.val c)).setEpc (p.epc + 4)) =
        (registerFile s p).access (.csrr r c) ∧
      ∀ i ∈ kernelWords, ((p.setWord (Proc.regWord r) (s.val c)).setEpc (p.epc + 4)).trapframe i =
        p.trapframe i) ↔
      ZeroAgrees (registerFile s p) (p.trapframe hartWord) (.csrr r c) := by
  have hfile : registerFile s ((p.setWord (Proc.regWord r) (s.val c)).setEpc (p.epc + 4)) =
      (registerFile s p).access (.csrr r c) := by
    simp only [registerFile, RegisterFile.access, Proc.setEpc_epc, Proc.setEpc_regWord]
    congr 1
    funext q
    by_cases hr : r = 0
    · rw [if_pos hr]
      by_cases hq : q = 0
      · rw [if_pos hq, if_pos hq]
      · have hne : Proc.regWord q ≠ Proc.regWord r := fun h => hq ((regWord_injective h).trans hr)
        rw [if_neg hq, if_neg hq]
        exact Function.update_of_ne hne _ _
    · rw [if_neg hr]
      by_cases hqr : q = r
      · rw [hqr, if_neg hr, Function.update_self]
        exact Function.update_self _ _ _
      · have hne : Proc.regWord q ≠ Proc.regWord r := fun h => hqr (regWord_injective h)
        rw [Function.update_of_ne hqr]
        by_cases hq : q = 0
        · rw [if_pos hq, if_pos hq]
        · rw [if_neg hq, if_neg hq]
          exact Function.update_of_ne hne _ _
  rw [and_iff_right hfile]
  simp only [ZeroAgrees]
  constructor
  · intro h hr
    have hword := h hartWord (by decide)
    rw [setEpc_kernel _ _ (by decide), hr, regWord_zero] at hword
    simpa [Proc.setWord, registerFile] using hword
  · intro h i hi
    rw [setEpc_kernel _ _ hi]
    by_cases hword : i = Proc.regWord r
    · have hr : r = 0 := by
        by_contra hr
        exact regWord_not_kernel hr (hword ▸ hi)
      rw [hword, hr, regWord_zero]
      simpa [Proc.setWord, registerFile] using h hr
    · exact Function.update_of_ne hword _ _

theorem call_acts_iff (hs : s.Intact) {a : Access} (ha : a.csr.mode ≤ s.currentMode) :
    ∃ s' p', a.call s p = .ok (s', p') ∧ s'.Intact ∧ s'.currentMode = s.currentMode ∧
      ((registerFile s' p' = (registerFile s p).access a ∧
        ∀ i ∈ kernelWords, p'.trapframe i = p.trapframe i) ↔
          ZeroAgrees (registerFile s p) (p.trapframe hartWord) a) := by
  cases a with
  | csrw c r =>
    refine ⟨_, _, handleCsrw_permitted hs r ha, hs.setVal (.reg c) _, rfl, ?_⟩
    rw [← csrw_acts_iff]
    exact and_iff_left fun i hi => setEpc_kernel p _ hi
  | csrr r c =>
    have hmode : c.mode ≤ s.currentMode := ha
    have hcall := handleCsrr_code (p := p) hs r c
    rw [if_pos hmode] at hcall
    exact ⟨_, _, hcall, hs, rfl, csrr_acts_iff r c⟩

/-- A sequence of permitted accesses behaves like a register file exactly when `x0` is used
only where `kernel_hartid` stands in for it. -/
theorem csr_accesses_act_as_file_iff (hs : s.Intact) {l : List (Access × KernelWords)}
    (hl : ∀ x ∈ l, x.1.csr.mode ≤ s.currentMode) :
    ActsAsFile l s p ↔ ZerosAgree l (registerFile s p) (p.trapframe hartWord) := by
  induction l generalizing s p with
  | nil => exact Iff.rfl
  | cons x l ih =>
    obtain ⟨a, k⟩ := x
    obtain ⟨s', p', hcall, hs', hmode, hacts⟩ :=
      call_acts_iff (p := p) hs (hl (a, k) List.mem_cons_self)
    have htail : ∀ x ∈ l, x.1.csr.mode ≤ s'.currentMode := by
      intro x hx
      rw [hmode]
      exact hl x (List.mem_cons_of_mem _ hx)
    have hrest := ih (p := p'.usertrapret k) hs' htail
    rw [registerFile_usertrapret, usertrapret_hartid] at hrest
    constructor
    · rintro ⟨s'', p'', hcall', hfile, hkernel, hall⟩
      cases hcall.symm.trans hcall'
      refine ⟨hacts.1 ⟨hfile, hkernel⟩, ?_⟩
      rw [← hfile]
      exact hrest.1 hall
    · rintro ⟨hzero, hzeros⟩
      obtain ⟨hfile, hkernel⟩ := hacts.2 hzero
      refine ⟨s', p', hcall, hfile, hkernel, hrest.2 ?_⟩
      rw [hfile]
      exact hzeros

end Accesses

/-- A VM that has just been started, on the given hart. -/
def startedOn (hartid : BitVec 64) : Proc :=
  VmImage.onePage.proc.usertrapret ⟨0, 0, 0, hartid⟩

/-- `csrw mscratch, x0` and `csrr a0, mscratch` on hart 0. -/
theorem mscratch_acts_on_hart_zero :
    ActsAsFile [(.csrw .mscratch 0, ⟨0, 0, 0, 0⟩), (.csrr 10 .mscratch, ⟨0, 0, 0, 0⟩)]
        trapAndEmulateInit (startedOn 0) ↔
      ZerosAgree [(.csrw .mscratch 0, ⟨0, 0, 0, 0⟩), (.csrr 10 .mscratch, ⟨0, 0, 0, 0⟩)]
        (registerFile trapAndEmulateInit (startedOn 0)) ((startedOn 0).trapframe hartWord) :=
  csr_accesses_act_as_file_iff VmState.intact_init (by decide)

/-- The same write on hart 1 stores 1. -/
theorem zero_is_hartid :
    ¬ ActsAsFile [(.csrw .mscratch 0, ⟨0, 0, 0, 1⟩)] trapAndEmulateInit (startedOn 1) := by
  rintro ⟨s', p', hcall, hfile, -⟩
  have hdone := handleCsrw_permitted (p := startedOn 1) VmState.intact_init 0
    (c := .mscratch) (by decide)
  cases hdone.symm.trans hcall
  have hone := (csrw_acts_iff .mscratch 0).1 hfile rfl
  revert hone
  decide

end AdvancedOperatingSystems.TrapEmulate
