import AdvancedOperatingSystems.TrapEmulate.Pmp

/-!
# Where a CSR lookup ends

`get_vm_reg` runs one entry past the registers, onto the two page-table pointers. The low half of
a pointer to a page of the allocator is no CSR number, and the lookups are made after the first
statements of `trap_and_emulate`, so that `old_ptable` is such a pointer in every one of them.
-/

namespace AdvancedOperatingSystems.TrapEmulate

open Foundations Riscv

/-- The lookup of a CSR number finds the one register with that number, or there is none and it
finds nothing. -/
def LooksUp (s : VmState) (csr : ℕ) : Prop :=
  (s.getVmReg csr = none ∧ ∀ c, (s.reg c).code ≠ csr) ∨
    ∃ c, s.getVmReg csr = some (.reg c) ∧ (s.reg c).code = csr ∧
      ∀ d, (s.reg d).code = csr → d = c

section Lookup

variable {s : VmState} {csr : ℕ}

theorem VmState.Intact.looksUp (h : s.Intact) (hold : s.oldPtable.isSome) (hcsr : csr < 2 ^ 12) :
    LooksUp s csr := by
  by_cases hc : ∃ c : Csr, c.code = csr
  · obtain ⟨c, rfl⟩ := hc
    refine Or.inr ⟨c, h.getVmReg_code c, (h c).1, fun d hd => ?_⟩
    rw [(h d).1] at hd
    exact Csr.code_injective hd
  · push Not at hc
    refine Or.inl ⟨h.getVmReg_none hold hcsr hc, fun c => ?_⟩
    rw [(h c).1]
    exact hc c

theorem LooksUp.ne_tail (h : LooksUp s csr) : s.getVmReg csr ≠ some .tail := by
  rcases h with ⟨hnone, -⟩ | ⟨c, hc, -⟩
  · rw [hnone]
    exact fun h => by cases h
  · rw [hc]
    exact fun h => by cases h

theorem VmState.Intact.lookup_zero (h : s.Intact) (hold : s.oldPtable = none) :
    s.getVmReg 0 = some .tail := by
  have hregs : ∀ c : Csr, (s.reg c).code ≠ 0 := by
    intro c
    rw [(h c).1]
    revert c
    decide
  have hnone : (Csr.layout.map Slot.reg).find? (fun i => (s.slot i).code = 0) = none := by
    rw [List.find?_eq_none]
    intro i hi
    obtain ⟨c, -, rfl⟩ := List.mem_map.mp hi
    exact decide_eq_true_iff.not.mpr (hregs c)
  unfold VmState.getVmReg slots
  rw [List.find?_append, hnone]
  simp [VmState.slot, VmState.oldPtableAddr, hold]

end Lookup

/-- The state in which an instruction of the trap performs its lookups. -/
def LooksUpIn (m : Machine) (pid : ℕ) (t : TrapInput) (s : VmState) : Prop :=
  ∃ p cause, m.procs pid = .running p ∧ Emulated cause p ∧
    saveOldPtable t.oldPage m.vm (p.trapped t) = .ok s

section Runs

variable {es : List Event} {m : Machine} {pid : ℕ} {t : TrapInput} {s : VmState} {csr : ℕ}

/-- In every run of any number of VMs, and for every CSR number, the lookups of an emulated
instruction never end on the page-table pointers. -/
theorem csr_lookup_never_aliases (h : exec step boot es = .ok m) (hin : LooksUpIn m pid t s)
    (hcsr : csr < 2 ^ 12) : LooksUp s csr := by
  obtain ⟨p, cause, hp, -, hsave⟩ := hin
  have hm : m.Ok := exec_invariant (fun _ e _ hm hstep => step_ok hm e hstep) Machine.ok_boot h
  obtain ⟨hs, hold, -⟩ := saveOldPtable_spec hm.vm ((hm.procs pid p hp).trapped t) hsave
  exact hs.intact.looksUp hold hcsr

end Runs

/-- The first `csrw` of a VM. -/
theorem first_lookup_never_aliases : ∃ m s, exec step boot [.exec 1 VmImage.onePage] = .ok m ∧
    LooksUpIn m 1 csrwPmpaddr0 s ∧ ∀ csr < 2 ^ 12, LooksUp s csr := by
  have hrun : exec step boot [.exec 1 VmImage.onePage] =
      .ok ⟨trapAndEmulateInit, Function.update boot.procs 1 (.running VmImage.onePage.proc)⟩ := rfl
  obtain ⟨s, hsave⟩ : Returns (saveOldPtable csrwPmpaddr0.oldPage trapAndEmulateInit
      (VmImage.onePage.proc.trapped csrwPmpaddr0)) := by
    rw [saveOldPtable_returns_iff (VmImage.onePage.proc_ok.trapped _)]
    exact fun _ => VmImage.onePage.tableFull _
  have hin : LooksUpIn ⟨trapAndEmulateInit,
      Function.update boot.procs 1 (.running VmImage.onePage.proc)⟩ 1 csrwPmpaddr0 s :=
    ⟨VmImage.onePage.proc, .illegal, rfl, Or.inl rfl, hsave⟩
  exact ⟨_, s, hrun, hin, fun csr hcsr => csr_lookup_never_aliases hrun hin hcsr⟩

end AdvancedOperatingSystems.TrapEmulate
