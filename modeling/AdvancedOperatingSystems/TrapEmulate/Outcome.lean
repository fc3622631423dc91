import AdvancedOperatingSystems.TrapEmulate.HostSafety

/-!
# What one emulated instruction can do

All that `dispatch` can do when it does not panic, read off the handlers once. The
invariants of runs are case analyses of `Outcome`.
-/

namespace AdvancedOperatingSystems.TrapEmulate

open Foundations Riscv Riscv.PageTable

/-- The instruction is dispatched to `handle_sret`. -/
def IsSret (instruction : BitVec 32) : Prop := funct3 instruction = 0 ∧ uimm instruction = 0x102

/-- The instruction is dispatched to `handle_ecall`. -/
def EntersEcall (instruction : BitVec 32) : Prop :=
  funct3 instruction = 0 ∧ uimm instruction ≠ 0x102 ∧ uimm instruction ≠ 0x302

/-- The instruction needs a privilege the mode does not have. An `sret` is dealt with apart. -/
def Refuses (instruction : BitVec 32) (mode : ℕ) : Prop :=
  EntersEcall instruction ∧ 2 ≤ mode ∨ IsMret instruction ∧ mode < 2 ∨
    funct3 instruction = 1 ∧ (∀ c : Csr, c.code = uimm instruction → mode < c.mode) ∨
    funct3 instruction = 2 ∧ ∃ c : Csr, c.code = uimm instruction ∧ mode < c.mode

/-- The results `dispatch` can have. -/
inductive Outcome (t : TrapInput) (s : VmState) (p : Proc) : VmState → Proc → Prop
  | ecallUser (enters : EntersEcall t.instruction) (mode : s.currentMode = 0) :
      Outcome t s p { s.setVal (.reg .sepc) p.epc with currentMode := 1 }
        (p.setEpc (s.val .stvec))
  | ecallSupervisor (enters : EntersEcall t.instruction) (mode : s.currentMode = 1) :
      Outcome t s p { s.setVal (.reg .mepc) p.epc with currentMode := 2 }
        { p.setEpc (s.val .mtvec) with pagetable := s.oldPtable }
  | sret (is_sret : IsSret t.instruction) (mode : s.currentMode = 1) :
      Outcome t s p { s.setVal (.reg .sstatus) (sretStatus s) with currentMode := sretMode s }
        (p.setEpc (s.val .sepc))
  | mret (is_mret : IsMret t.instruction) (mode : 2 ≤ s.currentMode)
      (flag : s.pmpConfiguration ≠ 1) :
      Outcome t s p (mretState s) (p.setEpc (s.val .mepc))
  | mretPmp (is_mret : IsMret t.instruction) (mode : 2 ≤ s.currentMode)
      (flag : s.pmpConfiguration = 1) (r : TableRef) (active : p.pagetable = some r)
      (clone new : PageTable Unit) (copied : cloneTable p r.table = .ok clone)
      (withdrawn : exec unmapPage clone (restrictedPages s) = .ok new) :
      Outcome t s p { mretState s with newPtable := t.newPage.val }
        { p.setEpc (s.val .mepc) with pagetable := some ⟨t.newPage, new⟩ }
  | csrw (c : Csr) (funct : funct3 t.instruction = 1) (number : uimm t.instruction = c.code)
      (permitted : c.mode ≤ s.currentMode) :
      Outcome t s p (csrwState s c (p.trapframe (Proc.regWord (rs1 t.instruction))))
        (p.setEpc (p.epc + 4))
  | csrr (c : Csr) (funct : funct3 t.instruction = 2) (number : uimm t.instruction = c.code)
      (permitted : c.mode ≤ s.currentMode) :
      Outcome t s p s
        ((p.setWord (Proc.regWord (rd t.instruction)) (s.val c)).setEpc (p.epc + 4))
  | ignored (funct : 3 ≤ funct3 t.instruction) : Outcome t s p s p
  | refused (q : Proc) (killed : q.killed = true) (sz : q.sz = p.sz)
      (frame : q.trapframePage = p.trapframePage) (table : q.pagetable = p.pagetable)
      (privilege : Refuses t.instruction s.currentMode) :
      Outcome t s p trapAndEmulateInit q
  | sretRefused (is_sret : IsSret t.instruction) (mode : s.currentMode ≠ 1) :
      Outcome t s p trapAndEmulateInit ({ p with pagetable := s.oldPtable }.setkilled)

section Dispatch

variable {t : TrapInput} {s s' : VmState} {p p' : Proc}

theorem handleEcall_outcome (hs : s.Intact) (henters : EntersEcall t.instruction)
    (h : handleEcall s p = .ok (s', p')) : Outcome t s p s' p' := by
  by_cases h₀ : s.currentMode = 0
  · rw [handleEcall_user hs h₀] at h
    cases h
    exact .ecallUser henters h₀
  · by_cases h₁ : s.currentMode = 1
    · rw [handleEcall_supervisor hs h₁] at h
      cases h
      exact .ecallSupervisor henters h₁
    · have h₂ : 2 ≤ s.currentMode := by omega
      rw [handleEcall_machine h₂] at h
      cases h
      exact .refused _ rfl rfl rfl rfl (Or.inl ⟨henters, h₂⟩)

theorem handleSret_outcome (hs : s.Intact) (hsret : IsSret t.instruction)
    (h : handleSret s p = .ok (s', p')) : Outcome t s p s' p' := by
  by_cases h₁ : s.currentMode = 1
  · rw [handleSret_supervisor hs h₁] at h
    cases h
    exact .sret hsret h₁
  · rw [handleSret_other h₁] at h
    cases h
    exact .sretRefused hsret h₁

theorem handleMret_outcome (hs : s.Intact) (hmret : IsMret t.instruction)
    (h : handleMret s p t.newPage = .ok (s', p')) : Outcome t s p s' p' := by
  by_cases h₂ : 2 ≤ s.currentMode
  · by_cases hflag : s.pmpConfiguration = 1
    · rw [handleMret_returns_pmp hs h₂ hflag] at h
      cases hr : p.pagetable with
      | none =>
        simp [mretPmp, hr, derefTable, bind, Except.bind] at h
      | some r =>
        have hr' : (p.setEpc (s.val .mepc)).pagetable = some r := hr
        rw [mretPmp_eq hr', restrictedPages_mretState] at h
        obtain ⟨clone, hclone, h⟩ := bind_ok_iff.mp h
        obtain ⟨new, hnew, h⟩ := bind_ok_iff.mp h
        cases h
        exact .mretPmp hmret h₂ hflag r hr clone new hclone hnew
    · rw [handleMret_machine hs h₂ hflag] at h
      cases h
      exact .mret hmret h₂ hflag
  · rw [handleMret_other h₂] at h
    cases h
    exact .refused _ rfl rfl rfl rfl (Or.inr (Or.inl ⟨hmret, by omega⟩))

theorem handleCsrw_outcome (hs : s.Intact) (hold : s.oldPtable.isSome)
    (hfun : funct3 t.instruction = 1)
    (h : handleCsrw s p (rs1 t.instruction) (uimm t.instruction) = .ok (s', p')) :
    Outcome t s p s' p' := by
  by_cases hc : ∃ c : Csr, c.code = uimm t.instruction
  · obtain ⟨c, hc⟩ := hc
    rw [← hc] at h
    by_cases hm : c.mode ≤ s.currentMode
    · rw [handleCsrw_permitted hs _ hm] at h
      cases h
      exact .csrw c hfun hc.symm hm
    · rw [handleCsrw_refused hs _ hm] at h
      cases h
      refine .refused _ rfl rfl rfl rfl (Or.inr (Or.inr (Or.inl ⟨hfun, fun d hd => ?_⟩)))
      rw [Csr.code_injective (hd.trans hc.symm)]
      exact not_le.mp hm
  · have hne : ∀ c : Csr, c.code ≠ uimm t.instruction := fun c hcode => hc ⟨c, hcode⟩
    rw [handleCsrw_unknown hs hold (uimm_lt _) hne] at h
    cases h
    refine .refused _ rfl rfl rfl rfl (Or.inr (Or.inr (Or.inl ⟨hfun, fun d hd => ?_⟩)))
    exact absurd hd (hne d)

theorem handleCsrr_outcome (hs : s.Intact) (hold : s.oldPtable.isSome)
    (hfun : funct3 t.instruction = 2)
    (h : handleCsrr s p (rd t.instruction) (uimm t.instruction) = .ok (s', p')) :
    Outcome t s p s' p' := by
  by_cases hc : ∃ c : Csr, c.code = uimm t.instruction
  · obtain ⟨c, hc⟩ := hc
    rw [← hc, handleCsrr_code hs] at h
    by_cases hm : c.mode ≤ s.currentMode
    · rw [if_pos hm] at h
      cases h
      exact .csrr c hfun hc.symm hm
    · rw [if_neg hm] at h
      cases h
      exact .refused _ rfl rfl rfl rfl (Or.inr (Or.inr (Or.inr ⟨hfun, c, hc, not_le.mp hm⟩)))
  · rw [handleCsrr_unknown hs hold (uimm_lt _) (fun c hcode => hc ⟨c, hcode⟩)] at h
    cases h

theorem dispatch_outcome (hs : s.Intact) (hold : s.oldPtable.isSome)
    (h : dispatch t s p = .ok (s', p')) : Outcome t s p s' p' := by
  unfold dispatch at h
  split at h
  · next hfun =>
    split_ifs at h with h102 h302
    · exact handleSret_outcome hs ⟨hfun, h102⟩ h
    · exact handleMret_outcome hs ⟨hfun, h302⟩ h
    · exact handleEcall_outcome hs ⟨hfun, h102, h302⟩ h
  · next hfun => exact handleCsrw_outcome hs hold hfun h
  · next hfun => exact handleCsrr_outcome hs hold hfun h
  · next h₀ h₁ h₂ =>
    cases h
    have h₀' : funct3 t.instruction ≠ 0 := h₀
    have h₁' : funct3 t.instruction ≠ 1 := h₁
    have h₂' : funct3 t.instruction ≠ 2 := h₂
    exact .ignored (by omega)

end Dispatch

end AdvancedOperatingSystems.TrapEmulate
