import AdvancedOperatingSystems.TrapEmulate.HostSafety

/-!
# Access to the virtual CSRs

The privilege architecture gives every register a least mode and makes the
machine information registers read-only. The monitor's table gives the PMP
registers the mode 0, the write handler does not know of read-only registers,
and the read handler does not test for numbers that are not in the table.
Everywhere else the handlers follow the architecture.
-/

namespace AdvancedOperatingSystems.TrapEmulate

open Foundations Riscv Riscv.PageTable

def Implemented (csr : ℕ) : Prop := ∃ c : Csr, c.code = csr

/-- The least mode that may access a register of this number: `0x1xx` are the
supervisor's, the other implemented ones the machine's. -/
def requiredMode (csr : ℕ) : ℕ := if csr / 0x100 = 1 then 1 else 2

def MachineInformation (csr : ℕ) : Prop := 0xf11 ≤ csr ∧ csr ≤ 0xf15

instance (csr : ℕ) : Decidable (MachineInformation csr) :=
  inferInstanceAs (Decidable (_ ∧ _))

theorem mode_eq_requiredMode (c : Csr) (hc : ¬ isPmpNumber c.code = true) :
    c.mode = requiredMode c.code := by
  revert c
  decide

theorem requiredMode_pmp (c : Csr) (hc : isPmpNumber c.code = true) :
    requiredMode c.code = 2 ∧ c.mode = 0 := by
  revert c
  decide

theorem mode_machineInformation (c : Csr) (hc : MachineInformation c.code) :
    c.mode = 2 ∧ ¬ isPmpNumber c.code = true := by
  revert c
  decide

section Law

variable (s : VmState) (p : Proc) (r : BitVec 5) (csr : ℕ)

def ReadAllowed : Prop := Implemented csr ∧ requiredMode csr ≤ s.currentMode

def WriteAllowed : Prop := ReadAllowed s csr ∧ ¬ MachineInformation csr

/-- The guest receives the value of the register and the monitor is unchanged. -/
def ReadPerformed : Prop :=
  ∃ c : Csr, c.code = csr ∧ ∃ p', handleCsrr s p r csr = .ok (s, p') ∧
    p'.killed = p.killed ∧ p'.trapframe (Proc.regWord r) = s.val c

/-- The register takes the guest's value and the others keep theirs. -/
def WritePerformed : Prop :=
  ∃ c : Csr, c.code = csr ∧ ∃ s' p', handleCsrw s p r csr = .ok (s', p') ∧
    p'.killed = p.killed ∧ s'.oldPtable = s.oldPtable ∧
    s'.val c = p.trapframe (Proc.regWord r) ∧ ∀ d, d ≠ c → s'.val d = s.val d

variable (out : Except Panic (VmState × Proc))

/-- The VM is killed, the monitor starts afresh and the guest's registers are untouched. -/
def Refused : Prop :=
  ∃ p', out = .ok (trapAndEmulateInit, p') ∧ p'.killed = true ∧
    ∀ i, i ≠ Proc.epcWord → p'.trapframe i = p.trapframe i

/-- A read is performed exactly when it is allowed and refused otherwise. -/
def ReadLaw : Prop :=
  (ReadPerformed s p r csr ↔ ReadAllowed s csr) ∧
    (¬ ReadAllowed s csr → Refused p (handleCsrr s p r csr))

/-- A write is performed exactly when it is allowed and refused otherwise. -/
def WriteLaw : Prop :=
  (WritePerformed s p r csr ↔ WriteAllowed s csr) ∧
    (¬ WriteAllowed s csr → Refused p (handleCsrw s p r csr))

/-- The reads on which the monitor follows the law: the register exists, and it
is not a PMP register accessed below machine mode. -/
def ReadLawful : Prop :=
  Implemented csr ∧ ¬ (isPmpNumber csr = true ∧ s.currentMode < 2)

/-- The writes on which the monitor follows the law: no PMP register below
machine mode and no machine information register in machine mode. -/
def WriteLawful : Prop :=
  ¬ (isPmpNumber csr = true ∧ s.currentMode < 2) ∧
    ¬ (MachineInformation csr ∧ 2 ≤ s.currentMode)

end Law

section Access

variable {s : VmState} {p : Proc} {r : BitVec 5} {c : Csr} {csr : ℕ}

theorem readAllowed_code : ReadAllowed s c.code ↔ requiredMode c.code ≤ s.currentMode := by
  simp [ReadAllowed, Implemented]

theorem readPerformed_of_mode (h : s.Intact) (hm : c.mode ≤ s.currentMode) :
    ReadPerformed s p r c.code := by
  have hok := handleCsrr_code (p := p) h r c
  rw [if_pos hm] at hok
  refine ⟨c, rfl, _, hok, rfl, ?_⟩
  simp [Proc.setEpc, Proc.setWord, Proc.regWord_ne_epcWord]

theorem writePerformed_of_mode (h : s.Intact) (hm : c.mode ≤ s.currentMode) :
    WritePerformed s p r c.code := by
  refine ⟨c, rfl, _, _, handleCsrw_permitted h r hm, rfl, rfl, ?_, fun d hd => ?_⟩
  · exact csrwState_val_self _ _ _
  · exact csrwState_val_ne _ hd _

theorem refused_setkilled (v : BitVec 64) :
    Refused p (.ok (trapAndEmulateInit, p.setkilled.setEpc v)) := by
  refine ⟨_, rfl, rfl, fun i hi => ?_⟩
  simp [Proc.setEpc, Proc.setWord, Proc.setkilled, hi]

theorem not_readPerformed_of_refused (hold : s.oldPtable.isSome)
    (h : Refused p (handleCsrr s p r csr)) : ¬ ReadPerformed s p r csr := by
  rintro ⟨_, _, p', hp', _⟩
  obtain ⟨q, hq, _⟩ := h
  rw [hp'] at hq
  cases hq
  cases hold

theorem not_writePerformed_of_refused (hold : s.oldPtable.isSome)
    (h : Refused p (handleCsrw s p r csr)) : ¬ WritePerformed s p r csr := by
  rintro ⟨_, _, s', p', hp', _, hs', _⟩
  obtain ⟨q, hq, _⟩ := h
  rw [hp'] at hq
  cases hq
  rw [← hs'] at hold
  cases hold

theorem law_iff {allowed test performed refused : Prop} (hpos : test → performed)
    (hneg : ¬ test → refused) (hexcl : refused → ¬ performed) :
    ((performed ↔ allowed) ∧ (¬ allowed → refused)) ↔ (test ↔ allowed) := by
  by_cases ht : test <;> by_cases ha : allowed
  · simp [ht, ha, hpos ht]
  · have hp := hpos ht
    simp only [ht, ha, hp, iff_false, not_true_eq_false, false_and]
  · have hp := hexcl (hneg ht)
    simp only [ht, ha, hp, iff_true, false_and]
  · have hr := hneg ht
    have hp := hexcl hr
    simp only [ht, ha, hp, hr, not_false_eq_true, forall_const, and_self, iff_self]

theorem readLaw_code (h : s.Intact) (hold : s.oldPtable.isSome) :
    ReadLaw s p r c.code ↔ (c.mode ≤ s.currentMode ↔ requiredMode c.code ≤ s.currentMode) := by
  have hneg : ¬ c.mode ≤ s.currentMode → Refused p (handleCsrr s p r c.code) := by
    intro hm
    rw [handleCsrr_code h, if_neg hm]
    exact refused_setkilled _
  rw [← readAllowed_code]
  exact law_iff (readPerformed_of_mode h) hneg (not_readPerformed_of_refused hold)

theorem writeLaw_code (h : s.Intact) (hold : s.oldPtable.isSome) :
    WriteLaw s p r c.code ↔ (c.mode ≤ s.currentMode ↔
      requiredMode c.code ≤ s.currentMode ∧ ¬ MachineInformation c.code) := by
  have hneg : ¬ c.mode ≤ s.currentMode → Refused p (handleCsrw s p r c.code) := by
    intro hm
    rw [handleCsrw_refused h r hm]
    exact refused_setkilled _
  rw [← readAllowed_code]
  exact law_iff (writePerformed_of_mode h) hneg (not_writePerformed_of_refused hold)

theorem readLaw_iff (h : s.Intact) (hold : s.oldPtable.isSome) (hcsr : csr < 2 ^ 12) :
    ReadLaw s p r csr ↔ ReadLawful s csr := by
  by_cases hc : Implemented csr
  · obtain ⟨c, rfl⟩ := hc
    rw [readLaw_code h hold]
    have himp : Implemented c.code := ⟨c, rfl⟩
    simp only [ReadLawful, himp, true_and]
    by_cases hpmp : isPmpNumber c.code = true
    · obtain ⟨h₁, h₂⟩ := requiredMode_pmp c hpmp
      simp only [h₁, h₂, hpmp, Nat.zero_le, true_iff, true_and, not_lt]
    · simp [mode_eq_requiredMode c hpmp, hpmp]
  · -- the handler follows a NULL pointer, so the VM is not killed
    have hne : ∀ c : Csr, c.code ≠ csr := fun c hcode => hc ⟨c, hcode⟩
    have hno : ¬ ReadAllowed s csr := fun ha => hc ha.1
    constructor
    · rintro ⟨_, hrefused⟩
      obtain ⟨q, hq, _⟩ := hrefused hno
      rw [handleCsrr_unknown h hold hcsr hne] at hq
      cases hq
    · exact fun hl => absurd hl.1 hc

theorem writeLaw_iff (h : s.Intact) (hold : s.oldPtable.isSome) (hcsr : csr < 2 ^ 12) :
    WriteLaw s p r csr ↔ WriteLawful s csr := by
  by_cases hc : Implemented csr
  · obtain ⟨c, rfl⟩ := hc
    rw [writeLaw_code h hold, WriteLawful]
    by_cases hpmp : isPmpNumber c.code = true
    · obtain ⟨h₁, h₂⟩ := requiredMode_pmp c hpmp
      have hro : ¬ MachineInformation c.code := fun hro => (mode_machineInformation c hro).2 hpmp
      simp only [h₁, h₂, hpmp, hro, Nat.zero_le, true_iff, true_and, not_lt, not_false_eq_true,
        and_true, false_and]
    · by_cases hro : MachineInformation c.code
      · have hm : ¬ 2 ≤ s.currentMode ↔ s.currentMode < 2 := not_le
        simp [(mode_machineInformation c hro).1, hro, hpmp]
      · simp [mode_eq_requiredMode c hpmp, hpmp, hro]
  · have hne : ∀ c : Csr, c.code ≠ csr := fun c hcode => hc ⟨c, hcode⟩
    have hno : ¬ WriteAllowed s csr := fun ha => hc ha.1.1
    have hrefused : Refused p (handleCsrw s p r csr) := by
      rw [handleCsrw_unknown h hold hcsr hne]
      exact refused_setkilled _
    have hlawful : WriteLawful s csr := by
      refine ⟨fun hpmp => ?_, fun hro => ?_⟩
      · have hp := hpmp.1
        simp only [isPmpNumber, Bool.or_eq_true, decide_eq_true_eq] at hp
        rcases hp with (((rfl | rfl) | rfl) | rfl) | rfl
        exacts [hne .pmpcfg0 rfl, hne (.pmpaddr 0) rfl, hne (.pmpaddr 1) rfl,
          hne (.pmpaddr 2) rfl, hne (.pmpaddr 3) rfl]
      · obtain ⟨⟨hlo, hhi⟩, _⟩ := hro
        have hcases : csr = 0xf11 ∨ csr = 0xf12 ∨ csr = 0xf13 ∨ csr = 0xf14 ∨ csr = 0xf15 := by
          omega
        rcases hcases with rfl | rfl | rfl | rfl | rfl
        exacts [hne .mvendroid rfl, hne .marchid rfl, hne .mimpid rfl, hne .mhartid rfl,
          hne .mconfigptr rfl]
    have hlaw : WriteLaw s p r csr :=
      ⟨iff_of_false (not_writePerformed_of_refused hold hrefused) hno, fun _ => hrefused⟩
    exact iff_of_true hlaw hlawful

end Access

section Runs

/-- The event is an emulated `csrw` or `csrr`, as `funct3` says, of process `pid`. -/
def AccessEvent (m : Machine) (e : Event) (funct : ℕ) (pid : ℕ) (t : TrapInput) : Prop :=
  ∃ cause p, e = .trap pid cause t ∧ m.procs pid = .running p ∧ Emulated cause p ∧
    funct3 t.instruction = funct

/-- The CSR accesses of the step are ones on which the monitor follows the law. -/
structure CsrLawful (m : Machine) (e : Event) : Prop where
  write : ∀ pid t, AccessEvent m e 1 pid t → WriteLawful m.vm (uimm t.instruction)
  read : ∀ pid t, AccessEvent m e 2 pid t → ReadLawful m.vm (uimm t.instruction)

/-- A `csrw` below machine mode either ends its VM or leaves every machine
register as it was. -/
def KeepsMachineRegs (m : Machine) (e : Event) (m' : Machine) : Prop :=
  ∀ pid t, AccessEvent m e 1 pid t → m.vm.currentMode < 2 →
    (∃ q, m'.procs pid = .zombie q) ∨
      ∀ c : Csr, requiredMode c.code = 2 → m'.vm.val c = m.vm.val c

theorem leave_killed {p : Proc} (h : p.killed = true) : leave p = .zombie p := by
  simp [leave, h]

/-- A lawful `csrw` below machine mode reaches no machine register. -/
theorem handleCsrw_keeps {s s' : VmState} {p p' : Proc} (hs : s.Intact)
    (hold : s.oldPtable.isSome) {r : BitVec 5} {csr : ℕ} (hcsr : csr < 2 ^ 12)
    (hlaw : WriteLawful s csr) (hmode : s.currentMode < 2)
    (h : handleCsrw s p r csr = .ok (s', p')) :
    p'.killed = true ∨ ∀ c : Csr, requiredMode c.code = 2 → s'.val c = s.val c := by
  by_cases hc : Implemented csr
  · obtain ⟨c, rfl⟩ := hc
    by_cases hm : c.mode ≤ s.currentMode
    · rw [handleCsrw_permitted hs r hm] at h
      cases h
      refine Or.inr fun d hd => ?_
      have hpmp : ¬ isPmpNumber c.code = true := fun hpmp => hlaw.1 ⟨hpmp, hmode⟩
      have hne : d ≠ c := by
        rintro rfl
        rw [mode_eq_requiredMode d hpmp, hd] at hm
        omega
      exact csrwState_val_ne _ hne _
    · rw [handleCsrw_refused hs r hm] at h
      cases h
      exact Or.inl rfl
  · rw [handleCsrw_unknown hs hold hcsr (fun c hcode => hc ⟨c, hcode⟩)] at h
    cases h
    exact Or.inl rfl

theorem step_keepsMachineRegs {m m' : Machine} {e : Event} (hm : m.Ok) (hlaw : CsrLawful m e)
    (h : step m e = .ok m') : KeepsMachineRegs m e m' := by
  intro pid t hacc hmode
  have hwrite := hlaw.write pid t hacc
  obtain ⟨cause, p, rfl, hp, hemu, hfun⟩ := hacc
  simp only [step, hp, usertrap_emulated hemu] at h
  obtain ⟨⟨s', p'⟩, hu, h⟩ := bind_ok_iff.mp h
  cases h
  obtain ⟨s₁, hsave, hdis⟩ := bind_ok_iff.mp hu
  have hpok := (hm.procs pid p hp).trapped t
  obtain ⟨hs₁, hold, hreg, hmode₁, -⟩ := saveOldPtable_spec hm.vm hpok hsave
  have hval : ∀ c, s₁.val c = m.vm.val c := fun c => by
    rw [VmState.val, hreg]
    rfl
  simp only [dispatch, hfun] at hdis
  have hwrite₁ : WriteLawful s₁ (uimm t.instruction) := by
    simpa only [WriteLawful, hmode₁] using hwrite
  rcases handleCsrw_keeps hs₁.intact hold (uimm_lt _) hwrite₁ (hmode₁ ▸ hmode) hdis with hk | hk
  · exact Or.inl ⟨p', by simp [leave_killed hk]⟩
  · exact Or.inr fun c hc => (hk c hc).trans (hval c)

end Runs

/-- Every access follows the privilege law exactly when it is lawful in the sense
above, and in a run whose accesses are lawful no `csrw` below machine mode has an
effect on a machine register. -/
theorem csr_access_law {s : VmState} (hs : s.Intact) (hold : s.oldPtable.isSome) {csr : ℕ}
    (hcsr : csr < 2 ^ 12) (p : Proc) (r : BitVec 5) :
    (ReadLaw s p r csr ↔ ReadLawful s csr) ∧ (WriteLaw s p r csr ↔ WriteLawful s csr) ∧
      ∀ es e m m', Guarded step CsrLawful boot (es ++ [e]) → exec step boot es = .ok m →
        step m e = .ok m' → KeepsMachineRegs m e m' := by
  refine ⟨readLaw_iff hs hold hcsr, writeLaw_iff hs hold hcsr, fun es e m m' hg hm hstep => ?_⟩
  have hok : m.Ok := exec_invariant (fun _ e _ hm ht => step_ok hm e ht) Machine.ok_boot hm
  exact step_keepsMachineRegs hok (hg.last hm) hstep

/-- The law for `mhartid` in the state of a first trap. -/
theorem csr_access_law_saved :
    (ReadLaw (VmState.saved VmImage.onePage.table) VmImage.onePage.proc 10 0xf14 ↔
        ReadLawful (VmState.saved VmImage.onePage.table) 0xf14) ∧
      (WriteLaw (VmState.saved VmImage.onePage.table) VmImage.onePage.proc 10 0xf14 ↔
        WriteLawful (VmState.saved VmImage.onePage.table) 0xf14) ∧
      ∀ es e m m', Guarded step CsrLawful boot (es ++ [e]) → exec step boot es = .ok m →
        step m e = .ok m' → KeepsMachineRegs m e m' :=
  csr_access_law (VmState.intact_saved _) rfl (by decide) _ _

/-- `csrw pmpcfg0, a0`. -/
def csrwPmpcfg0 : TrapInput := ⟨4, 0x3a051073, fun _ => 1, KallocPage.second, KallocPage.third⟩

theorem step_csrw {m : Machine} {pid : ℕ} {p : Proc} {t : TrapInput} {c : Csr}
    (hs : m.vm.Intact) (hold : m.vm.oldPtable.isSome) (hp : m.procs pid = .running p)
    (hfun : funct3 t.instruction = 1) (hcsr : uimm t.instruction = c.code)
    (hm : c.mode ≤ m.vm.currentMode) :
    step m (.trap pid .illegal t) =
      .ok ⟨csrwState m.vm c ((p.trapped t).trapframe (Proc.regWord (rs1 t.instruction))),
        Function.update m.procs pid (leave ((p.trapped t).setEpc (t.sepc + 4)))⟩ := by
  have hepc : (p.trapped t).epc = t.sepc := Proc.trapped_epc p t
  simp only [step_illegal hold hp, dispatch, hfun, hcsr, handleCsrw_permitted hs _ hm, hepc,
    bind, Except.bind]

/-- A guest that has dropped to user mode by an `mret` changes `pmpcfg0`. -/
theorem user_csrw_pmpcfg0 :
    ∃ m m', exec step boot [.exec 1 VmImage.onePage, .trap 1 .illegal mretTrap] = .ok m ∧
      step m (.trap 1 .illegal csrwPmpcfg0) = .ok m' ∧
      ¬ KeepsMachineRegs m (.trap 1 .illegal csrwPmpcfg0) m' := by
  obtain ⟨new, m, heq, hvm, hp, _⟩ := exec_first_mret VmImage.onePage 1
  have hintact : m.vm.Intact := hvm ▸ (VmState.intact_saved _).mretState
  have hmode : m.vm.currentMode = 0 := by
    rw [hvm]
    exact mretMode_saved _
  refine ⟨m, _, heq, step_csrw (c := .pmpcfg0) hintact (by rw [hvm]; rfl) hp (by decide)
    (by decide) (Nat.zero_le _), fun hkeeps => ?_⟩
  have hacc : AccessEvent m (.trap 1 .illegal csrwPmpcfg0) 1 1 csrwPmpcfg0 :=
    ⟨_, _, rfl, hp, Or.inl rfl, by decide⟩
  rcases hkeeps 1 csrwPmpcfg0 hacc (by omega) with ⟨q, hq⟩ | hval
  · simp [leave, Proc.setEpc, Proc.setWord, VmImage.proc] at hq
  · have hcfg := hval .pmpcfg0 (by decide)
    rw [csrwState_val_self, hvm, mretState_val _ (by decide)] at hcfg
    rw [Proc.trapped_regWord _ _ (by decide)] at hcfg
    have hval₀ : (VmState.saved ⟨mretTrap.oldPage, new⟩).val .pmpcfg0 = 0 := rfl
    rw [hval₀] at hcfg
    exact absurd hcfg (by decide)

end AdvancedOperatingSystems.TrapEmulate
