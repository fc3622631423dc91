import AdvancedOperatingSystems.TrapEmulate.Machine

/-!
# When the monitor panics

A trap that reaches `trap_and_emulate` panics the kernel in three ways: the copy
of the page table at the first trap finds a hole, a `csrr` names a register that
does not exist, or the PMP block of an `mret` finds a hole in the active table
or is told to withdraw a page that is misaligned, unmapped or withdrawn already.
-/

namespace AdvancedOperatingSystems.TrapEmulate

open Foundations Riscv Riscv.PageTable

/-- The active page table of the process maps all the monitor copies. -/
def Proc.TableFull (p : Proc) : Prop := ∀ r, p.pagetable = some r → Full r.table p.sz

/-- The instruction is dispatched to `handle_mret`. -/
def IsMret (instruction : BitVec 32) : Prop := funct3 instruction = 0 ∧ uimm instruction = 0x302

/-- The ranges of the restricting PMP entries consist of page-aligned pages of a
copied table, and no page lies in two of them. -/
def PmpFits (s : VmState) (sz : ℕ) : Prop :=
  (restrictedPages s).Nodup ∧ ∀ a ∈ restrictedPages s, a % PGSIZE = 0 ∧ ClonedPage sz a

/-- The condition under which `dispatch` does not panic. -/
structure DispatchSafe (t : TrapInput) (s : VmState) (p : Proc) : Prop where
  csrr : funct3 t.instruction = 2 → ∃ c : Csr, c.code = uimm t.instruction
  mret : IsMret t.instruction → 2 ≤ s.currentMode → s.pmpConfiguration = 1 →
    p.TableFull ∧ PmpFits s p.sz

/-- The condition under which a trap does not panic. -/
structure TrapSafe (t : TrapInput) (s : VmState) (p : Proc) : Prop where
  save : s.oldPtable = none → p.TableFull
  dispatch : DispatchSafe t s p

section Save

variable {s : VmState} {p : Proc} {page : KallocPage}

theorem saveOldPtable_some (h : s.oldPtable.isSome) : saveOldPtable page s p = .ok s := by
  obtain ⟨t, ht⟩ := Option.isSome_iff_exists.mp h
  simp [saveOldPtable, ht]

theorem saveOldPtable_none {r : TableRef} (h : s.oldPtable = none) (hr : p.pagetable = some r) :
    saveOldPtable page s p = cloneTable p r.table >>= fun new =>
      .ok { s with oldPtable := some ⟨page, new⟩ } := by
  simp [saveOldPtable, h, hr]

theorem saveOldPtable_returns_iff (hp : p.Ok) :
    Returns (saveOldPtable page s p) ↔ (s.oldPtable = none → p.TableFull) := by
  obtain ⟨r, hr, hwf⟩ := hp.table
  cases h : s.oldPtable with
  | some t =>
    have hsome : saveOldPtable page s p = .ok s := saveOldPtable_some (by simp [h])
    simp [hsome]
  | none =>
    simp only [saveOldPtable_none h hr, returns_bind, returns_ok, and_true, forall_const]
    have hcl : (∃ new, cloneTable p r.table = .ok new) ↔ Full r.table p.sz :=
      cloneTable_returns_iff hwf hp.sz_le
    rw [hcl]
    simp [Proc.TableFull, hr]

theorem saveOldPtable_spec (hs : s.Ok) (hp : p.Ok) {s' : VmState}
    (h : saveOldPtable page s p = .ok s') :
    s'.Ok ∧ s'.oldPtable.isSome ∧ s'.reg = s.reg ∧ s'.currentMode = s.currentMode ∧
      s'.pmpConfiguration = s.pmpConfiguration := by
  obtain ⟨r, hr, hwf⟩ := hp.table
  cases hold : s.oldPtable with
  | some t =>
    rw [saveOldPtable_some (by simp [hold])] at h
    cases h
    exact ⟨hs, by simp [hold], rfl, rfl, rfl⟩
  | none =>
    rw [saveOldPtable_none hold hr] at h
    obtain ⟨new, hnew, h⟩ := bind_ok_iff.mp h
    cases h
    obtain ⟨_, hnewwf, _⟩ := cloneTable_spec hwf hp.sz_le hnew
    refine ⟨⟨hs.intact, fun u hu => ?_⟩, rfl, rfl, rfl, rfl⟩
    cases hu
    exact hnewwf

/-- The monitor's state once the first trap has saved a table. -/
def VmState.saved (r : TableRef) : VmState := { trapAndEmulateInit with oldPtable := some r }

theorem VmState.intact_saved (r : TableRef) : (VmState.saved r).Intact := VmState.intact_init

theorem trapAndEmulate_first (t : TrapInput) (hp : p.Ok) (hfull : p.TableFull) :
    ∃ new : PageTable Unit, new.Wf ∧
      trapAndEmulate t trapAndEmulateInit p = dispatch t (VmState.saved ⟨t.oldPage, new⟩) p := by
  obtain ⟨r, hr, hwf⟩ := hp.table
  obtain ⟨new, hnew, hnewwf, _⟩ := cloneTable_ok hwf hp.sz_le (hfull r hr)
  refine ⟨new, hnewwf, ?_⟩
  simp only [trapAndEmulate, saveOldPtable_none (s := trapAndEmulateInit) rfl hr, hnew, bind,
    Except.bind, VmState.saved]

end Save

section Mret

variable {s : VmState} {p : Proc} {page : KallocPage}

theorem mretPmp_eq {r : TableRef} (hr : p.pagetable = some r) :
    mretPmp s p page = cloneTable p r.table >>= fun new =>
      exec unmapPage new (restrictedPages s) >>= fun new =>
        .ok ({ s with newPtable := page.val }, { p with pagetable := some ⟨page, new⟩ }) := by
  simp only [mretPmp, hr, derefTable, bind, Except.bind, pmpLoop_eq, restrictedPages]

theorem mretPmp_returns_iff (hp : p.Ok) :
    Returns (mretPmp s p page) ↔ p.TableFull ∧ PmpFits s p.sz := by
  obtain ⟨r, hr, hwf⟩ := hp.table
  rw [mretPmp_eq hr, returns_bind]
  have hfull : p.TableFull ↔ Full r.table p.sz := by simp [Proc.TableFull, hr]
  rw [hfull]
  constructor
  · rintro ⟨new, hnew, hret⟩
    obtain ⟨hf, hnewwf, _⟩ := cloneTable_spec hwf hp.sz_le hnew
    obtain ⟨new', hnew', _⟩ := (returns_bind _ _).mp hret
    obtain ⟨hnd, hall⟩ := (unmapPages_returns_iff hnewwf _).mp ⟨new', hnew'⟩
    exact ⟨hf, hnd, fun a ha =>
      ⟨(hall a ha).1, (cloneTable_mapped hwf hp.sz_le hnew (hall a ha).1).mp (hall a ha).2.2⟩⟩
  · rintro ⟨hf, hnd, hall⟩
    obtain ⟨new, hnew, hnewwf, _⟩ := cloneTable_ok hwf hp.sz_le hf
    have hret : Returns (exec unmapPage new (restrictedPages s)) := by
      refine (unmapPages_returns_iff hnewwf _).mpr ⟨hnd, fun a ha => ?_⟩
      obtain ⟨hal, hcl⟩ := hall a ha
      refine ⟨hal, ?_, (cloneTable_mapped hwf hp.sz_le hnew hal).mpr hcl⟩
      rcases hcl with hcl | rfl | rfl
      · exact (lt_MAXVA_of_mem_vmPages hp.sz_le hcl).trans (by decide)
      · decide
      · decide
    obtain ⟨new', hnew'⟩ := hret
    exact ⟨new, hnew, (returns_bind _ _).mpr ⟨new', hnew', returns_ok _⟩⟩

theorem mretPmp_spec (hs : s.Ok) (hp : p.Ok) {s' : VmState} {p' : Proc}
    (h : mretPmp s p page = .ok (s', p')) : s'.Ok ∧ p'.Ok := by
  obtain ⟨r, hr, hwf⟩ := hp.table
  rw [mretPmp_eq hr] at h
  obtain ⟨new, hnew, h⟩ := bind_ok_iff.mp h
  obtain ⟨new', hnew', h⟩ := bind_ok_iff.mp h
  cases h
  obtain ⟨_, hnewwf, _⟩ := cloneTable_spec hwf hp.sz_le hnew
  exact ⟨⟨hs.intact, hs.old_wf⟩, ⟨⟨_, rfl, wf_unmapPages hnewwf hnew'⟩, hp.sz_le⟩⟩

theorem VmState.Ok.mretState (hs : s.Ok) : (mretState s).Ok :=
  ⟨hs.intact.mretState, hs.old_wf⟩

theorem handleMret_returns_iff (hs : s.Ok) (hp : p.Ok) :
    Returns (handleMret s p page) ↔
      (2 ≤ s.currentMode → s.pmpConfiguration = 1 → p.TableFull ∧ PmpFits s p.sz) := by
  by_cases hm : 2 ≤ s.currentMode
  · by_cases hpmp : s.pmpConfiguration = 1
    · rw [handleMret_returns_pmp hs.intact hm hpmp, mretPmp_returns_iff (hp.setEpc _)]
      simp only [hm, hpmp, forall_const, PmpFits, restrictedPages_mretState]
      rfl
    · simp [handleMret_machine hs.intact hm hpmp, hpmp]
  · simp [handleMret_other hm, hm]

theorem handleMret_spec (hs : s.Ok) (hp : p.Ok) {s' : VmState} {p' : Proc}
    (h : handleMret s p page = .ok (s', p')) : s'.Ok ∧ p'.Ok := by
  by_cases hm : 2 ≤ s.currentMode
  · by_cases hpmp : s.pmpConfiguration = 1
    · rw [handleMret_returns_pmp hs.intact hm hpmp] at h
      exact mretPmp_spec hs.mretState (hp.setEpc _) h
    · rw [handleMret_machine hs.intact hm hpmp] at h
      cases h
      exact ⟨hs.mretState, hp.setEpc _⟩
  · rw [handleMret_other hm] at h
    cases h
    exact ⟨VmState.ok_init, hp.setkilled⟩

end Mret

section Dispatch

variable {t : TrapInput} {s : VmState} {p : Proc}

theorem Proc.Ok.switch (hs : s.Ok) (hold : s.oldPtable.isSome) (hp : p.Ok) :
    ({ p with pagetable := s.oldPtable } : Proc).Ok := by
  obtain ⟨r, hr⟩ := Option.isSome_iff_exists.mp hold
  exact ⟨⟨r, hr, hs.old_wf r hr⟩, hp.sz_le⟩

theorem handleEcall_spec (hs : s.Ok) (hold : s.oldPtable.isSome) (hp : p.Ok) :
    ∃ s' p', handleEcall s p = .ok (s', p') ∧ s'.Ok ∧ p'.Ok := by
  by_cases h₀ : s.currentMode = 0
  · have hs' := hs.setVal (.reg .sepc) p.epc
    exact ⟨_, _, handleEcall_user hs.intact h₀, ⟨hs'.intact, hs'.old_wf⟩, hp.setEpc _⟩
  · by_cases h₁ : s.currentMode = 1
    · have hs' := hs.setVal (.reg .mepc) p.epc
      exact ⟨_, _, handleEcall_supervisor hs.intact h₁, ⟨hs'.intact, hs'.old_wf⟩,
        Proc.Ok.switch hs hold (hp.setEpc _)⟩
    · exact ⟨_, _, handleEcall_machine (by omega), VmState.ok_init, hp.setkilled⟩

theorem handleSret_spec (hs : s.Ok) (hold : s.oldPtable.isSome) (hp : p.Ok) :
    ∃ s' p', handleSret s p = .ok (s', p') ∧ s'.Ok ∧ p'.Ok := by
  by_cases h₁ : s.currentMode = 1
  · have hs' := hs.setVal (.reg .sstatus) (sretStatus s)
    exact ⟨_, _, handleSret_supervisor hs.intact h₁, ⟨hs'.intact, hs'.old_wf⟩, hp.setEpc _⟩
  · exact ⟨_, _, handleSret_other h₁, VmState.ok_init, (Proc.Ok.switch hs hold hp).setkilled⟩

theorem handleCsrw_spec (hs : s.Ok) (hold : s.oldPtable.isSome) (hp : p.Ok) (rs1 : BitVec 5)
    {csr : ℕ} (hcsr : csr < 2 ^ 12) :
    ∃ s' p', handleCsrw s p rs1 csr = .ok (s', p') ∧ s'.Ok ∧ p'.Ok := by
  by_cases hc : ∃ c : Csr, c.code = csr
  · obtain ⟨c, rfl⟩ := hc
    by_cases hm : c.mode ≤ s.currentMode
    · exact ⟨_, _, handleCsrw_permitted hs.intact rs1 hm, hs.csrwState c _, hp.setEpc _⟩
    · exact ⟨_, _, handleCsrw_refused hs.intact rs1 hm, VmState.ok_init,
        hp.setkilled.setEpc _⟩
  · have hne : ∀ c : Csr, c.code ≠ csr := fun c hcode => hc ⟨c, hcode⟩
    exact ⟨_, _, handleCsrw_unknown hs.intact hold hcsr hne rs1, VmState.ok_init,
      hp.setkilled.setEpc _⟩

theorem handleCsrr_spec (hs : s.Ok) (hp : p.Ok) (rd : BitVec 5) (c : Csr) :
    ∃ s' p', handleCsrr s p rd c.code = .ok (s', p') ∧ s'.Ok ∧ p'.Ok := by
  rw [handleCsrr_code hs.intact]
  split_ifs
  · exact ⟨_, _, rfl, hs, (hp.setWord _ _).setEpc _⟩
  · exact ⟨_, _, rfl, VmState.ok_init, hp.setkilled.setEpc _⟩

theorem dispatch_returns_iff (hs : s.Ok) (hold : s.oldPtable.isSome) (hp : p.Ok) :
    Returns (dispatch t s p) ↔ DispatchSafe t s p := by
  have hmret : ∀ {f : ℕ}, funct3 t.instruction = f → f ≠ 0 → ¬ IsMret t.instruction :=
    fun hf hf0 hm => hf0 (hf.symm.trans hm.1)
  unfold dispatch
  split
  · next hf =>
    have hcsrr : funct3 t.instruction = 2 → ∃ c : Csr, c.code = uimm t.instruction := by
      simp [hf]
    split_ifs with h102 h302
    · obtain ⟨s', p', hok, _⟩ := handleSret_spec hs hold hp
      simp only [hok, returns_ok, true_iff]
      exact ⟨hcsrr, fun hm => by have := hm.2; omega⟩
    · rw [handleMret_returns_iff hs hp]
      exact ⟨fun h => ⟨hcsrr, fun _ => h⟩, fun h => h.mret ⟨hf, h302⟩⟩
    · obtain ⟨s', p', hok, _⟩ := handleEcall_spec hs hold hp
      simp only [hok, returns_ok, true_iff]
      exact ⟨hcsrr, fun hm => absurd hm.2 h302⟩
  · next hf =>
    obtain ⟨s', p', hok, _⟩ := handleCsrw_spec hs hold hp (rs1 t.instruction)
      (uimm_lt t.instruction)
    simp only [hok, returns_ok, true_iff]
    exact ⟨by simp [hf], fun hm => absurd hm (hmret hf (by decide))⟩
  · next hf =>
    constructor
    · intro hret
      refine ⟨fun _ => ?_, fun hm => absurd hm (hmret hf (by decide))⟩
      by_contra hc
      rw [handleCsrr_unknown hs.intact hold (uimm_lt _) (fun c hcode => hc ⟨c, hcode⟩)] at hret
      exact not_returns_error _ hret
    · intro h
      obtain ⟨c, hc⟩ := h.csrr hf
      obtain ⟨s', p', hok, _⟩ := handleCsrr_spec hs hp (rd t.instruction) c
      rw [← hc, hok]
      exact returns_ok _
  · next hf₀ hf₁ hf₂ =>
    simp only [returns_ok, true_iff]
    exact ⟨fun h => absurd h hf₂, fun hm => absurd hm.1 hf₀⟩

theorem dispatch_spec (hs : s.Ok) (hold : s.oldPtable.isSome) (hp : p.Ok) {s' : VmState}
    {p' : Proc} (h : dispatch t s p = .ok (s', p')) : s'.Ok ∧ p'.Ok := by
  have unique : ∀ {r : Except Panic (VmState × Proc)}, r = .ok (s', p') →
      (∃ s₁ p₁, r = .ok (s₁, p₁) ∧ s₁.Ok ∧ p₁.Ok) → s'.Ok ∧ p'.Ok := by
    rintro r hr ⟨s₁, p₁, h₁, hok⟩
    rw [hr] at h₁
    cases h₁
    exact hok
  have hsafe := (dispatch_returns_iff hs hold hp).mp ⟨_, h⟩
  unfold dispatch at h
  split at h
  · split_ifs at h
    · exact unique h (handleSret_spec hs hold hp)
    · exact handleMret_spec hs hp h
    · exact unique h (handleEcall_spec hs hold hp)
  · exact unique h (handleCsrw_spec hs hold hp _ (uimm_lt _))
  · next hf =>
    obtain ⟨c, hc⟩ := hsafe.csrr hf
    rw [← hc] at h
    exact unique h (handleCsrr_spec hs hp _ c)
  · cases h
    exact ⟨hs, hp⟩

theorem DispatchSafe.congr {s' : VmState} (hreg : s'.reg = s.reg)
    (hmode : s'.currentMode = s.currentMode) (hpmp : s'.pmpConfiguration = s.pmpConfiguration) :
    DispatchSafe t s' p ↔ DispatchSafe t s p := by
  have hval : ∀ c, s'.val c = s.val c := fun c => by rw [VmState.val, hreg]; rfl
  have hres : restrictedPages s' = restrictedPages s :=
    restrictedBy_congr (fun i => hval _) (hval _) _
  constructor
  · rintro ⟨hc, hm⟩
    exact ⟨hc, by simpa only [hmode, hpmp, PmpFits, hres] using hm⟩
  · rintro ⟨hc, hm⟩
    exact ⟨hc, by simpa only [hmode, hpmp, PmpFits, hres] using hm⟩

theorem trapAndEmulate_returns_iff (hs : s.Ok) (hp : p.Ok) :
    Returns (trapAndEmulate t s p) ↔ TrapSafe t s p := by
  rw [trapAndEmulate, returns_bind]
  constructor
  · rintro ⟨s', hsave, hret⟩
    obtain ⟨hs', hold, hreg, hmode, hpmp⟩ := saveOldPtable_spec hs hp hsave
    exact ⟨(saveOldPtable_returns_iff hp).mp ⟨s', hsave⟩,
      (DispatchSafe.congr hreg hmode hpmp).mp ((dispatch_returns_iff hs' hold hp).mp hret)⟩
  · rintro ⟨hsave, hdis⟩
    have hret : Returns (saveOldPtable t.oldPage s p) := (saveOldPtable_returns_iff hp).mpr hsave
    obtain ⟨s', hs'⟩ := hret
    obtain ⟨hok, hold, hreg, hmode, hpmp⟩ := saveOldPtable_spec hs hp hs'
    exact ⟨s', hs', (dispatch_returns_iff hok hold hp).mpr
      ((DispatchSafe.congr hreg hmode hpmp).mpr hdis)⟩

theorem trapAndEmulate_spec (hs : s.Ok) (hp : p.Ok) {s' : VmState} {p' : Proc}
    (h : trapAndEmulate t s p = .ok (s', p')) : s'.Ok ∧ p'.Ok := by
  obtain ⟨s₁, hsave, h⟩ := bind_ok_iff.mp h
  obtain ⟨hs₁, hold, _⟩ := saveOldPtable_spec hs hp hsave
  exact dispatch_spec hs₁ hold hp h

end Dispatch

/-- The monitor and every running process are in order. -/
structure Machine.Ok (m : Machine) : Prop where
  vm : m.vm.Ok
  procs : ∀ pid p, m.procs pid = .running p → p.Ok

theorem Machine.ok_boot : boot.Ok := ⟨VmState.ok_init, fun _ _ h => by cases h⟩

theorem Machine.Ok.update {m : Machine} (h : m.Ok) {s : VmState} (hs : s.Ok) (pid : ℕ)
    {slot : ProcSlot} (hslot : ∀ p, slot = .running p → p.Ok) :
    (⟨s, Function.update m.procs pid slot⟩ : Machine).Ok := by
  refine ⟨hs, fun q p hq => ?_⟩
  by_cases hpid : q = pid
  · subst hpid
    exact hslot p (by simpa using hq)
  · exact h.procs q p (by simpa [hpid] using hq)

theorem leave_ok {p : Proc} (hp : p.killed = false → p.Ok) :
    ∀ q, leave p = .running q → q.Ok := by
  intro q hq
  cases hk : p.killed with
  | true => simp [leave, hk] at hq
  | false =>
    simp only [leave, hk, Bool.false_eq_true, ↓reduceIte, ProcSlot.running.injEq] at hq
    exact hq ▸ hp hk

theorem usertrap_spec {cause : Cause} {t : TrapInput} {s s' : VmState} {p p' : Proc}
    (hs : s.Ok) (hp : p.Ok) (h : usertrap cause t s p = .ok (s', p')) :
    s'.Ok ∧ (p'.killed = false → p'.Ok) := by
  by_cases he : Emulated cause p
  · rw [usertrap_emulated he] at h
    obtain ⟨hs', hp'⟩ := trapAndEmulate_spec hs (hp.trapped t) h
    exact ⟨hs', fun _ => hp'⟩
  · rcases usertrap_not_emulated he t s with ⟨hu, _⟩ | ⟨hu, _⟩
    · rw [hu] at h
      cases h
      exact ⟨hs, fun _ => hp.trapped t⟩
    · rw [hu] at h
      cases h
      exact ⟨VmState.ok_init, fun hk => by cases hk⟩

theorem step_ok {m m' : Machine} (hm : m.Ok) (e : Event) (h : step m e = .ok m') : m'.Ok := by
  cases e with
  | exec pid img =>
    simp only [step] at h
    split at h
    · cases h
      exact hm.update hm.vm pid fun p hp => by cases hp; exact img.proc_ok
    · cases h
      exact hm
  | trap pid cause t =>
    simp only [step] at h
    split at h
    · next p hp =>
      obtain ⟨⟨s', p'⟩, hu, h⟩ := bind_ok_iff.mp h
      cases h
      obtain ⟨hs', hp'⟩ := usertrap_spec hm.vm (hm.procs pid p hp) hu
      exact hm.update hs' pid (leave_ok hp')
    · cases h
      exact hm
  | kill pid =>
    simp only [step] at h
    split at h
    · next p hp =>
      cases h
      exact hm.update hm.vm pid fun q hq => by cases hq; exact (hm.procs pid p hp).setkilled
    · cases h
      exact hm

theorem VmImage.tableFull (img : VmImage) (t : TrapInput) : (img.proc.trapped t).TableFull := by
  intro r hr
  cases hr
  exact img.full

theorem step_first_trap {m : Machine} {pid : ℕ} {p : Proc} {t : TrapInput}
    (hvm : m.vm = trapAndEmulateInit) (hp : m.procs pid = .running p) (hok : (p.trapped t).Ok)
    (hfull : (p.trapped t).TableFull) :
    ∃ new : PageTable Unit, new.Wf ∧ step m (.trap pid .illegal t) =
      dispatch t (VmState.saved ⟨t.oldPage, new⟩) (p.trapped t) >>= fun r =>
        .ok ⟨r.1, Function.update m.procs pid (leave r.2)⟩ := by
  obtain ⟨new, hwf, heq⟩ := trapAndEmulate_first t hok hfull
  refine ⟨new, hwf, ?_⟩
  simp only [step, hp, usertrap_emulated (Or.inl rfl), hvm, heq]

theorem exec_first_trap (img : VmImage) (pid : ℕ) (t : TrapInput) :
    ∃ new : PageTable Unit, new.Wf ∧
      exec step boot [.exec pid img, .trap pid .illegal t] =
        dispatch t (VmState.saved ⟨t.oldPage, new⟩) (img.proc.trapped t) >>= fun r =>
          .ok ⟨r.1, Function.update (Function.update boot.procs pid (.running img.proc)) pid
            (leave r.2)⟩ := by
  have hp : (⟨trapAndEmulateInit, Function.update boot.procs pid (.running img.proc)⟩ :
      Machine).procs pid = .running img.proc := Function.update_self ..
  obtain ⟨new, hwf, heq⟩ := step_first_trap rfl hp (img.proc_ok.trapped t) (img.tableFull t)
  refine ⟨new, hwf, ?_⟩
  rw [exec_cons]
  change exec step ⟨trapAndEmulateInit, Function.update boot.procs pid (.running img.proc)⟩
    [.trap pid .illegal t] = _
  rw [exec_cons, heq]
  cases dispatch t (VmState.saved ⟨t.oldPage, new⟩) (img.proc.trapped t) <;> rfl

theorem step_illegal {m : Machine} {pid : ℕ} {p : Proc} (hold : m.vm.oldPtable.isSome)
    (hp : m.procs pid = .running p) (t : TrapInput) :
    step m (.trap pid .illegal t) = dispatch t m.vm (p.trapped t) >>= fun r =>
      .ok ⟨r.1, Function.update m.procs pid (leave r.2)⟩ := by
  simp only [step, hp, usertrap_emulated (Or.inl rfl), trapAndEmulate, saveOldPtable_some hold,
    bind, Except.bind]

/-- `mret`. -/
def mretTrap : TrapInput := ⟨0, 0x30200073, fun _ => 0, KallocPage.second, KallocPage.third⟩

theorem dispatch_mretTrap (s : VmState) (p : Proc) :
    dispatch mretTrap s p = handleMret s p mretTrap.newPage := rfl

theorem mretMode_saved (r : TableRef) : mretMode (VmState.saved r) = 0 := by
  have hval : (VmState.saved r).val .mstatus = 0 := rfl
  simp [mretMode, hval]

theorem exec_first_mret (img : VmImage) (pid : ℕ) :
    ∃ (new : PageTable Unit) (m : Machine),
      exec step boot [.exec pid img, .trap pid .illegal mretTrap] = .ok m ∧
      m.vm = mretState (VmState.saved ⟨mretTrap.oldPage, new⟩) ∧
      m.procs pid = .running ((img.proc.trapped mretTrap).setEpc 0) ∧
      ∀ q, q ≠ pid → m.procs q = .absent := by
  obtain ⟨new, _, heq⟩ := exec_first_trap img pid mretTrap
  rw [dispatch_mretTrap, handleMret_machine (VmState.intact_saved _) (le_refl 2)
    (show 0 ≠ 1 by decide)] at heq
  refine ⟨new, _, heq, rfl, Function.update_self .., fun q hq => ?_⟩
  simp [hq, boot]

/-- The condition under which a step does not panic: a trap that is emulated is safe. -/
def StepSafe (m : Machine) : Event → Prop
  | .trap pid cause t =>
      ∀ p, m.procs pid = .running p → Emulated cause p → TrapSafe t m.vm p
  | _ => True

theorem TrapSafe.trapped {t u : TrapInput} {s : VmState} {p : Proc} :
    TrapSafe t s (p.trapped u) ↔ TrapSafe t s p :=
  ⟨fun ⟨h₁, h₂, h₃⟩ => ⟨h₁, h₂, h₃⟩, fun ⟨h₁, h₂, h₃⟩ => ⟨h₁, h₂, h₃⟩⟩

theorem step_returns_iff {m : Machine} (hm : m.Ok) (e : Event) :
    Returns (step m e) ↔ StepSafe m e := by
  cases e with
  | exec pid img =>
    simp only [step, StepSafe, iff_true]
    split <;> exact returns_ok _
  | kill pid =>
    simp only [step, StepSafe, iff_true]
    split <;> exact returns_ok _
  | trap pid cause t =>
    simp only [step, StepSafe]
    split
    · next p hp =>
      have hiff : Returns (usertrap cause t m.vm p) ↔
          (Emulated cause p → TrapSafe t m.vm p) := by
        by_cases he : Emulated cause p
        · simp only [he, forall_const, usertrap_emulated he]
          rw [trapAndEmulate_returns_iff hm.vm ((hm.procs pid p hp).trapped t), TrapSafe.trapped]
        · simp only [he, false_imp_iff, iff_true]
          rcases usertrap_not_emulated he t m.vm with ⟨hu, _⟩ | ⟨hu, _⟩ <;>
            simp [hu]
      simp only [returns_bind, returns_ok, and_true, hp, ProcSlot.running.injEq, forall_eq']
      exact hiff
    · next hne =>
      simp only [returns_ok, true_iff]
      exact fun p hp => absurd hp (hne p)

/-- `csrr a0, 0x123`: no register of the table has this number. -/
def csrrUnknown : TrapInput := ⟨0, 0x12302573, fun _ => 0, KallocPage.second, KallocPage.third⟩

end AdvancedOperatingSystems.TrapEmulate
