import AdvancedOperatingSystems.TrapEmulate.CsrAccess
import AdvancedOperatingSystems.TrapEmulate.Isolation
import AdvancedOperatingSystems.TrapEmulate.Outcome

/-!
# How the virtual privilege rises

The mode of a VM rises in `handle_ecall` alone, by one level and to the vector of the
new level. The run of one VM is audited: next to the machine it carries, for every
register, the mode in which a `csrw` last named it and the value it was given.
`trap_and_emulate` takes every word with a zero `funct3` other than `sret` and `mret`
for an `ecall`, so an illegal instruction can raise the mode as well.
-/

namespace AdvancedOperatingSystems.TrapEmulate

open Foundations Riscv Riscv.PageTable

/-- What `dispatch` can do to a VM that survives it. -/
inductive Effect (t : TrapInput) (s : VmState) (p : Proc) (s' : VmState) (p' : Proc) : Prop
  | ecallUser (enters : EntersEcall t.instruction) (mode : s.currentMode = 0)
      (mode' : s'.currentMode = 1) (pc : p'.epc = s.val .stvec)
      (others : ∀ c, c ≠ .sepc → s'.val c = s.val c)
  | ecallSupervisor (enters : EntersEcall t.instruction) (mode : s.currentMode = 1)
      (mode' : s'.currentMode = 2) (pc : p'.epc = s.val .mtvec)
      (others : ∀ c, c ≠ .mepc → s'.val c = s.val c)
  | write (c : Csr) (funct : funct3 t.instruction = 1) (number : uimm t.instruction = c.code)
      (permitted : c.mode ≤ s.currentMode) (mode' : s'.currentMode = s.currentMode)
      (value : s'.val c = p.trapframe (Proc.regWord (rs1 t.instruction)))
      (others : ∀ d, d ≠ c → s'.val d = s.val d)
  | other (enters : ¬ EntersEcall t.instruction) (funct : funct3 t.instruction ≠ 1)
      (mode' : s'.currentMode ≤ s.currentMode)
      (others : ∀ c, (c = .sstatus → ¬ IsSret t.instruction) →
        (c = .mstatus → ¬ IsMret t.instruction) → s'.val c = s.val c)

section Dispatch

variable {t : TrapInput} {s s' : VmState} {p p' : Proc}

theorem setVal_val_ne (s : VmState) {c d : Csr} (h : d ≠ c) (v : BitVec 64) :
    (s.setVal (.reg c) v).val d = s.val d := by
  simp [VmState.setVal, VmState.val, h]

theorem sretMode_le (hm : s.currentMode = 1) : sretMode s ≤ s.currentMode := by
  unfold sretMode
  split_ifs <;> omega

theorem mretMode_le (hm : 2 ≤ s.currentMode) : mretMode s ≤ s.currentMode := by
  unfold mretMode
  split_ifs <;> omega

theorem Outcome.effect (h : Outcome t s p s' p') (halive : p'.killed = false) :
    p.killed = false ∧ Effect t s p s' p' := by
  cases h with
  | ecallUser enters mode =>
    exact ⟨halive, .ecallUser enters mode rfl (Proc.setEpc_epc _ _) fun c hc => setVal_val_ne s hc _⟩
  | ecallSupervisor enters mode =>
    exact ⟨halive, .ecallSupervisor enters mode rfl (Proc.setEpc_epc p _) fun c hc => setVal_val_ne s hc _⟩
  | sret is_sret mode =>
    have hfun := is_sret.1
    refine ⟨halive, .other (fun he => he.2.1 is_sret.2) (by omega) (sretMode_le mode) ?_⟩
    exact fun c hc _ => setVal_val_ne s (fun heq => hc heq is_sret) _
  | mret is_mret mode flag =>
    have hfun := is_mret.1
    refine ⟨halive, .other (fun he => he.2.2 is_mret.2) (by omega) (mretMode_le mode) ?_⟩
    exact fun c _ hc => mretState_val c fun heq => hc heq is_mret
  | mretPmp is_mret mode flag =>
    have hfun := is_mret.1
    refine ⟨halive, .other (fun he => he.2.2 is_mret.2) (by omega) (mretMode_le mode) ?_⟩
    exact fun c _ hc => mretState_val c fun heq => hc heq is_mret
  | csrw c funct number permitted =>
    exact ⟨halive, .write c funct number permitted rfl (csrwState_val_self _ _ _)
      fun d hd => csrwState_val_ne s hd _⟩
  | csrr c funct number permitted =>
    refine ⟨halive, .other (fun he => ?_) (by omega) le_rfl fun _ _ _ => rfl⟩
    have := he.1
    omega
  | ignored funct =>
    refine ⟨halive, .other (fun he => ?_) (by omega) le_rfl fun _ _ _ => rfl⟩
    have := he.1
    omega
  | refused q killed =>
    rw [killed] at halive
    cases halive
  | sretRefused => cases halive

theorem Effect.congr {s₁ : VmState} (hreg : s₁.reg = s.reg)
    (hmode : s₁.currentMode = s.currentMode) (h : Effect t s₁ p s' p') : Effect t s p s' p' := by
  have hval : ∀ c, s₁.val c = s.val c := fun c => by
    rw [VmState.val, hreg]
    rfl
  cases h with
  | ecallUser enters mode mode' pc others =>
    exact .ecallUser enters (hmode ▸ mode) mode' (hval _ ▸ pc)
      fun c hc => (others c hc).trans (hval c)
  | ecallSupervisor enters mode mode' pc others =>
    exact .ecallSupervisor enters (hmode ▸ mode) mode' (hval _ ▸ pc)
      fun c hc => (others c hc).trans (hval c)
  | write c funct number permitted mode' value others =>
    exact .write c funct number (hmode ▸ permitted) (mode'.trans hmode) value
      fun d hd => (others d hd).trans (hval d)
  | other enters funct mode' others =>
    exact .other enters funct (hmode ▸ mode') fun c h₁ h₂ => (others c h₁ h₂).trans (hval c)

/-- All that a trap can do to a VM that survives it. -/
theorem usertrap_effect {cause : Cause} (hs : s.Ok) (hp : p.Ok)
    (h : usertrap cause t s p = .ok (s', p')) (halive : p'.killed = false) :
    p.killed = false ∧ (¬ Emulated cause p ∧ s' = s ∨
      Emulated cause p ∧ s'.oldPtable.isSome ∧ Effect t s (p.trapped t) s' p') := by
  by_cases hemu : Emulated cause p
  · have hsaved : s'.oldPtable.isSome := by
      rcases usertrap_monitored hs hp (Or.inl hemu) h with ⟨-, hk⟩ | hsaved
      · rw [halive] at hk
        cases hk
      · exact hsaved
    rw [usertrap_emulated hemu] at h
    obtain ⟨s₁, hsave, h⟩ := bind_ok_iff.mp h
    obtain ⟨hs₁, hold, hreg, hmode, -⟩ := saveOldPtable_spec hs (hp.trapped t) hsave
    obtain ⟨hk, heff⟩ := (dispatch_outcome hs₁.intact hold h).effect halive
    exact ⟨hk, Or.inr ⟨hemu, hsaved, heff.congr hreg hmode⟩⟩
  · rcases usertrap_not_emulated hemu t s with ⟨hu, -⟩ | ⟨hu, -⟩
    · rw [hu] at h
      cases h
      exact ⟨halive, Or.inl ⟨hemu, rfl⟩⟩
    · rw [hu] at h
      cases h
      cases halive

end Dispatch

/-- A machine with, for every register, the mode of the last `csrw` that named it and
the value it was given. -/
structure Audit where
  machine : Machine
  lastWrite : Csr → Option (ℕ × BitVec 64)

def Audit.boot : Audit := ⟨TrapEmulate.boot, fun _ => none⟩

/-- The record of writes after an event. -/
def noteWrite (m : Machine) (last : Csr → Option (ℕ × BitVec 64)) : Event →
    Csr → Option (ℕ × BitVec 64)
  | .trap pid cause t, c =>
    match m.procs pid with
    | .running p =>
      if Emulated cause p ∧ funct3 t.instruction = 1 ∧ uimm t.instruction = c.code then
        some (m.vm.currentMode, (p.trapped t).trapframe (Proc.regWord (rs1 t.instruction)))
      else last c
    | _ => last c
  | _, c => last c

def audit (a : Audit) (e : Event) : Except Panic Audit :=
  step a.machine e >>= fun m => .ok ⟨m, noteWrite a.machine a.lastWrite e⟩

def Machine.Alive (m : Machine) (pid : ℕ) (p : Proc) : Prop :=
  m.procs pid = .running p ∧ p.killed = false

/-- The VM has not been started, or it runs and has not been killed. -/
def Machine.Unkilled (m : Machine) (pid : ℕ) : Prop :=
  m.procs pid = .absent ∨ ∃ p, m.Alive pid p

/-- The register is 0 and no `csrw` has named it, or it has the value of the last
`csrw` that did, which was executed in the given mode or a higher one. -/
def Provenance (a : Audit) (c : Csr) (mode : ℕ) : Prop :=
  a.lastWrite c = none ∧ a.machine.vm.val c = 0 ∨
    ∃ k, a.lastWrite c = some (k, a.machine.vm.val c) ∧ mode ≤ k

/-- The mode of a VM that survives a step is one of three, and it has risen at most at
an `ecall`, to the next level and to the vector of that level. -/
structure Privileged (a : Audit) (e : Event) (a' : Audit) (p' : Proc) : Prop where
  mode_le : a'.machine.vm.currentMode ≤ 2
  ecall : a.machine.vm.currentMode < a'.machine.vm.currentMode → ∃ pid t, e = .trap pid .ecall t
  level : a.machine.vm.currentMode < a'.machine.vm.currentMode →
    a'.machine.vm.currentMode = a.machine.vm.currentMode + 1
  user : a.machine.vm.currentMode < a'.machine.vm.currentMode → a.machine.vm.currentMode = 0 →
    p'.epc = a.machine.vm.val .stvec ∧ Provenance a .stvec 1
  supervisor : a.machine.vm.currentMode < a'.machine.vm.currentMode →
    a.machine.vm.currentMode = 1 → p'.epc = a.machine.vm.val .mtvec ∧ Provenance a .mtvec 2

/-- The step raises the mode of the VM, if it survives, only as it should. -/
def StepPrivileged (pid : ℕ) (a : Audit) (e : Event) : Prop :=
  ∀ a' p', audit a e = .ok a' → a'.machine.Alive pid p' → Privileged a e a' p'

/-- Below machine mode no illegal instruction is one that `handle_ecall` is called for. -/
def EcallsGenuine (pid : ℕ) (a : Audit) (e : Event) : Prop :=
  ∀ p t, a.machine.Alive pid p → e = .trap pid .illegal t → EntersEcall t.instruction →
    2 ≤ a.machine.vm.currentMode

/-- What holds along the run of one VM as long as it has not been killed. -/
structure Audited (pid : ℕ) (a : Audit) : Prop where
  ok : a.machine.Ok
  mode_le : a.machine.Unkilled pid → a.machine.vm.currentMode ≤ 2
  /-- A mode below that of the initial state has been entered by a trap. -/
  saved : a.machine.Unkilled pid → a.machine.vm.currentMode < 2 → a.machine.vm.oldPtable.isSome
  stvec : a.machine.Unkilled pid → Provenance a .stvec 1
  mtvec : a.machine.Unkilled pid → Provenance a .mtvec 2

theorem audited_boot (pid : ℕ) : Audited pid Audit.boot where
  ok := Machine.ok_boot
  mode_le _ := le_rfl
  saved _ h := absurd h (lt_irrefl 2)
  stvec _ := Or.inl ⟨rfl, rfl⟩
  mtvec _ := Or.inl ⟨rfl, rfl⟩

section Step

variable {pid : ℕ} {a a' : Audit} {e : Event} {p p' : Proc} {cause : Cause} {t : TrapInput}

theorem leave_running (h : leave p = .running p') : p' = p ∧ p.killed = false := by
  unfold leave at h
  cases hk : p.killed with
  | true => simp [hk] at h
  | false =>
    simp only [hk, Bool.false_eq_true, ↓reduceIte, ProcSlot.running.injEq] at h
    exact ⟨h.symm, rfl⟩

/-- A VM that has survived a trap. -/
theorem audit_trap_alive (hok : a.machine.Ok) (h : audit a (.trap pid cause t) = .ok a')
    (halive : a'.machine.Alive pid p') :
    ∃ p, a.machine.Alive pid p ∧
      (¬ Emulated cause p ∧ a'.machine.vm = a.machine.vm ∨
        Emulated cause p ∧ a'.machine.vm.oldPtable.isSome ∧
          Effect t a.machine.vm (p.trapped t) a'.machine.vm p') := by
  obtain ⟨m, hstep, h⟩ := bind_ok_iff.mp h
  cases h
  unfold step at hstep
  cases hp : a.machine.procs pid with
  | absent =>
    simp only [hp] at hstep
    cases hstep
    exact absurd (hp.symm.trans halive.1) (by simp)
  | zombie q =>
    simp only [hp] at hstep
    cases hstep
    exact absurd (hp.symm.trans halive.1) (by simp)
  | running p =>
    simp only [hp] at hstep
    obtain ⟨⟨s', q⟩, hu, hstep⟩ := bind_ok_iff.mp hstep
    cases hstep
    have hleave : leave q = .running p' := by
      have := halive.1
      simpa using this
    obtain ⟨rfl, hk⟩ := leave_running hleave
    obtain ⟨hkp, heff⟩ := usertrap_effect hok.vm (hok.procs pid p hp) hu hk
    exact ⟨p, ⟨hp, hkp⟩, heff⟩

/-- Every event but a trap leaves the monitor's state and the record as they are, and the
VM it is about was not dead if it lives afterwards. -/
theorem audit_other (hpid : e.pid = pid) (hne : ∀ cause t, e ≠ .trap pid cause t)
    (h : audit a e = .ok a') :
    a'.machine.vm = a.machine.vm ∧ a'.lastWrite = a.lastWrite ∧
      (a'.machine.Unkilled pid → a.machine.Unkilled pid) := by
  obtain ⟨m, hstep, h⟩ := bind_ok_iff.mp h
  cases h
  subst hpid
  cases e with
  | trap pid cause t => exact absurd rfl (hne cause t)
  | exec pid img =>
    unfold step at hstep
    cases hp : a.machine.procs pid with
    | absent =>
      simp only [hp] at hstep
      cases hstep
      exact ⟨rfl, rfl, fun _ => Or.inl hp⟩
    | _ =>
      simp only [hp] at hstep
      cases hstep
      exact ⟨rfl, rfl, id⟩
  | kill pid =>
    unfold step at hstep
    cases hp : a.machine.procs pid with
    | running q =>
      simp only [hp] at hstep
      cases hstep
      refine ⟨rfl, rfl, fun hlive => ?_⟩
      rcases hlive with habs | ⟨p, hp', hk⟩
      · simp [Event.pid] at habs
      · simp only [Event.pid, Function.update_self, ProcSlot.running.injEq] at hp'
        rw [← hp'] at hk
        cases hk
    | _ =>
      simp only [hp] at hstep
      cases hstep
      exact ⟨rfl, rfl, id⟩

/-- A trap of a VM that has not been started has no effect. -/
theorem audit_trap_absent (h : audit a (.trap pid cause t) = .ok a')
    (habs : a'.machine.procs pid = .absent) : a' = a := by
  obtain ⟨m, hstep, h⟩ := bind_ok_iff.mp h
  cases h
  unfold step at hstep
  cases hp : a.machine.procs pid with
  | absent =>
    simp only [hp] at hstep
    cases hstep
    have hlast : noteWrite a.machine a.lastWrite (.trap pid cause t) = a.lastWrite := by
      funext c
      simp only [noteWrite, hp]
    rw [hlast]
  | zombie q =>
    simp only [hp] at hstep
    cases hstep
    exact absurd (hp.symm.trans habs) (by simp)
  | running p =>
    simp only [hp] at hstep
    obtain ⟨⟨s', q⟩, -, hstep⟩ := bind_ok_iff.mp hstep
    cases hstep
    simp only [Function.update_self, leave] at habs
    split_ifs at habs

theorem audit_lastWrite (h : audit a e = .ok a') :
    a'.lastWrite = noteWrite a.machine a.lastWrite e := by
  obtain ⟨m, -, h⟩ := bind_ok_iff.mp h
  cases h
  rfl

/-- A register that no return changes keeps a value of known origin. -/
theorem Provenance.step {c : Csr} (hprov : Provenance a c c.mode)
    (hc : c ≠ .sepc ∧ c ≠ .mepc ∧ c ≠ .sstatus ∧ c ≠ .mstatus)
    (hp : a.machine.procs pid = .running p) (hemu : Emulated cause p)
    (heff : Effect t a.machine.vm (p.trapped t) a'.machine.vm p')
    (hlast : a'.lastWrite = noteWrite a.machine a.lastWrite (.trap pid cause t)) :
    Provenance a' c c.mode := by
  have hkept : (funct3 t.instruction = 1 → uimm t.instruction ≠ c.code) →
      a'.machine.vm.val c = a.machine.vm.val c → Provenance a' c c.mode := by
    intro hno hval
    have hlast' : a'.lastWrite c = a.lastWrite c := by
      rw [hlast]
      simp only [noteWrite, hp, hemu, true_and]
      exact if_neg fun h => hno h.1 h.2
    unfold Provenance
    rw [hlast', hval]
    exact hprov
  cases heff with
  | ecallUser enters mode mode' pc others =>
    exact hkept (fun hf => by have := enters.1; omega) (others c hc.1)
  | ecallSupervisor enters mode mode' pc others =>
    exact hkept (fun hf => by have := enters.1; omega) (others c hc.2.1)
  | other enters funct mode' others =>
    exact hkept (fun hf => absurd hf funct)
      (others c (fun h => absurd h hc.2.2.1) fun h => absurd h hc.2.2.2)
  | write d funct number permitted mode' value others =>
    by_cases hd : c = d
    · subst hd
      refine Or.inr ⟨a.machine.vm.currentMode, ?_, permitted⟩
      rw [hlast, value]
      simp only [noteWrite, hp]
      exact if_pos ⟨hemu, funct, number⟩
    · exact hkept (fun _ heq => hd (Csr.code_injective (heq.symm.trans number))) (others c hd)

theorem Audited.trap (I : Audited pid a) (h : audit a (.trap pid cause t) = .ok a') :
    Audited pid a' := by
  have hlast := audit_lastWrite h
  have hok : a'.machine.Ok := by
    obtain ⟨m, hstep, h⟩ := bind_ok_iff.mp h
    cases h
    exact step_ok I.ok _ hstep
  have hall : a'.machine.Unkilled pid → a'.machine.vm.currentMode ≤ 2 ∧
      (a'.machine.vm.currentMode < 2 → a'.machine.vm.oldPtable.isSome) ∧
      Provenance a' .stvec 1 ∧ Provenance a' .mtvec 2 := by
    rintro (habs | ⟨p', halive⟩)
    · obtain rfl := audit_trap_absent h habs
      have hun : a'.machine.Unkilled pid := Or.inl habs
      exact ⟨I.mode_le hun, I.saved hun, I.stvec hun, I.mtvec hun⟩
    · obtain ⟨p, hp, hcase⟩ := audit_trap_alive I.ok h halive
      have hun : a.machine.Unkilled pid := Or.inr ⟨p, hp⟩
      rcases hcase with ⟨hemu, hvm⟩ | ⟨hemu, hsaved, heff⟩
      · have hlast' : a'.lastWrite = a.lastWrite := by
          rw [hlast]
          funext c
          simp only [noteWrite, hp.1]
          exact if_neg fun hn => hemu hn.1
        unfold Provenance
        rw [hvm, hlast']
        exact ⟨I.mode_le hun, I.saved hun, I.stvec hun, I.mtvec hun⟩
      · refine ⟨?_, fun _ => hsaved, ?_, ?_⟩
        · have := I.mode_le hun
          cases heff with
          | ecallUser => omega
          | ecallSupervisor => omega
          | write => omega
          | other => omega
        · exact (I.stvec hun).step (by decide) hp.1 hemu heff hlast
        · exact (I.mtvec hun).step (by decide) hp.1 hemu heff hlast
  exact ⟨hok, fun h => (hall h).1, fun h => (hall h).2.1, fun h => (hall h).2.2.1,
    fun h => (hall h).2.2.2⟩

theorem Audited.step (I : Audited pid a) (hpid : e.pid = pid) (h : audit a e = .ok a') :
    Audited pid a' := by
  by_cases htrap : ∃ cause t, e = .trap pid cause t
  · obtain ⟨cause, t, rfl⟩ := htrap
    exact I.trap h
  · obtain ⟨hvm, hlast, hun⟩ := audit_other hpid (fun cause t heq => htrap ⟨cause, t, heq⟩) h
    have hok : a'.machine.Ok := by
      obtain ⟨m, hstep, h⟩ := bind_ok_iff.mp h
      cases h
      exact step_ok I.ok _ hstep
    have hprov : ∀ c k, Provenance a c k → Provenance a' c k := by
      intro c k hprov
      unfold Provenance
      rw [hvm, hlast]
      exact hprov
    refine ⟨hok, fun h => ?_, fun h => ?_, fun h => hprov _ _ (I.stvec (hun h)),
      fun h => hprov _ _ (I.mtvec (hun h))⟩
    · rw [hvm]
      exact I.mode_le (hun h)
    · rw [hvm]
      exact I.saved (hun h)

theorem machine_alive_of_leave {s : VmState} {procs : ℕ → ProcSlot} {q : Proc}
    (hk : q.killed = false) :
    (⟨s, Function.update procs pid (leave q)⟩ : Machine).Alive pid q := by
  refine ⟨?_, hk⟩
  simp [leave, hk]

/-- An illegal instruction that enters `handle_ecall` below machine mode raises the mode. -/
theorem audit_false_ecall (I : Audited pid a) (hp : a.machine.Alive pid p)
    (henters : EntersEcall t.instruction) (hm : a.machine.vm.currentMode < 2) :
    ∃ a' p', audit a (.trap pid .illegal t) = .ok a' ∧ a'.machine.Alive pid p' ∧
      a.machine.vm.currentMode < a'.machine.vm.currentMode := by
  have hold := I.saved (Or.inr ⟨p, hp⟩) hm
  have hstep := step_illegal hold hp.1 t
  have hdis : dispatch t a.machine.vm (p.trapped t) =
      handleEcall a.machine.vm (p.trapped t) := by
    unfold dispatch
    simp only [henters.1, if_neg henters.2.1, if_neg henters.2.2]
  have hmode : a.machine.vm.currentMode = 0 ∨ a.machine.vm.currentMode = 1 := by omega
  rcases hmode with h₀ | h₁
  · rw [hdis, handleEcall_user I.ok.vm.intact h₀] at hstep
    refine ⟨_, _, bind_ok_iff.mpr ⟨_, hstep, rfl⟩, machine_alive_of_leave hp.2, ?_⟩
    rw [h₀]
    exact Nat.zero_lt_one
  · rw [hdis, handleEcall_supervisor I.ok.vm.intact h₁] at hstep
    refine ⟨_, _, bind_ok_iff.mpr ⟨_, hstep, rfl⟩, machine_alive_of_leave hp.2, ?_⟩
    rw [h₁]
    exact Nat.one_lt_two

theorem stepPrivileged_iff (I : Audited pid a) (hpid : e.pid = pid) :
    StepPrivileged pid a e ↔ EcallsGenuine pid a e := by
  constructor
  · rintro h p t hp rfl henters
    by_contra hm
    obtain ⟨a', p', ha', hp', hlt⟩ := audit_false_ecall I hp henters (Nat.lt_of_not_le hm)
    obtain ⟨_, _, hcall⟩ := (h a' p' ha' hp').ecall hlt
    cases hcall
  · intro h a' p' ha' hp'
    have hle := (I.step hpid ha').mode_le (Or.inr ⟨p', hp'⟩)
    by_cases htrap : ∃ cause t, e = .trap pid cause t
    · obtain ⟨cause, t, rfl⟩ := htrap
      obtain ⟨p, hp, hcase⟩ := audit_trap_alive I.ok ha' hp'
      have hun : a.machine.Unkilled pid := Or.inr ⟨p, hp⟩
      rcases hcase with ⟨-, hvm⟩ | ⟨hemu, -, heff⟩
      · rw [hvm] at hle
        have hno : ¬ a.machine.vm.currentMode < a'.machine.vm.currentMode := by
          rw [hvm]
          exact lt_irrefl _
        exact ⟨hvm ▸ hle, fun h => absurd h hno, fun h => absurd h hno, fun h => absurd h hno,
          fun h => absurd h hno⟩
      · have hcause : EntersEcall t.instruction → a.machine.vm.currentMode < 2 →
            cause = .ecall := by
          intro henters hm
          rcases hemu with rfl | ⟨rfl, -⟩
          · have := h p t hp rfl henters
            omega
          · rfl
        cases heff with
        | ecallUser enters mode mode' pc others =>
          obtain rfl := hcause enters (by omega)
          exact ⟨hle, fun _ => ⟨pid, t, rfl⟩, fun _ => by omega, fun _ _ => ⟨pc, I.stvec hun⟩,
            fun _ h₁ => by omega⟩
        | ecallSupervisor enters mode mode' pc others =>
          obtain rfl := hcause enters (by omega)
          exact ⟨hle, fun _ => ⟨pid, t, rfl⟩, fun _ => by omega, fun _ h₀ => by omega,
            fun _ _ => ⟨pc, I.mtvec hun⟩⟩
        | write c funct number permitted mode' value others =>
          exact ⟨hle, fun _ => by omega, fun _ => by omega, fun _ => by omega, fun _ => by omega⟩
        | other enters funct mode' others =>
          exact ⟨hle, fun _ => by omega, fun _ => by omega, fun _ => by omega, fun _ => by omega⟩
    · obtain ⟨hvm, -, -⟩ := audit_other hpid (fun cause t heq => htrap ⟨cause, t, heq⟩) ha'
      have hno : ¬ a.machine.vm.currentMode < a'.machine.vm.currentMode := by
        rw [hvm]
        exact lt_irrefl _
      exact ⟨hle, fun h => absurd h hno, fun h => absurd h hno, fun h => absurd h hno,
        fun h => absurd h hno⟩

end Step

/-- In the run of one VM every step raises its mode only as it should if and only if
every illegal instruction dispatched to `handle_ecall` is executed in machine mode. -/
theorem mode_rises_only_at_ecall_iff (pid : ℕ) (es : List Event) :
    Guarded audit (StepPrivileged pid) Audit.boot (soloEvents pid es) ↔
      Guarded audit (EcallsGenuine pid) Audit.boot (soloEvents pid es) := by
  have hpid : ∀ e ∈ soloEvents pid es, e.pid = pid := by
    intro e he
    simpa using (List.mem_filter.mp he).2
  have hdomain : Guarded audit (fun _ e => e.pid = pid) Audit.boot (soloEvents pid es) :=
    guarded_of_forall hpid
  refine guarded_congr (I := Audited pid) ?_ ?_ (audited_boot pid) hdomain
  · intro a e I he
    exact stepPrivileged_iff I he
  · intro a e a' I he _ h
    exact I.step he h

theorem exec_audit {a : Audit} {es : List Event} {m : Machine}
    (h : exec step a.machine es = .ok m) : ∃ a', exec audit a es = .ok a' ∧ a'.machine = m := by
  induction es generalizing a with
  | nil =>
    cases h
    exact ⟨a, rfl, rfl⟩
  | cons e es ih =>
    obtain ⟨m₁, hstep, h⟩ := bind_ok_iff.mp h
    have haudit : audit a e = .ok ⟨m₁, noteWrite a.machine a.lastWrite e⟩ :=
      bind_ok_iff.mpr ⟨m₁, hstep, rfl⟩
    obtain ⟨a', ha', hm⟩ := ih (a := ⟨m₁, noteWrite a.machine a.lastWrite e⟩) h
    exact ⟨a', bind_ok_iff.mpr ⟨_, haudit, ha'⟩, hm⟩

/-- `sfence.vma`. -/
def sfenceVma : TrapInput := ⟨0, 0x12000073, fun _ => 0, KallocPage.second, KallocPage.third⟩

/-- A VM in user mode executes `sfence.vma` and is in supervisor mode. -/
theorem sfence_raises_mode : ¬ Guarded audit (StepPrivileged 1) Audit.boot
    (soloEvents 1 ([.exec 1 VmImage.onePage, .trap 1 .illegal mretTrap] ++
      [.trap 1 .illegal sfenceVma])) := by
  obtain ⟨new, m, heq, hvm, hp, -⟩ := exec_first_mret VmImage.onePage 1
  have hsolo : soloEvents 1 ([.exec 1 VmImage.onePage, .trap 1 .illegal mretTrap] ++
      [.trap 1 .illegal sfenceVma]) = [.exec 1 VmImage.onePage, .trap 1 .illegal mretTrap] ++
      [.trap 1 .illegal sfenceVma] := by simp [soloEvents, Event.pid]
  rw [hsolo]
  intro hg
  obtain ⟨a, ha, ham⟩ := exec_audit (a := Audit.boot) heq
  have hpid : Guarded audit (fun _ e => e.pid = 1) Audit.boot
      [.exec 1 VmImage.onePage, .trap 1 .illegal mretTrap] :=
    guarded_of_forall (by simp [Event.pid])
  have I : Audited 1 a := hpid.invariant (fun _ _ _ I he h => I.step he h) (audited_boot 1) ha
  have hgenuine := (stepPrivileged_iff I rfl).mp (hg.last ha)
  have halive : a.machine.Alive 1 ((VmImage.onePage.proc.trapped mretTrap).setEpc 0) := by
    rw [ham]
    exact ⟨hp, rfl⟩
  have henters : EntersEcall sfenceVma.instruction := ⟨by decide, by decide, by decide⟩
  have hmode := hgenuine _ sfenceVma halive rfl henters
  rw [ham, hvm] at hmode
  have hzero : (mretState (VmState.saved ⟨mretTrap.oldPage, new⟩)).currentMode = 0 :=
    mretMode_saved _
  omega

end AdvancedOperatingSystems.TrapEmulate
