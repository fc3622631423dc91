import AdvancedOperatingSystems.TrapEmulate.Privilege

/-!
# An `ecall` and the return from its handler

An `ecall` changes the mode and the pc only: the previous mode and the previous
interrupt enable are not stored. The return takes both from what the status register
happens to hold, and sets the interrupt enable without ever clearing it.
-/

namespace AdvancedOperatingSystems.TrapEmulate

open Foundations Riscv Riscv.PageTable

/-- A VM: the state of the monitor and the process. -/
abbrev Guest := VmState × Proc

structure GuestTrap where
  cause : Cause
  input : TrapInput

def guestStep (g : Guest) (e : GuestTrap) : Except Panic Guest :=
  usertrap e.cause e.input g.1 g.2

inductive Level
  | user
  | supervisor
  deriving DecidableEq, Repr

namespace Level

def mode : Level → ℕ
  | user => 0
  | supervisor => 1

def status : Level → Csr
  | user => .sstatus
  | supervisor => .mstatus

def epc : Level → Csr
  | user => .sepc
  | supervisor => .mepc

def IsReturn : Level → BitVec 32 → Prop
  | user => IsSret
  | supervisor => IsMret

/-- `SIE` and `MIE`. -/
def enable : Level → BitVec 64 → Bool
  | user, v => v.getLsbD 1
  | supervisor, v => v.getLsbD 3

/-- `SPIE` and `MPIE`. -/
def previousEnable : Level → BitVec 64 → Bool
  | user, v => v.getLsbD 5
  | supervisor, v => v.getLsbD 7

/-- `SPP` and `MPP`. -/
def previousMode : Level → BitVec 64 → ℕ
  | user, v => ((v >>> 8) &&& 1).toNat
  | supervisor, v => ((v >>> 11) &&& 3).toNat

def Rewrites (l : Level) (instruction : BitVec 32) : Prop :=
  funct3 instruction = 1 ∧ uimm instruction = l.status.code ∨ l.IsReturn instruction

end Level

/-- An `ecall` of a VM at the given level, the traps of its handler, and the state in
which the handler returns. -/
structure Excursion (l : Level) (g g₁ g₂ : Guest) (call ret : GuestTrap)
    (es : List GuestTrap) : Prop where
  vm : g.1.Ok
  proc : g.2.Ok
  saved : ∃ r, g.1.oldPtable = some r ∧ Full r.table g.2.sz
  alive : g.2.killed = false
  mode : g.1.currentMode = l.mode
  call_ecall : call.cause = .ecall ∧ EntersEcall call.input.instruction
  enters : guestStep g call = .ok g₁
  handler : exec guestStep g₁ es = .ok g₂
  keeps : Guarded guestStep
    (fun g e => g.2.killed = false ∧ ¬ l.Rewrites e.input.instruction) g₁ es
  handler_alive : g₂.2.killed = false
  handler_mode : g₂.1.currentMode = l.mode + 1
  ret_return : ret.cause = .illegal ∧ l.IsReturn ret.input.instruction

/-- After the return the VM is at its former level and at the saved pc, and the interrupt
enable is what it was before the `ecall`. -/
def BackAsBefore (l : Level) (g g₂ : Guest) (ret : GuestTrap) : Prop :=
  ∃ g₃, guestStep g₂ ret = .ok g₃ ∧ g₃.2.killed = false ∧ g₃.1.currentMode = l.mode ∧
    g₃.2.epc = g₂.1.val l.epc ∧ l.enable (g₃.1.val l.status) = l.enable (g.1.val l.status)

/-- The status register names the level as the previous one, and does not have the
previous enable set with the enable clear. -/
def StatusFits (l : Level) (status : BitVec 64) : Prop :=
  l.previousMode status = l.mode ∧ (l.previousEnable status = true → l.enable status = true)

/-- The PMP block of the return, if there is one, does not panic. -/
def PmpReturns (l : Level) (g : Guest) : Prop :=
  l = .supervisor → g.1.pmpConfiguration = 1 → PmpFits g.1 g.2.sz

section Status

theorem sretStatus_enable (s : VmState) :
    (sretStatus s).getLsbD 1 = ((s.val .sstatus).getLsbD 1 || (s.val .sstatus).getLsbD 5) := by
  simp [sretStatus]

theorem mretStatus_enable (s : VmState) :
    (mretStatus s).getLsbD 3 = ((s.val .mstatus).getLsbD 3 || (s.val .mstatus).getLsbD 7) := by
  simp [mretStatus]

theorem sretMode_eq_zero {s : VmState} (hm : s.currentMode = 1) :
    sretMode s = 0 ↔ Level.user.previousMode (s.val .sstatus) = 0 := by
  show _ ↔ ((s.val .sstatus >>> 8) &&& 1).toNat = 0
  unfold sretMode
  split_ifs <;> omega

theorem mretMode_eq_one {s : VmState} (hm : s.currentMode = 2) :
    mretMode s = 1 ↔ Level.supervisor.previousMode (s.val .mstatus) = 1 := by
  show _ ↔ ((s.val .mstatus >>> 11) &&& 3).toNat = 1
  unfold mretMode
  split_ifs <;> omega

theorem or_eq_left_iff (a b : Bool) : (a || b) = a ↔ (b = true → a = true) := by
  revert a b
  decide

end Status

section Handler

variable {l : Level} {v : BitVec 64} {g g' : Guest} {e : GuestTrap} {t : TrapInput}
  {s s' : VmState} {p p' : Proc}

theorem Outcome.machine (h : Outcome t s p s' p') (hm : s.currentMode = 2)
    (hret : ¬ IsMret t.instruction) (halive : p'.killed = false) :
    s'.currentMode = 2 ∧ s'.oldPtable = s.oldPtable ∧ p'.pagetable = p.pagetable ∧
      p'.sz = p.sz := by
  cases h with
  | ecallUser enters mode => omega
  | ecallSupervisor enters mode => omega
  | sret is_sret mode => omega
  | mret is_mret => exact absurd is_mret hret
  | mretPmp is_mret => exact absurd is_mret hret
  | csrw => exact ⟨hm, rfl, rfl, rfl⟩
  | csrr => exact ⟨hm, rfl, rfl, rfl⟩
  | ignored => exact ⟨hm, rfl, rfl, rfl⟩
  | refused q killed =>
    rw [killed] at halive
    cases halive
  | sretRefused => cases halive

/-- An `mret` in machine mode, with or without the PMP block. -/
theorem Outcome.mret_machine (h : Outcome t s p s' p') (hmret : IsMret t.instruction)
    (hm : s.currentMode = 2) : p'.killed = p.killed ∧ s'.currentMode = mretMode s ∧
      p'.epc = s.val .mepc ∧ s'.val .mstatus = mretStatus s := by
  obtain ⟨hfun, h302⟩ := hmret
  have hval : (mretState s).val .mstatus = mretStatus s := by
    simp [mretState, VmState.setVal, VmState.val]
  cases h with
  | ecallUser enters mode => omega
  | ecallSupervisor enters mode => omega
  | sret is_sret mode => omega
  | mret => exact ⟨rfl, rfl, Proc.setEpc_epc _ _, hval⟩
  | mretPmp => exact ⟨rfl, rfl, Proc.setEpc_epc p _, hval⟩
  | csrw c funct => omega
  | csrr c funct => omega
  | ignored funct => omega
  | refused q killed sz frame table privilege =>
    rcases privilege with ⟨henters, -⟩ | ⟨-, hlt⟩ | ⟨hfunct, -⟩ | ⟨hfunct, -⟩
    · exact absurd h302 henters.2.2
    · omega
    · omega
    · omega
  | sretRefused is_sret =>
    have := is_sret.2
    omega

/-- What holds of the VM, as long as it lives, while the handler runs. -/
structure Held (l : Level) (v : BitVec 64) (g : Guest) : Prop where
  vm : g.1.Ok
  proc : g.2.Ok
  saved : g.1.oldPtable.isSome
  status : g.1.val l.status = v
  machine : l = .supervisor → g.1.currentMode = 2 ∧
    ∃ r, g.1.oldPtable = some r ∧ g.2.pagetable = some r ∧ Full r.table g.2.sz

theorem Effect.status_kept (hno : ¬ l.Rewrites t.instruction) (heff : Effect t s p s' p') :
    s'.val l.status = s.val l.status := by
  unfold Level.Rewrites at hno
  rw [not_or] at hno
  cases heff with
  | ecallUser enters mode mode' pc others =>
    cases l <;> exact others _ (by decide)
  | ecallSupervisor enters mode mode' pc others =>
    cases l <;> exact others _ (by decide)
  | write c funct number permitted mode' value others =>
    refine others _ fun heq => hno.1 ⟨funct, ?_⟩
    rw [number, heq]
  | other enters funct mode' others =>
    cases l with
    | user => exact others _ (fun _ => hno.2) fun h => absurd h (by decide)
    | supervisor => exact others _ (fun h => absurd h (by decide)) fun _ => hno.2

theorem Held.step (H : Held l v g) (hno : ¬ l.Rewrites e.input.instruction)
    (h : guestStep g e = .ok g') (halive' : g'.2.killed = false) : Held l v g' := by
  obtain ⟨s', p'⟩ := g'
  obtain ⟨hs', hp'⟩ := usertrap_spec H.vm H.proc h
  obtain ⟨-, hcase⟩ := usertrap_effect H.vm H.proc h halive'
  rcases hcase with ⟨hemu, rfl⟩ | ⟨hemu, hsaved, heff⟩
  · rcases usertrap_not_emulated hemu e.input g.1 with ⟨hu, -⟩ | ⟨hu, -⟩
    · have heq := h.symm.trans hu
      cases heq
      exact ⟨hs', hp' halive', H.saved, H.status, H.machine⟩
    · have hp' := (Prod.mk.inj (Except.ok.inj (h.symm.trans hu))).2
      rw [hp'] at halive'
      cases halive'
  · refine ⟨hs', hp' halive', hsaved, (heff.status_kept hno).trans H.status, fun hl => ?_⟩
    obtain ⟨hm, r, hr, hpt, hfull⟩ := H.machine hl
    have hret : ¬ IsMret e.input.instruction := by
      subst hl
      exact fun hmret => hno (Or.inr hmret)
    have hdis : dispatch e.input g.1 (g.2.trapped e.input) = .ok (s', p') := by
      have h' : usertrap e.cause e.input g.1 g.2 = .ok (s', p') := h
      rw [usertrap_emulated hemu, trapAndEmulate, saveOldPtable_some H.saved] at h'
      exact h'
    obtain ⟨hm', hold', hpt', hsz'⟩ :=
      (dispatch_outcome H.vm.intact H.saved hdis).machine hm hret halive'
    refine ⟨hm', r, hold'.trans hr, hpt'.trans hpt, ?_⟩
    show Full r.table p'.sz
    rw [hsz']
    exact hfull

theorem Held.run {g₁ g₂ : Guest} {es : List GuestTrap} (H : g₁.2.killed = false → Held l v g₁)
    (hkeeps : Guarded guestStep
      (fun g e => g.2.killed = false ∧ ¬ l.Rewrites e.input.instruction) g₁ es)
    (h : exec guestStep g₁ es = .ok g₂) (halive : g₂.2.killed = false) : Held l v g₂ := by
  refine hkeeps.invariant (I := fun g => g.2.killed = false → Held l v g) ?_ H h halive
  intro g e g' hI hg hstep halive'
  exact (hI hg.1).step hg.2 hstep halive'

end Handler

namespace Excursion

variable {l : Level} {g g₁ g₂ : Guest} {call ret : GuestTrap} {es : List GuestTrap}

/-- The handler starts with the status register the `ecall` found. -/
theorem held_entry (X : Excursion l g g₁ g₂ call ret es) :
    Held l (g.1.val l.status) g₁ := by
  obtain ⟨r, hr, hfull⟩ := X.saved
  have hold : g.1.oldPtable.isSome := by simp [hr]
  have hemu : Emulated call.cause g.2 := Or.inr ⟨X.call_ecall.1, X.alive⟩
  have hdis : dispatch call.input g.1 (g.2.trapped call.input) =
      handleEcall g.1 (g.2.trapped call.input) := by
    obtain ⟨hfun, h102, h302⟩ := X.call_ecall.2
    unfold dispatch
    simp only [hfun, if_neg h102, if_neg h302]
  have hstep : guestStep g call = handleEcall g.1 (g.2.trapped call.input) := by
    unfold guestStep
    rw [usertrap_emulated hemu, trapAndEmulate, saveOldPtable_some hold]
    exact hdis
  have henters := X.enters
  rw [hstep] at henters
  obtain ⟨s', p', hok, hs', hp'⟩ := handleEcall_spec X.vm hold (X.proc.trapped call.input)
  have hg₁ : g₁ = (s', p') := Except.ok.inj (henters.symm.trans hok)
  subst hg₁
  cases l with
  | user =>
    rw [handleEcall_user X.vm.intact X.mode] at hok
    cases hok
    exact ⟨hs', hp', hold, setVal_val_ne g.1 (by decide) _, fun h => by cases h⟩
  | supervisor =>
    rw [handleEcall_supervisor X.vm.intact X.mode] at hok
    cases hok
    exact ⟨hs', hp', hold, setVal_val_ne g.1 (by decide) _, fun _ => ⟨rfl, r, hr, hr, hfull⟩⟩

theorem held_return (X : Excursion l g g₁ g₂ call ret es) : Held l (g.1.val l.status) g₂ :=
  Held.run (fun _ => X.held_entry) X.keeps X.handler X.handler_alive

theorem step_return (X : Excursion l g g₁ g₂ call ret es) :
    guestStep g₂ ret = dispatch ret.input g₂.1 (g₂.2.trapped ret.input) := by
  unfold guestStep
  rw [usertrap_emulated (Or.inl X.ret_return.1), trapAndEmulate,
    saveOldPtable_some X.held_return.saved]
  rfl

theorem back_user_iff (X : Excursion .user g g₁ g₂ call ret es) :
    BackAsBefore .user g g₂ ret ↔ StatusFits .user (g.1.val .sstatus) := by
  have H := X.held_return
  have hstatus : g₂.1.val .sstatus = g.1.val .sstatus := H.status
  obtain ⟨hfun, h102⟩ := X.ret_return.2
  have hdis : guestStep g₂ ret = handleSret g₂.1 (g₂.2.trapped ret.input) := by
    rw [X.step_return]
    unfold dispatch
    simp only [hfun, if_pos h102]
  have hmode : g₂.1.currentMode = 1 := X.handler_mode
  rw [handleSret_supervisor H.vm.intact hmode] at hdis
  have hval : (g₂.1.setVal (.reg .sstatus) (sretStatus g₂.1)).val .sstatus = sretStatus g₂.1 := by
    simp [VmState.setVal, VmState.val]
  have henable : Level.user.enable (sretStatus g₂.1) = Level.user.enable (g.1.val .sstatus) ↔
      (Level.user.previousEnable (g.1.val .sstatus) = true →
        Level.user.enable (g.1.val .sstatus) = true) := by
    rw [← or_eq_left_iff, Level.enable, Level.enable, Level.previousEnable, sretStatus_enable,
      hstatus]
  rw [← hval] at henable
  unfold StatusFits
  rw [← henable, ← hstatus]
  constructor
  · rintro ⟨g₃, hok, -, hm, -, hen⟩
    obtain rfl := Except.ok.inj (hok.symm.trans hdis)
    refine ⟨(sretMode_eq_zero hmode).mp hm, ?_⟩
    rw [hstatus]
    exact hen
  · rintro ⟨hm, hen⟩
    rw [hstatus] at hen
    exact ⟨_, hdis, X.handler_alive, (sretMode_eq_zero hmode).mpr hm, Proc.setEpc_epc _ _, hen⟩

theorem step_mret (X : Excursion .supervisor g g₁ g₂ call ret es) :
    guestStep g₂ ret = handleMret g₂.1 (g₂.2.trapped ret.input) ret.input.newPage := by
  obtain ⟨hfun, h302⟩ := X.ret_return.2
  rw [X.step_return]
  unfold dispatch
  simp only [hfun, h302, ↓reduceIte]
  rfl

theorem mret_returns_iff (X : Excursion .supervisor g g₁ g₂ call ret es) :
    Returns (guestStep g₂ ret) ↔ PmpReturns .supervisor g₂ := by
  have H := X.held_return
  obtain ⟨hm, r, -, hpt, hfull⟩ := H.machine rfl
  have htable : (g₂.2.trapped ret.input).TableFull := by
    intro r' hr'
    obtain rfl := Option.some.inj (hpt.symm.trans hr')
    exact hfull
  rw [X.step_mret, handleMret_returns_iff H.vm (H.proc.trapped ret.input)]
  constructor
  · intro h _ hpmp
    exact (h (by omega) hpmp).2
  · intro h _ hpmp
    exact ⟨htable, h rfl hpmp⟩

theorem back_supervisor_iff (X : Excursion .supervisor g g₁ g₂ call ret es) :
    BackAsBefore .supervisor g g₂ ret ↔
      StatusFits .supervisor (g.1.val .mstatus) ∧ PmpReturns .supervisor g₂ := by
  have H := X.held_return
  have hstatus : g₂.1.val .mstatus = g.1.val .mstatus := H.status
  obtain ⟨hmode, -⟩ := H.machine rfl
  have hspec : ∀ g₃, guestStep g₂ ret = .ok g₃ → g₃.2.killed = g₂.2.killed ∧
      g₃.1.currentMode = mretMode g₂.1 ∧ g₃.2.epc = g₂.1.val .mepc ∧
      g₃.1.val .mstatus = mretStatus g₂.1 := by
    intro g₃ hok
    rw [X.step_return] at hok
    exact (dispatch_outcome H.vm.intact H.saved hok).mret_machine X.ret_return.2 hmode
  have henable : Level.supervisor.enable (mretStatus g₂.1) =
      Level.supervisor.enable (g.1.val .mstatus) ↔
      (Level.supervisor.previousEnable (g.1.val .mstatus) = true →
        Level.supervisor.enable (g.1.val .mstatus) = true) := by
    rw [← or_eq_left_iff, Level.enable, Level.enable, Level.previousEnable, mretStatus_enable,
      hstatus]
  unfold StatusFits
  rw [← henable, ← hstatus, ← X.mret_returns_iff]
  constructor
  · rintro ⟨g₃, hok, -, hm, -, hen⟩
    obtain ⟨-, hm₃, -, hval₃⟩ := hspec g₃ hok
    refine ⟨⟨(mretMode_eq_one hmode).mp (hm₃ ▸ hm), ?_⟩, g₃, hok⟩
    rw [← hval₃, hstatus]
    exact hen
  · rintro ⟨⟨hm, hen⟩, g₃, hok⟩
    obtain ⟨hk₃, hm₃, hepc₃, hval₃⟩ := hspec g₃ hok
    refine ⟨g₃, hok, hk₃.trans X.handler_alive, hm₃.trans ((mretMode_eq_one hmode).mpr hm),
      hepc₃, ?_⟩
    rw [← hval₃, hstatus] at hen
    exact hen

end Excursion

/-- A VM is back as before its `ecall` if and only if the status register it made the
`ecall` with names its level as the previous one and does not set its enable by itself,
and the return does not panic in its PMP block. -/
theorem ecall_return_inverse_iff {l : Level} {g g₁ g₂ : Guest} {call ret : GuestTrap}
    {es : List GuestTrap} (X : Excursion l g g₁ g₂ call ret es) :
    BackAsBefore l g g₂ ret ↔ StatusFits l (g.1.val l.status) ∧ PmpReturns l g₂ := by
  cases l with
  | user =>
    have hpmp : PmpReturns .user g₂ := fun h => by cases h
    rw [X.back_user_iff]
    exact (and_iff_left hpmp).symm
  | supervisor => exact X.back_supervisor_iff

section Sample

/-- A VM at the given level with the given status register. -/
def sampleGuest (l : Level) (status : BitVec 64) : Guest :=
  ({ (VmState.saved VmImage.onePage.table).setVal (.reg l.status) status with
      currentMode := l.mode }, VmImage.onePage.proc)

/-- `ecall`. -/
def ecallTrap : GuestTrap :=
  ⟨.ecall, 0, 0x00000073, fun _ => 0, KallocPage.second, KallocPage.third⟩

/-- `sret`. -/
def sretTrap : GuestTrap :=
  ⟨.illegal, 0, 0x10200073, fun _ => 0, KallocPage.second, KallocPage.third⟩

/-- A handler that does nothing but return. -/
theorem sample_excursion (status : BitVec 64) : ∃ g₁,
    Excursion .user (sampleGuest .user status) g₁ g₁ ecallTrap sretTrap [] := by
  have hvm : (sampleGuest .user status).1.Ok := by
    have hok : (VmState.saved VmImage.onePage.table).Ok :=
      ⟨VmState.intact_saved _, fun t ht => by cases ht; exact VmImage.onePage.wf⟩
    have hset := hok.setVal (.reg .sstatus) status
    exact ⟨hset.intact, hset.old_wf⟩
  have henters : EntersEcall ecallTrap.input.instruction := ⟨by decide, by decide, by decide⟩
  have hcall := handleEcall_user (p := (sampleGuest .user status).2.trapped ecallTrap.input)
    hvm.intact rfl
  have hstep : guestStep (sampleGuest .user status) ecallTrap =
      handleEcall (sampleGuest .user status).1
        ((sampleGuest .user status).2.trapped ecallTrap.input) := by
    have hemu : Emulated ecallTrap.cause (sampleGuest .user status).2 := Or.inr ⟨rfl, rfl⟩
    unfold guestStep
    rw [usertrap_emulated hemu, trapAndEmulate, saveOldPtable_some rfl]
    rfl
  rw [← hstep] at hcall
  exact ⟨_, hvm, VmImage.onePage.proc_ok, ⟨_, rfl, VmImage.onePage.full⟩, rfl, rfl,
    ⟨rfl, henters⟩, hcall, rfl, trivial, rfl, rfl, rfl, by decide, by decide⟩

end Sample

/-- The equivalence for a VM in user mode whose `sstatus` is 0. -/
theorem sample_ecall_return_inverse_iff : ∃ g₁,
    BackAsBefore .user (sampleGuest .user 0) g₁ sretTrap ↔
      StatusFits .user ((sampleGuest .user 0).1.val .sstatus) ∧ PmpReturns .user g₁ := by
  obtain ⟨g₁, X⟩ := sample_excursion 0
  exact ⟨g₁, ecall_return_inverse_iff X⟩

/-- With `SPP` set in `sstatus` a VM that makes an `ecall` from user mode does not return
to user mode. -/
theorem stale_spp_keeps_supervisor : ∃ g₁,
    Excursion .user (sampleGuest .user 0x100) g₁ g₁ ecallTrap sretTrap [] ∧
      ¬ BackAsBefore .user (sampleGuest .user 0x100) g₁ sretTrap := by
  obtain ⟨g₁, X⟩ := sample_excursion 0x100
  refine ⟨g₁, X, fun hback => ?_⟩
  have hfits := (X.back_user_iff.mp hback).1
  exact absurd hfits (by decide)

end AdvancedOperatingSystems.TrapEmulate
