import AdvancedOperatingSystems.TrapEmulate.HostSafety

/-!
# VMs that share the monitor

There is one `vm_state` for all VMs. Each run is compared with the run in which
one VM is alone: the events of that VM and no others. `Watched` adds to the
machine the VM whose trap last left a table saved. As long as traps reach the
monitor only in a fresh state or in one left by the same VM, every VM sees what
it would see alone. A VM that is killed by `kill` leaves its state behind.
-/

namespace AdvancedOperatingSystems.TrapEmulate

open Foundations Riscv Riscv.PageTable

def Event.pid : Event → ℕ
  | .exec pid _ => pid
  | .trap pid _ _ => pid
  | .kill pid => pid

def soloEvents (pid : ℕ) (es : List Event) : List Event := es.filter fun e => e.pid = pid

instance (cause : Cause) (p : Proc) : Decidable (Emulated cause p) :=
  inferInstanceAs (Decidable (_ ∨ _))

/-- The event is a trap of a running VM that the monitor handles: it is emulated
or it ends the VM. -/
def Handled : Event → ProcSlot → Prop
  | .trap _ cause _, .running p => Emulated cause p ∨ cause = .other
  | _, _ => False

instance (e : Event) (slot : ProcSlot) : Decidable (Handled e slot) := by
  unfold Handled
  split <;> infer_instance

def Traps : Event → ProcSlot → Prop
  | .trap _ _ _, .running _ => True
  | _, _ => False

theorem Handled.traps {e : Event} {slot : ProcSlot} (h : Handled e slot) : Traps e slot := by
  cases e with
  | trap pid cause t =>
    cases slot with
    | running p => trivial
    | _ => cases h
  | _ => cases h

/-- A machine together with the VM its `vm_state` belongs to. -/
structure Watched where
  machine : Machine
  owner : Option ℕ

def Watched.boot : Watched := ⟨TrapEmulate.boot, none⟩

/-- A step of the machine. The state belongs to the VM whose trap was handled
last, and to nobody when that trap left it freshly initialised. -/
def watch (w : Watched) (e : Event) : Except Panic Watched :=
  step w.machine e >>= fun m =>
    .ok ⟨m, if Handled e (w.machine.procs e.pid) then
        if m.vm.oldPtable.isSome then some e.pid else none
      else w.owner⟩

/-- A trap, handled by the monitor or not, finds a fresh state or the state of the same VM. -/
def OwnState (w : Watched) (e : Event) : Prop :=
  Traps e (w.machine.procs e.pid) → w.owner = none ∨ w.owner = some e.pid

theorem watch_of_step {w : Watched} {e : Event} {m : Machine} (h : step w.machine e = .ok m) :
    ∃ w', watch w e = .ok w' ∧ w'.machine = m :=
  ⟨_, bind_ok_iff.mpr ⟨m, h, rfl⟩, rfl⟩

section Traps

variable {s s' : VmState} {p p' : Proc} {t : TrapInput}

/-- The VM is ended and the monitor freshly initialised, or the saved table stays. -/
def EndedOrKept (s s' : VmState) (p' : Proc) : Prop :=
  s' = trapAndEmulateInit ∧ p'.killed = true ∨ s'.oldPtable = s.oldPtable

theorem handleSret_kept (hs : s.Intact) (h : handleSret s p = .ok (s', p')) :
    EndedOrKept s s' p' := by
  by_cases hm : s.currentMode = 1
  · rw [handleSret_supervisor hs hm] at h
    cases h
    exact Or.inr rfl
  · rw [handleSret_other hm] at h
    cases h
    exact Or.inl ⟨rfl, rfl⟩

theorem handleEcall_kept (hs : s.Intact) (h : handleEcall s p = .ok (s', p')) :
    EndedOrKept s s' p' := by
  by_cases h₀ : s.currentMode = 0
  · rw [handleEcall_user hs h₀] at h
    cases h
    exact Or.inr rfl
  · by_cases h₁ : s.currentMode = 1
    · rw [handleEcall_supervisor hs h₁] at h
      cases h
      exact Or.inr rfl
    · rw [handleEcall_machine (by omega)] at h
      cases h
      exact Or.inl ⟨rfl, rfl⟩

theorem mretPmp_kept {page : KallocPage} (h : mretPmp s p page = .ok (s', p')) :
    s'.oldPtable = s.oldPtable := by
  obtain ⟨old, -, h⟩ := bind_ok_iff.mp h
  obtain ⟨new, -, h⟩ := bind_ok_iff.mp h
  obtain ⟨new', -, h⟩ := bind_ok_iff.mp h
  cases h
  rfl

theorem handleMret_kept {page : KallocPage} (hs : s.Intact)
    (h : handleMret s p page = .ok (s', p')) : EndedOrKept s s' p' := by
  by_cases hm : 2 ≤ s.currentMode
  · by_cases hpmp : s.pmpConfiguration = 1
    · rw [handleMret_returns_pmp hs hm hpmp] at h
      have hkept := mretPmp_kept h
      exact Or.inr hkept
    · rw [handleMret_machine hs hm hpmp] at h
      cases h
      exact Or.inr rfl
  · rw [handleMret_other hm] at h
    cases h
    exact Or.inl ⟨rfl, rfl⟩

theorem handleCsrw_kept (hs : s.Intact) (hold : s.oldPtable.isSome) {r : BitVec 5} {csr : ℕ}
    (hcsr : csr < 2 ^ 12) (h : handleCsrw s p r csr = .ok (s', p')) : EndedOrKept s s' p' := by
  by_cases hc : ∃ c : Csr, c.code = csr
  · obtain ⟨c, rfl⟩ := hc
    by_cases hm : c.mode ≤ s.currentMode
    · rw [handleCsrw_permitted hs _ hm] at h
      cases h
      exact Or.inr rfl
    · rw [handleCsrw_refused hs _ hm] at h
      cases h
      exact Or.inl ⟨rfl, rfl⟩
  · rw [handleCsrw_unknown hs hold hcsr (fun c hcode => hc ⟨c, hcode⟩)] at h
    cases h
    exact Or.inl ⟨rfl, rfl⟩

theorem handleCsrr_kept (hs : s.Intact) (hold : s.oldPtable.isSome) {r : BitVec 5} {csr : ℕ}
    (hcsr : csr < 2 ^ 12) (h : handleCsrr s p r csr = .ok (s', p')) : EndedOrKept s s' p' := by
  by_cases hc : ∃ c : Csr, c.code = csr
  · obtain ⟨c, rfl⟩ := hc
    rw [handleCsrr_code hs] at h
    split_ifs at h
    · cases h
      exact Or.inr rfl
    · cases h
      exact Or.inl ⟨rfl, rfl⟩
  · rw [handleCsrr_unknown hs hold hcsr (fun c hcode => hc ⟨c, hcode⟩)] at h
    cases h

theorem dispatch_kept (hs : s.Intact) (hold : s.oldPtable.isSome)
    (h : dispatch t s p = .ok (s', p')) : EndedOrKept s s' p' := by
  unfold dispatch at h
  split at h
  · split_ifs at h
    · exact handleSret_kept hs h
    · exact handleMret_kept hs h
    · exact handleEcall_kept hs h
  · exact handleCsrw_kept hs hold (uimm_lt _) h
  · exact handleCsrr_kept hs hold (uimm_lt _) h
  · cases h
    exact Or.inr rfl

theorem usertrap_monitored {cause : Cause} (hs : s.Ok) (hp : p.Ok)
    (hmon : Emulated cause p ∨ cause = .other) (h : usertrap cause t s p = .ok (s', p')) :
    s' = trapAndEmulateInit ∧ p'.killed = true ∨ s'.oldPtable.isSome := by
  by_cases hemu : Emulated cause p
  · rw [usertrap_emulated hemu] at h
    obtain ⟨s₁, hsave, hdis⟩ := bind_ok_iff.mp h
    obtain ⟨hs₁, hold, -⟩ := saveOldPtable_spec hs (hp.trapped t) hsave
    rcases dispatch_kept hs₁.intact hold hdis with hend | hkept
    · exact Or.inl hend
    · exact Or.inr (hkept ▸ hold)
  · obtain rfl := hmon.resolve_left hemu
    cases h
    exact Or.inl ⟨rfl, rfl⟩

theorem usertrap_unmonitored {cause : Cause} (hmon : ¬ (Emulated cause p ∨ cause = .other)) :
    usertrap cause t s p = .ok (s, p.trapped t) := by
  rw [not_or] at hmon
  rcases usertrap_not_emulated hmon.1 t s with h | h
  · exact h.1
  · exact absurd h.2 hmon.2

end Traps

section Slots

/-- The effect of an event on the monitor and on the process it is about. -/
def slotStep (e : Event) (s : VmState) (slot : ProcSlot) : Except Panic (VmState × ProcSlot) :=
  match e, slot with
  | .exec _ img, .absent => .ok (s, .running img.proc)
  | .trap _ cause t, .running p => usertrap cause t s p >>= fun r => .ok (r.1, leave r.2)
  | .kill _, .running p => .ok (s, .running p.setkilled)
  | _, slot => .ok (s, slot)

theorem step_eq (m : Machine) (e : Event) :
    step m e = slotStep e m.vm (m.procs e.pid) >>= fun r =>
      .ok ⟨r.1, Function.update m.procs e.pid r.2⟩ := by
  cases e with
  | exec pid img =>
    simp only [step, Event.pid]
    cases h : m.procs pid <;> simp [slotStep, bind, Except.bind, ← h]
  | trap pid cause t =>
    simp only [step, Event.pid]
    cases h : m.procs pid with
    | running p =>
      simp only [slotStep]
      cases usertrap cause t m.vm p <;> rfl
    | _ => simp [slotStep, bind, Except.bind, ← h]
  | kill pid =>
    simp only [step, Event.pid]
    cases h : m.procs pid <;> simp [slotStep, bind, Except.bind, ← h]

variable {e : Event} {s s' : VmState} {slot slot' : ProcSlot}

theorem slotStep_unhandled (hno : ¬ Handled e slot) (h : slotStep e s slot = .ok (s', slot')) :
    s' = s ∧ (∀ s₁, slotStep e s₁ slot = .ok (s₁, slot')) ∧
      ((∀ p, slot' ≠ .zombie p) → ∀ p, slot ≠ .zombie p) := by
  cases e with
  | exec pid img =>
    cases slot <;> cases h <;> exact ⟨rfl, fun _ => rfl, by simp⟩
  | kill pid =>
    cases slot <;> cases h <;> exact ⟨rfl, fun _ => rfl, by simp⟩
  | trap pid cause t =>
    cases slot with
    | running p =>
      have hu : ∀ s₁, slotStep (.trap pid cause t) s₁ (.running p) =
          .ok (s₁, leave (p.trapped t)) := fun s₁ => by
        simp [slotStep, usertrap_unmonitored (s := s₁) (t := t) hno, bind, Except.bind]
      rw [hu] at h
      cases h
      exact ⟨rfl, hu, by simp⟩
    | _ => cases h; exact ⟨rfl, fun _ => rfl, by simp⟩

theorem slotStep_handled (hyes : Handled e slot) (hs : s.Ok)
    (hslot : ∀ p, slot = .running p → p.Ok) (h : slotStep e s slot = .ok (s', slot')) :
    s' = trapAndEmulateInit ∨ s'.oldPtable.isSome := by
  cases e with
  | exec pid img => cases slot <;> cases hyes
  | kill pid => cases slot <;> cases hyes
  | trap pid cause t =>
    cases slot with
    | running p =>
      obtain ⟨⟨s₁, p₁⟩, hu, h⟩ := bind_ok_iff.mp h
      cases h
      exact (usertrap_monitored hs (hslot p rfl) hyes hu).imp_left fun h => h.1
    | _ => cases hyes

end Slots

section Simulation

/-- The run of a VM alone that has reached `m'` agrees with the run of all VMs
that has reached `w`: the process is the same, the monitor's state too if it
belongs to the VM, and a VM that has yet to trap finds the initial state. -/
structure Agrees (w : Watched) (pid : ℕ) (m' : Machine) : Prop where
  procs : m'.procs pid = w.machine.procs pid
  owned : w.owner = some pid → m'.vm = w.machine.vm
  fresh : w.owner ≠ some pid → (∀ p, m'.procs pid ≠ .zombie p) → m'.vm = trapAndEmulateInit

/-- What holds in every state of a run whose traps find their own state. -/
structure Isolated (es : List Event) (w : Watched) : Prop where
  ok : w.machine.Ok
  free : w.owner = none → w.machine.vm = trapAndEmulateInit
  solo : ∀ pid, ∃ m', exec step boot (soloEvents pid es) = .ok m' ∧
    Agrees w pid m'

theorem isolated_boot : Isolated [] Watched.boot :=
  ⟨Machine.ok_boot, fun _ => rfl, fun _ => ⟨boot, rfl, rfl, fun _ => rfl, fun _ _ => rfl⟩⟩

theorem soloEvents_append_self (es : List Event) (e : Event) :
    soloEvents e.pid (es ++ [e]) = soloEvents e.pid es ++ [e] := by
  simp [soloEvents]

theorem soloEvents_append_other (es : List Event) {e : Event} {pid : ℕ} (h : pid ≠ e.pid) :
    soloEvents pid (es ++ [e]) = soloEvents pid es := by
  simp [soloEvents, Ne.symm h]

variable {es : List Event} {e : Event} {w w' : Watched}

theorem Agrees.vm_eq {m' : Machine} (h : Agrees w e.pid m')
    (hfree : w.owner = none → w.machine.vm = trapAndEmulateInit) (hown : OwnState w e)
    (hyes : Traps e (w.machine.procs e.pid)) : m'.vm = w.machine.vm := by
  rcases hown hyes with hnone | hself
  · rw [hfree hnone]
    refine h.fresh (by simp [hnone]) fun p hp => ?_
    rw [← h.procs, hp] at hyes
    cases e <;> cases hyes
  · exact h.owned hself

theorem Isolated.traps (h : Isolated es w) (hown : OwnState w e)
    (hyes : Traps e (w.machine.procs e.pid)) {m : Machine}
    (hstep : TrapEmulate.step w.machine e = .ok m) :
    ∃ m', exec TrapEmulate.step boot (soloEvents e.pid (es ++ [e])) = .ok m' ∧
      m'.procs e.pid = m.procs e.pid ∧ m'.vm = m.vm := by
  obtain ⟨m', hm', hag⟩ := h.solo e.pid
  have hvm := hag.vm_eq h.free hown hyes
  rw [step_eq] at hstep
  obtain ⟨⟨s', slot'⟩, hslot, hm⟩ := bind_ok_iff.mp hstep
  cases hm
  refine ⟨⟨s', Function.update m'.procs e.pid slot'⟩, ?_, by simp, rfl⟩
  rw [soloEvents_append_self, exec_snoc]
  refine ⟨m', hm', ?_⟩
  rw [step_eq, hvm, hag.procs, hslot]
  rfl

/-- An event that does not concern the monitor leaves every comparison as it is. -/
theorem Isolated.unhandled (h : Isolated es w) (hno : ¬ Handled e (w.machine.procs e.pid))
    (hw : watch w e = .ok w') : Isolated (es ++ [e]) w' := by
  obtain ⟨m, hstep, hw⟩ := bind_ok_iff.mp hw
  have hok : m.Ok := step_ok h.ok e hstep
  rw [step_eq] at hstep
  obtain ⟨⟨s', slot'⟩, hslot, hm⟩ := bind_ok_iff.mp hstep
  cases hm
  cases hw
  obtain ⟨rfl, hsame, halive⟩ := slotStep_unhandled hno hslot
  refine ⟨hok, fun hnone => h.free (by simpa [hno] using hnone), fun pid => ?_⟩
  obtain ⟨m', hm', hag⟩ := h.solo pid
  by_cases hpid : pid = e.pid
  · subst hpid
    refine ⟨⟨m'.vm, Function.update m'.procs e.pid slot'⟩, ?_, by simp, ?_, ?_⟩
    · rw [soloEvents_append_self, exec_snoc]
      refine ⟨m', hm', ?_⟩
      rw [step_eq, hag.procs, hsame]
      rfl
    · exact fun hself => hag.owned (by simpa [hno] using hself)
    · intro hne hz
      refine hag.fresh (by simpa [hno] using hne) ?_
      rw [hag.procs]
      exact halive (by simpa using hz)
  · exact ⟨m', by rwa [soloEvents_append_other es hpid], by simp [hpid, hag.procs],
      fun hself => hag.owned (by simpa [hno] using hself),
      fun hne => hag.fresh (by simpa [hno] using hne)⟩

/-- One step of all VMs. -/
theorem Isolated.step (h : Isolated es w) (hown : OwnState w e) (hw : watch w e = .ok w') :
    Isolated (es ++ [e]) w' := by
  by_cases hyes : Handled e (w.machine.procs e.pid)
  · obtain ⟨m, hstep, hw⟩ := bind_ok_iff.mp hw
    obtain ⟨m₁, hm₁, hprocs, hvm⟩ := h.traps hown hyes.traps hstep
    have hok : m.Ok := step_ok h.ok e hstep
    rw [step_eq] at hstep
    obtain ⟨⟨s', slot'⟩, hslot, hm⟩ := bind_ok_iff.mp hstep
    have hout := slotStep_handled hyes h.ok.vm (h.ok.procs e.pid) hslot
    cases hm
    cases hw
    simp only [hyes, ↓reduceIte]
    refine ⟨hok, fun hnone => ?_, fun pid => ?_⟩
    · simp only [ite_eq_right_iff, reduceCtorEq, imp_false] at hnone
      exact hout.resolve_right hnone
    · by_cases hpid : pid = e.pid
      · subst hpid
        refine ⟨m₁, hm₁, hprocs, fun _ => hvm, fun hne _ => ?_⟩
        simp only [ne_eq, ite_eq_left_iff, reduceCtorEq, imp_false, not_not] at hne
        exact hvm.trans (hout.resolve_right hne)
      · -- another VM has no part in the state before and none after
        obtain ⟨m', hm', hag⟩ := h.solo pid
        refine ⟨m', by rwa [soloEvents_append_other es hpid], by simp [hpid, hag.procs],
          fun hself => ?_, fun _ => hag.fresh fun hself => ?_⟩
        · simp only [Option.ite_none_right_eq_some, Option.some.injEq] at hself
          exact absurd hself.2.symm hpid
        · rcases hown hyes.traps with hnone | hother
          · simp [hnone] at hself
          · exact hpid (Option.some.inj (hself.symm.trans hother))
  · exact h.unhandled hyes hw

theorem Isolated.run (hg : Guarded watch OwnState Watched.boot es)
    (hw : exec watch Watched.boot es = .ok w) : Isolated es w := by
  induction es using List.reverseRecOn generalizing w with
  | nil => cases hw; exact isolated_boot
  | append_singleton es e ih =>
    obtain ⟨u, hu, hw⟩ := (exec_snoc _).mp hw
    exact (ih hg.of_append hu).step (hg.last hu) hw

end Simulation

/-- In a run in which every trap finds a fresh monitor or the state of its own VM, each VM
has after each of its traps the process state, with its active page table, and the monitor
state, with all CSRs, the mode, the PMP flag and the saved table, that the same events of
that VM alone lead to. -/
theorem vm_runs_as_if_alone {es : List Event} {e : Event} {w w' : Watched}
    (hg : Guarded watch OwnState Watched.boot (es ++ [e]))
    (hw : exec watch Watched.boot es = .ok w)
    (he : Traps e (w.machine.procs e.pid)) (hw' : watch w e = .ok w') :
    ∃ m', exec step boot (soloEvents e.pid (es ++ [e])) = .ok m' ∧
      m'.procs e.pid = w'.machine.procs e.pid ∧ m'.vm = w'.machine.vm := by
  obtain ⟨m, hstep, hw'⟩ := bind_ok_iff.mp hw'
  cases hw'
  exact (Isolated.run hg.of_append hw).traps (hg.last hw) he hstep

/-- `csrr a0, mhartid`. -/
def csrrMhartid : TrapInput := ⟨0, 0xf1402573, fun _ => 0, KallocPage.second, KallocPage.third⟩

theorem dispatch_csrrMhartid (s : VmState) (p : Proc) :
    dispatch csrrMhartid s p = handleCsrr s p 10 Csr.mhartid.code := rfl

/-- Two VMs: the first goes to user mode and is ended when it reads `mhartid` there, and the
second, which was started meanwhile, reads `mhartid` too. -/
def endedBeforeCsrr : List Event :=
  [.exec 1 VmImage.onePage, .trap 1 .illegal mretTrap] ++
    [.exec 2 VmImage.onePage, .trap 1 .illegal csrrMhartid]

theorem watch_handled {w : Watched} {e : Event} {m : Machine} (h : step w.machine e = .ok m)
    (hyes : Handled e (w.machine.procs e.pid)) :
    watch w e = .ok ⟨m, if m.vm.oldPtable.isSome then some e.pid else none⟩ := by
  rw [watch, h, ok_bind, if_pos hyes]

theorem watch_unhandled {w : Watched} {e : Event} {m : Machine} (h : step w.machine e = .ok m)
    (hno : ¬ Handled e (w.machine.procs e.pid)) : watch w e = .ok ⟨m, w.owner⟩ := by
  rw [watch, h, ok_bind, if_neg hno]

/-- The first VM leaves the monitor to the second one. -/
theorem watch_endedBeforeCsrr : Guarded watch OwnState Watched.boot endedBeforeCsrr ∧
    ∃ m, exec watch Watched.boot endedBeforeCsrr = .ok ⟨m, none⟩ ∧
      m.vm = trapAndEmulateInit ∧ m.procs 2 = .running VmImage.onePage.proc := by
  obtain ⟨new, m, heq, hvm, hproc, habs⟩ := exec_first_mret VmImage.onePage 1
  obtain ⟨m₀, hm₀, hmret⟩ := bind_ok_iff.mp heq
  obtain ⟨_, hmret, hm⟩ := bind_ok_iff.mp hmret
  cases hm
  have hp₀ : m₀.procs 1 = .running VmImage.onePage.proc := by
    cases hm₀
    rfl
  have hintact : m.vm.Intact := hvm ▸ (VmState.intact_saved _).mretState
  have hmode : m.vm.currentMode = 0 := by
    rw [hvm]
    exact mretMode_saved _
  have hold : m.vm.oldPtable.isSome := by
    rw [hvm]
    rfl
  have hexec : step m (.exec 2 VmImage.onePage) =
      .ok ⟨m.vm, Function.update m.procs 2 (.running VmImage.onePage.proc)⟩ := by
    simp only [step, habs 2 (by decide)]
  generalize hm₂ : (⟨m.vm, Function.update m.procs 2 (.running VmImage.onePage.proc)⟩ : Machine) = m₂
    at hexec
  have hvm₂ : m₂.vm = m.vm := by
    rw [← hm₂]
  have hp₂ : m₂.procs 1 = .running ((VmImage.onePage.proc.trapped mretTrap).setEpc 0) := by
    rw [← hm₂]
    change Function.update m.procs 2 (.running VmImage.onePage.proc) 1 = _
    rw [Function.update_of_ne (by decide), hproc]
  have hcsrr := step_illegal (hvm₂ ▸ hold) hp₂ csrrMhartid
  rw [dispatch_csrrMhartid, handleCsrr_code (hvm₂ ▸ hintact), hvm₂,
    if_neg (by rw [hmode]; decide), ok_bind] at hcsrr
  have hw₁ : watch ⟨m₀, none⟩ (.trap 1 .illegal mretTrap) = .ok ⟨m, some 1⟩ := by
    have hyes : Handled (.trap 1 .illegal mretTrap) (m₀.procs 1) := by
      rw [hp₀]
      exact Or.inl (Or.inl rfl)
    rw [watch_handled hmret hyes, if_pos hold]
    rfl
  have hw₂ : watch ⟨m, some 1⟩ (.exec 2 VmImage.onePage) = .ok ⟨m₂, some 1⟩ :=
    watch_unhandled hexec id
  have hyes : Handled (.trap 1 .illegal csrrMhartid) (m₂.procs 1) := by
    rw [hp₂]
    exact Or.inl (Or.inl rfl)
  have hw₃ := watch_handled (w := ⟨m₂, some 1⟩) hcsrr hyes
  have hw₀ : watch Watched.boot (.exec 1 VmImage.onePage) = .ok ⟨m₀, none⟩ :=
    watch_unhandled hm₀ id
  refine ⟨⟨fun h => h.elim, fun u hu => ⟨?_, fun v hv => ⟨fun h => h.elim, fun x hx =>
    ⟨?_, fun _ _ => trivial⟩⟩⟩⟩, _, bind_ok_iff.mpr ⟨_, hw₀, bind_ok_iff.mpr ⟨_, hw₁,
      bind_ok_iff.mpr ⟨_, hw₂, bind_ok_iff.mpr ⟨_, hw₃, rfl⟩⟩⟩⟩, rfl, ?_⟩
  · obtain rfl := Except.ok.inj (hw₀.symm.trans hu)
    exact fun _ => Or.inl rfl
  · obtain rfl := Except.ok.inj (hw₀.symm.trans hu)
    obtain rfl := Except.ok.inj (hw₁.symm.trans hv)
    obtain rfl := Except.ok.inj (hw₂.symm.trans hx)
    exact fun _ => Or.inr rfl
  · have hp : m₂.procs 2 = .running VmImage.onePage.proc := by
      rw [← hm₂]
      simp only [Function.update_self]
    have htwo : 2 ≠ 1 := by decide
    simpa only [Function.update_of_ne htwo] using hp

/-- The second VM reads `mhartid` as if it were alone. -/
theorem ended_as_if_alone : ∃ w w' : Watched,
    exec watch Watched.boot endedBeforeCsrr = .ok w ∧
      watch w (.trap 2 .illegal csrrMhartid) = .ok w' ∧
      ∃ m', exec step boot [.exec 2 VmImage.onePage, .trap 2 .illegal csrrMhartid] = .ok m' ∧
        m'.procs 2 = w'.machine.procs 2 ∧ m'.vm = w'.machine.vm := by
  obtain ⟨hg, m, hm, hvm, hproc⟩ := watch_endedBeforeCsrr
  obtain ⟨new, -, hstep⟩ := step_first_trap (t := csrrMhartid) hvm hproc
    (VmImage.onePage.proc_ok.trapped _) (VmImage.onePage.tableFull _)
  rw [dispatch_csrrMhartid, handleCsrr_code (VmState.intact_saved _), ok_bind] at hstep
  obtain ⟨w', hw', -⟩ := watch_of_step (w := ⟨m, none⟩) hstep
  have hguarded : Guarded watch OwnState Watched.boot
      (endedBeforeCsrr ++ [.trap 2 .illegal csrrMhartid]) := by
    refine Guarded.append.mpr ⟨hg, fun u hu => ⟨fun _ => ?_, fun _ _ => trivial⟩⟩
    obtain rfl := Except.ok.inj (hm.symm.trans hu)
    exact Or.inl rfl
  have htraps : Traps (.trap 2 .illegal csrrMhartid) (m.procs 2) := by
    rw [hproc]
    trivial
  have hsolo : soloEvents 2 (endedBeforeCsrr ++ [.trap 2 .illegal csrrMhartid]) =
      [.exec 2 VmImage.onePage, .trap 2 .illegal csrrMhartid] := by
    simp [soloEvents, endedBeforeCsrr, Event.pid]
  have halone := vm_runs_as_if_alone hguarded hm htraps hw'
  simp only [Event.pid, hsolo] at halone
  exact ⟨_, w', hm, hw', halone⟩

/-- Two VMs, the first of which drops to user mode before the second traps. -/
def mretBeforeCsrr : List Event :=
  [.exec 1 VmImage.onePage, .trap 1 .illegal mretTrap] ++
    [.exec 2 VmImage.onePage, .trap 2 .illegal csrrMhartid]

def ProcSlot.Alive : ProcSlot → Prop
  | .running _ => True
  | _ => False

/-- The second VM is killed for reading `mhartid`, which it may read when alone. -/
theorem other_vm_decides_mode :
    (∃ m, exec step boot mretBeforeCsrr = .ok m ∧ ¬ (m.procs 2).Alive) ∧
      ∃ m, exec step boot (soloEvents 2 mretBeforeCsrr) = .ok m ∧ (m.procs 2).Alive := by
  constructor
  · obtain ⟨new, m, heq, hvm, _, habs⟩ := exec_first_mret VmImage.onePage 1
    have hintact : m.vm.Intact := hvm ▸ (VmState.intact_saved _).mretState
    have hmode : m.vm.currentMode = 0 := by
      rw [hvm]
      exact mretMode_saved _
    have hexec : step m (.exec 2 VmImage.onePage) =
        .ok ⟨m.vm, Function.update m.procs 2 (.running VmImage.onePage.proc)⟩ := by
      simp only [step, habs 2 (by decide)]
    have hp : Function.update m.procs 2 (.running VmImage.onePage.proc) 2 =
        .running VmImage.onePage.proc := Function.update_self ..
    rw [mretBeforeCsrr, exec_append, heq]
    simp only [bind, Except.bind, exec_cons, hexec, exec_nil]
    rw [step_illegal (by rw [hvm]; rfl) hp, dispatch_csrrMhartid, handleCsrr_code hintact,
      if_neg (by rw [hmode]; decide)]
    refine ⟨_, rfl, ?_⟩
    simp [leave, Proc.setkilled, Proc.setEpc, Proc.setWord, ProcSlot.Alive]
  · obtain ⟨new, _, heq⟩ := exec_first_trap VmImage.onePage 2 csrrMhartid
    have hmode : Csr.mhartid.mode ≤ (VmState.saved ⟨csrrMhartid.oldPage, new⟩).currentMode :=
      le_refl 2
    rw [dispatch_csrrMhartid, handleCsrr_code (VmState.intact_saved _), if_pos hmode] at heq
    refine ⟨_, heq, ?_⟩
    simp [leave, Proc.setEpc, Proc.setWord, VmImage.proc, ProcSlot.Alive]

end AdvancedOperatingSystems.TrapEmulate
