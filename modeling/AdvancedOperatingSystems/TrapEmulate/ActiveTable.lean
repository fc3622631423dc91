import AdvancedOperatingSystems.TrapEmulate.Wait

/-!
# The active page table and the mode

Machine mode is meant to run on a table that maps the whole region, and the lower modes on
the one that the latest `mret` has built. The machine carries along whether a PMP register
has been written since the monitor was initialised, and that table. There is one mode for
all VMs, and `handle_mret` installs the table whatever mode it ends in. The saved table may
have been freed with a zombie that was on it.
-/

namespace AdvancedOperatingSystems.TrapEmulate

open Foundations Riscv Riscv.PageTable

def RegionMapped (table : Option TableRef) : Prop :=
  ∀ a, RegionPage a → ∃ r, table = some r ∧ r.table.Mapped a

/-- Whether a PMP register has been written since the monitor was initialised, and the
restricted table of the latest `mret` if one was written before it. -/
structure PmpHistory where
  written : Bool
  built : Option TableRef

/-- The history after a trap of `p` that leaves the monitor in `s'`. The monitor has been
initialised again if a trap that it handles leaves no table saved. -/
def PmpHistory.trap (g : PmpHistory) (cause : Cause) (t : TrapInput) (s : VmState) (p : Proc)
    (s' : VmState) : PmpHistory :=
  if ¬ (Emulated cause p ∨ cause = .other) then g
  else if s'.oldPtable.isNone then ⟨false, none⟩
  else if IsMret t.instruction then
    ⟨g.written, if g.written then restrictedTable s (p.trapped t) t.newPage else none⟩
  else if funct3 t.instruction = 1 ∧ isPmpNumber (uimm t.instruction) then ⟨true, g.built⟩
  else g

/-- The trap of a VM in a lower mode ends in machine mode. -/
def EndsInMachine (cause : Cause) (t : TrapInput) (s : VmState) (p : Proc) : Prop :=
  cause = .other ∨ Emulated cause p ∧
    (Refuses t.instruction s.currentMode ∨ IsSret t.instruction ∧ s.currentMode ≠ 1 ∨
      EntersEcall t.instruction ∧ s.currentMode = 1)

/-- What a trap does to the mode and the tables, and to the history. -/
inductive Switch (cause : Cause) (t : TrapInput) (s : VmState) (p : Proc) (s' : VmState)
    (p' : Proc) : Prop
  | stays (mode : s'.currentMode = s.currentMode ∨ s.currentMode < 2 ∧ s'.currentMode < 2)
      (table : p'.pagetable = p.pagetable) (alive : p'.killed = p.killed)
      (history : s'.pmpConfiguration = s.pmpConfiguration ∧ (∀ g, PmpHistory.trap g cause t s p s' = g) ∨
        s'.pmpConfiguration = 1 ∧ ∀ g, PmpHistory.trap g cause t s p s' = ⟨true, g.built⟩)
  | toMachine (ends : EndsInMachine cause t s p) (mode : s.currentMode = 1)
      (mode' : s'.currentMode = 2) (table : p'.pagetable = s'.oldPtable)
      (alive : p'.killed = p.killed) (flag : s'.pmpConfiguration = s.pmpConfiguration)
      (history : ∀ g, PmpHistory.trap g cause t s p s' = g)
  | mret (mode : 2 ≤ s.currentMode) (mode' : s'.currentMode = mretMode s)
      (table : p'.pagetable = p.pagetable) (alive : p'.killed = p.killed)
      (unset : s.pmpConfiguration ≠ 1) (flag : s'.pmpConfiguration = s.pmpConfiguration)
      (history : ∀ g, g.written = false → PmpHistory.trap g cause t s p s' = ⟨false, none⟩)
  | mretPmp (emulated : Emulated cause p) (is_mret : IsMret t.instruction)
      (mode : 2 ≤ s.currentMode) (mode' : s'.currentMode = mretMode s) (r : TableRef)
      (clone new : PageTable Unit) (active : p.pagetable = some r)
      (copied : cloneTable (p.trapped t) r.table = .ok clone)
      (withdrawn : exec unmapPage clone (restrictedPages s) = .ok new)
      (table : p'.pagetable = some ⟨t.newPage, new⟩) (alive : p'.killed = p.killed)
      (set : s.pmpConfiguration = 1) (flag : s'.pmpConfiguration = 1)
      (history : ∀ g, g.written = true →
        PmpHistory.trap g cause t s p s' = ⟨true, some ⟨t.newPage, new⟩⟩)
  | reset (ends : EndsInMachine cause t s p) (init : s' = trapAndEmulateInit)
      (killed : p'.killed = true) (history : ∀ g, PmpHistory.trap g cause t s p s' = ⟨false, none⟩)

section Trap

variable {cause : Cause} {t : TrapInput} {s s' : VmState} {p p' : Proc}

theorem PmpHistory.trap_kept (g : PmpHistory) (hemu : Emulated cause p)
    (hold : s'.oldPtable.isSome) (hmret : ¬ IsMret t.instruction)
    (hwrite : ¬ (funct3 t.instruction = 1 ∧ isPmpNumber (uimm t.instruction) = true)) :
    g.trap cause t s p s' = g := by
  have hnone : s'.oldPtable.isNone = false := by
    rw [← Option.not_isSome, hold]
    rfl
  unfold PmpHistory.trap
  rw [if_neg (not_not.2 (Or.inl hemu)), hnone, if_neg Bool.false_ne_true, if_neg hmret,
    if_neg hwrite]

theorem saveOldPtable_region {page : KallocPage} (hp : p.Ok)
    (hold : s.oldPtable.isSome → RegionMapped s.oldPtable)
    (h : saveOldPtable page s p = .ok s') : RegionMapped s'.oldPtable := by
  obtain ⟨r, hr, hwf⟩ := hp.table
  cases hnone : s.oldPtable with
  | some u =>
    have hsome : s.oldPtable.isSome := by rw [hnone]; rfl
    rw [saveOldPtable_some hsome] at h
    cases h
    exact hold hsome
  | none =>
    rw [saveOldPtable_none hnone hr] at h
    obtain ⟨new, hnew, h⟩ := bind_ok_iff.mp h
    cases h
    intro a ha
    refine ⟨_, rfl, (cloneTable_mapped hwf hp.sz_le hnew ha.1).mpr (Or.inl ?_)⟩
    exact mem_vmPages.mpr ⟨ha.1, Or.inr ha.2⟩

theorem mretMode_congr {s₁ : VmState} (hreg : s₁.reg = s.reg)
    (hmode : s₁.currentMode = s.currentMode) : mretMode s₁ = mretMode s := by
  have hval : s₁.val .mstatus = s.val .mstatus := by
    rw [VmState.val, hreg]
    rfl
  rw [mretMode, mretMode, hval, hmode]

theorem PmpHistory.trap_mret (g : PmpHistory) (hemu : Emulated cause p)
    (hold : s'.oldPtable.isSome) (hmret : IsMret t.instruction) :
    g.trap cause t s p s' =
      ⟨g.written, if g.written then restrictedTable s (p.trapped t) t.newPage else none⟩ := by
  have hnone : s'.oldPtable.isNone = false := by
    rw [← Option.not_isSome, hold]
    rfl
  unfold PmpHistory.trap
  rw [if_neg (not_not.2 (Or.inl hemu)), hnone, if_neg Bool.false_ne_true, if_pos hmret]

theorem PmpHistory.trap_write (g : PmpHistory) (hemu : Emulated cause p)
    (hold : s'.oldPtable.isSome) (hfun : funct3 t.instruction = 1)
    (hpmp : isPmpNumber (uimm t.instruction) = true) :
    g.trap cause t s p s' = ⟨true, g.built⟩ := by
  have hnone : s'.oldPtable.isNone = false := by
    rw [← Option.not_isSome, hold]
    rfl
  have hmret : ¬ IsMret t.instruction := by
    rintro ⟨hzero, -⟩
    omega
  unfold PmpHistory.trap
  rw [if_neg (not_not.2 (Or.inl hemu)), hnone, if_neg Bool.false_ne_true, if_neg hmret,
    if_pos ⟨hfun, hpmp⟩]

theorem PmpHistory.trap_reset (g : PmpHistory) (hmon : Emulated cause p ∨ cause = .other) :
    g.trap cause t s p trapAndEmulateInit = ⟨false, none⟩ := by
  unfold PmpHistory.trap
  rw [if_neg (not_not.2 hmon)]
  rfl

/-- Every outcome of an emulated instruction is one of the switches. -/
theorem Outcome.switch {s₁ : VmState} (hemu : Emulated cause p) (hreg : s₁.reg = s.reg)
    (hmode : s₁.currentMode = s.currentMode) (hflag : s₁.pmpConfiguration = s.pmpConfiguration)
    (hold : s₁.oldPtable.isSome) (h : Outcome t s₁ (p.trapped t) s' p') :
    Switch cause t s p s' p' := by
  have hnowrite (hzero : funct3 t.instruction ≠ 1) :
      ¬ (funct3 t.instruction = 1 ∧ isPmpNumber (uimm t.instruction) = true) :=
    fun hw => hzero hw.1
  cases h with
  | ecallUser enters mode =>
    have hfun := enters.1
    exact .stays (Or.inr ⟨by omega, Nat.one_lt_two⟩) rfl rfl
      (Or.inl ⟨hflag, fun g => g.trap_kept hemu hold (fun hm => enters.2.2 hm.2)
        (hnowrite (by omega))⟩)
  | ecallSupervisor enters mode =>
    have hfun := enters.1
    exact .toMachine (Or.inr ⟨hemu, Or.inr (Or.inr ⟨enters, hmode ▸ mode⟩)⟩) (hmode ▸ mode) rfl rfl
      rfl hflag fun g => g.trap_kept hemu hold (fun hm => enters.2.2 hm.2) (hnowrite (by omega))
  | sret is_sret mode =>
    have hfun := is_sret.1
    have hle := sretMode_le mode
    have hmret : ¬ IsMret t.instruction := by
      rintro ⟨-, h302⟩
      have h102 := is_sret.2
      omega
    refine .stays (Or.inr ⟨by omega, ?_⟩) rfl rfl
      (Or.inl ⟨hflag, fun g => g.trap_kept hemu hold hmret (hnowrite (by omega))⟩)
    change sretMode s₁ < 2
    omega
  | mret is_mret mode flag =>
    refine .mret (hmode ▸ mode) (mretMode_congr hreg hmode) rfl rfl (hflag ▸ flag) hflag
      fun g hg => (g.trap_mret hemu hold is_mret).trans ?_
    rw [hg]
    rfl
  | mretPmp is_mret mode flag r active clone new copied withdrawn =>
    rw [restrictedPages_congr hreg] at withdrawn
    refine .mretPmp hemu is_mret (hmode ▸ mode) (mretMode_congr hreg hmode) r clone new active
      copied withdrawn rfl rfl (hflag ▸ flag) flag
      fun g hg => (g.trap_mret hemu hold is_mret).trans ?_
    rw [hg, restrictedTable_eq active copied withdrawn]
    rfl
  | csrw c funct number permitted =>
    refine .stays (Or.inl hmode) rfl rfl ?_
    have hold' : (csrwState s₁ c ((p.trapped t).trapframe
        (Proc.regWord (rs1 t.instruction)))).oldPtable.isSome := hold
    by_cases hpmp : isPmpNumber c.code = true
    · exact Or.inr ⟨if_pos hpmp, fun g => g.trap_write hemu hold' funct (number ▸ hpmp)⟩
    · refine Or.inl ⟨(if_neg hpmp).trans hflag, fun g => g.trap_kept hemu hold' ?_ ?_⟩
      · rintro ⟨hzero, -⟩
        omega
      · rintro ⟨-, hp⟩
        exact hpmp (number ▸ hp)
  | csrr c funct number permitted =>
    refine .stays (Or.inl hmode) rfl rfl (Or.inl ⟨hflag, fun g => g.trap_kept hemu hold ?_
      (hnowrite (by omega))⟩)
    rintro ⟨hzero, -⟩
    omega
  | ignored funct =>
    refine .stays (Or.inl hmode) rfl rfl (Or.inl ⟨hflag, fun g => g.trap_kept hemu hold ?_
      (hnowrite (by omega))⟩)
    rintro ⟨hzero, -⟩
    omega
  | refused q killed sz frame table privilege =>
    exact .reset (Or.inr ⟨hemu, Or.inl (hmode ▸ privilege)⟩) rfl killed
      fun g => g.trap_reset (Or.inl hemu)
  | sretRefused is_sret mode =>
    exact .reset (Or.inr ⟨hemu, Or.inr (Or.inl ⟨is_sret, hmode ▸ mode⟩)⟩) rfl rfl
      fun g => g.trap_reset (Or.inl hemu)

theorem usertrap_switch (hs : s.Ok) (hp : p.Ok) (h : usertrap cause t s p = .ok (s', p')) :
    Switch cause t s p s' p' := by
  by_cases hemu : Emulated cause p
  · rw [usertrap_emulated hemu] at h
    obtain ⟨s₁, hsave, h⟩ := bind_ok_iff.mp h
    obtain ⟨hs₁, hold, hreg, hmode, hflag⟩ := saveOldPtable_spec hs (hp.trapped t) hsave
    exact (dispatch_outcome hs₁.intact hold h).switch hemu hreg hmode hflag hold
  · rcases usertrap_not_emulated hemu t s with ⟨hu, hne⟩ | ⟨hu, rfl⟩
    · rw [hu] at h
      cases h
      have hmon : ¬ (Emulated cause p ∨ cause = .other) := by
        rw [not_or]
        exact ⟨hemu, hne⟩
      exact .stays (Or.inl rfl) rfl rfl (Or.inl ⟨rfl, fun g => if_pos hmon⟩)
    · rw [hu] at h
      cases h
      exact .reset (Or.inl rfl) rfl rfl fun g => g.trap_reset (Or.inr rfl)

/-- The saved table maps the region after any trap. -/
theorem usertrap_region (hs : s.Ok) (hp : p.Ok)
    (hold : s.oldPtable.isSome → RegionMapped s.oldPtable)
    (h : usertrap cause t s p = .ok (s', p')) :
    s'.oldPtable.isSome → RegionMapped s'.oldPtable := by
  intro hsome
  by_cases hemu : Emulated cause p
  · rw [usertrap_emulated hemu] at h
    obtain ⟨s₁, hsave, h⟩ := bind_ok_iff.mp h
    obtain ⟨hs₁, hold₁, -⟩ := saveOldPtable_spec hs (hp.trapped t) hsave
    rcases dispatch_kept hs₁.intact hold₁ h with ⟨rfl, -⟩ | hkept
    · cases hsome
    · rw [hkept]
      exact saveOldPtable_region (hp.trapped t) hold hsave
  · rcases usertrap_not_emulated hemu t s with ⟨hu, hne⟩ | ⟨hu, rfl⟩
    · rw [hu] at h
      cases h
      exact hold hsome
    · rw [hu] at h
      cases h
      cases hsome

end Trap

/-- A host with the history of its machine. -/
structure TableRun where
  host : Host
  history : PmpHistory

namespace TableRun

def boot : TableRun := ⟨Host.boot, ⟨false, none⟩⟩

abbrev machine (w : TableRun) : Machine := w.host.machine

/-- The host has made a step, and the history with it. -/
def next (w : TableRun) (e : HostEvent) (h : Host) : TableRun :=
  ⟨h, match e with
    | .run (.trap pid cause t) =>
        match w.machine.procs pid with
        | .running p => w.history.trap cause t w.machine.vm p h.machine.vm
        | _ => w.history
    | _ => w.history⟩

end TableRun

def tableStep (kend : ℕ) (w : TableRun) (e : HostEvent) : Except Panic TableRun :=
  hostStep kend w.host e >>= fun h => .ok (w.next e h)

/-- In machine mode every live VM is on a table that maps the region, and in the lower modes it
is on the restricted table of the latest `mret`, if a PMP register had been written before.
None of these tables has been freed. -/
structure TablesFollow (w : TableRun) : Prop where
  machine : ∀ pid p, w.machine.Alive pid p → w.machine.vm.currentMode = 2 →
    RegionMapped p.pagetable
  lower : ∀ pid p, w.machine.Alive pid p → w.machine.vm.currentMode < 2 →
    ∀ r, w.history.built = some r → p.pagetable = some r
  memory : ∀ pid p, w.machine.Alive pid p → ∀ r, p.pagetable = some r → w.host.InMemory r

def Machine.Only (m : Machine) (pid : ℕ) : Prop := ∀ q p, m.Alive q p → q = pid

def TableRun.Restricted (w : TableRun) : Prop :=
  w.machine.vm.currentMode < 2 ∧ w.history.built.isSome

/-- While a lower mode runs on a restricted table no VM is started, and the VM that goes back
to machine mode is alone; an `mret` that builds such a table either enters a lower mode, with
no other VM alive, or withdraws nothing of the region. -/
def ModeKept (w : TableRun) : HostEvent → Prop
  | .run (.exec pid _) => w.machine.procs pid = .absent → ¬ w.Restricted
  | .run (.trap pid cause t) => ∀ p, w.machine.procs pid = .running p →
      (w.Restricted → EndsInMachine cause t w.machine.vm p → w.machine.Only pid) ∧
      (Emulated cause p → IsMret t.instruction → 2 ≤ w.machine.vm.currentMode →
        w.history.written = true →
          (mretMode w.machine.vm < 2 → w.machine.Only pid) ∧
          (2 ≤ mretMode w.machine.vm → p.killed = false →
            ∀ a ∈ restrictedPages w.machine.vm, ¬ RegionPage a))
  | _ => True

/-- The step keeps the tables in memory and in step with the mode. -/
def TableKept (w : TableRun) (e : HostEvent) : Prop := KeepsTables w.host e ∧ ModeKept w e

/-- What holds along such a run. -/
structure TableInv (w : TableRun) : Prop where
  ok : w.machine.Ok
  memory : w.host.TablesInMemory
  mode : w.machine.vm.currentMode ≤ 2
  flag : w.history.written = true ↔ w.machine.vm.pmpConfiguration = 1
  old : w.machine.vm.oldPtable.isSome → RegionMapped w.machine.vm.oldPtable
  machine : ∀ pid p, w.machine.Alive pid p → w.machine.vm.currentMode = 2 →
    RegionMapped p.pagetable
  lower : ∀ pid p, w.machine.Alive pid p → w.machine.vm.currentMode < 2 →
    ∀ r, w.history.built = some r → p.pagetable = some r
  unrestricted : w.history.built = none → ∀ pid p, w.machine.Alive pid p →
    RegionMapped p.pagetable

section Run

variable {w w' : TableRun} {pid : ℕ} {cause : Cause} {t : TrapInput}

theorem TableInv.boot : TableInv TableRun.boot where
  ok := Machine.ok_boot
  memory _ _ h := by cases h
  mode := le_rfl
  flag := by
    constructor
    · intro h
      cases h
    · intro h
      cases h
  old := fun h => by cases h
  machine _ _ h := by cases h.1
  lower _ _ h := by cases h.1
  unrestricted := by
    intro _ pid p h
    cases h.1

theorem VmImage.regionMapped (img : VmImage) : RegionMapped img.proc.pagetable :=
  fun _ ha => ⟨_, rfl, img.full.region ha⟩

theorem TableInv.mapped (I : TableInv w) (h : ¬ w.Restricted) {pid : ℕ} {p : Proc}
    (hp : w.machine.Alive pid p) : RegionMapped p.pagetable := by
  by_cases hmode : w.machine.vm.currentMode = 2
  · exact I.machine pid p hp hmode
  · have hlt : w.machine.vm.currentMode < 2 := lt_of_le_of_ne I.mode hmode
    apply I.unrestricted _ pid p hp
    rw [← Option.not_isSome_iff_eq_none]
    exact fun hb => h ⟨hlt, hb⟩

theorem alive_update {m : Machine} {s : VmState} {p' : Proc} {q : ℕ} {r : Proc}
    (h : (⟨s, Function.update m.procs pid (leave p')⟩ : Machine).Alive q r) :
    q = pid ∧ r = p' ∧ p'.killed = false ∨ q ≠ pid ∧ m.Alive q r := by
  obtain ⟨hrun, hk⟩ := h
  by_cases hq : q = pid
  · subst hq
    have hleave : leave p' = .running r := by simpa using hrun
    obtain ⟨rfl, halive⟩ := leave_running hleave
    exact Or.inl ⟨rfl, rfl, halive⟩
  · have hother : m.procs q = .running r := by simpa [hq] using hrun
    exact Or.inr ⟨hq, hother, hk⟩

/-- A restricted table maps what is not withdrawn. -/
theorem restricted_regionMapped {s : VmState} {p : Proc} (hp : p.Ok) {r : TableRef}
    {clone new : PageTable Unit} {page : KallocPage} (hr : p.pagetable = some r)
    (hclone : cloneTable p r.table = .ok clone)
    (hnew : exec unmapPage clone (restrictedPages s) = .ok new)
    (hnone : ∀ a ∈ restrictedPages s, ¬ RegionPage a) :
    RegionMapped (some ⟨page, new⟩) := by
  obtain ⟨r', hr', hwf⟩ := hp.table
  obtain rfl := Option.some.inj (hr.symm.trans hr')
  intro a ha
  refine ⟨_, rfl, ?_⟩
  have hclones : clone.Mapped a :=
    (cloneTable_mapped hwf hp.sz_le hclone ha.1).mpr (Or.inl (mem_vmPages.mpr ⟨ha.1, Or.inr ha.2⟩))
  obtain ⟨-, hwfc, -⟩ := cloneTable_spec hwf hp.sz_le hclone
  have haligned := ((unmapPages_returns_iff hwfc _).mp ⟨new, hnew⟩).2
  have hout : vpn a ∉ (restrictedPages s).map vpn := by
    intro hmem
    obtain ⟨b, hb, hab⟩ := List.mem_map.mp hmem
    exact hnone b hb (vpn_inj (haligned b hb).1 ha.1 hab ▸ ha)
  rw [Mapped, unmapPages_leaf hnew, if_neg hout]
  exact hclones

theorem TableInv.trap (I : TableInv w) {p p' : Proc} {s' : VmState}
    (hp : w.machine.procs pid = .running p) (hg : ModeKept w (.run (.trap pid cause t)))
    (hu : usertrap cause t w.machine.vm p = .ok (s', p'))
    (hmem : (w.host.next (.trap pid cause t)
      ⟨s', Function.update w.machine.procs pid (leave p')⟩).TablesInMemory) :
    TableInv ⟨w.host.next (.trap pid cause t)
      ⟨s', Function.update w.machine.procs pid (leave p')⟩,
      w.history.trap cause t w.machine.vm p s'⟩ := by
  have hpok := I.ok.procs pid p hp
  have hstep : step w.machine (.trap pid cause t) =
      .ok ⟨s', Function.update w.machine.procs pid (leave p')⟩ := by
    simp only [step, hp, hu, ok_bind]
  have hok := step_ok I.ok _ hstep
  have hold := usertrap_region I.ok.vm hpok I.old hu
  obtain ⟨hends, hmret⟩ := hg p hp
  have hbefore (hk : p'.killed = p.killed) (ht : p'.pagetable = p.pagetable) {q : ℕ} {r : Proc}
      (hr : (⟨s', Function.update w.machine.procs pid (leave p')⟩ : Machine).Alive q r) :
      ∃ r₀, w.machine.Alive q r₀ ∧ r.pagetable = r₀.pagetable := by
    rcases alive_update hr with ⟨rfl, rfl, hkilled⟩ | ⟨-, hother⟩
    · exact ⟨p, ⟨hp, hk ▸ hkilled⟩, ht⟩
    · exact ⟨r, hother, rfl⟩
  -- a VM that was not the one to trap is on a full table, if the trap ends in machine mode
  have hothers (ends : EndsInMachine cause t w.machine.vm p) {q : ℕ} {r : Proc} (hq : q ≠ pid)
      (hr : w.machine.Alive q r) : RegionMapped r.pagetable := by
    by_cases hres : w.Restricted
    · exact absurd (hends hres ends q r hr) hq
    · exact I.mapped hres hr
  cases usertrap_switch I.ok.vm hpok hu with
  | stays mode table alive history =>
    have hle := I.mode
    have hbuilt : (w.history.trap cause t w.machine.vm p s').built = w.history.built := by
      rcases history with ⟨-, h⟩ | ⟨-, h⟩
      · rw [h]
      · rw [h]
    refine ⟨hok, hmem, ?_, ?_, hold, fun q r hr hmode => ?_, fun q r hr hmode u hu' => ?_,
      fun hnone q r hr => ?_⟩
    · change s'.currentMode ≤ 2
      omega
    · change (w.history.trap cause t w.machine.vm p s').written = true ↔ s'.pmpConfiguration = 1
      rcases history with ⟨hflag, h⟩ | ⟨hflag, h⟩
      · rw [h, hflag]
        exact I.flag
      · rw [h]
        exact iff_of_true rfl hflag
    · obtain ⟨r₀, hr₀, heq⟩ := hbefore alive table hr
      have hmode' : s'.currentMode = 2 := hmode
      rw [heq]
      exact I.machine q r₀ hr₀ (by omega)
    · obtain ⟨r₀, hr₀, heq⟩ := hbefore alive table hr
      have hmode' : s'.currentMode < 2 := hmode
      rw [heq]
      exact I.lower q r₀ hr₀ (by omega) u (hbuilt ▸ hu')
    · obtain ⟨r₀, hr₀, heq⟩ := hbefore alive table hr
      rw [heq]
      exact I.unrestricted (hbuilt ▸ hnone) q r₀ hr₀
  | toMachine ends mode mode' table alive flag history =>
    have hmapped {q : ℕ} {r : Proc}
        (hr : (⟨s', Function.update w.machine.procs pid (leave p')⟩ : Machine).Alive q r) :
        RegionMapped r.pagetable := by
      rcases alive_update hr with ⟨rfl, rfl, -⟩ | ⟨hq, hother⟩
      · obtain ⟨u, hu', -⟩ := (hok.procs q r hr.1).table
        rw [table]
        apply hold
        rw [← table, hu']
        rfl
      · exact hothers ends hq hother
    refine ⟨hok, hmem, mode'.le, ?_, hold, fun q r hr _ => hmapped hr, fun q r hr hmode => ?_,
      fun _ q r hr => hmapped hr⟩
    · change (w.history.trap cause t w.machine.vm p s').written = true ↔ s'.pmpConfiguration = 1
      rw [history, flag]
      exact I.flag
    · have hmode' : s'.currentMode < 2 := hmode
      omega
  | mret mode mode' table alive unset flag history =>
    have hle := I.mode
    have hwritten : w.history.written = false := by
      rw [← Bool.not_eq_true, I.flag]
      exact unset
    have hmapped {q : ℕ} {r : Proc}
        (hr : (⟨s', Function.update w.machine.procs pid (leave p')⟩ : Machine).Alive q r) :
        RegionMapped r.pagetable := by
      obtain ⟨r₀, hr₀, heq⟩ := hbefore alive table hr
      rw [heq]
      exact I.machine q r₀ hr₀ (by omega)
    refine ⟨hok, hmem, ?_, ?_, hold, fun q r hr _ => hmapped hr, fun q r hr _ u hu' => ?_,
      fun _ q r hr => hmapped hr⟩
    · exact mode'.le.trans ((mretMode_le mode).trans hle)
    · change (w.history.trap cause t w.machine.vm p s').written = true ↔ s'.pmpConfiguration = 1
      rw [history _ hwritten, flag]
      exact iff_of_false Bool.false_ne_true unset
    · rw [history _ hwritten] at hu'
      cases hu'
  | mretPmp emulated is_mret mode mode' r clone new active copied withdrawn table alive set flag
      history =>
    have hle := I.mode
    have hwritten : w.history.written = true := I.flag.2 set
    obtain ⟨hlow, hhigh⟩ := hmret emulated is_mret mode hwritten
    refine ⟨hok, hmem, ?_, ?_, hold, fun q u hu' hmode => ?_, fun q u hu' hmode v hv => ?_,
      fun hnone => ?_⟩
    · exact mode'.le.trans ((mretMode_le mode).trans hle)
    · rw [history _ hwritten]
      exact iff_of_true rfl flag
    · have hmode' : s'.currentMode = 2 := hmode
      rcases alive_update hu' with ⟨rfl, rfl, hkilled⟩ | ⟨-, hother⟩
      · rw [table]
        exact restricted_regionMapped (hpok.trapped t) active copied withdrawn
          (hhigh (by omega) (alive ▸ hkilled))
      · exact I.machine q u hother (by omega)
    · have hmode' : s'.currentMode < 2 := hmode
      rw [history _ hwritten] at hv
      rcases alive_update hu' with ⟨rfl, rfl, -⟩ | ⟨hq, hother⟩
      · rw [table]
        exact hv
      · exact absurd (hlow (by omega) q u hother) hq
    · rw [history _ hwritten] at hnone
      cases hnone
  | reset ends init killed history =>
    have hmapped {q : ℕ} {r : Proc}
        (hr : (⟨s', Function.update w.machine.procs pid (leave p')⟩ : Machine).Alive q r) :
        RegionMapped r.pagetable := by
      rcases alive_update hr with ⟨-, -, hkilled⟩ | ⟨hq, hother⟩
      · rw [killed] at hkilled
        cases hkilled
      · exact hothers ends hq hother
    refine ⟨hok, hmem, ?_, ?_, hold, fun q r hr _ => hmapped hr, fun q r hr _ u hu' => ?_,
      fun _ q r hr => hmapped hr⟩
    · change s'.currentMode ≤ 2
      rw [init]
      exact le_rfl
    · change (w.history.trap cause t w.machine.vm p s').written = true ↔ s'.pmpConfiguration = 1
      rw [history, init]
      exact iff_of_false Bool.false_ne_true Nat.zero_ne_one
    · rw [history] at hu'
      cases hu'

theorem TableInv.follow (I : TableInv w) : TablesFollow w :=
  ⟨I.machine, I.lower, fun pid p hp => I.memory pid p hp.1⟩

theorem TableInv.congr (I : TableInv w) (hm : w'.machine = w.machine)
    (hh : w'.history = w.history) (hmem : w'.host.TablesInMemory) : TableInv w' := by
  refine ⟨?_, hmem, ?_, ?_, ?_, ?_, ?_, ?_⟩
  · exact hm ▸ I.ok
  · exact hm ▸ I.mode
  · exact hm ▸ hh ▸ I.flag
  · exact hm ▸ I.old
  · exact hm ▸ I.machine
  · exact hm ▸ hh ▸ I.lower
  · exact hm ▸ hh ▸ I.unrestricted

/-- One step keeps the tables in step with the mode. -/
theorem TableInv.step {kend : ℕ} (I : TableInv w) {e : HostEvent} (hfresh : Fresh w.host e)
    (hg : TableKept w e) (h : tableStep kend w e = .ok w') : TableInv w' := by
  obtain ⟨host, hhost, h⟩ := bind_ok_iff.mp h
  cases h
  have hmem := (step_tablesInMemory_iff I.ok I.memory hfresh hhost).mpr hg.1
  obtain ⟨-, hg⟩ := hg
  cases e with
  | wait pid => exact I.congr (wait_machine hhost) rfl hmem
  | run e =>
    obtain ⟨m, hm, hhost⟩ := bind_ok_iff.mp hhost
    cases hhost
    have hok := step_ok I.ok e hm
    cases e with
    | exec pid img =>
      simp only [TrapEmulate.step] at hm
      split at hm
      · next hslot =>
        cases hm
        have hcase {q : ℕ} {r : Proc} (hr : (⟨w.machine.vm, Function.update w.machine.procs pid
            (.running img.proc)⟩ : Machine).Alive q r) :
            RegionMapped r.pagetable ∧ r = img.proc ∨ w.machine.Alive q r := by
          obtain ⟨hrun, hk⟩ := hr
          by_cases hq : q = pid
          · subst hq
            have heq : img.proc = r := by simpa using hrun
            exact Or.inl ⟨heq ▸ img.regionMapped, heq.symm⟩
          · exact Or.inr ⟨by simpa [hq] using hrun, hk⟩
        refine ⟨hok, hmem, I.mode, I.flag, I.old, fun q r hr hmode => ?_,
          fun q r hr hmode u hu => ?_, fun hnone q r hr => ?_⟩
        · rcases hcase hr with ⟨hmapped, -⟩ | hbefore
          · exact hmapped
          · exact I.machine q r hbefore hmode
        · rcases hcase hr with - | hbefore
          · exact absurd ⟨hmode, Option.isSome_iff_exists.2 ⟨u, hu⟩⟩ (hg hslot)
          · exact I.lower q r hbefore hmode u hu
        · rcases hcase hr with ⟨hmapped, -⟩ | hbefore
          · exact hmapped
          · exact I.unrestricted hnone q r hbefore
      · exact I.congr (Except.ok.inj hm).symm rfl hmem
    | trap pid cause t =>
      cases hslot : w.machine.procs pid with
      | running p =>
        simp only [TrapEmulate.step, hslot] at hm
        obtain ⟨⟨s', p'⟩, hu, hm⟩ := bind_ok_iff.mp hm
        cases hm
        simp only [TableRun.next, hslot]
        exact I.trap hslot hg hu hmem
      | _ =>
        simp only [TrapEmulate.step, hslot, Except.ok.injEq] at hm
        refine I.congr hm.symm ?_ hmem
        simp only [TableRun.next, hslot]
    | kill pid =>
      simp only [TrapEmulate.step] at hm
      split at hm
      · next p hp =>
        cases hm
        have hcase {q : ℕ} {r : Proc} (hr : (⟨w.machine.vm, Function.update w.machine.procs pid
            (.running p.setkilled)⟩ : Machine).Alive q r) : w.machine.Alive q r := by
          obtain ⟨hrun, hk⟩ := hr
          by_cases hq : q = pid
          · subst hq
            have heq : p.setkilled = r := by simpa using hrun
            rw [← heq] at hk
            cases hk
          · exact ⟨by simpa [hq] using hrun, hk⟩
        exact ⟨hok, hmem, I.mode, I.flag, I.old, fun q r hr => I.machine q r (hcase hr),
          fun q r hr => I.lower q r (hcase hr),
          fun hnone q r hr => I.unrestricted hnone q r (hcase hr)⟩
      · exact I.congr (Except.ok.inj hm).symm rfl hmem

end Run

theorem exec_tableStep {kend : ℕ} {w : TableRun} {es : List HostEvent} {h : Host}
    (hrun : exec (hostStep kend) w.host es = .ok h) :
    ∃ w', exec (tableStep kend) w es = .ok w' ∧ w'.host = h := by
  induction es generalizing w with
  | nil =>
    cases hrun
    exact ⟨w, rfl, rfl⟩
  | cons e es ih =>
    obtain ⟨h₁, hstep, hrun⟩ := bind_ok_iff.mp hrun
    obtain ⟨w', hw', hh⟩ := ih (w := w.next e h₁) hrun
    exact ⟨w', bind_ok_iff.mpr ⟨w.next e h₁, bind_ok_iff.mpr ⟨h₁, hstep, rfl⟩, hw'⟩, hh⟩

theorem guarded_tableStep {kend : ℕ} {guard : Host → HostEvent → Prop} {w : TableRun}
    {es : List HostEvent} (h : Guarded (hostStep kend) guard w.host es) :
    Guarded (tableStep kend) (fun w e => guard w.host e) w es := by
  induction es generalizing w with
  | nil => trivial
  | cons e es ih =>
    refine ⟨h.1, fun u hu => ?_⟩
    obtain ⟨h₁, hstep, hu⟩ := bind_ok_iff.mp hu
    cases hu
    exact ih (h.2 h₁ hstep)

theorem exec_hostStep {kend : ℕ} {h : Host} {es : List Event} {m : Machine}
    (hrun : exec step h.machine es = .ok m) :
    ∃ h', exec (hostStep kend) h (es.map .run) = .ok h' ∧ h'.machine = m := by
  induction es generalizing h with
  | nil =>
    cases hrun
    exact ⟨h, rfl, rfl⟩
  | cons e es ih =>
    obtain ⟨m₁, hstep, hrun⟩ := bind_ok_iff.mp hrun
    obtain ⟨h', hh', hm⟩ := ih (h := h.next e m₁) hrun
    exact ⟨h', bind_ok_iff.mpr ⟨_, bind_ok_iff.mpr ⟨m₁, hstep, rfl⟩, hh'⟩, hm⟩

section Restricted

variable {s : VmState} {p : Proc}

theorem dispatch_mret_restricted (hs : s.Ok) (hp : p.Ok) (hfull : p.TableFull)
    (hmode : s.currentMode = 2) (hflag : s.pmpConfiguration = 1) (hcfg : s.val .pmpcfg0 = 0)
    (haddr : s.val (.pmpaddr 0) = 0x20000400) (hrest : ∀ i, i ≠ 0 → s.val (.pmpaddr i) = 0) :
    ∃ s' p', dispatch mretTrap s p = .ok (s', p') ∧
      mretPmp (mretState s) (p.setEpc (s.val .mepc)) mretTrap.newPage = .ok (s', p') := by
  obtain ⟨C, -, -⟩ := pmpContent_csrwPmpaddr0 hcfg haddr hrest
  have hret : Returns (mretPmp (mretState s) (p.setEpc (s.val .mepc)) mretTrap.newPage) := by
    rw [mretPmp_returns_iff (hp.setEpc _)]
    refine ⟨hfull, ?_⟩
    rw [PmpFits, restrictedPages_mretState]
    exact C.pmpFits p.sz
  obtain ⟨⟨s', p'⟩, hres⟩ := hret
  refine ⟨s', p', ?_, hres⟩
  rw [dispatch_mretTrap, handleMret_returns_pmp hs.intact hmode.ge hflag, hres]

end Restricted

/-- A VM sets the first bound of the PMP and goes to user mode. -/
def goesToUser (pid : ℕ) : List HostEvent :=
  [.run (.exec pid VmImage.complete), .run (.trap pid .illegal csrwPmpaddr0),
    .run (.trap pid .illegal mretTrap)]

theorem not_onSaved_csrwPmpaddr0 (s : VmState) : ¬ OnSaved csrwPmpaddr0 s := by
  rintro (⟨h, -⟩ | ⟨h, -⟩) <;> exact absurd h.1 (by decide)

theorem not_onSaved_mretTrap (s : VmState) : ¬ OnSaved mretTrap s := by
  rintro (⟨h, -⟩ | ⟨h, -⟩)
  · exact absurd h.2 (by decide)
  · exact absurd isMret_mretTrap.2 h.2.2

/-- The VM has written the bound. -/
structure Host.BoundSet (h₁ h₂ : Host) (pid : ℕ) (p : Proc) : Prop where
  step : hostStep 0x80022000 h₁ (.run (.trap pid .illegal csrwPmpaddr0)) = .ok h₂
  ok : h₂.machine.vm.Ok
  mode : h₂.machine.vm.currentMode = 2
  flag : h₂.machine.vm.pmpConfiguration = 1
  saved : h₂.machine.vm.oldPtable.isSome
  pmpcfg0 : h₂.machine.vm.val .pmpcfg0 = 0
  pmpaddr0 : h₂.machine.vm.val (.pmpaddr 0) = 0x20000400
  pmpaddr : ∀ i, i ≠ 0 → h₂.machine.vm.val (.pmpaddr i) = 0
  mstatus : h₂.machine.vm.val .mstatus = 0
  proc : h₂.machine.procs pid = .running p
  proc_ok : p.Ok
  full : p.TableFull
  others : ∀ i, i ≠ pid → h₂.machine.procs i = h₁.machine.procs i
  tables : h₂.tables KallocPage.third = none

theorem Host.Started.setsBound {h h₁ : Host} {pid : ℕ} (S : h.Started h₁ pid) :
    ∃ h₂ p, h₁.BoundSet h₂ pid p := by
  have hpok := VmImage.complete.proc_ok.trapped csrwPmpaddr0
  obtain ⟨new, hwf, hcsrw⟩ := step_first_trap (t := csrwPmpaddr0) S.vm S.proc hpok
    (VmImage.complete.tableFull csrwPmpaddr0)
  have hsaved : (VmState.saved ⟨csrwPmpaddr0.oldPage, new⟩).Ok :=
    ⟨VmState.intact_saved _, fun t ht => by cases ht; exact hwf⟩
  have hdis : dispatch csrwPmpaddr0 (VmState.saved ⟨csrwPmpaddr0.oldPage, new⟩)
      (VmImage.complete.proc.trapped csrwPmpaddr0) =
      handleCsrw (VmState.saved ⟨csrwPmpaddr0.oldPage, new⟩)
        (VmImage.complete.proc.trapped csrwPmpaddr0) 10 (Csr.pmpaddr 0).code := rfl
  rw [hdis, handleCsrw_permitted hsaved.intact 10 (Nat.zero_le _),
    Proc.trapped_regWord _ _ (by decide), ok_bind] at hcsrw
  generalize hs : csrwState (VmState.saved ⟨csrwPmpaddr0.oldPage, new⟩) (.pmpaddr 0)
    (csrwPmpaddr0.regs 10) = s at hcsrw
  generalize hp : (VmImage.complete.proc.trapped csrwPmpaddr0).setEpc
    ((VmImage.complete.proc.trapped csrwPmpaddr0).epc + 4) = p at hcsrw
  have hleave : leave p = .running p := by
    rw [← hp]
    rfl
  rw [hleave] at hcsrw
  have hval {c : Csr} (hc : c ≠ .pmpaddr 0) :
      s.val c = (VmState.saved ⟨csrwPmpaddr0.oldPage, new⟩).val c := by
    rw [← hs, csrwState_val_ne _ hc]
  refine ⟨h₁.next (.trap pid .illegal csrwPmpaddr0)
      ⟨s, Function.update h₁.machine.procs pid (.running p)⟩, p,
    ⟨bind_ok_iff.mpr ⟨_, hcsrw, rfl⟩, hs ▸ hsaved.csrwState _ _, ?_, ?_, ?_, hval (by decide), ?_,
      fun i hi => hval fun h => hi (Csr.pmpaddr.inj h), hval (by decide), Function.update_self ..,
      hp ▸ hpok.setEpc _, hp ▸ VmImage.complete.tableFull csrwPmpaddr0,
      fun i hi => Function.update_of_ne hi _ _, ?_⟩⟩
  · change s.currentMode = 2
    rw [← hs]
    rfl
  · change s.pmpConfiguration = 1
    rw [← hs]
    rfl
  · change s.oldPtable.isSome
    rw [← hs]
    rfl
  · change s.val (.pmpaddr 0) = _
    rw [← hs]
    exact csrwState_val_self _ _ _
  · have hnone : mretTable .illegal csrwPmpaddr0 h₁.machine.vm VmImage.complete.proc = none :=
      if_neg fun h => absurd h.2.1.1 (by decide)
    change store h₁.tables (h₁.machine.built (.trap pid .illegal csrwPmpaddr0)) _ = none
    rw [store_of_notMem, S.tables _ (by decide)]
    rw [Host.built_trap S.proc, hnone, Option.toList_none, List.append_nil]
    intro hmem
    obtain ⟨r, hr, hpage⟩ := List.mem_map.mp hmem
    rw [(savedTable_page (Option.mem_toList.mp hr)).1] at hpage
    exact absurd hpage (by decide)

theorem Host.BoundSet.mret {h₁ h₂ : Host} {pid : ℕ} {p : Proc} (B : h₁.BoundSet h₂ pid p) :
    Returns (hostStep 0x80022000 h₂ (.run (.trap pid .illegal mretTrap))) := by
  obtain ⟨s', p', hdis, -⟩ := dispatch_mret_restricted (p := p.trapped mretTrap) B.ok
    (B.proc_ok.trapped _) B.full B.mode B.flag B.pmpcfg0 B.pmpaddr0 B.pmpaddr
  have hmret := step_illegal B.saved B.proc mretTrap
  rw [hdis, ok_bind] at hmret
  exact ⟨_, bind_ok_iff.mpr ⟨_, hmret, rfl⟩⟩

theorem goesToUser_kept {w : TableRun} {pid : ℕ} (I : w.host.Idle)
    (habsent : w.machine.procs pid = .absent) :
    Guarded (tableStep 0x80022000) (fun w e => Fresh w.host e) w (goesToUser pid) ∧
      Guarded (tableStep 0x80022000) TableKept w (goesToUser pid) ∧
      Returns (exec (tableStep 0x80022000) w (goesToUser pid)) := by
  obtain ⟨h₁, S⟩ := I.started habsent
  obtain ⟨h₂, p₂, B⟩ := S.setsBound
  obtain ⟨h₃, hmret⟩ := B.mret
  have hmode₀ : w.machine.vm.currentMode = 2 := by
    rw [I.vm]
    rfl
  have hlow : mretMode h₂.machine.vm < 2 := by
    rw [mretMode, B.mstatus, if_pos (by decide)]
    decide
  have honly {u : TableRun} (hu : u.host = h₂) : u.machine.Only pid := by
    intro q r hr
    by_contra hq
    have hrun := hr.1
    rw [TableRun.machine, hu, B.others q hq, S.others q hq] at hrun
    exact I.idle q r hrun
  have hcase₁ {u : TableRun} (hu : tableStep 0x80022000 w (.run (.exec pid VmImage.complete)) =
      .ok u) : u.host = h₁ := by
    obtain ⟨h, hh, hu⟩ := bind_ok_iff.mp hu
    cases hu
    exact Except.ok.inj (hh.symm.trans S.step)
  have hcase₂ {u v : TableRun} (hu : u.host = h₁)
      (hv : tableStep 0x80022000 u (.run (.trap pid .illegal csrwPmpaddr0)) = .ok v) :
      v.host = h₂ := by
    obtain ⟨h, hh, hv⟩ := bind_ok_iff.mp hv
    cases hv
    exact Except.ok.inj (hh.symm.trans (hu ▸ B.step))
  refine ⟨⟨(I.loads habsent).1, fun u hu => ⟨?_, fun v hv => ⟨?_, fun _ _ => trivial⟩⟩⟩,
    ⟨⟨trivial, ?_⟩, fun u hu => ⟨⟨?_, ?_⟩, fun v hv => ⟨⟨?_, ?_⟩, fun _ _ => trivial⟩⟩⟩, ?_⟩
  · change Fresh u.host _
    rw [hcase₁ hu]
    exact fresh_trap (fun _ => S.tables _ (by decide)) (S.tables _ (by decide)) (by decide)
  · change Fresh v.host _
    rw [hcase₂ (hcase₁ hu) hv]
    refine fresh_trap (fun h => ?_) B.tables (by decide)
    have hsaved := B.saved
    rw [h] at hsaved
    cases hsaved
  · exact fun _ h => absurd h.1 (by rw [hmode₀]; decide)
  · exact fun p _ _ _ h => absurd h (not_onSaved_csrwPmpaddr0 _)
  · have hmode₁ : u.machine.vm.currentMode = 2 := by
      rw [TableRun.machine, hcase₁ hu, S.vm]
      rfl
    refine fun p _ => ⟨fun h => absurd h.1 (by rw [hmode₁]; decide), fun _ h => ?_⟩
    exact absurd h.1 (by decide)
  · exact fun p _ _ _ h => absurd h (not_onSaved_mretTrap _)
  · have hv₂ := hcase₂ (hcase₁ hu) hv
    have hmode : v.machine.vm.currentMode = 2 := by rw [TableRun.machine, hv₂, B.mode]
    refine fun p _ => ⟨fun h => absurd h.1 (by rw [hmode]; decide), fun _ _ _ _ =>
      ⟨fun _ => honly hv₂, fun h => ?_⟩⟩
    rw [TableRun.machine, hv₂] at h
    omega
  · have hrun : exec (hostStep 0x80022000) w.host (goesToUser pid) = .ok h₃ :=
      bind_ok_iff.mpr ⟨h₁, S.step, bind_ok_iff.mpr ⟨h₂, B.step, bind_ok_iff.mpr
        ⟨h₃, hmret, rfl⟩⟩⟩
    obtain ⟨w', hw', -⟩ := exec_tableStep hrun
    exact ⟨w', hw'⟩

/-- `csrw mstatus, a0` with 3 in MPP. -/
def csrwMstatus : TrapInput := ⟨0, 0x30051073, fun _ => 0x1800, KallocPage.second, KallocPage.third⟩

/-- An `mret` to a mode that does not exist stays in machine mode and withdraws the page below
the first bound. -/
theorem mret_stays_restricted {s : VmState} {p : Proc} (hs : s.Ok) (hp : p.Ok) (hfull : p.TableFull)
    (hmode : s.currentMode = 2) (hflag : s.pmpConfiguration = 1) (hmpp : s.val .mstatus = 0x1800)
    (hcfg : s.val .pmpcfg0 = 0) (haddr : s.val (.pmpaddr 0) = 0x20000400)
    (hrest : ∀ i, i ≠ 0 → s.val (.pmpaddr i) = 0) :
    ∃ s' p', dispatch mretTrap s p = .ok (s', p') ∧ s'.currentMode = 2 ∧ p'.killed = p.killed ∧
      ¬ RegionMapped p'.pagetable := by
  obtain ⟨C, -, -⟩ := pmpContent_csrwPmpaddr0 hcfg haddr hrest
  obtain ⟨r, hr, hwf⟩ := hp.table
  obtain ⟨s', p', hdis, hres⟩ := dispatch_mret_restricted hs hp hfull hmode hflag hcfg haddr hrest
  have hr' : (p.setEpc (s.val .mepc)).pagetable = some r := hr
  rw [mretPmp_eq hr', restrictedPages_mretState] at hres
  obtain ⟨clone, hclone, hres⟩ := bind_ok_iff.mp hres
  obtain ⟨new, hnew, hres⟩ := bind_ok_iff.mp hres
  cases hres
  refine ⟨_, _, hdis, ?_, rfl, fun hmapped => ?_⟩
  · change mretMode s = 2
    rw [mretMode, hmpp, if_neg (by decide), hmode]
  · have hregion : RegionPage vmStart := ⟨by decide, by decide, by decide⟩
    obtain ⟨u, hu, hin⟩ := hmapped vmStart hregion
    cases hu
    refine ((withdrawn_table C (hp.setEpc _) hwf hclone hnew hregion).1.mp hin) ?_
    have hend : pmpEnd s 0 = 0x80001000 := by
      rw [pmpEnd, haddr]
      decide
    rw [C.mem_restrictedPages, haddr]
    refine ⟨by decide, hregion, 0, ?_, Nat.zero_le _, ?_⟩
    · rw [pmpRwx, hcfg]
      decide
    · rw [hend]
      decide

theorem dispatch_csrwMstatus (s : VmState) (p : Proc) :
    dispatch csrwMstatus s p = handleCsrw s p 10 Csr.mstatus.code := rfl

end AdvancedOperatingSystems.TrapEmulate
