import AdvancedOperatingSystems.TrapEmulate.Host

/-!
# Zombies that `wait` finds

A zombie can be reaped if the table it was left fits it and is still in memory. Two zombies
must not share a page, or the first to be reaped takes the other one's table away.
-/

namespace AdvancedOperatingSystems.TrapEmulate

open Foundations Riscv Riscv.PageTable

/-- What is freed with the process is in use. -/
structure Host.Holds (h : Host) (q : Proc) : Prop where
  table : ∀ r, q.pagetable = some r → h.InMemory r
  frames : ∀ a ∈ freedFrames q, a ∈ h.frames

structure Apart (q q' : Proc) : Prop where
  roots : ∀ r r', q.pagetable = some r → q'.pagetable = some r' → r.page ≠ r'.page
  frames : (freedFrames q).Disjoint (freedFrames q')

/-- Every VM that has ended can be reaped, whichever is reaped first, and none of the others
runs on a table that has been freed. -/
structure AllReapable (kend : ℕ) (h : Host) : Prop where
  running : h.TablesInMemory
  zombie : ∀ pid q, h.Zombie pid q → Reapable kend q ∧ h.Holds q
  apart : ∀ pid pid' q q', h.Zombie pid q → h.Zombie pid' q' → pid ≠ pid' → Apart q q'

/-- The table that the VM is left is in memory with its frames, and no other zombie has any
of these pages. The root page of a table that the trap builds is its own. -/
def LeavesApart (h : Host) (cause : Cause) (t : TrapInput) (p : Proc) : Prop :=
  ∀ r, IsLeft cause t h.machine.vm p r →
    h.Holds { p with pagetable := some r } ∧ ∀ pid q, h.Zombie pid q →
      (freedFrames { p with pagetable := some r }).Disjoint (freedFrames q) ∧
      (¬ OnBuilt cause t h.machine.vm p → ∀ u, q.pagetable = some u → r.page ≠ u.page)

/-- A trap that ends a VM leaves it a table that fits it, and pages that are its own. -/
def EndsReapable (h : Host) : HostEvent → Prop
  | .run (.trap pid cause t) => ∀ p, h.machine.procs pid = .running p →
      Ends cause t h.machine.vm p → LeavesWhole cause t h.machine.vm p ∧ LeavesApart h cause t p
  | _ => True

def StepReapable (h : Host) (e : HostEvent) : Prop := KeepsTables h e ∧ EndsReapable h e

/-- An `exec` starts a loaded image, and `kalloc` hands out free pages. -/
def HostLoads (kend : ℕ) (h : Host) (e : HostEvent) : Prop :=
  Fresh h e ∧ ∀ e', e = .run e' → LoadsImage kend h.machine e'

/-- All tables are ordinary, and what has been reaped was a zombie. -/
structure Host.Ordinary (kend : ℕ) (h : Host) : Prop where
  tables : h.machine.Tables kend
  reaped : ∀ pid ∈ h.reaped, ∃ q, h.machine.procs pid = .zombie q

section Step

variable {kend : ℕ} {h h' : Host} {pid : ℕ} {q : Proc} {cause : Cause} {t : TrapInput}

theorem Apart.symm {q q' : Proc} (h : Apart q q') : Apart q' q :=
  ⟨fun r r' hr hr' => (h.roots r' r hr' hr).symm, h.frames.symm⟩

theorem step_zombie {m m' : Machine} {e : Event} (hz : m.procs pid = .zombie q)
    (hstep : step m e = .ok m') : m'.procs pid = .zombie q := by
  have hkept {s : VmState} {pid' : ℕ} {slot : ProcSlot} (hne : pid ≠ pid') :
      (⟨s, Function.update m.procs pid' slot⟩ : Machine).procs pid = .zombie q := by
    change Function.update m.procs pid' slot pid = .zombie q
    rw [Function.update_of_ne hne, hz]
  rw [step_eq] at hstep
  obtain ⟨⟨s', slot'⟩, hslot, hm⟩ := bind_ok_iff.mp hstep
  cases hm
  by_cases hpid : pid = e.pid
  · subst hpid
    rw [hz] at hslot
    change Function.update m.procs e.pid slot' e.pid = .zombie q
    rw [Function.update_self]
    cases e <;> cases hslot <;> rfl
  · exact hkept hpid

theorem Host.Ordinary.step {e : HostEvent} (H : h.Ordinary kend) (hload : HostLoads kend h e)
    (hstep : hostStep kend h e = .ok h') : h'.Ordinary kend := by
  cases e with
  | run e =>
    obtain ⟨m, hm, hstep⟩ := bind_ok_iff.mp hstep
    cases hstep
    refine ⟨step_tables H.tables (hload.2 e rfl) hm, fun pid hpid => ?_⟩
    obtain ⟨q, hq⟩ := H.reaped pid hpid
    exact ⟨q, step_zombie hq hm⟩
  | wait pid =>
    cases hslot : h.machine.procs pid with
    | zombie q =>
      simp only [hostStep, hslot] at hstep
      split_ifs at hstep
      · cases hstep
        exact H
      · obtain ⟨-, -, hstep⟩ := bind_ok_iff.mp hstep
        cases hstep
        refine ⟨H.tables, fun pid' hpid' => ?_⟩
        rcases Finset.mem_insert.mp hpid' with rfl | hpid'
        · exact ⟨q, hslot⟩
        · exact H.reaped pid' hpid'
    | _ =>
      simp only [hostStep, hslot] at hstep
      cases hstep
      exact H

theorem Host.Holds.next {e : Event} {m : Machine} (hq : h.Holds q) (hfresh : Fresh h (.run e)) :
    (h.next e m).Holds q :=
  ⟨fun r hr => (hq.table r hr).next hfresh,
    fun a ha => Finset.mem_union_left _ (hq.frames a ha)⟩

/-- A step that replaces one process, which was no zombie. -/
theorem allReapable_next_iff {e : Event} {s : VmState} {slot : ProcSlot} (H : h.Ordinary kend)
    (hall : AllReapable kend h) (hfresh : Fresh h (.run e))
    (hpid : ∀ q, h.machine.procs pid ≠ .zombie q) :
    AllReapable kend (h.next e ⟨s, Function.update h.machine.procs pid slot⟩) ↔
      (h.next e ⟨s, Function.update h.machine.procs pid slot⟩).TablesInMemory ∧
        ∀ q, slot = .zombie q → Reapable kend q ∧
          (h.next e ⟨s, Function.update h.machine.procs pid slot⟩).Holds q ∧
          ∀ pid' q', h.Zombie pid' q' → Apart q q' := by
  generalize hnext : h.next e ⟨s, Function.update h.machine.procs pid slot⟩ = h'
  have hprocs : h'.machine.procs = Function.update h.machine.procs pid slot := by
    rw [← hnext]
    rfl
  have hreaped : h'.reaped = h.reaped := by
    rw [← hnext]
    rfl
  have hout : pid ∉ h.reaped := by
    intro hin
    obtain ⟨q, hq⟩ := H.reaped pid hin
    exact hpid q hq
  have hself {q : Proc} (hq : slot = .zombie q) : h'.Zombie pid q := by
    refine ⟨?_, hreaped ▸ hout⟩
    rw [hprocs, Function.update_self, hq]
  have hother {pid' : ℕ} (hne : pid' ≠ pid) (q' : Proc) : h'.Zombie pid' q' ↔ h.Zombie pid' q' := by
    rw [Host.Zombie, Host.Zombie, hprocs, hreaped, Function.update_of_ne hne]
  have hne {pid' : ℕ} {q' : Proc} (hq' : h.Zombie pid' q') : pid' ≠ pid := by
    rintro rfl
    exact hpid q' hq'.1
  have hcase {pid' : ℕ} {q' : Proc} (hq' : h'.Zombie pid' q') :
      pid' = pid ∧ slot = .zombie q' ∨ h.Zombie pid' q' := by
    by_cases hp : pid' = pid
    · subst hp
      have hslot := hq'.1
      rw [hprocs, Function.update_self] at hslot
      exact Or.inl ⟨rfl, hslot⟩
    · exact Or.inr ((hother hp q').mp hq')
  constructor
  · intro hafter
    refine ⟨hafter.running, fun q hq => ?_⟩
    obtain ⟨hreap, hholds⟩ := hafter.zombie pid q (hself hq)
    exact ⟨hreap, hholds, fun pid' q' hq' =>
      hafter.apart pid pid' q q' (hself hq) ((hother (hne hq') q').mpr hq') (hne hq').symm⟩
  · rintro ⟨hrun, hslot⟩
    refine ⟨hrun, fun pid' q' hq' => ?_, fun i j q q' hq hq' hij => ?_⟩
    · rcases hcase hq' with ⟨-, hz⟩ | hz
      · exact ⟨(hslot q' hz).1, (hslot q' hz).2.1⟩
      · obtain ⟨hreap, hholds⟩ := hall.zombie pid' q' hz
        exact ⟨hreap, hnext ▸ hholds.next hfresh⟩
    · rcases hcase hq with ⟨rfl, hz⟩ | hz
      · rcases hcase hq' with ⟨rfl, -⟩ | hz'
        · exact absurd rfl hij
        · exact (hslot q hz).2.2 j q' hz'
      · rcases hcase hq' with ⟨rfl, hz'⟩ | hz'
        · exact ((hslot q' hz').2.2 i q hz).symm
        · exact hall.apart i j q q' hz hz' hij

/-- Reaping one zombie leaves the others reapable. -/
theorem allReapable_free_iff (hall : AllReapable kend h) (hq : h.Zombie pid q) :
    AllReapable kend (h.free pid q) ↔ KeepsTables h (.wait pid) := by
  rw [← free_tablesInMemory_iff hall.running hq]
  refine ⟨fun hafter => hafter.running, fun hrun => ?_⟩
  have hz {pid' : ℕ} {q' : Proc} (hq' : (h.free pid q).Zombie pid' q') :
      pid ≠ pid' ∧ h.Zombie pid' q' := by
    obtain ⟨hslot, hin⟩ := hq'
    have hnot : pid' ∉ insert pid h.reaped := hin
    rw [Finset.mem_insert, not_or] at hnot
    exact ⟨fun heq => hnot.1 heq.symm, hslot, hnot.2⟩
  refine ⟨hrun, fun pid' q' hq' => ?_, fun i j q₁ q₂ h₁ h₂ hij =>
    hall.apart i j q₁ q₂ (hz h₁).2 (hz h₂).2 hij⟩
  obtain ⟨hne, hq'⟩ := hz hq'
  obtain ⟨hreap, hholds⟩ := hall.zombie pid' q' hq'
  have hapart := hall.apart pid pid' q q' hq hq' hne
  refine ⟨hreap, fun r' hr' => ?_, fun a ha => Finset.mem_sdiff.mpr ⟨hholds.frames a ha, ?_⟩⟩
  · have hin : h.tables r'.page = some r'.table := hholds.table r' hr'
    change q.pagetable.elim h.tables _ r'.page = some r'.table
    cases hr : q.pagetable with
    | none => exact hin
    | some r =>
      simp only [Option.elim_some]
      rw [Function.update_of_ne (hapart.roots r r' hr hr').symm]
      exact hin
  · rw [List.mem_toFinset]
    exact fun hmem => hapart.frames hmem ha

theorem usertrap_reapable_iff {s s' : VmState} {p p' : Proc} (hs : s.Ok) (hp : p.Ok)
    (hframe : Freeable kend p.trapframePage)
    (hold : ∀ r, s.oldPtable = some r → TrapEmulate.Ordinary kend r.table)
    (hact : ∀ r, p.pagetable = some r → TrapEmulate.Ordinary kend r.table)
    (hu : usertrap cause t s p = .ok (s', p')) : Reapable kend p' ↔ LeavesWhole cause t s p := by
  have hleft := usertrap_left hs hp hold hact hu
  rw [reapable_iff hleft.active (hleft.frame ▸ hframe) (hleft.sz ▸ hp.sz_le)]
  exact usertrap_whole_iff hs hp hold hact hu

section Trap

variable {s' : VmState} {p p' : Proc} {m : Machine}

theorem freedFrames_some {r : TableRef} (hr : p'.pagetable = some r) (hsz : p'.sz = p.sz)
    (hframe : p'.trapframePage = p.trapframePage) {u : TableRef}
    (hu : imageFrames r.table p.sz = imageFrames u.table p.sz) :
    freedFrames p' = freedFrames { p with pagetable := some u } := by
  simp only [freedFrames, hr, hsz, hframe, hu, Option.elim_some]

/-- What a VM that ends is left is in use and apart from the zombies if the table it is left,
or that is copied for it, is. -/
theorem trap_apart_iff (hall : AllReapable kend h) (hok : h.machine.Ok)
    (hfresh : Fresh h (.run (.trap pid cause t))) (hp : h.machine.procs pid = .running p)
    (hu : usertrap cause t h.machine.vm p = .ok (s', p')) (hsz : p'.sz = p.sz)
    (hframe : p'.trapframePage = p.trapframePage) (hwhole : Whole p')
    (hleaves : LeavesWhole cause t h.machine.vm p) :
    ((h.next (.trap pid cause t) m).Holds p' ∧ ∀ pid' q', h.Zombie pid' q' → Apart p' q') ↔
      LeavesApart h cause t p := by
  have hpok := hok.procs pid p hp
  have hbuilt_eq : h.machine.built (.trap pid cause t) = _ := Host.built_trap hp
  have hframes : (h.next (.trap pid cause t) m).frames = h.frames := Finset.union_empty _
  by_cases hb : OnBuilt cause t h.machine.vm p
  · obtain ⟨r, r', hr, hr', hin, hcopy⟩ := usertrap_built hok.vm hpok hu hb
    rw [← hbuilt_eq] at hin
    have hfreed := freedFrames_some hr' hsz hframe (hcopy hleaves)
    have hroot {pid' : ℕ} {q' : Proc} (hq' : h.Zombie pid' q') {u : TableRef}
        (hu' : q'.pagetable = some u) : r'.page ≠ u.page := by
      intro heq
      have hmem : h.tables u.page = some u.table := (hall.zombie pid' q' hq').2.table u hu'
      rw [← heq, hfresh.1 r' hin] at hmem
      cases hmem
    constructor
    · rintro ⟨hholds, hapart⟩ u hu'
      obtain rfl : r = u := Option.some.inj (hr.symm.trans (hu'.2 hb.not_onOld))
      refine ⟨⟨fun v hv => ?_, fun a ha => ?_⟩, fun pid' q' hq' => ⟨?_, fun hno => absurd hb hno⟩⟩
      · cases hv
        exact hall.running pid p hp r hr
      · exact hframes ▸ hholds.frames a (hfreed ▸ ha)
      · exact hfreed ▸ (hapart pid' q' hq').frames
    · intro hleft
      obtain ⟨hholds, hapart⟩ := hleft r ⟨fun hold => absurd hold hb.not_onOld, fun _ => hr⟩
      refine ⟨⟨fun v hv => ?_, fun a ha => ?_⟩, fun pid' q' hq' => ⟨fun v u hv hu' => ?_, ?_⟩⟩
      · obtain rfl : r' = v := Option.some.inj (hr'.symm.trans hv)
        exact Host.inMemory_built hfresh hin
      · exact hframes ▸ hholds.frames a (hfreed ▸ ha)
      · obtain rfl : r' = v := Option.some.inj (hr'.symm.trans hv)
        exact hroot hq' hu'
      · exact hfreed ▸ (hapart pid' q' hq').1
  · obtain ⟨r, hr, -⟩ := hwhole
    have hleft := usertrap_table hok.vm hpok hu hb
    have hfreed := freedFrames_some (u := r) hr hsz hframe rfl
    constructor
    · rintro ⟨hholds, hapart⟩ u hu'
      obtain rfl : r = u := Option.some.inj (hr.symm.trans ((hleft u).mpr hu'))
      refine ⟨⟨fun v hv => ?_, fun a ha => ?_⟩, fun pid' q' hq' => ⟨?_, fun _ v hv => ?_⟩⟩
      · cases hv
        by_cases hold : OnOld cause t h.machine.vm p
        · have hin := hholds.table r hr
          rw [Host.InMemory, Host.next, hbuilt_eq, hold.built] at hin
          exact hin
        · exact hall.running pid p hp r (hu'.2 hold)
      · exact hframes ▸ hholds.frames a (hfreed ▸ ha)
      · exact hfreed ▸ (hapart pid' q' hq').frames
      · exact (hapart pid' q' hq').roots r v hr hv
    · intro h'
      obtain ⟨hholds, hapart⟩ := h' r ((hleft r).mp hr)
      refine ⟨⟨fun v hv => ?_, fun a ha => ?_⟩, fun pid' q' hq' => ⟨fun v u hv hu' => ?_, ?_⟩⟩
      · obtain rfl : r = v := Option.some.inj (hr.symm.trans hv)
        exact Host.InMemory.next (hholds.table r rfl) hfresh
      · exact hframes ▸ hholds.frames a (hfreed ▸ ha)
      · obtain rfl : r = v := Option.some.inj (hr.symm.trans hv)
        exact (hapart pid' q' hq').2 hb u hu'
      · exact hfreed ▸ (hapart pid' q' hq').1

theorem trap_allReapable_iff (H : h.Ordinary kend) (hall : AllReapable kend h)
    (hfresh : Fresh h (.run (.trap pid cause t))) (hp : h.machine.procs pid = .running p)
    (hu : usertrap cause t h.machine.vm p = .ok (s', p')) :
    AllReapable kend (h.next (.trap pid cause t)
        ⟨s', Function.update h.machine.procs pid (leave p')⟩) ↔
      StepReapable h (.run (.trap pid cause t)) := by
  have hok := H.tables.ok
  have hpok := hok.procs pid p hp
  have hact := H.tables.active pid p hp
  have hleft := usertrap_left hok.vm hpok H.tables.saved hact hu
  have hreap := usertrap_reapable_iff hok.vm hpok (H.tables.frame pid p hp) H.tables.saved hact hu
  have hends := usertrap_killed_iff hok.vm hpok hu
  rw [allReapable_next_iff H hall hfresh (by simp [hp]),
    trap_tablesInMemory_iff hok hall.running hfresh hp hu, StepReapable]
  apply and_congr_right
  intro _
  constructor
  · intro hslot q hq he
    obtain rfl : p = q := ProcSlot.running.inj (hp.symm.trans hq)
    obtain ⟨hr, hrest⟩ := hslot p' (if_pos (hends.mpr he))
    have hwhole := (usertrap_whole_iff hok.vm hpok H.tables.saved hact hu).mpr (hreap.mp hr)
    exact ⟨hreap.mp hr, (trap_apart_iff hall hok hfresh hp hu hleft.sz hleft.frame hwhole
      (hreap.mp hr)).mp hrest⟩
  · intro hguard q hq
    have hkilled : p'.killed = true := by
      by_contra hk
      rw [leave, if_neg hk] at hq
      cases hq
    rw [leave, if_pos hkilled] at hq
    cases hq
    obtain ⟨hleaves, hapart⟩ := hguard p hp (hends.mp hkilled)
    have hwhole := (usertrap_whole_iff hok.vm hpok H.tables.saved hact hu).mpr hleaves
    exact ⟨hreap.mpr hleaves,
      (trap_apart_iff hall hok hfresh hp hu hleft.sz hleft.frame hwhole hleaves).mpr hapart⟩

end Trap

theorem allReapable_same {e : Event} (hall : AllReapable kend h) (hfresh : Fresh h (.run e)) :
    AllReapable kend (h.next e h.machine) where
  running pid p hp r hr := (hall.running pid p hp r hr).next hfresh
  zombie pid q hq := ⟨(hall.zombie pid q hq).1, (hall.zombie pid q hq).2.next hfresh⟩
  apart := hall.apart

theorem step_allReapable_iff {e : HostEvent} (H : h.Ordinary kend) (hload : HostLoads kend h e)
    (hall : AllReapable kend h) (hstep : hostStep kend h e = .ok h') :
    AllReapable kend h' ↔ StepReapable h e := by
  obtain ⟨hfresh, hload⟩ := hload
  have hkeeps := step_tablesInMemory_iff H.tables.ok hall.running hfresh hstep
  cases e with
  | wait pid =>
    rw [StepReapable, and_iff_left (show EndsReapable h (.wait pid) from trivial)]
    have hskip (hsame : h' = h) : AllReapable kend h' ↔ KeepsTables h (.wait pid) := by
      subst hsame
      exact iff_of_true hall (hkeeps.mp hall.running)
    cases hslot : h.machine.procs pid with
    | zombie q =>
      simp only [hostStep, hslot] at hstep
      split_ifs at hstep with hin
      · exact hskip (Except.ok.inj hstep).symm
      · obtain ⟨-, -, hstep⟩ := bind_ok_iff.mp hstep
        cases hstep
        exact allReapable_free_iff hall ⟨hslot, hin⟩
    | _ =>
      simp only [hostStep, hslot] at hstep
      exact hskip (Except.ok.inj hstep).symm
  | run e =>
    obtain ⟨m, hm, hstep⟩ := bind_ok_iff.mp hstep
    cases hstep
    have hsame (heq : m = h.machine) (hguard : EndsReapable h (.run e)) :
        AllReapable kend (h.next e m) ↔ StepReapable h (.run e) := by
      subst heq
      have hafter := allReapable_same hall hfresh
      exact iff_of_true hafter ⟨hkeeps.mp hafter.running, hguard⟩
    cases e with
    | exec pid img =>
      cases hslot : h.machine.procs pid with
      | absent =>
        simp only [step, hslot] at hm
        cases hm
        rw [allReapable_next_iff H hall hfresh (by simp [hslot]), hkeeps, StepReapable]
        exact and_congr_right fun _ => iff_of_true (fun q hq => by cases hq) trivial
      | _ =>
        simp only [step, hslot] at hm
        exact hsame (Except.ok.inj hm).symm trivial
    | kill pid =>
      cases hslot : h.machine.procs pid with
      | running p =>
        simp only [step, hslot] at hm
        cases hm
        rw [allReapable_next_iff H hall hfresh (by simp [hslot]), hkeeps, StepReapable]
        exact and_congr_right fun _ => iff_of_true (fun q hq => by cases hq) trivial
      | _ =>
        simp only [step, hslot] at hm
        exact hsame (Except.ok.inj hm).symm trivial
    | trap pid cause t =>
      cases hslot : h.machine.procs pid with
      | running p =>
        simp only [step, hslot] at hm
        obtain ⟨⟨s', p'⟩, hu, hm⟩ := bind_ok_iff.mp hm
        cases hm
        exact trap_allReapable_iff H hall hfresh hslot hu
      | _ =>
        simp only [step, hslot] at hm
        exact hsame (Except.ok.inj hm).symm (fun p hp => by cases hslot.symm.trans hp)

end Step

theorem Host.ordinary_boot (kend : ℕ) : Host.boot.Ordinary kend :=
  ⟨Machine.tables_boot, fun _ h => by cases h⟩

theorem allReapable_boot (kend : ℕ) : AllReapable kend Host.boot where
  running _ _ h := by cases h
  zombie _ _ h := by cases h.1
  apart _ _ _ _ h := by cases h.1

def deviceTrap : TrapInput := ⟨0, 0, fun _ => 0, KallocPage.second, KallocPage.third⟩

theorem not_emulated_device {p : Proc} : ¬ Emulated .device p := by
  rintro (h | h)
  · cases h
  · cases h.1

def lifetime (pid : ℕ) : List HostEvent :=
  [.run (.exec pid VmImage.complete), .run (.kill pid), .run (.trap pid .device deviceTrap),
    .wait pid]

/-- The monitor is fresh, no VM runs, and no table and no frame of the one-page program is in
use. -/
structure Host.Idle (h : Host) : Prop where
  vm : h.machine.vm = trapAndEmulateInit
  idle : ∀ i p, h.machine.procs i ≠ .running p
  tables : ∀ page, h.tables page = none
  frames : Disjoint h.frames (freedFrames VmImage.complete.proc).toFinset

theorem Host.idle_boot : Host.boot.Idle where
  vm := rfl
  idle _ _ h := by cases h
  tables _ := rfl
  frames := Finset.disjoint_empty_left _

theorem Host.Idle.loads {h : Host} {pid : ℕ} (I : h.Idle)
    (habsent : h.machine.procs pid = .absent) :
    HostLoads 0x80022000 h (.run (.exec pid VmImage.complete)) := by
  have hbuilt : h.machine.built (.exec pid VmImage.complete) = [VmImage.complete.table] := by
    simp only [Machine.built, habsent]
  have hfilled : h.machine.filled (.exec pid VmImage.complete) =
      freedFrames VmImage.complete.proc := by
    simp only [Machine.filled, habsent]
  refine ⟨⟨fun r _ => I.tables r.page, ?_, hfilled ▸ I.frames⟩, fun e he => ?_⟩
  · rw [hbuilt]
    exact List.nodup_singleton _
  · cases he
    exact VmImage.complete_loaded

/-- The one-page program has been started. -/
structure Host.Started (h h₁ : Host) (pid : ℕ) : Prop where
  step : hostStep 0x80022000 h (.run (.exec pid VmImage.complete)) = .ok h₁
  vm : h₁.machine.vm = trapAndEmulateInit
  proc : h₁.machine.procs pid = .running VmImage.complete.proc
  others : ∀ i, i ≠ pid → h₁.machine.procs i = h.machine.procs i
  reaped : h₁.reaped = h.reaped
  tables : ∀ page, page ≠ KallocPage.sample → h₁.tables page = none

theorem Host.Idle.started {h : Host} {pid : ℕ} (I : h.Idle)
    (habsent : h.machine.procs pid = .absent) : ∃ h₁, h.Started h₁ pid := by
  have hbuilt : h.machine.built (.exec pid VmImage.complete) = [VmImage.complete.table] := by
    simp only [Machine.built, habsent]
  refine ⟨h.next (.exec pid VmImage.complete) ⟨h.machine.vm,
    Function.update h.machine.procs pid (.running VmImage.complete.proc)⟩, ?_, I.vm,
    Function.update_self .., fun i hi => Function.update_of_ne hi _ _, rfl, fun page hpage => ?_⟩
  · simp only [hostStep, TrapEmulate.step, habsent, ok_bind]
  · have hne : page ≠ VmImage.complete.table.page := hpage
    simp only [Host.next, hbuilt, store, Function.update_of_ne hne, I.tables]

/-- The host is idle again after the lifetime of a VM. -/
theorem exec_lifetime {h : Host} {pid : ℕ} (I : h.Idle) (habsent : h.machine.procs pid = .absent)
    (hout : pid ∉ h.reaped) :
    Guarded (hostStep 0x80022000) (fun h e => HostLoads 0x80022000 h e ∧ KeepsTables h e) h
        (lifetime pid) ∧
      ∃ h', exec (hostStep 0x80022000) h (lifetime pid) = .ok h' ∧ h'.Idle ∧
        h'.reaped = insert pid h.reaped ∧
        ∀ i, i ≠ pid → h'.machine.procs i = h.machine.procs i := by
  obtain ⟨h₁, S⟩ := I.started habsent
  have hp₁ := S.proc
  have hkill : hostStep 0x80022000 h₁ (.run (.kill pid)) =
      .ok (h₁.next (.kill pid) ⟨h₁.machine.vm,
        Function.update h₁.machine.procs pid (.running VmImage.complete.proc.setkilled)⟩) := by
    simp only [hostStep, step, hp₁, ok_bind]
  generalize hh₂ : h₁.next (.kill pid) ⟨h₁.machine.vm,
    Function.update h₁.machine.procs pid (.running VmImage.complete.proc.setkilled)⟩ = h₂ at hkill
  have hp₂ : h₂.machine.procs pid = .running VmImage.complete.proc.setkilled := by
    rw [← hh₂]
    exact Function.update_self ..
  have htrap : hostStep 0x80022000 h₂ (.run (.trap pid .device deviceTrap)) =
      .ok (h₂.next (.trap pid .device deviceTrap) ⟨h₂.machine.vm,
        Function.update h₂.machine.procs pid
          (.zombie (VmImage.complete.proc.setkilled.trapped deviceTrap))⟩) := by
    simp only [hostStep, step, hp₂]
    rfl
  have hnone : h₂.machine.built (.trap pid .device deviceTrap) = [] := by
    have hdev := not_emulated_device (p := VmImage.complete.proc.setkilled)
    rw [Host.built_trap hp₂, savedTable, mretTable, if_neg (fun h => hdev h.1),
      if_neg (fun h => hdev h.1)]
    rfl
  generalize hh₃ : h₂.next (.trap pid .device deviceTrap) ⟨h₂.machine.vm,
    Function.update h₂.machine.procs pid
      (.zombie (VmImage.complete.proc.setkilled.trapped deviceTrap))⟩ = h₃ at htrap
  generalize hq : VmImage.complete.proc.setkilled.trapped deviceTrap = q at hh₃
  have htable : q.pagetable = some VmImage.complete.table := hq ▸ rfl
  have hfreed : freedFrames q = freedFrames VmImage.complete.proc := hq ▸ rfl
  have hz : h₃.machine.procs pid = .zombie q := by
    rw [← hh₃]
    exact Function.update_self ..
  have hreap : Returns (freeproc 0x80022000 q) := by
    have hloaded := VmImage.complete_loaded
    refine ((reapable_iff (fun r hr => ?_) (hq ▸ hloaded.frame) (hq ▸ page_le_vmStart)).mpr
      ⟨_, htable, hq ▸ hloaded.fits⟩).2
    obtain rfl := Option.some.inj (htable.symm.trans hr)
    exact hloaded.ordinary
  have hout₃ : pid ∉ h₃.reaped := by
    rw [← hh₃, ← hh₂]
    exact S.reaped ▸ hout
  have hwait : hostStep 0x80022000 h₃ (.wait pid) = .ok (h₃.free pid q) := by
    obtain ⟨_, hu⟩ := hreap
    simp only [hostStep, hz, if_neg hout₃, hu, ok_bind]
  have hprocs {i : ℕ} (hi : i ≠ pid) : h₃.machine.procs i = h.machine.procs i := by
    simp only [← hh₃, ← hh₂, Host.next, Function.update_of_ne hi, S.others i hi]
  have hrunning (i : ℕ) (p : Proc) : h₃.machine.procs i ≠ .running p := by
    by_cases hi : i = pid
    · rw [hi, hz]
      exact ProcSlot.noConfusion
    · rw [hprocs hi]
      exact I.idle i p
  have htables {page : KallocPage} (hpage : page ≠ KallocPage.sample) : h₃.tables page = none := by
    have htables₃ : h₃.tables = h₂.tables := by
      simp only [← hh₃, Host.next, hnone, store]
    have htables₂ : h₂.tables = h₁.tables := by
      rw [← hh₂]
      rfl
    rw [htables₃, htables₂, S.tables page hpage]
  refine ⟨⟨⟨I.loads habsent, trivial⟩, fun u hu => ?_⟩, h₃.free pid q, ?_,
    ⟨?_, hrunning, fun page => ?_, ?_⟩, ?_, fun i hi => hprocs hi⟩
  · obtain rfl := Except.ok.inj (S.step.symm.trans hu)
    refine ⟨⟨⟨⟨fun _ hr => (by cases hr), List.nodup_nil, Finset.disjoint_empty_right _⟩,
      fun e he => (by cases he; trivial)⟩, trivial⟩, fun u hu => ?_⟩
    obtain rfl := Except.ok.inj (hkill.symm.trans hu)
    refine ⟨⟨⟨⟨fun _ hr => ?_, ?_, Finset.disjoint_empty_right _⟩,
      fun e he => (by cases he; trivial)⟩, fun p _ _ hemu => absurd hemu not_emulated_device⟩,
      fun u hu => ⟨⟨⟨trivial, fun e he => (by cases he)⟩, fun q _ r _ i p hp => ?_⟩,
        fun _ _ => trivial⟩⟩
    · rw [hnone] at hr
      cases hr
    · rw [hnone]
      exact List.nodup_nil
    · obtain rfl := Except.ok.inj (htrap.symm.trans hu)
      exact absurd hp (hrunning i p)
  · simp only [lifetime, exec_cons, exec_nil, S.step, hkill, htrap, hwait, ok_bind]
  · change h₃.machine.vm = trapAndEmulateInit
    rw [← hh₃, ← hh₂]
    exact S.vm
  · simp only [Host.free, htable, Option.elim_some, Function.update_apply]
    split_ifs with hpage
    · rfl
    · exact htables hpage
  · simp only [Host.free, hfreed]
    exact Finset.sdiff_disjoint
  · rw [← S.reaped, ← hh₃, ← hh₂]
    rfl

end AdvancedOperatingSystems.TrapEmulate
