import AdvancedOperatingSystems.TrapEmulate.Privilege
import AdvancedOperatingSystems.TrapEmulate.Reap
import Mathlib.Data.Finset.Union

/-!
# The pages behind the tables

The machine of the VMs keeps page tables as values. The kernel keeps them in pages of
`kalloc`, and `wait` gives the pages of a zombie back. Here the machine runs together with
the pages in use: the tables by their root page, the frames of images and the trapframes by
address. A pointer to a table that has been freed is still a pointer; `InMemory` says
whether the table is still there. The pages below a root are freed with it, and the frames
of the VM region are never freed.
-/

namespace AdvancedOperatingSystems.TrapEmulate

open Foundations Riscv Riscv.PageTable

instance : DecidableEq KallocPage := fun a b => decidable_of_iff (a.val = b.val) Subtype.ext_iff.symm

instance (instruction : BitVec 32) : Decidable (IsMret instruction) :=
  inferInstanceAs (Decidable (_ ∧ _))

instance (instruction : BitVec 32) : Decidable (IsSret instruction) :=
  inferInstanceAs (Decidable (_ ∧ _))

instance (instruction : BitVec 32) : Decidable (EntersEcall instruction) :=
  inferInstanceAs (Decidable (_ ∧ _))

instance (t : TrapInput) (s : VmState) : Decidable (OnCopy t s) :=
  inferInstanceAs (Decidable (_ ∧ _))

instance (t : TrapInput) (s : VmState) : Decidable (OnSaved t s) :=
  inferInstanceAs (Decidable (_ ∨ _))

section Tables

def imageFrames (pt : PageTable Unit) (sz : ℕ) : List ℕ :=
  (pages 0 sz).filterMap fun a => (pt.leaf (vpn a)).map Pte.pa

/-- The frames that `freeproc` gives back: the trapframe and the image. -/
def freedFrames (p : Proc) : List ℕ :=
  p.trapframePage :: p.pagetable.elim [] fun r => imageFrames r.table p.sz

/-- The table that an `mret` is to build: a copy without the pages that the PMP withdraws. -/
def restrictedTable (s : VmState) (p : Proc) (page : KallocPage) : Option TableRef :=
  match p.pagetable with
  | none => none
  | some r =>
      match cloneTable p r.table >>= fun clone => exec unmapPage clone (restrictedPages s) with
      | .ok new => some ⟨page, new⟩
      | .error _ => none

variable (cause : Cause) (t : TrapInput) (s : VmState) (p : Proc)

/-- The table that the trap saves in `old_ptable`. -/
def savedTable : Option TableRef :=
  if Emulated cause p ∧ s.oldPtable = none then
    match saveOldPtable t.oldPage s (p.trapped t) with
    | .ok s' => s'.oldPtable
    | .error _ => none
  else none

/-- The table that the trap builds for an `mret`. -/
def mretTable : Option TableRef :=
  if Emulated cause p ∧ OnCopy t s then restrictedTable s (p.trapped t) t.newPage else none

/-- The VM is on the table that was saved before the trap. -/
def OnOld : Prop := cause = .other ∨ Emulated cause p ∧ OnSaved t s ∧ s.oldPtable ≠ none

/-- The VM is on a table that the trap has built. -/
def OnBuilt : Prop := Emulated cause p ∧ (OnCopy t s ∨ OnSaved t s ∧ s.oldPtable = none)

/-- The VM is on this table after the trap, or on a copy of it. -/
def IsLeft (r : TableRef) : Prop :=
  (OnOld cause t s p → s.oldPtable = some r) ∧ (¬ OnOld cause t s p → p.pagetable = some r)

end Tables

/-- The tables that a step builds. -/
def Machine.built (m : Machine) : Event → List TableRef
  | .exec pid img =>
      match m.procs pid with
      | .absent => [img.table]
      | _ => []
  | .trap pid cause t =>
      match m.procs pid with
      | .running p => (savedTable cause t m.vm p).toList ++ (mretTable cause t m.vm p).toList
      | _ => []
  | .kill _ => []

def Machine.filled (m : Machine) : Event → List ℕ
  | .exec pid img =>
      match m.procs pid with
      | .absent => freedFrames img.proc
      | _ => []
  | _ => []

/-- The machine, the tables in memory by their root page, the frames in use, and the zombies
that have been reaped. -/
structure Host where
  machine : Machine
  tables : KallocPage → Option (PageTable Unit)
  frames : Finset ℕ
  reaped : Finset ℕ

inductive HostEvent
  | run (e : Event)
  | wait (pid : ℕ)

/-- Tables written to their root pages, one after another. -/
def store (tables : KallocPage → Option (PageTable Unit)) :
    List TableRef → KallocPage → Option (PageTable Unit)
  | [] => tables
  | r :: l => store (Function.update tables r.page (some r.table)) l

namespace Host

def boot : Host := ⟨TrapEmulate.boot, fun _ => none, ∅, ∅⟩

variable (h : Host)

def next (e : Event) (m : Machine) : Host :=
  { h with
    machine := m
    tables := store h.tables (h.machine.built e)
    frames := h.frames ∪ (h.machine.filled e).toFinset }

/-- The pages of a process are given back. -/
def free (pid : ℕ) (q : Proc) : Host :=
  { h with
    tables := q.pagetable.elim h.tables fun r => Function.update h.tables r.page none
    frames := h.frames \ (freedFrames q).toFinset
    reaped := insert pid h.reaped }

def Zombie (pid : ℕ) (q : Proc) : Prop := h.machine.procs pid = .zombie q ∧ pid ∉ h.reaped

def InMemory (r : TableRef) : Prop := h.tables r.page = some r.table

def TablesInMemory : Prop :=
  ∀ pid p, h.machine.procs pid = .running p → ∀ r, p.pagetable = some r → h.InMemory r

end Host

/-- A step of a VM, or `wait`, which reaps a zombie. A pid is not used again. -/
def hostStep (kend : ℕ) (h : Host) : HostEvent → Except Panic Host
  | .run e => step h.machine e >>= fun m => .ok (h.next e m)
  | .wait pid =>
      match h.machine.procs pid with
      | .zombie q =>
          if pid ∈ h.reaped then .ok h else freeproc kend q >>= fun _ => .ok (h.free pid q)
      | _ => .ok h

/-- `kalloc` hands out pages that are not in use. -/
def Fresh (h : Host) : HostEvent → Prop
  | .run e =>
      (∀ r ∈ h.machine.built e, h.tables r.page = none) ∧
        ((h.machine.built e).map TableRef.page).Nodup ∧
        Disjoint h.frames (h.machine.filled e).toFinset
  | .wait _ => True

/-- A VM that goes back to machine mode finds the saved table in memory, and no VM that runs
is on a table that is freed with a zombie. -/
def KeepsTables (h : Host) : HostEvent → Prop
  | .run (.trap pid cause t) => ∀ p, h.machine.procs pid = .running p →
      ¬ Ends cause t h.machine.vm p → Emulated cause p → OnSaved t h.machine.vm →
        ∀ r, h.machine.vm.oldPtable = some r → h.InMemory r
  | .run _ => True
  | .wait pid => ∀ q, h.Zombie pid q → ∀ r, q.pagetable = some r →
      ∀ pid' p, h.machine.procs pid' = .running p → ∀ r', p.pagetable = some r' →
        r'.page ≠ r.page

section Store

variable {tables : KallocPage → Option (PageTable Unit)} {l : List TableRef} {page : KallocPage}
  {pt : PageTable Unit}

theorem store_of_notMem (h : page ∉ l.map TableRef.page) : store tables l page = tables page := by
  induction l generalizing tables with
  | nil => rfl
  | cons r l ih =>
    rw [List.map_cons, List.mem_cons, not_or] at h
    rw [store, ih h.2, Function.update_of_ne h.1]

theorem store_old (hfresh : ∀ r ∈ l, tables r.page = none) (h : tables page = some pt) :
    store tables l page = some pt := by
  rw [store_of_notMem, h]
  intro hmem
  obtain ⟨r, hr, rfl⟩ := List.mem_map.mp hmem
  rw [hfresh r hr] at h
  cases h

theorem store_new (hnd : (l.map TableRef.page).Nodup) {r : TableRef} (hr : r ∈ l) :
    store tables l r.page = some r.table := by
  induction l generalizing tables with
  | nil => cases hr
  | cons r' l ih =>
    obtain ⟨hout, hnd⟩ := List.nodup_cons.mp hnd
    rcases List.mem_cons.mp hr with rfl | hr
    · rw [store, store_of_notMem hout, Function.update_self]
    · exact ih hnd hr

end Store

section Trap

variable {cause : Cause} {t : TrapInput} {s s' : VmState} {p p' : Proc}

theorem not_emulated_other : ¬ Emulated .other p := by
  rintro (h | h)
  · cases h
  · cases h.1

theorem restrictedTable_eq {r : TableRef} {page : KallocPage} {clone new : PageTable Unit}
    (hr : p.pagetable = some r) (hclone : cloneTable p r.table = .ok clone)
    (hnew : exec unmapPage clone (restrictedPages s) = .ok new) :
    restrictedTable s p page = some ⟨page, new⟩ := by
  simp only [restrictedTable, hr, hclone, ok_bind, hnew]

theorem savedTable_page {r : TableRef} (h : savedTable cause t s p = some r) :
    r.page = t.oldPage ∧ s.oldPtable = none := by
  unfold savedTable at h
  split_ifs at h with hcond
  refine ⟨?_, hcond.2⟩
  cases hr : p.pagetable with
  | none =>
    simp [saveOldPtable, hcond.2, hr] at h
  | some u =>
    rw [saveOldPtable_none hcond.2 (p := p.trapped t) hr] at h
    cases hclone : cloneTable (p.trapped t) u.table with
    | error e => simp [hclone, bind, Except.bind] at h
    | ok clone =>
      simp only [hclone, ok_bind, Option.some.injEq] at h
      exact h ▸ rfl

theorem mretTable_page {r : TableRef} (h : mretTable cause t s p = some r) :
    r.page = t.newPage := by
  unfold mretTable at h
  split_ifs at h
  unfold restrictedTable at h
  split at h
  · cases h
  · split at h
    · cases h
      rfl
    · cases h

theorem OnOld.built (h : OnOld cause t s p) :
    (savedTable cause t s p).toList ++ (mretTable cause t s p).toList = [] := by
  rcases h with rfl | ⟨-, hsaved, hsome⟩
  · rw [savedTable, if_neg (fun h => not_emulated_other h.1), mretTable,
      if_neg (fun h => not_emulated_other h.1)]
    rfl
  · rw [savedTable, if_neg (fun h => hsome h.2), mretTable,
      if_neg (fun h => not_onCopy hsaved h.2)]
    rfl

theorem OnBuilt.not_onOld (h : OnBuilt cause t s p) : ¬ OnOld cause t s p := by
  obtain ⟨hemu, h⟩ := h
  rintro (rfl | ⟨-, hsaved, hsome⟩)
  · exact not_emulated_other hemu
  · rcases h with hcopy | ⟨-, hnone⟩
    · exact not_onCopy hsaved hcopy
    · exact hsome hnone

/-- A VM that is not on a table the trap has built is on the one it is left. -/
theorem usertrap_table (hs : s.Ok) (hp : p.Ok) (h : usertrap cause t s p = .ok (s', p'))
    (hbuilt : ¬ OnBuilt cause t s p) (r : TableRef) :
    p'.pagetable = some r ↔ IsLeft cause t s p r := by
  by_cases hemu : Emulated cause p
  · have hother : cause ≠ .other := by
      rintro rfl
      exact not_emulated_other hemu
    rw [usertrap_emulated hemu] at h
    obtain ⟨s₁, hsave, hdis⟩ := bind_ok_iff.mp h
    obtain ⟨hs₁, hsome, -, hmode, hflag⟩ := saveOldPtable_spec hs (hp.trapped t) hsave
    have hout := dispatch_outcome hs₁.intact hsome hdis
    by_cases hsaved : OnSaved t s
    · have hold : s.oldPtable ≠ none := fun hnone => hbuilt ⟨hemu, Or.inr ⟨hsaved, hnone⟩⟩
      rw [saveOldPtable_some (Option.isSome_iff_ne_none.mpr hold)] at hsave
      cases hsave
      rw [hout.table_saved hsaved]
      have hon : OnOld cause t s p := Or.inr ⟨hemu, hsaved, hold⟩
      exact ⟨fun h => ⟨fun _ => h, fun hno => absurd hon hno⟩, fun h => h.1 hon⟩
    · have hcopy : ¬ OnCopy t s := fun hcopy => hbuilt ⟨hemu, Or.inl hcopy⟩
      rw [hout.table_active (fun h => hsaved ((OnSaved.congr hmode).mp h))
        (fun h => hcopy ((OnCopy.congr hmode hflag).mp h))]
      have hon : ¬ OnOld cause t s p := by
        rintro (h | ⟨-, h, -⟩)
        · exact hother h
        · exact hsaved h
      exact ⟨fun h => ⟨fun h' => absurd h' hon, fun _ => h⟩, fun h => h.2 hon⟩
  · rcases usertrap_not_emulated hemu t s with ⟨hu, hne⟩ | ⟨hu, heq⟩
    · obtain ⟨-, rfl⟩ := Prod.mk.inj (Except.ok.inj (h.symm.trans hu))
      have hon : ¬ OnOld cause t s p := by
        rintro (h | h)
        · exact hne h
        · exact hemu h.1
      exact ⟨fun h => ⟨fun h' => absurd h' hon, fun _ => h⟩, fun h => h.2 hon⟩
    · obtain ⟨-, rfl⟩ := Prod.mk.inj (Except.ok.inj (h.symm.trans hu))
      exact ⟨fun h => ⟨fun _ => h, fun hno => absurd (Or.inl heq) hno⟩, fun h => h.1 (Or.inl heq)⟩

theorem imageFrames_congr {pt pt' : PageTable Unit} {sz : ℕ}
    (h : ∀ a ∈ pages 0 sz, pt'.leaf (vpn a) = pt.leaf (vpn a)) :
    imageFrames pt' sz = imageFrames pt sz := by
  apply List.filterMap_congr
  intro a ha
  rw [h a ha]

theorem imageFrames_clone {old clone : PageTable Unit} (hwf : old.Wf) (hsz : p.sz ≤ vmStart)
    (h : cloneTable p old = .ok clone) : imageFrames clone p.sz = imageFrames old p.sz := by
  obtain ⟨-, -, hleaf⟩ := cloneTable_spec hwf hsz h
  apply imageFrames_congr
  intro a ha
  have hmem : a ∈ vmPages p.sz := List.mem_append_left _ ha
  rw [hleaf, if_pos (List.mem_map_of_mem hmem)]

/-- The table that a trap has built is a copy: it has the frames of the one it is left,
if nothing is withdrawn. -/
theorem usertrap_built (hs : s.Ok) (hp : p.Ok) (h : usertrap cause t s p = .ok (s', p'))
    (hbuilt : OnBuilt cause t s p) :
    ∃ r r', p.pagetable = some r ∧ p'.pagetable = some r' ∧
      r' ∈ (savedTable cause t s p).toList ++ (mretTable cause t s p).toList ∧
      (LeavesWhole cause t s p → imageFrames r'.table p.sz = imageFrames r.table p.sz) := by
  obtain ⟨hemu, hon⟩ := hbuilt
  obtain ⟨r, hr, hwf⟩ := hp.table
  rw [usertrap_emulated hemu] at h
  obtain ⟨s₁, hsave, hdis⟩ := bind_ok_iff.mp h
  obtain ⟨hs₁, hsome, hreg, hmode, hflag⟩ := saveOldPtable_spec hs (hp.trapped t) hsave
  have hout := dispatch_outcome hs₁.intact hsome hdis
  rcases hon with hcopy | ⟨hsaved, hnone⟩
  · obtain ⟨u, clone, new, hu, hclone, hnew, htable⟩ :=
      hout.table_copied ((OnCopy.congr hmode hflag).mpr hcopy)
    obtain rfl : r = u := Option.some.inj (hr.symm.trans hu)
    rw [restrictedPages_congr hreg] at hnew
    refine ⟨r, _, hr, htable, List.mem_append_right _ ?_, fun hleaves => ?_⟩
    · rw [mretTable, if_pos ⟨hemu, hcopy⟩, restrictedTable_eq hu hclone hnew]
      exact List.mem_singleton_self _
    · rw [hleaves.copied hemu hcopy] at hnew
      cases hnew
      exact imageFrames_clone hwf (hp.trapped t).sz_le hclone
  · have hsave' := hsave
    rw [saveOldPtable_none hnone (p := p.trapped t) hr] at hsave'
    obtain ⟨clone, hclone, hsave'⟩ := bind_ok_iff.mp hsave'
    cases hsave'
    refine ⟨r, _, hr, hout.table_saved ((OnSaved.congr hmode).mpr hsaved),
      List.mem_append_left _ ?_, fun _ => imageFrames_clone hwf (hp.trapped t).sz_le hclone⟩
    rw [savedTable, if_pos ⟨hemu, hnone⟩, hsave]
    exact List.mem_singleton_self _

end Trap

section Step

variable {kend : ℕ} {h h' : Host} {e : Event} {m : Machine} {pid : ℕ}

theorem Host.InMemory.next {r : TableRef} (hr : h.InMemory r) (hfresh : Fresh h (.run e)) :
    (h.next e m).InMemory r := store_old hfresh.1 hr

theorem Host.inMemory_built {r : TableRef} (hfresh : Fresh h (.run e))
    (hr : r ∈ h.machine.built e) : (h.next e m).InMemory r := store_new hfresh.2.1 hr

theorem wait_machine (hstep : hostStep kend h (.wait pid) = .ok h') : h'.machine = h.machine := by
  cases hslot : h.machine.procs pid with
  | zombie q =>
    simp only [hostStep, hslot] at hstep
    split_ifs at hstep
    · cases hstep
      rfl
    · obtain ⟨-, -, hstep⟩ := bind_ok_iff.mp hstep
      cases hstep
      rfl
  | _ =>
    simp only [hostStep, hslot] at hstep
    cases hstep
    rfl

theorem Host.tablesInMemory_update {slot : ProcSlot} {s : VmState}
    (hmem : h.TablesInMemory) (hfresh : Fresh h (.run e)) :
    (h.next e ⟨s, Function.update h.machine.procs pid slot⟩).TablesInMemory ↔
      ∀ p, slot = .running p → ∀ r, p.pagetable = some r →
        (h.next e ⟨s, Function.update h.machine.procs pid slot⟩).InMemory r := by
  constructor
  · intro hall p hp r hr
    refine hall pid p ?_ r hr
    change Function.update h.machine.procs pid slot pid = .running p
    rw [Function.update_self, hp]
  · intro hslot q p hq r hr
    have hrun : Function.update h.machine.procs pid slot q = .running p := hq
    by_cases hpid : q = pid
    · subst hpid
      rw [Function.update_self] at hrun
      exact hslot p hrun r hr
    · rw [Function.update_of_ne hpid] at hrun
      exact (hmem q p hrun r hr).next hfresh

theorem Host.built_trap {cause : Cause} {t : TrapInput} {p : Proc}
    (hp : h.machine.procs pid = .running p) : h.machine.built (.trap pid cause t) =
      (savedTable cause t h.machine.vm p).toList ++ (mretTable cause t h.machine.vm p).toList := by
  simp only [Machine.built, hp]

/-- A trap builds at most a table to be saved and one for an `mret`. -/
theorem fresh_trap {cause : Cause} {t : TrapInput}
    (hold : h.machine.vm.oldPtable = none → h.tables t.oldPage = none)
    (hnew : h.tables t.newPage = none) (hne : t.oldPage ≠ t.newPage) :
    Fresh h (.run (.trap pid cause t)) := by
  cases hslot : h.machine.procs pid with
  | running p =>
    rw [Fresh, Host.built_trap hslot]
    have hsaved {r : TableRef} (hr : savedTable cause t h.machine.vm p = some r) :=
      savedTable_page hr
    have hmret {r : TableRef} (hr : mretTable cause t h.machine.vm p = some r) :=
      mretTable_page hr
    refine ⟨fun r hr => ?_, ?_, Finset.disjoint_empty_right _⟩
    · rcases List.mem_append.mp hr with hr | hr
      · obtain ⟨hpage, hnone⟩ := hsaved (Option.mem_toList.mp hr)
        exact hpage ▸ hold hnone
      · exact hmret (Option.mem_toList.mp hr) ▸ hnew
    · cases hs : savedTable cause t h.machine.vm p with
      | none => cases mretTable cause t h.machine.vm p <;> simp
      | some r =>
        cases hm : mretTable cause t h.machine.vm p with
        | none => simp
        | some r' =>
          have hpages : r.page ≠ r'.page := by
            rw [(hsaved hs).1, hmret hm]
            exact hne
          simpa using hpages
  | _ =>
    have hnil : h.machine.built (.trap pid cause t) = [] := by
      simp only [Machine.built, hslot]
    rw [Fresh, hnil]
    exact ⟨fun r hr => (by cases hr), List.nodup_nil, Finset.disjoint_empty_right _⟩

theorem trap_tablesInMemory_iff {cause : Cause} {t : TrapInput} {s' : VmState} {p p' : Proc}
    (hok : h.machine.Ok) (hmem : h.TablesInMemory) (hfresh : Fresh h (.run (.trap pid cause t)))
    (hp : h.machine.procs pid = .running p) (hu : usertrap cause t h.machine.vm p = .ok (s', p')) :
    (h.next (.trap pid cause t)
        ⟨s', Function.update h.machine.procs pid (leave p')⟩).TablesInMemory ↔
      KeepsTables h (.run (.trap pid cause t)) := by
  have hpok := hok.procs pid p hp
  have hends := usertrap_killed_iff hok.vm hpok hu
  rw [Host.tablesInMemory_update hmem hfresh]
  constructor
  · intro hslot q hq hnot hemu hsaved r hr
    obtain rfl : p = q := ProcSlot.running.inj (hp.symm.trans hq)
    have hold : OnOld cause t h.machine.vm p := Or.inr ⟨hemu, hsaved, by simp [hr]⟩
    have htable := (usertrap_table hok.vm hpok hu (fun hb => hb.not_onOld hold) r).mpr
      ⟨fun _ => hr, fun hno => absurd hold hno⟩
    have hleave : leave p' = .running p' := if_neg (fun hk => hnot (hends.mp hk))
    have hafter := hslot p' hleave r htable
    rw [Host.InMemory, Host.next, Host.built_trap hp, hold.built] at hafter
    exact hafter
  · intro hkeeps q hq r hr
    obtain ⟨rfl, halive⟩ := leave_running hq
    have hnot : ¬ Ends cause t h.machine.vm p := fun he => by
      rw [hends.mpr he] at halive
      cases halive
    by_cases hbuilt : OnBuilt cause t h.machine.vm p
    · obtain ⟨-, r', -, htable, hmem', -⟩ := usertrap_built hok.vm hpok hu hbuilt
      obtain rfl : r = r' := Option.some.inj (hr.symm.trans htable)
      exact Host.inMemory_built hfresh (by rwa [Host.built_trap hp])
    · have hleft := (usertrap_table hok.vm hpok hu hbuilt r).mp hr
      refine Host.InMemory.next ?_ hfresh
      by_cases hold : OnOld cause t h.machine.vm p
      · rcases hold with hother | ⟨hemu, hsaved, hsome⟩
        · exact absurd (Or.inr (Or.inl hother)) hnot
        · exact hkeeps p hp hnot hemu hsaved r (hleft.1 (Or.inr ⟨hemu, hsaved, hsome⟩))
      · exact hmem pid p hp r (hleft.2 hold)

theorem free_tablesInMemory_iff {q : Proc} (hmem : h.TablesInMemory) (hq : h.Zombie pid q) :
    (h.free pid q).TablesInMemory ↔ KeepsTables h (.wait pid) := by
  constructor
  · intro hafter q' hq' r hr pid' p hp r' hr' hpage
    obtain rfl : q = q' := ProcSlot.zombie.inj (hq.1.symm.trans hq'.1)
    have hin := hafter pid' p hp r' hr'
    rw [Host.InMemory, Host.free, hr, hpage] at hin
    simp at hin
  · intro hkeeps pid' p hp r' hr'
    have hin : h.tables r'.page = some r'.table := hmem pid' p hp r' hr'
    change q.pagetable.elim h.tables _ r'.page = some r'.table
    cases hr : q.pagetable with
    | none => exact hin
    | some r =>
      simp only [Option.elim_some]
      rw [Function.update_of_ne (hkeeps q hq r hr pid' p hp r' hr')]
      exact hin

/-- The running VMs keep their tables exactly if the step keeps them. -/
theorem step_tablesInMemory_iff {e : HostEvent} (hok : h.machine.Ok) (hmem : h.TablesInMemory)
    (hfresh : Fresh h e) (hstep : hostStep kend h e = .ok h') :
    h'.TablesInMemory ↔ KeepsTables h e := by
  cases e with
  | wait pid =>
    have hskip (hno : ∀ q, ¬ h.Zombie pid q) : h.TablesInMemory ↔ KeepsTables h (.wait pid) :=
      iff_of_true hmem fun q hq => absurd hq (hno q)
    cases hslot : h.machine.procs pid with
    | zombie q =>
      simp only [hostStep, hslot] at hstep
      split_ifs at hstep with hin
      · cases hstep
        exact hskip fun q' hq' => hq'.2 hin
      · obtain ⟨-, -, hstep⟩ := bind_ok_iff.mp hstep
        cases hstep
        exact free_tablesInMemory_iff hmem ⟨hslot, hin⟩
    | absent =>
      simp only [hostStep, hslot] at hstep
      cases hstep
      exact hskip fun q hq => by cases hslot.symm.trans hq.1
    | running p =>
      simp only [hostStep, hslot] at hstep
      cases hstep
      exact hskip fun q hq => by cases hslot.symm.trans hq.1
  | run e =>
    obtain ⟨m, hm, hstep⟩ := bind_ok_iff.mp hstep
    cases hstep
    have hsame (hkeep : KeepsTables h (.run e)) (hsame : m = h.machine) :
        (h.next e m).TablesInMemory ↔ KeepsTables h (.run e) := by
      subst hsame
      exact iff_of_true (fun pid p hp r hr => (hmem pid p hp r hr).next hfresh) hkeep
    cases e with
    | exec pid img =>
      cases hslot : h.machine.procs pid with
      | absent =>
        simp only [step, hslot] at hm
        cases hm
        rw [Host.tablesInMemory_update hmem hfresh]
        refine iff_of_true (fun p hp r hr => ?_) trivial
        cases hp
        refine Host.inMemory_built hfresh ?_
        simp only [Machine.built, hslot]
        exact List.mem_singleton.mpr (Option.some.inj hr).symm
      | running p =>
        simp only [step, hslot] at hm
        exact hsame trivial (Except.ok.inj hm).symm
      | zombie q =>
        simp only [step, hslot] at hm
        exact hsame trivial (Except.ok.inj hm).symm
    | kill pid =>
      cases hslot : h.machine.procs pid with
      | running p =>
        simp only [step, hslot] at hm
        cases hm
        rw [Host.tablesInMemory_update hmem hfresh]
        refine iff_of_true (fun p' hp r hr => ?_) trivial
        cases hp
        exact (hmem pid p hslot r hr).next hfresh
      | absent =>
        simp only [step, hslot] at hm
        exact hsame trivial (Except.ok.inj hm).symm
      | zombie q =>
        simp only [step, hslot] at hm
        exact hsame trivial (Except.ok.inj hm).symm
    | trap pid cause t =>
      have hnone (hno : ∀ p, h.machine.procs pid ≠ .running p) :
          KeepsTables h (.run (.trap pid cause t)) := fun p hp => absurd hp (hno p)
      cases hslot : h.machine.procs pid with
      | running p =>
        simp only [step, hslot] at hm
        obtain ⟨⟨s', p'⟩, hu, hm⟩ := bind_ok_iff.mp hm
        cases hm
        exact trap_tablesInMemory_iff hok hmem hfresh hslot hu
      | absent =>
        simp only [step, hslot] at hm
        exact hsame (hnone (by simp [hslot])) (Except.ok.inj hm).symm
      | zombie q =>
        simp only [step, hslot] at hm
        exact hsame (hnone (by simp [hslot])) (Except.ok.inj hm).symm

end Step

end AdvancedOperatingSystems.TrapEmulate
