import AdvancedOperatingSystems.TrapEmulate.Pmp

/-!
# Reaping a VM

`freeproc` takes the page table a VM was left with apart, and panics over a page that
is missing or left over. `end` of the linker script is `kend`; the pages of the tables
come from `kalloc`, so freeing them does not panic. Every leaf has `PTE_R`, so none is
taken for a table.
-/

namespace AdvancedOperatingSystems.TrapEmulate

open Foundations Riscv Riscv.PageTable

section Freeproc

variable (kend : ℕ)

/-- The test of `kfree`. -/
def kfree (pa : ℕ) : Except Panic Unit :=
  if pa % PGSIZE ≠ 0 ∨ pa < kend ∨ PHYSTOP ≤ pa then .error "kfree" else .ok ()

/-- One iteration of `uvmunmap` with `do_free == 1`. -/
def freePage (pt : PageTable Unit) (a : ℕ) : Except Panic (PageTable Unit) :=
  pt.walk a >>= fun
    | none => .error "uvmunmap: walk"
    | some none => .error "uvmunmap: not mapped"
    | some (some e) =>
        if e.onlyValid then .error "uvmunmap: not a leaf"
        else kfree kend e.pa >>= fun _ => .ok (pt.set a none)

/-- `freewalk` of a level-0 table. -/
def freewalkLow (pt : PageTable Unit) (_ : Unit) (j : ℕ) : Except Panic Unit :=
  if (pt.low j).isSome ∧ (List.range 512).any fun k => (pt.leaf (512 * j + k)).isSome then
    .error "freewalk: leaf"
  else .ok ()

/-- `freewalk` of a level-1 table. -/
def freewalkMid (pt : PageTable Unit) (_ : Unit) (i : ℕ) : Except Panic Unit :=
  if (pt.mid i).isSome then
    exec (freewalkLow pt) () ((List.range 512).map fun j => 512 * i + j)
  else .ok ()

def freewalk (pt : PageTable Unit) : Except Panic Unit := exec (freewalkMid pt) () (List.range 512)

def procFreepagetable (pt : PageTable Unit) (sz : ℕ) : Except Panic Unit := do
  let pt ← unmapPage pt TRAMPOLINE
  let pt ← unmapPage pt TRAPFRAME
  let pt ← if 0 < sz then exec (freePage kend) pt (pages 0 (pgroundup sz)) else .ok pt
  freewalk pt

/-- `freeproc` of a process whose name starts with `vm-`. -/
def freeproc (p : Proc) : Except Panic Unit := do
  let pt ← derefTable p.pagetable
  let pt ← exec unmapPage pt (pages vmStart (vmStart + 1024 * PGSIZE))
  kfree kend p.trapframePage
  procFreepagetable kend pt p.sz

/-- A page that `kfree` accepts. -/
def Freeable (pa : ℕ) : Prop := pa % PGSIZE = 0 ∧ kend ≤ pa ∧ pa < PHYSTOP

/-- A user page table: its leaves are those of user addresses, and the frames of the image
are pages of the allocator. -/
structure Ordinary (pt : PageTable Unit) : Prop where
  wf : pt.Wf
  bounded : ∀ i, (pt.leaf i).isSome → i < vpn MAXVA
  frames : ∀ i e, i < vpn vmStart → pt.leaf i = some e → Freeable kend e.pa

end Freeproc

/-- The table maps the pages of the process and nothing else. -/
def Fits (pt : PageTable Unit) (sz : ℕ) : Prop :=
  ∀ i, (pt.leaf i).isSome ↔ i ∈ (vmPages sz).map vpn ∨ i = vpn TRAMPOLINE ∨ i = vpn TRAPFRAME

section Freewalk

variable {pt : PageTable Unit}

theorem exec_unit_returns {step : Unit → ℕ → Except Panic Unit} (l : List ℕ) :
    Returns (exec step () l) ↔ ∀ a ∈ l, Returns (step () a) := by
  induction l with
  | nil => simp
  | cons a l ih =>
    rw [exec_cons, returns_bind, List.forall_mem_cons]
    constructor
    · rintro ⟨u, hu, hret⟩
      exact ⟨⟨u, hu⟩, ih.mp hret⟩
    · rintro ⟨⟨u, hu⟩, hall⟩
      exact ⟨u, hu, ih.mpr hall⟩

/-- `freewalk` returns exactly when no leaf is left. -/
theorem freewalk_returns_iff (hw : pt.Wf) (hbound : ∀ i, (pt.leaf i).isSome → i < vpn MAXVA) :
    Returns (freewalk pt) ↔ ∀ i, pt.leaf i = none := by
  unfold freewalk
  rw [exec_unit_returns]
  constructor
  · intro h i
    by_contra hne
    have hsome : (pt.leaf i).isSome := Option.isSome_iff_ne_none.mpr hne
    have hlow := hw.low_of_leaf i hsome
    have hmid := hw.mid_of_low _ hlow
    have hlt := hbound i hsome
    simp only [vpn, MAXVA, PGSIZE] at hlt
    have hret := h (i / 512 / 512) (List.mem_range.mpr (by omega))
    rw [freewalkMid, if_pos hmid, exec_unit_returns] at hret
    have hret := hret (i / 512) (List.mem_map.mpr ⟨i / 512 % 512, by simp; omega, by omega⟩)
    have hany : (List.range 512).any fun k => (pt.leaf (512 * (i / 512) + k)).isSome := by
      rw [List.any_eq_true]
      refine ⟨i % 512, List.mem_range.mpr (by omega), ?_⟩
      have hi : 512 * (i / 512) + i % 512 = i := by omega
      rw [hi]
      exact hsome
    rw [freewalkLow, if_pos ⟨hlow, hany⟩] at hret
    exact not_returns_error _ hret
  · intro h i _
    unfold freewalkMid
    split_ifs
    · rw [exec_unit_returns]
      intro j _
      simp [freewalkLow, h]
    · exact returns_ok _

end Freewalk

section Reap

variable {kend : ℕ} {pt pt' : PageTable Unit} {sz : ℕ} {p : Proc}

theorem Ordinary.clear (h : Ordinary kend pt) (a : ℕ) : Ordinary kend (pt.set a none) := by
  have hsub : ∀ i e, (pt.set a none).leaf i = some e → pt.leaf i = some e := by
    intro i e he
    simp only [set_leaf, Function.update_apply] at he
    split_ifs at he
    exact he
  refine ⟨h.wf.clear a, fun i hi => ?_, fun i e hi he => h.frames i e hi (hsub i e he)⟩
  obtain ⟨e, he⟩ := Option.isSome_iff_exists.mp hi
  exact h.bounded i (by rw [hsub i e he]; rfl)

theorem Ordinary.unmapPages {l : List ℕ} (h : Ordinary kend pt)
    (hrun : exec unmapPage pt l = .ok pt') : Ordinary kend pt' := by
  refine exec_invariant (I := fun pt => Ordinary kend pt) (fun s e t hs ht => ?_) h hrun
  obtain ⟨_, _, _, rfl⟩ := unmapPage_spec ht
  exact hs.clear e

theorem kfree_of_freeable {pa : ℕ} (h : Freeable kend pa) : kfree kend pa = .ok () := by
  obtain ⟨h₁, h₂, h₃⟩ := h
  exact if_neg (by omega)

theorem freePage_eq (h : Ordinary kend pt) {a : ℕ} (ha : a % PGSIZE = 0) (hlt : a < vmStart) :
    freePage kend pt a = unmapPage pt a := by
  unfold freePage unmapPage
  rw [if_neg (by omega)]
  cases hwalk : pt.walk a with
  | error e => rfl
  | ok r =>
    obtain ⟨-, hslot⟩ := walk_ok hwalk
    rcases r with _ | _ | e
    · rfl
    · rfl
    · have hleaf : pt.leaf (vpn a) = some e := (hslot _ rfl).symm
      have hpage : vpn a < vpn vmStart := by
        simp only [vpn, vmStart, PGSIZE] at *
        omega
      simp only [ok_bind, kfree_of_freeable (h.frames _ e hpage hleaf)]

theorem freePages_eq (h : Ordinary kend pt) {l : List ℕ}
    (hl : ∀ a ∈ l, a % PGSIZE = 0 ∧ a < vmStart) :
    exec (freePage kend) pt l = exec unmapPage pt l := by
  induction l generalizing pt with
  | nil => rfl
  | cons a l ih =>
    rw [List.forall_mem_cons] at hl
    rw [exec_cons, exec_cons, freePage_eq h hl.1.1 hl.1.2]
    cases hstep : unmapPage pt a with
    | error e => rfl
    | ok mid =>
      obtain ⟨_, _, _, rfl⟩ := unmapPage_spec hstep
      exact ih (h.clear a) hl.2

/-- The pages that `freeproc` unmaps, in this order. -/
def reapedPages (sz : ℕ) : List ℕ :=
  pages vmStart vmEnd ++ ([TRAMPOLINE] ++ ([TRAPFRAME] ++ pages 0 sz))

theorem freeproc_eq {r : TableRef} (hr : p.pagetable = some r) (h : Ordinary kend r.table)
    (hframe : Freeable kend p.trapframePage) (hsz : p.sz ≤ vmStart) :
    freeproc kend p = exec unmapPage r.table (reapedPages p.sz) >>= freewalk := by
  have himage : ∀ a ∈ pages 0 p.sz, a % PGSIZE = 0 ∧ a < vmStart := by
    intro a ha
    rw [mem_pages] at ha
    simp only [PGSIZE, vmStart] at *
    omega
  have hend : vmStart + 1024 * PGSIZE = vmEnd := by decide
  unfold freeproc procFreepagetable reapedPages
  rw [hr, hend, exec_append, kfree_of_freeable hframe, pages_pgroundup]
  simp only [derefTable, ok_bind]
  cases h₁ : exec unmapPage r.table (pages vmStart vmEnd) with
  | error e => simp only [bind, Except.bind]
  | ok pt₁ =>
    have o₁ := h.unmapPages h₁
    simp only [ok_bind, exec_append, exec_cons, exec_nil]
    cases h₂ : unmapPage pt₁ TRAMPOLINE with
    | error e => simp only [bind, Except.bind]
    | ok pt₂ =>
      simp only [ok_bind]
      cases h₃ : unmapPage pt₂ TRAPFRAME with
      | error e => simp only [bind, Except.bind]
      | ok pt₃ =>
        obtain ⟨_, _, _, rfl⟩ := unmapPage_spec h₂
        obtain ⟨_, _, _, rfl⟩ := unmapPage_spec h₃
        simp only [ok_bind, freePages_eq ((o₁.clear _).clear _) himage]
        by_cases hpos : 0 < p.sz
        · rw [if_pos hpos]
        · rw [if_neg hpos, pages_eq_nil (show p.sz ≤ 0 by omega), exec_nil]
          simp only [ok_bind]

theorem mem_reapedPages {sz a : ℕ} :
    a ∈ reapedPages sz ↔ a ∈ vmPages sz ∨ a = TRAMPOLINE ∨ a = TRAPFRAME := by
  rw [reapedPages, vmPages]
  generalize pages vmStart vmEnd = region
  rw [List.mem_append, List.mem_append, List.mem_append, List.mem_append, List.mem_singleton,
    List.mem_singleton]
  tauto

theorem reapedPages_lt {sz a : ℕ} (hsz : sz ≤ vmStart) (ha : a ∈ reapedPages sz) :
    a % PGSIZE = 0 ∧ a < MAXVA := by
  rcases mem_reapedPages.mp ha with h | rfl | rfl
  · exact ⟨(mem_vmPages.mp h).1, (lt_MAXVA_of_mem_vmPages hsz h).trans (by decide)⟩
  · decide
  · decide

theorem nodup_reapedPages {sz : ℕ} (hsz : sz ≤ vmStart) : (reapedPages sz).Nodup := by
  unfold reapedPages
  simp only [List.nodup_append, nodup_pages, List.nodup_singleton, List.mem_append,
    List.mem_singleton, mem_pages, true_and]
  simp only [vmStart, vmEnd, TRAPFRAME, TRAMPOLINE, MAXVA, PGSIZE] at *
  refine ⟨⟨?_, ?_⟩, ?_⟩ <;> omega

theorem fits_iff : Fits pt sz ↔ ∀ i, (pt.leaf i).isSome ↔ i ∈ (reapedPages sz).map vpn := by
  apply forall_congr'
  intro i
  simp only [List.mem_map, mem_reapedPages, or_and_right, exists_or, exists_eq_left,
    eq_comm (a := i)]

/-- `freeproc` returns exactly when the table fits the process. -/
theorem freeproc_returns_iff {r : TableRef} (hr : p.pagetable = some r)
    (h : Ordinary kend r.table) (hframe : Freeable kend p.trapframePage) (hsz : p.sz ≤ vmStart) :
    Returns (freeproc kend p) ↔ Fits r.table p.sz := by
  rw [freeproc_eq hr h hframe hsz, returns_bind, fits_iff]
  constructor
  · rintro ⟨pt, hrun, hret⟩ i
    have o := h.unmapPages hrun
    have hnone := (freewalk_returns_iff o.wf o.bounded).mp hret i
    rw [unmapPages_leaf hrun] at hnone
    obtain ⟨-, hmapped⟩ := (unmapPages_returns_iff h.wf _).mp ⟨pt, hrun⟩
    constructor
    · intro hsome
      by_contra hmem
      rw [if_neg hmem] at hnone
      rw [hnone] at hsome
      cases hsome
    · intro hmem
      obtain ⟨a, ha, rfl⟩ := List.mem_map.mp hmem
      exact (hmapped a ha).2.2
  · intro hfits
    have hret : Returns (exec unmapPage r.table (reapedPages p.sz)) := by
      refine (unmapPages_returns_iff h.wf _).mpr ⟨nodup_reapedPages hsz, fun a ha => ?_⟩
      obtain ⟨hal, hlt⟩ := reapedPages_lt hsz ha
      exact ⟨hal, hlt, (hfits _).mpr (List.mem_map_of_mem ha)⟩
    obtain ⟨pt, hrun⟩ := hret
    have o := h.unmapPages hrun
    refine ⟨pt, hrun, (freewalk_returns_iff o.wf o.bounded).mpr fun i => ?_⟩
    rw [unmapPages_leaf hrun]
    split_ifs with hmem
    · rfl
    · rw [← hfits] at hmem
      exact Option.not_isSome_iff_eq_none.mp hmem

end Reap

section Tables

variable {kend : ℕ} {p : Proc} {old clone new : PageTable Unit}

theorem procPagetable_low {i : ℕ} (hi : i < vpn vmStart) : (procPagetable p).leaf i = none := by
  have hlow : vpn vmStart < vpn TRAPFRAME ∧ vpn vmStart < vpn TRAMPOLINE := by decide
  have h₁ : i ≠ vpn TRAMPOLINE := by omega
  have h₂ : i ≠ vpn TRAPFRAME := by omega
  simp [procPagetable, h₁, h₂]

theorem fits_cloneTable (hwf : old.Wf) (hsz : p.sz ≤ vmStart) (h : cloneTable p old = .ok clone) :
    Fits clone p.sz := by
  obtain ⟨hfull, -, hleaf⟩ := cloneTable_spec hwf hsz h
  intro i
  rw [hleaf]
  by_cases hi : i ∈ (vmPages p.sz).map vpn
  · obtain ⟨a, ha, rfl⟩ := List.mem_map.mp hi
    have hmapped : (old.leaf (vpn a)).isSome := hfull a ha
    simp [hi, hmapped]
  · simp only [hi, ↓reduceIte, false_or, procPagetable]
    split_ifs with h₁ h₂
    · simp [h₁]
    · simp [h₂]
    · simp [h₁, h₂]

theorem ordinary_cloneTable (ho : Ordinary kend old) (hsz : p.sz ≤ vmStart)
    (h : cloneTable p old = .ok clone) : Ordinary kend clone := by
  obtain ⟨-, hwf, hleaf⟩ := cloneTable_spec ho.wf hsz h
  have hfits := fits_cloneTable ho.wf hsz h
  refine ⟨hwf, fun i hi => ?_, fun i e hi he => ?_⟩
  · rcases (hfits i).mp hi with hmem | rfl | rfl
    · obtain ⟨a, ha, rfl⟩ := List.mem_map.mp hmem
      have hlt := lt_MAXVA_of_mem_vmPages hsz ha
      simp only [vpn, TRAPFRAME, TRAMPOLINE, MAXVA, PGSIZE] at *
      omega
    · decide
    · decide
  · rw [hleaf] at he
    split_ifs at he
    · exact ho.frames i e hi he
    · rw [procPagetable_low hi] at he
      cases he

theorem fits_withdrawn {l : List ℕ} (hwf : clone.Wf) (hfits : Fits clone p.sz)
    (h : exec unmapPage clone l = .ok new) : Fits new p.sz ↔ l = [] := by
  constructor
  · intro hnew
    by_contra hne
    obtain ⟨a, ha⟩ := List.exists_mem_of_ne_nil l hne
    obtain ⟨-, hall⟩ := (unmapPages_returns_iff hwf l).mp ⟨new, h⟩
    have hmapped : (clone.leaf (vpn a)).isSome := (hall a ha).2.2
    rw [hfits, ← hnew, unmapPages_leaf h, if_pos (List.mem_map_of_mem ha)] at hmapped
    cases hmapped
  · rintro rfl
    cases h
    exact hfits

end Tables

/-- The process has a table that maps the region, and `freeproc` does not panic over it. -/
def Reapable (kend : ℕ) (q : Proc) : Prop :=
  (∃ r, q.pagetable = some r ∧ ∀ a ∈ pages vmStart vmEnd, r.table.Mapped a) ∧
    Returns (freeproc kend q)

def Whole (q : Proc) : Prop := ∃ r, q.pagetable = some r ∧ Fits r.table q.sz

def OnSaved (t : TrapInput) (s : VmState) : Prop :=
  IsSret t.instruction ∧ s.currentMode ≠ 1 ∨ EntersEcall t.instruction ∧ s.currentMode = 1

def OnCopy (t : TrapInput) (s : VmState) : Prop :=
  IsMret t.instruction ∧ 2 ≤ s.currentMode ∧ s.pmpConfiguration = 1

/-- The trap ends the VM: it was to be killed already, or the trap is a fault, or the
instruction is not permitted. -/
def Ends (cause : Cause) (t : TrapInput) (s : VmState) (p : Proc) : Prop :=
  p.killed = true ∨ cause = .other ∨
    Emulated cause p ∧ (Refuses t.instruction s.currentMode ∨
      IsSret t.instruction ∧ s.currentMode ≠ 1)

/-- The table the VM is left with fits it: the saved one after a fault, an `sret` that is
refused or an `ecall` of supervisor mode, a copy after an `mret` under PMP, and
otherwise the active one. -/
structure LeavesWhole (cause : Cause) (t : TrapInput) (s : VmState) (p : Proc) : Prop where
  fault : cause = .other → ∃ r, s.oldPtable = some r ∧ Fits r.table p.sz
  saved : Emulated cause p → OnSaved t s → ∀ r, s.oldPtable = some r → Fits r.table p.sz
  copied : Emulated cause p → OnCopy t s → restrictedPages s = []
  active : cause ≠ .other → (Emulated cause p → ¬ OnSaved t s ∧ ¬ OnCopy t s) → Whole p

section Outcome

variable {kend : ℕ} {t : TrapInput} {s s' : VmState} {p p' : Proc} {cause : Cause}

/-- An instruction whose outcome is none of the refusals is permitted. -/
theorem Outcome.killed_iff (h : Outcome t s p s' p') : p'.killed = true ↔ p.killed = true ∨
    Refuses t.instruction s.currentMode ∨ IsSret t.instruction ∧ s.currentMode ≠ 1 := by
  have hkept : p'.killed = p.killed → ¬ Refuses t.instruction s.currentMode →
      ¬ (IsSret t.instruction ∧ s.currentMode ≠ 1) →
      (p'.killed = true ↔ p.killed = true ∨ Refuses t.instruction s.currentMode ∨
        IsSret t.instruction ∧ s.currentMode ≠ 1) := by
    intro hk h₁ h₂
    rw [hk]
    simp [h₁, h₂]
  cases h with
  | ecallUser enters mode =>
    refine hkept rfl ?_ ?_ <;> unfold Refuses IsSret IsMret EntersEcall at * <;> omega
  | ecallSupervisor enters mode =>
    refine hkept rfl ?_ ?_ <;> unfold Refuses IsSret IsMret EntersEcall at * <;> omega
  | sret is_sret mode =>
    refine hkept rfl ?_ ?_ <;> unfold Refuses IsSret IsMret EntersEcall at * <;> omega
  | mret is_mret mode flag =>
    refine hkept rfl ?_ ?_ <;> unfold Refuses IsSret IsMret EntersEcall at * <;> omega
  | mretPmp is_mret mode flag =>
    refine hkept rfl ?_ ?_ <;> unfold Refuses IsSret IsMret EntersEcall at * <;> omega
  | csrw c funct number permitted =>
    refine hkept rfl ?_ (fun ⟨h, _⟩ => by have := h.1; omega)
    rintro (⟨⟨h, -⟩, -⟩ | ⟨⟨h, -⟩, -⟩ | ⟨-, h⟩ | ⟨h, -⟩)
    · omega
    · omega
    · have := h c number.symm
      omega
    · omega
  | csrr c funct number permitted =>
    refine hkept rfl ?_ (fun ⟨h, _⟩ => by have := h.1; omega)
    rintro (⟨⟨h, -⟩, -⟩ | ⟨⟨h, -⟩, -⟩ | ⟨h, -⟩ | ⟨-, d, hd, h⟩)
    · omega
    · omega
    · omega
    · rw [Csr.code_injective (hd.trans number)] at h
      omega
  | ignored funct =>
    refine hkept rfl ?_ (fun ⟨h, _⟩ => by have := h.1; omega)
    rintro (⟨⟨h, -⟩, -⟩ | ⟨⟨h, -⟩, -⟩ | ⟨h, -⟩ | ⟨h, -⟩) <;> omega
  | refused q killed sz frame table privilege => simp [killed, privilege]
  | sretRefused is_sret mode => simp [is_sret, mode, Proc.setkilled]

theorem Outcome.sz_eq (h : Outcome t s p s' p') :
    p'.sz = p.sz ∧ p'.trapframePage = p.trapframePage := by
  cases h with
  | refused q killed sz frame table privilege => exact ⟨sz, frame⟩
  | _ => exact ⟨rfl, rfl⟩

/-- The tables that an instruction leaves in use are ordinary. -/
theorem Outcome.ordinary (h : Outcome t s p s' p') (hsz : p.sz ≤ vmStart)
    (hold : ∀ r, s.oldPtable = some r → Ordinary kend r.table)
    (hact : ∀ r, p.pagetable = some r → Ordinary kend r.table) :
    (∀ r, s'.oldPtable = some r → Ordinary kend r.table) ∧
      ∀ r, p'.pagetable = some r → Ordinary kend r.table := by
  cases h with
  | ecallUser => exact ⟨hold, hact⟩
  | ecallSupervisor => exact ⟨hold, hold⟩
  | sret => exact ⟨hold, hact⟩
  | mret => exact ⟨hold, hact⟩
  | mretPmp is_mret mode flag r active clone new copied withdrawn =>
    refine ⟨hold, fun r' hr' => ?_⟩
    cases hr'
    exact (ordinary_cloneTable (hact r active) hsz copied).unmapPages withdrawn
  | csrw => exact ⟨hold, hact⟩
  | csrr => exact ⟨hold, hact⟩
  | ignored => exact ⟨hold, hact⟩
  | refused q killed sz frame table privilege =>
    refine ⟨fun _ hr => (by cases hr), ?_⟩
    rw [table]
    exact hact
  | sretRefused => exact ⟨fun _ hr => (by cases hr), hold⟩

theorem Outcome.table_active (h : Outcome t s p s' p') (hsaved : ¬ OnSaved t s)
    (hcopy : ¬ OnCopy t s) : p'.pagetable = p.pagetable := by
  cases h with
  | ecallSupervisor enters mode => exact absurd (Or.inr ⟨enters, mode⟩) hsaved
  | mretPmp is_mret mode flag => exact absurd ⟨is_mret, mode, flag⟩ hcopy
  | sretRefused is_sret mode => exact absurd (Or.inl ⟨is_sret, mode⟩) hsaved
  | refused q killed sz frame table privilege => exact table
  | _ => rfl

theorem Outcome.table_saved (h : Outcome t s p s' p') (hsaved : OnSaved t s) :
    p'.pagetable = s.oldPtable := by
  unfold OnSaved IsSret EntersEcall at hsaved
  cases h with
  | ecallSupervisor enters mode => rfl
  | sretRefused is_sret mode => rfl
  | ecallUser enters mode =>
    unfold EntersEcall at enters
    omega
  | sret is_sret mode =>
    unfold IsSret at is_sret
    omega
  | mret is_mret mode flag =>
    unfold IsMret at is_mret
    omega
  | mretPmp is_mret mode flag =>
    unfold IsMret at is_mret
    omega
  | csrw c funct => omega
  | csrr c funct => omega
  | ignored funct => omega
  | refused q killed sz frame table privilege =>
    unfold Refuses EntersEcall IsMret at privilege
    rcases privilege with h | h | ⟨h, -⟩ | ⟨h, -⟩ <;> omega

/-- After an `mret` under PMP the table is a copy of the active one without the pages that
the PMP withdraws. -/
theorem Outcome.table_copied (h : Outcome t s p s' p') (hcopy : OnCopy t s) :
    ∃ r clone new, p.pagetable = some r ∧ cloneTable p r.table = .ok clone ∧
      exec unmapPage clone (restrictedPages s) = .ok new ∧
      p'.pagetable = some ⟨t.newPage, new⟩ := by
  cases h with
  | mretPmp is_mret mode flag r active clone new copied withdrawn =>
    exact ⟨r, clone, new, active, copied, withdrawn, rfl⟩
  | mret is_mret mode flag => exact absurd hcopy.2.2 flag
  | ecallUser enters mode =>
    have := hcopy.2.1
    omega
  | ecallSupervisor enters mode =>
    have := hcopy.2.1
    omega
  | sret is_sret mode =>
    have := hcopy.2.1
    omega
  | csrw c funct =>
    have := hcopy.1.1
    omega
  | csrr c funct =>
    have := hcopy.1.1
    omega
  | ignored funct =>
    have := hcopy.1.1
    omega
  | refused q killed sz frame table privilege =>
    unfold OnCopy IsMret at hcopy
    unfold Refuses EntersEcall IsMret at privilege
    rcases privilege with h | h | ⟨h, -⟩ | ⟨h, -⟩ <;> omega
  | sretRefused is_sret mode =>
    unfold OnCopy IsMret at hcopy
    unfold IsSret at is_sret
    omega

theorem Outcome.whole_active (h : Outcome t s p s' p') (hsaved : ¬ OnSaved t s)
    (hcopy : ¬ OnCopy t s) : Whole p' ↔ Whole p := by
  rw [Whole, Whole, h.table_active hsaved hcopy, h.sz_eq.1]

theorem Outcome.whole_saved (h : Outcome t s p s' p') (hsaved : OnSaved t s) :
    Whole p' ↔ ∃ r, s.oldPtable = some r ∧ Fits r.table p.sz := by
  rw [Whole, h.table_saved hsaved, h.sz_eq.1]

theorem Outcome.whole_copied (h : Outcome t s p s' p') (hp : p.Ok) (hcopy : OnCopy t s) :
    Whole p' ↔ restrictedPages s = [] := by
  obtain ⟨r, clone, new, active, copied, withdrawn, htable⟩ := h.table_copied hcopy
  obtain ⟨r', hr', hwf⟩ := hp.table
  obtain rfl := Option.some.inj (hr'.symm.trans active)
  obtain ⟨-, hcl, -⟩ := cloneTable_spec hwf hp.sz_le copied
  rw [← fits_withdrawn hcl (fits_cloneTable hwf hp.sz_le copied) withdrawn, Whole, htable,
    h.sz_eq.1]
  constructor
  · rintro ⟨u, hu, hfits⟩
    cases hu
    exact hfits
  · intro hfits
    exact ⟨_, rfl, hfits⟩

structure Left (kend : ℕ) (s' : VmState) (p p' : Proc) : Prop where
  sz : p'.sz = p.sz
  frame : p'.trapframePage = p.trapframePage
  saved : ∀ r, s'.oldPtable = some r → Ordinary kend r.table
  active : ∀ r, p'.pagetable = some r → Ordinary kend r.table

theorem saveOldPtable_ordinary {page : KallocPage} (hp : p.Ok)
    (hold : ∀ r, s.oldPtable = some r → Ordinary kend r.table)
    (hact : ∀ r, p.pagetable = some r → Ordinary kend r.table)
    (h : saveOldPtable page s p = .ok s') :
    (∀ r, s'.oldPtable = some r → Ordinary kend r.table) ∧
      ((∃ r, s'.oldPtable = some r ∧ Fits r.table p.sz) ↔
        ∀ r, s.oldPtable = some r → Fits r.table p.sz) := by
  obtain ⟨r, hr, hwf⟩ := hp.table
  cases hnone : s.oldPtable with
  | some u =>
    rw [saveOldPtable_some (by simp [hnone])] at h
    cases h
    exact ⟨hold, by simp [hnone]⟩
  | none =>
    rw [saveOldPtable_none hnone hr] at h
    obtain ⟨clone, hclone, h⟩ := bind_ok_iff.mp h
    cases h
    refine ⟨fun u hu => ?_, ?_⟩
    · cases hu
      exact ordinary_cloneTable (hact r hr) hp.sz_le hclone
    · simpa using fits_cloneTable hwf hp.sz_le hclone

theorem usertrap_left (hs : s.Ok) (hp : p.Ok)
    (hold : ∀ r, s.oldPtable = some r → Ordinary kend r.table)
    (hact : ∀ r, p.pagetable = some r → Ordinary kend r.table)
    (h : usertrap cause t s p = .ok (s', p')) : Left kend s' p p' := by
  by_cases hemu : Emulated cause p
  · rw [usertrap_emulated hemu] at h
    obtain ⟨s₁, hsave, hdis⟩ := bind_ok_iff.mp h
    obtain ⟨hs₁, hsome, -⟩ := saveOldPtable_spec hs (hp.trapped t) hsave
    have hold₁ := (saveOldPtable_ordinary (hp.trapped t) hold hact hsave).1
    have hout := dispatch_outcome hs₁.intact hsome hdis
    obtain ⟨hsaved, hactive⟩ := hout.ordinary hp.sz_le hold₁ hact
    exact ⟨hout.sz_eq.1, hout.sz_eq.2, hsaved, hactive⟩
  · rcases usertrap_not_emulated hemu t s with ⟨hu, -⟩ | ⟨hu, -⟩
    · obtain ⟨rfl, rfl⟩ := Prod.mk.inj (Except.ok.inj (h.symm.trans hu))
      exact ⟨rfl, rfl, hold, hact⟩
    · obtain ⟨rfl, rfl⟩ := Prod.mk.inj (Except.ok.inj (h.symm.trans hu))
      exact ⟨rfl, rfl, fun _ hr => (by cases hr), hold⟩

theorem usertrap_killed_iff (hs : s.Ok) (hp : p.Ok) (h : usertrap cause t s p = .ok (s', p')) :
    p'.killed = true ↔ Ends cause t s p := by
  by_cases hemu : Emulated cause p
  · have hne : cause ≠ .other := by
      rintro rfl
      rcases hemu with h | h
      · cases h
      · cases h.1
    rw [usertrap_emulated hemu] at h
    obtain ⟨s₁, hsave, hdis⟩ := bind_ok_iff.mp h
    obtain ⟨hs₁, hsome, -, hmode, -⟩ := saveOldPtable_spec hs (hp.trapped t) hsave
    have hiff := (dispatch_outcome hs₁.intact hsome hdis).killed_iff
    rw [hmode] at hiff
    simpa [Ends, hemu, hne] using hiff
  · rcases usertrap_not_emulated hemu t s with ⟨hu, hne⟩ | ⟨hu, heq⟩
    · obtain ⟨rfl, rfl⟩ := Prod.mk.inj (Except.ok.inj (h.symm.trans hu))
      simp [Ends, hemu, hne]
    · obtain ⟨rfl, rfl⟩ := Prod.mk.inj (Except.ok.inj (h.symm.trans hu))
      simp [Ends, heq, Proc.setkilled]

theorem OnCopy.congr {s₁ : VmState} (hmode : s₁.currentMode = s.currentMode)
    (hflag : s₁.pmpConfiguration = s.pmpConfiguration) : OnCopy t s₁ ↔ OnCopy t s := by
  unfold OnCopy
  rw [hmode, hflag]

theorem OnSaved.congr {s₁ : VmState} (hmode : s₁.currentMode = s.currentMode) :
    OnSaved t s₁ ↔ OnSaved t s := by
  unfold OnSaved
  rw [hmode]

theorem not_onCopy (h : OnSaved t s) : ¬ OnCopy t s := by
  unfold OnSaved IsSret EntersEcall at h
  unfold OnCopy IsMret
  omega

theorem usertrap_whole_iff (hs : s.Ok) (hp : p.Ok)
    (hold : ∀ r, s.oldPtable = some r → Ordinary kend r.table)
    (hact : ∀ r, p.pagetable = some r → Ordinary kend r.table)
    (h : usertrap cause t s p = .ok (s', p')) : Whole p' ↔ LeavesWhole cause t s p := by
  by_cases hemu : Emulated cause p
  · have hne : cause ≠ .other := by
      rintro rfl
      rcases hemu with h | h
      · cases h
      · cases h.1
    rw [usertrap_emulated hemu] at h
    obtain ⟨s₁, hsave, hdis⟩ := bind_ok_iff.mp h
    obtain ⟨hs₁, hsome, hreg, hmode, hflag⟩ := saveOldPtable_spec hs (hp.trapped t) hsave
    have hsaved := (saveOldPtable_ordinary (hp.trapped t) hold hact hsave).2
    have hout := dispatch_outcome hs₁.intact hsome hdis
    by_cases hon : OnSaved t s
    · rw [hout.whole_saved ((OnSaved.congr hmode).mpr hon), hsaved]
      constructor
      · intro hfits
        exact ⟨fun h => absurd h hne, fun _ _ => hfits, fun _ h => absurd h (not_onCopy hon),
          fun _ h => absurd hon (h hemu).1⟩
      · intro hleaves
        exact hleaves.saved hemu hon
    · by_cases hcopy : OnCopy t s
      · rw [hout.whole_copied (hp.trapped t) ((OnCopy.congr hmode hflag).mpr hcopy),
          restrictedPages_congr hreg]
        constructor
        · intro hnil
          exact ⟨fun h => absurd h hne, fun _ h => absurd h hon, fun _ _ => hnil,
            fun _ h => absurd hcopy (h hemu).2⟩
        · intro hleaves
          exact hleaves.copied hemu hcopy
      · rw [hout.whole_active (fun h => hon ((OnSaved.congr hmode).mp h))
          (fun h => hcopy ((OnCopy.congr hmode hflag).mp h))]
        constructor
        · intro hwhole
          exact ⟨fun h => absurd h hne, fun _ h => absurd h hon, fun _ h => absurd h hcopy,
            fun _ _ => hwhole⟩
        · intro hleaves
          exact hleaves.active hne fun _ => ⟨hon, hcopy⟩
  · rcases usertrap_not_emulated hemu t s with ⟨hu, hne⟩ | ⟨hu, heq⟩
    · obtain ⟨rfl, rfl⟩ := Prod.mk.inj (Except.ok.inj (h.symm.trans hu))
      constructor
      · intro hwhole
        exact ⟨fun h => absurd h hne, fun h => absurd h hemu, fun h => absurd h hemu,
          fun _ _ => hwhole⟩
      · intro hleaves
        exact hleaves.active hne fun h => absurd h hemu
    · obtain ⟨rfl, rfl⟩ := Prod.mk.inj (Except.ok.inj (h.symm.trans hu))
      constructor
      · intro hwhole
        exact ⟨fun _ => hwhole, fun h => absurd h hemu, fun h => absurd h hemu,
          fun h => absurd heq h⟩
      · intro hleaves
        exact hleaves.fault heq

theorem reapable_iff (hact : ∀ r, p.pagetable = some r → Ordinary kend r.table)
    (hframe : Freeable kend p.trapframePage) (hsz : p.sz ≤ vmStart) :
    Reapable kend p ↔ Whole p := by
  constructor
  · rintro ⟨⟨r, hr, -⟩, hret⟩
    exact ⟨r, hr, (freeproc_returns_iff hr (hact r hr) hframe hsz).mp hret⟩
  · rintro ⟨r, hr, hfits⟩
    refine ⟨⟨r, hr, fun a ha => (hfits _).mpr (Or.inl (List.mem_map_of_mem ?_))⟩,
      (freeproc_returns_iff hr (hact r hr) hframe hsz).mpr hfits⟩
    exact List.mem_append_right _ ha

end Outcome

/-- The image is one that `exec` leaves: its table is an ordinary one and fits it, and the
trapframe is a page of the allocator. -/
structure VmImage.Loaded (kend : ℕ) (img : VmImage) : Prop where
  ordinary : Ordinary kend img.table.table
  fits : Fits img.table.table img.sz
  frame : Freeable kend img.trapframePage

/-- An `exec` starts a loaded image. -/
def LoadsImage (kend : ℕ) (_ : Machine) : Event → Prop
  | .exec _ img => img.Loaded kend
  | _ => True

/-- Every table that is in use or saved is an ordinary one. -/
structure Machine.Tables (kend : ℕ) (m : Machine) : Prop where
  ok : m.Ok
  saved : ∀ r, m.vm.oldPtable = some r → Ordinary kend r.table
  active : ∀ pid p, m.procs pid = .running p → ∀ r, p.pagetable = some r → Ordinary kend r.table
  frame : ∀ pid p, m.procs pid = .running p → Freeable kend p.trapframePage

section Runs

variable {kend : ℕ} {m m' : Machine} {e : Event}

theorem Machine.tables_boot : Machine.Tables kend boot where
  ok := Machine.ok_boot
  saved := fun _ h => by cases h
  active := fun _ _ h => by cases h
  frame := fun _ _ h => by cases h

theorem Machine.Tables.update (h : m.Tables kend) {s : VmState} {pid : ℕ} {slot : ProcSlot}
    (hok : (⟨s, Function.update m.procs pid slot⟩ : Machine).Ok)
    (hsaved : ∀ r, s.oldPtable = some r → Ordinary kend r.table)
    (hslot : ∀ p, slot = .running p →
      Freeable kend p.trapframePage ∧ ∀ r, p.pagetable = some r → Ordinary kend r.table) :
    (⟨s, Function.update m.procs pid slot⟩ : Machine).Tables kend := by
  have hall : ∀ q p, Function.update m.procs pid slot q = .running p →
      Freeable kend p.trapframePage ∧ ∀ r, p.pagetable = some r → Ordinary kend r.table := by
    intro q p hq
    by_cases hpid : q = pid
    · subst hpid
      rw [Function.update_self] at hq
      exact hslot p hq
    · rw [Function.update_of_ne hpid] at hq
      exact ⟨h.frame q p hq, h.active q p hq⟩
  exact ⟨hok, hsaved, fun q p hq => (hall q p hq).2, fun q p hq => (hall q p hq).1⟩

theorem step_tables (h : m.Tables kend) (hload : LoadsImage kend m e) (hstep : step m e = .ok m') :
    m'.Tables kend := by
  have hok := step_ok h.ok e hstep
  cases e with
  | exec pid img =>
    simp only [step] at hstep
    split at hstep
    · cases hstep
      refine h.update hok h.saved fun p hp => ?_
      cases hp
      refine ⟨hload.frame, fun r hr => ?_⟩
      cases hr
      exact hload.ordinary
    · cases hstep
      exact h
  | kill pid =>
    simp only [step] at hstep
    split at hstep
    · next p hp =>
      cases hstep
      refine h.update hok h.saved fun q hq => ?_
      cases hq
      exact ⟨h.frame pid p hp, h.active pid p hp⟩
    · cases hstep
      exact h
  | trap pid cause t =>
    simp only [step] at hstep
    split at hstep
    · next p hp =>
      obtain ⟨⟨s', p'⟩, hu, hstep⟩ := bind_ok_iff.mp hstep
      cases hstep
      have hleft := usertrap_left h.ok.vm (h.ok.procs pid p hp) h.saved (h.active pid p hp) hu
      refine h.update hok hleft.saved fun q hq => ?_
      unfold leave at hq
      split_ifs at hq
      cases hq
      exact ⟨hleft.frame ▸ h.frame pid p hp, hleft.active⟩
    · cases hstep
      exact h

end Runs

/-- A table with one page, the trampoline and the trapframe. -/
def completeTable : PageTable Unit where
  mid i := if i = 0 ∨ i = 2 ∨ i = 255 then some () else none
  low i := if i = 0 ∨ i = 0x400 ∨ i = 0x401 ∨ i = 0x1ffff then some () else none
  leaf i :=
    if i = 0 ∨ 0x80000 ≤ i ∧ i < 0x80400 then
      some ⟨0x80200000 + PGSIZE * (i % 0x400), true, true, true, true⟩
    else (procPagetable VmImage.onePage.proc).leaf i

theorem completeTable_wf : completeTable.Wf := by
  have hproc := wf_procPagetable VmImage.onePage.proc
  refine ⟨fun i hi => ?_, fun i hi => ?_, fun i e he => ?_⟩
  · simp only [completeTable] at hi
    split_ifs at hi with h
    · simp only [completeTable, Option.isSome_ite]
      omega
    · have hlow := hproc.low_of_leaf i hi
      have hindex : lowIndex TRAPFRAME = 0x1ffff := by decide
      simp only [completeTable, procPagetable, Option.isSome_ite, hindex] at hlow ⊢
      omega
  · simp only [completeTable, Option.isSome_ite] at hi ⊢
    omega
  · simp only [completeTable] at he
    split_ifs at he
    · cases he
      rfl
    · exact hproc.leaf_grants i e he

theorem completeTable_full : Full completeTable PGSIZE := by
  intro a ha
  simp only [mem_vmPages, vmStart, vmEnd, PGSIZE] at ha
  have hpage : vpn a = 0 ∨ 0x80000 ≤ vpn a ∧ vpn a < 0x80400 := by
    simp only [vpn, PGSIZE]
    omega
  exact Option.isSome_iff_exists.mpr ⟨_, if_pos hpage⟩

theorem page_le_vmStart : PGSIZE ≤ vmStart := by decide

/-- The one-page program with the trampoline and the trapframe. -/
def VmImage.complete : VmImage where
  table := ⟨KallocPage.sample, completeTable⟩
  sz := PGSIZE
  trapframePage := 0x80101000
  trapframe := VmImage.onePage.trapframe
  sz_le := page_le_vmStart
  wf := completeTable_wf
  full := completeTable_full

theorem mem_vmPages_vpn {i : ℕ} :
    i ∈ (vmPages PGSIZE).map vpn ↔ i = 0 ∨ 0x80000 ≤ i ∧ i < 0x80400 := by
  simp only [List.mem_map, mem_vmPages, vpn, vmStart, vmEnd, PGSIZE]
  constructor
  · rintro ⟨a, ha, rfl⟩
    omega
  · intro hi
    exact ⟨4096 * i, by omega, by omega⟩

theorem VmImage.complete_loaded : VmImage.complete.Loaded 0x80022000 := by
  have hleaf : ∀ i, VmImage.complete.table.table.leaf i =
      if i = 0 ∨ 0x80000 ≤ i ∧ i < 0x80400 then
        some ⟨0x80200000 + PGSIZE * (i % 0x400), true, true, true, true⟩
      else (procPagetable VmImage.onePage.proc).leaf i := fun _ => rfl
  have hfits : Fits VmImage.complete.table.table PGSIZE := by
    intro i
    rw [hleaf, mem_vmPages_vpn]
    by_cases hi : i = 0 ∨ 0x80000 ≤ i ∧ i < 0x80400
    · simp [hi]
    · simp only [hi, ↓reduceIte, false_or, procPagetable]
      split_ifs with h₁ h₂
      · simp [h₁]
      · simp [h₂]
      · simp [h₁, h₂]
  have hframe : Freeable 0x80022000 0x80101000 := ⟨by decide, by decide, by decide⟩
  refine ⟨⟨VmImage.complete.wf, fun i hi => ?_, fun i e hi he => ?_⟩, hfits, hframe⟩
  · rw [hfits, mem_vmPages_vpn] at hi
    simp only [vpn, TRAPFRAME, TRAMPOLINE, MAXVA, PGSIZE] at *
    omega
  · rw [hleaf] at he
    split_ifs at he with h
    · cases he
      simp only [vpn, vmStart, PGSIZE, Freeable, PHYSTOP, KERNBASE] at *
      omega
    · rw [procPagetable_low hi] at he
      cases he

end AdvancedOperatingSystems.TrapEmulate
