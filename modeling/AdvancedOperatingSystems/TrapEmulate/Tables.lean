import AdvancedOperatingSystems.TrapEmulate.Handlers

/-!
# What the page-table loops of the monitor do

Each loop returns exactly when every page it visits is in order, and then the
leaves of the resulting table are known.
-/

namespace AdvancedOperatingSystems.TrapEmulate

open Foundations Riscv Riscv.PageTable

/-- The pages the monitor copies: the image of the process and its VM region. -/
def vmPages (sz : ℕ) : List ℕ := pages 0 sz ++ pages vmStart vmEnd

def Full (pt : PageTable Unit) (sz : ℕ) : Prop := ∀ a ∈ vmPages sz, pt.Mapped a

theorem mem_vmPages {sz a : ℕ} :
    a ∈ vmPages sz ↔ a % PGSIZE = 0 ∧ (a < sz ∨ vmStart ≤ a ∧ a < vmEnd) := by
  simp only [vmPages, List.mem_append, mem_pages, vmStart, vmEnd, PGSIZE]
  omega

theorem nodup_vmPages {sz : ℕ} (h : sz ≤ vmStart) : (vmPages sz).Nodup := by
  rw [vmPages, List.nodup_append]
  refine ⟨nodup_pages _ _, nodup_pages _ _, fun a ha b hb => ?_⟩
  simp only [mem_pages, vmStart] at ha hb h
  omega

theorem lt_MAXVA_of_mem_vmPages {sz a : ℕ} (h : sz ≤ vmStart) (ha : a ∈ vmPages sz) :
    a < TRAPFRAME := by
  rw [mem_vmPages] at ha
  simp only [vmStart, vmEnd, TRAPFRAME, TRAMPOLINE, MAXVA, PGSIZE] at *
  omega

section Mapping

variable {pt : PageTable Unit} {va : ℕ} {e : Pte}

/-- Mapping a fresh page sets its leaf and creates the tables on the way. -/
theorem mappages_ok (hva : va < MAXVA) (hfree : ¬ pt.Mapped va) :
    ∃ new, mappages pt va e = .ok new ∧ new.leaf = Function.update pt.leaf (vpn va) (some e) ∧
      (pt.Wf → e.onlyValid = false → new.Wf) := by
  simp only [Mapped] at hfree
  rw [mappages, if_neg (Nat.not_le.mpr hva), if_neg hfree]
  refine ⟨_, rfl, rfl, fun hw he => ⟨fun i hi => ?_, fun i hi => ?_, fun i f hf => ?_⟩⟩
  · by_cases h : i = vpn va
    · subst h
      simp [lowIndex]
    · simp only [Function.update_of_ne h] at hi
      simp only [Function.update_apply]
      split_ifs
      · rfl
      · exact hw.low_of_leaf i hi
  · by_cases h : i = lowIndex va
    · subst h
      simp [midIndex]
    · simp only [Function.update_of_ne h] at hi
      simp only [Function.update_apply]
      split_ifs
      · rfl
      · exact hw.mid_of_low i hi
  · by_cases h : i = vpn va
    · subst h
      simp only [Function.update_self, Option.some.injEq] at hf
      exact hf ▸ he
    · simp only [Function.update_of_ne h] at hf
      exact hw.leaf_grants i f hf

theorem not_mappages_remap (hfree : pt.Mapped va) : ¬ Returns (mappages pt va e) := by
  simp only [Mapped] at hfree
  rw [mappages]
  split_ifs <;> simp

end Mapping

section Copy

variable {old new : PageTable Unit}

theorem copyPage_ok (hold : old.Wf) {i : ℕ} (hi : i < MAXVA) (hnew : ¬ new.Mapped i)
    (hmap : old.Mapped i) :
    ∃ new', copyPage old new i = .ok new' ∧
      new'.leaf = Function.update new.leaf (vpn i) (old.leaf (vpn i)) ∧ (new.Wf → new'.Wf) := by
  obtain ⟨e, he⟩ := Option.isSome_iff_exists.mp hmap
  obtain ⟨new', hok, hleaf, hwf⟩ := mappages_ok (e := e) hi hnew
  refine ⟨new', ?_, ?_, fun hw => hwf hw (hold.leaf_grants _ e he)⟩
  · simp [copyPage, hold.walk_mapped hi hmap, he, hok, bind, Except.bind]
  · rw [hleaf, he]

theorem not_copyPage (i : ℕ) (hmap : ¬ old.Mapped i) : ¬ Returns (copyPage old new i) := by
  rw [copyPage, returns_bind]
  rintro ⟨r, hr, hret⟩
  obtain ⟨_, hslot⟩ := walk_ok hr
  rcases r with _ | _ | e
  · simp at hret
  · simp at hret
  · refine hmap ?_
    rw [Mapped, ← hslot _ rfl]
    rfl

/-- Copying a list of pages that the new table does not map yet. -/
theorem copyPages_ok (hold : old.Wf) {l : List ℕ} (hnd : l.Nodup)
    (hl : ∀ a ∈ l, a % PGSIZE = 0 ∧ a < MAXVA) (hnew : ∀ a ∈ l, ¬ new.Mapped a)
    (hmap : ∀ a ∈ l, old.Mapped a) :
    ∃ new', exec (copyPage old) new l = .ok new' ∧
      (∀ i, new'.leaf i = if i ∈ l.map vpn then old.leaf i else new.leaf i) ∧
      (new.Wf → new'.Wf) := by
  induction l generalizing new with
  | nil => exact ⟨new, rfl, by simp, id⟩
  | cons a l ih =>
    obtain ⟨ha, hnd⟩ := List.nodup_cons.mp hnd
    simp only [List.forall_mem_cons] at hl hnew hmap
    obtain ⟨mid, hmid, hleaf, hwf⟩ := copyPage_ok hold hl.1.2 hnew.1 hmap.1
    have hmidnew : ∀ b ∈ l, ¬ mid.Mapped b := by
      intro b hb
      have hne : vpn b ≠ vpn a := fun h => ha (vpn_inj (hl.2 b hb).1 hl.1.1 h ▸ hb)
      simpa [Mapped, hleaf, hne] using hnew.2 b hb
    obtain ⟨new', hok, hleaf', hwf'⟩ := ih hnd hl.2 hmidnew hmap.2
    refine ⟨new', ?_, fun i => ?_, fun hw => hwf' (hwf hw)⟩
    · rw [exec_cons, hmid]
      exact hok
    · rw [hleaf', hleaf]
      by_cases hi : i = vpn a
      · subst hi
        simp
      · simp [hi]

theorem not_copyPages {l : List ℕ} {a : ℕ} (ha : a ∈ l) (hmap : ¬ old.Mapped a) :
    ¬ Returns (exec (copyPage old) new l) := by
  induction l generalizing new with
  | nil => cases ha
  | cons b l ih =>
    rw [exec_cons, returns_bind]
    rintro ⟨mid, hmid, hret⟩
    rcases List.mem_cons.mp ha with rfl | ha
    · exact not_copyPage _ hmap ⟨mid, hmid⟩
    · exact ih ha hret

end Copy

section Clone

variable {p : Proc} {old : PageTable Unit}

theorem wf_procPagetable (p : Proc) : (procPagetable p).Wf := by
  refine ⟨fun i hi => ?_, fun i hi => ?_, fun i e he => ?_⟩
  · have h : i = vpn TRAMPOLINE ∨ i = vpn TRAPFRAME := by
      by_contra hne
      rw [not_or] at hne
      simp [procPagetable, hne.1, hne.2] at hi
    rcases h with rfl | rfl <;>
      simp [procPagetable, vpn, lowIndex, TRAMPOLINE, TRAPFRAME, MAXVA, PGSIZE]
  · have h : i = lowIndex TRAPFRAME := by
      by_contra hne
      simp [procPagetable, hne] at hi
    subst h
    simp [procPagetable, midIndex]
  · simp only [procPagetable] at he
    split_ifs at he <;> cases he <;> rfl

theorem procPagetable_mapped {va : ℕ} (hva : va % PGSIZE = 0) :
    (procPagetable p).Mapped va ↔ va = TRAMPOLINE ∨ va = TRAPFRAME := by
  have h : ∀ b, b % PGSIZE = 0 → (vpn va = vpn b ↔ va = b) :=
    fun b hb => ⟨vpn_inj hva hb, fun h => h ▸ rfl⟩
  have h₁ := h TRAMPOLINE (by decide)
  have h₂ := h TRAPFRAME (by decide)
  simp only [Mapped, procPagetable, h₁, h₂]
  split_ifs <;> simp_all

theorem cloneTable_eq (p : Proc) (old : PageTable Unit) :
    cloneTable p old = exec (copyPage old) (procPagetable p) (vmPages p.sz) := by
  rw [vmPages, exec_append]
  rfl

theorem cloneTable_ok (hold : old.Wf) (hsz : p.sz ≤ vmStart) (hfull : Full old p.sz) :
    ∃ new, cloneTable p old = .ok new ∧ new.Wf ∧
      ∀ i, new.leaf i = if i ∈ (vmPages p.sz).map vpn then old.leaf i
        else (procPagetable p).leaf i := by
  rw [cloneTable_eq]
  have hlt : ∀ a ∈ vmPages p.sz, a % PGSIZE = 0 ∧ a < MAXVA := fun a ha =>
    ⟨(mem_vmPages.mp ha).1, (lt_MAXVA_of_mem_vmPages hsz ha).trans (by decide)⟩
  have hfree : ∀ a ∈ vmPages p.sz, ¬ (procPagetable p).Mapped a := by
    intro a ha
    have hlt' := lt_MAXVA_of_mem_vmPages hsz ha
    rw [procPagetable_mapped (hlt a ha).1]
    simp only [TRAPFRAME, TRAMPOLINE, MAXVA, PGSIZE] at *
    omega
  obtain ⟨new, hok, hleaf, hwf⟩ := copyPages_ok hold (nodup_vmPages hsz) hlt hfree hfull
  exact ⟨new, hok, hwf (wf_procPagetable p), hleaf⟩

theorem cloneTable_returns_iff (hold : old.Wf) (hsz : p.sz ≤ vmStart) :
    Returns (cloneTable p old) ↔ Full old p.sz := by
  constructor
  · intro h a ha
    by_contra hmap
    rw [cloneTable_eq] at h
    exact not_copyPages ha hmap h
  · intro h
    obtain ⟨new, hok, _⟩ := cloneTable_ok hold hsz h
    exact ⟨new, hok⟩

theorem cloneTable_spec (hold : old.Wf) (hsz : p.sz ≤ vmStart) {new : PageTable Unit}
    (h : cloneTable p old = .ok new) :
    Full old p.sz ∧ new.Wf ∧ ∀ i, new.leaf i = if i ∈ (vmPages p.sz).map vpn then old.leaf i
        else (procPagetable p).leaf i := by
  have hfull := (cloneTable_returns_iff hold hsz).mp ⟨new, h⟩
  obtain ⟨new', hok, hspec⟩ := cloneTable_ok hold hsz hfull
  rw [h] at hok
  cases hok
  exact ⟨hfull, hspec⟩

def ClonedPage (sz a : ℕ) : Prop := a ∈ vmPages sz ∨ a = TRAMPOLINE ∨ a = TRAPFRAME

theorem cloneTable_mapped (hold : old.Wf) (hsz : p.sz ≤ vmStart) {new : PageTable Unit}
    (h : cloneTable p old = .ok new) {a : ℕ} (ha : a % PGSIZE = 0) :
    new.Mapped a ↔ ClonedPage p.sz a := by
  obtain ⟨hfull, _, hleaf⟩ := cloneTable_spec hold hsz h
  have hmem : vpn a ∈ (vmPages p.sz).map vpn ↔ a ∈ vmPages p.sz := by
    constructor
    · intro hm
      obtain ⟨b, hb, hab⟩ := List.mem_map.mp hm
      exact vpn_inj (mem_vmPages.mp hb).1 ha hab ▸ hb
    · exact List.mem_map_of_mem
  rw [Mapped, hleaf, ClonedPage, ← procPagetable_mapped (p := p) ha]
  by_cases hm : a ∈ vmPages p.sz
  · rw [if_pos (hmem.mpr hm)]
    simp only [hm, true_or, iff_true]
    exact hfull a hm
  · rw [if_neg (fun h' => hm (hmem.mp h'))]
    simp only [hm, false_or]
    rfl

theorem full_of_clonedPage {pt : PageTable Unit} {sz : ℕ}
    (h : ∀ a, a % PGSIZE = 0 → (pt.Mapped a ↔ ClonedPage sz a)) : Full pt sz :=
  fun a ha => (h a (mem_vmPages.mp ha).1).mpr (Or.inl ha)

end Clone

section Unmap

variable {pt : PageTable Unit}

theorem unmapPage_ok (hw : pt.Wf) {a : ℕ} (ha : a % PGSIZE = 0) (hlt : a < MAXVA)
    (hmap : pt.Mapped a) : unmapPage pt a = .ok (pt.set a none) := by
  obtain ⟨e, he⟩ := Option.isSome_iff_exists.mp hmap
  simp [unmapPage, ha, hw.walk_mapped hlt hmap, he, hw.leaf_grants _ e he, bind, Except.bind]

theorem unmapPage_spec {a : ℕ} {pt' : PageTable Unit} (h : unmapPage pt a = .ok pt') :
    a % PGSIZE = 0 ∧ a < MAXVA ∧ pt.Mapped a ∧ pt' = pt.set a none := by
  unfold unmapPage at h
  split_ifs at h with ha
  obtain ⟨r, hr, h⟩ := bind_ok_iff.mp h
  obtain ⟨hlt, hslot⟩ := walk_ok hr
  rcases r with _ | _ | e
  · cases h
  · cases h
  · simp only at h
    split_ifs at h
    cases h
    refine ⟨not_not.mp ha, hlt, ?_, rfl⟩
    rw [Mapped, ← hslot _ rfl]
    rfl

/-- Unmapping pages one by one returns exactly when they are page-aligned,
mapped, and none of them comes twice. -/
theorem unmapPages_returns_iff (hw : pt.Wf) (l : List ℕ) :
    Returns (exec unmapPage pt l) ↔
      l.Nodup ∧ ∀ a ∈ l, a % PGSIZE = 0 ∧ a < MAXVA ∧ pt.Mapped a := by
  induction l generalizing pt with
  | nil => simp
  | cons a l ih =>
    rw [exec_cons, returns_bind, List.nodup_cons]
    constructor
    · rintro ⟨mid, hmid, hret⟩
      obtain ⟨ha, hlt, hmap, rfl⟩ := unmapPage_spec hmid
      obtain ⟨hnd, hall⟩ := (ih (hw.clear a)).mp hret
      refine ⟨⟨fun hal => ?_, hnd⟩, List.forall_mem_cons.mpr ⟨⟨ha, hlt, hmap⟩, fun b hb => ?_⟩⟩
      · simpa [Mapped] using (hall a hal).2.2
      · obtain ⟨hb₁, hb₂, hb₃⟩ := hall b hb
        refine ⟨hb₁, hb₂, ?_⟩
        simp only [Mapped, set_leaf, Function.update_apply] at hb₃
        split_ifs at hb₃
        · cases hb₃
        · exact hb₃
    · rintro ⟨⟨hal, hnd⟩, hall⟩
      rw [List.forall_mem_cons] at hall
      obtain ⟨⟨ha, hlt, hmap⟩, hall⟩ := hall
      refine ⟨_, unmapPage_ok hw ha hlt hmap, (ih (hw.clear a)).mpr ⟨hnd, fun b hb => ?_⟩⟩
      obtain ⟨hb₁, hb₂, hb₃⟩ := hall b hb
      have hne : vpn b ≠ vpn a := fun h => hal (vpn_inj hb₁ ha h ▸ hb)
      refine ⟨hb₁, hb₂, ?_⟩
      simpa [Mapped, hne] using hb₃

theorem wf_unmapPages (hw : pt.Wf) {l : List ℕ} {pt' : PageTable Unit}
    (h : exec unmapPage pt l = .ok pt') : pt'.Wf := by
  refine exec_invariant (fun s e t hs ht => ?_) hw h
  obtain ⟨_, _, _, rfl⟩ := unmapPage_spec ht
  exact hs.clear e

end Unmap

section Restrict

variable (s : VmState)

/-- The pages that the given PMP entries withdraw, in the order they are
withdrawn: the ranges of the entries before the first zero bound whose `R`, `W`
and `X` bits are not all set. -/
def restrictedBy : List (Fin 4) → List ℕ
  | [] => []
  | i :: is =>
      if s.val (.pmpaddr i) = 0 then []
      else (if pmpRwx s i ≠ 7 then pages (pmpStart s i) (pmpEnd s i) else []) ++ restrictedBy is

/-- The pages that the PMP registers withdraw from the guest at an `mret`. -/
def restrictedPages : List ℕ := restrictedBy s [0, 1, 2, 3]

variable {s} in
theorem restrictedBy_congr {s' : VmState}
    (haddr : ∀ i, s'.val (.pmpaddr i) = s.val (.pmpaddr i))
    (hcfg : s'.val .pmpcfg0 = s.val .pmpcfg0) (is : List (Fin 4)) :
    restrictedBy s' is = restrictedBy s is := by
  have hstart : ∀ i, pmpStart s' i = pmpStart s i := fun i => by simp only [pmpStart, haddr]
  have hend : ∀ i, pmpEnd s' i = pmpEnd s i := fun i => by simp only [pmpEnd, haddr]
  have hrwx : ∀ i, pmpRwx s' i = pmpRwx s i := fun i => by simp only [pmpRwx, hcfg]
  induction is with
  | nil => rfl
  | cons i is ih =>
    rw [restrictedBy, restrictedBy, haddr, hstart, hend, hrwx, ih]

theorem pmpLoop_eq (is : List (Fin 4)) (new : PageTable Unit) :
    pmpLoop s is new = exec unmapPage new (restrictedBy s is) := by
  induction is generalizing new with
  | nil => rfl
  | cons i is ih =>
    by_cases h₀ : s.val (.pmpaddr i) = 0
    · simp [pmpLoop, restrictedBy, h₀]
    · by_cases h₇ : pmpRwx s i ≠ 7
      · simp only [pmpLoop, restrictedBy, h₀, h₇, ↓reduceIte, exec_append, ne_eq,
          not_false_eq_true, applyPmpRestrictions]
        exact congrArg _ (funext ih)
      · simp only [pmpLoop, restrictedBy, h₀, h₇, ↓reduceIte, List.nil_append]
        exact ih new

end Restrict

end AdvancedOperatingSystems.TrapEmulate
