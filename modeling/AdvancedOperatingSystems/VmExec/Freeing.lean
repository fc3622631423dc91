import AdvancedOperatingSystems.VmExec.Exec

/-!
# Freeing a page table

When `proc_freepagetable` returns, and which pages it puts on the free list.
-/

namespace AdvancedOperatingSystems.VmExec

open Foundations Riscv Riscv.PageTable DemandPaging

/-- A page that `kfree` accepts. -/
def Freeable (kend q : ℕ) : Prop := q % PGSIZE = 0 ∧ kend ≤ q ∧ q < PHYSTOP

def frames (pt : PageTable ℕ) (as : List ℕ) : List ℕ :=
  as.flatMap fun a => ((pt.leaf (vpn a)).map Pte.pa).toList

/-- The table pages below an entry of the root page. -/
def subtables (pt : PageTable ℕ) (i : ℕ) : List ℕ :=
  match pt.mid i with
  | none => []
  | some t =>
    t :: ((List.range 512).map fun j => 512 * i + j).flatMap fun j => (pt.low j).toList

def tables (pt : PageTable ℕ) : List ℕ := (List.range 512).flatMap (subtables pt)

/-- The pages that `proc_freepagetable` frees. -/
def held (pg : Pagetable) (sz : ℕ) : List ℕ :=
  frames pg.table (pages 0 sz) ++ pg.root :: tables pg.table

/-- The table maps the pages below the size, the trapframe and the trampoline. -/
def Fits (pt : PageTable ℕ) (sz : ℕ) : Prop :=
  ∀ v, (pt.leaf v).isSome ↔ PGSIZE * v < sz ∨ v = trapPage ∨ v = trapPage + 1

theorem mem_frames {pt : PageTable ℕ} {as : List ℕ} {q : ℕ} :
    q ∈ frames pt as ↔ ∃ a ∈ as, ∃ e, pt.leaf (vpn a) = some e ∧ e.pa = q := by
  unfold frames
  simp only [List.mem_flatMap, Option.mem_toList, Option.map_eq_some_iff]

theorem mem_tables {pt : PageTable ℕ} {t : ℕ} (h : t ∈ tables pt) :
    (∃ i, pt.mid i = some t) ∨ ∃ j, pt.low j = some t := by
  obtain ⟨i, -, ht⟩ := List.mem_flatMap.mp h
  unfold subtables at ht
  cases hmid : pt.mid i with
  | none => simp [hmid] at ht
  | some t' =>
    simp only [hmid, List.mem_cons] at ht
    rcases ht with rfl | ht
    · exact Or.inl ⟨i, hmid⟩
    · obtain ⟨j, -, hj⟩ := List.mem_flatMap.mp ht
      exact Or.inr ⟨j, Option.mem_toList.mp hj⟩

theorem kfree_eq {m : Memory} {q : ℕ} (h : Freeable m.kend q) :
    m.kfree q = .ok { m.memset q 1 with freelist := q :: m.freelist } := by
  obtain ⟨h₁, h₂, h₃⟩ := h
  unfold Memory.kfree
  rw [if_neg (by omega)]

section Unmap

variable {doFree : Bool} {s s' : Space} {as : List ℕ} {a : ℕ}

/-- The pages have been unmapped, and freed with `doFree`. -/
structure Cleared (doFree : Bool) (as : List ℕ) (s s' : Space) : Prop where
  wf : s'.2.Wf
  kend : s'.1.kend = s.1.kend
  mid : s'.2.mid = s.2.mid
  low : s'.2.low = s.2.low
  leaf : ∀ v, s'.2.leaf v = if v ∈ as.map vpn then none else s.2.leaf v
  freelist : s'.1.freelist.Perm ((if doFree then frames s.2 as else []) ++ s.1.freelist)

theorem clear_cons (pt : PageTable ℕ) (a : ℕ) (as : List ℕ) (v : ℕ) :
    (if v ∈ as.map vpn then none else (pt.set a none).leaf v) =
      if v ∈ (a :: as).map vpn then none else pt.leaf v := by
  have hmem : v ∈ (a :: as).map vpn ↔ v = vpn a ∨ v ∈ as.map vpn := List.mem_cons
  by_cases hv : v ∈ as.map vpn
  · rw [if_pos hv, if_pos (hmem.mpr (Or.inr hv))]
  · rw [if_neg hv, set_leaf]
    by_cases hva : v = vpn a
    · rw [if_pos (hmem.mpr (Or.inl hva)), hva, Function.update_self]
    · rw [if_neg fun h => (hmem.mp h).elim hva hv, Function.update_of_ne hva]

theorem unmapPage_mapped (hw : s.2.Wf) (hva : a < MAXVA) {e : Pte} (he : s.2.leaf (vpn a) = some e)
    (hframe : doFree = true → Freeable s.1.kend e.pa) :
    ∃ m, unmapPage doFree s a = .ok (m, s.2.set a none) ∧ m.kend = s.1.kend ∧
      m.freelist = (if doFree then [e.pa] else []) ++ s.1.freelist := by
  have hmapped : s.2.Mapped a := by
    unfold Mapped
    rw [he]
    rfl
  have hgrants := hw.leaf_grants _ e he
  unfold unmapPage
  rw [hw.walk_mapped hva hmapped, he]
  simp only [ok_bind, hgrants, Bool.false_eq_true, if_false]
  cases doFree with
  | false => exact ⟨s.1, rfl, rfl, rfl⟩
  | true =>
    simp only [if_true, kfree_eq (hframe rfl), ok_bind]
    exact ⟨_, rfl, rfl, rfl⟩

theorem unmapPage_returns (h : unmapPage doFree s a = .ok s') :
    s.2.Mapped a ∧ s'.2 = s.2.set a none := by
  obtain ⟨slot, hwalk, h⟩ := bind_ok_iff.mp h
  have hslot := (walk_ok hwalk).2
  rcases slot with _ | _ | e
  · cases h
  · cases h
  · have hleaf := hslot _ rfl
    simp only at h
    refine ⟨by unfold Mapped; rw [← hleaf]; rfl, ?_⟩
    split_ifs at h
    · obtain ⟨m, -, h⟩ := bind_ok_iff.mp h
      cases h
      rfl
    · cases h
      rfl

/-- The loop of `uvmunmap` over mapped pages. -/
theorem unmapPages_mapped (hw : s.2.Wf) (has : ∀ a ∈ as, a % PGSIZE = 0 ∧ a < MAXVA)
    (hnodup : as.Nodup) (hmapped : ∀ a ∈ as, s.2.Mapped a)
    (hframe : doFree = true → ∀ q ∈ frames s.2 as, Freeable s.1.kend q) :
    ∃ s', Foundations.exec (unmapPage doFree) s as = .ok s' ∧ Cleared doFree as s s' := by
  induction as generalizing s with
  | nil => exact ⟨s, rfl, hw, rfl, rfl, rfl, fun v => by simp, by cases doFree <;> simp [frames]⟩
  | cons a as ih =>
    rw [List.forall_mem_cons] at has hmapped
    rw [List.nodup_cons] at hnodup
    obtain ⟨e, he⟩ := Option.isSome_iff_exists.mp hmapped.1
    have hfirst : frames s.2 (a :: as) = e.pa :: frames s.2 as := by
      simp [frames, he]
    obtain ⟨m, hrun, hkend, hfree⟩ := unmapPage_mapped hw has.1.2 he fun h =>
      hframe h e.pa (by rw [hfirst]; exact List.mem_cons_self)
    -- the other pages keep their entries
    have hother : ∀ b ∈ as, (s.2.set a none).leaf (vpn b) = s.2.leaf (vpn b) := by
      intro b hb
      have hne : vpn b ≠ vpn a := fun heq =>
        hnodup.1 (vpn_inj (has.2 b hb).1 has.1.1 heq ▸ hb)
      rw [set_leaf, Function.update_of_ne hne]
    have hframes : frames (s.2.set a none) as = frames s.2 as := by
      unfold frames
      apply List.flatMap_congr
      intro b hb
      rw [hother b hb]
    obtain ⟨s', hrest, C⟩ := @ih (m, s.2.set a none) (hw.clear a) has.2 hnodup.2
      (fun b hb => by
        unfold Mapped
        rw [hother b hb]
        exact hmapped.2 b hb)
      (fun h q hq => by
        rw [hkend]
        rw [hframes] at hq
        exact hframe h q (by rw [hfirst]; exact List.mem_cons_of_mem _ hq))
    refine ⟨s', ?_, C.wf, C.kend.trans hkend, C.mid, C.low, fun v => ?_, ?_⟩
    · rw [exec_cons, hrun]
      exact hrest
    · rw [C.leaf]
      exact clear_cons s.2 a as v
    · refine C.freelist.trans ?_
      rw [hframes, hfirst, hfree]
      cases doFree with
      | false => simp
      | true =>
        simp only [if_true, List.cons_append, List.nil_append]
        exact List.perm_middle

/-- A loop of `uvmunmap` that returns was over mapped pages. -/
theorem unmapPages_returns (h : Foundations.exec (unmapPage doFree) s as = .ok s') :
    (∀ a ∈ as, s.2.Mapped a) ∧ s'.2.mid = s.2.mid ∧ s'.2.low = s.2.low ∧
      ∀ v, s'.2.leaf v = if v ∈ as.map vpn then none else s.2.leaf v := by
  induction as generalizing s with
  | nil =>
    cases h
    simp
  | cons a as ih =>
    obtain ⟨s₁, hstep, h⟩ := bind_ok_iff.mp h
    obtain ⟨hmapped, htable⟩ := unmapPage_returns hstep
    obtain ⟨hrest, hmid, hlow, hleaf⟩ := ih h
    rw [htable] at hrest hmid hlow hleaf
    refine ⟨?_, hmid, hlow, fun v => ?_⟩
    · rw [List.forall_mem_cons]
      refine ⟨hmapped, fun b hb => ?_⟩
      have hb := hrest b hb
      unfold Mapped at *
      rw [set_leaf, Function.update_apply] at hb
      split_ifs at hb
      · cases hb
      · exact hb
    · rw [hleaf]
      exact clear_cons s.2 a as v

end Unmap

section Freewalk

variable {kend : ℕ} {pt : PageTable ℕ} {m m' : Memory}

/-- A loop whose body frees pages. -/
theorem exec_frees {f : Memory → ℕ → Except Panic Memory} {g : ℕ → List ℕ} {l : List ℕ}
    (h : ∀ x ∈ l, ∀ m : Memory, m.kend = kend → ∃ m', f m x = .ok m' ∧ m'.kend = kend ∧
      m'.freelist.Perm (g x ++ m.freelist)) (hm : m.kend = kend) :
    ∃ m', Foundations.exec f m l = .ok m' ∧ m'.kend = kend ∧
      m'.freelist.Perm (l.flatMap g ++ m.freelist) := by
  induction l generalizing m with
  | nil => exact ⟨m, rfl, hm, by simp⟩
  | cons x l ih =>
    rw [List.forall_mem_cons] at h
    obtain ⟨m₁, hstep, hkend, hfree⟩ := h.1 m hm
    obtain ⟨m', hrest, hkend', hfree'⟩ := ih h.2 hkend
    refine ⟨m', ?_, hkend', ?_⟩
    · rw [exec_cons, hstep]
      exact hrest
    · refine hfree'.trans ?_
      rw [List.flatMap_cons]
      calc (l.flatMap g ++ m₁.freelist).Perm (l.flatMap g ++ (g x ++ m.freelist)) :=
            hfree.append_left _
        _ = (l.flatMap g ++ g x ++ m.freelist) := by rw [List.append_assoc]
        _ |>.Perm (g x ++ l.flatMap g ++ m.freelist) := List.perm_append_comm.append_right _

theorem freewalkLow_empty (hleaf : ∀ v, pt.leaf v = none) {j : ℕ}
    (hfree : ∀ t, pt.low j = some t → Freeable kend t) (hm : m.kend = kend) :
    ∃ m', freewalkLow pt m j = .ok m' ∧ m'.kend = kend ∧
      m'.freelist.Perm ((pt.low j).toList ++ m.freelist) := by
  unfold freewalkLow
  cases hlow : pt.low j with
  | none => exact ⟨m, rfl, hm, List.Perm.refl _⟩
  | some t =>
    have hnone : ((List.range 512).any fun k => (pt.leaf (512 * j + k)).isSome) = false := by
      simp [hleaf]
    simp only [hnone, Bool.false_eq_true, if_false]
    rw [kfree_eq (hm ▸ hfree t hlow)]
    exact ⟨_, rfl, hm, List.Perm.refl _⟩

theorem freewalkMid_empty (hleaf : ∀ v, pt.leaf v = none) {i : ℕ}
    (hfree : ∀ t ∈ subtables pt i, Freeable kend t) (hm : m.kend = kend) :
    ∃ m', freewalkMid pt m i = .ok m' ∧ m'.kend = kend ∧
      m'.freelist.Perm (subtables pt i ++ m.freelist) := by
  unfold freewalkMid subtables at *
  cases hmid : pt.mid i with
  | none => exact ⟨m, rfl, hm, List.Perm.refl _⟩
  | some t =>
    simp only [hmid, List.forall_mem_cons] at hfree
    obtain ⟨m₁, hrun, hkend, hperm⟩ := @exec_frees kend m (freewalkLow pt)
      (fun j => (pt.low j).toList) ((List.range 512).map fun j => 512 * i + j)
      (fun j hj m hm => freewalkLow_empty hleaf
        (fun t ht => hfree.2 t (List.mem_flatMap.mpr ⟨j, hj, by rw [ht]; simp⟩)) hm) hm
    simp only [hrun, ok_bind]
    rw [kfree_eq (hkend ▸ hfree.1)]
    refine ⟨_, rfl, hkend, ?_⟩
    rw [List.cons_append]
    exact hperm.cons t

theorem freewalk_empty {pg : Pagetable} (hleaf : ∀ v, pg.table.leaf v = none)
    (hfree : ∀ t ∈ pg.root :: tables pg.table, Freeable kend t) (hm : m.kend = kend) :
    ∃ m', freewalk pg m = .ok m' ∧ m'.kend = kend ∧
      m'.freelist.Perm (pg.root :: tables pg.table ++ m.freelist) := by
  rw [List.forall_mem_cons] at hfree
  obtain ⟨m₁, hrun, hkend, hperm⟩ := @exec_frees kend m (freewalkMid pg.table)
    (subtables pg.table) (List.range 512)
    (fun i hi m hm => freewalkMid_empty hleaf
      (fun t ht => hfree.2 t (List.mem_flatMap.mpr ⟨i, hi, ht⟩)) hm) hm
  unfold freewalk
  rw [hrun, ok_bind, kfree_eq (hkend ▸ hfree.1)]
  exact ⟨_, rfl, hkend, hperm.cons _⟩

/-- `freewalk` panics at a leaf. -/
theorem freewalk_returns {pg : Pagetable} (hw : pg.table.Wf)
    (hbound : ∀ v, (pg.table.leaf v).isSome → v ≤ trapPage + 1) (h : freewalk pg m = .ok m') (v : ℕ) :
    pg.table.leaf v = none := by
  by_contra hne
  have hsome : (pg.table.leaf v).isSome := Option.isSome_iff_ne_none.mpr hne
  have hlow := hw.low_of_leaf v hsome
  have hmid := hw.mid_of_low _ hlow
  have hlt := hbound v hsome
  simp only [trapPage, TRAPFRAME, TRAMPOLINE, MAXVA, PGSIZE] at hlt
  obtain ⟨t, ht⟩ := Option.isSome_iff_exists.mp hlow
  obtain ⟨t', ht'⟩ := Option.isSome_iff_exists.mp hmid
  obtain ⟨m₁, hrun, -⟩ := bind_ok_iff.mp h
  refine exec_ne_ok _ (e := v / 512 / 512) (List.mem_range.mpr (by omega)) (fun m₂ m₃ hstep => ?_)
    _ _ hrun
  rw [freewalkMid, ht'] at hstep
  obtain ⟨m₄, hinner, -⟩ := bind_ok_iff.mp hstep
  refine exec_ne_ok _ (e := v / 512)
    (List.mem_map.mpr ⟨v / 512 % 512, List.mem_range.mpr (by omega), by omega⟩)
    (fun m₅ m₆ hleaf => ?_) _ _ hinner
  have hany : ((List.range 512).any fun k => (pg.table.leaf (512 * (v / 512) + k)).isSome) = true := by
    rw [List.any_eq_true]
    have hv : 512 * (v / 512) + v % 512 = v := by omega
    exact ⟨v % 512, List.mem_range.mpr (by omega), by rw [hv]; exact hsome⟩
  rw [freewalkLow, ht] at hleaf
  simp only [hany, if_true] at hleaf
  cases hleaf

end Freewalk

section Freepagetable

variable {pg : Pagetable} {sz : ℕ} {m m' : Memory}

theorem pgroundup64_eq (h : sz ≤ TRAPFRAME) : pgroundup64 sz = pgroundup sz := by
  have hmod : (sz + (PGSIZE - 1)) % 2 ^ 64 = sz + (PGSIZE - 1) := by
    apply Nat.mod_eq_of_lt
    simp only [TRAPFRAME, TRAMPOLINE, MAXVA, PGSIZE] at *
    omega
  rw [pgroundup64, hmod, pgroundup]

/-- A table that `proc_freepagetable` can be called with. -/
structure Disposable (kend : ℕ) (pg : Pagetable) (sz : ℕ) : Prop where
  wf : pg.table.Wf
  bounded : ∀ v, (pg.table.leaf v).isSome → v ≤ trapPage + 1
  freeable : ∀ q ∈ held pg sz, Freeable kend q
  sz_le : sz ≤ TRAPFRAME

theorem uvmunmap_page {va : ℕ} (ha : va % PGSIZE = 0) (s : Space) :
    uvmunmap va 1 false s = Foundations.exec (unmapPage false) s [va] := by
  unfold uvmunmap
  rw [if_neg (not_not.mpr ha), one_mul, pages_one]

theorem uvmfree_eq (hsz : sz ≤ TRAPFRAME) (table : PageTable ℕ) : uvmfree ⟨pg.root, table⟩ sz m =
    Foundations.exec (unmapPage true) (m, table) (pages 0 sz) >>= fun s =>
      freewalk ⟨pg.root, s.2⟩ s.1 := by
  unfold uvmfree
  by_cases hpos : 0 < sz
  · have hcount : pgroundup64 sz / PGSIZE * PGSIZE = pgroundup sz := by
      rw [pgroundup64_eq hsz]
      simp only [pgroundup, PGSIZE]
      omega
    simp only [if_pos hpos, uvmunmap, Nat.zero_mod, hcount, Nat.zero_add, pages_pgroundup]
    rfl
  · rw [if_neg hpos, pages_eq_nil (by omega)]
    rfl

theorem procFreepagetable_eq (hsz : sz ≤ TRAPFRAME) : procFreepagetable pg sz m =
    Foundations.exec (unmapPage false) (m, pg.table) [TRAMPOLINE, TRAPFRAME] >>= fun s =>
      Foundations.exec (unmapPage true) s (pages 0 sz) >>= fun s =>
        freewalk ⟨pg.root, s.2⟩ s.1 := by
  have happend : [TRAMPOLINE, TRAPFRAME] = [TRAMPOLINE] ++ [TRAPFRAME] := rfl
  unfold procFreepagetable
  rw [happend, exec_append, uvmunmap_page (by decide)]
  cases Foundations.exec (unmapPage false) (m, pg.table) [TRAMPOLINE] with
  | error e => rfl
  | ok s =>
    simp only [ok_bind]
    rw [uvmunmap_page (by decide)]
    cases Foundations.exec (unmapPage false) s [TRAPFRAME] with
    | error e => rfl
    | ok s =>
      simp only [ok_bind]
      exact uvmfree_eq hsz s.2

theorem mem_special {v : ℕ} :
    v ∈ [TRAMPOLINE, TRAPFRAME].map vpn ↔ v = trapPage ∨ v = trapPage + 1 := by
  have h : [TRAMPOLINE, TRAPFRAME].map vpn = [trapPage + 1, trapPage] := by decide
  rw [h]
  simp only [List.mem_cons, List.not_mem_nil, or_false]
  exact Or.comm

theorem mem_image {v : ℕ} : v ∈ (pages 0 sz).map vpn ↔ PGSIZE * v < sz := by
  simp only [List.mem_map, mem_pages, vpn, PGSIZE]
  constructor
  · rintro ⟨a, ha, rfl⟩
    omega
  · intro h
    exact ⟨4096 * v, by omega, by omega⟩

/-- `proc_freepagetable` of a table that fits frees the pages of the process. -/
theorem procFreepagetable_fits (h : Disposable m.kend pg sz) (hfits : Fits pg.table sz) :
    ∃ m', procFreepagetable pg sz m = .ok m' ∧ m'.kend = m.kend ∧
      m'.freelist.Perm (held pg sz ++ m.freelist) := by
  have hspecial : ∀ a ∈ [TRAMPOLINE, TRAPFRAME], a % PGSIZE = 0 ∧ a < MAXVA := by decide
  have himage : ∀ a ∈ pages 0 sz, a % PGSIZE = 0 ∧ a < TRAPFRAME := by
    intro a ha
    have := h.sz_le
    rw [mem_pages] at ha
    simp only [TRAPFRAME, TRAMPOLINE, MAXVA, PGSIZE] at *
    omega
  have hmem : ∀ a, a ∈ [TRAMPOLINE, TRAPFRAME] ∨ a ∈ pages 0 sz → pg.table.Mapped a := by
    intro a ha
    unfold Mapped
    rw [hfits]
    rcases ha with ha | ha
    · exact Or.inr (mem_special.mp (List.mem_map_of_mem ha))
    · exact Or.inl (mem_image.mp (List.mem_map_of_mem ha))
  obtain ⟨s₁, hrun₁, C₁⟩ := @unmapPages_mapped false (m, pg.table) _ h.wf hspecial (by decide)
    (fun a ha => hmem a (Or.inl ha)) (by simp)
  -- the pages of the image are none of the two that have been unmapped
  have hkept : ∀ a ∈ pages 0 sz, s₁.2.leaf (vpn a) = pg.table.leaf (vpn a) := by
    intro a ha
    rw [C₁.leaf, if_neg]
    rw [mem_special]
    have := himage a ha
    simp only [vpn, trapPage, TRAPFRAME, TRAMPOLINE, MAXVA, PGSIZE] at *
    omega
  have hframes : frames s₁.2 (pages 0 sz) = frames pg.table (pages 0 sz) := by
    unfold frames
    apply List.flatMap_congr
    intro a ha
    rw [hkept a ha]
  obtain ⟨s₂, hrun₂, C₂⟩ := @unmapPages_mapped true s₁ (pages 0 sz) C₁.wf
    (fun a ha => ⟨(himage a ha).1, (himage a ha).2.trans (by decide)⟩) (nodup_pages _ _)
    (fun a ha => by
      unfold Mapped
      rw [hkept a ha]
      exact hmem a (Or.inr ha))
    (fun _ q hq => by
      rw [C₁.kend]
      rw [hframes] at hq
      exact h.freeable q (List.mem_append_left _ hq))
  have htables : tables s₂.2 = tables pg.table := by
    unfold tables subtables
    rw [C₂.mid, C₂.low, C₁.mid, C₁.low]
  have hempty : ∀ v, s₂.2.leaf v = none := by
    intro v
    rw [C₂.leaf, C₁.leaf]
    split_ifs with h₁ h₂
    · rfl
    · rfl
    · rw [mem_image] at h₁
      rw [mem_special] at h₂
      rw [← Option.not_isSome_iff_eq_none, hfits]
      exact fun hv => hv.elim h₁ h₂
  obtain ⟨m', hrun₃, hkend, hperm⟩ := @freewalk_empty m.kend s₂.1 ⟨pg.root, s₂.2⟩ hempty
    (fun t ht => h.freeable t (List.mem_append_right _ (htables ▸ ht)))
    (C₂.kend.trans C₁.kend)
  refine ⟨m', ?_, hkend, ?_⟩
  · rw [procFreepagetable_eq h.sz_le, hrun₁, ok_bind, hrun₂, ok_bind]
    exact hrun₃
  · have hfree₁ := C₁.freelist
    have hfree₂ := C₂.freelist
    simp only [Bool.false_eq_true, if_false, List.nil_append, if_true, hframes] at hfree₁ hfree₂
    rw [htables] at hperm
    refine hperm.trans ?_
    refine ((hfree₂.trans (hfree₁.append_left _)).append_left _).trans ?_
    rw [← List.append_assoc]
    exact List.perm_append_comm.append_right _

/-- A call of `proc_freepagetable` that returns is for a table that fits. -/
theorem procFreepagetable_returns (hw : pg.table.Wf)
    (hbound : ∀ v, (pg.table.leaf v).isSome → v ≤ trapPage + 1) (hsz : sz ≤ TRAPFRAME)
    (h : procFreepagetable pg sz m = .ok m') : Fits pg.table sz := by
  rw [procFreepagetable_eq hsz] at h
  obtain ⟨s₁, hrun₁, h⟩ := bind_ok_iff.mp h
  obtain ⟨s₂, hrun₂, h⟩ := bind_ok_iff.mp h
  obtain ⟨hmapped₁, hmid₁, hlow₁, hleaf₁⟩ := unmapPages_returns hrun₁
  obtain ⟨hmapped₂, hmid₂, hlow₂, hleaf₂⟩ := unmapPages_returns hrun₂
  have hsub : ∀ v e, s₂.2.leaf v = some e → pg.table.leaf v = some e := by
    intro v e he
    rw [hleaf₂] at he
    split_ifs at he
    rw [hleaf₁] at he
    split_ifs at he
    exact he
  have hw₂ : s₂.2.Wf := by
    refine ⟨fun v hv => ?_, fun j hj => ?_, fun v e he => hw.leaf_grants v e (hsub v e he)⟩
    · obtain ⟨e, he⟩ := Option.isSome_iff_exists.mp hv
      rw [hlow₂, hlow₁]
      exact hw.low_of_leaf v (by rw [hsub v e he]; rfl)
    · rw [hlow₂, hlow₁] at hj
      rw [hmid₂, hmid₁]
      exact hw.mid_of_low j hj
  have hbound₂ : ∀ v, (s₂.2.leaf v).isSome → v ≤ trapPage + 1 := by
    intro v hv
    obtain ⟨e, he⟩ := Option.isSome_iff_exists.mp hv
    exact hbound v (by rw [hsub v e he]; rfl)
  intro v
  have hnone : s₂.2.leaf v = none := @freewalk_returns _ _ ⟨pg.root, s₂.2⟩ hw₂ hbound₂ h v
  constructor
  · intro hsome
    by_contra hout
    rw [not_or] at hout
    rw [hleaf₂, if_neg (fun hmem => hout.1 (mem_image.mp hmem)), hleaf₁,
      if_neg (fun hmem => hout.2 (mem_special.mp hmem))] at hnone
    have hleaf : pg.table.leaf v = none := hnone
    rw [hleaf] at hsome
    cases hsome
  · rintro (himage | hspecial)
    · obtain ⟨a, ha, rfl⟩ := List.mem_map.mp (mem_image.mpr himage)
      have hmapped := hmapped₂ a ha
      unfold Mapped at hmapped
      obtain ⟨e, he⟩ := Option.isSome_iff_exists.mp hmapped
      rw [hleaf₁] at he
      split_ifs at he
      exact Option.isSome_iff_exists.mpr ⟨e, he⟩
    · obtain ⟨a, ha, rfl⟩ := List.mem_map.mp (mem_special.mpr hspecial)
      exact hmapped₁ a ha

end Freepagetable

end AdvancedOperatingSystems.VmExec
