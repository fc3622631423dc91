import AdvancedOperatingSystems.VmExec.Building

/-!
# The new image

`exec` builds the new image or runs out of pages, and never panics before it commits. Whether it
gets to the end depends on the file, on the arguments and on the number of free pages.
-/

namespace AdvancedOperatingSystems.VmExec

open Foundations Riscv Riscv.PageTable DemandPaging

def Special (v : ℕ) : Prop := v = trapPage ∨ v = trapPage + 1

def npages (sz : ℕ) : ℕ := (sz + (PGSIZE - 1)) / PGSIZE

/-- The pages of a new table: the root page, and the tables for the trapframe and the
trampoline. -/
abbrev emptyCost : ℕ := 3

/-- An image of `n` pages over the table `pt₀` of a process without memory. -/
structure Image (kend : ℕ) (A : ℕ → Prop) (N : ℕ) (pt₀ : PageTable ℕ) (n : ℕ) (s : Space) :
    Prop where
  owned : Owned kend A (fun v => Special v ∨ Block 0 n v) s
  grown : Grown N 0 n pt₀ s

section Alloc

variable {kend N n : ℕ} {A S : ℕ → Prop} {pt₀ : PageTable ℕ} {s : Space} {perm : Perm}
  {sz newsz : ℕ}

theorem pages_block (b k stop : ℕ) : pages (PGSIZE * (b + k)) stop =
    (List.range' k ((stop - PGSIZE * (b + k) + (PGSIZE - 1)) / PGSIZE)).map fun i =>
      PGSIZE * (b + i) := by
  rw [pages, List.range'_eq_map_range, List.map_map]
  apply List.map_congr_left
  intro j _
  simp only [Function.comp_apply]
  ring

theorem special_le {v : ℕ} (h : Special v) : trapPage ≤ v := by
  rcases h with rfl | rfl
  · exact le_rfl
  · exact Nat.le_succ _

theorem special_div {v : ℕ} (h : Special v) : v / 262144 = 255 := by
  unfold Special at h
  simp only [trapPage, TRAPFRAME, TRAMPOLINE, MAXVA, PGSIZE] at h
  omega

/-- `uvmalloc` for an image gets to the new size or leaves the image as it was. -/
theorem uvmalloc_image (h : Image kend A N pt₀ (npages sz) s) (hv : Vacant 0 pt₀)
    (hN : N < 262144) (hA : ∀ q, A q → Freeable kend q) :
    if newsz < sz then uvmalloc sz newsz perm s = .ok (sz, s)
    else if cost (npages newsz) ≤ N then
      ∃ s', uvmalloc sz newsz perm s = .ok (newsz, s') ∧ Image kend A N pt₀ (npages newsz) s'
    else ∃ s', uvmalloc sz newsz perm s = .ok (0, s') ∧
      Owned kend A (fun v => Special v ∨ Block 0 (npages sz) v) s' := by
  unfold uvmalloc
  by_cases hlt : newsz < sz
  · rw [if_pos hlt, if_pos hlt]
    rfl
  · rw [if_neg hlt, if_neg hlt]
    have hcount := h.grown.count
    have hle := le_cost (npages sz)
    have hround : pgroundup64 sz = PGSIZE * (262144 * 0 + npages sz) := by
      unfold pgroundup64 npages at *
      simp only [PGSIZE] at *
      omega
    have hsum : npages sz + (newsz - PGSIZE * (262144 * 0 + npages sz) + (PGSIZE - 1)) / PGSIZE =
        npages newsz := by
      unfold npages
      simp only [PGSIZE]
      omega
    have hspec := @uvmallocLoop_spec pt₀ kend N 0 (npages sz) A Special perm s (npages sz)
      ((newsz - PGSIZE * (262144 * 0 + npages sz) + (PGSIZE - 1)) / PGSIZE) h.owned h.grown hv hN
      (by omega) le_rfl (fun v hzero hspecial => by
        rw [special_div hspecial] at hzero
        omega) hA
    rw [hsum, ← pages_block] at hspec
    rw [hround]
    by_cases hfed : cost (npages newsz) ≤ N
    · rw [if_pos hfed] at hspec ⊢
      obtain ⟨s', hrun, hO, hG⟩ := hspec
      simp only [hrun, ok_bind]
      exact ⟨s', rfl, hO, hG⟩
    · rw [if_neg hfed] at hspec ⊢
      obtain ⟨s', hrun, hO⟩ := hspec
      simp only [hrun, ok_bind]
      exact ⟨s', rfl, hO⟩

end Alloc

section Create

variable {m : Memory} {kend : ℕ} {A : ℕ → Prop} {trapframe : ℕ}

structure Bare (pt : PageTable ℕ) : Prop where
  mid : ∀ i, (pt.mid i).isSome ↔ i = 255
  low : ∀ j, (pt.low j).isSome ↔ j = 131071
  leaf : ∀ v, (pt.leaf v).isSome ↔ Special v
  special : ∀ v e, pt.leaf v = some e → e.u = false

theorem Bare.vacant {pt : PageTable ℕ} (h : Bare pt) {c : ℕ} (hc : c < 255) : Vacant c pt := by
  refine ⟨?_, fun j hj => ?_, fun v hv => ?_⟩
  · rw [← Option.not_isSome_iff_eq_none, h.mid]
    omega
  · rw [← Option.not_isSome_iff_eq_none, h.low]
    omega
  · rw [← Option.not_isSome_iff_eq_none, h.leaf]
    intro hspecial
    rw [special_div hspecial] at hv
    omega

theorem uvmfree_empty {S : ℕ → Prop} {pt : PageTable ℕ} {root : ℕ}
    (h : Owned kend A S (m, pt)) (hleaf : ∀ v, pt.leaf v = none) (hroot : A root)
    (hA : ∀ q, A q → Freeable kend q) :
    ∃ m', uvmfree ⟨root, pt⟩ 0 m = .ok m' ∧ ∀ q ∈ m'.freelist, A q := by
  have htables : ∀ t ∈ root :: tables pt, A t := by
    rw [List.forall_mem_cons]
    refine ⟨hroot, fun t ht => ?_⟩
    rcases mem_tables ht with ⟨i, hi⟩ | ⟨j, hj⟩
    · exact h.mid i t hi
    · exact h.low j t hj
  obtain ⟨m', hrun, -, hperm⟩ := @freewalk_empty kend m ⟨root, pt⟩ hleaf
    (fun t ht => hA t (htables t ht)) h.kend
  refine ⟨m', ?_, fun q hq => ?_⟩
  · rw [@uvmfree_eq ⟨root, pt⟩ 0 m (Nat.zero_le _), pages_eq_nil le_rfl, exec_nil, ok_bind]
    exact hrun
  rcases List.mem_append.mp (hperm.mem_iff.mp hq) with hmem | hmem
  · exact htables q hmem
  · exact h.free q hmem

/-- The table with its two special pages. -/
def bareTable (t t' trampoline trapframe : ℕ) : PageTable ℕ where
  mid i := if i = 255 then some t else none
  low j := if j = 131071 then some t' else none
  leaf v :=
    if v = trapPage then some ⟨trapframe, true, true, false, false⟩
    else if v = trapPage + 1 then some ⟨trampoline, true, false, true, false⟩
    else none

theorem bareTable_bare (t t' trampoline trapframe : ℕ) :
    Bare (bareTable t t' trampoline trapframe) := by
  refine ⟨fun i => ?_, fun j => ?_, fun v => ?_, fun v e he => ?_⟩
  · simp only [bareTable]
    split_ifs with h <;> simp [h]
  · simp only [bareTable]
    split_ifs with h <;> simp [h]
  · unfold Special
    simp only [bareTable]
    split_ifs with h₁ h₂
    · simp [h₁]
    · simp [h₂]
    · simp [h₁, h₂]
  · simp only [bareTable] at he
    split_ifs at he <;>
      · cases he
        rfl

theorem bareTable_wf (t t' trampoline trapframe : ℕ) :
    (bareTable t t' trampoline trapframe).Wf := by
  have h := bareTable_bare t t' trampoline trapframe
  refine ⟨fun v hv => ?_, fun j hj => ?_, fun v e he => ?_⟩
  · have hspecial := (h.leaf v).mp hv
    unfold Special at hspecial
    rw [h.low]
    simp only [trapPage, TRAPFRAME, TRAMPOLINE, MAXVA, PGSIZE] at hspecial
    omega
  · rw [h.low] at hj
    rw [h.mid]
    omega
  · simp only [bareTable] at he
    split_ifs at he <;>
      · cases he
        rfl

theorem bareTable_holds {t t' trampoline trapframe q : ℕ}
    (h : Holds (bareTable t t' trampoline trapframe) q) :
    q = t ∨ q = t' ∨ q = trampoline ∨ q = trapframe := by
  rcases h with ⟨i, hi⟩ | ⟨j, hj⟩ | ⟨v, e, he, rfl⟩
  · simp only [bareTable] at hi
    split_ifs at hi
    cases hi
    exact Or.inl rfl
  · simp only [bareTable] at hj
    split_ifs at hj
    cases hj
    exact Or.inr (Or.inl rfl)
  · simp only [bareTable] at he
    split_ifs at he <;> cases he
    · exact Or.inr (Or.inr (Or.inr rfl))
    · exact Or.inr (Or.inr (Or.inl rfl))

/-- The two calls of `mappages` of `proc_pagetable`, on a new table. -/
theorem mapSpecial (m : Memory) (trampoline trapframe : ℕ) :
    (∃ t t' taken m', Takes taken m m' ∧ m'.kend = m.kend ∧ taken.length = 2 ∧ t ∈ taken ∧
        t' ∈ taken ∧ ∃ pt m₁,
      mappages TRAMPOLINE ⟨trampoline, true, false, true, false⟩ (m, empty) =
        .ok (true, m₁, pt) ∧
      mappages TRAPFRAME ⟨trapframe, true, true, false, false⟩ (m₁, pt) =
        .ok (true, m', bareTable t t' trampoline trapframe)) ∨
    m.freelist.length < 2 ∧ ∃ taken m' pt, Takes taken m m' ∧ m'.kend = m.kend ∧
      mappages TRAMPOLINE ⟨trampoline, true, false, true, false⟩ (m, empty) = .ok (false, m', pt) ∧
      (pt = empty ∨ ∃ t, t ∈ taken ∧
        pt = { (empty : PageTable ℕ) with mid := Function.update empty.mid 255 (some t) }) := by
  have hindex : midIndex TRAMPOLINE = 255 ∧ lowIndex TRAMPOLINE = 131071 ∧
      vpn TRAMPOLINE = trapPage + 1 ∧ midIndex TRAPFRAME = 255 ∧ lowIndex TRAPFRAME = 131071 ∧
      vpn TRAPFRAME = trapPage := by decide
  obtain ⟨hi₁, hj₁, hv₁, hi₂, hj₂, hv₂⟩ := hindex
  have hmissing : missingTables empty TRAMPOLINE = 2 := by decide
  obtain ⟨taken, m₁, htake, hkend, hcases⟩ := @mappages_cases m empty TRAMPOLINE
    ⟨trampoline, true, false, true, false⟩ (by decide) rfl
  rw [hmissing, hi₁, hj₁, hv₁] at hcases
  rcases hcases with ⟨hlen, t, t', hrun, ht, ht'⟩ | ⟨hlen, pt', hrun, hpt⟩
  · left
    have ht := ht.resolve_left (by simp [empty])
    have ht' := ht'.resolve_left (by simp [empty])
    -- the tables are there for the second page
    obtain ⟨taken₂, m₂, htake₂, hkend₂, hcases⟩ := @mappages_cases m₁
      { mid := Function.update (empty : PageTable ℕ).mid 255 (some t)
        low := Function.update (empty : PageTable ℕ).low 131071 (some t')
        leaf := Function.update (empty : PageTable ℕ).leaf (trapPage + 1)
          (some ⟨trampoline, true, false, true, false⟩) } TRAPFRAME
      ⟨trapframe, true, true, false, false⟩ (by decide) (by simp [hv₂, empty])
    rw [missingTables, hi₂, hj₂, hv₂] at hcases
    simp only [Function.update_self, Option.isNone_some, Bool.false_eq_true, if_false,
      Nat.add_zero] at hcases
    rcases hcases with ⟨hlen₂, t₂, t₂', hrun₂, ht₂, ht₂'⟩ | ⟨hlen₂, -⟩
    · have hnil : taken₂ = [] := List.length_eq_zero_iff.mp hlen₂
      subst hnil
      simp only [List.not_mem_nil, or_false, Option.some.injEq] at ht₂ ht₂'
      subst ht₂ ht₂'
      refine ⟨t, t', taken, m₂, ?_, hkend₂.trans hkend, hlen, ht, ht', _, m₁, hrun, ?_⟩
      · have := htake.trans htake₂
        rwa [List.append_nil] at this
      · rw [hrun₂]
        congr 3
        refine congr (congr (congrArg PageTable.mk ?_) ?_) ?_
        · funext i
          simp only [Function.update_apply, empty]
          split_ifs <;> rfl
        · funext j
          simp only [Function.update_apply, empty]
          split_ifs <;> rfl
        · funext v
          simp only [Function.update_apply, empty]
    · omega
  · refine Or.inr ⟨hlen, taken, m₁, pt', htake, hkend, hrun, ?_⟩
    refine hpt.imp_right ?_
    rintro ⟨t, ht, hpt'⟩
    exact ⟨t, ht.resolve_left (by simp [empty]), hpt'⟩

/-- `proc_pagetable` makes a bare table of three pages, or gives back what it has taken. -/
theorem procPagetable_spec (hkend : m.kend = kend) (hn : m.freelist.Nodup)
    (hA : ∀ q ∈ m.freelist, Freeable kend q) (htramp : m.trampoline ∉ m.freelist)
    (htrap : trapframe ∉ m.freelist) :
    if emptyCost ≤ m.freelist.length then
      ∃ pg m', procPagetable trapframe m = .ok (some pg, m') ∧ pg.root ∈ m.freelist ∧
        Bare pg.table ∧
        Image kend (fun q => q ∈ m.freelist ∧ q ≠ pg.root) (m.freelist.length - emptyCost)
          pg.table 0 (m', pg.table) ∧
        ∀ q, Holds pg.table q → q ∈ m.freelist ∨ q = m.trampoline ∨ q = trapframe
    else ∃ m', procPagetable trapframe m = .ok (none, m') ∧ ∀ q ∈ m'.freelist, q ∈ m.freelist := by
  cases hlist : m.freelist with
  | nil =>
    rw [if_neg (by simp)]
    refine ⟨m, ?_, fun q hq => hlist ▸ hq⟩
    unfold procPagetable uvmcreate
    rw [Memory.kalloc_none.mpr hlist]
    rfl
  | cons root rest =>
    rw [← hlist]
    obtain ⟨m₀, hk⟩ : ∃ m₀, m.kalloc = some (root, m₀) := ⟨_, Memory.kalloc_cons hlist⟩
    have hframe₀ : m₀.kend = m.kend ∧ (m₀.memset root 0).trampoline = m.trampoline := by
      rw [Memory.kalloc_cons hlist] at hk
      cases hk
      exact ⟨rfl, rfl⟩
    have htake₀ : Takes [root] m (m₀.memset root 0) :=
      (kalloc_takes_of_some hk).write (List.mem_singleton_self root) _
    have hroot : root ∈ m.freelist := by simp [hlist]
    have hcreate : uvmcreate m = some (⟨root, empty⟩, m₀.memset root 0) := by
      unfold uvmcreate
      rw [hk]
      rfl
    have hlength₀ := htake₀.length
    rw [List.length_singleton] at hlength₀
    have hsub : ∀ q ∈ (m₀.memset root 0).freelist, q ∈ m.freelist ∧ q ≠ root := by
      intro q hq
      refine ⟨Takes.sub htake₀ hq, ?_⟩
      rintro rfl
      exact Takes.not_free htake₀ hn (List.mem_singleton_self q) hq
    have hempty : Owned kend (fun q => q ∈ m.freelist ∧ q ≠ root) (fun _ => False)
        (m₀.memset root 0, empty) :=
      ⟨wf_empty, hframe₀.1.trans hkend, hsub, by simp [empty], by simp [empty], by simp [empty],
        by simp [empty]⟩
    unfold procPagetable
    rw [hcreate]
    simp only [hframe₀.2]
    rcases mapSpecial (m₀.memset root 0) m.trampoline trapframe with
      ⟨t, t', taken, m', htake, hkend', hlen, ht, ht', pt, m₁, hrun₁, hrun₂⟩ |
      ⟨hshort, taken, m', pt, htake, hkend', hrun, hpt⟩
    · have hlength := htake.length
      have hmem : ∀ q ∈ taken, q ∈ m.freelist ∧ q ≠ root := fun q hq => hsub q (Takes.mem htake hq)
      have hn₀ : (m₀.memset root 0).freelist.Nodup := by
        have hall := hn
        rw [htake₀.freelist] at hall
        exact hall.of_append_right
      have hbare := bareTable_bare t t' m.trampoline trapframe
      rw [if_pos (show 3 ≤ _ by omega)]
      simp only [hrun₁, ok_bind, Bool.not_true, Bool.false_eq_true, if_false, hrun₂]
      refine ⟨⟨root, bareTable t t' m.trampoline trapframe⟩, m', rfl, hroot, hbare, ⟨?_, ?_⟩,
        fun q hq => ?_⟩
      · refine ⟨bareTable_wf _ _ _ _, hkend'.trans (hframe₀.1.trans hkend),
          fun q hq => hsub q (Takes.sub htake hq), fun i t₁ hi => ?_, fun j t₁ hj => ?_,
          fun v => ?_, fun v e hv he => ?_⟩
        · simp only [bareTable] at hi
          split_ifs at hi
          cases hi
          exact hmem t ht
        · simp only [bareTable] at hj
          split_ifs at hj
          cases hj
          exact hmem t' ht'
        · rw [hbare.leaf]
          have hnone : ¬ Block 0 0 v := by
            unfold Block
            omega
          simp [hnone]
        · have hspecial := (hbare.leaf v).mp (by rw [he]; rfl)
          exact absurd (special_le hspecial) (Nat.not_le.mpr hv)
      · refine ⟨?_, fun q hq hmem' => ?_, ?_, by simp, fun j => ?_, fun v e hb _ => ?_,
          fun _ _ => rfl⟩
        · have hall := hn₀
          rw [htake.freelist] at hall
          exact hall.of_append_right
        · have hfree := Takes.sub htake₀ (Takes.sub htake hmem')
          rcases bareTable_holds hq with rfl | rfl | rfl | rfl
          · exact Takes.not_free htake hn₀ ht hmem'
          · exact Takes.not_free htake hn₀ ht' hmem'
          · exact htramp hfree
          · exact htrap hfree
        · show m'.freelist.length + 0 = m.freelist.length - 3
          omega
        · constructor
          · exact Or.inl
          · rintro (h | h)
            · exact h
            · omega
        · unfold Block at hb
          omega
      · rcases bareTable_holds hq with rfl | rfl | h | h
        · exact Or.inl (hmem q ht).1
        · exact Or.inl (hmem q ht').1
        · exact Or.inr (Or.inl h)
        · exact Or.inr (Or.inr h)
    · rw [if_neg (show ¬ 3 ≤ _ by omega)]
      have htable : Owned kend (fun q => q ∈ m.freelist) (fun _ => False) (m', pt) ∧
          ∀ v, pt.leaf v = none := by
        have hwhole : Owned kend (fun q => q ∈ m.freelist) (fun _ => False) (m', empty) :=
          ⟨wf_empty, hkend'.trans (hframe₀.1.trans hkend),
            fun q hq => (hsub q (Takes.sub htake hq)).1, by simp [empty], by simp [empty],
            by simp [empty], by simp [empty]⟩
        rcases hpt with rfl | ⟨t, ht, rfl⟩
        · exact ⟨hwhole, fun _ => rfl⟩
        · exact ⟨hwhole.setMid (hsub t (Takes.mem htake ht)).1 255, fun _ => rfl⟩
      obtain ⟨m'', hfreed, hin⟩ := uvmfree_empty htable.1 htable.2 hroot hA
      refine ⟨m'', ?_, hin⟩
      simp only [hrun, ok_bind, Bool.not_false, if_true, hfreed]
      rfl

end Create

end AdvancedOperatingSystems.VmExec
