import AdvancedOperatingSystems.DemandPaging.Populate
import AdvancedOperatingSystems.DemandPaging.Access

/-!
# Mapping and unmapping one page, whatever the state

When the functions of `vm.c` return for a single page, and when they map it, in every
state of a well-formed table and an allocator whose pages can be freed.
-/

namespace AdvancedOperatingSystems.DemandPaging

open Foundations Riscv Riscv.PageTable

/-- The pages of the allocator are pages that `kfree` accepts. NULL is none of them. -/
def Memory.Sound (m : Memory) : Prop :=
  ∀ q ∈ m.freelist, q ≠ 0 ∧ q % PGSIZE = 0 ∧ m.kend ≤ q ∧ q < PHYSTOP

/-- `uvmalloc` of the page returns when there is no page left, or when the page can be mapped. -/
def AllocReturns (pt : PageTable ℕ) (va free : ℕ) : Prop :=
  free = 0 ∨ va < MAXVA ∧ ¬ pt.Mapped va

/-- `uvmalloc` of the page maps it. -/
def AllocMaps (pt : PageTable ℕ) (va free : ℕ) : Prop :=
  va < MAXVA ∧ ¬ pt.Mapped va ∧ 1 + missingTables pt va ≤ free

/-- `uvmunmap` of the page returns: there is a level-0 table for it. -/
def Unmappable (pt : PageTable ℕ) (va : ℕ) : Prop :=
  va % PGSIZE = 0 ∧ va < MAXVA ∧ (pt.mid (midIndex va)).isSome ∧ (pt.low (lowIndex va)).isSome

theorem AllocMaps.returns {pt : PageTable ℕ} {va free : ℕ} (h : AllocMaps pt va free) :
    AllocReturns pt va free := Or.inr ⟨h.1, h.2.1⟩

section Walk

variable {m m' : Memory} {pt : PageTable ℕ} {va : ℕ}

theorem tablePage_none {slot : Option ℕ} :
    tablePage slot m = none ↔ slot = none ∧ m.freelist = [] := by
  cases slot with
  | some t => simp [tablePage]
  | none => simp [tablePage, Memory.kalloc_none]

theorem tablePage_some {slot : Option ℕ} {t : ℕ} (h : tablePage slot m = some (t, m')) :
    m'.kend = m.kend ∧ ∃ taken, Takes taken m m' ∧
      taken.length = if slot.isNone then 1 else 0 := by
  cases slot with
  | some t' =>
    cases h
    exact ⟨rfl, [], Takes.refl m, rfl⟩
  | none =>
    obtain ⟨⟨r, m₁⟩, hk, h⟩ := Option.map_eq_some_iff.mp h
    cases h
    refine ⟨?_, _, (kalloc_takes_of_some hk).write (List.mem_singleton_self _) _, rfl⟩
    unfold Memory.kalloc at hk
    cases hl : m.freelist with
    | nil => simp [hl] at hk
    | cons s rest =>
      rw [hl] at hk
      cases hk
      rfl

/-- The walk finds a slot exactly when the tables it lacks can be allocated. -/
theorem walkAlloc_total (hw : pt.Wf) (hva : va < MAXVA) :
    ∃ found m' pt' taken, walkAlloc va (m, pt) = .ok (found, m', pt') ∧
      (found = true ↔ missingTables pt va ≤ m.freelist.length) ∧ m'.kend = m.kend ∧
      Takes taken m m' ∧ pt'.leaf = pt.leaf ∧ pt'.Wf ∧
      (found = true → (pt'.low (lowIndex va)).isSome) := by
  have hlow : pt.mid (midIndex va) = none → pt.low (lowIndex va) = none :=
    low_none_of_mid_none hw
  cases h₁ : tablePage (pt.mid (midIndex va)) m with
  | none =>
    obtain ⟨hmid, hnil⟩ := tablePage_none.mp h₁
    refine ⟨false, m, pt, [], ?_, ?_, rfl, Takes.refl m, rfl, hw, by simp⟩
    · simp only [walkAlloc, if_neg (Nat.not_le.mpr hva), h₁]
    · simp [missingTables, hmid, hnil]
  | some r =>
    obtain ⟨t, m₁⟩ := r
    obtain ⟨hkend₁, taken₁, htake₁, hlen₁⟩ := tablePage_some h₁
    have hlength := htake₁.length
    have hw₁ := wf_setMid hw (midIndex va) t
    cases h₂ : tablePage (pt.low (lowIndex va)) m₁ with
    | none =>
      obtain ⟨hnone, hnil⟩ := tablePage_none.mp h₂
      refine ⟨false, m₁, { pt with mid := Function.update pt.mid (midIndex va) (some t) },
        taken₁, ?_, ?_, hkend₁, htake₁, rfl, hw₁, by simp⟩
      · simp only [walkAlloc, if_neg (Nat.not_le.mpr hva), h₁, h₂]
      · simp only [missingTables, hnone, Option.isNone_none, ↓reduceIte, hlength, hlen₁, hnil,
          List.length_nil, Bool.false_eq_true, false_iff]
        omega
    | some r =>
      obtain ⟨t', m₂⟩ := r
      obtain ⟨hkend₂, taken₂, htake₂, hlen₂⟩ := tablePage_some h₂
      have hlength₂ := htake₂.length
      have hmid : (Function.update pt.mid (midIndex va) (some t) (lowIndex va / 512)).isSome := by
        simp [midIndex]
      refine ⟨true, m₂, { pt with mid := Function.update pt.mid (midIndex va) (some t)
                                  low := Function.update pt.low (lowIndex va) (some t') }, _,
        ?_, ?_, hkend₂.trans hkend₁, htake₁.trans htake₂, rfl, wf_setLow hw₁ t' hmid, by simp⟩
      · simp only [walkAlloc, if_neg (Nat.not_le.mpr hva), h₁, h₂]
      · simp only [missingTables, true_iff]
        omega

end Walk

section Alloc

variable {r : Running} {perm : Perm} {m : Memory} {pt : PageTable ℕ} {a : ℕ}

/-- The loop of `uvmalloc` for one page. -/
inductive LoopResult (perm : Perm) (a : ℕ) (m : Memory) (pt : PageTable ℕ) :
    Except Panic (Bool × Space) → Prop
  | panics (e : Panic) (h : ¬ AllocReturns pt a m.freelist.length) :
      LoopResult perm a m pt (.error e)
  | fails (m' : Memory) (pt' : PageTable ℕ) (h : AllocReturns pt a m.freelist.length)
      (h' : ¬ AllocMaps pt a m.freelist.length) (leaf : pt'.leaf = pt.leaf) (wf : pt'.Wf) :
      LoopResult perm a m pt (.ok (false, m', pt'))
  | maps (pa : ℕ) (taken : List ℕ) (m' : Memory) (pt' : PageTable ℕ)
      (h : AllocMaps pt a m.freelist.length) (takes : Takes (pa :: taken) m m')
      (kend : m'.kend = m.kend) (zero : m.freelist.Nodup → m'.page pa = fun _ => 0)
      (leaf : pt'.leaf = Function.update pt.leaf (vpn a) (some (perm.pte pa))) (wf : pt'.Wf) :
      LoopResult perm a m pt (.ok (true, m', pt'))

theorem uvmallocLoop_one (hw : pt.Wf) (hm : m.Sound) :
    LoopResult perm a m pt (uvmallocLoop r perm a [a] (m, pt)) := by
  have hdealloc : ∀ s : Space, uvmdealloc r a a s = .ok (a, s) := by
    intro s
    simp [uvmdealloc]
    rfl
  cases hfree : m.freelist with
  | nil =>
    have hk : m.kalloc = none := Memory.kalloc_none.mpr hfree
    have hrun : uvmallocLoop r perm a [a] (m, pt) = .ok (false, m, pt) := by
      simp only [uvmallocLoop, hk, hdealloc, ok_bind]
      rfl
    rw [hrun]
    refine .fails m pt (Or.inl (by simp [hfree])) (fun h => ?_) rfl hw
    have := h.2.2
    simp [hfree] at this
  | cons mem rest =>
    have hk := Memory.kalloc_cons hfree
    generalize hm₁ : (({ m with freelist := rest } : Memory).memset mem 5) = m₁ at hk
    have hrest : m₁.freelist = rest := by rw [← hm₁]; rfl
    have hkend : m₁.kend = m.kend := by rw [← hm₁]; rfl
    have hlen : m.freelist.length = rest.length + 1 := by rw [hfree]; rfl
    have hrun : uvmallocLoop r perm a [a] (m, pt) =
        mappages a (perm.pte mem) (m₁.memset mem 0, pt) >>= fun x =>
          if x.1 then .ok (true, x.2)
          else x.2.1.kfree mem >>= fun m₂ => uvmdealloc r a a (m₂, x.2.2) >>= fun y =>
            .ok (false, y.2) := by
      simp only [uvmallocLoop, hk]
      rfl
    rw [hrun]
    by_cases hva : a < MAXVA
    · by_cases hmap : pt.Mapped a
      · rw [mappages_mapped hw hva hmap]
        refine .panics _ fun h => ?_
        rcases h with h | h
        · omega
        · exact h.2 hmap
      · have hun : pt.leaf (vpn a) = none := Option.not_isSome_iff_eq_none.mp hmap
        obtain ⟨found, m', pt', taken, hwalk, hfound, hkend', htake, hleaf, hwf, hlow⟩ :=
          walkAlloc_total (m := m₁.memset mem 0) hw hva
        have htake₁ : Takes [mem] m (m₁.memset mem 0) :=
          (kalloc_takes_of_some hk).write (List.mem_singleton_self _) _
        have hcount : (m₁.memset mem 0).freelist.length = rest.length := by
          rw [Memory.memset_freelist, hrest]
        rw [hcount] at hfound
        have hmp : mappages a (perm.pte mem) (m₁.memset mem 0, pt) =
            if found = true then .ok (true, m', pt'.set a (some (perm.pte mem)))
            else .ok (false, m', pt') := by
          unfold mappages
          rw [hwalk, ok_bind]
          cases found with
          | false => rfl
          | true =>
            simp only [Bool.not_true, Bool.false_eq_true, ↓reduceIte, hleaf, hun]
            rfl
        rw [hmp]
        cases found with
        | true =>
          have hle := hfound.mp rfl
          simp only [↓reduceIte, ok_bind]
          refine .maps mem taken m' _ ⟨hva, hmap, by omega⟩ (htake₁.trans htake)
            (hkend'.trans hkend) (fun hnodup => ?_) ?_
            (wf_setLeaf hwf (hlow rfl) (onlyValid_pte perm mem))
          · have hnot : mem ∉ taken := by
              intro htaken
              rw [hfree, List.nodup_cons] at hnodup
              refine hnodup.1 ?_
              have hmem : mem ∈ (m₁.memset mem 0).freelist := by
                rw [htake.freelist]
                exact List.mem_append_left _ htaken
              rwa [Memory.memset_freelist, hrest] at hmem
            rw [htake.page mem hnot, Memory.memset_page, Function.update_self]
          · rw [set_leaf, hleaf]
        | false =>
          have hsound := hm mem (by rw [hfree]; exact List.mem_cons_self)
          have hk' : m'.kfree mem = .ok { m'.memset mem 1 with freelist := mem :: m'.freelist } := by
            unfold Memory.kfree
            rw [hkend', Memory.memset_kend, hkend, if_neg (by omega)]
          simp only [Bool.false_eq_true, ↓reduceIte, ok_bind, hk', hdealloc]
          refine .fails _ pt' (Or.inr ⟨hva, hmap⟩) (fun h => ?_) hleaf hwf
          have hle := h.2.2
          simp only [Bool.false_eq_true, false_iff] at hfound
          omega
    · have herr : mappages a (perm.pte mem) (m₁.memset mem 0, pt) = .error "walk" := by
        simp [mappages, walkAlloc, Nat.not_lt.mp hva, bind, Except.bind]
      rw [herr]
      refine .panics _ fun h => ?_
      rcases h with h | h
      · omega
      · exact hva h.1

theorem uvmalloc_next {b : ℕ} (h : b + PGSIZE < 2 ^ 64) (s : Space) :
    uvmalloc r b ((b + PGSIZE) % 2 ^ 64) perm s =
      uvmallocLoop r perm (pgroundup b) [pgroundup b] s >>= fun x =>
        .ok (if x.1 then b + PGSIZE else 0, x.2) := by
  have hmod : (b + PGSIZE) % 2 ^ 64 = b + PGSIZE := Nat.mod_eq_of_lt h
  have hround : pgroundup64 b = pgroundup b := by
    simp only [pgroundup64, pgroundup, PGSIZE] at *
    omega
  have hone : pages (pgroundup b) (b + PGSIZE) = [pgroundup b] := by
    rw [pages_cons, pages_eq_nil]
    · simp only [pgroundup, PGSIZE]
      omega
    · simp only [pgroundup, PGSIZE]
      omega
  unfold uvmalloc
  rw [hmod, if_neg (by omega), hround]
  simp only [hone]
  rfl

theorem uvmalloc_wraps {b : ℕ} (h : 2 ^ 64 ≤ b + PGSIZE) (hb : b < 2 ^ 64) (s : Space) :
    uvmalloc r b ((b + PGSIZE) % 2 ^ 64) perm s = .ok (b, s) := by
  unfold uvmalloc
  rw [if_pos (by simp only [PGSIZE] at *; omega)]
  rfl

/-- When `uvmalloc` returns for the page after the given size, and what it has done. -/
theorem uvmalloc_next_spec (hw : pt.Wf) (hm : m.Sound) {b : ℕ} (hb : b + PGSIZE < 2 ^ 64) :
    (Returns (uvmalloc r b ((b + PGSIZE) % 2 ^ 64) perm (m, pt)) ↔
      AllocReturns pt (pgroundup b) m.freelist.length) ∧
    ∀ sz m' pt', uvmalloc r b ((b + PGSIZE) % 2 ^ 64) perm (m, pt) = .ok (sz, m', pt') →
      pt'.Wf ∧
      (AllocMaps pt (pgroundup b) m.freelist.length ∧ sz = b + PGSIZE ∧
          (∃ pa taken, Takes (pa :: taken) m m' ∧ m'.kend = m.kend ∧
            (m.freelist.Nodup → m'.page pa = fun _ => 0) ∧
            pt'.leaf = Function.update pt.leaf (vpn (pgroundup b)) (some (perm.pte pa))) ∨
        ¬ AllocMaps pt (pgroundup b) m.freelist.length ∧ sz = 0 ∧ pt'.leaf = pt.leaf) := by
  rw [uvmalloc_next hb]
  have hloop := @uvmallocLoop_one r perm m pt (pgroundup b) hw hm
  generalize uvmallocLoop r perm (pgroundup b) [pgroundup b] (m, pt) = result at hloop
  cases hloop with
  | panics e h =>
    refine ⟨⟨fun hret => ?_, fun hret => absurd hret h⟩, fun _ _ _ hok => ?_⟩
    · exact absurd hret (not_returns_error _)
    · cases hok
  | fails m₁ pt₁ h h' leaf wf =>
    refine ⟨⟨fun _ => h, fun _ => ⟨_, rfl⟩⟩, fun sz m' pt' hok => ?_⟩
    cases hok
    exact ⟨wf, Or.inr ⟨h', rfl, leaf⟩⟩
  | maps pa taken m₁ pt₁ h takes kend zero leaf wf =>
    refine ⟨⟨fun _ => h.returns, fun _ => ⟨_, rfl⟩⟩, fun sz m' pt' hok => ?_⟩
    cases hok
    exact ⟨wf, Or.inl ⟨h, rfl, pa, taken, takes, kend, zero, leaf⟩⟩

end Alloc

section Unmap

variable {r : Running} {m : Memory} {pt : PageTable ℕ} {va : ℕ}

/-- Unmapping a page without freeing it, mapped or not. -/
theorem uvmunmap_unmappable (hw : pt.Wf) (h : Unmappable pt va) :
    uvmunmap r va 1 false (m, pt) = .ok (m, pt.set va none) := by
  obtain ⟨ha, hva, hmid, hlow⟩ := h
  have hwalk : pt.walk va = .ok (some (pt.leaf (vpn va))) := by
    have h₁ : (pt.mid (midIndex va)).isNone = false := Option.isNone_eq_false_iff.mpr hmid
    have h₂ : (pt.low (lowIndex va)).isNone = false := Option.isNone_eq_false_iff.mpr hlow
    simp [walk, Nat.not_le.mpr hva, h₁, h₂]
  rw [uvmunmap_one ha]
  unfold unmapPage
  rw [hwalk]
  cases hleaf : pt.leaf (vpn va) with
  | none =>
    have hset : pt.set va none = pt := by
      unfold PageTable.set
      rw [← hleaf, Function.update_eq_self]
    rw [hset]
    rfl
  | some e =>
    simp [hw.leaf_grants _ e hleaf, bind, Except.bind]
    rfl

theorem uvmunmap_returns_iff (hw : pt.Wf) :
    Returns (uvmunmap r va 1 false (m, pt)) ↔ Unmappable pt va := by
  constructor
  · rintro ⟨s, h⟩
    by_cases ha : va % PGSIZE = 0
    · rw [uvmunmap_one ha] at h
      obtain ⟨slot, hwalk, h⟩ := bind_ok_iff.mp h
      unfold walk at hwalk
      split_ifs at hwalk with h₁ h₂ h₃
      · cases hwalk
        cases h
      · cases hwalk
        cases h
      · refine ⟨ha, Nat.lt_of_not_le h₁, ?_, ?_⟩
        · simpa [Option.isSome_iff_ne_none] using h₂
        · simpa [Option.isSome_iff_ne_none] using h₃
    · rw [uvmunmap, if_pos ha] at h
      cases h
  · intro h
    exact ⟨_, uvmunmap_unmappable hw h⟩

end Unmap

end AdvancedOperatingSystems.DemandPaging
