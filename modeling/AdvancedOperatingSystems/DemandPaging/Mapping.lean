import AdvancedOperatingSystems.DemandPaging.Vm

/-!
# Mapping and unmapping one page

What the functions on page tables do to a well-formed table when they are asked
for a single page and the allocator does not run out. `Takes` says which pages a
piece of code has taken off the free list; all other pages keep their contents.
-/

namespace AdvancedOperatingSystems.DemandPaging

open Foundations Riscv Riscv.PageTable

/-- The pages `taken` have left the free list, in this order, and nothing else of
memory has changed but their contents. -/
structure Takes (taken : List ℕ) (m m' : Memory) : Prop where
  freelist : m.freelist = taken ++ m'.freelist
  page : ∀ q, q ∉ taken → m'.page q = m.page q
  released : m'.released = m.released

namespace Takes

variable {taken more : List ℕ} {m m' m'' : Memory}

theorem refl (m : Memory) : Takes [] m m := ⟨rfl, fun _ _ => rfl, rfl⟩

theorem trans (h : Takes taken m m') (h' : Takes more m' m'') : Takes (taken ++ more) m m'' := by
  refine ⟨?_, fun q hq => ?_, h'.released.trans h.released⟩
  · rw [h.freelist, h'.freelist, List.append_assoc]
  · rw [List.mem_append, not_or] at hq
    exact (h'.page q hq.2).trans (h.page q hq.1)

theorem write (h : Takes taken m m') {pa : ℕ} (hpa : pa ∈ taken) (data : Page) :
    Takes taken m (m'.write pa data) := by
  refine ⟨h.freelist, fun q hq => ?_, h.released⟩
  have hne : q ≠ pa := fun heq => hq (heq ▸ hpa)
  rw [Memory.write_page, Function.update_of_ne hne, h.page q hq]

theorem length (h : Takes taken m m') :
    m.freelist.length = taken.length + m'.freelist.length := by
  rw [h.freelist, List.length_append]

end Takes

theorem kalloc_takes {m : Memory} (h : m.freelist ≠ []) :
    ∃ r m', m.kalloc = some (r, m') ∧ Takes [r] m m' := by
  obtain ⟨r, rest, hr⟩ := List.exists_cons_of_ne_nil h
  refine ⟨r, _, Memory.kalloc_cons hr, ⟨hr, fun q hq => ?_, rfl⟩⟩
  rw [List.mem_singleton] at hq
  simp only [Memory.memset_page, Function.update_of_ne hq]

theorem pgroundup64_of_aligned {a : ℕ} (h : a % PGSIZE = 0) (hlt : a < 2 ^ 64) :
    pgroundup64 a = a := by
  simp only [pgroundup64, PGSIZE] at *
  omega

section Tables

variable {ν : Type} {pt : PageTable ν}

theorem wf_setMid (hw : pt.Wf) (i : ℕ) (t : ν) :
    ({ pt with mid := Function.update pt.mid i (some t) } : PageTable ν).Wf := by
  refine ⟨hw.low_of_leaf, fun j hj => ?_, hw.leaf_grants⟩
  by_cases hi : j / 512 = i
  · simp [hi]
  · simpa [Function.update_of_ne hi] using hw.mid_of_low j hj

theorem wf_setLow (hw : pt.Wf) {i : ℕ} (t : ν) (hmid : (pt.mid (i / 512)).isSome) :
    ({ pt with low := Function.update pt.low i (some t) } : PageTable ν).Wf := by
  refine ⟨fun j hj => ?_, fun j hj => ?_, hw.leaf_grants⟩
  · by_cases hi : j / 512 = i
    · simp [hi]
    · simpa [Function.update_of_ne hi] using hw.low_of_leaf j hj
  · by_cases hi : j = i
    · exact hi ▸ hmid
    · simp only [Function.update_of_ne hi] at hj
      exact hw.mid_of_low j hj

theorem wf_setLeaf (hw : pt.Wf) {va : ℕ} {e : Pte} (hlow : (pt.low (lowIndex va)).isSome)
    (he : e.onlyValid = false) : (pt.set va (some e)).Wf := by
  refine ⟨fun j hj => ?_, hw.mid_of_low, fun j f hf => ?_⟩
  · by_cases hi : j = vpn va
    · exact hi ▸ hlow
    · simp only [set_leaf, Function.update_of_ne hi] at hj
      exact hw.low_of_leaf j hj
  · by_cases hi : j = vpn va
    · rw [hi, set_leaf, Function.update_self, Option.some.injEq] at hf
      exact hf ▸ he
    · rw [set_leaf, Function.update_of_ne hi] at hf
      exact hw.leaf_grants j f hf

theorem low_none_of_mid_none (hw : pt.Wf) {va : ℕ} (h : pt.mid (midIndex va) = none) :
    pt.low (lowIndex va) = none := by
  by_contra hne
  have hmid := hw.mid_of_low (lowIndex va) (Option.isSome_iff_ne_none.mpr hne)
  simp only [midIndex] at h
  simp [h] at hmid

end Tables

/-- How many table pages the walk to an address has to allocate. -/
def missingTables (pt : PageTable ℕ) (va : ℕ) : ℕ :=
  (if (pt.mid (midIndex va)).isNone then 1 else 0) +
    if (pt.low (lowIndex va)).isNone then 1 else 0

section Walk

variable {m : Memory} {pt : PageTable ℕ} {va : ℕ}

theorem tablePage_takes {slot : Option ℕ}
    (h : (if slot.isNone then 1 else 0) ≤ m.freelist.length) :
    ∃ t taken m', tablePage slot m = some (t, m') ∧ Takes taken m m' ∧
      taken.length = if slot.isNone then 1 else 0 := by
  cases slot with
  | some t => exact ⟨t, [], m, rfl, Takes.refl m, rfl⟩
  | none =>
    have hne : m.freelist ≠ [] := by
      intro hnil
      simp [hnil] at h
    obtain ⟨t, m', hk, ht⟩ := kalloc_takes hne
    refine ⟨t, [t], m'.memset t 0, ?_, ht.write (List.mem_singleton_self t) _, rfl⟩
    simp [tablePage, hk]

/-- With enough free pages the walk finds a slot, and the leaves stay as they are. -/
theorem walkAlloc_takes (hw : pt.Wf) (hva : va < MAXVA)
    (hfed : missingTables pt va ≤ m.freelist.length) :
    ∃ taken m' pt', walkAlloc va (m, pt) = .ok (true, m', pt') ∧ Takes taken m m' ∧
      taken.length = missingTables pt va ∧ pt'.leaf = pt.leaf ∧ pt'.Wf ∧
      (pt'.low (lowIndex va)).isSome := by
  unfold missingTables at hfed
  obtain ⟨t, taken, m₁, ht, htake, hlen⟩ := @tablePage_takes m
    (pt.mid (midIndex va)) (by omega)
  have hlen₁ := htake.length
  obtain ⟨t', taken', m₂, ht', htake', hlen'⟩ := @tablePage_takes m₁
    (pt.low (lowIndex va)) (by omega)
  refine ⟨taken ++ taken', m₂,
    { pt with mid := Function.update pt.mid (midIndex va) (some t)
              low := Function.update pt.low (lowIndex va) (some t') },
    ?_, htake.trans htake', ?_, rfl, ?_, by simp⟩
  · simp only [walkAlloc, if_neg (Nat.not_le.mpr hva), ht, ht']
  · rw [List.length_append, missingTables, hlen, hlen']
  · have hmid : (Function.update pt.mid (midIndex va) (some t) (lowIndex va / 512)).isSome := by
      simp [midIndex]
    exact wf_setLow (wf_setMid hw _ t) t' hmid

theorem mappages_takes (hw : pt.Wf) (hva : va < MAXVA) (hun : pt.leaf (vpn va) = none)
    (hfed : missingTables pt va ≤ m.freelist.length) {e : Pte} (he : e.onlyValid = false) :
    ∃ taken m' pt', mappages va e (m, pt) = .ok (true, m', pt') ∧ Takes taken m m' ∧
      taken.length = missingTables pt va ∧
      pt'.leaf = Function.update pt.leaf (vpn va) (some e) ∧ pt'.Wf := by
  obtain ⟨taken, m', pt', hwalk, htake, hlen, hleaf, hwf, hlow⟩ := walkAlloc_takes hw hva hfed
  refine ⟨taken, m', pt'.set va (some e), ?_, htake, hlen, by simp [hleaf], wf_setLeaf hwf hlow he⟩
  unfold mappages
  simp [hwalk, hleaf, hun, bind, Except.bind]
  rfl

theorem mappages_mapped (hw : pt.Wf) (hva : va < MAXVA) (hmap : pt.Mapped va)
    {e : Pte} : mappages va e (m, pt) = .error "mappages: remap" := by
  have hlow : (pt.low (lowIndex va)).isSome := hw.low_of_leaf _ hmap
  have hmid : (pt.mid (midIndex va)).isSome := hw.mid_of_low _ hlow
  have hfed : missingTables pt va ≤ m.freelist.length := by
    simp [missingTables, Option.isNone_eq_false_iff.mpr hlow, Option.isNone_eq_false_iff.mpr hmid]
  obtain ⟨taken, m', pt', hwalk, _, _, hleaf, _⟩ := walkAlloc_takes hw hva hfed
  have hsome : (pt.leaf (vpn va)).isSome = true := hmap
  unfold mappages
  simp [hwalk, hleaf, hsome, bind, Except.bind]

end Walk

section Uvmalloc

variable {r : Running} {perm : Perm} {m : Memory} {pt : PageTable ℕ} {a : ℕ}

@[simp] theorem onlyValid_pte (perm : Perm) (pa : ℕ) : (perm.pte pa).onlyValid = false := by
  simp [Perm.pte, Pte.onlyValid]

theorem uvmalloc_page_eq (ha : a % PGSIZE = 0) (hva : a < MAXVA) :
    uvmalloc r a ((a + PGSIZE) % 2 ^ 64) perm (m, pt) =
      uvmallocLoop r perm a [a] (m, pt) >>= fun (ok, s) =>
        .ok (if ok then a + PGSIZE else 0, s) := by
  simp only [MAXVA, PGSIZE] at *
  have hmod : (a + 4096) % 2 ^ 64 = a + 4096 := Nat.mod_eq_of_lt (by omega)
  have hround : pgroundup64 a = a := pgroundup64_of_aligned ha (by omega)
  have hone : pages a (a + 4096) = [a] := pages_one
  have hge : ¬ a + 4096 < a := by omega
  simp only [uvmalloc, hmod, if_neg hge, hround, hone]
  rfl

/-- `uvmalloc` of one page that is not mapped: a zeroed page is mapped there. -/
theorem uvmalloc_page (hw : pt.Wf) (ha : a % PGSIZE = 0) (hva : a < MAXVA)
    (hun : pt.leaf (vpn a) = none) (hnodup : m.freelist.Nodup)
    (hfed : 1 + missingTables pt a ≤ m.freelist.length) :
    ∃ pa taken m' pt', uvmalloc r a ((a + PGSIZE) % 2 ^ 64) perm (m, pt) =
        .ok (a + PGSIZE, m', pt') ∧ Takes (pa :: taken) m m' ∧
      taken.length = missingTables pt a ∧ m'.page pa = (fun _ => 0) ∧
      pt'.leaf = Function.update pt.leaf (vpn a) (some (perm.pte pa)) ∧ pt'.Wf := by
  have hne : m.freelist ≠ [] := by
    intro hnil
    simp [hnil] at hfed
  obtain ⟨pa, m₁, hk, htake⟩ := kalloc_takes hne
  have hlen := htake.length
  have hmem : pa ∈ [pa] := List.mem_singleton_self pa
  obtain ⟨taken, m', pt', hmap, htake', hlen', hleaf, hwf⟩ :=
    @mappages_takes (m₁.memset pa 0) pt a hw hva hun
      (by simp only [Memory.memset_freelist, List.length_singleton] at *; omega)
      (perm.pte pa) (onlyValid_pte perm pa)
  -- the tables are other pages of the free list
  have hpa : pa ∉ taken := by
    intro hin
    have hfree := (htake.write hmem (fun _ => 0)).trans htake'
    rw [hfree.freelist] at hnodup
    exact (List.nodup_cons.mp hnodup).1 (List.mem_append_left _ hin)
  refine ⟨pa, taken, m', pt', ?_, (htake.write hmem _).trans htake', hlen', ?_, hleaf, hwf⟩
  · rw [uvmalloc_page_eq ha hva]
    simp only [uvmallocLoop, hk, hmap, bind, Except.bind, ↓reduceIte]
  · rw [htake'.page pa hpa, Memory.memset_page, Function.update_self]

theorem uvmalloc_page_mapped (hw : pt.Wf) (ha : a % PGSIZE = 0) (hva : a < MAXVA)
    (hmap : pt.Mapped a) (hfed : m.freelist ≠ []) :
    uvmalloc r a ((a + PGSIZE) % 2 ^ 64) perm (m, pt) = .error "mappages: remap" := by
  obtain ⟨pa, m₁, hk, _⟩ := kalloc_takes hfed
  rw [uvmalloc_page_eq ha hva]
  simp only [uvmallocLoop, hk, mappages_mapped hw hva hmap, bind, Except.bind]

end Uvmalloc

section Unmap

variable {r : Running} {m : Memory} {pt : PageTable ℕ} {a : ℕ}

theorem uvmunmap_one (ha : a % PGSIZE = 0) (doFree : Bool) (s : Space) :
    uvmunmap r a 1 doFree s = unmapPage r doFree s a := by
  unfold uvmunmap
  rw [if_neg (by omega), Nat.one_mul, pages_one, exec_cons]
  cases unmapPage r doFree s a <;> rfl

theorem uvmunmap_keep (hw : pt.Wf) (ha : a % PGSIZE = 0) (hva : a < MAXVA) (hmap : pt.Mapped a) :
    uvmunmap r a 1 false (m, pt) = .ok (m, pt.set a none) := by
  obtain ⟨e, he⟩ := Option.isSome_iff_exists.mp hmap
  have hwalk := hw.walk_mapped hva hmap
  rw [he] at hwalk
  rw [uvmunmap_one ha]
  simp [unmapPage, hwalk, hw.leaf_grants _ e he, bind, Except.bind]
  rfl

end Unmap

section Copy

variable {m : Memory} {pt : PageTable ℕ} {a : ℕ}

theorem walkaddr_eq (hw : pt.Wf) (hva : a < MAXVA) {e : Pte} (he : pt.leaf (vpn a) = some e)
    (hu : e.u = true) : pt.walkaddr a = e.pa := by
  have hmap : pt.Mapped a := by simp [Mapped, he]
  unfold walkaddr
  rw [if_neg (Nat.not_le.mpr hva), hw.walk_mapped hva hmap, he]
  simp [hu]

theorem walkaddr_unmapped (h : pt.leaf (vpn a) = none) : pt.walkaddr a = 0 := by
  unfold walkaddr walk
  split_ifs <;> simp [h]

theorem walkaddr_not_user {e : Pte} (he : pt.leaf (vpn a) = some e) (hu : e.u = false) :
    pt.walkaddr a = 0 := by
  unfold walkaddr walk
  split_ifs <;> simp [he, hu]

theorem mem_bufferPages {va len : ℕ} : a ∈ bufferPages va len ↔
    0 < len ∧ a < va + len ∧ va < a + PGSIZE ∧ a % PGSIZE = 0 := by
  unfold bufferPages
  by_cases hlen : len = 0
  · simp [hlen]
  · rw [if_neg hlen, mem_pages]
    simp only [pgrounddown, PGSIZE] at *
    omega

theorem nodup_bufferPages {va len : ℕ} : (bufferPages va len).Nodup := by
  unfold bufferPages
  split_ifs
  · exact List.nodup_nil
  · exact nodup_pages _ _

theorem pgrounddown_mem_bufferPages {va len k : ℕ} (hk : k < len) :
    pgrounddown (va + k) ∈ bufferPages va len := by
  rw [mem_bufferPages]
  simp only [pgrounddown, PGSIZE]
  omega

theorem bufferPages_page (ha : a % PGSIZE = 0) : bufferPages a PGSIZE = [a] := by
  rw [bufferPages, if_neg (by decide), pgrounddown_of_aligned ha, pages_one]

theorem copyin_mapped {dst pa : ℕ} (h : pt.walkaddr a = pa) (hpa : pa ≠ 0) :
    copyin pt dst a m = (true, m.write dst (m.page pa)) := by
  simp [copyin, h, hpa]

theorem copyin_unmapped {dst : ℕ} (h : pt.walkaddr a = 0) : copyin pt dst a m = (false, m) := by
  simp [copyin, h]

theorem copyout_unmapped (ha : a % PGSIZE = 0) (h : pt.walkaddr a = 0) (src : Page) :
    copyout pt a src PGSIZE m = (false, m) := by
  unfold copyout
  rw [bufferPages_page ha]
  simp [exec_cons, copyoutPage, h, bind, Except.bind]

theorem copyout_page {pa : ℕ} (ha : a % PGSIZE = 0) (h : pt.walkaddr a = pa) (hpa : pa ≠ 0)
    (src : Page) : copyout pt a src PGSIZE m =
      (true, m.write pa fun j => if j < PGSIZE then src j else m.page pa j) := by
  have hsrc : (fun j => if a ≤ a + j ∧ a + j < a + PGSIZE then src (a + j - a) else m.page pa j) =
      fun j => if j < PGSIZE then src j else m.page pa j := by
    funext j
    simp
  unfold copyout
  rw [bufferPages_page ha]
  simp [exec_cons, copyoutPage, h, hpa, bind, Except.bind]

end Copy

end AdvancedOperatingSystems.DemandPaging
