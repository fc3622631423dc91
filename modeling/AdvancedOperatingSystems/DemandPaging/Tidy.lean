import AdvancedOperatingSystems.DemandPaging.Resolve

/-!
# Processes in order

What the branch of the page-fault handler for tracked pages does to the whole table of a
process, when it maps the page of the fault.
-/

namespace AdvancedOperatingSystems.DemandPaging

open Foundations Riscv Riscv.PageTable

/-- A process and the kernel between two instructions: the size is a `uint64`, the table is
well formed, and its frames are pages of memory which the allocator does not hold. -/
structure Cpu.Tidy (c : Cpu) : Prop where
  sz : c.proc.sz < 2 ^ 64
  wf : c.table.Wf
  frames : ∀ v e, c.table.leaf v = some e → e.pa ≠ 0
  used : ∀ v e, c.table.leaf v = some e → e.pa ∉ c.kernel.memory.freelist
  sound : c.kernel.memory.Sound
  nodup : c.kernel.memory.freelist.Nodup

theorem Cpu.Tidy.faulting {c : Cpu} (h : c.Tidy) {a : Access} (hva : a.va < 2 ^ 64)
    (hfault : translate c.table a = none) : Faulting a c :=
  ⟨hva, h.sz, h.wf, h.frames, h.sound, hfault⟩

theorem Memory.Draws.sound {m m' : Memory} (h : m.Draws m') (hm : m.Sound) : m'.Sound := by
  intro q hq
  rw [h.kend]
  exact hm q (h.sub q hq)

section Fetch

variable {a : Access} {c d d' : Cpu} {k : ℕ}

theorem pageFaultHandler_tracked {k : ℕ} (hk : pageIndex d.proc.heapTracker a.pageAddr = some k) :
    pageFaultHandler a.trap d = heapHandle a.pageAddr k d := by
  unfold pageFaultHandler
  rw [trap_alignedAddr, hk]

theorem HandlerStep.tidy (h : HandlerStep d d') (ht : d.Tidy) (hwf : d'.table.Wf)
    (hsz : d'.proc.sz < 2 ^ 64) : d'.Tidy where
  sz := hsz
  wf := hwf
  frames := by
    intro v e he
    rcases h.space.leaf v e he with hold | ⟨-, hmem, -⟩
    · exact ht.frames v e hold
    · exact (ht.sound _ hmem).1
  used := by
    intro v e he
    rcases h.space.leaf v e he with hold | ⟨-, -, htaken, -⟩
    · exact fun hfree => ht.used v e hold (h.space.draws.sub _ hfree)
    · exact htaken
  sound := h.space.draws.sound ht.sound
  nodup := h.space.draws.nodup

/-- The table after a page has come back from disk. -/
theorem retrieveBlock_table {block : ℕ} (hw : d.table.Wf) (hm : d.kernel.memory.Sound)
    (hva : a.va < 2 ^ 64) (h : retrieveBlock a.pageAddr block d = .ok d') :
    d'.proc = d.proc ∧ d'.table.Wf ∧ (∀ v, v ≠ vpn a.va → d'.table.leaf v = d.table.leaf v) ∧
      (d'.table.leaf (vpn a.va) = d.table.leaf (vpn a.va) ∨
        ∃ pa, d'.table.leaf (vpn a.va) = some (permW.pte pa)) := by
  unfold retrieveBlock at h
  cases hk : d.kernel.memory.kalloc with
  | none =>
    simp only [hk] at h
    cases h
  | some q =>
    obtain ⟨page, m⟩ := q
    simp only [hk] at h
    obtain ⟨⟨sz, m₁, pt⟩, halloc, h⟩ := bind_ok_iff.mp h
    cases h
    have hsound : (m.write page (readPage d.kernel.disk block)).Sound :=
      (kalloc_sound hm hk).1.of_freelist rfl rfl
    obtain ⟨-, hspec⟩ := @uvmalloc_pageAddr a d.running permW _ _ hw hsound hva
    obtain ⟨hwf, ⟨-, -, pa, taken, -, -, -, hleaf⟩ | ⟨-, hleaf, -⟩⟩ := hspec sz m₁ pt halloc
    · refine ⟨rfl, hwf, fun v hv => ?_, Or.inr ⟨pa, ?_⟩⟩
      · show pt.leaf v = _
        rw [hleaf, Function.update_of_ne hv]
      · show pt.leaf _ = _
        rw [hleaf, Function.update_self]
    · exact ⟨rfl, hwf, fun v _ => congrFun hleaf v, Or.inl (congrFun hleaf _)⟩

/-- The table after the first touch of a page. -/
theorem growHeap_table (hw : d.table.Wf) (hm : d.kernel.memory.Sound)
    (hsz : d.proc.sz + PGSIZE < 2 ^ 64) (h : growHeap d = .ok d') :
    d'.proc.sz < 2 ^ 64 ∧ d'.table.Wf ∧
      (∀ v, v ≠ vpn (pgroundup d.proc.sz) → d'.table.leaf v = d.table.leaf v) ∧
      (d'.table.leaf (vpn (pgroundup d.proc.sz)) = d.table.leaf (vpn (pgroundup d.proc.sz)) ∨
        ∃ pa, d'.table.leaf (vpn (pgroundup d.proc.sz)) = some (permW.pte pa)) := by
  obtain ⟨⟨sz, m, pt⟩, halloc, h⟩ := bind_ok_iff.mp h
  cases h
  obtain ⟨-, hspec⟩ := @uvmalloc_next_spec d.running permW _ _ hw hm _ hsz
  obtain ⟨hwf, ⟨-, heq, pa, taken, -, -, -, hleaf⟩ | ⟨-, heq, hleaf⟩⟩ := hspec sz m pt halloc
  · refine ⟨?_, hwf, fun v hv => ?_, Or.inr ⟨pa, ?_⟩⟩
    · show sz < 2 ^ 64
      rw [heq]
      exact hsz
    · show pt.leaf v = _
      rw [hleaf, Function.update_of_ne hv]
    · show pt.leaf _ = _
      rw [hleaf, Function.update_self]
  · refine ⟨?_, hwf, fun v _ => congrFun hleaf v, Or.inl (congrFun hleaf _)⟩
    show sz < 2 ^ 64
    rw [heq]
    decide

/-- The table after a page has been fetched: that of `roomTable`, but for the page. -/
theorem heapHandle_room (ht : d.Tidy) (hva : a.va < 2 ^ 64)
    (hk : pageIndex d.proc.heapTracker a.pageAddr = some k) (hmaps : HeapMaps a d k)
    (h : heapHandle a.pageAddr k d = .ok d') :
    HandlerStep d d' ∧ d'.Tidy ∧
      (∀ v, v ≠ vpn a.va → d'.table.leaf v = (roomTable d).leaf v) ∧
      (d'.table.leaf (vpn a.va) = (roomTable d).leaf (vpn a.va) ∨
        ∃ pa, d'.table.leaf (vpn a.va) = some (permW.pte pa)) := by
  obtain ⟨-, hmade⟩ := makeRoom_spec ht.wf ht.sound
  have hserved : SwapInServed a d := by
    intro i d₁ hi hroom hloaded _
    obtain rfl : k = i := Option.some.inj (hk.symm.trans hi)
    have R := hmade d₁ hroom
    have hcond := hmaps.2
    rw [R.tracker] at hloaded
    rw [if_pos hloaded] at hcond
    have hfew := hcond.2.2.2
    rw [R.table, R.free]
    omega
  have hstep := heapHandle_step ht.nodup hserved hk h
  suffices hrest : d'.proc.sz < 2 ^ 64 ∧ d'.table.Wf ∧
      (∀ v, v ≠ vpn a.va → d'.table.leaf v = (roomTable d).leaf v) ∧
      (d'.table.leaf (vpn a.va) = (roomTable d).leaf (vpn a.va) ∨
        ∃ pa, d'.table.leaf (vpn a.va) = some (permW.pte pa)) by
    exact ⟨hstep, hstep.tidy ht hrest.2.1 hrest.1, hrest.2.2⟩
  obtain ⟨d₁, hroom, h⟩ := bind_ok_iff.mp h
  have R := hmade d₁ hroom
  have hw₁ : d₁.table.Wf := R.table ▸ roomTable_wf ht.wf
  have hsz₁ : d₁.proc.sz < 2 ^ 64 := R.sz ▸ ht.sz
  have hcond := hmaps.2
  rw [← R.tracker] at hcond
  rw [← R.table]
  by_cases hloaded : (d₁.proc.heapTracker k).loaded = true
  · simp only [if_pos hloaded] at h
    obtain ⟨d₂, hret, h⟩ := bind_ok_iff.mp h
    cases h
    rw [retrievePageFromDisk] at hret
    generalize retrieveScan a.pageAddr d₁.proc.heapTracker = scan at hret
    obtain ⟨found, tracker⟩ := scan
    cases found with
    | none =>
      cases hret
      exact ⟨hsz₁, hw₁, fun _ _ => rfl, Or.inl rfl⟩
    | some block =>
      obtain ⟨hproc, hw₂, hleaf⟩ := @retrieveBlock_table a
        { d₁ with proc := { d₁.proc with heapTracker := tracker } } d₂ block hw₁ R.sound hva hret
      refine ⟨?_, hw₂, hleaf⟩
      show d₂.proc.sz < 2 ^ 64
      rw [hproc]
      exact hsz₁
  · simp only [if_neg hloaded] at h
    obtain ⟨d₂, hgrow, h⟩ := bind_ok_iff.mp h
    cases h
    rw [if_neg hloaded, ← R.sz] at hcond
    obtain ⟨hsz, hpage, -⟩ := hcond
    obtain ⟨hsz₂, hw₂, hleaf⟩ := growHeap_table hw₁ R.sound hsz hgrow
    rw [hpage, vpn_pageAddr] at hleaf
    exact ⟨hsz₂, hw₂, hleaf⟩

theorem HeapMaps.unmapped (hmaps : HeapMaps a d k) : (roomTable d).leaf (vpn a.va) = none := by
  have hmapped : ¬ (roomTable d).Mapped a.pageAddr := by
    have hcond := hmaps.2
    split_ifs at hcond
    · exact hcond.2.2.1
    · exact hcond.2.2.2.1
  rw [Mapped, vpn_pageAddr, Option.not_isSome_iff_eq_none] at hmapped
  exact hmapped

theorem roomTable_other {e : Pte} (hmaps : HeapMaps a d k)
    (hleaf : d.table.leaf (vpn a.va) = some e) {v : ℕ} (hv : v ≠ vpn a.va) :
    (roomTable d).leaf v = d.table.leaf v := by
  have hun := hmaps.unmapped
  unfold roomTable at hun ⊢
  split at hun
  · rw [set_leaf] at hun ⊢
    by_cases hw : vpn a.va = vpn (d.proc.heapTracker ‹ℕ›).addr
    · rw [← hw, Function.update_of_ne hv]
    · rw [Function.update_of_ne hw, hleaf] at hun
      cases hun
  · rfl

theorem heapHandle_tidy (ht : d.Tidy) (hva : a.va < 2 ^ 64)
    (hk : pageIndex d.proc.heapTracker a.pageAddr = some k) (hmaps : HeapMaps a d k)
    (h : heapHandle a.pageAddr k d = .ok d') :
    d'.Tidy ∧ d.kernel.memory.Draws d'.kernel.memory ∧
      ∀ v e, v ≠ vpn a.va → d'.table.leaf v = some e → d.table.leaf v = some e := by
  obtain ⟨hstep, ht', hleaf, -⟩ := heapHandle_room ht hva hk hmaps h
  refine ⟨ht', hstep.space.draws, fun v e hv he => ?_⟩
  rw [hleaf v hv] at he
  rcases roomTable_leaf (c := d) v with hnone | hsame
  · rw [hnone] at he
    cases he
  · rw [← hsame]
    exact he

end Fetch

end AdvancedOperatingSystems.DemandPaging
