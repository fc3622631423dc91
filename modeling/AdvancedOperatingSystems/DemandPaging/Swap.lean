import AdvancedOperatingSystems.Foundations.Scan
import AdvancedOperatingSystems.DemandPaging.Access

/-!
# What an eviction and a retrieval do

The results of `evict_page_to_disk` and `retrieve_page_from_disk` when they have a
victim and a block to work on and the allocator does not run out.
-/

namespace AdvancedOperatingSystems.DemandPaging

open Foundations Riscv Riscv.PageTable

/-- The allocator can hand out so many pages. NULL is none of them. -/
structure Memory.Supplies (m : Memory) (n : ℕ) : Prop where
  nodup : m.freelist.Nodup
  nonzero : 0 ∉ m.freelist
  enough : n ≤ m.freelist.length

theorem Memory.Supplies.mono {m : Memory} {n k : ℕ} (h : m.Supplies n) (hk : k ≤ n) :
    m.Supplies k := ⟨h.nodup, h.nonzero, hk.trans h.enough⟩

theorem Takes.supplies {taken : List ℕ} {m m' : Memory} {n : ℕ} (h : Takes taken m m')
    (hm : m.Supplies (taken.length + n)) : m'.Supplies n := by
  have hlen := h.length
  refine ⟨?_, fun h0 => hm.nonzero ?_, by have := hm.enough; omega⟩
  · have hnodup := hm.nodup
    rw [h.freelist] at hnodup
    exact hnodup.of_append_right
  · rw [h.freelist]
    exact List.mem_append_right _ h0

theorem Takes.mem {taken : List ℕ} {m m' : Memory} (h : Takes taken m m') {q : ℕ}
    (hq : q ∈ taken) : q ∈ m.freelist := by
  rw [h.freelist]
  exact List.mem_append_left _ hq

section Disk

variable {k : Kernel} {data : Page} {b : ℕ}

/-- The kernel after the four writes of a page. -/
theorem writePage_eq : writePage b data k = { k with
    disk := fun block =>
      if PSASTART + b ≤ block ∧ block < PSASTART + b + 4 then
        fun j => data (BSIZE * (block - (PSASTART + b)) + j)
      else k.disk block
    bwritten := [PSASTART + b + 3, PSASTART + b + 2, PSASTART + b + 1, PSASTART + b] ++
      k.bwritten } := by
  have hdisk : (writePage b data k).disk = fun block =>
      if PSASTART + b ≤ block ∧ block < PSASTART + b + 4 then
        fun j => data (BSIZE * (block - (PSASTART + b)) + j)
      else k.disk block := by
    funext block
    simp only [writePage, Kernel.bwrite, PSASTART, BSIZE, List.range_succ, List.range_zero,
      List.nil_append, List.cons_append, List.foldl_cons, List.foldl_nil, Function.update_apply]
    split_ifs
    all_goals first | rfl | omega | skip
    all_goals
      funext j
      congr 1
      omega
  calc writePage b data k = { writePage b data k with disk := (writePage b data k).disk } := rfl
    _ = _ := by rw [hdisk]; rfl

theorem readPage_writePage {j : ℕ} (hj : j < PGSIZE) :
    readPage (writePage b data k).disk b j = data j := by
  rw [writePage_eq]
  simp only [readPage, PSASTART, BSIZE, PGSIZE] at *
  rw [if_pos (by omega)]
  congr 1
  omega

theorem readPage_writePage_of_disjoint {b' j : ℕ} (hj : j < PGSIZE) (h : b' + 4 ≤ b ∨ b + 4 ≤ b') :
    readPage (writePage b data k).disk b' j = readPage k.disk b' j := by
  rw [writePage_eq]
  simp only [readPage, PSASTART, BSIZE, PGSIZE] at *
  rw [if_neg (by omega)]

end Disk

section Victim

variable {tracker : ℕ → HeapPage}

theorem victimStep_eq : victimStep tracker =
    minStep (fun i => !(tracker i).loaded) fun i => (tracker i).lastLoadTime := by
  funext victim i
  cases h : (tracker i).loaded <;> cases victim <;> simp [victimStep, minStep, h]

theorem victimPageIndex_spec {i : ℕ} (hi : i < MAXHEAP) (h : (tracker i).loaded = false) :
    ∃ v < MAXHEAP, victimPageIndex tracker = some v ∧ (tracker v).loaded = false ∧
      (tracker v).lastLoadTime ≤ (tracker i).lastLoadTime := by
  obtain ⟨v, hv, hfold, hel, hleast⟩ := foldl_minStep_none
    (fun i => !(tracker i).loaded) (fun i => (tracker i).lastLoadTime)
    (List.mem_range.mpr hi) (by simp [h])
  rw [← victimStep_eq] at hfold
  refine ⟨v, List.mem_range.mp hv, ?_, by simpa using hel,
    hleast i (List.mem_range.mpr hi) (by simp [h])⟩
  unfold victimPageIndex
  exact hfold

theorem victimPageIndex_iff {v : ℕ} : victimPageIndex tracker = some v ↔
    v < MAXHEAP ∧ (tracker v).loaded = false ∧ ∀ i < MAXHEAP, (tracker i).loaded = false →
      (tracker v).lastLoadTime < (tracker i).lastLoadTime ∨
        (tracker v).lastLoadTime = (tracker i).lastLoadTime ∧ v ≤ i := by
  have hiff := @foldl_minStep_iff ℕ ℕ _ (fun i => !(tracker i).loaded)
    (fun i => (tracker i).lastLoadTime) _ (List.range MAXHEAP) v List.pairwise_lt_range
  rw [← victimStep_eq] at hiff
  simp only [List.mem_range, Bool.not_eq_true'] at hiff
  unfold victimPageIndex
  exact hiff

end Victim

/-- The tracker after entry `v` has gone to block `b`. -/
def swapOut (tracker : ℕ → HeapPage) (v b : ℕ) : ℕ → HeapPage :=
  Function.update tracker v { tracker v with loaded := true, startblock := some b }

/-- The tracker after entry `i` has come back. -/
def swapIn (tracker : ℕ → HeapPage) (i : ℕ) : ℕ → HeapPage :=
  Function.update tracker i { tracker i with loaded := false }

/-- The state an eviction of tracker entry `v` leaves, when the copy of the page is
`data` and memory has become `m`. -/
def Cpu.evicted (c : Cpu) (v : ℕ) (data : Page) (m : Memory) : Cpu :=
  let b := freeBlock c.kernel.psaTracker
  { kernel := writePage b data
      { c.kernel with memory := m, psaTracker := setBlocks c.kernel.psaTracker b true }
    proc := { c.proc with heapTracker := swapOut c.proc.heapTracker v b }
    table := c.table.set (c.proc.heapTracker v).addr none }

theorem evictPageToDisk_eq {c : Cpu} {v pa : ℕ}
    (hv : victimPageIndex c.proc.heapTracker = some v) (hw : c.table.Wf)
    (ha : (c.proc.heapTracker v).addr % PGSIZE = 0) (hva : (c.proc.heapTracker v).addr < MAXVA)
    (hleaf : c.table.leaf (vpn (c.proc.heapTracker v).addr) = some (permW.pte pa))
    (hfed : c.kernel.memory.freelist ≠ []) :
    ∃ page data m, evictPageToDisk c = .ok (c.evicted v data m) ∧
      Takes [page] c.kernel.memory m ∧
      (pa ≠ 0 → pa ∉ c.kernel.memory.freelist → data = c.kernel.memory.page pa) := by
  obtain ⟨page, m₁, hk, htake⟩ := kalloc_takes hfed
  have hmem : page ∈ [page] := List.mem_singleton_self page
  have haddr : c.table.walkaddr (c.proc.heapTracker v).addr = pa := walkaddr_eq hw hva hleaf rfl
  have hmap : c.table.Mapped (c.proc.heapTracker v).addr := by simp [Mapped, hleaf]
  have hrun : ∀ copied m₂, copyin c.table page (c.proc.heapTracker v).addr m₁ = (copied, m₂) →
      evictPageToDisk c = .ok (c.evicted v (m₂.page page) m₂) := by
    intro copied m₂ hcopy
    unfold evictPageToDisk
    simp only [hv, hk, hcopy, uvmunmap_keep hw ha hva hmap, bind, Except.bind]
    simp only [Cpu.evicted, Cpu.setSpace, writePage_eq]
    rfl
  by_cases hpa : pa = 0
  · have hcopy : copyin c.table page (c.proc.heapTracker v).addr m₁ = (false, m₁) := by
      simp [copyin, haddr, hpa]
    exact ⟨page, _, m₁, hrun _ _ hcopy, htake, fun h => absurd hpa h⟩
  · refine ⟨page, _, _, hrun _ _ (copyin_mapped haddr hpa), htake.write hmem _, fun _ hfree => ?_⟩
    have hne : pa ∉ [page] := fun h => hfree (htake.mem h)
    rw [Memory.write_page, Function.update_self, htake.page pa hne]

section Retrieve

variable {tracker : ℕ → HeapPage} {addr i : ℕ}

theorem retrieveScan_eq (hi : i < MAXHEAP) (ha : (tracker i).addr = addr)
    (hloaded : (tracker i).loaded = true)
    (huniq : ∀ j, j ≠ i → (tracker j).addr ≠ addr) :
    retrieveScan addr tracker = ((tracker i).startblock, swapIn tracker i) := by
  have hstep : retrieveStep addr (none, tracker) i =
      ((tracker i).startblock, swapIn tracker i) := by
    simp [retrieveStep, ha, hloaded, swapIn]
  unfold retrieveScan
  rw [← hstep]
  apply foldl_range_single hi
  · intro j hj
    simp [retrieveStep, huniq j hj]
  · intro j hj
    rw [hstep]
    simp [retrieveStep, swapIn, Function.update_of_ne hj, huniq j hj]

/-- The state a retrieval of tracker entry `i` from block `b` leaves. -/
def Cpu.retrieved (c : Cpu) (i b : ℕ) (s : Space) : Cpu :=
  { kernel := { c.kernel with memory := s.1, psaTracker := setBlocks c.kernel.psaTracker b false }
    proc := { c.proc with heapTracker := swapIn c.proc.heapTracker i }
    table := s.2 }

theorem retrievePageFromDisk_eq {c : Cpu} {b : ℕ} (hi : i < MAXHEAP)
    (haddr : (c.proc.heapTracker i).addr = addr)
    (hloaded : (c.proc.heapTracker i).loaded = true)
    (hblock : (c.proc.heapTracker i).startblock = some b)
    (huniq : ∀ j, j ≠ i → (c.proc.heapTracker j).addr ≠ addr)
    (hw : c.table.Wf) (ha : addr % PGSIZE = 0) (hva : addr < MAXVA)
    (hun : c.table.leaf (vpn addr) = none)
    (hm : c.kernel.memory.Supplies (2 + missingTables c.table addr)) :
    ∃ page pa taken m pt, retrievePageFromDisk addr c = .ok (c.retrieved i b (m, pt)) ∧
      Takes (page :: pa :: taken) c.kernel.memory m ∧
      taken.length = missingTables c.table addr ∧
      (∀ j < PGSIZE, m.page pa j = readPage c.kernel.disk b j) ∧
      pt.leaf = Function.update c.table.leaf (vpn addr) (some (permW.pte pa)) ∧ pt.Wf := by
  have hne : c.kernel.memory.freelist ≠ [] := by
    intro hnil
    have := hm.enough
    simp [hnil] at this
  obtain ⟨page, m₁, hk, htake₁⟩ := kalloc_takes hne
  have htake₁' := htake₁.write (List.mem_singleton_self page) (readPage c.kernel.disk b)
  have hm₁ := htake₁'.supplies (n := 1 + missingTables c.table addr)
    (hm.mono (by simp only [List.length_singleton]; omega))
  obtain ⟨pa, taken, m₂, pt, halloc, htake₂, hlen, _, hleaf, hwf⟩ :=
    @uvmalloc_page c.running permW _ _ _ hw ha hva hun hm₁.nodup hm₁.enough
  have hpa : pa ∈ (m₁.write page (readPage c.kernel.disk b)).freelist :=
    htake₂.mem List.mem_cons_self
  have hpa0 : pa ≠ 0 := fun h => hm₁.nonzero (h ▸ hpa)
  -- the buffer page is none of the pages mapped
  have hpage : page ∉ pa :: taken := by
    intro hin
    have hnodup := hm.nodup
    rw [htake₁.freelist] at hnodup
    exact (List.nodup_cons.mp hnodup).1 (htake₂.mem hin)
  have hwalk : pt.walkaddr addr = pa := walkaddr_eq hwf hva (by rw [hleaf]; simp; rfl) rfl
  have hdata : m₂.page page = readPage c.kernel.disk b := by
    rw [htake₂.page page hpage, Memory.write_page, Function.update_self]
  have hcopy : copyout pt addr (m₂.page page) PGSIZE m₂ = _ := copyout_page ha hwalk hpa0 _
  generalize hm₃ : m₂.write pa _ = m₃ at hcopy
  have htake₃ : Takes ([page] ++ pa :: taken) c.kernel.memory m₃ :=
    hm₃ ▸ (htake₁'.trans htake₂).write (by simp) _
  have hcontent : ∀ j < PGSIZE, m₃.page pa j = readPage c.kernel.disk b j := by
    intro j hj
    rw [← hm₃, Memory.write_page, Function.update_self, ← hdata]
    exact if_pos hj
  have hrun : Cpu.running { c with
      proc := { c.proc with heapTracker := swapIn c.proc.heapTracker i } } = c.running := rfl
  refine ⟨page, pa, taken, m₃, pt, ?_, htake₃, hlen, hcontent, hleaf, hwf⟩
  rw [retrievePageFromDisk, retrieveScan_eq hi haddr hloaded huniq]
  simp only [hblock, retrieveBlock, hk, hrun, halloc, hcopy, bind, Except.bind]
  rfl

end Retrieve

end AdvancedOperatingSystems.DemandPaging
