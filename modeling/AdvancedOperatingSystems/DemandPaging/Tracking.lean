import AdvancedOperatingSystems.Foundations.Scan
import AdvancedOperatingSystems.DemandPaging.Access

/-!
# The addresses of the heap tracker

`track_heap` takes the first free entries of the tracker, and the page-fault handler changes
the address of none.
-/

namespace AdvancedOperatingSystems.DemandPaging

open Foundations Riscv Riscv.PageTable

section Growth

variable {tracker : ℕ → HeapPage} {is : List ℕ} {start : ℕ} {c : Cpu}

def Cpu.withTracker (c : Cpu) (tracker : ℕ → HeapPage) : Cpu :=
  { c with proc := { c.proc with heapTracker := tracker } }

def freeEntries (tracker : ℕ → HeapPage) (is : List ℕ) : List ℕ :=
  is.filter fun k => (tracker k).addr = unset

/-- The tracker after pages have been tracked in some of its entries. -/
def trackPages (start : ℕ) (ks : List ℕ) (tracker : ℕ → HeapPage) : ℕ → HeapPage := fun k =>
  if k ∈ ks then
    { tracker k with addr := (start + PGSIZE * k) % 2 ^ 64, loaded := false, startblock := none }
  else tracker k

/-- The number of pages of a call has to lie between one and the number of free entries, and
the first of these are taken. -/
theorem trackHeapLoop_eq (hnodup : is.Nodup) (npages : Int) :
    trackHeapLoop start is npages tracker =
      if 1 ≤ npages ∧ npages ≤ (freeEntries tracker is).length then
        .ok (trackPages start ((freeEntries tracker is).take npages.toNat) tracker)
      else .error "Error: No more process heap pages allowed.\n" := by
  induction is generalizing npages tracker with
  | nil =>
    have hno : ¬ (1 ≤ npages ∧ npages ≤ (freeEntries tracker []).length) := by
      simp only [freeEntries, List.filter_nil, List.length_nil]
      omega
    rw [if_neg hno]
    rfl
  | cons i is ih =>
    obtain ⟨hi, hnodup⟩ := List.nodup_cons.mp hnodup
    unfold trackHeapLoop
    by_cases hfree : (tracker i).addr = unset
    · have hcons : freeEntries tracker (i :: is) = i :: freeEntries tracker is := by
        simp [freeEntries, hfree]
      simp only [if_pos hfree, hcons, List.length_cons]
      by_cases hone : npages - 1 = 0
      · have hn : npages = 1 := by omega
        subst hn
        rw [if_pos hone, if_pos (by omega)]
        simp only [Int.toNat_one, List.take_succ_cons, List.take_zero]
        congr 1
        funext k
        by_cases hk : k = i
        · subst hk
          simp [trackPages]
        · simp [trackPages, hk]
      · have hsame : freeEntries (Function.update tracker i
            { tracker i with addr := (start + PGSIZE * i) % 2 ^ 64, loaded := false,
                             startblock := none }) is = freeEntries tracker is := by
          unfold freeEntries
          apply List.filter_congr
          intro k hk
          have hne : k ≠ i := fun heq => hi (heq ▸ hk)
          rw [Function.update_of_ne hne]
        rw [if_neg hone, ih hnodup, hsame]
        have hiff : 1 ≤ npages - 1 ∧ npages - 1 ≤ (freeEntries tracker is).length ↔
            1 ≤ npages ∧ npages ≤ ((freeEntries tracker is).length + 1 : ℕ) := by
          omega
        by_cases hcond : 1 ≤ npages - 1 ∧ npages - 1 ≤ (freeEntries tracker is).length
        · have htake : npages.toNat = (npages - 1).toNat + 1 := by omega
          rw [if_pos hcond, if_pos (hiff.mp hcond), htake, List.take_succ_cons]
          congr 1
          funext k
          by_cases hk : k = i
          · subst hk
            simp [trackPages]
          · simp [trackPages, hk]
        · rw [if_neg hcond, if_neg fun h => hcond (hiff.mpr h)]
    · have hcons : freeEntries tracker (i :: is) = freeEntries tracker is := by
        simp [freeEntries, hfree]
      rw [if_neg hfree, ih hnodup, hcons]

theorem mem_freeEntries {k : ℕ} :
    k ∈ freeEntries tracker (List.range MAXHEAP) ↔ k < MAXHEAP ∧ (tracker k).addr = unset := by
  simp [freeEntries]

/-- The entries that `sbrk` takes for so many bytes. -/
def takenEntries (tracker : ℕ → HeapPage) (bytes : Int) : List ℕ :=
  (freeEntries tracker (List.range MAXHEAP)).take (bytes.tdiv PGSIZE).toNat

/-- There are entries for the whole pages in so many bytes, and there is such a page. -/
def Trackable (tracker : ℕ → HeapPage) (bytes : Int) : Prop :=
  1 ≤ bytes.tdiv PGSIZE ∧ bytes.tdiv PGSIZE ≤ (freeEntries tracker (List.range MAXHEAP)).length

instance (tracker : ℕ → HeapPage) (bytes : Int) : Decidable (Trackable tracker bytes) :=
  inferInstanceAs (Decidable (_ ∧ _))

theorem trackHeap_eq (bytes : Int) :
    trackHeap start (bytes.tdiv PGSIZE) tracker =
      if Trackable tracker bytes then .ok (trackPages start (takenEntries tracker bytes) tracker)
      else .error "Error: No more process heap pages allowed.\n" :=
  trackHeapLoop_eq List.nodup_range _

theorem growproc_eq (hond : c.proc.ondemand = true) (bytes : Int) :
    growproc bytes c =
      if Trackable c.proc.heapTracker bytes then
        .ok (true, c.withTracker
          (trackPages c.proc.sz (takenEntries c.proc.heapTracker bytes) c.proc.heapTracker))
      else .error "Error: No more process heap pages allowed.\n" := by
  unfold growproc
  rw [if_neg (by simp [hond]), trackHeap_eq]
  split_ifs <;> rfl

theorem mem_takenEntries {bytes : Int} {k : ℕ} (h : k ∈ takenEntries tracker bytes) :
    k < MAXHEAP ∧ (tracker k).addr = unset := mem_freeEntries.mp (List.mem_of_mem_take h)

end Growth

section Handler

variable {a : Access} {t : Trap} {c c' : Cpu} {p p' p'' : Proc}

/-- What the page-fault handler leaves of a process: the addresses of its tracker, and a size
that is a `uint64` and page-aligned, if it was. -/
structure AddrsKept (p p' : Proc) : Prop where
  ondemand : p'.ondemand = p.ondemand
  addr : ∀ i, (p'.heapTracker i).addr = (p.heapTracker i).addr
  sz : p.sz < 2 ^ 64 → p'.sz < 2 ^ 64
  aligned : p.sz % PGSIZE = 0 → p'.sz % PGSIZE = 0

theorem AddrsKept.refl : AddrsKept p p := ⟨rfl, fun _ => rfl, id, id⟩

theorem AddrsKept.trans (h : AddrsKept p p') (h' : AddrsKept p' p'') : AddrsKept p p'' where
  ondemand := h'.ondemand.trans h.ondemand
  addr := fun i => (h'.addr i).trans (h.addr i)
  sz := fun hsz => h'.sz (h.sz hsz)
  aligned := fun ha => h'.aligned (h.aligned ha)

theorem AddrsKept.of_tracker {tracker : ℕ → HeapPage}
    (h : ∀ i, (tracker i).addr = (p.heapTracker i).addr) :
    AddrsKept p { p with heapTracker := tracker } := ⟨rfl, h, id, id⟩

theorem evictPageToDisk_addrs (h : evictPageToDisk c = .ok c') : AddrsKept c.proc c'.proc := by
  unfold evictPageToDisk at h
  cases hv : victimPageIndex c.proc.heapTracker with
  | none =>
    simp only [hv] at h
    cases h
  | some v =>
    simp only [hv] at h
    cases hk : c.kernel.memory.kalloc with
    | none =>
      simp only [hk] at h
      cases h
    | some q =>
      simp only [hk] at h
      obtain ⟨s, -, h⟩ := bind_ok_iff.mp h
      cases h
      apply AddrsKept.of_tracker
      intro i
      by_cases hi : i = v
      · simp [hi]
      · simp [hi]

theorem makeRoom_addrs (h : makeRoom c = .ok c') : AddrsKept c.proc c'.proc := by
  unfold makeRoom at h
  split_ifs at h
  · obtain ⟨c₁, h₁, h⟩ := bind_ok_iff.mp h
    cases h
    exact (evictPageToDisk_addrs h₁).trans ⟨rfl, fun _ => rfl, id, id⟩
  · cases h
    exact .refl

theorem retrieveSteps_addr {uvaddr i : ℕ} (is : List ℕ) (s : Option ℕ × (ℕ → HeapPage)) :
    ((is.foldl (retrieveStep uvaddr) s).2 i).addr = (s.2 i).addr := by
  induction is generalizing s with
  | nil => rfl
  | cons k is ih =>
    rw [List.foldl_cons, ih]
    unfold retrieveStep
    split_ifs
    · by_cases hi : i = k
      · simp [hi]
      · simp [hi]
    · rfl

theorem retrieveScan_loop (uvaddr : ℕ) (tracker : ℕ → HeapPage) : ∃ is : List ℕ,
    (∀ i, i ∈ is ↔ i < MAXHEAP) ∧
      retrieveScan uvaddr tracker = is.foldl (retrieveStep uvaddr) (none, tracker) := by
  refine ⟨List.range MAXHEAP, fun i => List.mem_range, ?_⟩
  unfold retrieveScan
  rfl

theorem retrieveScan_addr {uvaddr i : ℕ} {tracker : ℕ → HeapPage} :
    ((retrieveScan uvaddr tracker).2 i).addr = (tracker i).addr := by
  obtain ⟨is, -, hloop⟩ := retrieveScan_loop uvaddr tracker
  rw [hloop, retrieveSteps_addr]

theorem retrieveBlock_proc {uvaddr block : ℕ} (h : retrieveBlock uvaddr block c = .ok c') :
    c'.proc = c.proc := by
  unfold retrieveBlock at h
  cases hk : c.kernel.memory.kalloc with
  | none =>
    simp only [hk] at h
    cases h
  | some q =>
    simp only [hk] at h
    obtain ⟨s, -, h⟩ := bind_ok_iff.mp h
    cases h
    rfl

theorem retrievePageFromDisk_addrs {uvaddr : ℕ} (h : retrievePageFromDisk uvaddr c = .ok c') :
    AddrsKept c.proc c'.proc := by
  have haddr := fun i => @retrieveScan_addr uvaddr i c.proc.heapTracker
  rw [retrievePageFromDisk] at h
  generalize retrieveScan uvaddr c.proc.heapTracker = scan at h haddr
  obtain ⟨found, tracker⟩ := scan
  cases found with
  | none =>
    cases h
    exact .of_tracker haddr
  | some block =>
    rw [retrieveBlock_proc h]
    exact .of_tracker haddr

theorem uvmalloc_size {r : Running} {perm : Perm} {sz sz' : ℕ} {s s' : Space}
    (h : uvmalloc r sz ((sz + PGSIZE) % 2 ^ 64) perm s = .ok (sz', s')) :
    sz' = sz ∨ sz' = (sz + PGSIZE) % 2 ^ 64 ∨ sz' = 0 := by
  unfold uvmalloc at h
  split_ifs at h
  · cases h
    exact Or.inl rfl
  · obtain ⟨⟨ok, s₁⟩, -, h⟩ := bind_ok_iff.mp h
    cases h
    cases ok
    · exact Or.inr (Or.inr rfl)
    · exact Or.inr (Or.inl rfl)

theorem growHeap_addrs (h : growHeap c = .ok c') : AddrsKept c.proc c'.proc := by
  obtain ⟨⟨sz, s⟩, halloc, h⟩ := bind_ok_iff.mp h
  cases h
  have hsz := uvmalloc_size halloc
  refine ⟨rfl, fun _ => rfl, fun h => ?_, fun h => ?_⟩
  · show sz < 2 ^ 64
    rcases hsz with hsz | hsz | hsz
    · rw [hsz]
      exact h
    · rw [hsz]
      exact Nat.mod_lt _ (by decide)
    · rw [hsz]
      decide
  · show sz % PGSIZE = 0
    simp only [PGSIZE] at *
    omega

theorem noteLoad_addrs {addr : ℕ} : AddrsKept c.proc (noteLoad addr c).proc := by
  refine ⟨rfl, fun i => ?_, fun h => h, fun h => h⟩
  simp only [noteLoad]
  split_ifs <;> rfl

theorem heapHandle_addrs {addr k : ℕ} (h : heapHandle addr k c = .ok c') :
    AddrsKept c.proc c'.proc := by
  obtain ⟨c₁, hroom, h⟩ := bind_ok_iff.mp h
  by_cases hloaded : (c₁.proc.heapTracker k).loaded = true
  · simp only [if_pos hloaded] at h
    obtain ⟨c₂, hret, h⟩ := bind_ok_iff.mp h
    cases h
    exact ((makeRoom_addrs hroom).trans (retrievePageFromDisk_addrs hret)).trans noteLoad_addrs
  · simp only [if_neg hloaded] at h
    obtain ⟨c₂, hgrow, h⟩ := bind_ok_iff.mp h
    cases h
    exact ((makeRoom_addrs hroom).trans (growHeap_addrs hgrow)).trans noteLoad_addrs

theorem copyOnWrite_space (h : copyOnWrite t c = .ok c') : ∃ s, c' = c.setSpace s := by
  unfold copyOnWrite at h
  cases hk : c.kernel.memory.kalloc with
  | none =>
    simp only [hk] at h
    cases h
  | some q =>
    simp only [hk] at h
    split_ifs at h
    obtain ⟨s, -, h⟩ := bind_ok_iff.mp h
    obtain ⟨q, -, h⟩ := bind_ok_iff.mp h
    split_ifs at h
    obtain ⟨m, -, h⟩ := bind_ok_iff.mp h
    cases h
    exact ⟨_, rfl⟩

theorem copyOnWrite_proc (h : copyOnWrite t c = .ok c') : c'.proc = c.proc := by
  obtain ⟨s, rfl⟩ := copyOnWrite_space h
  rfl

/-- A load from the file changes memory and the table only. -/
theorem loadFromFile_space (h : loadFromFile t c = .ok c') : ∃ s, c' = c.setSpace s := by
  unfold loadFromFile at h
  cases hf : t.namei c.proc.name with
  | none =>
    simp only [hf] at h
    cases h
  | some f =>
    simp only [hf] at h
    split_ifs at h
    cases hseg : findSegment f (Elfhdr.ofBytes (readi f 0 sizeofElfhdr t.elf).2) t.alignedAddr
      (List.range (Elfhdr.ofBytes (readi f 0 sizeofElfhdr t.elf).2).phnum) t.ph with
    | none =>
      simp only [hseg] at h
      cases h
      exact ⟨c.space, rfl⟩
    | some ph =>
      simp only [hseg] at h
      obtain ⟨⟨sz, m, pt⟩, -, h⟩ := bind_ok_iff.mp h
      simp only at h
      split_ifs at h
      obtain ⟨⟨loaded, m₁⟩, -, h⟩ := bind_ok_iff.mp h
      simp only at h
      split_ifs at h
      cases h
      exact ⟨_, rfl⟩

theorem loadFromFile_proc (h : loadFromFile t c = .ok c') : c'.proc = c.proc := by
  obtain ⟨s, rfl⟩ := loadFromFile_space h
  rfl

theorem pageIndex_eq_none {tracker : ℕ → HeapPage} {addr : ℕ} :
    pageIndex tracker addr = none ↔ ∀ i < MAXHEAP, (tracker i).addr ≠ addr := by
  unfold pageIndex
  rw [List.find?_eq_none]
  simp only [List.mem_range, decide_eq_true_eq, ne_eq]

theorem pageIndex_of_ne {tracker : ℕ → HeapPage} {addr : ℕ} (h : ∀ k, (tracker k).addr ≠ addr) :
    pageIndex tracker addr = none := pageIndex_eq_none.mpr fun k _ => h k

theorem pageIndex_some {tracker : ℕ → HeapPage} {addr k : ℕ} (h : pageIndex tracker addr = some k) :
    k < MAXHEAP ∧ (tracker k).addr = addr := by
  unfold pageIndex at h
  obtain ⟨hk, haddr, -⟩ := find?_range_first h
  exact ⟨hk, by simpa using haddr⟩

theorem pageFaultHandler_proc (hk : pageIndex c.proc.heapTracker t.alignedAddr = none)
    (h : pageFaultHandler t c = .ok c') : c'.proc = c.proc := by
  unfold pageFaultHandler at h
  simp only [hk] at h
  obtain ⟨cow, -, h⟩ := bind_ok_iff.mp h
  cases cow with
  | true => exact copyOnWrite_proc h
  | false => exact loadFromFile_proc h

theorem pageFaultHandler_addrs (h : pageFaultHandler t c = .ok c') :
    AddrsKept c.proc c'.proc := by
  cases hk : pageIndex c.proc.heapTracker t.alignedAddr with
  | some k =>
    unfold pageFaultHandler at h
    simp only [hk] at h
    exact heapHandle_addrs h
  | none =>
    rw [pageFaultHandler_proc hk h]
    exact .refl

end Handler

end AdvancedOperatingSystems.DemandPaging
