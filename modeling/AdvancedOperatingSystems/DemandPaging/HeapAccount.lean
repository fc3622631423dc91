import AdvancedOperatingSystems.DemandPaging.Resolve
import AdvancedOperatingSystems.DemandPaging.Tracking

/-!
# The account of heap pages

What a fault of a tracked page does to the tracker, to the number of resident pages and to the
table: it makes room, maps a page, which need not be that of the fault, and notes the load.
-/

namespace AdvancedOperatingSystems.DemandPaging

open Foundations Riscv Riscv.PageTable

/-- A page has been mapped at an address, or nothing has. -/
def MapsAt (pt pt' : PageTable ℕ) (addr : ℕ) (P : Prop) : Prop :=
  P ∧ (∃ pa ≠ 0, pt'.leaf = Function.update pt.leaf (vpn addr) (some (permW.pte pa))) ∨
    ¬ P ∧ pt'.leaf = pt.leaf

section Fetch

variable (a : Access) (c : Cpu) (k : ℕ)

/-- The page that is mapped for a fault of entry `k`. -/
def fetchedPage : ℕ := if (roomTracker c k).loaded then a.pageAddr else pgroundup c.proc.sz

/-- There is a page for it, and pages for the tables on the way. -/
def FetchMaps : Prop :=
  if (roomTracker c k).loaded then
    (roomBlock a c).isSome ∧ AllocMaps (roomTable c) a.pageAddr (roomFree c - 1)
  else c.proc.sz + PGSIZE < 2 ^ 64 ∧ AllocMaps (roomTable c) (pgroundup c.proc.sz) (roomFree c)

/-- An entry of the tracker after a fault of entry `k`. -/
def notedEntry (i : ℕ) : HeapPage :=
  if i < MAXHEAP ∧ (c.proc.heapTracker i).addr = a.pageAddr then
    { roomTracker c i with
      loaded := (roomTracker c i).loaded && !(roomTracker c k).loaded
      lastLoadTime := c.kernel.ticks.toNat }
  else roomTracker c i

def roomResident : ℕ := if Crowded c then c.proc.residentHeapPages - 1 else c.proc.residentHeapPages

/-- What a fault of entry `k` leaves. -/
structure Fetched (c' : Cpu) : Prop where
  wf : c'.table.Wf
  resident : c'.proc.residentHeapPages = roomResident c + 1
  tracker : ∀ i, c'.proc.heapTracker i = notedEntry a c k i
  mapping : MapsAt (roomTable c) c'.table (fetchedPage a c k) (FetchMaps a c k)

end Fetch

section Room

variable {a : Access} {c c' : Cpu} {k i : ℕ}

theorem evictPageToDisk_account (h : evictPageToDisk c = .ok c') :
    c'.proc.residentHeapPages = c.proc.residentHeapPages ∧ c'.kernel.ticks = c.kernel.ticks := by
  unfold evictPageToDisk at h
  cases hv : victimPageIndex c.proc.heapTracker with
  | none =>
    simp only [hv] at h
    cases h
  | some v =>
    simp only [hv] at h
    cases hk : c.kernel.memory.kalloc with
    | none =>
      simp only [hk] at h
      cases h
    | some q =>
      simp only [hk] at h
      obtain ⟨s, -, h⟩ := bind_ok_iff.mp h
      cases h
      refine ⟨rfl, ?_⟩
      simp [Cpu.setSpace, writePage_eq]

theorem makeRoom_account (h : makeRoom c = .ok c') :
    c'.proc.residentHeapPages = roomResident c ∧ c'.kernel.ticks = c.kernel.ticks := by
  unfold makeRoom at h
  by_cases hfull : Crowded c
  · have hcount : c.proc.residentHeapPages = MAXRESHEAP := hfull
    rw [if_pos hcount] at h
    obtain ⟨c₁, h₁, h⟩ := bind_ok_iff.mp h
    cases h
    obtain ⟨hres, hticks⟩ := evictPageToDisk_account h₁
    rw [roomResident, if_pos hfull, ← hres]
    exact ⟨rfl, hticks⟩
  · have hcount : ¬ c.proc.residentHeapPages = MAXRESHEAP := hfull
    rw [if_neg hcount] at h
    cases h
    rw [roomResident, if_neg hfull]
    exact ⟨rfl, rfl⟩

theorem roomTracker_addr : (roomTracker c i).addr = (c.proc.heapTracker i).addr := by
  unfold roomTracker
  cases evictee c with
  | none => rfl
  | some v =>
    simp only [swapOut]
    by_cases hi : i = v
    · simp [hi]
    · simp [hi]

theorem roomTracker_time :
    (roomTracker c i).lastLoadTime = (c.proc.heapTracker i).lastLoadTime := by
  unfold roomTracker
  cases evictee c with
  | none => rfl
  | some v =>
    simp only [swapOut]
    by_cases hi : i = v
    · simp [hi]
    · simp [hi]

theorem notedEntry_addr : (notedEntry a c k i).addr = (c.proc.heapTracker i).addr := by
  unfold notedEntry
  split_ifs
  · exact roomTracker_addr
  · exact roomTracker_addr

theorem HeapPage.unmarked {e : HeapPage} (h : e.loaded = false) : { e with loaded := false } = e := by
  cases e
  cases h
  rfl

/-- The loop of a retrieval clears the marks of the entries for the page. -/
theorem retrieveSteps_tracker {uvaddr : ℕ} (is : List ℕ) (s : Option ℕ × (ℕ → HeapPage)) :
    (is.foldl (retrieveStep uvaddr) s).2 i =
      if i ∈ is ∧ (s.2 i).addr = uvaddr then { s.2 i with loaded := false } else s.2 i := by
  induction is generalizing s with
  | nil => simp
  | cons j is ih =>
    rw [List.foldl_cons, ih]
    unfold retrieveStep
    by_cases hstep : (s.2 j).addr = uvaddr ∧ (s.2 j).loaded = true
    · rw [if_pos hstep]
      by_cases hij : i = j
      · subst hij
        have hcond : i ∈ i :: is ∧ (s.2 i).addr = uvaddr := ⟨List.mem_cons_self, hstep.1⟩
        rw [if_pos hcond]
        simp only [Function.update_self]
        split_ifs <;> rfl
      · simp [hij]
    · rw [if_neg hstep]
      by_cases hij : i = j
      · subst hij
        by_cases haddr : (s.2 i).addr = uvaddr
        · have hl : (s.2 i).loaded = false := by
            simpa [haddr] using hstep
          have hcond : i ∈ i :: is ∧ (s.2 i).addr = uvaddr := ⟨List.mem_cons_self, haddr⟩
          rw [if_pos hcond]
          split_ifs
          · rfl
          · exact (HeapPage.unmarked hl).symm
        · simp [haddr]
      · simp [hij]

theorem retrieveScan_tracker {uvaddr : ℕ} {tracker : ℕ → HeapPage} :
    (retrieveScan uvaddr tracker).2 i =
      if i < MAXHEAP ∧ (tracker i).addr = uvaddr then { tracker i with loaded := false }
      else tracker i := by
  obtain ⟨is, hmem, hloop⟩ := retrieveScan_loop uvaddr tracker
  rw [hloop, retrieveSteps_tracker]
  simp only [hmem]

theorem noteLoad_entry {addr : ℕ} : (noteLoad addr c).proc.heapTracker i =
    if i < MAXHEAP ∧ (c.proc.heapTracker i).addr = addr then
      { c.proc.heapTracker i with lastLoadTime := c.kernel.ticks.toNat }
    else c.proc.heapTracker i := rfl

end Room

section Handler

variable {a : Access} {c c₁ c₂ c' : Cpu} {k i : ℕ}

theorem retrieveBlock_fetches {block : ℕ} (hw : c.table.Wf) (hm : c.kernel.memory.Sound)
    (hva : a.va < 2 ^ 64) (h : retrieveBlock a.pageAddr block c = .ok c') :
    c'.table.Wf ∧ c'.kernel.ticks = c.kernel.ticks ∧
      MapsAt c.table c'.table a.pageAddr
        (AllocMaps c.table a.pageAddr (c.kernel.memory.freelist.length - 1)) := by
  unfold retrieveBlock at h
  cases hk : c.kernel.memory.kalloc with
  | none =>
    simp only [hk] at h
    cases h
  | some q =>
    obtain ⟨page, m⟩ := q
    simp only [hk] at h
    obtain ⟨⟨sz, m₁, pt⟩, halloc, h⟩ := bind_ok_iff.mp h
    cases h
    obtain ⟨hsound, -, hlen, -, -⟩ := kalloc_sound hm hk
    have hsound' : (m.write page (readPage c.kernel.disk block)).Sound :=
      hsound.of_freelist rfl rfl
    obtain ⟨-, hspec⟩ := @uvmalloc_pageAddr a c.running permW _ _ hw hsound' hva
    have hfree : (m.write page (readPage c.kernel.disk block)).freelist.length =
        c.kernel.memory.freelist.length - 1 := by
      rw [Memory.write_freelist]
      omega
    rw [hfree, ← vpn_pageAddr] at hspec
    obtain ⟨hwf, ⟨hmaps, -, pa, taken, htake, -, -, hleaf⟩ | ⟨hno, hleaf, -⟩⟩ :=
      hspec sz m₁ pt halloc
    · have hpa : pa ≠ 0 := (hsound' pa (htake.mem List.mem_cons_self)).1
      exact ⟨hwf, rfl, Or.inl ⟨hmaps, pa, hpa, hleaf⟩⟩
    · exact ⟨hwf, rfl, Or.inr ⟨hno, hleaf⟩⟩

/-- What a retrieval leaves. -/
theorem retrievePageFromDisk_fetches (hw : c.table.Wf) (hm : c.kernel.memory.Sound)
    (hva : a.va < 2 ^ 64) (h : retrievePageFromDisk a.pageAddr c = .ok c') :
    c'.table.Wf ∧ c'.kernel.ticks = c.kernel.ticks ∧
      c'.proc.residentHeapPages = c.proc.residentHeapPages ∧
      (∀ i, c'.proc.heapTracker i = if i < MAXHEAP ∧ (c.proc.heapTracker i).addr = a.pageAddr then
        { c.proc.heapTracker i with loaded := false } else c.proc.heapTracker i) ∧
      MapsAt c.table c'.table a.pageAddr
        ((retrieveScan a.pageAddr c.proc.heapTracker).1.isSome ∧
          AllocMaps c.table a.pageAddr (c.kernel.memory.freelist.length - 1)) := by
  have hscan := fun i => @retrieveScan_tracker i a.pageAddr c.proc.heapTracker
  rw [retrievePageFromDisk] at h
  generalize retrieveScan a.pageAddr c.proc.heapTracker = scan at h hscan
  obtain ⟨found, tracker⟩ := scan
  cases found with
  | none =>
    cases h
    exact ⟨hw, rfl, rfl, hscan, Or.inr ⟨by simp, rfl⟩⟩
  | some block =>
    have hproc := retrieveBlock_proc h
    obtain ⟨hwf, hticks, hmapping⟩ := @retrieveBlock_fetches a
      { c with proc := { c.proc with heapTracker := tracker } } c' block hw hm hva h
    refine ⟨hwf, hticks, ?_, fun i => ?_, ?_⟩
    · rw [hproc]
    · rw [hproc]
      exact hscan i
    · rcases hmapping with ⟨hmaps, hleaf⟩ | ⟨hno, hleaf⟩
      · exact Or.inl ⟨⟨rfl, hmaps⟩, hleaf⟩
      · exact Or.inr ⟨fun hmaps => hno hmaps.2, hleaf⟩

/-- What the first touch of a page leaves. -/
theorem growHeap_fetches (hw : c.table.Wf) (hm : c.kernel.memory.Sound)
    (hsz : c.proc.sz < 2 ^ 64) (h : growHeap c = .ok c') :
    c'.table.Wf ∧ c'.kernel.ticks = c.kernel.ticks ∧
      c'.proc.residentHeapPages = c.proc.residentHeapPages ∧
      c'.proc.heapTracker = c.proc.heapTracker ∧
      MapsAt c.table c'.table (pgroundup c.proc.sz) (c.proc.sz + PGSIZE < 2 ^ 64 ∧
        AllocMaps c.table (pgroundup c.proc.sz) c.kernel.memory.freelist.length) := by
  obtain ⟨⟨sz, m, pt⟩, halloc, h⟩ := bind_ok_iff.mp h
  cases h
  by_cases hwrap : 2 ^ 64 ≤ c.proc.sz + PGSIZE
  · have hnothing := halloc.symm.trans (uvmalloc_wraps hwrap hsz c.space)
    cases hnothing
    exact ⟨hw, rfl, rfl, rfl, Or.inr ⟨fun h => absurd h.1 (Nat.not_lt.mpr hwrap), rfl⟩⟩
  · obtain ⟨-, hspec⟩ := @uvmalloc_next_spec c.running permW _ _ hw hm _ (not_le.mp hwrap)
    obtain ⟨hwf, ⟨hmaps, -, pa, taken, htake, -, -, hleaf⟩ | ⟨hno, -, hleaf⟩⟩ :=
      hspec sz m pt halloc
    · have hpa : pa ≠ 0 := (hm pa (htake.mem List.mem_cons_self)).1
      exact ⟨hwf, rfl, rfl, rfl, Or.inl ⟨⟨not_le.mp hwrap, hmaps⟩, pa, hpa, hleaf⟩⟩
    · exact ⟨hwf, rfl, rfl, rfl, Or.inr ⟨fun h => hno h.2, hleaf⟩⟩

/-- What the branch for tracked pages leaves. -/
theorem heapHandle_fetched (hw : c.table.Wf) (hm : c.kernel.memory.Sound)
    (hsz : c.proc.sz < 2 ^ 64) (hva : a.va < 2 ^ 64)
    (h : heapHandle a.pageAddr k c = .ok c') : Fetched a c k c' := by
  obtain ⟨-, hmade⟩ := makeRoom_spec hw hm
  rw [heapHandle_eq] at h
  obtain ⟨c₁, hc₁, h⟩ := bind_ok_iff.mp h
  obtain ⟨c₂, hc₂, h⟩ := bind_ok_iff.mp h
  cases h
  have R := hmade c₁ hc₁
  obtain ⟨hres₁, hticks₁⟩ := makeRoom_account hc₁
  have hw₁ : c₁.table.Wf := R.table ▸ roomTable_wf hw
  have hsz₁ : c₁.proc.sz < 2 ^ 64 := R.sz ▸ hsz
  by_cases hloaded : (c₁.proc.heapTracker k).loaded = true
  · rw [if_pos hloaded] at hc₂
    obtain ⟨hw₂, hticks₂, hres₂, htracker, hmaps⟩ :=
      retrievePageFromDisk_fetches hw₁ R.sound hva hc₂
    rw [R.table, R.free, R.tracker, ← roomBlock] at hmaps
    rw [R.tracker] at hloaded htracker
    constructor
    · exact hw₂
    · show c₂.proc.residentHeapPages + 1 = _
      rw [hres₂, hres₁]
    · intro i
      have hticks : c₂.kernel.ticks = c.kernel.ticks := hticks₂.trans hticks₁
      rw [noteLoad_entry, htracker i, roomTracker_addr, hticks, notedEntry, hloaded]
      by_cases hi : i < MAXHEAP ∧ (c.proc.heapTracker i).addr = a.pageAddr
      · simp [hi, roomTracker_addr]
      · simp [hi, roomTracker_addr]
    · rw [fetchedPage, FetchMaps, if_pos hloaded, if_pos hloaded]
      exact hmaps
  · rw [if_neg hloaded] at hc₂
    obtain ⟨hw₂, hticks₂, hres₂, htracker, hmaps⟩ := growHeap_fetches hw₁ R.sound hsz₁ hc₂
    rw [R.table, R.free, R.sz] at hmaps
    rw [R.tracker] at hloaded htracker
    constructor
    · exact hw₂
    · show c₂.proc.residentHeapPages + 1 = _
      rw [hres₂, hres₁]
    · intro i
      have hticks : c₂.kernel.ticks = c.kernel.ticks := hticks₂.trans hticks₁
      rw [Bool.not_eq_true] at hloaded
      rw [noteLoad_entry, htracker, roomTracker_addr, hticks, notedEntry, hloaded]
      simp
    · rw [fetchedPage, FetchMaps, if_neg hloaded, if_neg hloaded]
      exact hmaps

theorem copyOnWrite_elsewhere (hw : c.table.Wf) (hm : c.kernel.memory.Sound) (hva : a.va < 2 ^ 64)
    (h : copyOnWrite a.trap c = .ok c') :
    c'.table.Wf ∧ ∀ v, v ≠ vpn a.va → c'.table.leaf v = c.table.leaf v := by
  cases hk : c.kernel.memory.kalloc with
  | none =>
    unfold copyOnWrite at h
    simp only [hk] at h
    cases h
  | some q =>
    obtain ⟨page, m⟩ := q
    obtain ⟨hsound, -, -, -, -⟩ := kalloc_sound hm hk
    obtain ⟨hfree, hkend⟩ := @copyin_frame m c.table page a.pageAddr
    have hsound' := hsound.of_freelist hfree hkend
    rw [copyOnWrite_eq hk] at h
    split_ifs at h
    obtain ⟨s, hs, h⟩ := bind_ok_iff.mp h
    obtain ⟨⟨sz, m₁, pt⟩, halloc, h⟩ := bind_ok_iff.mp h
    split_ifs at h
    obtain ⟨m₂, -, h⟩ := bind_ok_iff.mp h
    cases h
    have hun := (uvmunmap_returns_iff hw).mp ⟨s, hs⟩
    obtain rfl := Except.ok.inj (hs.symm.trans (uvmunmap_unmappable hw hun))
    obtain ⟨-, hspec⟩ := @uvmalloc_pageAddr a c.running permW _ _ (hw.clear a.pageAddr) hsound' hva
    have hclear : ∀ v, v ≠ vpn a.va → (c.table.set a.pageAddr none).leaf v = c.table.leaf v := by
      intro v hv
      rw [set_leaf, vpn_pageAddr, Function.update_of_ne hv]
    obtain ⟨hwf, ⟨-, -, pa, taken, -, -, -, hleaf⟩ | ⟨-, hleaf, -⟩⟩ := hspec sz m₁ pt halloc
    · refine ⟨hwf, fun v hv => ?_⟩
      show pt.leaf v = _
      rw [hleaf, Function.update_of_ne hv, hclear v hv]
    · refine ⟨hwf, fun v hv => ?_⟩
      show pt.leaf v = _
      rw [hleaf, hclear v hv]

theorem loadFromFile_elsewhere (hw : c.table.Wf) (hm : c.kernel.memory.Sound) (hva : a.va < 2 ^ 64)
    (h : loadFromFile a.trap c = .ok c') :
    c'.table.Wf ∧ ∀ v, v ≠ vpn a.va → c'.table.leaf v = c.table.leaf v := by
  unfold loadFromFile at h
  cases hf : a.namei c.proc.name with
  | none =>
    simp only [trap_namei, hf] at h
    cases h
  | some f =>
    simp only [trap_namei, hf] at h
    split_ifs at h
    cases hseg : findSegment f (Elfhdr.ofBytes (readi f 0 sizeofElfhdr a.trap.elf).2)
      a.trap.alignedAddr
      (List.range (Elfhdr.ofBytes (readi f 0 sizeofElfhdr a.trap.elf).2).phnum) a.trap.ph with
    | none =>
      simp only [hseg] at h
      cases h
      exact ⟨hw, fun _ _ => rfl⟩
    | some ph =>
      simp only [hseg] at h
      obtain ⟨⟨sz, m, pt⟩, halloc, h⟩ := bind_ok_iff.mp h
      simp only at h
      split_ifs at h
      obtain ⟨⟨loaded, m₁⟩, -, h⟩ := bind_ok_iff.mp h
      simp only at h
      split_ifs at h
      cases h
      obtain ⟨-, hspec⟩ := @uvmalloc_pageAddr a c.running (flags2perm ph.flags) _ _ hw hm hva
      obtain ⟨hwf, ⟨-, -, pa, taken, -, -, -, hleaf⟩ | ⟨-, hleaf, -⟩⟩ := hspec sz m pt halloc
      · refine ⟨hwf, fun v hv => ?_⟩
        show pt.leaf v = _
        rw [hleaf, Function.update_of_ne hv]
      · refine ⟨hwf, fun v _ => ?_⟩
        show pt.leaf v = _
        rw [hleaf]

theorem pageFaultHandler_elsewhere (hw : c.table.Wf) (hm : c.kernel.memory.Sound)
    (hva : a.va < 2 ^ 64) (hk : pageIndex c.proc.heapTracker a.pageAddr = none)
    (h : pageFaultHandler a.trap c = .ok c') :
    c'.table.Wf ∧ ∀ v, v ≠ vpn a.va → c'.table.leaf v = c.table.leaf v := by
  unfold pageFaultHandler at h
  simp only [trap_alignedAddr, hk] at h
  obtain ⟨cow, -, h⟩ := bind_ok_iff.mp h
  cases cow with
  | true => exact copyOnWrite_elsewhere hw hm hva h
  | false => exact loadFromFile_elsewhere hw hm hva h

end Handler

end AdvancedOperatingSystems.DemandPaging
