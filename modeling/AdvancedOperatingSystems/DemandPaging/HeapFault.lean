import AdvancedOperatingSystems.DemandPaging.HeapRegion

/-!
# Faults on the pages of a heap region

The handler makes room, brings a page into memory and notes the time. Each part is
described once, for every kernel that can supply the pages it takes.
-/

namespace AdvancedOperatingSystems.DemandPaging

open Foundations Riscv Riscv.PageTable

/-- The state `makeRoom` leaves after an eviction. -/
def Cpu.roomMade (c : Cpu) (v : ℕ) (data : Page) (m : Memory) : Cpu :=
  let c' := c.evicted v data m
  { c' with proc := { c'.proc with residentHeapPages := c.proc.residentHeapPages - 1 } }

/-- What `makeRoom` does to a region from page `b` on with `t` touched pages. -/
inductive MadeRoom (b t : ℕ) (c : Cpu) : Cpu → Prop
  | kept (room : c.proc.residentHeapPages < MAXRESHEAP) : MadeRoom b t c c
  | evicted {v pa page : ℕ} {data : Page} {m : Memory}
      (full : c.proc.residentHeapPages = MAXRESHEAP) (lt : v < t)
      (loaded : (c.proc.heapTracker v).loaded = false)
      (addr : (c.proc.heapTracker v).addr = PGSIZE * (b + v))
      (leaf : c.table.leaf (b + v) = some (permW.pte pa))
      (takes : Takes [page] c.kernel.memory m)
      (copy : pa ≠ 0 → pa ∉ c.kernel.memory.freelist → data = c.kernel.memory.page pa) :
      MadeRoom b t c (c.roomMade v data m)

/-- The pages `makeRoom` takes. -/
def roomPages (p : Proc) : ℕ := if p.residentHeapPages = MAXRESHEAP then 1 else 0

/-- The pages the handler takes for a fault on a tracked page. -/
def faultPages (p : Proc) (pt : PageTable ℕ) (addr : ℕ) : ℕ :=
  match pageIndex p.heapTracker addr with
  | none => 0
  | some i => roomPages p +
      if (p.heapTracker i).loaded then 2 + missingTables pt addr else 1 + missingTables pt p.sz

theorem faultPages_eq {p : Proc} {pt : PageTable ℕ} {addr i : ℕ}
    (h : pageIndex p.heapTracker addr = some i) : faultPages p pt addr = roomPages p +
      if (p.heapTracker i).loaded then 2 + missingTables pt addr
      else 1 + missingTables pt p.sz := by
  unfold faultPages
  rw [h]

section MadeRoom

variable {b n t : ℕ} {c c' : Cpu}

theorem makeRoom_ok {k : ℕ} (H : Heap b n t c.proc c.table)
    (hm : c.kernel.memory.Supplies (roomPages c.proc + k)) :
    ∃ c', makeRoom c = .ok c' ∧ MadeRoom b t c c' ∧ Heap b n t c'.proc c'.table ∧
      c'.proc.residentHeapPages < MAXRESHEAP ∧ c'.kernel.memory.Supplies k := by
  unfold roomPages at hm
  by_cases hfull : c.proc.residentHeapPages = MAXRESHEAP
  · obtain ⟨v, hv, hvict, hl⟩ := H.victim hfull
    have hvn : v < n := lt_of_lt_of_le hv H.t_le
    have haddr := H.tracked v hvn
    obtain ⟨pa, hleaf⟩ := H.resident v hv hl
    have hle : b + v ≤ trapPage := by have := H.top; omega
    rw [if_pos hfull] at hm
    have hne : c.kernel.memory.freelist ≠ [] := by
      intro hnil
      have := hm.enough
      simp [hnil] at this
    obtain ⟨page, data, m, hev, htake, hcopy⟩ := evictPageToDisk_eq hvict H.wf
      (by rw [haddr]; exact mul_aligned _) (by rw [haddr]; exact mul_lt_MAXVA hle)
      (by rw [haddr, vpn_mul]; exact hleaf) hne
    have hheap : Heap b n t (c.roomMade v data m).proc (c.table.set (PGSIZE * (b + v)) none) :=
      H.evict hv hl rfl rfl rfl
    refine ⟨c.roomMade v data m, ?_, .evicted hfull hv hl haddr hleaf htake hcopy, ?_, ?_, ?_⟩
    · unfold makeRoom
      rw [if_pos hfull, hev]
      rfl
    · rw [← haddr] at hheap
      exact hheap
    · show c.proc.residentHeapPages - 1 < MAXRESHEAP
      rw [hfull]
      decide
    · have hmem : (c.roomMade v data m).kernel.memory = m := by
        simp [Cpu.roomMade, Cpu.evicted, writePage_eq]
      rw [hmem]
      exact htake.supplies hm
  · rw [if_neg hfull, Nat.zero_add] at hm
    have hroom := lt_of_le_of_ne H.room hfull
    exact ⟨c, by unfold makeRoom; rw [if_neg hfull], .kept hroom, H, hroom, hm⟩

namespace MadeRoom

theorem sz (h : MadeRoom b t c c') : c'.proc.sz = c.proc.sz := by
  cases h <;> rfl

theorem ticks (h : MadeRoom b t c c') : c'.kernel.ticks = c.kernel.ticks := by
  cases h with
  | kept => rfl
  | evicted => simp [Cpu.roomMade, Cpu.evicted, writePage_eq]

theorem missingTables (h : MadeRoom b t c c') (va : ℕ) :
    missingTables c'.table va = DemandPaging.missingTables c.table va := by
  cases h <;> rfl

theorem tracker (h : MadeRoom b t c c') {i : ℕ}
    (hi : t ≤ i ∨ (c.proc.heapTracker i).loaded = true) :
    c'.proc.heapTracker i = c.proc.heapTracker i := by
  cases h with
  | kept => rfl
  | @evicted v _ _ _ _ _ lt loaded =>
    have hne : i ≠ v := by
      rintro rfl
      rcases hi with hi | hi
      · omega
      · rw [loaded] at hi
        cases hi
    exact Heap.swapOut_apply hne

theorem leaf (h : MadeRoom b t c c') {j : ℕ} {e : Pte} (hj : c'.table.leaf j = some e) :
    c.table.leaf j = some e := by
  cases h with
  | kept => exact hj
  | @evicted v =>
    simp only [Cpu.roomMade, Cpu.evicted, set_leaf, Function.update_apply] at hj
    split_ifs at hj
    exact hj

end MadeRoom

end MadeRoom

section Grow

variable {b n t : ℕ} {c : Cpu}

/-- The state after the next page of the region has been mapped. -/
def Cpu.grown (c : Cpu) (sz : ℕ) (s : Space) : Cpu :=
  ({ c with proc := { c.proc with sz := sz } } : Cpu).setSpace s

theorem growHeap_ok (H : Heap b n t c.proc c.table) (hlt : b + t < trapPage)
    (hm : c.kernel.memory.Supplies (1 + missingTables c.table c.proc.sz)) :
    ∃ pa taken m pt, growHeap c = .ok (c.grown (PGSIZE * (b + (t + 1))) (m, pt)) ∧
      Takes (pa :: taken) c.kernel.memory m ∧
      taken.length = missingTables c.table c.proc.sz ∧ m.page pa = (fun _ => 0) ∧
      pt.leaf = Function.update c.table.leaf (b + t) (some (permW.pte pa)) ∧ pt.Wf := by
  have hun : c.table.leaf (vpn c.proc.sz) = none := by
    rw [H.sz, vpn_mul]
    exact H.above t le_rfl hlt
  obtain ⟨pa, taken, m, pt, halloc, htake, hlen, hzero, hleaf, hwf⟩ :=
    @uvmalloc_page c.running permW _ _ _ H.wf (by rw [H.sz]; exact mul_aligned _)
      (by rw [H.sz]; exact mul_lt_MAXVA hlt.le) hun hm.nodup hm.enough
  refine ⟨pa, taken, m, pt, ?_, htake, hlen, hzero, ?_, hwf⟩
  · have hsz : c.proc.sz + PGSIZE = PGSIZE * (b + (t + 1)) := by rw [H.sz]; ring
    unfold growHeap Cpu.space
    rw [halloc, ← hsz]
    rfl
  · rw [hleaf, H.sz, vpn_mul]

/-- The region cannot grow into the trapframe. -/
theorem growHeap_trapframe (H : Heap b n t c.proc c.table) (htop : b + t = trapPage)
    (hm : c.kernel.memory.freelist ≠ []) : growHeap c = .error "mappages: remap" := by
  obtain ⟨e, he, _⟩ := H.trapframe
  have hmap : c.table.Mapped c.proc.sz := by
    rw [Mapped, H.sz, vpn_mul, htop, he]
    rfl
  unfold growHeap Cpu.space
  rw [uvmalloc_page_mapped H.wf (by rw [H.sz]; exact mul_aligned _)
    (by rw [H.sz]; exact mul_lt_MAXVA htop.le) hmap hm]
  rfl

end Grow

section Note

variable {b n t : ℕ} {c : Cpu}

theorem noteLoad_tracker {i : ℕ} {addr : ℕ} (hi : i < MAXHEAP)
    (haddr : (c.proc.heapTracker i).addr = addr)
    (hne : ∀ j, j ≠ i → (c.proc.heapTracker j).addr ≠ addr) :
    (noteLoad addr c).proc.heapTracker = Function.update c.proc.heapTracker i
      { c.proc.heapTracker i with lastLoadTime := c.kernel.ticks.toNat } := by
  funext j
  by_cases hj : j = i
  · subst hj
    simp [noteLoad, hi, haddr]
  · simp [noteLoad, hne j hj, Function.update_of_ne hj]

end Note

theorem ticks_lt_unset (ticks : BitVec 32) : ticks.toNat < unset := by
  have := ticks.isLt
  simp only [unset]
  omega

section Handle

variable {b n t i : ℕ} {c : Cpu}

theorem heapHandle_loaded {c₁ c₂ : Cpu} {addr : ℕ} (hroom : makeRoom c = .ok c₁)
    (hl : (c₁.proc.heapTracker i).loaded = true)
    (hret : retrievePageFromDisk addr c₁ = .ok c₂) :
    heapHandle addr i c = .ok (noteLoad addr c₂) := by
  rw [heapHandle, hroom, ok_bind, if_pos hl, hret, ok_bind]
  rfl

/-- The first touch of a page of the region: the page above the touched ones is
mapped and zero, whichever page was asked for. -/
theorem heapHandle_untouched (H : Heap b n t c.proc c.table) (hi : t ≤ i) (hin : i < n)
    (hlt : b + t < trapPage)
    (hm : c.kernel.memory.Supplies (faultPages c.proc c.table (PGSIZE * (b + i)))) :
    ∃ c₁ pa taken m pt, MadeRoom b t c c₁ ∧ Heap b n t c₁.proc c₁.table ∧
      c₁.proc.residentHeapPages < MAXRESHEAP ∧ c₁.kernel.memory.Supplies 0 ∧
      heapHandle (PGSIZE * (b + i)) i c =
        .ok (noteLoad (PGSIZE * (b + i)) (c₁.grown (PGSIZE * (b + (t + 1))) (m, pt))) ∧
      Takes (pa :: taken) c₁.kernel.memory m ∧ m.page pa = (fun _ => 0) ∧
      pt.leaf = Function.update c₁.table.leaf (b + t) (some (permW.pte pa)) ∧ pt.Wf := by
  have hfresh := (H.fresh i hi hin).1
  rw [faultPages_eq (H.pageIndex_eq hin), hfresh] at hm
  simp only [Bool.false_eq_true, ↓reduceIte] at hm
  obtain ⟨c₁, hroom, hmade, H₁, hlt₁, hm₁⟩ := makeRoom_ok H hm
  rw [← hmade.missingTables, ← hmade.sz] at hm₁
  obtain ⟨pa, taken, m, pt, hgrow, htake, _, hzero, hleaf, hwf⟩ := growHeap_ok H₁ hlt hm₁
  refine ⟨c₁, pa, taken, m, pt, hmade, H₁, hlt₁, hm₁.mono (Nat.zero_le _), ?_, htake, hzero,
    hleaf, hwf⟩
  have htr : (c₁.proc.heapTracker i).loaded = false := by
    rw [hmade.tracker (Or.inl hi)]
    exact hfresh
  simp only [heapHandle, hroom, bind, Except.bind, htr, Bool.false_eq_true, ↓reduceIte, hgrow]
  rfl

theorem heapHandle_trapframe (H : Heap b n t c.proc c.table) (hi : t ≤ i) (hin : i < n)
    (htop : b + t = trapPage)
    (hm : c.kernel.memory.Supplies (faultPages c.proc c.table (PGSIZE * (b + i)))) :
    heapHandle (PGSIZE * (b + i)) i c = .error "mappages: remap" := by
  have hfresh := (H.fresh i hi hin).1
  rw [faultPages_eq (H.pageIndex_eq hin), hfresh] at hm
  simp only [Bool.false_eq_true, ↓reduceIte] at hm
  obtain ⟨c₁, hroom, hmade, H₁, _, hm₁⟩ := makeRoom_ok H hm
  have hne : c₁.kernel.memory.freelist ≠ [] := by
    intro hnil
    have := hm₁.enough
    simp only [hnil, List.length_nil] at this
    omega
  have htr : (c₁.proc.heapTracker i).loaded = false := by
    rw [hmade.tracker (Or.inl hi)]
    exact hfresh
  simp only [heapHandle, hroom, bind, Except.bind, htr, Bool.false_eq_true, ↓reduceIte,
    growHeap_trapframe H₁ htop hne]

/-- A fault on a page that is on disk brings it back. -/
theorem heapHandle_swapped (H : Heap b n t c.proc c.table) (hi : i < t)
    (hl : (c.proc.heapTracker i).loaded = true)
    (hm : c.kernel.memory.Supplies (faultPages c.proc c.table (PGSIZE * (b + i)))) :
    ∃ c₁ block page pa taken m pt, MadeRoom b t c c₁ ∧ Heap b n t c₁.proc c₁.table ∧
      c₁.proc.residentHeapPages < MAXRESHEAP ∧ c₁.kernel.memory.Supplies 0 ∧
      (c₁.proc.heapTracker i).startblock = some block ∧
      heapHandle (PGSIZE * (b + i)) i c =
        .ok (noteLoad (PGSIZE * (b + i)) (c₁.retrieved i block (m, pt))) ∧
      Takes (page :: pa :: taken) c₁.kernel.memory m ∧
      (∀ j < PGSIZE, m.page pa j = readPage c₁.kernel.disk block j) ∧
      pt.leaf = Function.update c₁.table.leaf (b + i) (some (permW.pte pa)) ∧ pt.Wf := by
  have hin : i < n := lt_of_lt_of_le hi H.t_le
  have hi' : i < MAXHEAP := lt_of_lt_of_le hin H.n_le
  rw [faultPages_eq (H.pageIndex_eq hin), hl] at hm
  simp only [↓reduceIte] at hm
  obtain ⟨c₁, hroom, hmade, H₁, hlt₁, hm₁⟩ := makeRoom_ok H hm
  rw [← hmade.missingTables] at hm₁
  have htr : c₁.proc.heapTracker i = c.proc.heapTracker i := hmade.tracker (Or.inr hl)
  have hl₁ : (c₁.proc.heapTracker i).loaded = true := by rw [htr, hl]
  obtain ⟨hun, block, hblock⟩ := H₁.swapped i hi hl₁
  have hle : b + i ≤ trapPage := by have := H.top; omega
  obtain ⟨page, pa, taken, m, pt, hret, htake, _, hdata, hleaf, hwf⟩ :=
    retrievePageFromDisk_eq hi' (H₁.tracked i hin) hl₁ hblock (fun j hj => H₁.addr_ne hj) H₁.wf
      (mul_aligned _) (mul_lt_MAXVA hle) (by rw [vpn_mul]; exact hun) hm₁
  rw [vpn_mul] at hleaf
  exact ⟨c₁, block, page, pa, taken, m, pt, hmade, H₁, hlt₁, hm₁.mono (Nat.zero_le _), hblock,
    heapHandle_loaded hroom hl₁ hret, htake, hdata, hleaf, hwf⟩

theorem Heap.grown {c₁ : Cpu} (H : Heap b n t c₁.proc c₁.table) (hin : t < n)
    (hlt : b + t < trapPage) (hroom : c₁.proc.residentHeapPages < MAXRESHEAP) {pa : ℕ}
    {m : Memory} {pt : PageTable ℕ}
    (hleaf : pt.leaf = Function.update c₁.table.leaf (b + t) (some (permW.pte pa)))
    (hwf : pt.Wf) :
    Heap b n (t + 1)
      (noteLoad (PGSIZE * (b + t)) (c₁.grown (PGSIZE * (b + (t + 1))) (m, pt))).proc pt := by
  have htr := noteLoad_tracker (c := c₁.grown (PGSIZE * (b + (t + 1))) (m, pt))
    (lt_of_lt_of_le hin H.n_le) (H.tracked t hin) fun j hj => H.addr_ne hj
  exact H.load (e := { c₁.proc.heapTracker t with lastLoadTime := c₁.kernel.ticks.toNat })
    (Or.inr ⟨rfl, rfl⟩) hin hlt hroom (H.tracked t hin) (H.fresh t le_rfl hin).1
    (ticks_lt_unset _) htr rfl rfl hleaf hwf

/-- The region after a page has come back from disk. -/
theorem Heap.retrieved {c₁ : Cpu} (H : Heap b n t c₁.proc c₁.table) (hi : i < t)
    (hl : (c₁.proc.heapTracker i).loaded = true)
    (hroom : c₁.proc.residentHeapPages < MAXRESHEAP) {block pa : ℕ} {m : Memory}
    {pt : PageTable ℕ}
    (hleaf : pt.leaf = Function.update c₁.table.leaf (b + i) (some (permW.pte pa)))
    (hwf : pt.Wf) :
    Heap b n t (noteLoad (PGSIZE * (b + i)) (c₁.retrieved i block (m, pt))).proc pt := by
  have hin : i < n := lt_of_lt_of_le hi H.t_le
  have haddr : ∀ j, (swapIn c₁.proc.heapTracker i j).addr = (c₁.proc.heapTracker j).addr := by
    intro j
    by_cases hj : j = i
    · subst hj
      simp [swapIn]
    · simp [swapIn, Function.update_of_ne hj]
  have htr := @noteLoad_tracker (c₁.retrieved i block (m, pt)) i
    (PGSIZE * (b + i)) (lt_of_lt_of_le hin H.n_le)
    ((haddr i).trans (H.tracked i hin)) fun j hj => by
      show (swapIn c₁.proc.heapTracker i j).addr ≠ _
      rw [haddr]
      exact H.addr_ne hj
  have htr' : (noteLoad (PGSIZE * (b + i)) (c₁.retrieved i block (m, pt))).proc.heapTracker =
      Function.update c₁.proc.heapTracker i
        { c₁.proc.heapTracker i with
          loaded := false, lastLoadTime := c₁.kernel.ticks.toNat } := by
    rw [htr]
    simp [Cpu.retrieved, swapIn]
  exact H.load (e := { c₁.proc.heapTracker i with
      loaded := false, lastLoadTime := c₁.kernel.ticks.toNat })
    (Or.inl ⟨rfl, hi, hl⟩) H.t_le H.top hroom (H.tracked i hin) rfl
    (ticks_lt_unset _) htr' H.sz rfl hleaf hwf

end Handle

end AdvancedOperatingSystems.DemandPaging
