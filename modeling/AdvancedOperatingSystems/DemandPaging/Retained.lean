import AdvancedOperatingSystems.DemandPaging.HeapAccount
import AdvancedOperatingSystems.DemandPaging.SwapArea
import AdvancedOperatingSystems.DemandPaging.Tidy

/-!
# A page of the heap through the faults of its process

A process finds a page of its heap in memory or on disk, or it has not touched it yet. A fault
moves pages from one of these to another. What the process finds stays the same as long as an
eviction writes a page that is mapped and over no block of the process, and the page of the
fault is fetched.
-/

namespace AdvancedOperatingSystems.DemandPaging

open Foundations Riscv Riscv.PageTable

section Definitions

def NotOnDisk (tracker : ℕ → HeapPage) (addr : ℕ) : Prop :=
  ∀ k < MAXHEAP, (tracker k).addr = addr → (tracker k).loaded = false

/-- The page is on disk, and the entries of the tracker agree on where. -/
structure OnDisk (tracker : ℕ → HeapPage) (addr b : ℕ) : Prop where
  entry : ∃ k < MAXHEAP, (tracker k).addr = addr ∧ (tracker k).loaded = true
  block : ∀ k < MAXHEAP, (tracker k).addr = addr → (tracker k).loaded = true →
    (tracker k).startblock = some b

/-- Where a process finds the data of a page. -/
inductive Cpu.Finds (c : Cpu) (addr : ℕ) (data : Page) : Prop
  | mapped (e : Pte) (below : addr < MAXVA) (leaf : c.table.leaf (vpn addr) = some e)
      (user : e.u = true) (readable : e.r = true) (off : NotOnDisk c.proc.heapTracker addr)
      (bytes : ∀ j < PGSIZE, c.kernel.memory.page e.pa j = data j)
  | untouched (leaf : c.table.leaf (vpn addr) = none)
      (tracked : (pageIndex c.proc.heapTracker addr).isSome)
      (off : NotOnDisk c.proc.heapTracker addr) (bytes : ∀ j < PGSIZE, 0 = data j)
  | swapped (b : ℕ) (leaf : c.table.leaf (vpn addr) = none) (on : OnDisk c.proc.heapTracker addr b)
      (bytes : ∀ j < PGSIZE, readPage c.kernel.disk b j = data j)

/-- Four blocks of the area that do not overlap with four others. -/
def Apart (b b' : ℕ) : Prop := b + 4 ≤ b' ∨ b' + 4 ≤ b

/-- The block an eviction takes is none of those of the process. -/
def BlocksSpared (tracker : ℕ → HeapPage) (psaTracker : ℕ → Bool) : Prop :=
  ∀ k < MAXHEAP, ∀ b, (tracker k).block = some b → Apart b (freeBlock psaTracker)

/-- The branch of the handler for tracked pages fetches the page of the fault: it returns and
maps that page, a page that it evicts is mapped, and where an entry has the page on disk, the
entry of the fault does. -/
structure Fetches (a : Access) (c : Cpu) (k : ℕ) : Prop where
  returns : HeapReturns a c k
  maps : HeapMaps a c k
  victim : ∀ v, evictee c = some v → c.table.Mapped (c.proc.heapTracker v).addr
  entry : ∀ j < MAXHEAP, (c.proc.heapTracker j).addr = a.pageAddr →
    (roomTracker c j).loaded = true → (roomTracker c k).loaded = true

/-- The processor once there is room, but for the page of the copy. -/
def Cpu.roomed (c : Cpu) : Cpu where
  kernel := { c.kernel with disk := roomDisk c }
  proc := { c.proc with heapTracker := roomTracker c }
  table := roomTable c

end Definitions

section Disk

variable {t : Trap} {a : Access} {c c' : Cpu}

/-- The disk as it was, or with a page in the block that an eviction takes. -/
def DiskWritten (c c' : Cpu) : Prop :=
  c'.kernel.disk = c.kernel.disk ∨ Crowded c ∧
    ∃ data, c'.kernel.disk = (writePage (freeBlock c.kernel.psaTracker) data c.kernel).disk

theorem evictPageToDisk_disk (h : evictPageToDisk c = .ok c') : ∃ data,
    c'.kernel.disk = (writePage (freeBlock c.kernel.psaTracker) data c.kernel).disk := by
  unfold evictPageToDisk at h
  cases hv : victimPageIndex c.proc.heapTracker with
  | none =>
    simp only [hv] at h
    cases h
  | some v =>
    simp only [hv] at h
    cases hk : c.kernel.memory.kalloc with
    | none =>
      simp only [hk] at h
      cases h
    | some q =>
      obtain ⟨page, m⟩ := q
      simp only [hk] at h
      obtain ⟨s, -, h⟩ := bind_ok_iff.mp h
      cases h
      refine ⟨(copyin c.table page (c.proc.heapTracker v).addr m).2.page page, ?_⟩
      simp only [Cpu.setSpace, writePage_eq]

theorem makeRoom_disk (h : makeRoom c = .ok c') : DiskWritten c c' := by
  unfold makeRoom at h
  split_ifs at h with hfull
  · obtain ⟨c₁, hevict, h⟩ := bind_ok_iff.mp h
    cases h
    obtain ⟨data, hdata⟩ := evictPageToDisk_disk hevict
    exact Or.inr ⟨hfull, data, hdata⟩
  · cases h
    exact Or.inl rfl

theorem retrieveBlock_disk {addr block : ℕ} (h : retrieveBlock addr block c = .ok c') :
    c'.kernel.disk = c.kernel.disk := by
  unfold retrieveBlock at h
  cases hk : c.kernel.memory.kalloc with
  | none =>
    simp only [hk] at h
    cases h
  | some q =>
    simp only [hk] at h
    obtain ⟨r, -, h⟩ := bind_ok_iff.mp h
    cases h
    rfl

theorem retrievePageFromDisk_disk {addr : ℕ} (h : retrievePageFromDisk addr c = .ok c') :
    c'.kernel.disk = c.kernel.disk := by
  rw [retrievePageFromDisk] at h
  generalize retrieveScan addr c.proc.heapTracker = scan at h
  obtain ⟨found, tracker⟩ := scan
  cases found with
  | none =>
    cases h
    rfl
  | some block =>
    have hdisk := retrieveBlock_disk h
    exact hdisk

theorem heapHandle_room_disk {addr k : ℕ} (h : heapHandle addr k c = .ok c') :
    ∃ c₁, makeRoom c = .ok c₁ ∧ c'.kernel.disk = c₁.kernel.disk := by
  obtain ⟨c₁, hroom, h⟩ := bind_ok_iff.mp h
  refine ⟨c₁, hroom, ?_⟩
  by_cases hloaded : (c₁.proc.heapTracker k).loaded = true
  · simp only [if_pos hloaded] at h
    obtain ⟨c₂, hfetch, h⟩ := bind_ok_iff.mp h
    cases h
    have hdisk := retrievePageFromDisk_disk hfetch
    exact hdisk
  · simp only [if_neg hloaded] at h
    obtain ⟨c₂, hgrow, h⟩ := bind_ok_iff.mp h
    cases h
    obtain ⟨⟨sz, s⟩, -, hgrow⟩ := bind_ok_iff.mp hgrow
    cases hgrow
    rfl

theorem heapHandle_disk {addr k : ℕ} (ht : c.Tidy) (h : heapHandle addr k c = .ok c') :
    c'.kernel.disk = roomDisk c := by
  obtain ⟨c₁, hroom, hdisk⟩ := heapHandle_room_disk h
  rw [hdisk]
  exact ((makeRoom_spec ht.wf ht.sound).2 c₁ hroom).disk ht.used

theorem pageFaultHandler_disk (h : pageFaultHandler t c = .ok c') :
    c'.kernel.disk = c.kernel.disk ∨
      (pageIndex c.proc.heapTracker t.alignedAddr).isSome ∧ DiskWritten c c' := by
  unfold pageFaultHandler at h
  cases hk : pageIndex c.proc.heapTracker t.alignedAddr with
  | some k =>
    simp only [hk] at h
    obtain ⟨c₁, hroom, hdisk⟩ := heapHandle_room_disk h
    refine Or.inr ⟨rfl, ?_⟩
    unfold DiskWritten
    rw [hdisk]
    exact makeRoom_disk hroom
  | none =>
    simp only [hk] at h
    obtain ⟨cow, -, h⟩ := bind_ok_iff.mp h
    cases cow with
    | true =>
      obtain ⟨s, rfl⟩ := copyOnWrite_space h
      exact Or.inl rfl
    | false =>
      obtain ⟨s, rfl⟩ := loadFromFile_space h
      exact Or.inl rfl

theorem access_disk {value : Option Byte} (h : access a c = .ok (value, c')) :
    c'.kernel.disk = c.kernel.disk ∨ attempt a c = none ∧
      (pageIndex c.proc.heapTracker a.pageAddr).isSome ∧ DiskWritten c c' := by
  obtain ⟨c₁, hfirst, hlast⟩ := access_cases h
  have hdisk : c'.kernel.disk = c₁.kernel.disk := by
    rcases hlast with rfl | ⟨value, hattempt⟩
    · rfl
    · rcases attempt_cases hattempt with rfl | ⟨e, data, -, -, rfl⟩ <;> rfl
  unfold DiskWritten
  rw [hdisk]
  rcases hfirst with rfl | ⟨hnone, hrun⟩
  · exact Or.inl rfl
  · rcases pageFaultHandler_disk hrun with hsame | ⟨hsome, hwritten⟩
    · exact Or.inl hsame
    · exact Or.inr ⟨hnone, hsome, hwritten⟩

theorem growproc_disk {bytes : Int} {ok : Bool} (h : growproc bytes c = .ok (ok, c')) :
    c'.kernel.disk = c.kernel.disk := by
  unfold growproc at h
  split_ifs at h
  · simp only at h
    split_ifs at h
    · obtain ⟨⟨sz, space⟩, -, h⟩ := bind_ok_iff.mp h
      simp only at h
      split_ifs at h <;>
        · cases h
          rfl
    · obtain ⟨⟨sz, space⟩, -, h⟩ := bind_ok_iff.mp h
      cases h
      rfl
    · cases h
      rfl
  · obtain ⟨tracker, -, h⟩ := bind_ok_iff.mp h
    cases h
    rfl

theorem DiskWritten.page {b j : ℕ} (h : DiskWritten c c')
    (hb : Crowded c → Apart b (freeBlock c.kernel.psaTracker)) (hj : j < PGSIZE) :
    readPage c'.kernel.disk b j = readPage c.kernel.disk b j := by
  rcases h with hsame | ⟨hfull, data, hwritten⟩
  · rw [hsame]
  · rw [hwritten]
    exact readPage_writePage_of_disjoint hj (hb hfull)

end Disk

section Trackers

variable {tracker tracker' : ℕ → HeapPage} {addr b k : ℕ}

theorem pageIndex_isSome : (pageIndex tracker addr).isSome ↔
    ∃ k < MAXHEAP, (tracker k).addr = addr := by
  constructor
  · intro h
    obtain ⟨k, hk⟩ := Option.isSome_iff_exists.mp h
    exact ⟨k, pageIndex_some hk⟩
  · rintro ⟨k, hk, haddr⟩
    by_contra hno
    rw [Option.not_isSome_iff_eq_none, pageIndex_eq_none] at hno
    exact hno k hk haddr

theorem OnDisk.held (h : OnDisk tracker addr b) : ∃ k < MAXHEAP, (tracker k).block = some b := by
  obtain ⟨k, hk, haddr, hloaded⟩ := h.entry
  refine ⟨k, hk, ?_⟩
  rw [HeapPage.block, if_pos hloaded]
  exact h.block k hk haddr hloaded

theorem OnDisk.scan (h : OnDisk tracker addr b) (hsome : (retrieveScan addr tracker).1.isSome) :
    (retrieveScan addr tracker).1 = some b := by
  obtain ⟨b', hb'⟩ := Option.isSome_iff_exists.mp hsome
  obtain ⟨k, hk, haddr, hblock⟩ := retrieveScan_found hb'
  unfold HeapPage.block at hblock
  split_ifs at hblock with hloaded
  rw [hb', ← h.block k hk haddr hloaded, hblock]

theorem NotOnDisk.congr (h : NotOnDisk tracker addr)
    (hsame : ∀ k < MAXHEAP, (tracker' k).addr = addr → (tracker' k).loaded = true →
      tracker' k = tracker k) : NotOnDisk tracker' addr := by
  intro k hk haddr
  cases hloaded : (tracker' k).loaded with
  | false => rfl
  | true =>
    have heq := hsame k hk haddr hloaded
    rw [heq] at haddr hloaded
    rw [h k hk haddr] at hloaded
    cases hloaded

theorem OnDisk.congr (h : OnDisk tracker addr b)
    (hold : ∀ k < MAXHEAP, (tracker k).addr = addr → tracker' k = tracker k)
    (hsame : ∀ k < MAXHEAP, (tracker' k).addr = addr → (tracker' k).loaded = true →
      tracker' k = tracker k) : OnDisk tracker' addr b where
  entry := by
    obtain ⟨k, hk, haddr, hloaded⟩ := h.entry
    refine ⟨k, hk, ?_⟩
    rw [hold k hk haddr]
    exact ⟨haddr, hloaded⟩
  block := by
    intro k hk haddr hloaded
    have heq := hsame k hk haddr hloaded
    rw [heq] at haddr hloaded ⊢
    exact h.block k hk haddr hloaded

end Trackers

section Process

variable {a : Access} {c c' : Cpu} {addr k : ℕ} {data : Page}

/-- What a process finds depends on its entry for the page, the frame of it and the entries of
the tracker for the page. -/
theorem Cpu.Finds.congr (F : c.Finds addr data)
    (hleaf : c'.table.leaf (vpn addr) = c.table.leaf (vpn addr))
    (hold : ∀ k < MAXHEAP, (c.proc.heapTracker k).addr = addr →
      c'.proc.heapTracker k = c.proc.heapTracker k)
    (hsame : ∀ k < MAXHEAP, (c'.proc.heapTracker k).addr = addr →
      (c'.proc.heapTracker k).loaded = true → c'.proc.heapTracker k = c.proc.heapTracker k)
    (hpage : ∀ e, c.table.leaf (vpn addr) = some e → e.u = true →
      c'.kernel.memory.page e.pa = c.kernel.memory.page e.pa)
    (hdisk : ∀ b, (∃ k < MAXHEAP, (c.proc.heapTracker k).block = some b) → ∀ j < PGSIZE,
      readPage c'.kernel.disk b j = readPage c.kernel.disk b j) : c'.Finds addr data := by
  cases F with
  | mapped e below leaf user readable off bytes =>
    refine .mapped e below (hleaf.trans leaf) user readable (off.congr hsame) fun j hj => ?_
    rw [hpage e leaf user]
    exact bytes j hj
  | untouched leaf tracked off bytes =>
    refine .untouched (hleaf.trans leaf) (pageIndex_isSome.mpr ?_) (off.congr hsame) bytes
    obtain ⟨k, hk, haddr⟩ := pageIndex_isSome.mp tracked
    exact ⟨k, hk, by rw [hold k hk haddr, haddr]⟩
  | swapped b leaf on bytes =>
    refine .swapped b (hleaf.trans leaf) (on.congr hold hsame) fun j hj => ?_
    rw [hdisk b on.held j hj]
    exact bytes j hj

theorem swapOut_entry {tracker : ℕ → HeapPage} {v b : ℕ} (hne : (tracker v).addr ≠ addr)
    (h : (tracker k).addr = addr ∨ (swapOut tracker v b k).addr = addr) :
    swapOut tracker v b k = tracker k := by
  by_cases hk : k = v
  · subst hk
    simp [swapOut, hne] at h
  · exact Function.update_of_ne hk _ _

/-- An eviction moves the page to disk, or leaves it where it is. -/
theorem Cpu.Finds.roomed (F : c.Finds addr data) (ht : c.Tidy) (haligned : addr % PGSIZE = 0)
    (hevict : EvictionReturns c)
    (hvictim : ∀ v, evictee c = some v → c.table.Mapped (c.proc.heapTracker v).addr)
    (hspared : Crowded c → BlocksSpared c.proc.heapTracker c.kernel.psaTracker) :
    c.roomed.Finds addr data := by
  cases hev : evictee c with
  | none =>
    have hsame : c.roomed = c := by
      simp only [Cpu.roomed, roomTable, roomTracker, roomDisk, hev]
    rw [hsame]
    exact F
  | some v =>
    have hmapped := hvictim v hev
    unfold evictee at hev
    split_ifs at hev with hfull
    obtain ⟨v', hv', -, hun⟩ := hevict hfull
    obtain rfl := Option.some.inj (hev.symm.trans hv')
    obtain ⟨hlt, hloaded, -⟩ := victimPageIndex_iff.mp hev
    have hev' : evictee c = some v := by rw [evictee, if_pos hfull, hev]
    have htable : c.roomed.table.leaf =
        Function.update c.table.leaf (vpn (c.proc.heapTracker v).addr) none := by
      simp only [Cpu.roomed, roomTable, hev', set_leaf]
    have htracker : c.roomed.proc.heapTracker =
        swapOut c.proc.heapTracker v (freeBlock c.kernel.psaTracker) := by
      simp only [Cpu.roomed, roomTracker, hev']
    have hdisk : c.roomed.kernel.disk =
        (writePage (freeBlock c.kernel.psaTracker) (evictedPage c v) c.kernel).disk := by
      simp only [Cpu.roomed, roomDisk, hev']
    by_cases haddr : (c.proc.heapTracker v).addr = addr
    · -- the page itself goes to disk
      rw [haddr] at hmapped htable hun
      unfold Mapped at hmapped
      cases F with
      | untouched leaf =>
        rw [leaf] at hmapped
        cases hmapped
      | swapped b leaf =>
        rw [leaf] at hmapped
        cases hmapped
      | mapped e below leaf user readable off bytes =>
        refine .swapped (freeBlock c.kernel.psaTracker) ?_ ⟨⟨v, hlt, ?_⟩, fun k hk hkaddr hkl => ?_⟩
          fun j hj => ?_
        · rw [htable, Function.update_self]
        · rw [htracker]
          simp [swapOut, haddr]
        · rw [htracker] at hkaddr hkl ⊢
          by_cases hkv : k = v
          · subst hkv
            simp [swapOut]
          · simp only [swapOut, Function.update_of_ne hkv] at hkaddr hkl
            rw [off k hk hkaddr] at hkl
            cases hkl
        · have hwalk : c.table.walkaddr addr = e.pa := walkaddr_eq ht.wf below leaf user
          rw [hdisk, readPage_writePage hj, evictedPage, haddr, hwalk,
            if_neg (ht.frames _ e leaf)]
          exact bytes j hj
    · have hne : vpn addr ≠ vpn (c.proc.heapTracker v).addr :=
        fun heq => haddr (vpn_inj hun.1 haligned heq.symm)
      refine F.congr ?_ (fun k _ hk => ?_) (fun k _ hk _ => ?_) (fun _ _ _ => rfl) ?_
      · rw [htable, Function.update_of_ne hne]
      · rw [htracker]
        exact swapOut_entry haddr (Or.inl hk)
      · rw [htracker] at hk ⊢
        exact swapOut_entry haddr (Or.inr hk)
      · rintro b ⟨k, hk, hb⟩ j hj
        rw [hdisk]
        exact readPage_writePage_of_disjoint hj (hspared hfull k hk b hb)

theorem OnDisk.roomBlock {b : ℕ} (h : OnDisk (roomTracker c) a.pageAddr b)
    (hsome : (DemandPaging.roomBlock a c).isSome) : DemandPaging.roomBlock a c = some b := by
  rw [DemandPaging.roomBlock] at hsome ⊢
  exact h.scan hsome

/-- What the handler maps for a page of which the process finds the data. -/
theorem Cpu.Finds.heapData_eq (F : c.roomed.Finds a.pageAddr data)
    (hk : pageIndex c.proc.heapTracker a.pageAddr = some k) (hfetch : Fetches a c k) :
    ∀ j < PGSIZE, heapData a c k j = data j := by
  obtain ⟨hlt, haddr⟩ := pageIndex_some hk
  intro j hj
  unfold heapData
  cases F with
  | mapped e below leaf =>
    have hun : c.roomed.table.leaf (vpn a.pageAddr) = none := by
      rw [vpn_pageAddr]
      exact hfetch.maps.unmapped
    rw [hun] at leaf
    cases leaf
  | untouched leaf tracked off bytes =>
    have hloaded : (roomTracker c k).loaded = false := off k hlt (roomTracker_addr.trans haddr)
    rw [if_neg (by rw [hloaded]; decide)]
    exact bytes j hj
  | swapped b leaf on bytes =>
    obtain ⟨i, hi, hiaddr, hiloaded⟩ := on.entry
    have hloaded := hfetch.entry i hi (roomTracker_addr.symm.trans hiaddr) hiloaded
    have hmaps := hfetch.maps.2
    rw [if_pos hloaded] at hmaps
    rw [if_pos hloaded, on.roomBlock hmaps.1]
    exact bytes j hj

theorem Fetched.notOnDisk (H : Fetched a c k c') (hfetch : Fetches a c k) :
    NotOnDisk c'.proc.heapTracker a.pageAddr := by
  intro i hi haddr
  rw [H.tracker, notedEntry_addr] at haddr
  rw [H.tracker, notedEntry, if_pos ⟨hi, haddr⟩]
  cases hloaded : (roomTracker c i).loaded with
  | false => rfl
  | true => simp [hfetch.entry i hi haddr hloaded]

/-- A fetch maps the page of the fault with its data, and moves other pages at most to disk. -/
theorem Cpu.Finds.fetch (F : c.Finds addr data) (ht : c.Tidy) (hva : a.va < 2 ^ 64)
    (haligned : addr % PGSIZE = 0) (hk : pageIndex c.proc.heapTracker a.pageAddr = some k)
    (hfetch : Fetches a c k) (hfault : translate c.table a = none)
    (hspared : Crowded c → BlocksSpared c.proc.heapTracker c.kernel.psaTracker)
    (h : heapHandle a.pageAddr k c = .ok c') : c'.Finds addr data := by
  have F₁ := F.roomed ht haligned hfetch.returns.1 hfetch.victim hspared
  have H := heapHandle_fetched ht.wf ht.sound ht.sz hva h
  obtain ⟨hstep, ht', hleaf, hpage⟩ := heapHandle_room ht hva hk hfetch.maps h
  by_cases haddr : addr = a.pageAddr
  · subst haddr
    obtain ⟨hsome, hbytes⟩ := (heapHandle_spec (ht.faulting hva hfault)).2 c' h
    obtain ⟨pa, hpa⟩ := Option.isSome_iff_exists.mp (hsome.mpr hfetch.maps)
    obtain ⟨hmax, e, he, -, rfl⟩ := translate_entry hpa
    have hbelow : a.pageAddr < MAXVA := by
      simp only [Access.pageAddr, pgrounddown, MAXVA, PGSIZE] at *
      omega
    have hgrants : e.u = true ∧ e.r = true := by
      rcases hpage with hsame | ⟨pa, hnew⟩
      · rw [hsame, hfetch.maps.unmapped] at he
        cases he
      · rw [hnew] at he
        cases he
        exact ⟨rfl, rfl⟩
    refine .mapped e hbelow ?_ hgrants.1 hgrants.2 (H.notOnDisk hfetch) fun j hj => ?_
    · rw [vpn_pageAddr]
      exact he
    · rw [hbytes ht.nodup ht.used _ hpa j hj]
      exact F₁.heapData_eq hk hfetch j hj
  · have hne : vpn addr ≠ vpn a.va := by
      rw [← vpn_pageAddr]
      exact fun heq => haddr (vpn_inj haligned (pageAddr_aligned a) heq)
    have hentry : ∀ i, (c.proc.heapTracker i).addr = addr →
        c'.proc.heapTracker i = roomTracker c i := by
      intro i hi
      rw [H.tracker, notedEntry, if_neg]
      exact fun hcond => haddr (hi.symm.trans hcond.2)
    refine F₁.congr (hleaf _ hne) (fun i _ hi => ?_) (fun i _ hi _ => ?_) (fun e he _ => ?_) ?_
    · exact hentry i (roomTracker_addr.symm.trans hi)
    · rw [H.tracker, notedEntry_addr] at hi
      exact hentry i hi
    · have he₀ : c.table.leaf (vpn addr) = some e := by
        rcases roomTable_leaf (c := c) (vpn addr) with hnone | hsame
        · exact absurd (hnone.symm.trans he) (by simp)
        · exact hsame.symm.trans he
      exact hstep.space.draws.page _ (ht.used _ e he₀)
    · intro b _ j _
      rw [heapHandle_disk ht h]
      rfl

theorem loadFromFile_mapped (hf : Faulting a c) (hmapped : c.table.Mapped a.pageAddr)
    (h : loadFromFile a.trap c = .ok c') : c' = c := by
  obtain ⟨f, hfile, hmagic, hall⟩ := (loadFromFile_spec hf).1.mp ⟨c', h⟩
  cases hseg : faultSegment a f with
  | some ph => exact absurd hmapped (hall ph hseg).1.2.1
  | none =>
    rw [loadFromFile_none hfile hmagic hseg] at h
    exact (Except.ok.inj h).symm

/-- Only a store is taken for one to a shared page. -/
theorem cowFault_false (hop : ∀ value, a.op ≠ .store value) : cowFault a.trap c = .ok false := by
  unfold cowFault
  rw [if_neg]
  rw [trap_scause]
  cases hcase : a.op with
  | load => simp [Op.scause]
  | fetch => simp [Op.scause]
  | store value => exact absurd hcase (hop value)

theorem translate_load {pt : PageTable ℕ} {e : Pte} (hop : a.op = .load)
    (hbelow : a.pageAddr < MAXVA) (hleaf : pt.leaf (vpn a.va) = some e) (hu : e.u = true)
    (hr : e.r = true) : translate pt a = some e.pa := by
  have hsome := (translate_isSome hbelow hleaf).mpr (by
    rw [hop]
    simp [Op.permitted, hu, hr])
  obtain ⟨pa, hpa⟩ := Option.isSome_iff_exists.mp hsome
  rw [hpa, translate_pa hleaf hpa]

/-- A fault of a page that is not tracked leaves the others where they are, and so does one of
a page that the process has, unless it is of a store. -/
theorem Cpu.Finds.untracked (F : c.Finds addr data) (ht : c.Tidy) (hva : a.va < 2 ^ 64)
    (haligned : addr % PGSIZE = 0) (hk : pageIndex c.proc.heapTracker a.pageAddr = none)
    (hfault : translate c.table a = none)
    (hstore : ∀ value, a.op = .store value → vpn a.va ≠ vpn addr)
    (hstep : HandlerStep c c') (h : pageFaultHandler a.trap c = .ok c') :
    c'.Finds addr data := by
  have hproc := pageFaultHandler_proc (by rw [trap_alignedAddr, hk]) h
  have hdisk : c'.kernel.disk = c.kernel.disk := by
    refine (pageFaultHandler_disk h).resolve_right fun hwritten => ?_
    have hsome := hwritten.1
    rw [trap_alignedAddr, hk] at hsome
    cases hsome
  obtain ⟨hwf, helse⟩ := pageFaultHandler_elsewhere ht.wf ht.sound hva hk h
  have hkept : c'.table.leaf (vpn addr) = c.table.leaf (vpn addr) → c'.Finds addr data := by
    intro hleaf
    refine F.congr hleaf (fun i _ _ => by rw [hproc]) (fun i _ _ _ => by rw [hproc])
      (fun e he _ => hstep.space.draws.page _ (ht.used _ e he)) fun b _ j _ => by rw [hdisk]
  by_cases hv : vpn a.va = vpn addr
  · have haddr : addr = a.pageAddr :=
      vpn_inj haligned (pageAddr_aligned a) (by rw [vpn_pageAddr, hv])
    cases hop : a.op with
    | store value => exact absurd hv (hstore value hop)
    | load =>
      cases F with
      | mapped e below leaf user readable =>
        rw [haddr] at below leaf
        rw [vpn_pageAddr] at leaf
        rw [translate_load hop below leaf user readable] at hfault
        cases hfault
      | untouched _ tracked =>
        rw [haddr, hk] at tracked
        cases tracked
      | swapped b _ on =>
        obtain ⟨i, hi, hiaddr, -⟩ := on.entry
        exact absurd (hiaddr.trans haddr) (pageIndex_eq_none.mp hk i hi)
    | fetch =>
      apply hkept
      have hcow : cowFault a.trap c = .ok false := cowFault_false (by simp [hop])
      unfold pageFaultHandler at h
      simp only [trap_alignedAddr, hk, hcow] at h
      cases F with
      | mapped e below leaf =>
        have hmapped : c.table.Mapped a.pageAddr := by
          rw [← haddr, Mapped, leaf]
          rfl
        rw [loadFromFile_mapped (ht.faulting hva hfault) hmapped h]
      | untouched _ tracked =>
        rw [haddr, hk] at tracked
        cases tracked
      | swapped b _ on =>
        obtain ⟨i, hi, hiaddr, -⟩ := on.entry
        exact absurd (hiaddr.trans haddr) (pageIndex_eq_none.mp hk i hi)
  · exact hkept (helse _ (Ne.symm hv))

theorem attempt_none : attempt a c = none ↔ translate c.table a = none := by
  unfold attempt
  exact Option.map_eq_none_iff

theorem attempt_eq {value : Byte} (hop : ∀ value, a.op ≠ .store value)
    (h : attempt a c = some (value, c')) : c' = c := by
  obtain ⟨pa, -, h⟩ := Option.map_eq_some_iff.mp h
  cases hcase : a.op with
  | load =>
    simp only [hcase] at h
    cases h
    rfl
  | fetch =>
    simp only [hcase] at h
    cases h
    rfl
  | store value => exact absurd hcase (hop value)

/-- The frame of an entry that may be written is that of no other. -/
def WritableOnce (pt : PageTable ℕ) : Prop :=
  ∀ v e, pt.leaf v = some e → e.w = true → ∀ w e', pt.leaf w = some e' → e'.pa = e.pa → w = v

theorem Cpu.Finds.attempt {value : Byte} (F : c.Finds addr data) (honce : WritableOnce c.table)
    (hstore : ∀ value, a.op = .store value → vpn a.va ≠ vpn addr)
    (h : DemandPaging.attempt a c = some (value, c')) : c'.Finds addr data := by
  by_cases hop : ∀ value, a.op ≠ .store value
  · rw [attempt_eq hop h]
    exact F
  · push Not at hop
    obtain ⟨stored, hop⟩ := hop
    rcases attempt_cases h with rfl | ⟨e, written, he, hw, rfl⟩
    · exact F
    · refine F.congr rfl (fun _ _ _ => rfl) (fun _ _ _ _ => rfl) (fun e' he' _ => ?_)
        fun _ _ _ _ => rfl
      have hne : e'.pa ≠ e.pa :=
        fun heq => hstore stored hop (honce _ e he hw _ e' he' heq).symm
      simp only [Memory.write_page, Function.update_of_ne hne]

/-- A user access of the process changes what the process finds at most in the page of a
store. -/
theorem Cpu.Finds.access {value : Option Byte} (F : c.Finds addr data) (ht : c.Tidy)
    (hva : a.va < 2 ^ 64) (haligned : addr % PGSIZE = 0)
    (hserved : DemandPaging.attempt a c = none → SwapInServed a c)
    (hfetch : DemandPaging.attempt a c = none →
      ∀ k, pageIndex c.proc.heapTracker a.pageAddr = some k → Fetches a c k ∧
        (Crowded c → BlocksSpared c.proc.heapTracker c.kernel.psaTracker))
    (hstore : ∀ value, a.op = .store value → vpn a.va ≠ vpn addr)
    (honce : ∀ c₁, HandlerStep c c₁ → WritableOnce c₁.table)
    (h : DemandPaging.access a c = .ok (value, c')) : c'.Finds addr data := by
  obtain ⟨c₁, hfirst, hlast⟩ := access_cases h
  have hstep : HandlerStep c c₁ ∧ c₁.Finds addr data := by
    rcases hfirst with rfl | ⟨hnone, hrun⟩
    · exact ⟨.refl ht.nodup, F⟩
    · have hstep := pageFaultHandler_step hva ht.nodup (hserved hnone) hrun
      have hfault := attempt_none.mp hnone
      refine ⟨hstep, ?_⟩
      cases hk : pageIndex c.proc.heapTracker a.pageAddr with
      | some k =>
        obtain ⟨hfetches, hspared⟩ := hfetch hnone k hk
        rw [pageFaultHandler_tracked hk] at hrun
        exact F.fetch ht hva haligned hk hfetches hfault hspared hrun
      | none => exact F.untracked ht hva haligned hk hfault hstore hstep hrun
  rcases hlast with rfl | ⟨value, hattempt⟩
  · exact hstep.2
  · exact hstep.2.attempt (honce c₁ hstep.1) hstore hattempt

/-- Every entry of the table has `PTE_R`. -/
def AllReadable (pt : PageTable ℕ) : Prop := ∀ v e, pt.leaf v = some e → e.r = true

theorem pageFaultHandler_readable (ht : c.Tidy) (hva : a.va < 2 ^ 64)
    (hfault : translate c.table a = none) (hread : AllReadable c.table)
    (h : pageFaultHandler a.trap c = .ok c') : AllReadable c'.table := by
  have hf := ht.faulting hva hfault
  cases hk : pageIndex c.proc.heapTracker a.pageAddr with
  | some k =>
    rw [pageFaultHandler_tracked hk] at h
    have H := heapHandle_fetched ht.wf ht.sound ht.sz hva h
    have hroom : AllReadable (roomTable c) := by
      intro v e he
      rcases roomTable_leaf (c := c) v with hnone | hsame
      · rw [hnone] at he
        cases he
      · exact hread v e (hsame ▸ he)
    intro v e he
    rcases H.mapping with ⟨-, pa, -, hleaf⟩ | ⟨-, hleaf⟩
    · rw [hleaf] at he
      by_cases hv : v = vpn (fetchedPage a c k)
      · rw [hv, Function.update_self] at he
        cases he
        rfl
      · rw [Function.update_of_ne hv] at he
        exact hroom v e he
    · rw [hleaf] at he
      exact hroom v e he
  | none =>
    obtain ⟨-, helse⟩ := pageFaultHandler_elsewhere ht.wf ht.sound hva hk h
    intro v e he
    by_cases hv : v = vpn a.va
    · subst hv
      unfold pageFaultHandler at h
      simp only [trap_alignedAddr, hk] at h
      obtain ⟨cow, hcow, h⟩ := bind_ok_iff.mp h
      cases cow with
      | true =>
        obtain ⟨e₀, henabled, hcause, hleaf, -⟩ := (cowFault_spec.2 true hcow).mp rfl
        have hbelow := (cowFault_spec.1.mp ⟨true, hcow⟩ henabled hcause).1
        obtain ⟨pa, hnew⟩ := (copyOnWrite_spec hf hbelow hleaf).2 c' h
        rw [hnew] at he
        cases he
        rfl
      | false =>
        obtain ⟨f, hfile, hmagic, -⟩ := (loadFromFile_spec hf).1.mp ⟨c', h⟩
        cases hseg : faultSegment a f with
        | some ph =>
          obtain ⟨-, pa, hleaf, -⟩ := (loadFromFile_segment hf hfile hmagic hseg).2 c' h
          rw [hleaf] at he
          cases he
          rfl
        | none =>
          rw [loadFromFile_none hfile hmagic hseg] at h
          cases h
          exact hread _ e he
    · rw [helse v hv] at he
      exact hread v e he

/-- A user access leaves the process in order. -/
theorem Cpu.Tidy.access {value : Option Byte} (ht : c.Tidy) (hva : a.va < 2 ^ 64)
    (hread : AllReadable c.table) (hserved : DemandPaging.attempt a c = none → SwapInServed a c)
    (h : DemandPaging.access a c = .ok (value, c')) :
    c'.Tidy ∧ AllReadable c'.table ∧ AddrsKept c.proc c'.proc := by
  obtain ⟨c₁, hfirst, hlast⟩ := access_cases h
  have hstep : c₁.Tidy ∧ AllReadable c₁.table ∧ AddrsKept c.proc c₁.proc := by
    rcases hfirst with rfl | ⟨hnone, hrun⟩
    · exact ⟨ht, hread, .refl⟩
    · have haddrs := pageFaultHandler_addrs hrun
      have hstep := pageFaultHandler_step hva ht.nodup (hserved hnone) hrun
      refine ⟨hstep.tidy ht ?_ (haddrs.sz ht.sz),
        pageFaultHandler_readable ht hva (attempt_none.mp hnone) hread hrun, haddrs⟩
      cases hk : pageIndex c.proc.heapTracker a.pageAddr with
      | some k =>
        rw [pageFaultHandler_tracked hk] at hrun
        exact (heapHandle_fetched ht.wf ht.sound ht.sz hva hrun).wf
      | none => exact (pageFaultHandler_elsewhere ht.wf ht.sound hva hk hrun).1
  rcases hlast with rfl | ⟨value, hattempt⟩
  · exact hstep
  · rcases attempt_cases hattempt with rfl | ⟨e, data, -, -, rfl⟩
    · exact hstep
    · obtain ⟨⟨hsz, hwf, hframes, hused, hsound, hnodup⟩, haddrs⟩ := hstep
      exact ⟨⟨hsz, hwf, hframes, hused, hsound.of_freelist rfl rfl, hnodup⟩, haddrs⟩

theorem Cpu.Finds.growproc {bytes : Int} {ok : Bool} (F : c.Finds addr data)
    (hond : c.proc.ondemand = true) (haligned : addr % PGSIZE = 0)
    (h : DemandPaging.growproc bytes c = .ok (ok, c')) : c'.Finds addr data := by
  rw [growproc_eq hond] at h
  split_ifs at h
  cases h
  refine F.congr rfl (fun k _ hk => ?_) (fun k _ _ hloaded => ?_) (fun _ _ _ => rfl)
    fun _ _ _ _ => rfl
  · apply if_neg
    intro htaken
    have hunset := (mem_takenEntries htaken).2
    simp only [PGSIZE, unset] at *
    omega
  · simp only [Cpu.withTracker, trackPages] at hloaded ⊢
    split_ifs at hloaded
    rw [if_neg (by assumption)]

end Process

section Load

variable {a : Access} {c c' : Cpu} {data : Page}

theorem user_of_load {e : Pte} (hop : a.op = .load) (h : a.op.permitted e = true) :
    e.u = true := by
  rw [hop] at h
  simp only [Op.permitted, Bool.and_eq_true] at h
  exact h.1

theorem access_fault {value : Byte} (hop : a.op = .load) (h : translate c.table a = none) :
    access a c = .ok (some value, c') ↔ pageFaultHandler a.trap c = .ok c' ∧
      ∃ pa, translate c'.table a = some pa ∧ c'.kernel.memory.page pa (a.va % PGSIZE) = value := by
  have hnone : attempt a c = none := attempt_none.mpr h
  unfold access
  rw [hnone]
  simp only [bind_ok_iff]
  constructor
  · rintro ⟨c₁, hrun, hagain⟩
    cases htr : translate c₁.table a with
    | none =>
      rw [attempt_none.mpr htr] at hagain
      cases hagain
    | some pa =>
      rw [attempt_load hop htr] at hagain
      cases hagain
      exact ⟨hrun, pa, htr, rfl⟩
  · rintro ⟨hrun, pa, htr, rfl⟩
    refine ⟨c', hrun, ?_⟩
    rw [attempt_load hop htr]
    rfl

/-- A load returns what the process finds, if the handler can fetch the page. -/
theorem Cpu.Finds.load (F : c.Finds a.pageAddr data) (ht : c.Tidy) (hop : a.op = .load)
    (hva : a.va < 2 ^ 64)
    (hfetch : DemandPaging.attempt a c = none → ∀ k,
      pageIndex c.proc.heapTracker a.pageAddr = some k → Fetches a c k ∧
        (Crowded c → BlocksSpared c.proc.heapTracker c.kernel.psaTracker)) :
    ∃ c', DemandPaging.access a c = .ok (some (data (a.va % PGSIZE)), c') := by
  have hlt : a.va % PGSIZE < PGSIZE := Nat.mod_lt _ (by decide)
  cases htr : translate c.table a with
  | some pa =>
    obtain ⟨-, e, he, -, rfl⟩ := translate_entry htr
    rw [← vpn_pageAddr] at he
    cases F with
    | mapped e' below leaf user readable off bytes =>
      rw [leaf] at he
      cases he
      exact ⟨c, by rw [access_mapped hop htr, bytes _ hlt]⟩
    | untouched leaf =>
      rw [leaf] at he
      cases he
    | swapped b leaf =>
      rw [leaf] at he
      cases he
  | none =>
    have htracked : (pageIndex c.proc.heapTracker a.pageAddr).isSome := by
      cases F with
      | mapped e below leaf user readable =>
        rw [vpn_pageAddr] at leaf
        rw [translate_load hop below leaf user readable] at htr
        cases htr
      | untouched _ tracked => exact tracked
      | swapped b _ on =>
        obtain ⟨i, hi, hiaddr, -⟩ := on.entry
        exact pageIndex_isSome.mpr ⟨i, hi, hiaddr⟩
    obtain ⟨k, hk⟩ := Option.isSome_iff_exists.mp htracked
    obtain ⟨hfetches, hspared⟩ := hfetch (attempt_none.mpr htr) k hk
    obtain ⟨hret, hspec⟩ := heapHandle_spec (i := k) (ht.faulting hva htr)
    obtain ⟨c', hrun⟩ := hret.mpr hfetches.returns
    obtain ⟨hsome, hbytes⟩ := hspec c' hrun
    obtain ⟨pa, hpa⟩ := Option.isSome_iff_exists.mp (hsome.mpr hfetches.maps)
    refine ⟨c', (access_fault hop htr).mpr ⟨(pageFaultHandler_tracked hk).trans hrun, pa, hpa, ?_⟩⟩
    rw [hbytes ht.nodup ht.used pa hpa _ hlt]
    exact (F.roomed ht (pageAddr_aligned a) hfetches.returns.1 hfetches.victim hspared).heapData_eq
      hk hfetches _ hlt

end Load

end AdvancedOperatingSystems.DemandPaging
