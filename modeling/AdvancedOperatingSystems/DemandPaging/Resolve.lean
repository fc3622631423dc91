import AdvancedOperatingSystems.DemandPaging.OnePage
import AdvancedOperatingSystems.DemandPaging.FirstTouch
import AdvancedOperatingSystems.DemandPaging.Ownership

/-!
# Which page faults are resolved

`usertrap` goes back to the instruction after `page_fault_handler`, which never kills the
process. Each branch of the handler is described by when it returns and when it maps the
page of the fault in a way that permits the access.
-/

namespace AdvancedOperatingSystems.DemandPaging

open Foundations Riscv Riscv.PageTable

/-- `usertrap` on a page fault, up to its return to user mode. A process marked `killed`
exits instead. -/
def usertrap (killed : Bool) (t : Trap) (c : Cpu) : Except Panic (Option Cpu) := do
  let c ← pageFaultHandler t c
  return if killed then none else some c

/-- The handler returns, and a process that goes back to user mode may make the access. -/
def Resolved (a : Access) (killed : Bool) (c : Cpu) : Prop :=
  ∃ r, usertrap killed a.trap c = .ok r ∧ ∀ c', r = some c' → (translate c'.table a).isSome

/-- A process in user mode, and the kernel, as a page fault finds them: the address is a
`uint64`, the size as well, the table is well formed, and its frames and the pages of the
allocator are pages of memory. -/
structure Faulting (a : Access) (c : Cpu) : Prop where
  va : a.va < 2 ^ 64
  sz : c.proc.sz < 2 ^ 64
  wf : c.table.Wf
  frames : ∀ i e, c.table.leaf i = some e → e.pa ≠ 0
  sound : c.kernel.memory.Sound
  fault : translate c.table a = none

section Conditions

variable (a : Access) (c : Cpu)

def Crowded : Prop := c.proc.residentHeapPages = MAXRESHEAP

instance : Decidable (Crowded c) := inferInstanceAs (Decidable (_ = _))

/-- The eviction, if there has to be one, finds a victim, a page for its copy and the
level-0 table of the victim. -/
def EvictionReturns : Prop :=
  Crowded c → ∃ v, victimPageIndex c.proc.heapTracker = some v ∧
    c.kernel.memory.freelist ≠ [] ∧ Unmappable c.table (c.proc.heapTracker v).addr

def evictee : Option ℕ := if Crowded c then victimPageIndex c.proc.heapTracker else none

def roomTable : PageTable ℕ :=
  match evictee c with
  | some v => c.table.set (c.proc.heapTracker v).addr none
  | none => c.table

def roomTracker : ℕ → HeapPage :=
  match evictee c with
  | some v => swapOut c.proc.heapTracker v (freeBlock c.kernel.psaTracker)
  | none => c.proc.heapTracker

def roomFree : ℕ := c.kernel.memory.freelist.length - if Crowded c then 1 else 0

/-- What the eviction of an entry writes to disk. The page it copies to holds 5s before. -/
def evictedPage (v : ℕ) : Page :=
  if c.table.walkaddr (c.proc.heapTracker v).addr = 0 then fun _ => 5
  else c.kernel.memory.page (c.table.walkaddr (c.proc.heapTracker v).addr)

def roomDisk : ℕ → ℕ → Byte :=
  match evictee c with
  | some v => (writePage (freeBlock c.kernel.psaTracker) (evictedPage c v) c.kernel).disk
  | none => c.kernel.disk

/-- The block that `retrieve_page_from_disk` finds after the eviction. -/
def roomBlock : Option ℕ := (retrieveScan a.pageAddr (roomTracker c)).1

/-- The branch for tracked pages returns. -/
def HeapReturns (i : ℕ) : Prop :=
  EvictionReturns c ∧
    if (roomTracker c i).loaded then
      (roomBlock a c).isNone ∨ 0 < roomFree c ∧
        (2 ^ 64 ≤ a.pageAddr + PGSIZE ∨ AllocReturns (roomTable c) a.pageAddr (roomFree c - 1))
    else 2 ^ 64 ≤ c.proc.sz + PGSIZE ∨
      AllocReturns (roomTable c) (pgroundup c.proc.sz) (roomFree c)

/-- The branch for tracked pages maps the page of the fault: from its block on disk, or
because it is the first one beyond `p->sz`. -/
def HeapMaps (i : ℕ) : Prop :=
  a.op ≠ .fetch ∧
    if (roomTracker c i).loaded then
      (roomBlock a c).isSome ∧ AllocMaps (roomTable c) a.pageAddr (roomFree c - 1)
    else c.proc.sz + PGSIZE < 2 ^ 64 ∧ pgroundup c.proc.sz = a.pageAddr ∧
      AllocMaps (roomTable c) a.pageAddr (roomFree c)

def heapData (i : ℕ) : Page :=
  if (roomTracker c i).loaded then readPage (roomDisk c) ((roomBlock a c).getD 0) else fun _ => 0

/-- The handler takes the fault for a store to a shared page. -/
def TakenForCow (e : Pte) : Prop :=
  c.proc.cowEnabled = true ∧ a.op.scause = 15 ∧ c.table.leaf (vpn a.pageAddr) = some e ∧ e.w = false

def CowTestReturns : Prop :=
  c.proc.cowEnabled = true → a.op.scause = 15 → a.pageAddr < MAXVA ∧
    (c.table.mid (midIndex a.pageAddr)).isSome ∧ (c.table.low (lowIndex a.pageAddr)).isSome

def faultSegment (f : File) : Option Proghdr :=
  findSegment f (Elfhdr.ofBytes (readi f 0 sizeofElfhdr a.elf).2) a.pageAddr
    (List.range (Elfhdr.ofBytes (readi f 0 sizeofElfhdr a.elf).2).phnum) a.ph

/-- The page can be mapped, and all of its bytes are in the file. -/
def SegmentLoads (f : File) (ph : Proghdr) : Prop :=
  AllocMaps c.table a.pageAddr c.kernel.memory.freelist.length ∧
    f.count ((ph.off + (a.pageAddr - ph.vaddr)) % 2 ^ 32) PGSIZE = PGSIZE

/-- The branch for program pages returns: the file is there, and the page belongs to no
segment or can be loaded. -/
def LoadReturns : Prop :=
  ∃ f, a.namei c.proc.name = some f ∧
    (Elfhdr.ofBytes (readi f 0 sizeofElfhdr a.elf).2).magic = ELF_MAGIC ∧
    ∀ ph, faultSegment a f = some ph → SegmentLoads a c f ph

/-- The page belongs to a segment whose flags permit the access. -/
def LoadMaps : Prop :=
  ∃ f ph, a.namei c.proc.name = some f ∧ faultSegment a f = some ph ∧
    a.op.permitted ((flags2perm ph.flags).pte 0) = true

/-- The faults that one of the three branches of the handler resolves. -/
def Resolvable (killed : Bool) : Prop :=
  match pageIndex c.proc.heapTracker a.pageAddr with
  | some i => HeapReturns a c i ∧ (killed = true ∨ HeapMaps a c i)
  | none => CowTestReturns a c ∧
      ((∃ e, TakenForCow a c e ∧ e.u = true ∧ 2 ≤ c.kernel.memory.freelist.length) ∨
        (∀ e, ¬ TakenForCow a c e) ∧ LoadReturns a c ∧ (killed = true ∨ LoadMaps a c))

end Conditions

section Memory

variable {m m' : Memory}

theorem kalloc_sound {q : ℕ} (hm : m.Sound) (h : m.kalloc = some (q, m')) :
    m'.Sound ∧ m'.kend = m.kend ∧ m.freelist.length = m'.freelist.length + 1 ∧ q ≠ 0 ∧
      q ∈ m.freelist := by
  have hkend : m'.kend = m.kend := by
    unfold Memory.kalloc at h
    cases hl : m.freelist with
    | nil => simp [hl] at h
    | cons s rest =>
      rw [hl] at h
      cases h
      rfl
  obtain ⟨hfree, -, -⟩ := Memory.kalloc_some h
  have hmem : q ∈ m.freelist := by rw [hfree]; exact List.mem_cons_self
  refine ⟨fun x hx => ?_, hkend, by rw [hfree]; rfl, (hm q hmem).1, hmem⟩
  rw [hkend]
  exact hm x (by rw [hfree]; exact List.mem_cons_of_mem _ hx)

theorem Memory.Sound.of_freelist (hm : m.Sound) (hfree : m'.freelist = m.freelist)
    (hkend : m'.kend = m.kend) : m'.Sound := by
  intro q hq
  rw [hkend]
  exact hm q (hfree ▸ hq)

theorem copyin_frame {pt : PageTable ℕ} {dst va : ℕ} :
    (copyin pt dst va m).2.freelist = m.freelist ∧ (copyin pt dst va m).2.kend = m.kend := by
  unfold copyin
  by_cases h : pt.walkaddr va = 0 <;> simp [h]

end Memory

section Room

variable {a : Access} {c c' : Cpu}

/-- The state `makeRoom` leaves. -/
structure RoomMade (c c' : Cpu) : Prop where
  table : c'.table = roomTable c
  tracker : c'.proc.heapTracker = roomTracker c
  sz : c'.proc.sz = c.proc.sz
  free : c'.kernel.memory.freelist.length = roomFree c
  sound : c'.kernel.memory.Sound
  nodup : c.kernel.memory.freelist.Nodup → c'.kernel.memory.freelist.Nodup
  disk : (∀ v e, c.table.leaf v = some e → e.pa ∉ c.kernel.memory.freelist) →
    c'.kernel.disk = roomDisk c

theorem evictedPage_eq {v page : ℕ} {m : Memory} (hk : c.kernel.memory.kalloc = some (page, m))
    (hused : ∀ v e, c.table.leaf v = some e → e.pa ∉ c.kernel.memory.freelist) :
    (copyin c.table page (c.proc.heapTracker v).addr m).2.page page = evictedPage c v := by
  obtain ⟨hfree, -, hpage⟩ := Memory.kalloc_some hk
  unfold evictedPage
  by_cases hpa : c.table.walkaddr (c.proc.heapTracker v).addr = 0
  · rw [copyin_unmapped hpa, if_pos hpa, hpage, Function.update_self]
  · obtain ⟨-, e, he, -, hepa⟩ := walkaddr_spec hpa
    have hne : c.table.walkaddr (c.proc.heapTracker v).addr ≠ page := by
      intro heq
      refine hused _ e he ?_
      rw [hepa, heq, hfree]
      exact List.mem_cons_self
    rw [copyin_mapped rfl hpa, if_neg hpa, Memory.write_page, Function.update_self, hpage,
      Function.update_of_ne hne]

theorem evictPageToDisk_total {v : ℕ} (hw : c.table.Wf) (hm : c.kernel.memory.Sound)
    (hv : victimPageIndex c.proc.heapTracker = some v) (hne : c.kernel.memory.freelist ≠ [])
    (hun : Unmappable c.table (c.proc.heapTracker v).addr) :
    ∃ data m, evictPageToDisk c = .ok (c.evicted v data m) ∧ m.Sound ∧
      m.freelist.length = c.kernel.memory.freelist.length - 1 ∧
      (c.kernel.memory.freelist.Nodup → m.freelist.Nodup) ∧
      ((∀ v e, c.table.leaf v = some e → e.pa ∉ c.kernel.memory.freelist) →
        data = evictedPage c v) := by
  obtain ⟨page, m, hk, -⟩ := kalloc_takes hne
  obtain ⟨hsound, hkend, hlen, -, -⟩ := kalloc_sound hm hk
  obtain ⟨hfreelist, -, -⟩ := Memory.kalloc_some hk
  obtain ⟨hfree, hkend'⟩ := @copyin_frame m c.table page
    (c.proc.heapTracker v).addr
  refine ⟨(copyin c.table page (c.proc.heapTracker v).addr m).2.page page,
    (copyin c.table page (c.proc.heapTracker v).addr m).2, ?_, hsound.of_freelist hfree hkend', ?_,
    fun hnodup => ?_, evictedPage_eq hk⟩
  · unfold evictPageToDisk
    simp only [hv, hk, uvmunmap_unmappable hw hun, bind, Except.bind]
    simp only [Cpu.evicted, Cpu.setSpace, writePage_eq]
    rfl
  · rw [hfree]
    omega
  · rw [hfreelist, List.nodup_cons] at hnodup
    rw [hfree]
    exact hnodup.2

theorem evicted_memory {v : ℕ} {data : Page} {m : Memory} :
    (c.evicted v data m).kernel.memory = m := by
  simp [Cpu.evicted, writePage_eq]

theorem evictPageToDisk_returns_iff (hw : c.table.Wf) (hm : c.kernel.memory.Sound) :
    Returns (evictPageToDisk c) ↔ ∃ v, victimPageIndex c.proc.heapTracker = some v ∧
      c.kernel.memory.freelist ≠ [] ∧ Unmappable c.table (c.proc.heapTracker v).addr := by
  constructor
  · intro h
    unfold evictPageToDisk at h
    cases hv : victimPageIndex c.proc.heapTracker with
    | none =>
      simp only [hv] at h
      exact absurd h (not_returns_error _)
    | some v =>
      simp only [hv] at h
      cases hk : c.kernel.memory.kalloc with
      | none =>
        simp only [hk] at h
        exact absurd h (not_returns_error _)
      | some r =>
        simp only [hk] at h
        have hne : c.kernel.memory.freelist ≠ [] := by
          intro hnil
          rw [Memory.kalloc_none.mpr hnil] at hk
          cases hk
        rw [returns_bind] at h
        obtain ⟨s, hs, -⟩ := h
        exact ⟨v, rfl, hne, (uvmunmap_returns_iff hw).mp ⟨s, hs⟩⟩
  · rintro ⟨v, hv, hne, hun⟩
    obtain ⟨data, m, hrun, -⟩ := evictPageToDisk_total hw hm hv hne hun
    exact ⟨_, hrun⟩

theorem makeRoom_spec (hw : c.table.Wf) (hm : c.kernel.memory.Sound) :
    (Returns (makeRoom c) ↔ EvictionReturns c) ∧ ∀ c', makeRoom c = .ok c' → RoomMade c c' := by
  unfold makeRoom
  by_cases hfull : c.proc.residentHeapPages = MAXRESHEAP
  · have hcrowded : Crowded c := hfull
    have hret := evictPageToDisk_returns_iff hw hm
    rw [if_pos hfull]
    constructor
    · rw [returns_bind]
      constructor
      · rintro ⟨c', hc', -⟩ -
        exact hret.mp ⟨c', hc'⟩
      · intro h
        obtain ⟨c', hc'⟩ := hret.mpr (h hcrowded)
        exact ⟨c', hc', returns_ok _⟩
    · intro c' h
      obtain ⟨c₁, h₁, h⟩ := bind_ok_iff.mp h
      cases h
      obtain ⟨v, hv, hne, hun⟩ := hret.mp ⟨c₁, h₁⟩
      obtain ⟨data, m, h₂, hsound, hlen, hnodup, hdata⟩ := evictPageToDisk_total hw hm hv hne hun
      obtain rfl := Except.ok.inj (h₁.symm.trans h₂)
      have hev : evictee c = some v := by rw [evictee, if_pos hcrowded, hv]
      refine ⟨?_, ?_, rfl, ?_, ?_, fun h => ?_, fun h => ?_⟩
      · rw [roomTable, hev]
        rfl
      · rw [roomTracker, hev]
        rfl
      · rw [roomFree, if_pos hcrowded, ← hlen]
        show (c.evicted v data m).kernel.memory.freelist.length = _
        rw [evicted_memory]
      · show (c.evicted v data m).kernel.memory.Sound
        rw [evicted_memory]
        exact hsound
      · show (c.evicted v data m).kernel.memory.freelist.Nodup
        rw [evicted_memory]
        exact hnodup h
      · rw [roomDisk, hev]
        simp only [← hdata h]
        simp only [Cpu.evicted, writePage_eq]
  · have hcrowded : ¬ Crowded c := hfull
    have hev : evictee c = none := if_neg hcrowded
    rw [if_neg hfull]
    constructor
    · exact ⟨fun _ h => absurd h hcrowded, fun _ => returns_ok c⟩
    · intro c' h
      cases h
      refine ⟨?_, ?_, rfl, ?_, hm, id, fun _ => ?_⟩
      · rw [roomTable, hev]
      · rw [roomTracker, hev]
      · rw [roomFree, if_neg hcrowded]
        rfl
      · rw [roomDisk, hev]

theorem roomTable_wf (hw : c.table.Wf) : (roomTable c).Wf := by
  unfold roomTable
  split
  · exact hw.clear _
  · exact hw

theorem roomTable_leaf (i : ℕ) : (roomTable c).leaf i = none ∨
    (roomTable c).leaf i = c.table.leaf i := by
  unfold roomTable
  split
  · simp only [set_leaf, Function.update_apply]
    split_ifs
    · exact Or.inl rfl
    · exact Or.inr rfl
  · exact Or.inr rfl

end Room

section Translate

variable {a : Access} {pt pt' : PageTable ℕ}

theorem pageAddr_aligned (a : Access) : a.pageAddr % PGSIZE = 0 := pgrounddown_aligned _

theorem vpn_pageAddr (a : Access) : vpn a.pageAddr = vpn a.va := by
  simp only [Access.pageAddr, pgrounddown, vpn, PGSIZE]
  omega

theorem translate_none_of_leaf (h : translate pt a = none)
    (hleaf : pt'.leaf (vpn a.va) = none ∨ pt'.leaf (vpn a.va) = pt.leaf (vpn a.va)) :
    translate pt' a = none := by
  unfold translate at *
  by_cases hva : MAXVA ≤ a.va
  · rw [if_pos hva]
  · rw [if_neg hva] at *
    rcases hleaf with hleaf | hleaf
    · rw [hleaf]
    · rw [hleaf]
      exact h

theorem translate_isSome {e : Pte} (hva : a.pageAddr < MAXVA)
    (hleaf : pt.leaf (vpn a.va) = some e) :
    (translate pt a).isSome = true ↔ a.op.permitted e = true := by
  have hlt : ¬ MAXVA ≤ a.va := by
    simp only [Access.pageAddr, pgrounddown, MAXVA, PGSIZE] at *
    omega
  unfold translate
  rw [if_neg hlt, hleaf]
  by_cases h : a.op.permitted e = true <;> simp [h]

theorem translate_pa {e : Pte} {pa : ℕ} (hleaf : pt.leaf (vpn a.va) = some e)
    (h : translate pt a = some pa) : pa = e.pa := by
  unfold translate at h
  rw [hleaf] at h
  split_ifs at h
  simp only at h
  split_ifs at h
  exact (Option.some.inj h).symm

theorem permitted_pte (op : Op) (perm : Perm) (pa : ℕ) :
    op.permitted (perm.pte pa) = op.permitted (perm.pte 0) := rfl

theorem permitted_permW (op : Op) (pa : ℕ) : op.permitted (permW.pte pa) = true ↔ op ≠ .fetch := by
  cases op <;> simp [Op.permitted, Perm.pte]

end Translate

section Heap

variable {a : Access} {c c₁ c' : Cpu} {i : ℕ}

/-- `uvmalloc` of the page of an access. -/
theorem uvmalloc_pageAddr {r : Running} {perm : Perm} {m : Memory} {pt : PageTable ℕ} (hw : pt.Wf)
    (hm : m.Sound) (hva : a.va < 2 ^ 64) :
    (Returns (uvmalloc r a.pageAddr ((a.pageAddr + PGSIZE) % 2 ^ 64) perm (m, pt)) ↔
      2 ^ 64 ≤ a.pageAddr + PGSIZE ∨ AllocReturns pt a.pageAddr m.freelist.length) ∧
    ∀ sz m' pt', uvmalloc r a.pageAddr ((a.pageAddr + PGSIZE) % 2 ^ 64) perm (m, pt) =
        .ok (sz, m', pt') → pt'.Wf ∧
      (AllocMaps pt a.pageAddr m.freelist.length ∧ sz = a.pageAddr + PGSIZE ∧
          (∃ pa taken, Takes (pa :: taken) m m' ∧ m'.kend = m.kend ∧
            (m.freelist.Nodup → m'.page pa = fun _ => 0) ∧
            pt'.leaf = Function.update pt.leaf (vpn a.va) (some (perm.pte pa))) ∨
        ¬ AllocMaps pt a.pageAddr m.freelist.length ∧ pt'.leaf = pt.leaf ∧
          (sz = 0 ∨ MAXVA ≤ a.pageAddr)) := by
  have hround : pgroundup a.pageAddr = a.pageAddr := pgroundup_of_aligned (pageAddr_aligned a)
  by_cases hwrap : 2 ^ 64 ≤ a.pageAddr + PGSIZE
  · have hlt : a.pageAddr < 2 ^ 64 := by
      simp only [Access.pageAddr, pgrounddown, PGSIZE] at *
      omega
    have hbig : MAXVA ≤ a.pageAddr := by
      simp only [MAXVA, PGSIZE] at *
      omega
    rw [uvmalloc_wraps hwrap hlt]
    refine ⟨iff_of_true (returns_ok _) (Or.inl hwrap), fun sz m' pt' h => ?_⟩
    cases h
    exact ⟨hw, Or.inr ⟨fun h => by have := h.1; omega, rfl, Or.inr hbig⟩⟩
  · obtain ⟨hret, hspec⟩ := @uvmalloc_next_spec r perm _ _ hw hm _ (not_le.mp hwrap)
    rw [hround] at hret hspec
    refine ⟨hret.trans (or_iff_right hwrap).symm, fun sz m' pt' h => ?_⟩
    obtain ⟨hwf, hcase⟩ := hspec sz m' pt' h
    rw [vpn_pageAddr] at hcase
    refine ⟨hwf, ?_⟩
    rcases hcase with hcase | ⟨hno, hsz, hleaf⟩
    · exact Or.inl hcase
    · exact Or.inr ⟨hno, hleaf, Or.inl hsz⟩

/-- The page of the access is mapped user-readable and -writable and holds the data, or its
entry is as it was. -/
def MapsPage (a : Access) (c c' : Cpu) (data : Page) (P : Prop) : Prop :=
  P ∧ a.pageAddr < MAXVA ∧ (∃ pa, c'.table.leaf (vpn a.va) = some (permW.pte pa) ∧
      (c.kernel.memory.freelist.Nodup → ∀ k < PGSIZE, c'.kernel.memory.page pa k = data k)) ∨
    ¬ P ∧ c'.table.leaf (vpn a.va) = c.table.leaf (vpn a.va)

theorem MapsPage.congr {data data' : Page} {P Q : Prop} (h : MapsPage a c c' data P)
    (hPQ : P ↔ Q) (hdata : Q → data = data') : MapsPage a c c' data' Q := by
  unfold MapsPage at *
  rw [← hPQ]
  rcases h with ⟨hP, h⟩ | h
  · rw [← hdata (hPQ.mp hP)]
    exact Or.inl ⟨hP, h⟩
  · exact Or.inr h

theorem retrieveBlock_spec {block : ℕ} (hw : c.table.Wf) (hm : c.kernel.memory.Sound)
    (hva : a.va < 2 ^ 64) :
    (Returns (retrieveBlock a.pageAddr block c) ↔ 0 < c.kernel.memory.freelist.length ∧
      (2 ^ 64 ≤ a.pageAddr + PGSIZE ∨
        AllocReturns c.table a.pageAddr (c.kernel.memory.freelist.length - 1))) ∧
    ∀ c', retrieveBlock a.pageAddr block c = .ok c' →
      MapsPage a c c' (readPage c.kernel.disk block)
        (AllocMaps c.table a.pageAddr (c.kernel.memory.freelist.length - 1)) := by
  cases hk : c.kernel.memory.kalloc with
  | none =>
    have hnil := Memory.kalloc_none.mp hk
    have herr : retrieveBlock a.pageAddr block c = .error kerneltrap := by
      unfold retrieveBlock
      rw [hk]
    rw [herr]
    refine ⟨by simp [hnil], fun c' h => by cases h⟩
  | some q =>
    obtain ⟨page, m⟩ := q
    obtain ⟨hsound, hkend, hlen, -, hpage⟩ := kalloc_sound hm hk
    obtain ⟨hfreelist, -, -⟩ := Memory.kalloc_some hk
    have hm' : (m.write page (readPage c.kernel.disk block)).Sound :=
      hsound.of_freelist rfl rfl
    obtain ⟨hret, hspec⟩ := @uvmalloc_pageAddr a c.running permW _ _ hw hm' hva
    have hfree : (m.write page (readPage c.kernel.disk block)).freelist.length =
        c.kernel.memory.freelist.length - 1 := by
      rw [Memory.write_freelist]
      omega
    rw [hfree] at hret hspec
    have hpos : 0 < c.kernel.memory.freelist.length := by omega
    have hrun : retrieveBlock a.pageAddr block c =
        uvmalloc c.running a.pageAddr ((a.pageAddr + PGSIZE) % 2 ^ 64) permW
          (m.write page (readPage c.kernel.disk block), c.table) >>= fun x =>
          let m := (copyout x.2.2 a.pageAddr (x.2.1.page page) PGSIZE x.2.1).2
          let k := { c.kernel with psaTracker := setBlocks c.kernel.psaTracker block false }
          .ok (({ c with kernel := k } : Cpu).setSpace (m, x.2.2)) := by
      unfold retrieveBlock
      simp only [hk]
      rfl
    rw [hrun]
    constructor
    · rw [returns_bind]
      constructor
      · rintro ⟨s, hs, -⟩
        exact ⟨hpos, hret.mp ⟨s, hs⟩⟩
      · rintro ⟨-, h⟩
        obtain ⟨s, hs⟩ := hret.mpr h
        exact ⟨s, hs, returns_ok _⟩
    · intro c' h
      obtain ⟨⟨sz, m₁, pt⟩, hs, h⟩ := bind_ok_iff.mp h
      cases h
      obtain ⟨hwf, ⟨hmaps, -, pa, taken, htake, -, -, hleaf⟩ | ⟨hno, hleaf, -⟩⟩ :=
        hspec sz m₁ pt hs
      · have hentry : pt.leaf (vpn a.pageAddr) = some (permW.pte pa) := by
          rw [hleaf, vpn_pageAddr, Function.update_self]
        have hpa : pa ≠ 0 := (hm' pa (htake.mem List.mem_cons_self)).1
        have hwalk : pt.walkaddr a.pageAddr = pa := walkaddr_eq hwf hmaps.1 hentry rfl
        refine Or.inl ⟨hmaps, hmaps.1, pa, ?_, fun hnodup k hk' => ?_⟩
        · show pt.leaf (vpn a.va) = _
          rw [← vpn_pageAddr]
          exact hentry
        · rw [hfreelist, List.nodup_cons] at hnodup
          have hnot : page ∉ pa :: taken := by
            intro hmem
            refine hnodup.1 ?_
            have : page ∈ (m.write page (readPage c.kernel.disk block)).freelist := htake.mem hmem
            exact this
          show (copyout pt a.pageAddr (m₁.page page) PGSIZE m₁).2.page pa k = _
          rw [copyout_page (pageAddr_aligned a) hwalk hpa, Memory.write_page, Function.update_self,
            if_pos hk', htake.page page hnot, Memory.write_page, Function.update_self]
      · exact Or.inr ⟨hno, congrFun hleaf _⟩

theorem growHeap_spec (hw : c.table.Wf) (hm : c.kernel.memory.Sound) (hsz : c.proc.sz < 2 ^ 64) :
    (Returns (growHeap c) ↔ 2 ^ 64 ≤ c.proc.sz + PGSIZE ∨
      AllocReturns c.table (pgroundup c.proc.sz) c.kernel.memory.freelist.length) ∧
    ∀ c', growHeap c = .ok c' → MapsPage a c c' (fun _ => 0)
      (c.proc.sz + PGSIZE < 2 ^ 64 ∧ pgroundup c.proc.sz = a.pageAddr ∧
        AllocMaps c.table a.pageAddr c.kernel.memory.freelist.length) := by
  have hrun : growHeap c = uvmalloc c.running c.proc.sz ((c.proc.sz + PGSIZE) % 2 ^ 64) permW
      (c.kernel.memory, c.table) >>= fun x =>
        .ok (({ c with proc := { c.proc with sz := x.1 } } : Cpu).setSpace x.2) := rfl
  rw [hrun]
  by_cases hwrap : 2 ^ 64 ≤ c.proc.sz + PGSIZE
  · rw [uvmalloc_wraps hwrap hsz, ok_bind]
    refine ⟨iff_of_true (returns_ok _) (Or.inl hwrap), fun c' h => ?_⟩
    cases h
    exact Or.inr ⟨fun h => absurd h.1 (Nat.not_lt.mpr hwrap), rfl⟩
  · obtain ⟨hret, hspec⟩ :=
      @uvmalloc_next_spec c.running permW _ _ hw hm _ (not_le.mp hwrap)
    constructor
    · rw [returns_bind, or_iff_right hwrap, ← hret]
      constructor
      · rintro ⟨s, hs, -⟩
        exact ⟨s, hs⟩
      · rintro ⟨s, hs⟩
        exact ⟨s, hs, returns_ok _⟩
    · intro c' h
      obtain ⟨⟨sz, m, pt⟩, hs, h⟩ := bind_ok_iff.mp h
      cases h
      obtain ⟨-, ⟨hmaps, -, pa, taken, -, -, hzero, hleaf⟩ | ⟨hno, -, hleaf⟩⟩ := hspec sz m pt hs
      · by_cases hpage : pgroundup c.proc.sz = a.pageAddr
        · rw [hpage] at hmaps hleaf
          refine Or.inl ⟨⟨not_le.mp hwrap, hpage, hmaps⟩, hmaps.1, pa, ?_, fun hnodup k _ => ?_⟩
          · show pt.leaf (vpn a.va) = _
            rw [hleaf, vpn_pageAddr, Function.update_self]
          · exact congrFun (hzero hnodup) k
        · refine Or.inr ⟨fun h => hpage h.2.1, ?_⟩
          have hne : vpn a.va ≠ vpn (pgroundup c.proc.sz) := by
            rw [← vpn_pageAddr]
            intro heq
            have h₁ := pageAddr_aligned a
            have h₂ := pgroundup_aligned c.proc.sz
            simp only [vpn, PGSIZE] at *
            omega
          show pt.leaf (vpn a.va) = _
          rw [hleaf, Function.update_of_ne hne]
      · refine Or.inr ⟨fun h => hno (h.2.1 ▸ h.2.2), ?_⟩
        exact congrFun hleaf _

theorem retrievePageFromDisk_spec (hw : c.table.Wf) (hm : c.kernel.memory.Sound)
    (hva : a.va < 2 ^ 64) :
    (Returns (retrievePageFromDisk a.pageAddr c) ↔
      (retrieveScan a.pageAddr c.proc.heapTracker).1.isNone ∨
        0 < c.kernel.memory.freelist.length ∧ (2 ^ 64 ≤ a.pageAddr + PGSIZE ∨
          AllocReturns c.table a.pageAddr (c.kernel.memory.freelist.length - 1))) ∧
    ∀ c', retrievePageFromDisk a.pageAddr c = .ok c' → MapsPage a c c'
      (readPage c.kernel.disk ((retrieveScan a.pageAddr c.proc.heapTracker).1.getD 0))
      ((retrieveScan a.pageAddr c.proc.heapTracker).1.isSome ∧
        AllocMaps c.table a.pageAddr (c.kernel.memory.freelist.length - 1)) := by
  rw [retrievePageFromDisk]
  -- the kernel is not to run the loop over the tracker
  generalize retrieveScan a.pageAddr c.proc.heapTracker = scan
  obtain ⟨found, tracker⟩ := scan
  cases found with
  | none =>
    refine ⟨iff_of_true (returns_ok _) (Or.inl rfl), fun c' h => ?_⟩
    cases h
    exact Or.inr ⟨fun h => by simp at h, rfl⟩
  | some block =>
    obtain ⟨hret, hmaps⟩ := @retrieveBlock_spec a
      { c with proc := { c.proc with heapTracker := tracker } } block hw hm hva
    refine ⟨hret.trans (or_iff_right (by simp)).symm, fun c' hc' => ?_⟩
    exact (hmaps c' hc').congr (and_iff_right rfl).symm fun _ => rfl

theorem MapsPage.translate {pt : PageTable ℕ} {data : Page} {P : Prop} (h : MapsPage a c c' data P)
    (hfault : DemandPaging.translate pt a = none)
    (hleaf : c.table.leaf (vpn a.va) = none ∨ c.table.leaf (vpn a.va) = pt.leaf (vpn a.va)) :
    ((DemandPaging.translate c'.table a).isSome ↔ a.op ≠ .fetch ∧ P) ∧
    ∀ pa, DemandPaging.translate c'.table a = some pa → c.kernel.memory.freelist.Nodup →
      ∀ k < PGSIZE, c'.kernel.memory.page pa k = data k := by
  rcases h with ⟨hP, hva, pa, hpa, hdata⟩ | ⟨hP, hsame⟩
  · refine ⟨?_, fun pa' hpa' => ?_⟩
    · rw [translate_isSome hva hpa, permitted_permW]
      exact (and_iff_left hP).symm
    · rw [translate_pa hpa hpa']
      exact hdata
  · rw [translate_none_of_leaf hfault (hsame ▸ hleaf)]
    exact ⟨by simp [hP], by simp⟩

theorem heapHandle_eq (addr : ℕ) : heapHandle addr i c = makeRoom c >>= fun c₁ =>
    (if (c₁.proc.heapTracker i).loaded then retrievePageFromDisk addr c₁
      else growHeap c₁) >>= fun c₂ => .ok (noteLoad addr c₂) := by
  unfold heapHandle
  apply bind_congr
  intro c₁
  split <;> rfl

/-- When a page is fetched once there is room, and whether it is the page of the fault. -/
theorem fetch_spec (hw : c.table.Wf) (hsz : c.proc.sz < 2 ^ 64) (hva : a.va < 2 ^ 64)
    (hc₁ : RoomMade c c₁) :
    (Returns (if (c₁.proc.heapTracker i).loaded then retrievePageFromDisk a.pageAddr c₁
      else growHeap c₁) ↔ (if (roomTracker c i).loaded then
      (roomBlock a c).isNone ∨ 0 < roomFree c ∧
        (2 ^ 64 ≤ a.pageAddr + PGSIZE ∨ AllocReturns (roomTable c) a.pageAddr (roomFree c - 1))
      else 2 ^ 64 ≤ c.proc.sz + PGSIZE ∨
        AllocReturns (roomTable c) (pgroundup c.proc.sz) (roomFree c))) ∧
    ∀ c₂, (if (c₁.proc.heapTracker i).loaded then retrievePageFromDisk a.pageAddr c₁
      else growHeap c₁) = .ok c₂ → MapsPage a c₁ c₂
        (if (roomTracker c i).loaded then readPage c₁.kernel.disk ((roomBlock a c).getD 0)
          else fun _ => 0)
        (if (roomTracker c i).loaded then
          (roomBlock a c).isSome ∧ AllocMaps (roomTable c) a.pageAddr (roomFree c - 1)
        else c.proc.sz + PGSIZE < 2 ^ 64 ∧ pgroundup c.proc.sz = a.pageAddr ∧
          AllocMaps (roomTable c) a.pageAddr (roomFree c)) := by
  have hw₁ : c₁.table.Wf := hc₁.table ▸ roomTable_wf hw
  have hsz₁ : c₁.proc.sz < 2 ^ 64 := hc₁.sz ▸ hsz
  have hret := retrievePageFromDisk_spec (a := a) hw₁ hc₁.sound hva
  have hgrow := growHeap_spec (a := a) hw₁ hc₁.sound hsz₁
  rw [hc₁.table, hc₁.tracker, hc₁.free, ← roomBlock] at hret
  rw [hc₁.table, hc₁.sz, hc₁.free] at hgrow
  rw [hc₁.tracker]
  by_cases hloaded : (roomTracker c i).loaded = true
  · simp only [if_pos hloaded]
    exact hret
  · simp only [if_neg hloaded]
    exact hgrow

theorem heapHandle_returns_iff (hw : c.table.Wf) (hm : c.kernel.memory.Sound)
    (hsz : c.proc.sz < 2 ^ 64) (hva : a.va < 2 ^ 64) :
    Returns (heapHandle a.pageAddr i c) ↔ HeapReturns a c i := by
  obtain ⟨hroom, hmade⟩ := makeRoom_spec hw hm
  rw [heapHandle_eq, HeapReturns, returns_bind, ← hroom]
  constructor
  · rintro ⟨c₁, hc₁, hrest⟩
    rw [returns_bind] at hrest
    obtain ⟨c₂, hc₂, -⟩ := hrest
    exact ⟨⟨c₁, hc₁⟩, (fetch_spec hw hsz hva (hmade c₁ hc₁)).1.mp ⟨c₂, hc₂⟩⟩
  · rintro ⟨⟨c₁, hc₁⟩, hrest⟩
    obtain ⟨c₂, hc₂⟩ := (fetch_spec hw hsz hva (hmade c₁ hc₁)).1.mpr hrest
    refine ⟨c₁, hc₁, ?_⟩
    rw [returns_bind]
    exact ⟨c₂, hc₂, returns_ok _⟩

/-- When the branch for tracked pages returns, when the access is permitted after it, and
what the page then holds. -/
theorem heapHandle_spec (h : Faulting a c) :
    (Returns (heapHandle a.pageAddr i c) ↔ HeapReturns a c i) ∧
    ∀ c', heapHandle a.pageAddr i c = .ok c' →
      ((translate c'.table a).isSome ↔ HeapMaps a c i) ∧
      (c.kernel.memory.freelist.Nodup →
        (∀ v e, c.table.leaf v = some e → e.pa ∉ c.kernel.memory.freelist) →
        ∀ pa, translate c'.table a = some pa →
          ∀ k < PGSIZE, c'.kernel.memory.page pa k = heapData a c i k) := by
  refine ⟨heapHandle_returns_iff h.wf h.sound h.sz h.va, fun c' h' => ?_⟩
  obtain ⟨-, hmade⟩ := makeRoom_spec h.wf h.sound
  rw [heapHandle_eq] at h'
  obtain ⟨c₁, hc₁, hrest⟩ := bind_ok_iff.mp h'
  obtain ⟨c₂, hc₂, hnote⟩ := bind_ok_iff.mp hrest
  cases hnote
  have hmade₁ := hmade c₁ hc₁
  obtain ⟨hiff, hdata⟩ := ((fetch_spec h.wf h.sz h.va hmade₁).2 c₂ hc₂).translate h.fault
    (by rw [hmade₁.table]; exact roomTable_leaf _)
  refine ⟨hiff, fun hnodup hused pa hpa k hk => ?_⟩
  rw [heapData, ← hmade₁.disk hused]
  exact hdata pa hpa (hmade₁.nodup hnodup) k hk

end Heap

section Cow

variable {a : Access} {c c' : Cpu} {e : Pte}

theorem copyOnWrite_eq {page : ℕ} {m : Memory} (hk : c.kernel.memory.kalloc = some (page, m)) :
    copyOnWrite a.trap c =
      if (copyin c.table page a.pageAddr m).1 = false then
        .error "Shared Page data couldn't be copied to kernel_page"
      else uvmunmap c.running a.pageAddr 1 false ((copyin c.table page a.pageAddr m).2, c.table) >>=
        fun s => uvmalloc c.running a.pageAddr ((a.pageAddr + PGSIZE) % 2 ^ 64) permW s >>= fun x =>
          if (copyout x.2.2 a.pageAddr (x.2.1.page page) PGSIZE x.2.1).1 = false then
            .error "Copying from kernel page to destination address failed"
          else (copyout x.2.2 a.pageAddr (x.2.1.page page) PGSIZE x.2.1).2.kfree page >>= fun m =>
            .ok (c.setSpace (m, x.2.2)) := by
  unfold copyOnWrite
  simp only [hk, Bool.not_eq_true']
  rfl

theorem missingTables_eq_zero {pt : PageTable ℕ} {va : ℕ} (hmid : (pt.mid (midIndex va)).isSome)
    (hlow : (pt.low (lowIndex va)).isSome) : missingTables pt va = 0 := by
  simp [missingTables, Option.isNone_eq_false_iff.mpr hmid, Option.isNone_eq_false_iff.mpr hlow]

/-- When the branch for shared pages returns: it needs a user page, a page for the copy in the
kernel and a page for the process. -/
theorem copyOnWrite_spec (h : Faulting a c) (hva : a.pageAddr < MAXVA)
    (hleaf : c.table.leaf (vpn a.pageAddr) = some e) :
    (Returns (copyOnWrite a.trap c) ↔ e.u = true ∧ 2 ≤ c.kernel.memory.freelist.length) ∧
    ∀ c', copyOnWrite a.trap c = .ok c' → ∃ pa, c'.table.leaf (vpn a.va) = some (permW.pte pa) := by
  have ha := pageAddr_aligned a
  have hmapped : c.table.Mapped a.pageAddr := by simp [Mapped, hleaf]
  have hlow : (c.table.low (lowIndex a.pageAddr)).isSome := h.wf.low_of_leaf _ hmapped
  have hmid : (c.table.mid (midIndex a.pageAddr)).isSome := h.wf.mid_of_low _ hlow
  cases hk : c.kernel.memory.kalloc with
  | none =>
    have hnil := Memory.kalloc_none.mp hk
    have herr : copyOnWrite a.trap c = .error "Kernel Page couldn't be allocated\n" := by
      unfold copyOnWrite
      rw [hk]
    rw [herr]
    exact ⟨⟨fun hret => absurd hret (not_returns_error _), fun hc => by simp [hnil] at hc⟩,
      fun c' h' => by cases h'⟩
  | some q =>
    obtain ⟨page, m⟩ := q
    obtain ⟨hsound, hkend, hlen, -, hpage⟩ := kalloc_sound h.sound hk
    rw [copyOnWrite_eq hk]
    by_cases hu : e.u = true
    · have hwalk := walkaddr_eq h.wf hva hleaf hu
      rw [copyin_mapped hwalk (h.frames _ e hleaf), if_neg (by simp), uvmunmap_unmappable h.wf
        ⟨ha, hva, hmid, hlow⟩, ok_bind]
      have hwf : (c.table.set a.pageAddr none).Wf := h.wf.clear _
      have hsound' : (m.write page (m.page e.pa)).Sound := hsound.of_freelist rfl rfl
      obtain ⟨hret, hspec⟩ :=
        @uvmalloc_pageAddr a c.running permW _ _ hwf hsound' h.va
      have hun : ¬ (c.table.set a.pageAddr none).Mapped a.pageAddr := by simp [Mapped]
      have hmaps : AllocMaps (c.table.set a.pageAddr none) a.pageAddr
          (m.write page (m.page e.pa)).freelist.length ↔ 2 ≤ c.kernel.memory.freelist.length := by
        rw [AllocMaps, missingTables_eq_zero (by simpa using hmid) (by simpa using hlow),
          Memory.write_freelist]
        constructor
        · intro h
          have := h.2.2
          omega
        · intro h
          exact ⟨hva, hun, by omega⟩
      obtain ⟨⟨sz, m₁, pt⟩, hrun⟩ := hret.mpr (Or.inr (Or.inr ⟨hva, hun⟩))
      rw [hrun, ok_bind]
      obtain ⟨hwf₁, ⟨hm, -, pa, taken, htake, hkend₁, -, hleaf₁⟩ | ⟨hm, hleaf₁, -⟩⟩ :=
        hspec sz m₁ pt hrun
      · have hentry : pt.leaf (vpn a.pageAddr) = some (permW.pte pa) := by
          rw [hleaf₁, vpn_pageAddr, Function.update_self]
        have hpa : pa ≠ 0 := (hsound' pa (htake.mem List.mem_cons_self)).1
        have hwalk₁ : pt.walkaddr a.pageAddr = pa := walkaddr_eq hwf₁ hva hentry rfl
        obtain ⟨-, hp₁, hp₂, hp₃⟩ := h.sound page hpage
        have hkends : m₁.kend = c.kernel.memory.kend := hkend₁.trans hkend
        have hfree : ∀ data, ∃ m₂, (m₁.write pa data).kfree page = .ok m₂ := by
          intro data
          unfold Memory.kfree
          rw [Memory.write_kend, hkends, if_neg (by omega)]
          exact ⟨_, rfl⟩
        simp only [copyout_page ha hwalk₁ hpa]
        obtain ⟨m₂, hm₂⟩ := hfree fun j => if j < PGSIZE then m₁.page page j else m₁.page pa j
        rw [if_neg (by simp), hm₂, ok_bind]
        refine ⟨iff_of_true (returns_ok _) ⟨hu, hmaps.mp hm⟩, fun c' h' => ?_⟩
        cases h'
        exact ⟨pa, by rw [← vpn_pageAddr]; exact hentry⟩
      · have hentry : pt.leaf (vpn a.pageAddr) = none := by
          simp [hleaf₁]
        simp only [copyout_unmapped ha (walkaddr_unmapped hentry)]
        exact ⟨iff_of_false (not_returns_error _) fun hc => hm (hmaps.mpr hc.2),
          fun c' h' => by cases h'⟩
    · rw [Bool.not_eq_true] at hu
      rw [copyin_unmapped (walkaddr_not_user hleaf hu), if_pos rfl]
      exact ⟨iff_of_false (not_returns_error _) fun hc => by simp [hu] at hc,
        fun c' h' => by cases h'⟩

/-- When the test for shared pages returns, and what it says. -/
theorem cowFault_spec :
    (Returns (cowFault a.trap c) ↔ CowTestReturns a c) ∧
    ∀ b, cowFault a.trap c = .ok b → (b = true ↔ ∃ e, TakenForCow a c e) := by
  unfold cowFault
  by_cases hcond : c.proc.cowEnabled = true ∧ a.trap.scause = 15
  · rw [if_pos hcond]
    obtain ⟨hcow, hcause⟩ := hcond
    rw [trap_scause] at hcause
    unfold walk
    rw [trap_alignedAddr]
    by_cases hva : MAXVA ≤ a.pageAddr
    · rw [if_pos hva]
      exact ⟨iff_of_false (not_returns_error _) fun h =>
        absurd (h hcow hcause).1 (Nat.not_lt.mpr hva), fun b hb => by cases hb⟩
    · rw [if_neg hva]
      by_cases hmid : (c.table.mid (midIndex a.pageAddr)).isNone = true
      · rw [if_pos hmid]
        refine ⟨iff_of_false (not_returns_error _) fun h => ?_, fun b hb => by cases hb⟩
        have := (h hcow hcause).2.1
        simp only [Option.isNone_iff_eq_none] at hmid
        simp [hmid] at this
      · rw [if_neg hmid]
        by_cases hlow : (c.table.low (lowIndex a.pageAddr)).isNone = true
        · rw [if_pos hlow]
          refine ⟨iff_of_false (not_returns_error _) fun h => ?_, fun b hb => by cases hb⟩
          have := (h hcow hcause).2.2
          simp only [Option.isNone_iff_eq_none] at hlow
          simp [hlow] at this
        · rw [if_neg hlow, ok_bind]
          have htest : CowTestReturns a c := fun _ _ =>
            ⟨Nat.lt_of_not_le hva, by simpa [Option.isSome_iff_ne_none] using hmid,
              by simpa [Option.isSome_iff_ne_none] using hlow⟩
          cases hleaf : c.table.leaf (vpn a.pageAddr) with
          | none =>
            refine ⟨iff_of_true (returns_ok _) htest, fun b hb => ?_⟩
            cases hb
            simp [TakenForCow, hleaf]
          | some e =>
            refine ⟨iff_of_true (returns_ok _) htest, fun b hb => ?_⟩
            cases hb
            simp [TakenForCow, hcow, hcause, hleaf]
  · rw [if_neg hcond]
    rw [trap_scause] at hcond
    refine ⟨iff_of_true (returns_ok _) fun h₁ h₂ => absurd ⟨h₁, h₂⟩ hcond, fun b hb => ?_⟩
    cases hb
    simp only [Bool.false_eq_true, false_iff, not_exists]
    intro e he
    exact hcond ⟨he.1, he.2.1⟩

end Cow

section Load

variable {a : Access} {c c' : Cpu} {f : File} {ph : Proghdr}

theorem loadseg_unmapped {pt : PageTable ℕ} {va offset : ℕ} {m : Memory} (hva : va < 2 ^ 64)
    (h : pt.walkaddr va = 0) :
    loadseg pt va f offset PGSIZE m = .error "loadseg: address should exist" := by
  have hone : pages 0 (PGSIZE % 2 ^ 32) = [0] := by decide
  unfold loadseg
  rw [hone, loadsegLoop, Nat.add_zero, Nat.mod_eq_of_lt hva]
  simp [h]

theorem loadseg_page {pt : PageTable ℕ} {va offset pa : ℕ} {m : Memory} (hva : va < 2 ^ 64)
    (h : pt.walkaddr va = pa) (hpa : pa ≠ 0) :
    loadseg pt va f offset PGSIZE m = .ok
      (decide (f.count (offset % 2 ^ 32) PGSIZE = PGSIZE),
        m.write pa (readi f (offset % 2 ^ 32) PGSIZE (m.page pa)).2) := by
  have hone : pages 0 (PGSIZE % 2 ^ 32) = [0] := by decide
  have hn : min (PGSIZE % 2 ^ 32 - 0) PGSIZE = PGSIZE := by decide
  unfold loadseg
  rw [hone, loadsegLoop, Nat.add_zero, Nat.add_zero, Nat.mod_eq_of_lt hva, Nat.mod_mod, hn]
  simp only [h, hpa, ↓reduceIte, loadsegLoop]
  generalize offset % 2 ^ 32 = off
  by_cases hcount : f.count off PGSIZE = PGSIZE
  · simp [readi, hcount]
  · simp [readi, hcount]

theorem loadFromFile_eq (hf : a.namei c.proc.name = some f)
    (hmagic : (Elfhdr.ofBytes (readi f 0 sizeofElfhdr a.elf).2).magic = ELF_MAGIC)
    (hseg : faultSegment a f = some ph) :
    loadFromFile a.trap c =
      uvmalloc c.running a.pageAddr ((a.pageAddr + PGSIZE) % 2 ^ 64) (flags2perm ph.flags)
        (c.kernel.memory, c.table) >>= fun x =>
      if x.1 = 0 then .error "Failed to allocate a page\n"
      else loadseg x.2.2 a.pageAddr f (ph.off + (a.pageAddr - ph.vaddr)) PGSIZE x.2.1 >>= fun y =>
        if y.1 = false then .error "Failed to load segment\n" else .ok (c.setSpace (y.2, x.2.2)) := by
  unfold loadFromFile
  unfold faultSegment at hseg
  simp only [trap_namei, trap_elf, trap_ph, trap_alignedAddr, hf, hmagic, ne_eq,
    not_true_eq_false, ↓reduceIte, hseg, Bool.not_eq_true']
  rfl

/-- When the branch for program pages returns for a page of a segment. -/
theorem loadFromFile_segment (h : Faulting a c) (hf : a.namei c.proc.name = some f)
    (hmagic : (Elfhdr.ofBytes (readi f 0 sizeofElfhdr a.elf).2).magic = ELF_MAGIC)
    (hseg : faultSegment a f = some ph) :
    (Returns (loadFromFile a.trap c) ↔ SegmentLoads a c f ph) ∧
    ∀ c', loadFromFile a.trap c = .ok c' → a.pageAddr < MAXVA ∧
      ∃ pa, c'.table.leaf (vpn a.va) = some ((flags2perm ph.flags).pte pa) ∧
        ∀ k < PGSIZE, c'.kernel.memory.page pa k =
          f.byte ((ph.off + (a.pageAddr - ph.vaddr)) % 2 ^ 32 + k) := by
  have ha := pageAddr_aligned a
  have hva : a.pageAddr < 2 ^ 64 := by
    have := h.va
    simp only [Access.pageAddr, pgrounddown, PGSIZE]
    omega
  obtain ⟨hret, hspec⟩ :=
    @uvmalloc_pageAddr a c.running (flags2perm ph.flags) _ _ h.wf h.sound h.va
  rw [loadFromFile_eq hf hmagic hseg]
  by_cases hreturns : Returns (uvmalloc c.running a.pageAddr ((a.pageAddr + PGSIZE) % 2 ^ 64)
      (flags2perm ph.flags) (c.kernel.memory, c.table))
  · obtain ⟨⟨sz, m, pt⟩, hrun⟩ := hreturns
    rw [hrun, ok_bind]
    obtain ⟨hwf, ⟨hmaps, hsz, pa, taken, htake, -, -, hleaf⟩ | ⟨hno, hleaf, hfail⟩⟩ :=
      hspec sz m pt hrun
    · have hentry : pt.leaf (vpn a.pageAddr) = some ((flags2perm ph.flags).pte pa) := by
        rw [hleaf, vpn_pageAddr, Function.update_self]
      have hpa : pa ≠ 0 := (h.sound pa (htake.mem List.mem_cons_self)).1
      have hwalk : pt.walkaddr a.pageAddr = pa := walkaddr_eq hwf hmaps.1 hentry rfl
      rw [loadseg_page hva hwalk hpa, if_neg (by simp [hsz]), ok_bind]
      by_cases hcount :
          f.count ((ph.off + (a.pageAddr - ph.vaddr)) % 2 ^ 32) PGSIZE = PGSIZE
      · rw [if_neg (by rw [decide_eq_true hcount]; exact fun h => by cases h)]
        refine ⟨iff_of_true (returns_ok _) ⟨hmaps, hcount⟩, fun c' h' => ?_⟩
        cases h'
        refine ⟨hmaps.1, pa, by rw [← vpn_pageAddr]; exact hentry, fun k hk => ?_⟩
        show (m.write pa _).page pa k = _
        rw [Memory.write_page, Function.update_self, readi]
        simp only
        rw [if_pos (by rw [hcount]; exact hk)]
      · rw [if_pos (decide_eq_false hcount)]
        exact ⟨iff_of_false (not_returns_error _) fun hc => hcount hc.2, fun c' h' => by cases h'⟩
    · have hfails : ∀ result : Except Panic Cpu, (if sz = 0 then .error "Failed to allocate a page\n"
          else loadseg pt a.pageAddr f (ph.off + (a.pageAddr - ph.vaddr)) PGSIZE m >>= fun y =>
            if y.1 = false then .error "Failed to load segment\n"
            else .ok (c.setSpace (y.2, pt))) = result → ¬ Returns result := by
        rintro result rfl
        rcases hfail with hzero | hbig
        · rw [if_pos hzero]
          exact not_returns_error _
        · have hwalk : pt.walkaddr a.pageAddr = 0 := by
            unfold walkaddr
            rw [if_pos hbig]
          split_ifs
          · exact not_returns_error _
          · rw [loadseg_unmapped hva hwalk]
            exact not_returns_error _
      refine ⟨iff_of_false (hfails _ rfl) fun hc => hno hc.1, fun c' h' => ?_⟩
      exact absurd ⟨c', rfl⟩ (hfails _ h')
  · have hstop : ∀ g : ℕ × Space → Except Panic Cpu,
        ¬ Returns (uvmalloc c.running a.pageAddr ((a.pageAddr + PGSIZE) % 2 ^ 64)
          (flags2perm ph.flags) (c.kernel.memory, c.table) >>= g) := by
      intro g hg
      rw [returns_bind] at hg
      obtain ⟨s, hs, -⟩ := hg
      exact hreturns ⟨s, hs⟩
    refine ⟨iff_of_false (hstop _) fun hc => hreturns (hret.mpr (Or.inr hc.1.returns)), ?_⟩
    intro c' h'
    exact absurd ⟨c', h'⟩ (hstop _)

theorem loadFromFile_none (hfile : a.namei c.proc.name = some f)
    (hmagic : (Elfhdr.ofBytes (readi f 0 sizeofElfhdr a.elf).2).magic = ELF_MAGIC)
    (hseg : faultSegment a f = none) : loadFromFile a.trap c = .ok c := by
  unfold loadFromFile
  unfold faultSegment at hseg
  simp only [trap_namei, trap_elf, trap_ph, trap_alignedAddr, hfile, hmagic, ne_eq,
    not_true_eq_false, ↓reduceIte, hseg]

/-- When the branch for program pages returns, when the access is permitted after it, and
what the page then holds. -/
theorem loadFromFile_spec (h : Faulting a c) :
    (Returns (loadFromFile a.trap c) ↔ LoadReturns a c) ∧
    ∀ c', loadFromFile a.trap c = .ok c' → ((translate c'.table a).isSome ↔ LoadMaps a c) ∧
      ∀ pa, translate c'.table a = some pa → ∀ f ph, a.namei c.proc.name = some f →
        faultSegment a f = some ph → ∀ k < PGSIZE, c'.kernel.memory.page pa k =
          f.byte ((ph.off + (a.pageAddr - ph.vaddr)) % 2 ^ 32 + k) := by
  cases hf : a.namei c.proc.name with
  | none =>
    have herr : loadFromFile a.trap c = .error "File not Found\n" := by
      unfold loadFromFile
      simp only [trap_namei, hf]
    rw [herr]
    refine ⟨iff_of_false (not_returns_error _) ?_, fun c' h' => by cases h'⟩
    rintro ⟨f, hf', -⟩
    rw [hf] at hf'
    cases hf'
  | some f =>
    by_cases hmagic : (Elfhdr.ofBytes (readi f 0 sizeofElfhdr a.elf).2).magic = ELF_MAGIC
    · cases hseg : faultSegment a f with
      | none =>
        rw [loadFromFile_none hf hmagic hseg]
        refine ⟨iff_of_true (returns_ok _) ⟨f, hf, hmagic, fun ph hph => ?_⟩, fun c' h' => ?_⟩
        · rw [hseg] at hph
          cases hph
        · cases h'
          rw [h.fault]
          refine ⟨iff_of_false (by simp) ?_, by simp⟩
          rintro ⟨g, ph, hg, hph, -⟩
          rw [hf] at hg
          cases hg
          rw [hseg] at hph
          cases hph
      | some ph =>
        obtain ⟨hret, hspec⟩ := loadFromFile_segment h hf hmagic hseg
        constructor
        · rw [hret]
          constructor
          · intro hloads
            refine ⟨f, hf, hmagic, fun ph' hph' => ?_⟩
            rw [hseg] at hph'
            cases hph'
            exact hloads
          · rintro ⟨g, hg, -, hloads⟩
            rw [hf] at hg
            cases hg
            exact hloads ph hseg
        · intro c' h'
          obtain ⟨hva, pa, hleaf, hbytes⟩ := hspec c' h'
          rw [translate_isSome hva hleaf, permitted_pte]
          refine ⟨⟨?_, ?_⟩, ?_⟩
          · intro hperm
            exact ⟨f, ph, hf, hseg, hperm⟩
          · rintro ⟨g, ph', hg, hph', hperm⟩
            rw [hf] at hg
            cases hg
            rw [hseg] at hph'
            cases hph'
            exact hperm
          · intro pa' hpa' g ph' hg hph'
            rw [translate_pa hleaf hpa']
            obtain rfl := Option.some.inj hg
            rw [hseg] at hph'
            cases hph'
            exact hbytes
    · have herr : loadFromFile a.trap c = .error "Invalid ELF file\n" := by
        unfold loadFromFile
        simp only [trap_namei, trap_elf, hf]
        rw [if_pos hmagic]
      rw [herr]
      refine ⟨iff_of_false (not_returns_error _) ?_, fun c' h' => by cases h'⟩
      rintro ⟨g, hg, hmagic', -⟩
      rw [hf] at hg
      cases hg
      exact hmagic hmagic'

end Load

section Handler

variable {a : Access} {c : Cpu} {killed : Bool}

theorem resolved_iff_handler : Resolved a killed c ↔
    Returns (pageFaultHandler a.trap c) ∧ ∀ c', pageFaultHandler a.trap c = .ok c' →
      killed = true ∨ (translate c'.table a).isSome := by
  unfold Resolved usertrap
  constructor
  · rintro ⟨r, hr, h⟩
    obtain ⟨c', hc', hr⟩ := bind_ok_iff.mp hr
    refine ⟨⟨c', hc'⟩, fun c₁ hc₁ => ?_⟩
    obtain rfl := Except.ok.inj (hc'.symm.trans hc₁)
    cases killed with
    | true => exact Or.inl rfl
    | false =>
      cases hr
      exact Or.inr (h c' rfl)
  · rintro ⟨⟨c', hc'⟩, h⟩
    refine ⟨if killed then none else some c', by rw [hc']; rfl, fun c₁ hc₁ => ?_⟩
    rcases h c' hc' with hk | hsome
    · simp [hk] at hc₁
    · split_ifs at hc₁
      cases hc₁
      exact hsome

/-- A page fault is resolved, or the process dies, exactly in the cases the branches of the
handler are written for. -/
theorem resolved_iff (h : Faulting a c) : Resolved a killed c ↔ Resolvable a c killed := by
  rw [resolved_iff_handler]
  unfold pageFaultHandler Resolvable
  rw [trap_alignedAddr]
  cases pageIndex c.proc.heapTracker a.pageAddr with
  | some i =>
    obtain ⟨hret, hmaps⟩ := heapHandle_spec (i := i) h
    simp only
    rw [hret]
    refine and_congr_right fun hreturns => ?_
    obtain ⟨c', hc'⟩ := hret.mpr hreturns
    constructor
    · intro hall
      exact (hall c' hc').imp_right (hmaps c' hc').1.mp
    · intro hor c₁ hc₁
      exact hor.imp_right (hmaps c₁ hc₁).1.mpr
  | none =>
    obtain ⟨htest, hvalue⟩ := cowFault_spec (a := a) (c := c)
    simp only
    rw [returns_bind]
    by_cases hreturns : CowTestReturns a c
    · obtain ⟨b, hb⟩ := htest.mpr hreturns
      have hcow := hvalue b hb
      simp only [hb, ok_bind, Except.ok.injEq, exists_eq_left', hreturns, true_and]
      cases b with
      | true =>
        obtain ⟨e, he⟩ := hcow.mp rfl
        obtain ⟨hva, -⟩ := hreturns he.1 he.2.1
        obtain ⟨hret, hleaf⟩ := copyOnWrite_spec h hva he.2.2.1
        have hstore : a.op ≠ .fetch := by
          intro hop
          have := he.2.1
          simp [hop, Op.scause] at this
        have hpermits : ∀ c', copyOnWrite a.trap c = .ok c' → (translate c'.table a).isSome := by
          intro c' hc'
          obtain ⟨pa, hpa⟩ := hleaf c' hc'
          rw [translate_isSome hva hpa, permitted_permW]
          exact hstore
        simp only [↓reduceIte]
        rw [hret]
        constructor
        · rintro ⟨hcond, -⟩
          exact Or.inl ⟨e, he, hcond⟩
        · rintro (⟨e', he', hcond⟩ | ⟨hno, -⟩)
          · obtain rfl : e = e' := Option.some.inj (he.2.2.1.symm.trans he'.2.2.1)
            exact ⟨hcond, fun c' hc' => Or.inr (hpermits c' hc')⟩
          · exact absurd he (hno e)
      | false =>
        have hno : ∀ e, ¬ TakenForCow a c e := fun e he => by simpa using hcow.mpr ⟨e, he⟩
        obtain ⟨hret, hmaps⟩ := loadFromFile_spec h
        simp only [Bool.false_eq_true, ↓reduceIte]
        rw [hret]
        constructor
        · rintro ⟨hloads, hall⟩
          obtain ⟨c', hc'⟩ := hret.mpr hloads
          exact Or.inr ⟨hno, hloads, (hall c' hc').imp_right (hmaps c' hc').1.mp⟩
        · rintro (⟨e, he, -⟩ | ⟨-, hloads, hor⟩)
          · exact absurd he (hno e)
          · exact ⟨hloads, fun c' hc' => hor.imp_right (hmaps c' hc').1.mpr⟩
    · refine iff_of_false ?_ fun hc => hreturns hc.1
      rintro ⟨⟨b, hb, -⟩, -⟩
      exact hreturns (htest.mp ⟨b, hb⟩)

end Handler

section Sample

def sampleFile : File where
  size := 64
  byte i := if i = 0 then 0x7f else if i = 1 then 0x45 else if i = 2 then 0x4c
    else if i = 3 then 0x46 else 0
  size_le := by decide

/-- A load from page 3, beyond the size of the process. -/
def strayLoad : Access := ⟨.load, PGSIZE * 3, fun _ => some sampleFile, fun _ => 0, fun _ => 0⟩

def sampleCpu : Cpu := ⟨sampleKernel 4, sampleProc 0, sampleTable 0⟩

theorem sampleKernel_sound (count : ℕ) (h : count ≤ 1000) : (sampleKernel count).memory.Sound := by
  intro q hq
  obtain ⟨i, hi, rfl⟩ := List.mem_map.mp hq
  have hlt := List.mem_range.mp hi
  simp only [sampleKernel, PHYSTOP, KERNBASE, PGSIZE] at *
  omega

theorem sampleTable_frames (stack i : ℕ) (e : Pte) (h : (sampleTable stack).leaf i = some e) :
    e.pa ≠ 0 := by
  simp only [sampleTable] at h
  split_ifs at h <;>
    · cases h
      decide

theorem strayLoad_faulting : Faulting strayLoad sampleCpu where
  va := by decide
  sz := by decide
  wf := sampleTable_wf (by decide)
  frames := sampleTable_frames 0
  sound := sampleKernel_sound 4 (by decide)
  fault := by decide

/-- A load from a page of no segment and no heap. -/
theorem strayLoad_resolved_iff :
    Resolved strayLoad false sampleCpu ↔ Resolvable strayLoad sampleCpu false :=
  resolved_iff strayLoad_faulting

theorem pageIndex_clear {addr : ℕ} (h : addr ≠ unset) :
    pageIndex (fun _ => .clear) addr = none := by
  unfold pageIndex
  rw [List.find?_eq_none]
  intro i _
  simpa using h.symm

/-- No branch of the handler is for the load: it is made again and again. -/
theorem stray_load_loops : Faulting strayLoad sampleCpu ∧ ¬ Resolved strayLoad false sampleCpu := by
  refine ⟨strayLoad_faulting, fun h => ?_⟩
  have hindex : pageIndex sampleCpu.proc.heapTracker strayLoad.pageAddr = none :=
    pageIndex_clear (by decide)
  have hrun : pageFaultHandler strayLoad.trap sampleCpu = .ok sampleCpu := by
    unfold pageFaultHandler
    rw [trap_alignedAddr, hindex]
    rfl
  obtain ⟨r, hr, hsome⟩ := h
  unfold usertrap at hr
  rw [hrun] at hr
  cases hr
  have := hsome sampleCpu rfl
  rw [strayLoad_faulting.fault] at this
  cases this

end Sample

end AdvancedOperatingSystems.DemandPaging
