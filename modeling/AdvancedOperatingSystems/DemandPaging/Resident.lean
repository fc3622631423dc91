import AdvancedOperatingSystems.DemandPaging.HeapAccount
import AdvancedOperatingSystems.DemandPaging.Sbrk

/-!
# The number of resident pages

The handler counts a page as resident whenever a fault of a tracked page returns, and tells a
resident page from the tracker, in which one that was never mapped looks the same.
-/

namespace AdvancedOperatingSystems.DemandPaging

open Foundations Riscv Riscv.PageTable

section Definitions

variable (p : Proc) (pt : PageTable ℕ)

def Tracked (page : ℕ) : Prop := page ≠ unset ∧ ∃ i < MAXHEAP, (p.heapTracker i).addr = page

def residentPages : Finset ℕ :=
  ((Finset.range MAXHEAP).filter fun i => (p.heapTracker i).addr ≠ unset ∧
    pt.Mapped (p.heapTracker i).addr).image fun i => (p.heapTracker i).addr

/-- The count is the number of resident pages, and they are no more than are allowed. -/
structure Accurate : Prop where
  count : p.residentHeapPages = (residentPages p pt).card
  room : p.residentHeapPages ≤ MAXRESHEAP

/-- The entry `evict_page_to_disk` would choose is that of a resident page. -/
def VictimResident : Prop :=
  ∃ v, victimPageIndex p.heapTracker = some v ∧ (p.heapTracker v).addr ∈ residentPages p pt

/-- Of the entries that are not marked as on disk, that of some resident page comes before
those of all pages that are not resident: it has a lower load time, or the same and a lower
index. -/
def ResidentFirst : Prop :=
  ∃ v < MAXHEAP, (p.heapTracker v).addr ∈ residentPages p pt ∧ (p.heapTracker v).loaded = false ∧
    ∀ i < MAXHEAP, (p.heapTracker i).loaded = false → (p.heapTracker i).addr ∉ residentPages p pt →
      (p.heapTracker v).lastLoadTime < (p.heapTracker i).lastLoadTime ∨
        (p.heapTracker v).lastLoadTime = (p.heapTracker i).lastLoadTime ∧ v ≤ i

end Definitions

/-- The state of the processor when the event occurs. -/
def HeapUse.at (s : HeapUse) (e : Touch) : Cpu := ⟨e.kernel, s.cpu.proc, s.cpu.table⟩

/-- A fault occurs where the access is not permitted. The allocator has pages of memory. -/
def HeapEvent.Occurs (s : HeapUse) (e : HeapEvent) : Prop :=
  ∀ touch, e = .fault touch → touch.access.va < 2 ^ 64 ∧ touch.kernel.memory.Sound ∧
    translate s.cpu.table touch.access = none

/-- The account is right after the event, and if it evicts a page that is a resident one. -/
def StaysAccurate (s : HeapUse) (e : HeapEvent) : Prop :=
  (∀ touch k, e = .fault touch → pageIndex s.cpu.proc.heapTracker touch.access.pageAddr = some k →
    Crowded (s.at touch) → VictimResident s.cpu.proc s.cpu.table) ∧
  ∀ t, heapStep s e = .ok t → Accurate t.cpu.proc t.cpu.table

/-- A call of `sbrk` takes no entry for a mapped page that has none. A fault of a tracked page
finds a resident page first if it has to evict one, and then maps a tracked page if it does
not panic. -/
def Accounted (s : HeapUse) : HeapEvent → Prop
  | .sbrk n => Trackable s.cpu.proc.heapTracker n →
      ∀ i ∈ takenEntries s.cpu.proc.heapTracker n,
        s.cpu.table.Mapped ((s.cpu.proc.sz + PGSIZE * i) % 2 ^ 64) →
          Tracked s.cpu.proc ((s.cpu.proc.sz + PGSIZE * i) % 2 ^ 64)
  | .fault touch => ∀ k, pageIndex s.cpu.proc.heapTracker touch.access.pageAddr = some k →
      (Crowded (s.at touch) → ResidentFirst s.cpu.proc s.cpu.table) ∧
      (HeapReturns touch.access (s.at touch) k → FetchMaps touch.access (s.at touch) k ∧
        Tracked s.cpu.proc (fetchedPage touch.access (s.at touch) k))

/-- An on-demand process with page-aligned sizes and addresses and a well-formed table. -/
structure Paged (p : Proc) (pt : PageTable ℕ) : Prop where
  ondemand : p.ondemand = true
  sz : p.sz < 2 ^ 64
  sz_aligned : p.sz % PGSIZE = 0
  wf : pt.Wf
  addr : ∀ i, (p.heapTracker i).addr = unset ∨ (p.heapTracker i).addr % PGSIZE = 0

section Account

variable {p p' : Proc} {pt pt' : PageTable ℕ} {page : ℕ}

theorem mem_residentPages : page ∈ residentPages p pt ↔ Tracked p page ∧ pt.Mapped page := by
  simp only [residentPages, Tracked, Finset.mem_image, Finset.mem_filter, Finset.mem_range]
  constructor
  · rintro ⟨i, ⟨hi, hne, hmapped⟩, rfl⟩
    exact ⟨⟨hne, i, hi, rfl⟩, hmapped⟩
  · rintro ⟨⟨hne, i, hi, rfl⟩, hmapped⟩
    exact ⟨i, ⟨hi, hne, hmapped⟩, rfl⟩

theorem AddrsKept.tracked (h : AddrsKept p p') : Tracked p' page ↔ Tracked p page := by
  simp only [Tracked, h.addr]

theorem Tracked.aligned (h : Tracked p page) (hp : Paged p pt) : page % PGSIZE = 0 := by
  obtain ⟨hne, i, -, rfl⟩ := h
  exact (hp.addr i).resolve_left hne

theorem victimResident_iff : VictimResident p pt ↔ ResidentFirst p pt := by
  unfold VictimResident ResidentFirst
  simp only [victimPageIndex_iff]
  constructor
  · rintro ⟨v, ⟨hv, hl, hleast⟩, hres⟩
    exact ⟨v, hv, hres, hl, fun i hi hli _ => hleast i hi hli⟩
  · rintro ⟨v, hv, hres, hl, hbefore⟩
    obtain ⟨w, hw, hfound, hwl, hle⟩ := victimPageIndex_spec hv hl
    obtain ⟨-, -, hleast⟩ := victimPageIndex_iff.mp hfound
    refine ⟨w, ⟨hw, hwl, hleast⟩, ?_⟩
    by_contra hnot
    have hfirst := hbefore w hw hwl hnot
    have hlast := hleast v hv hl
    have hne : v ≠ w := by
      rintro rfl
      exact hnot hres
    omega

theorem Fresh.paged (F : Fresh p pt) : Paged p pt where
  ondemand := F.ondemand
  sz := by
    have := F.sz_le
    simp only [TRAPFRAME, TRAMPOLINE, MAXVA, PGSIZE] at this
    omega
  sz_aligned := F.aligned
  wf := F.wf
  addr := by
    intro i
    rw [F.tracker]
    exact Or.inl rfl

theorem Fresh.accurate (F : Fresh p pt) : Accurate p pt where
  count := by
    have hnone : residentPages p pt = ∅ := by
      apply Finset.eq_empty_of_forall_notMem
      intro page hpage
      obtain ⟨⟨hne, i, -, rfl⟩, -⟩ := mem_residentPages.mp hpage
      rw [F.tracker] at hne
      exact hne rfl
    rw [F.resident, hnone, Finset.card_empty]
  room := by
    rw [F.resident]
    exact Nat.zero_le _

end Account

section Fault

variable {a : Access} {c c' : Cpu} {k : ℕ}

theorem mapped_clear {pt : PageTable ℕ} {page victim : ℕ} :
    (pt.set victim none).Mapped page ↔ pt.Mapped page ∧ vpn page ≠ vpn victim := by
  unfold Mapped
  rw [set_leaf]
  by_cases h : vpn page = vpn victim
  · simp [h]
  · simp [h]

/-- Making room leaves the account right and room for another page. -/
theorem room_accurate (hp : Paged c.proc c.table) (ha : Accurate c.proc c.table)
    (hv : Crowded c → VictimResident c.proc c.table) :
    roomResident c = (residentPages c.proc (roomTable c)).card ∧ roomResident c < MAXRESHEAP := by
  by_cases hfull : Crowded c
  · obtain ⟨v, hvictim, hres⟩ := hv hfull
    have hev : evictee c = some v := by rw [evictee, if_pos hfull, hvictim]
    have hroom : roomTable c = c.table.set (c.proc.heapTracker v).addr none := by
      rw [roomTable, hev]
    have hset : residentPages c.proc (roomTable c) =
        (residentPages c.proc c.table).erase (c.proc.heapTracker v).addr := by
      ext page
      rw [Finset.mem_erase, mem_residentPages, mem_residentPages, hroom, mapped_clear]
      have htracked := (mem_residentPages.mp hres).1
      constructor
      · rintro ⟨ht, hm, hne⟩
        exact ⟨fun heq => hne (by rw [heq]), ht, hm⟩
      · rintro ⟨hne, ht, hm⟩
        exact ⟨ht, hm, fun heq => hne (vpn_inj (ht.aligned hp) (htracked.aligned hp) heq)⟩
    have hcount := ha.count
    have hmax : c.proc.residentHeapPages = MAXRESHEAP := hfull
    rw [hset, Finset.card_erase_of_mem hres, roomResident, if_pos hfull, ← hcount, hmax]
    decide
  · have hev : evictee c = none := if_neg hfull
    have hroom : roomTable c = c.table := by rw [roomTable, hev]
    rw [roomResident, if_neg hfull, hroom]
    exact ⟨ha.count, lt_of_le_of_ne ha.room hfull⟩

theorem fetchedPage_aligned : fetchedPage a c k % PGSIZE = 0 := by
  unfold fetchedPage
  split_ifs
  · exact pageAddr_aligned a
  · exact pgroundup_aligned _

theorem FetchMaps.unmapped (h : FetchMaps a c k) : ¬ (roomTable c).Mapped (fetchedPage a c k) := by
  unfold FetchMaps at h
  unfold fetchedPage
  split_ifs at h ⊢
  · exact h.2.2.1
  · exact h.2.2.1

/-- The tracked pages that are mapped after a fault. -/
theorem Fetched.mem_residentPages (h : Fetched a c k c') (hp : Paged c.proc c.table) {page : ℕ} :
    page ∈ residentPages c'.proc c'.table ↔ page ∈ residentPages c.proc (roomTable c) ∨
      FetchMaps a c k ∧ Tracked c.proc page ∧ page = fetchedPage a c k := by
  have htracked : Tracked c'.proc page ↔ Tracked c.proc page := by
    simp only [Tracked, h.tracker, notedEntry_addr]
  rw [DemandPaging.mem_residentPages, DemandPaging.mem_residentPages, htracked]
  unfold Mapped
  rcases h.mapping with ⟨hmaps, pa, -, hleaf⟩ | ⟨hno, hleaf⟩
  · rw [hleaf]
    by_cases hpage : page = fetchedPage a c k
    · subst hpage
      constructor
      · rintro ⟨ht, -⟩
        exact Or.inr ⟨hmaps, ht, rfl⟩
      · rintro (⟨ht, -⟩ | ⟨-, ht, -⟩)
        · exact ⟨ht, by simp⟩
        · exact ⟨ht, by simp⟩
    · constructor
      · rintro ⟨ht, hm⟩
        have hne : vpn page ≠ vpn (fetchedPage a c k) := by
          intro heq
          exact hpage (vpn_inj (ht.aligned hp) fetchedPage_aligned heq)
        rw [Function.update_of_ne hne] at hm
        exact Or.inl ⟨ht, hm⟩
      · rintro (⟨ht, hm⟩ | ⟨-, -, heq⟩)
        · have hne : vpn page ≠ vpn (fetchedPage a c k) := by
            intro heq
            exact hpage (vpn_inj (ht.aligned hp) fetchedPage_aligned heq)
          rw [Function.update_of_ne hne]
          exact ⟨ht, hm⟩
        · exact absurd heq hpage
  · rw [hleaf]
    simp [hno]

/-- After a fault the account is right if and only if a tracked page has been mapped. -/
theorem Fetched.accurate_iff (h : Fetched a c k c') (hp : Paged c.proc c.table)
    (ha : Accurate c.proc c.table) (hv : Crowded c → VictimResident c.proc c.table) :
    Accurate c'.proc c'.table ↔ FetchMaps a c k ∧ Tracked c.proc (fetchedPage a c k) := by
  obtain ⟨hcount, hroom⟩ := room_accurate hp ha hv
  constructor
  · intro hacc
    by_contra hno
    have hset : residentPages c'.proc c'.table = residentPages c.proc (roomTable c) := by
      ext page
      rw [h.mem_residentPages hp, or_iff_left]
      rintro ⟨hmaps, ht, rfl⟩
      exact hno ⟨hmaps, ht⟩
    have hcount' := hacc.count
    rw [hset, h.resident, hcount] at hcount'
    omega
  · rintro ⟨hmaps, ht⟩
    have hnew : fetchedPage a c k ∉ residentPages c.proc (roomTable c) := by
      intro hmem
      exact hmaps.unmapped (DemandPaging.mem_residentPages.mp hmem).2
    have hset : residentPages c'.proc c'.table =
        insert (fetchedPage a c k) (residentPages c.proc (roomTable c)) := by
      ext page
      rw [h.mem_residentPages hp, Finset.mem_insert, or_comm]
      apply or_congr_left
      constructor
      · rintro ⟨-, -, rfl⟩
        rfl
      · rintro rfl
        exact ⟨hmaps, ht, rfl⟩
    constructor
    · rw [hset, h.resident, hcount, Finset.card_insert_of_notMem hnew]
    · rw [h.resident]
      exact hroom

end Fault

section Step

variable {s t : HeapUse} {e : HeapEvent} {touch : Touch} {n : Int}

theorem pageFaultHandler_branch {k : ℕ} {a : Access} {c : Cpu}
    (hk : pageIndex c.proc.heapTracker a.pageAddr = some k) :
    pageFaultHandler a.trap c = heapHandle a.pageAddr k c := by
  unfold pageFaultHandler
  rw [trap_alignedAddr, hk]

theorem heapStep_handler (h : heapStep s (.fault touch) = .ok t) :
    pageFaultHandler touch.access.trap (s.at touch) = .ok t.cpu := by
  obtain ⟨c', hc', h⟩ := bind_ok_iff.mp h
  cases h
  exact hc'

/-- A fault keeps the process in order. -/
theorem Paged.fault (hp : Paged s.cpu.proc s.cpu.table) (hoccurs : (HeapEvent.fault touch).Occurs s)
    (h : heapStep s (.fault touch) = .ok t) : Paged t.cpu.proc t.cpu.table := by
  obtain ⟨hva, hm, -⟩ := hoccurs touch rfl
  obtain ⟨hkept, -⟩ := heapStep_fault h
  have hrun := heapStep_handler h
  have hwf : t.cpu.table.Wf := by
    cases hk : pageIndex s.cpu.proc.heapTracker touch.access.pageAddr with
    | none =>
      exact (@pageFaultHandler_elsewhere touch.access (s.at touch) t.cpu hp.wf hm hva hk hrun).1
    | some k =>
      rw [@pageFaultHandler_branch k touch.access (s.at touch) hk] at hrun
      exact (@heapHandle_fetched touch.access (s.at touch) t.cpu k hp.wf hm hp.sz hva hrun).wf
  constructor
  · exact hkept.ondemand.trans hp.ondemand
  · exact hkept.sz hp.sz
  · exact hkept.aligned hp.sz_aligned
  · exact hwf
  · intro i
    rw [hkept.addr i]
    exact hp.addr i

theorem Paged.sbrk (hp : Paged s.cpu.proc s.cpu.table) (h : heapStep s (.sbrk n) = .ok t) :
    Paged t.cpu.proc t.cpu.table := by
  rw [heapStep_sbrk hp.ondemand] at h
  split_ifs at h
  cases h
  constructor
  · exact hp.ondemand
  · exact hp.sz
  · exact hp.sz_aligned
  · exact hp.wf
  · intro i
    show (trackPages _ _ _ i).addr = _ ∨ (trackPages _ _ _ i).addr % _ = _
    unfold trackPages
    split_ifs
    · right
      have := hp.sz_aligned
      simp only [PGSIZE] at *
      omega
    · exact hp.addr i

theorem untracked_mapped {a : Access} {c c' : Cpu} {page : ℕ} (hp : Paged c.proc c.table)
    (hm : c.kernel.memory.Sound) (hva : a.va < 2 ^ 64)
    (hk : pageIndex c.proc.heapTracker a.pageAddr = none)
    (h : pageFaultHandler a.trap c = .ok c') (ht : Tracked c.proc page) :
    c'.table.Mapped page ↔ c.table.Mapped page := by
  obtain ⟨-, hleaf⟩ := pageFaultHandler_elsewhere hp.wf hm hva hk h
  unfold Mapped
  rw [hleaf]
  intro heq
  -- the page of the fault would be tracked
  have hpage : page = a.pageAddr := by
    apply vpn_inj (ht.aligned hp) (pageAddr_aligned a)
    rw [vpn_pageAddr]
    exact heq
  obtain ⟨-, i, hi, haddr⟩ := ht
  exact pageIndex_eq_none.mp hk i hi (haddr.trans hpage)

theorem untracked_accurate {a : Access} {c c' : Cpu} (hp : Paged c.proc c.table)
    (hm : c.kernel.memory.Sound) (hva : a.va < 2 ^ 64)
    (hk : pageIndex c.proc.heapTracker a.pageAddr = none)
    (h : pageFaultHandler a.trap c = .ok c') (ha : Accurate c.proc c.table) :
    Accurate c'.proc c'.table := by
  have hproc := @pageFaultHandler_proc a.trap c c' hk h
  have hset : residentPages c.proc c'.table = residentPages c.proc c.table := by
    ext page
    rw [mem_residentPages, mem_residentPages]
    exact and_congr_right fun ht => untracked_mapped hp hm hva hk h ht
  have hcount := ha.count
  rw [← hset] at hcount
  rw [hproc]
  exact ⟨hcount, ha.room⟩

theorem tracked_sbrk {page : ℕ} (h : page % PGSIZE = 0) :
    Tracked (s.cpu.withTracker (trackPages s.cpu.proc.sz (takenEntries s.cpu.proc.heapTracker n)
        s.cpu.proc.heapTracker)).proc page ↔
      Tracked s.cpu.proc page ∨ ∃ i ∈ takenEntries s.cpu.proc.heapTracker n,
        (s.cpu.proc.sz + PGSIZE * i) % 2 ^ 64 = page := by
  have hne : page ≠ unset := (ne_unset_of_aligned h).symm
  have hholds := fun i => @trackPages_addr_iff s n page i h
  unfold Tracked
  constructor
  · rintro ⟨-, i, hi, haddr⟩
    rcases (hholds i).mp haddr with hold | hnew
    · exact Or.inl ⟨hne, i, hi, hold⟩
    · exact Or.inr ⟨i, hnew⟩
  · rintro (⟨-, i, hi, haddr⟩ | ⟨i, hmem, haddr⟩)
    · exact ⟨hne, i, hi, (hholds i).mpr (Or.inl haddr)⟩
    · exact ⟨hne, i, (mem_takenEntries hmem).1, (hholds i).mpr (Or.inr ⟨hmem, haddr⟩)⟩

/-- A call keeps the account right unless it takes an entry for a mapped page. -/
theorem sbrk_accurate_iff (hp : Paged s.cpu.proc s.cpu.table)
    (ha : Accurate s.cpu.proc s.cpu.table) (h : heapStep s (.sbrk n) = .ok t) :
    Accurate t.cpu.proc t.cpu.table ↔ ∀ i ∈ takenEntries s.cpu.proc.heapTracker n,
      s.cpu.table.Mapped ((s.cpu.proc.sz + PGSIZE * i) % 2 ^ 64) →
        Tracked s.cpu.proc ((s.cpu.proc.sz + PGSIZE * i) % 2 ^ 64) := by
  have hp' := hp.sbrk h
  rw [heapStep_sbrk hp.ondemand] at h
  split_ifs at h
  cases h
  have hsub : residentPages s.cpu.proc s.cpu.table ⊆ residentPages (s.cpu.withTracker
      (trackPages s.cpu.proc.sz (takenEntries s.cpu.proc.heapTracker n)
        s.cpu.proc.heapTracker)).proc s.cpu.table := by
    intro page hpage
    obtain ⟨ht, hm⟩ := mem_residentPages.mp hpage
    exact mem_residentPages.mpr ⟨(tracked_sbrk (ht.aligned hp)).mpr (Or.inl ht), hm⟩
  constructor
  · intro ha' i hi hm
    have hcount : (residentPages (s.cpu.withTracker (trackPages s.cpu.proc.sz
        (takenEntries s.cpu.proc.heapTracker n) s.cpu.proc.heapTracker)).proc s.cpu.table).card ≤
        (residentPages s.cpu.proc s.cpu.table).card := by
      rw [← ha.count]
      exact ha'.count.ge
    have heq := Finset.eq_of_subset_of_card_le hsub hcount
    have halign : (s.cpu.proc.sz + PGSIZE * i) % 2 ^ 64 % PGSIZE = 0 := by
      have := hp.sz_aligned
      simp only [PGSIZE] at *
      omega
    have hmem := mem_residentPages.mpr ⟨(tracked_sbrk halign).mpr (Or.inr ⟨i, hi, rfl⟩), hm⟩
    rw [← heq] at hmem
    exact (mem_residentPages.mp hmem).1
  · intro htaken
    have heq : residentPages (s.cpu.withTracker (trackPages s.cpu.proc.sz
        (takenEntries s.cpu.proc.heapTracker n) s.cpu.proc.heapTracker)).proc s.cpu.table =
        residentPages s.cpu.proc s.cpu.table := by
      apply Finset.Subset.antisymm _ hsub
      intro page hpage
      obtain ⟨ht, hm⟩ := mem_residentPages.mp hpage
      rcases (tracked_sbrk (ht.aligned hp')).mp ht with hold | ⟨i, hi, rfl⟩
      · exact mem_residentPages.mpr ⟨hold, hm⟩
      · exact mem_residentPages.mpr ⟨htaken i hi hm, hm⟩
    have hcount := ha.count
    rw [← heq] at hcount
    exact ⟨hcount, ha.room⟩

/-- Exactly which events keep the account right. -/
theorem staysAccurate_iff (hp : Paged s.cpu.proc s.cpu.table) (hoccurs : e.Occurs s)
    (ha : Accurate s.cpu.proc s.cpu.table) : StaysAccurate s e ↔ Accounted s e := by
  cases e with
  | sbrk n =>
    have hnone : ∀ touch k, HeapEvent.sbrk n = .fault touch →
        pageIndex s.cpu.proc.heapTracker touch.access.pageAddr = some k →
        Crowded (s.at touch) → VictimResident s.cpu.proc s.cpu.table := by
      intro touch k heq
      cases heq
    constructor
    · rintro ⟨-, hafter⟩ hcan
      have hrun := @heapStep_sbrk s n hp.ondemand
      rw [if_pos hcan] at hrun
      exact (sbrk_accurate_iff hp ha hrun).mp (hafter _ hrun)
    · intro htaken
      refine ⟨hnone, fun t ht => (sbrk_accurate_iff hp ha ht).mpr (htaken ?_)⟩
      rw [heapStep_sbrk hp.ondemand] at ht
      by_contra hcan
      rw [if_neg hcan] at ht
      cases ht
  | fault touch =>
    obtain ⟨hva, hm, -⟩ := hoccurs touch rfl
    cases hk : pageIndex s.cpu.proc.heapTracker touch.access.pageAddr with
    | none =>
      constructor
      · intro _ k hk'
        rw [hk] at hk'
        cases hk'
      · intro _
        constructor
        · intro touch' k heq hk'
          cases heq
          rw [hk] at hk'
          cases hk'
        · intro t ht
          exact @untracked_accurate touch.access (s.at touch) t.cpu hp hm hva hk (heapStep_handler ht) ha
    | some k =>
      have hbranch := @pageFaultHandler_branch k touch.access (s.at touch) hk
      have hfetched : ∀ c', heapHandle touch.access.pageAddr k (s.at touch) = .ok c' →
          Fetched touch.access (s.at touch) k c' :=
        fun c' hc' => heapHandle_fetched hp.wf hm hp.sz hva hc'
      have hreturns := @heapHandle_returns_iff touch.access (s.at touch) k hp.wf hm hp.sz hva
      constructor
      · rintro ⟨hvictim, hafter⟩ k' hk'
        obtain rfl := Option.some.inj (hk.symm.trans hk')
        have hv := hvictim touch k rfl hk
        refine ⟨fun hfull => victimResident_iff.mp (hv hfull), fun hret => ?_⟩
        obtain ⟨c', hc'⟩ := hreturns.mpr hret
        have hrun : heapStep s (.fault touch) = .ok ⟨c', s.ranges⟩ := by
          show (pageFaultHandler touch.access.trap (s.at touch) >>= _) = _
          rw [hbranch, hc']
          rfl
        exact ((hfetched c' hc').accurate_iff hp ha hv).mp (hafter _ hrun)
      · intro haccounted
        obtain ⟨hfirst, hfetch⟩ := haccounted k hk
        have hv : Crowded (s.at touch) → VictimResident s.cpu.proc s.cpu.table :=
          fun hfull => victimResident_iff.mpr (hfirst hfull)
        constructor
        · intro touch' k' heq _ hfull
          cases heq
          exact hv hfull
        · intro t ht
          have hc' := heapStep_handler ht
          rw [hbranch] at hc'
          exact ((hfetched t.cpu hc').accurate_iff hp ha hv).mpr
            (hfetch (hreturns.mp ⟨t.cpu, hc'⟩))

theorem Paged.step (hp : Paged s.cpu.proc s.cpu.table) (hoccurs : e.Occurs s)
    (h : heapStep s e = .ok t) : Paged t.cpu.proc t.cpu.table := by
  cases e with
  | sbrk n => exact hp.sbrk h
  | fault touch => exact hp.fault hoccurs h

end Step

/-- In every run of an on-demand process the account is right in all states, and all evicted
pages are resident ones, if and only if it is right at first, as `exec` leaves it, and no
event of the run spoils it. -/
theorem resident_accurate_iff {s : HeapUse} {es : List HeapEvent}
    (hp : Paged s.cpu.proc s.cpu.table)
    (hoccurs : Guarded heapStep HeapEvent.Occurs s es) :
    (Accurate s.cpu.proc s.cpu.table ∧ Guarded heapStep StaysAccurate s es ↔
      Accurate s.cpu.proc s.cpu.table ∧ Guarded heapStep Accounted s es) ∧
    (Fresh s.cpu.proc s.cpu.table → Accurate s.cpu.proc s.cpu.table) := by
  refine ⟨and_congr_right fun ha => ?_, fun F => F.accurate⟩
  apply guarded_congr (I := fun s => Paged s.cpu.proc s.cpu.table ∧
    Accurate s.cpu.proc s.cpu.table) _ _ ⟨hp, ha⟩ hoccurs
  · intro s e h he
    exact staysAccurate_iff h.1 he h.2
  · intro s e t h he haccounted hstep
    exact ⟨h.1.step he hstep, ((staysAccurate_iff h.1 he h.2).mpr haccounted).2 t hstep⟩

section Sample

variable {s t : HeapUse} {n : Int}

/-- An instruction fetch from the first heap page of the sample process. -/
def heapFetch : Access := ⟨.fetch, PGSIZE * 2, fun _ => none, fun _ => 0, fun _ => 0⟩

theorem heapFetch_pageAddr : heapFetch.pageAddr = PGSIZE * (2 + 0) := by decide

def onePageKernel (q : ℕ) : Kernel :=
  { sampleKernel 0 with memory := { (sampleKernel 0).memory with freelist := [PGSIZE * q] } }

theorem onePageKernel_sound {q : ℕ} (h : 524288 ≤ q ∧ q < 557056) :
    (onePageKernel q).memory.Sound := by
  intro page hpage
  obtain rfl := List.mem_singleton.mp hpage
  simp only [onePageKernel, sampleKernel, PGSIZE, PHYSTOP, KERNBASE]
  omega

theorem heapStep_growproc (h : heapStep s (.sbrk n) = .ok t) :
    ∃ ok, growproc n s.cpu = .ok (ok, t.cpu) := by
  obtain ⟨⟨addr, c⟩, hcall, h⟩ := bind_ok_iff.mp h
  obtain ⟨⟨ok, c'⟩, hgrow, hcall⟩ := bind_ok_iff.mp hcall
  cases hcall
  cases h
  exact ⟨ok, hgrow⟩

theorem onePageKernel_supplies (q : ℕ) (h : q ≠ 0) : (onePageKernel q).memory.Supplies 1 where
  nodup := List.nodup_singleton _
  nonzero := by
    simp only [onePageKernel, List.mem_singleton, PGSIZE]
    omega
  enough := le_rfl

/-- The first fetch from the page maps it. -/
theorem first_fetch (H : Heap 2 1 0 s.cpu.proc s.cpu.table)
    (htable : s.cpu.table = sampleTable 0) :
    ∃ t, heapStep s (.fault ⟨onePageKernel 525200, heapFetch⟩) = .ok t ∧
      Heap 2 1 1 t.cpu.proc t.cpu.table ∧ (t.cpu.proc.heapTracker 0).loaded = false := by
  rw [htable] at H
  have hpages : faultPages s.cpu.proc s.cpu.table (PGSIZE * (2 + 0)) = 1 := by
    rw [htable]
    exact sample_faultPages (by decide) H (by decide)
  rw [← htable] at H
  obtain ⟨c₁, pa, taken, m, pt, hmade, H₁, hlt₁, -, hhandle, -, -, hleaf, hwf⟩ :=
    @heapHandle_untouched 2 1 0 0 (s.at ⟨onePageKernel 525200, heapFetch⟩) H le_rfl (by decide)
      (by decide) (by
        show (onePageKernel 525200).memory.Supplies
          (faultPages s.cpu.proc s.cpu.table (PGSIZE * (2 + 0)))
        rw [hpages]
        exact onePageKernel_supplies _ (by decide))
  have hbranch := @Heap.handler_eq 2 1 0 s.cpu.proc s.cpu.table H heapFetch (onePageKernel 525200)
    0 (by decide) heapFetch_pageAddr
  refine ⟨⟨noteLoad (PGSIZE * (2 + 0)) (c₁.grown (PGSIZE * (2 + (0 + 1))) (m, pt)), s.ranges⟩, ?_,
    H₁.grown (by decide) (by decide) hlt₁ hleaf hwf, ?_⟩
  · show (pageFaultHandler heapFetch.trap ⟨onePageKernel 525200, s.cpu.proc, s.cpu.table⟩ >>= _) = _
    rw [hbranch.trans hhandle]
    rfl
  rw [noteLoad_entry]
  have hentry : c₁.proc.heapTracker 0 = s.cpu.proc.heapTracker 0 :=
    hmade.tracker (Or.inl le_rfl)
  show (if _ then _ else _ : HeapPage).loaded = false
  have hfresh := (H.fresh 0 le_rfl (by decide)).1
  split_ifs
  · show (c₁.proc.heapTracker 0).loaded = false
    rw [hentry]
    exact hfresh
  · show (c₁.proc.heapTracker 0).loaded = false
    rw [hentry]
    exact hfresh

/-- The page that the second fetch maps is not tracked. -/
theorem second_fetch (H : Heap 2 1 1 s.cpu.proc s.cpu.table)
    (hl : (s.cpu.proc.heapTracker 0).loaded = false) (q : ℕ) :
    ¬ Accounted s (.fault ⟨onePageKernel q, heapFetch⟩) := by
  intro haccounted
  obtain ⟨-, hfetch⟩ := haccounted 0 (by rw [heapFetch_pageAddr]; exact H.pageIndex_eq (by decide))
  have hcount : s.cpu.proc.residentHeapPages ≤ 1 := by
    rw [H.count]
    exact (Finset.card_filter_le _ _).trans_eq (Finset.card_range 1)
  have hroomy : ¬ Crowded (s.at ⟨onePageKernel q, heapFetch⟩) := by
    intro hfull
    have hmax : s.cpu.proc.residentHeapPages = MAXRESHEAP := hfull
    simp only [MAXRESHEAP] at hmax
    omega
  have hev : evictee (s.at ⟨onePageKernel q, heapFetch⟩) = none := if_neg hroomy
  have htracker : roomTracker (s.at ⟨onePageKernel q, heapFetch⟩) = s.cpu.proc.heapTracker := by
    rw [roomTracker, hev]
    rfl
  have htable : roomTable (s.at ⟨onePageKernel q, heapFetch⟩) = s.cpu.table := by
    rw [roomTable, hev]
    rfl
  have hsz : pgroundup s.cpu.proc.sz = PGSIZE * 3 := by
    rw [H.sz]
    exact pgroundup_of_aligned (mul_aligned _)
  have hunmapped : ¬ s.cpu.table.Mapped (PGSIZE * 3) := by
    unfold Mapped
    rw [vpn_mul, H.above 1 le_rfl (by decide)]
    simp
  have hreturns : HeapReturns heapFetch (s.at ⟨onePageKernel q, heapFetch⟩) 0 := by
    refine ⟨fun hfull => absurd hfull hroomy, ?_⟩
    rw [htracker, hl, htable, if_neg (by decide)]
    show _ ∨ AllocReturns s.cpu.table (pgroundup s.cpu.proc.sz) _
    rw [hsz]
    exact Or.inr (Or.inr ⟨by decide, hunmapped⟩)
  obtain ⟨-, -, i, hi, haddr⟩ := hfetch hreturns
  have hpage : fetchedPage heapFetch (s.at ⟨onePageKernel q, heapFetch⟩) 0 = PGSIZE * 3 := by
    rw [fetchedPage, htracker, hl, if_neg (by decide)]
    exact hsz
  rw [hpage] at haddr
  by_cases hzero : i = 0
  · rw [hzero, H.tracked 0 (by decide)] at haddr
    exact absurd (mul_inj haddr) (by decide)
  · rw [H.clear i (by omega)] at haddr
    exact mul_ne_unset 3 haddr.symm

theorem sample_call {n : ℕ} (hpos : 1 ≤ n) (hle : n ≤ MAXHEAP) :
    ∃ t, heapStep ⟨loadedCpu, []⟩ (.sbrk (PGSIZE * n)) = .ok t ∧
      Heap 2 n 0 t.cpu.proc t.cpu.table ∧ t.cpu.table = sampleTable 0 := by
  have hdiv : ((PGSIZE : Int) * n).tdiv PGSIZE = n := Int.mul_tdiv_cancel_left _ (by decide)
  have hclear : ∀ i, (loadedCpu.proc.heapTracker i).addr = unset := fun _ => rfl
  have hcan : Trackable loadedCpu.proc.heapTracker (PGSIZE * n) := by
    rw [trackable_clear hclear, hdiv]
    omega
  have hrun := @heapStep_sbrk ⟨loadedCpu, []⟩ (PGSIZE * n) rfl
  rw [if_pos hcan] at hrun
  obtain ⟨ok, hgrow⟩ := heapStep_growproc hrun
  obtain ⟨b, m, hb, hm, -, htable, -, H⟩ := loadedCpu_fresh.growproc_heap hgrow
  obtain rfl : b = 2 := (mul_inj (i := 2) hb).symm
  obtain rfl : m = n := by
    rw [hdiv] at hm
    exact (Int.ofNat.inj hm).symm
  exact ⟨_, hrun, H, htable⟩

theorem heapFetch_faults {pt : PageTable ℕ} (h : ∀ e, pt.leaf 2 = some e → e.x = false) :
    translate pt heapFetch = none := by
  have hvpn : vpn heapFetch.va = 2 := by decide
  unfold translate
  split_ifs
  · rfl
  · rw [hvpn]
    cases hleaf : pt.leaf 2 with
    | none => rfl
    | some e => simp [Op.permitted, heapFetch, h e hleaf]

/-- A page of the heap is fetched from twice, as no fault maps it executable. -/
def fetchRun : List HeapEvent :=
  [.sbrk PGSIZE, .fault ⟨onePageKernel 525200, heapFetch⟩, .fault ⟨onePageKernel 525201, heapFetch⟩]

theorem fetchRun_occurs {s t : HeapUse} (hs : heapStep ⟨loadedCpu, []⟩ (.sbrk PGSIZE) = .ok s)
    (H : Heap 2 1 0 s.cpu.proc s.cpu.table)
    (ht : heapStep s (.fault ⟨onePageKernel 525200, heapFetch⟩) = .ok t)
    (H' : Heap 2 1 1 t.cpu.proc t.cpu.table) (hl : (t.cpu.proc.heapTracker 0).loaded = false) :
    Guarded heapStep HeapEvent.Occurs ⟨loadedCpu, []⟩ fetchRun := by
  have hcall : HeapEvent.Occurs ⟨loadedCpu, []⟩ (.sbrk PGSIZE) := by
    intro touch heq
    cases heq
  have hfirst : HeapEvent.Occurs s (.fault ⟨onePageKernel 525200, heapFetch⟩) := by
    intro touch heq
    cases heq
    refine ⟨by decide, onePageKernel_sound (by decide), heapFetch_faults fun e he => ?_⟩
    rw [H.above 0 le_rfl (by decide)] at he
    cases he
  have hsecond : HeapEvent.Occurs t (.fault ⟨onePageKernel 525201, heapFetch⟩) := by
    intro touch heq
    cases heq
    refine ⟨by decide, onePageKernel_sound (by decide), heapFetch_faults fun e he => ?_⟩
    obtain ⟨pa, hpa⟩ := H'.resident 0 (by decide) hl
    obtain rfl := Option.some.inj (he.symm.trans hpa)
    rfl
  refine ⟨hcall, fun s' hs' => ?_⟩
  obtain rfl := Except.ok.inj (hs.symm.trans hs')
  refine ⟨hfirst, fun t' ht' => ?_⟩
  obtain rfl := Except.ok.inj (ht.symm.trans ht')
  exact ⟨hsecond, fun _ _ => trivial⟩

theorem sample_resident_accurate_iff :
    (Accurate loadedCpu.proc loadedCpu.table ∧
        Guarded heapStep StaysAccurate ⟨loadedCpu, []⟩ fetchRun ↔
      Accurate loadedCpu.proc loadedCpu.table ∧
        Guarded heapStep Accounted ⟨loadedCpu, []⟩ fetchRun) ∧
    (Fresh loadedCpu.proc loadedCpu.table → Accurate loadedCpu.proc loadedCpu.table) := by
  obtain ⟨s, hs, H, htable⟩ := @sample_call 1 le_rfl (by decide)
  obtain ⟨t, ht, H', hl⟩ := first_fetch H htable
  exact @resident_accurate_iff ⟨loadedCpu, []⟩ fetchRun loadedCpu_fresh.paged
    (fetchRun_occurs hs H ht H' hl)

/-- The second fault maps a page that is not tracked, and counts it. -/
theorem second_fetch_miscounts : Fresh loadedCpu.proc loadedCpu.table ∧
    Guarded heapStep HeapEvent.Occurs ⟨loadedCpu, []⟩ fetchRun ∧
    ¬ Guarded heapStep StaysAccurate ⟨loadedCpu, []⟩ fetchRun := by
  obtain ⟨s, hs, H, htable⟩ := @sample_call 1 le_rfl (by decide)
  obtain ⟨t, ht, H', hl⟩ := first_fetch H htable
  have hoccurs := fetchRun_occurs hs H ht H' hl
  refine ⟨loadedCpu_fresh, hoccurs, ?_⟩
  obtain ⟨-, hrest⟩ := hoccurs
  obtain ⟨hfirst, hrest⟩ := hrest s hs
  obtain ⟨hsecond, -⟩ := hrest t ht
  rintro ⟨hacc₁, hnext⟩
  obtain ⟨hacc₂, hnext⟩ := hnext s hs
  obtain ⟨hacc₃, -⟩ := hnext t ht
  have hpaged := (loadedCpu_fresh.paged.sbrk hs).fault hfirst ht
  exact second_fetch H' hl _ ((staysAccurate_iff hpaged hsecond (hacc₂.2 t ht)).mp hacc₃)

end Sample

end AdvancedOperatingSystems.DemandPaging
