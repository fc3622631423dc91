import Mathlib.Data.Finset.Max
import AdvancedOperatingSystems.DemandPaging.Resident

/-!
# The order of loads

The handler keeps no queue of the resident pages: it notes the tick of a load, in the entry of
the page that the fault was for. `lastLoad` is the order it is meant to follow, the number of
the page fault that has mapped a page last.
-/

namespace AdvancedOperatingSystems.DemandPaging

open Foundations Riscv Riscv.PageTable

/-- A process with the number of faults it has had, for each page the number of the fault that
has loaded it last, and the tick of the last fault. -/
structure LoadLog where
  use : HeapUse
  faults : ℕ
  lastLoad : ℕ → ℕ
  now : ℕ

/-- The table when the handler comes to map a page: after the eviction, if there is one. -/
def tableBeforeLoad (s : HeapUse) (touch : Touch) : PageTable ℕ :=
  match pageIndex s.cpu.proc.heapTracker touch.access.pageAddr with
  | some _ => roomTable (s.at touch)
  | none => s.cpu.table

def logStep (s : LoadLog) (e : HeapEvent) : Except Panic LoadLog := do
  let t ← heapStep s.use e
  match e with
  | .sbrk _ => return { s with use := t }
  | .fault touch =>
    let lastLoad := fun page =>
      if ¬ (tableBeforeLoad s.use touch).Mapped page ∧ t.cpu.table.Mapped page then s.faults + 1
      else s.lastLoad page
    return ⟨t, s.faults + 1, lastLoad, touch.kernel.ticks.toNat⟩

def LoadLog.Occurs (s : LoadLog) (e : HeapEvent) : Prop :=
  e.Occurs s.use ∧ ∀ touch, e = .fault touch → s.now ≤ touch.kernel.ticks.toNat

section Definitions

variable (s : LoadLog)

abbrev LoadLog.tracker : ℕ → HeapPage := s.use.cpu.proc.heapTracker

abbrev LoadLog.resident : Finset ℕ := residentPages s.use.cpu.proc s.use.cpu.table

def Evicts (e : HeapEvent) : Prop :=
  ∃ touch k, e = .fault touch ∧ pageIndex s.tracker touch.access.pageAddr = some k ∧
    Crowded (s.use.at touch)

def Oldest (page : ℕ) : Prop :=
  page ∈ s.resident ∧ ∀ other ∈ s.resident, other ≠ page → s.lastLoad page < s.lastLoad other

/-- The page that is evicted is the one that was loaded first. -/
def EvictsOldest (e : HeapEvent) : Prop :=
  Evicts s e → ∃ v, victimPageIndex s.tracker = some v ∧ Oldest s (s.tracker v).addr

/-- A call of `sbrk` takes entries for pages that have none and are not mapped. A fault of a
tracked page maps that page, if it does not panic. -/
def OwnPage : HeapEvent → Prop
  | .sbrk n => ∀ i ∈ takenEntries s.tracker n,
      ¬ Tracked s.use.cpu.proc ((s.use.cpu.proc.sz + PGSIZE * i) % 2 ^ 64) ∧
        ¬ s.use.cpu.table.Mapped ((s.use.cpu.proc.sz + PGSIZE * i) % 2 ^ 64)
  | .fault touch => ∀ k, pageIndex s.tracker touch.access.pageAddr = some k →
      HeapReturns touch.access (s.use.at touch) k →
        FetchMaps touch.access (s.use.at touch) k ∧
          fetchedPage touch.access (s.use.at touch) k = touch.access.pageAddr

/-- Of the resident pages loaded in the tick of the one that was loaded first, this one has the
lowest index. -/
def InTickOrder (e : HeapEvent) : Prop :=
  Evicts s e → ∀ i < MAXHEAP, ∀ j < MAXHEAP, Oldest s (s.tracker i).addr →
    (s.tracker j).addr ∈ s.resident →
    (s.tracker j).lastLoadTime = (s.tracker i).lastLoadTime → i ≤ j

end Definitions

/-- A process whose faults have mapped the pages they were for. -/
structure Orderly (s : LoadLog) : Prop where
  paged : Paged s.use.cpu.proc s.use.cpu.table
  accurate : Accurate s.use.cpu.proc s.use.cpu.table
  free : ∀ i, (s.tracker i).addr = unset →
    (s.tracker i).loaded = false ∧ (s.tracker i).lastLoadTime = unset
  unique : ∀ i < MAXHEAP, ∀ j < MAXHEAP, (s.tracker i).addr ≠ unset →
    (s.tracker i).addr = (s.tracker j).addr → i = j
  mapped : ∀ i < MAXHEAP, (s.tracker i).addr ≠ unset →
    (s.use.cpu.table.Mapped (s.tracker i).addr ↔
      (s.tracker i).loaded = false ∧ (s.tracker i).lastLoadTime < unset)
  order : ∀ i < MAXHEAP, ∀ j < MAXHEAP, (s.tracker i).addr ∈ s.resident →
    (s.tracker j).addr ∈ s.resident →
    s.lastLoad (s.tracker i).addr ≤ s.lastLoad (s.tracker j).addr →
    (s.tracker i).lastLoadTime ≤ (s.tracker j).lastLoadTime
  distinct : ∀ page ∈ s.resident, ∀ other ∈ s.resident,
    s.lastLoad page = s.lastLoad other → page = other
  past : ∀ page, s.lastLoad page ≤ s.faults
  noted : ∀ i < MAXHEAP, (s.tracker i).addr ∈ s.resident → (s.tracker i).lastLoadTime ≤ s.now

/-- What a fault of entry `k` that maps its own page leaves. -/
structure Loads (s : LoadLog) (touch : Touch) (k : ℕ) (t : LoadLog) : Prop where
  index : k < MAXHEAP ∧ (s.tracker k).addr ≠ unset
  addr : ∀ i, (t.tracker i).addr = (s.tracker i).addr
  self : (t.tracker k).loaded = false ∧ (t.tracker k).lastLoadTime = t.now ∧ t.now < unset
  others : ∀ i, i ≠ k → t.tracker i = roomTracker (s.use.at touch) i
  self_mapped : t.use.cpu.table.Mapped (s.tracker k).addr
  others_mapped : ∀ i < MAXHEAP, i ≠ k → (s.tracker i).addr ≠ unset →
    (t.use.cpu.table.Mapped (s.tracker i).addr ↔
      (roomTable (s.use.at touch)).Mapped (s.tracker i).addr)
  self_load : t.lastLoad (s.tracker k).addr = t.faults
  others_load : ∀ i < MAXHEAP, i ≠ k → (s.tracker i).addr ∈ t.resident →
    t.lastLoad (s.tracker i).addr = s.lastLoad (s.tracker i).addr
  faults : t.faults = s.faults + 1
  past : ∀ page, t.lastLoad page ≤ t.faults
  now : s.now ≤ t.now

namespace Orderly

variable {s t : LoadLog} {e : HeapEvent} {touch : Touch} {n : Int}

theorem resident_iff (h : Orderly s) {i : ℕ} (hi : i < MAXHEAP) :
    (s.tracker i).addr ∈ s.resident ↔ (s.tracker i).addr ≠ unset ∧
      (s.tracker i).loaded = false ∧ (s.tracker i).lastLoadTime < unset := by
  rw [mem_residentPages]
  constructor
  · rintro ⟨⟨hne, -⟩, hm⟩
    exact ⟨hne, (h.mapped i hi hne).mp hm⟩
  · rintro ⟨hne, hl⟩
    exact ⟨⟨hne, i, hi, rfl⟩, (h.mapped i hi hne).mpr hl⟩

theorem resident_of_timed (h : Orderly s) {i : ℕ} (hi : i < MAXHEAP)
    (hl : (s.tracker i).loaded = false) (ht : (s.tracker i).lastLoadTime < unset) :
    (s.tracker i).addr ∈ s.resident := by
  refine (h.resident_iff hi).mpr ⟨fun hfree => ?_, hl, ht⟩
  rw [(h.free i hfree).2] at ht
  exact lt_irrefl _ ht

theorem exists_resident (h : Orderly s) (hev : Evicts s e) :
    ∃ page ∈ s.resident, ∀ other ∈ s.resident, s.lastLoad page ≤ s.lastLoad other := by
  obtain ⟨touch, k, rfl, -, hfull⟩ := hev
  have hmax : s.use.cpu.proc.residentHeapPages = MAXRESHEAP := hfull
  have hpos : 0 < s.resident.card := by
    rw [← h.accurate.count, hmax]
    decide
  exact Finset.exists_min_image _ _ (Finset.card_pos.mp hpos)

theorem victim (h : Orderly s) (hev : Evicts s e) :
    ∃ v < MAXHEAP, victimPageIndex s.tracker = some v ∧ (s.tracker v).addr ∈ s.resident := by
  obtain ⟨page, hpage, -⟩ := h.exists_resident hev
  obtain ⟨⟨-, i, hi, rfl⟩, -⟩ := mem_residentPages.mp hpage
  obtain ⟨-, hl, ht⟩ := (h.resident_iff hi).mp hpage
  obtain ⟨v, hv, hfound, hvl, hle⟩ := victimPageIndex_spec hi hl
  exact ⟨v, hv, hfound, h.resident_of_timed hv hvl (lt_of_le_of_lt hle ht)⟩

/-- As long as faults map the pages they are for, the order of loads within a tick decides
whether the victim is the page that was loaded first. -/
theorem evictsOldest_iff (h : Orderly s) : EvictsOldest s e ↔ InTickOrder s e := by
  apply imp_congr_right
  intro hev
  obtain ⟨v, hv, hfound, hres⟩ := h.victim hev
  obtain ⟨-, hvl, hleast⟩ := victimPageIndex_iff.mp hfound
  constructor
  · rintro ⟨w, hw, -, hfirst⟩ i hi j hj ⟨hires, hifirst⟩ hjres htime
    obtain rfl := Option.some.inj (hfound.symm.trans hw)
    have hiv : i = v := by
      by_contra hne
      have hpage : (s.tracker i).addr ≠ (s.tracker v).addr := by
        intro heq
        exact hne (h.unique i hi v hv ((h.resident_iff hi).mp hires).1 heq)
      have h₁ := hfirst _ hires hpage
      have h₂ := hifirst _ hres hpage.symm
      omega
    subst hiv
    obtain ⟨-, hjl, -⟩ := (h.resident_iff hj).mp hjres
    rcases hleast j hj hjl with hlt | ⟨-, hle⟩
    · omega
    · exact hle
  · intro htick
    obtain ⟨page, hpage, hmin⟩ := h.exists_resident hev
    obtain ⟨⟨-, f, hf, rfl⟩, -⟩ := mem_residentPages.mp hpage
    have hold : Oldest s (s.tracker f).addr := by
      refine ⟨hpage, fun other hother hne => ?_⟩
      apply lt_of_le_of_ne (hmin other hother)
      intro heq
      exact hne (h.distinct _ hother _ hpage heq.symm)
    have hle := h.order f hf v hv hpage hres (hmin _ hres)
    obtain ⟨-, hfl, -⟩ := (h.resident_iff hf).mp hpage
    have hvf : v = f := by
      rcases hleast f hf hfl with hlt | ⟨heq, hvf⟩
      · omega
      · exact le_antisymm hvf (htick f hf v hv hold hres heq)
    rw [← hvf] at hold
    exact ⟨v, hfound, hold⟩

theorem of_fresh {c : Cpu} (F : Fresh c.proc c.table) :
    Orderly ⟨⟨c, []⟩, 0, fun _ => 0, 0⟩ := by
  have hclear : ∀ i, c.proc.heapTracker i = .clear := fun i => by rw [F.tracker]
  have hnone : ∀ page, page ∉ residentPages c.proc c.table := by
    intro page hpage
    obtain ⟨⟨hne, i, -, rfl⟩, -⟩ := mem_residentPages.mp hpage
    rw [hclear i] at hne
    exact hne rfl
  constructor
  · exact F.paged
  · exact F.accurate
  · intro i _
    simp only [LoadLog.tracker, hclear, and_self]
  · intro i _ j _ hne
    simp only [LoadLog.tracker, hclear, ne_eq, not_true_eq_false] at hne
  · intro i _ hne
    simp only [LoadLog.tracker, hclear, ne_eq, not_true_eq_false] at hne
  · intro i _ j _ hres
    exact absurd hres (hnone _)
  · intro page hres
    exact absurd hres (hnone _)
  · intro page
    exact le_rfl
  · intro i _ hres
    exact absurd hres (hnone _)

/-- A call for pages without entries adds untouched entries. -/
theorem sbrk (h : Orderly s) (hown : OwnPage s (.sbrk n)) (hstep : logStep s (.sbrk n) = .ok t) :
    Orderly t := by
  obtain ⟨u, hu, hstep⟩ := bind_ok_iff.mp hstep
  cases hstep
  have hp := h.paged.sbrk hu
  have hacc : Accurate u.cpu.proc u.cpu.table := (sbrk_accurate_iff h.paged h.accurate hu).mpr
    fun i hi hm => absurd hm (hown i hi).2
  rw [heapStep_sbrk h.paged.ondemand] at hu
  split_ifs at hu
  cases hu
  -- an entry is as it was, or it is a new one
  have hentry : ∀ i, i ∉ takenEntries s.tracker n →
      trackPages s.use.cpu.proc.sz (takenEntries s.tracker n) s.tracker i = s.tracker i :=
    fun i hi => if_neg hi
  have hnew : ∀ i, i ∈ takenEntries s.tracker n →
      trackPages s.use.cpu.proc.sz (takenEntries s.tracker n) s.tracker i =
        { s.tracker i with addr := (s.use.cpu.proc.sz + PGSIZE * i) % 2 ^ 64, loaded := false,
                           startblock := none } := fun i hi => if_pos hi
  have halign : ∀ i, (s.use.cpu.proc.sz + PGSIZE * i) % 2 ^ 64 % PGSIZE = 0 := by
    intro i
    have := h.paged.sz_aligned
    simp only [PGSIZE] at *
    omega
  have hres : residentPages (s.use.cpu.withTracker (trackPages s.use.cpu.proc.sz
      (takenEntries s.tracker n) s.tracker)).proc s.use.cpu.table = s.resident := by
    ext page
    rw [mem_residentPages, mem_residentPages]
    constructor
    · rintro ⟨ht, hm⟩
      rcases (tracked_sbrk (ht.aligned hp)).mp ht with hold | ⟨i, hi, rfl⟩
      · exact ⟨hold, hm⟩
      · exact absurd hm (hown i hi).2
    · rintro ⟨ht, hm⟩
      exact ⟨(tracked_sbrk (ht.aligned h.paged)).mpr (Or.inl ht), hm⟩
  have hold : ∀ i, (trackPages s.use.cpu.proc.sz (takenEntries s.tracker n) s.tracker i).addr ∈
      s.resident → i ∉ takenEntries s.tracker n := by
    intro i hi hmem
    rw [hnew i hmem] at hi
    exact (hown i hmem).1 (mem_residentPages.mp hi).1
  generalize hT : trackPages s.use.cpu.proc.sz (takenEntries s.tracker n) s.tracker = tracker at *
  constructor
  · exact hp
  · exact hacc
  · intro i haddr
    change (tracker i).addr = unset at haddr
    show (tracker i).loaded = false ∧ (tracker i).lastLoadTime = unset
    by_cases hi : i ∈ takenEntries s.tracker n
    · rw [hnew i hi] at haddr
      exact absurd haddr.symm (ne_unset_of_aligned (halign i))
    · rw [hentry i hi] at haddr ⊢
      exact h.free i haddr
  · intro i hi j hj hne heq
    change (tracker i).addr ≠ unset at hne
    change (tracker i).addr = (tracker j).addr at heq
    by_cases hi' : i ∈ takenEntries s.tracker n
    · by_cases hj' : j ∈ takenEntries s.tracker n
      · rw [hnew i hi', hnew j hj'] at heq
        simp only [PGSIZE, MAXHEAP] at *
        omega
      · rw [hnew i hi', hentry j hj'] at heq
        refine absurd ⟨(ne_unset_of_aligned (halign i)).symm, j, hj, ?_⟩ (hown i hi').1
        exact heq.symm
    · rw [hentry i hi'] at hne heq
      by_cases hj' : j ∈ takenEntries s.tracker n
      · rw [hnew j hj'] at heq
        exact absurd ⟨(ne_unset_of_aligned (halign j)).symm, i, hi, heq⟩ (hown j hj').1
      · rw [hentry j hj'] at heq
        exact h.unique i hi j hj hne heq
  · intro i hi hne
    change (tracker i).addr ≠ unset at hne
    show s.use.cpu.table.Mapped (tracker i).addr ↔
      (tracker i).loaded = false ∧ (tracker i).lastLoadTime < unset
    by_cases hi' : i ∈ takenEntries s.tracker n
    · rw [hnew i hi']
      apply iff_of_false (hown i hi').2
      rintro ⟨-, hlt⟩
      have htime := (h.free i (mem_takenEntries hi').2).2
      simp only [htime, lt_irrefl] at hlt
    · rw [hentry i hi'] at hne ⊢
      exact h.mapped i hi hne
  · intro i hi j hj hri hrj hle
    change (tracker i).addr ∈ residentPages (s.use.cpu.withTracker tracker).proc s.use.cpu.table
      at hri
    change (tracker j).addr ∈ residentPages (s.use.cpu.withTracker tracker).proc s.use.cpu.table
      at hrj
    change s.lastLoad (tracker i).addr ≤ s.lastLoad (tracker j).addr at hle
    show (tracker i).lastLoadTime ≤ (tracker j).lastLoadTime
    rw [hres] at hri hrj
    have hi' := hentry i (hold i hri)
    have hj' := hentry j (hold j hrj)
    rw [hi'] at hri hle ⊢
    rw [hj'] at hrj hle ⊢
    exact h.order i hi j hj hri hrj hle
  · intro page hpage other hother
    change page ∈ residentPages (s.use.cpu.withTracker tracker).proc s.use.cpu.table at hpage
    change other ∈ residentPages (s.use.cpu.withTracker tracker).proc s.use.cpu.table at hother
    rw [hres] at hpage hother
    exact h.distinct page hpage other hother
  · exact h.past
  · intro i hi hri
    change (tracker i).addr ∈ residentPages (s.use.cpu.withTracker tracker).proc s.use.cpu.table
      at hri
    show (tracker i).lastLoadTime ≤ s.now
    rw [hres] at hri
    have hi' := hentry i (hold i hri)
    rw [hi'] at hri ⊢
    exact h.noted i hi hri

/-- What leaves the tracker alone and maps no tracked page keeps the order. -/
theorem keep (h : Orderly s) (hp : Paged t.use.cpu.proc t.use.cpu.table)
    (ha : Accurate t.use.cpu.proc t.use.cpu.table) (htracker : t.tracker = s.tracker)
    (hmapped : ∀ page, Tracked s.use.cpu.proc page →
      (t.use.cpu.table.Mapped page ↔ s.use.cpu.table.Mapped page))
    (hload : ∀ page ∈ s.resident, t.lastLoad page = s.lastLoad page)
    (hpast : ∀ page, t.lastLoad page ≤ t.faults) (hnow : s.now ≤ t.now) : Orderly t := by
  have hres : t.resident = s.resident := by
    ext page
    have htracked : Tracked t.use.cpu.proc page ↔ Tracked s.use.cpu.proc page := by
      have heq : t.use.cpu.proc.heapTracker = s.use.cpu.proc.heapTracker := htracker
      unfold Tracked
      rw [heq]
    rw [mem_residentPages, mem_residentPages, htracked]
    exact and_congr_right fun ht => hmapped page ht
  constructor
  · exact hp
  · exact ha
  · rw [htracker]
    exact h.free
  · rw [htracker]
    exact h.unique
  · rw [htracker]
    intro i hi hne
    rw [hmapped _ ⟨hne, i, hi, rfl⟩]
    exact h.mapped i hi hne
  · rw [htracker, hres]
    intro i hi j hj hri hrj hle
    rw [hload _ hri, hload _ hrj] at hle
    exact h.order i hi j hj hri hrj hle
  · rw [hres]
    intro page hpage other hother heq
    rw [hload _ hpage, hload _ hother] at heq
    exact h.distinct page hpage other hother heq
  · exact hpast
  · rw [htracker, hres]
    intro i hi hri
    exact (h.noted i hi hri).trans hnow

/-- A fault of a page that is not tracked loads no heap page. -/
theorem untracked (h : Orderly s) (hoccurs : s.Occurs (.fault touch))
    (hk : pageIndex s.tracker touch.access.pageAddr = none)
    (hstep : logStep s (.fault touch) = .ok t) : Orderly t := by
  obtain ⟨u, hu, hstep⟩ := bind_ok_iff.mp hstep
  cases hstep
  obtain ⟨hva, hm, -⟩ := hoccurs.1 touch rfl
  have hrun := heapStep_handler hu
  have hmapped : ∀ page, Tracked s.use.cpu.proc page →
      (u.cpu.table.Mapped page ↔ s.use.cpu.table.Mapped page) := fun page ht =>
    @untracked_mapped touch.access (s.use.at touch) u.cpu page h.paged hm hva hk hrun ht
  have hbefore : tableBeforeLoad s.use touch = s.use.cpu.table := by
    unfold tableBeforeLoad
    rw [hk]
  apply h.keep
  · exact h.paged.fault hoccurs.1 hu
  · exact @untracked_accurate touch.access (s.use.at touch) u.cpu h.paged hm hva hk hrun h.accurate
  · exact congrArg Proc.heapTracker
      (@pageFaultHandler_proc touch.access.trap (s.use.at touch) u.cpu hk hrun)
  · exact hmapped
  · intro page hpage
    apply if_neg
    rintro ⟨hun, -⟩
    rw [hbefore] at hun
    exact hun (mem_residentPages.mp hpage).2
  · intro page
    show (if _ then _ else _) ≤ s.faults + 1
    split_ifs
    · exact le_rfl
    · exact (h.past page).trans (Nat.le_succ _)
  · exact hoccurs.2 touch rfl

/-- Once there is room, the entries still tell which pages are mapped. -/
theorem room_mapped (h : Orderly s) {k : ℕ}
    (hk : pageIndex s.tracker touch.access.pageAddr = some k) {i : ℕ} (hi : i < MAXHEAP)
    (hne : (s.tracker i).addr ≠ unset) :
    (roomTable (s.use.at touch)).Mapped (s.tracker i).addr ↔
      (roomTracker (s.use.at touch) i).loaded = false ∧ (s.tracker i).lastLoadTime < unset := by
  by_cases hfull : Crowded (s.use.at touch)
  · obtain ⟨v, hv, hfound, hres⟩ := h.victim ⟨touch, k, rfl, hk, hfull⟩
    have hev : evictee (s.use.at touch) = some v := by
      rw [evictee, if_pos hfull]
      exact hfound
    have hvt := (mem_residentPages.mp hres).1
    have htable : roomTable (s.use.at touch) = s.use.cpu.table.set (s.tracker v).addr none := by
      rw [roomTable, hev]
      rfl
    have htracker : roomTracker (s.use.at touch) =
        swapOut s.tracker v (freeBlock touch.kernel.psaTracker) := by
      rw [roomTracker, hev]
      rfl
    rw [htable, htracker, mapped_clear]
    by_cases hiv : i = v
    · subst hiv
      simp [swapOut]
    · have hvpn : vpn (s.tracker i).addr ≠ vpn (s.tracker v).addr := by
        intro heq
        have hpage := vpn_inj (Tracked.aligned ⟨hne, i, hi, rfl⟩ h.paged) (hvt.aligned h.paged) heq
        exact hiv (h.unique i hi v hv hne hpage)
      rw [Heap.swapOut_apply hiv, and_iff_left hvpn]
      exact h.mapped i hi hne
  · have hev : evictee (s.use.at touch) = none := if_neg hfull
    have htable : roomTable (s.use.at touch) = s.use.cpu.table := by
      rw [roomTable, hev]
      rfl
    have htracker : roomTracker (s.use.at touch) = s.tracker := by
      rw [roomTracker, hev]
      rfl
    rw [htable, htracker]
    exact h.mapped i hi hne

theorem room_free (h : Orderly s) {k : ℕ}
    (hk : pageIndex s.tracker touch.access.pageAddr = some k) {i : ℕ}
    (hfree : (s.tracker i).addr = unset) :
    roomTracker (s.use.at touch) i = s.tracker i := by
  unfold roomTracker
  by_cases hfull : Crowded (s.use.at touch)
  · obtain ⟨v, hv, hfound, hres⟩ := h.victim ⟨touch, k, rfl, hk, hfull⟩
    have hev : evictee (s.use.at touch) = some v := by
      rw [evictee, if_pos hfull]
      exact hfound
    have hiv : i ≠ v := by
      rintro rfl
      exact (mem_residentPages.mp hres).1.1 hfree
    rw [hev]
    exact Heap.swapOut_apply hiv
  · have hev : evictee (s.use.at touch) = none := if_neg hfull
    rw [hev]
    rfl

/-- A fault that maps the page it is for. -/
theorem loads (h : Orderly s) (hoccurs : s.Occurs (.fault touch)) (hown : OwnPage s (.fault touch))
    {k : ℕ} (hk : pageIndex s.tracker touch.access.pageAddr = some k)
    (hstep : logStep s (.fault touch) = .ok t) :
    Loads s touch k t ∧ Paged t.use.cpu.proc t.use.cpu.table ∧
      Accurate t.use.cpu.proc t.use.cpu.table := by
  obtain ⟨u, hu, hstep⟩ := bind_ok_iff.mp hstep
  cases hstep
  obtain ⟨hva, hm, -⟩ := hoccurs.1 touch rfl
  have hrun := heapStep_handler hu
  rw [@pageFaultHandler_branch k touch.access (s.use.at touch) hk] at hrun
  have hret := (@heapHandle_returns_iff touch.access (s.use.at touch) k h.paged.wf hm h.paged.sz
    hva).mp ⟨u.cpu, hrun⟩
  have F := @heapHandle_fetched touch.access (s.use.at touch) u.cpu k h.paged.wf hm h.paged.sz hva
    hrun
  obtain ⟨hmaps, htarget⟩ := hown k hk hret
  obtain ⟨hlt, haddr⟩ := pageIndex_some hk
  have hne : (s.tracker k).addr ≠ unset := by
    rw [haddr]
    exact (ne_unset_of_aligned (pageAddr_aligned _)).symm
  have htracked : Tracked s.use.cpu.proc touch.access.pageAddr :=
    ⟨haddr ▸ hne, k, hlt, haddr⟩
  have hunmapped : ¬ (roomTable (s.use.at touch)).Mapped (s.tracker k).addr := by
    have := hmaps.unmapped
    rw [htarget] at this
    rw [haddr]
    exact this
  have hbefore : tableBeforeLoad s.use touch = roomTable (s.use.at touch) := by
    unfold tableBeforeLoad
    rw [hk]
  obtain ⟨-, pa, -, hleaf⟩ : FetchMaps touch.access (s.use.at touch) k ∧ _ :=
    F.mapping.resolve_right fun hno => hno.1 hmaps
  rw [htarget] at hleaf
  have hself : u.cpu.table.Mapped (s.tracker k).addr := by
    unfold Mapped
    rw [hleaf, haddr, Function.update_self]
    rfl
  have hother : ∀ i < MAXHEAP, i ≠ k → (s.tracker i).addr ≠ unset →
      (s.tracker i).addr ≠ touch.access.pageAddr := by
    intro i hi hik hnei heq
    exact hik (h.unique i hi k hlt hnei (heq.trans haddr.symm))
  have hmapped : ∀ i < MAXHEAP, i ≠ k → (s.tracker i).addr ≠ unset →
      (u.cpu.table.Mapped (s.tracker i).addr ↔
        (roomTable (s.use.at touch)).Mapped (s.tracker i).addr) := by
    intro i hi hik hnei
    unfold Mapped
    rw [hleaf, Function.update_of_ne]
    intro heq
    have hpage := vpn_inj (Tracked.aligned ⟨hnei, i, hi, rfl⟩ h.paged) (pageAddr_aligned _) heq
    exact hother i hi hik hnei hpage
  have hvictim : Crowded (s.use.at touch) → VictimResident s.use.cpu.proc s.use.cpu.table := by
    intro hfull
    obtain ⟨v, -, hfound, hres⟩ := h.victim ⟨touch, k, rfl, hk, hfull⟩
    exact ⟨v, hfound, hres⟩
  refine ⟨?_, h.paged.fault hoccurs.1 hu,
    (F.accurate_iff h.paged h.accurate hvictim).mpr ⟨hmaps, htarget ▸ htracked⟩⟩
  constructor
  · exact ⟨hlt, hne⟩
  · intro i
    show (u.cpu.proc.heapTracker i).addr = _
    rw [F.tracker, notedEntry_addr]
    rfl
  · show (u.cpu.proc.heapTracker k).loaded = false ∧
      (u.cpu.proc.heapTracker k).lastLoadTime = touch.kernel.ticks.toNat ∧
      touch.kernel.ticks.toNat < unset
    have hcond : k < MAXHEAP ∧ ((s.use.at touch).proc.heapTracker k).addr =
        touch.access.pageAddr := ⟨hlt, haddr⟩
    rw [F.tracker, notedEntry, if_pos hcond]
    exact ⟨Bool.and_not_self _, rfl, ticks_lt_unset _⟩
  · intro i hik
    show u.cpu.proc.heapTracker i = _
    have hcond : ¬ (i < MAXHEAP ∧ ((s.use.at touch).proc.heapTracker i).addr =
        touch.access.pageAddr) := by
      rintro ⟨hi, heq⟩
      have hnei : (s.tracker i).addr ≠ unset := by
        intro hfree
        exact ne_unset_of_aligned (pageAddr_aligned touch.access) (hfree.symm.trans heq)
      exact hother i hi hik hnei heq
    rw [F.tracker, notedEntry, if_neg hcond]
  · exact hself
  · exact hmapped
  · apply if_pos
    rw [hbefore]
    exact ⟨hunmapped, hself⟩
  · intro i hi hik hres
    apply if_neg
    rintro ⟨hun, -⟩
    rw [hbefore] at hun
    have hm := (mem_residentPages.mp hres).2
    have hnei := (mem_residentPages.mp hres).1.1
    exact hun ((hmapped i hi hik hnei).mp hm)
  · rfl
  · intro page
    show (if _ then _ else _) ≤ s.faults + 1
    split_ifs
    · exact le_rfl
    · exact (h.past page).trans (Nat.le_succ _)
  · exact hoccurs.2 touch rfl

/-- A fault that maps the page it is for keeps the order. -/
theorem fault (h : Orderly s) (hoccurs : s.Occurs (.fault touch)) (hown : OwnPage s (.fault touch))
    {k : ℕ} (hk : pageIndex s.tracker touch.access.pageAddr = some k)
    (hstep : logStep s (.fault touch) = .ok t) : Orderly t := by
  obtain ⟨L, hp, ha⟩ := h.loads hoccurs hown hk hstep
  have htime : ∀ i, i ≠ k → (t.tracker i).lastLoadTime = (s.tracker i).lastLoadTime := by
    intro i hik
    rw [L.others i hik]
    exact roomTracker_time
  have hbefore : ∀ i < MAXHEAP, i ≠ k → (s.tracker i).addr ∈ t.resident →
      (s.tracker i).addr ∈ s.resident := by
    intro i hi hik hres
    obtain ⟨⟨hne, -⟩, hm⟩ := mem_residentPages.mp hres
    have hroom := (L.others_mapped i hi hik hne).mp hm
    refine mem_residentPages.mpr ⟨⟨hne, i, hi, rfl⟩, ?_⟩
    rcases @roomTable_leaf (s.use.at touch) (vpn (s.tracker i).addr) with hnone | hsame
    · unfold Mapped at hroom
      rw [hnone] at hroom
      cases hroom
    · unfold Mapped at hroom ⊢
      rw [hsame] at hroom
      exact hroom
  have hearlier : ∀ i < MAXHEAP, i ≠ k → (s.tracker i).addr ∈ t.resident →
      t.lastLoad (s.tracker i).addr < t.lastLoad (s.tracker k).addr := by
    intro i hi hik hres
    rw [L.others_load i hi hik hres, L.self_load, L.faults]
    exact Nat.lt_succ_of_le (h.past _)
  constructor
  · exact hp
  · exact ha
  · intro i hfree
    rw [L.addr] at hfree
    have hik : i ≠ k := by
      rintro rfl
      exact L.index.2 hfree
    rw [L.others i hik, h.room_free hk hfree]
    exact h.free i hfree
  · intro i hi j hj hne heq
    rw [L.addr] at hne heq
    rw [L.addr] at heq
    exact h.unique i hi j hj hne heq
  · intro i hi hne
    rw [L.addr] at hne ⊢
    by_cases hik : i = k
    · subst hik
      obtain ⟨hl, hnow, hlt⟩ := L.self
      exact iff_of_true L.self_mapped ⟨hl, hnow ▸ hlt⟩
    · rw [L.others_mapped i hi hik hne, htime i hik, L.others i hik]
      exact h.room_mapped hk hi hne
  · intro i hi j hj hri hrj hle
    rw [L.addr] at hri hrj hle
    rw [L.addr] at hle
    by_cases hjk : j = k
    · subst hjk
      obtain ⟨-, hnow, -⟩ := L.self
      by_cases hij : i = j
      · rw [hij]
      · rw [htime i hij, hnow]
        exact (h.noted i hi (hbefore i hi hij hri)).trans L.now
    · by_cases hik : i = k
      · subst hik
        exact absurd hle (Nat.not_le.mpr (hearlier j hj hjk hrj))
      · rw [L.others_load i hi hik hri, L.others_load j hj hjk hrj] at hle
        rw [htime i hik, htime j hjk]
        exact h.order i hi j hj (hbefore i hi hik hri) (hbefore j hj hjk hrj) hle
  · intro page hpage other hother heq
    obtain ⟨⟨-, i, hi, rfl⟩, -⟩ := mem_residentPages.mp hpage
    obtain ⟨⟨-, j, hj, rfl⟩, -⟩ := mem_residentPages.mp hother
    change (t.tracker i).addr ∈ t.resident at hpage
    change (t.tracker j).addr ∈ t.resident at hother
    change t.lastLoad (t.tracker i).addr = t.lastLoad (t.tracker j).addr at heq
    show (t.tracker i).addr = (t.tracker j).addr
    rw [L.addr] at hpage hother heq ⊢
    rw [L.addr] at heq ⊢
    by_cases hik : i = k
    · by_cases hjk : j = k
      · rw [hik, hjk]
      · have := hearlier j hj hjk hother
        rw [hik] at heq
        omega
    · by_cases hjk : j = k
      · have := hearlier i hi hik hpage
        rw [hjk] at heq
        omega
      · rw [L.others_load i hi hik hpage, L.others_load j hj hjk hother] at heq
        exact h.distinct _ (hbefore i hi hik hpage) _ (hbefore j hj hjk hother) heq
  · exact L.past
  · intro i hi hri
    rw [L.addr] at hri
    by_cases hik : i = k
    · subst hik
      exact L.self.2.1.le
    · rw [htime i hik]
      exact (h.noted i hi (hbefore i hi hik hri)).trans L.now

theorem step (h : Orderly s) (hoccurs : s.Occurs e) (hown : OwnPage s e)
    (hstep : logStep s e = .ok t) : Orderly t := by
  cases e with
  | sbrk n => exact h.sbrk hown hstep
  | fault touch =>
    cases hk : pageIndex s.tracker touch.access.pageAddr with
    | none => exact h.untracked hoccurs hk hstep
    | some k => exact h.fault hoccurs hown hk hstep

end Orderly

/-- In a run of a process that `exec` has loaded whose faults map their own pages, the evicted
pages are those loaded first if and only if at each eviction, of the pages loaded in the tick of
the first one, this has the lowest index. -/
theorem evictions_in_load_order_iff {c : Cpu} (F : Fresh c.proc c.table) {es : List HeapEvent}
    (hoccurs : Guarded logStep LoadLog.Occurs ⟨⟨c, []⟩, 0, fun _ => 0, 0⟩ es)
    (hown : Guarded logStep OwnPage ⟨⟨c, []⟩, 0, fun _ => 0, 0⟩ es) :
    Guarded logStep EvictsOldest ⟨⟨c, []⟩, 0, fun _ => 0, 0⟩ es ↔
      Guarded logStep InTickOrder ⟨⟨c, []⟩, 0, fun _ => 0, 0⟩ es := by
  apply guarded_congr (I := Orderly) _ _ (Orderly.of_fresh F) (hoccurs.and hown)
  · intro s e h _
    exact h.evictsOldest_iff
  · rintro s e t h ⟨hocc, hown⟩ - hstep
    exact h.step hocc hown hstep

section Sample

variable {s t : LoadLog} {k n : ℕ}

/-- The load from the page of the heap above those that have been loaded. -/
def nextTouch (k : ℕ) : HeapEvent := .fault ⟨sampleKernel 2, sampleLoad (2 + k)⟩

/-- A heap of `n` pages of which the first `k` have been touched, with its level-0 table. -/
structure Risen (n k : ℕ) (s : LoadLog) : Prop where
  heap : Heap 2 n k s.use.cpu.proc s.use.cpu.table
  low : (s.use.cpu.table.low 0).isSome
  now : s.now = 0

namespace Risen

theorem missingTables_eq (h : Risen n k s) (hk : k < 500) :
    missingTables s.use.cpu.table (PGSIZE * (2 + k)) = 0 := by
  have hmid := h.heap.wf.mid_of_low 0 h.low
  have hzero : lowIndex (PGSIZE * (2 + k)) = 0 := by
    rw [lowIndex, vpn_mul]
    omega
  unfold missingTables midIndex
  rw [hzero, Option.isNone_eq_false_iff.mpr h.low, Option.isNone_eq_false_iff.mpr hmid]
  rfl

/-- The fault of a page maps it, and evicts another one if the heap is crowded. -/
theorem step (h : Risen n k s) (hk : k < n) (hn : n < 500) :
    s.Occurs (nextTouch k) ∧ OwnPage s (nextTouch k) ∧
      ∃ t, logStep s (nextTouch k) = .ok t ∧ Risen n (k + 1) t := by
  let c := s.use.at ⟨sampleKernel 2, sampleLoad (2 + k)⟩
  have hlt : 2 + k < trapPage := Nat.lt_trans (by omega : 2 + k < 502) (by decide)
  have H : Heap 2 n k c.proc c.table := h.heap
  have hindex : pageIndex c.proc.heapTracker (sampleLoad (2 + k)).pageAddr = some k := by
    rw [sampleLoad_pageAddr]
    exact H.pageIndex_eq hk
  have hsz : c.proc.sz = PGSIZE * (2 + k) := H.sz
  have htables : missingTables c.table c.proc.sz = 0 := by
    rw [hsz]
    exact h.missingTables_eq (by omega)
  have hsupply : c.kernel.memory.Supplies (roomPages c.proc + 1) := by
    apply (sampleKernel_supplies 2).mono
    unfold roomPages
    split_ifs <;> omega
  obtain ⟨c₁, hroom, hmade, H₁, hlt₁, hfree⟩ := makeRoom_ok H hsupply
  have hentry : (c₁.proc.heapTracker k).loaded = false := by
    rw [hmade.tracker (Or.inl le_rfl)]
    exact (H.fresh k le_rfl hk).1
  have hstate := (makeRoom_spec H.wf (sampleKernel_sound 2 (by decide))).2 c₁ hroom
  rw [hstate.tracker] at hentry
  have hrise : pgroundup c.proc.sz = PGSIZE * (2 + k) := by
    rw [hsz]
    exact pgroundup_of_aligned (mul_aligned _)
  have hpages : c.kernel.memory.Supplies (faultPages c.proc c.table (PGSIZE * (2 + k))) := by
    rw [faultPages_eq (H.pageIndex_eq hk), (H.fresh k le_rfl hk).1]
    simp only [Bool.false_eq_true, if_false]
    rw [htables]
    exact hsupply
  refine ⟨⟨?_, ?_⟩, ?_, ?_⟩
  · intro touch heq
    cases heq
    refine ⟨?_, sampleKernel_sound 2 (by decide), ?_⟩
    · have hmax := mul_lt_MAXVA hlt.le
      show PGSIZE * (2 + k) < 2 ^ 64
      simp only [MAXVA] at hmax
      omega
    · exact translate_unmapped (sampleLoad_pageAddr _) (h.heap.above k le_rfl hlt)
  · intro touch heq
    cases heq
    rw [h.now]
    exact Nat.zero_le _
  · intro i hi _
    obtain rfl := Option.some.inj (hindex.symm.trans hi)
    constructor
    · show FetchMaps (sampleLoad (2 + k)) c k
      unfold FetchMaps
      rw [if_neg (by rw [hentry]; decide), hrise, ← hstate.table, ← hstate.free]
      refine ⟨?_, mul_lt_MAXVA hlt.le, ?_, ?_⟩
      · have hmax := mul_lt_MAXVA hlt.le
        rw [hsz]
        simp only [MAXVA, PGSIZE] at hmax ⊢
        omega
      · unfold Mapped
        rw [vpn_mul, H₁.above k le_rfl hlt]
        decide
      · rw [hmade.missingTables, ← hsz, htables]
        exact hfree.enough
    · show fetchedPage (sampleLoad (2 + k)) c k = (sampleLoad (2 + k)).pageAddr
      rw [fetchedPage, if_neg (by rw [hentry]; decide), hrise, sampleLoad_pageAddr]
  · obtain ⟨c₂, pa, taken, m, pt, hmade₂, H₂, hlt₂, -, hhandle, -, -, hleaf, hwf⟩ :=
      heapHandle_untouched (c := c) H le_rfl hk hlt hpages
    have hstep : heapStep s.use (nextTouch k) = .ok ⟨noteLoad (PGSIZE * (2 + k))
        (c₂.grown (PGSIZE * (2 + (k + 1))) (m, pt)), s.use.ranges⟩ := by
      show (pageFaultHandler (sampleLoad (2 + k)).trap c >>= _) = _
      rw [@pageFaultHandler_branch k (sampleLoad (2 + k)) c hindex, sampleLoad_pageAddr, hhandle]
      rfl
    have hlog : ∃ t, logStep s (nextTouch k) = .ok t ∧ t.now = 0 ∧
        t.use = ⟨noteLoad (PGSIZE * (2 + k)) (c₂.grown (PGSIZE * (2 + (k + 1))) (m, pt)),
          s.use.ranges⟩ := by
      unfold logStep
      rw [hstep]
      exact ⟨_, rfl, rfl, rfl⟩
    obtain ⟨t, hlog, hnow, huse⟩ := hlog
    refine ⟨t, hlog, ?_, ?_, hnow⟩
    · rw [huse]
      exact H₂.grown hk hlt hlt₂ hleaf hwf
    · rw [huse]
      show (pt.low 0).isSome
      have hpage : (pt.leaf (2 + k)).isSome := by
        rw [hleaf, Function.update_self]
        rfl
      have hlow := hwf.low_of_leaf _ hpage
      rw [show (2 + k) / 512 = 0 by omega] at hlow
      exact hlow

theorem run (h : Risen n 0 s) (hk : k ≤ n) (hn : n < 500) :
    Guarded logStep LoadLog.Occurs s ((List.range k).map nextTouch) ∧
      Guarded logStep OwnPage s ((List.range k).map nextTouch) ∧
      ∃ t, exec logStep s ((List.range k).map nextTouch) = .ok t ∧ Risen n k t := by
  induction k with
  | zero => exact ⟨trivial, trivial, s, rfl, h⟩
  | succ k ih =>
    obtain ⟨hoccurs, hown, t, ht, hrisen⟩ := ih (by omega)
    obtain ⟨hoccurs', hown', u, hu, hnext⟩ := hrisen.step (by omega) hn
    rw [List.range_succ, List.map_append, List.map_singleton]
    refine ⟨Guarded.append.mpr ⟨hoccurs, fun t' ht' => ?_⟩,
      Guarded.append.mpr ⟨hown, fun t' ht' => ?_⟩, u, (exec_snoc _).mpr ⟨t, ht, hu⟩, hnext⟩
    · obtain rfl := Except.ok.inj (ht.symm.trans ht')
      exact ⟨hoccurs', fun _ _ => trivial⟩
    · obtain rfl := Except.ok.inj (ht.symm.trans ht')
      exact ⟨hown', fun _ _ => trivial⟩

end Risen

/-- A call for 101 pages, and a load from each page in turn: the last one evicts a page. -/
theorem sample_evictions_in_load_order_iff :
    Guarded logStep EvictsOldest ⟨⟨loadedCpu, []⟩, 0, fun _ => 0, 0⟩
        (.sbrk (PGSIZE * (101 : ℕ)) :: (List.range 101).map nextTouch) ↔
      Guarded logStep InTickOrder ⟨⟨loadedCpu, []⟩, 0, fun _ => 0, 0⟩
        (.sbrk (PGSIZE * (101 : ℕ)) :: (List.range 101).map nextTouch) := by
  obtain ⟨u, hu, H, htable⟩ := @sample_call 101 (by decide) (by decide)
  have hcall : logStep ⟨⟨loadedCpu, []⟩, 0, fun _ => 0, 0⟩ (.sbrk (PGSIZE * (101 : ℕ))) =
      .ok ⟨u, 0, fun _ => 0, 0⟩ := by
    unfold logStep
    rw [hu]
    rfl
  have hrisen : Risen 101 0 ⟨u, 0, fun _ => 0, 0⟩ := by
    refine ⟨H, ?_, rfl⟩
    show (u.cpu.table.low 0).isSome
    rw [htable]
    decide
  obtain ⟨hoccurs, hown, -⟩ := hrisen.run (k := 101) le_rfl (by decide)
  have hfree : ∀ i ∈ takenEntries loadedCpu.proc.heapTracker (PGSIZE * (101 : ℕ)),
      ¬ loadedCpu.table.Mapped ((loadedCpu.proc.sz + PGSIZE * i) % 2 ^ 64) := by decide +kernel
  refine evictions_in_load_order_iff loadedCpu_fresh ⟨⟨?_, ?_⟩, fun t ht => ?_⟩
    ⟨fun i hi => ⟨?_, ?_⟩, fun t ht => ?_⟩
  · intro touch heq
    cases heq
  · intro touch heq
    cases heq
  · obtain rfl := Except.ok.inj (hcall.symm.trans ht)
    exact hoccurs
  · rintro ⟨hne, j, -, haddr⟩
    exact hne haddr.symm
  · exact hfree i hi
  · obtain rfl := Except.ok.inj (hcall.symm.trans ht)
    exact hown

/-- The load from page 99 of the heap that is made over and over, as each fault maps the page
at the end of the process instead. -/
def topTouch (k : ℕ) : HeapEvent := .fault ⟨onePageKernel (525200 + k), sampleLoad 101⟩

/-- The process after `k` faults of page 99. -/
structure Swept (k : ℕ) (s : LoadLog) : Prop where
  paged : Paged s.use.cpu.proc s.use.cpu.table
  sz : s.use.cpu.proc.sz = PGSIZE * (2 + k)
  resident : s.use.cpu.proc.residentHeapPages = k
  guard : (s.use.cpu.table.leaf 0).isSome
  below : ∀ i < k, (s.use.cpu.table.leaf (2 + i)).isSome
  above : ∀ i, k ≤ i → 2 + i < trapPage → s.use.cpu.table.leaf (2 + i) = none
  tracked : ∀ i < 101, (s.tracker i).addr = PGSIZE * (2 + i)
  free : ∀ i, 101 ≤ i → (s.tracker i).addr = unset
  loaded : ∀ i, (s.tracker i).loaded = false
  untimed : ∀ i, i ≠ 99 → (s.tracker i).lastLoadTime = unset
  timed : 0 < k → (s.tracker 99).lastLoadTime = 0
  load : ∀ i < k, s.lastLoad (PGSIZE * (2 + i)) = i + 1
  faults : s.faults = k
  now : s.now = 0

namespace Swept

theorem pageIndex_eq (h : Swept k s) {i : ℕ} (hi : i < 101) :
    pageIndex s.tracker (PGSIZE * (2 + i)) = some i := by
  unfold pageIndex
  apply find?_range_unique (lt_of_lt_of_le hi (by decide))
  · simp [h.tracked i hi]
  · intro j _ hj
    have haddr : (s.tracker j).addr = PGSIZE * (2 + i) := by simpa using hj
    by_cases hlt : j < 101
    · rw [h.tracked j hlt] at haddr
      have := mul_inj haddr
      omega
    · rw [h.free j (by omega)] at haddr
      exact absurd haddr.symm (mul_ne_unset _)

theorem missingTables_eq (h : Swept k s) {i : ℕ} (hi : i < 102) :
    missingTables s.use.cpu.table (PGSIZE * i) = 0 := by
  have hlow := h.paged.wf.low_of_leaf 0 h.guard
  have hmid := h.paged.wf.mid_of_low 0 hlow
  have hzero : lowIndex (PGSIZE * i) = 0 := by
    rw [lowIndex, vpn_mul]
    omega
  have hmidzero : midIndex (PGSIZE * i) = 0 := by
    rw [midIndex, hzero]
  unfold missingTables
  rw [hmidzero, hzero]
  simp only [Option.isNone_eq_false_iff.mpr hlow, Option.isNone_eq_false_iff.mpr hmid]
  rfl

theorem occurs (h : Swept k s) (hk : k < 100) : s.Occurs (topTouch k) := by
  constructor
  · intro touch heq
    cases heq
    refine ⟨?_, onePageKernel_sound (by omega), ?_⟩
    · show PGSIZE * 101 < 2 ^ 64
      decide
    apply translate_unmapped (sampleLoad_pageAddr 101)
    exact h.above 99 (by omega) (by decide)
  · intro touch heq
    cases heq
    rw [h.now]
    exact Nat.zero_le _

/-- Each fault of page 99 but the last one maps a page below it. -/
theorem step (h : Swept k s) (hk : k < 100) :
    ∃ t, logStep s (topTouch k) = .ok t ∧ Swept (k + 1) t := by
  let touch : Touch := ⟨onePageKernel (525200 + k), sampleLoad 101⟩
  have hindex : pageIndex s.tracker touch.access.pageAddr = some 99 := by
    rw [sampleLoad_pageAddr]
    exact h.pageIndex_eq (i := 99) (by decide)
  have hroomy : ¬ (s.use.at touch).proc.residentHeapPages = MAXRESHEAP := by
    show ¬ s.use.cpu.proc.residentHeapPages = MAXRESHEAP
    rw [h.resident]
    simp only [MAXRESHEAP]
    omega
  have hsupplies := onePageKernel_supplies (525200 + k) (by omega)
  have hlt : 2 + k < trapPage := lt_of_lt_of_le (by omega : 2 + k < 102) (by decide)
  obtain ⟨pa, taken, m, pt, halloc, -, -, -, hleaf, hwf⟩ :=
    @uvmalloc_page (s.use.at touch).running permW touch.kernel.memory s.use.cpu.table
      (PGSIZE * (2 + k)) h.paged.wf (mul_aligned _) (mul_lt_MAXVA hlt.le)
      (by rw [vpn_mul]; exact h.above k le_rfl hlt) hsupplies.nodup
      (by rw [h.missingTables_eq (by omega)]; exact hsupplies.enough)
  rw [vpn_mul] at hleaf
  rw [← h.sz] at halloc
  have hgrow : growHeap (s.use.at touch) =
      .ok ((s.use.at touch).grown (s.use.cpu.proc.sz + PGSIZE) (m, pt)) := by
    have hbind := congrArg (fun r => r >>= fun q =>
      Except.ok ((s.use.at touch).grown q.1 q.2)) halloc
    exact hbind
  have hstep : heapStep s.use (.fault touch) = .ok ⟨noteLoad (PGSIZE * 101)
      ((s.use.at touch).grown (s.use.cpu.proc.sz + PGSIZE) (m, pt)), s.use.ranges⟩ := by
    show (pageFaultHandler touch.access.trap (s.use.at touch) >>= _) = _
    rw [@pageFaultHandler_branch 99 touch.access (s.use.at touch) hindex, heapHandle_eq]
    unfold makeRoom
    rw [if_neg hroomy, sampleLoad_pageAddr]
    show ((if (s.tracker 99).loaded = true then _ else growHeap (s.use.at touch)) >>= _) >>= _ = _
    rw [h.loaded 99, if_neg (by decide), hgrow]
    rfl
  let u : HeapUse := ⟨noteLoad (PGSIZE * 101)
    ((s.use.at touch).grown (s.use.cpu.proc.sz + PGSIZE) (m, pt)), s.use.ranges⟩
  let lastLoad := fun page =>
    if ¬ (tableBeforeLoad s.use touch).Mapped page ∧ u.cpu.table.Mapped page then s.faults + 1
    else s.lastLoad page
  have hlog : logStep s (topTouch k) = .ok ⟨u, s.faults + 1, lastLoad, touch.kernel.ticks.toNat⟩ := by
    have hbind := congrArg (fun r => r >>= fun t => Except.ok (⟨t, s.faults + 1, fun page =>
      if ¬ (tableBeforeLoad s.use touch).Mapped page ∧ t.cpu.table.Mapped page then s.faults + 1
      else s.lastLoad page, touch.kernel.ticks.toNat⟩ : LoadLog)) hstep
    exact hbind
  have hbefore : tableBeforeLoad s.use touch = s.use.cpu.table := by
    unfold tableBeforeLoad
    rw [hindex]
    show roomTable (s.use.at touch) = _
    have hev : evictee (s.use.at touch) = none := if_neg hroomy
    rw [roomTable, hev]
    rfl
  have hentry : ∀ i, u.cpu.proc.heapTracker i =
      if i = 99 then { s.tracker 99 with lastLoadTime := 0 } else s.tracker i := by
    intro i
    have hnote := @noteLoad_entry ((s.use.at touch).grown (s.use.cpu.proc.sz + PGSIZE) (m, pt)) i
      (PGSIZE * 101)
    refine hnote.trans ?_
    show (if i < MAXHEAP ∧ (s.tracker i).addr = PGSIZE * 101 then _ else s.tracker i) = _
    by_cases hi : i = 99
    · subst hi
      have hcond : 99 < MAXHEAP ∧ (s.tracker 99).addr = PGSIZE * 101 :=
        ⟨by decide, h.tracked 99 (by decide)⟩
      rw [if_pos hcond, if_pos rfl]
      rfl
    · have hcond : ¬ (i < MAXHEAP ∧ (s.tracker i).addr = PGSIZE * 101) := by
        rintro ⟨-, haddr⟩
        by_cases hlt : i < 101
        · rw [h.tracked i hlt] at haddr
          have := mul_inj haddr
          omega
        · rw [h.free i (by omega)] at haddr
          exact mul_ne_unset 101 haddr.symm
      rw [if_neg hcond, if_neg hi]
  refine ⟨_, hlog, ?_⟩
  constructor
  · exact h.paged.fault (h.occurs hk).1 hstep
  · show s.use.cpu.proc.sz + PGSIZE = _
    rw [h.sz]
    ring
  · show s.use.cpu.proc.residentHeapPages + 1 = _
    rw [h.resident]
  · show (pt.leaf 0).isSome
    rw [hleaf, Function.update_of_ne (by omega)]
    exact h.guard
  · intro i hi
    show (pt.leaf (2 + i)).isSome
    rw [hleaf]
    by_cases hik : i = k
    · rw [hik, Function.update_self]
      rfl
    · rw [Function.update_of_ne (by omega)]
      exact h.below i (by omega)
  · intro i hi htop
    show pt.leaf (2 + i) = none
    rw [hleaf, Function.update_of_ne (by omega)]
    exact h.above i (by omega) htop
  · intro i hi
    show (u.cpu.proc.heapTracker i).addr = _
    rw [hentry]
    split_ifs with h99
    · rw [h99]
      exact h.tracked 99 (by decide)
    · exact h.tracked i hi
  · intro i hi
    show (u.cpu.proc.heapTracker i).addr = _
    rw [hentry, if_neg (by omega)]
    exact h.free i hi
  · intro i
    show (u.cpu.proc.heapTracker i).loaded = _
    rw [hentry]
    split_ifs
    · exact h.loaded 99
    · exact h.loaded i
  · intro i hi
    show (u.cpu.proc.heapTracker i).lastLoadTime = _
    rw [hentry, if_neg hi]
    exact h.untimed i hi
  · intro _
    show (u.cpu.proc.heapTracker 99).lastLoadTime = _
    rw [hentry, if_pos rfl]
  · intro i hi
    show (if ¬ (tableBeforeLoad s.use touch).Mapped (PGSIZE * (2 + i)) ∧
      pt.Mapped (PGSIZE * (2 + i)) then s.faults + 1 else s.lastLoad (PGSIZE * (2 + i))) = _
    rw [hbefore]
    by_cases hik : i = k
    · have hnew : ¬ s.use.cpu.table.Mapped (PGSIZE * (2 + i)) ∧ pt.Mapped (PGSIZE * (2 + i)) := by
        unfold Mapped
        rw [vpn_mul, hleaf, hik, h.above k le_rfl hlt, Function.update_self]
        exact ⟨by simp, rfl⟩
      rw [if_pos hnew, h.faults, hik]
    · have hmapped : s.use.cpu.table.Mapped (PGSIZE * (2 + i)) := by
        unfold Mapped
        rw [vpn_mul]
        exact h.below i (by omega)
      rw [if_neg (fun hn => hn.1 hmapped)]
      exact h.load i (by omega)
  · show s.faults + 1 = _
    rw [h.faults]
  · rfl

theorem run (h : Swept 0 s) (hk : k ≤ 100) :
    Guarded logStep LoadLog.Occurs s ((List.range k).map topTouch) ∧
      ∃ t, exec logStep s ((List.range k).map topTouch) = .ok t ∧ Swept k t := by
  induction k with
  | zero => exact ⟨trivial, s, rfl, h⟩
  | succ k ih =>
    obtain ⟨hguard, t, ht, hswept⟩ := ih (by omega)
    obtain ⟨u, hu, hnext⟩ := hswept.step hk
    rw [List.range_succ, List.map_append, List.map_singleton]
    refine ⟨Guarded.append.mpr ⟨hguard, fun t' ht' => ?_⟩, u, (exec_snoc _).mpr ⟨t, ht, hu⟩, hnext⟩
    obtain rfl := Except.ok.inj (ht.symm.trans ht')
    exact ⟨hswept.occurs hk, fun _ _ => trivial⟩

/-- The fault of page 100 evicts page 99, the last one that has been loaded. -/
theorem evicts_latest (h : Swept 100 s) :
    s.Occurs (.fault ⟨onePageKernel 525300, sampleLoad 102⟩) ∧
      ¬ EvictsOldest s (.fault ⟨onePageKernel 525300, sampleLoad 102⟩) := by
  constructor
  · constructor
    · intro touch heq
      cases heq
      refine ⟨by decide, onePageKernel_sound (by decide), ?_⟩
      apply translate_unmapped (sampleLoad_pageAddr 102)
      exact h.above 100 le_rfl (by decide)
    · intro touch heq
      cases heq
      rw [h.now]
      exact Nat.zero_le _
  · intro hold
    have hindex : pageIndex s.tracker (sampleLoad 102).pageAddr = some 100 := by
      rw [sampleLoad_pageAddr]
      exact h.pageIndex_eq (i := 100) (by decide)
    obtain ⟨v, hv, -, hfirst⟩ := hold ⟨_, 100, rfl, hindex, h.resident⟩
    have hvictim : v = 99 := by
      obtain ⟨-, -, hleast⟩ := victimPageIndex_iff.mp hv
      by_contra hne
      rcases hleast 99 (by decide) (h.loaded 99) with hlt | ⟨heq, -⟩
      · rw [h.timed (by decide)] at hlt
        exact Nat.not_lt_zero _ hlt
      · rw [h.timed (by decide), h.untimed v hne] at heq
        exact absurd heq (by decide)
    subst hvictim
    have haddr₀ := h.tracked 0 (by decide)
    have haddr₉₉ := h.tracked 99 (by decide)
    have hzero : (s.tracker 0).addr ∈ s.resident := by
      refine mem_residentPages.mpr ⟨⟨?_, 0, by decide, rfl⟩, ?_⟩
      · rw [haddr₀]
        exact mul_ne_unset _
      · rw [haddr₀, Mapped, vpn_mul]
        exact h.below 0 (by decide)
    have hlt := hfirst _ hzero (by
      rw [haddr₀, haddr₉₉]
      intro heq
      exact absurd (mul_inj heq) (by decide))
    rw [haddr₀, haddr₉₉, h.load 0 (by decide), h.load 99 (by decide)] at hlt
    omega

end Swept

/-- The process of the sample calls `sbrk` for 101 pages, reads page 99, which takes a fault for
each page up to it, and then reads page 100: page 99 is evicted, and was loaded last. -/
theorem latest_load_evicted : Fresh loadedCpu.proc loadedCpu.table ∧
    Guarded logStep LoadLog.Occurs ⟨⟨loadedCpu, []⟩, 0, fun _ => 0, 0⟩
      (.sbrk (PGSIZE * 101) :: ((List.range 100).map topTouch ++
        [.fault ⟨onePageKernel 525300, sampleLoad 102⟩])) ∧
    ¬ Guarded logStep EvictsOldest ⟨⟨loadedCpu, []⟩, 0, fun _ => 0, 0⟩
      (.sbrk (PGSIZE * 101) :: ((List.range 100).map topTouch ++
        [.fault ⟨onePageKernel 525300, sampleLoad 102⟩])) := by
  obtain ⟨u, hu, H, htable⟩ := @sample_call 101 (by decide) (by decide)
  have hcall : logStep ⟨⟨loadedCpu, []⟩, 0, fun _ => 0, 0⟩ (.sbrk (PGSIZE * (101 : ℕ))) =
      .ok ⟨u, 0, fun _ => 0, 0⟩ := by
    unfold logStep
    rw [hu]
    rfl
  have hswept : Swept 0 ⟨u, 0, fun _ => 0, 0⟩ := by
    constructor
    · exact loadedCpu_fresh.paged.sbrk hu
    · exact H.sz
    · show u.cpu.proc.residentHeapPages = 0
      rw [H.count]
      rfl
    · show (u.cpu.table.leaf 0).isSome
      rw [htable]
      decide
    · intro i hi
      exact absurd hi (Nat.not_lt_zero i)
    · intro i _ htop
      exact H.above i (Nat.zero_le i) htop
    · exact H.tracked
    · intro i hi
      show (u.cpu.proc.heapTracker i).addr = _
      rw [H.clear i hi]
    · intro i
      show (u.cpu.proc.heapTracker i).loaded = _
      by_cases hi : i < 101
      · exact (H.fresh i (Nat.zero_le i) hi).1
      · rw [H.clear i (by omega)]
    · intro i _
      show (u.cpu.proc.heapTracker i).lastLoadTime = _
      by_cases hi : i < 101
      · exact (H.fresh i (Nat.zero_le i) hi).2
      · rw [H.clear i (by omega)]
    · intro hpos
      exact absurd hpos (lt_irrefl 0)
    · intro i hi
      exact absurd hi (Nat.not_lt_zero i)
    · rfl
    · rfl
  obtain ⟨hguard, t, ht, hfull⟩ := hswept.run le_rfl
  obtain ⟨hoccurs, hlatest⟩ := hfull.evicts_latest
  refine ⟨loadedCpu_fresh, ⟨⟨?_, ?_⟩, fun t₀ ht₀ => ?_⟩, ?_⟩
  · intro touch heq
    cases heq
  · intro touch heq
    cases heq
  · obtain rfl := Except.ok.inj (hcall.symm.trans ht₀)
    refine Guarded.append.mpr ⟨hguard, fun t₁ ht₁ => ?_⟩
    obtain rfl := Except.ok.inj (ht.symm.trans ht₁)
    exact ⟨hoccurs, fun _ _ => trivial⟩
  · rintro ⟨-, hrest⟩
    obtain ⟨-, hlast⟩ := Guarded.append.mp (hrest _ hcall)
    exact hlatest (hlast t ht).1

end Sample

end AdvancedOperatingSystems.DemandPaging
