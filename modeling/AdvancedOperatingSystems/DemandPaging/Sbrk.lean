import AdvancedOperatingSystems.DemandPaging.FirstTouch
import AdvancedOperatingSystems.DemandPaging.Tracking

/-!
# The ranges that `sbrk` returns

`sys_sbrk` returns `p->sz`, which on-demand growth does not move, and `track_heap` computes
the address of a page from its place in the tracker. The two agree on the first call of a
process whose tracker `exec` has cleared, if the size is a positive number of whole pages.
-/

namespace AdvancedOperatingSystems.DemandPaging

open Foundations Riscv Riscv.PageTable

/-- `sys_sbrk`: the address it returns, `none` for -1. -/
def sysSbrk (n : Int) (c : Cpu) : Except Panic (Option ℕ × Cpu) := do
  let addr := c.proc.sz
  let (ok, c) ← growproc n c
  return (if ok then some addr else none, c)

/-- The addresses that a call with a positive argument has returned. -/
structure HeapRange where
  addr : ℕ
  size : ℕ

/-- The addresses of the pages that lie in the range, in whole or in part. -/
def HeapRange.pageAddrs (r : HeapRange) : List ℕ := pages (pgrounddown r.addr) (r.addr + r.size)

def HeapRange.Disjoint (r r' : HeapRange) : Prop :=
  r.addr + r.size ≤ r'.addr ∨ r'.addr + r'.size ≤ r.addr

/-- A process and the ranges that its calls have returned, latest first. -/
structure HeapUse where
  cpu : Cpu
  ranges : List HeapRange

/-- A call of `sbrk`, or a page fault in whatever kernel other processes have left. -/
inductive HeapEvent
  | sbrk (n : Int)
  | fault (e : Touch)

def heapStep (s : HeapUse) : HeapEvent → Except Panic HeapUse
  | .sbrk n => do
    let (addr, c) ← sysSbrk n s.cpu
    let range := if 0 < n then addr.map fun addr => ⟨addr, n.toNat⟩ else none
    return ⟨c, range.toList ++ s.ranges⟩
  | .fault e => do
    let c ← pageFaultHandler e.access.trap ⟨e.kernel, s.cpu.proc, s.cpu.table⟩
    return ⟨c, s.ranges⟩

/-- The ranges are disjoint, and the page of each address in them is recorded in exactly one
entry of the tracker. -/
structure Recorded (s : HeapUse) : Prop where
  disjoint : s.ranges.Pairwise HeapRange.Disjoint
  recorded : ∀ r ∈ s.ranges, ∀ page ∈ r.pageAddrs,
    ∃! i, i < MAXHEAP ∧ (s.cpu.proc.heapTracker i).addr = page

def HeapSafe (s : HeapUse) (e : HeapEvent) : Prop :=
  (∀ n, e = .sbrk n → Returns (heapStep s e)) ∧ ∀ t, heapStep s e = .ok t → Recorded t

/-- The entry has the address of the page, or it is one of those that the call takes and its
place in the tracker is that of the page after `p->sz`. -/
def Holds (c : Cpu) (n : Int) (page i : ℕ) : Prop :=
  (c.proc.heapTracker i).addr = page ∨
    i ∈ takenEntries c.proc.heapTracker n ∧ (c.proc.sz + PGSIZE * i) % 2 ^ 64 = page

/-- The call asks for a whole page and there are enough free entries, what follows `p->sz` is
apart from the earlier ranges, and each page has one entry. -/
def CallFits (s : HeapUse) (n : Int) : Prop :=
  Trackable s.cpu.proc.heapTracker n ∧
    (∀ r ∈ s.ranges, HeapRange.Disjoint ⟨s.cpu.proc.sz, n.toNat⟩ r) ∧
    ∀ r ∈ ⟨s.cpu.proc.sz, n.toNat⟩ :: s.ranges, ∀ page ∈ r.pageAddrs,
      ∃! i, i < MAXHEAP ∧ Holds s.cpu n page i

def HeapFits (s : HeapUse) (e : HeapEvent) : Prop := ∀ n, e = .sbrk n → CallFits s n

/-- The call is the first one, and it is for a number of whole pages. -/
def OnlyCall (s : HeapUse) (e : HeapEvent) : Prop :=
  ∀ n, e = .sbrk n → s.ranges = [] ∧
    ∃ pages : ℕ, 1 ≤ pages ∧ pages ≤ MAXHEAP ∧ n = PGSIZE * pages

section Step

variable {s t : HeapUse} {e : HeapEvent} {n : Int} {page i : ℕ}

theorem pageAddrs_aligned {r : HeapRange} (h : page ∈ r.pageAddrs) : page % PGSIZE = 0 := by
  obtain ⟨hle, -, hmod⟩ := mem_pages.mp h
  have := pgrounddown_aligned r.addr
  simp only [PGSIZE] at *
  omega

theorem ne_unset_of_aligned (h : page % PGSIZE = 0) : unset ≠ page := by
  rintro rfl
  revert h
  decide

theorem Trackable.pos {tracker : ℕ → HeapPage} (h : Trackable tracker n) : 0 < n := by
  have hpos := h.1
  by_contra hneg
  have hneg' : 0 ≤ (-n).tdiv PGSIZE := Int.tdiv_nonneg (by omega) (by decide)
  rw [Int.neg_tdiv] at hneg'
  omega

theorem sysSbrk_eq {c : Cpu} (hond : c.proc.ondemand = true) :
    sysSbrk n c =
      if Trackable c.proc.heapTracker n then
        .ok (some c.proc.sz, c.withTracker
          (trackPages c.proc.sz (takenEntries c.proc.heapTracker n) c.proc.heapTracker))
      else .error "Error: No more process heap pages allowed.\n" := by
  simp only [sysSbrk, growproc_eq hond]
  split_ifs <;> rfl

theorem heapStep_sbrk (hond : s.cpu.proc.ondemand = true) :
    heapStep s (.sbrk n) =
      if Trackable s.cpu.proc.heapTracker n then
        .ok ⟨s.cpu.withTracker (trackPages s.cpu.proc.sz (takenEntries s.cpu.proc.heapTracker n)
          s.cpu.proc.heapTracker), ⟨s.cpu.proc.sz, n.toNat⟩ :: s.ranges⟩
      else .error "Error: No more process heap pages allowed.\n" := by
  unfold heapStep
  simp only [sysSbrk_eq hond]
  by_cases h : Trackable s.cpu.proc.heapTracker n
  · rw [if_pos h, if_pos h]
    simp only [ok_bind, if_pos h.pos]
    rfl
  · rw [if_neg h, if_neg h]
    rfl

theorem heapStep_fault {e : Touch} (h : heapStep s (.fault e) = .ok t) :
    AddrsKept s.cpu.proc t.cpu.proc ∧ t.ranges = s.ranges := by
  obtain ⟨c, hc, h⟩ := bind_ok_iff.mp h
  cases h
  have hkept := pageFaultHandler_addrs hc
  exact ⟨hkept, rfl⟩

theorem trackPages_addr_iff (h : page % PGSIZE = 0) :
    (trackPages s.cpu.proc.sz (takenEntries s.cpu.proc.heapTracker n)
        s.cpu.proc.heapTracker i).addr = page ↔ Holds s.cpu n page i := by
  unfold trackPages Holds
  by_cases hi : i ∈ takenEntries s.cpu.proc.heapTracker n
  · have hfree : (s.cpu.proc.heapTracker i).addr ≠ page := by
      rw [(mem_takenEntries hi).2]
      exact ne_unset_of_aligned h
    simp [hi, hfree]
  · simp [hi]

theorem Recorded.fault {e : Touch} (h : Recorded s) (hstep : heapStep s (.fault e) = .ok t) :
    Recorded t := by
  obtain ⟨hkept, hranges⟩ := heapStep_fault hstep
  constructor
  · rw [hranges]
    exact h.disjoint
  · intro r hr page hpage
    rw [hranges] at hr
    simp only [hkept.addr]
    exact h.recorded r hr page hpage

/-- Exactly which calls an on-demand process may make. -/
theorem heapSafe_iff (hond : s.cpu.proc.ondemand = true) (h : Recorded s) :
    HeapSafe s e ↔ HeapFits s e := by
  cases e with
  | fault e =>
    constructor
    · intro _ n hn
      cases hn
    · intro _
      exact ⟨fun n hn => (by cases hn), fun t ht => h.fault ht⟩
  | sbrk n =>
    unfold HeapSafe HeapFits
    simp only [HeapEvent.sbrk.injEq, forall_eq']
    unfold CallFits
    rw [heapStep_sbrk hond]
    by_cases hcan : Trackable s.cpu.proc.heapTracker n
    · rw [if_pos hcan]
      simp only [returns_ok, Except.ok.injEq, forall_eq', true_and, hcan]
      constructor
      · intro hrec
        refine ⟨(List.pairwise_cons.mp hrec.disjoint).1, fun r hr page hpage => ?_⟩
        have hone := hrec.recorded r hr page hpage
        simpa only [Cpu.withTracker, trackPages_addr_iff (pageAddrs_aligned hpage)] using hone
      · rintro ⟨hdisj, hone⟩
        refine ⟨List.pairwise_cons.mpr ⟨hdisj, h.disjoint⟩, fun r hr page hpage => ?_⟩
        have := hone r hr page hpage
        simpa only [Cpu.withTracker, trackPages_addr_iff (pageAddrs_aligned hpage)] using this
    · rw [if_neg hcan]
      simp [hcan]

theorem heapStep_ondemand (hond : s.cpu.proc.ondemand = true) (h : heapStep s e = .ok t) :
    t.cpu.proc.ondemand = true := by
  cases e with
  | fault e => rw [(heapStep_fault h).1.ondemand, hond]
  | sbrk n =>
    rw [heapStep_sbrk hond] at h
    split_ifs at h
    cases h
    exact hond

end Step

section Fresh

variable {s t : HeapUse} {e : HeapEvent} {n : Int} {start m : ℕ} {tracker : ℕ → HeapPage}

/-- A process that `exec` has loaded, before its first call. -/
structure Uncalled (s : HeapUse) : Prop where
  ondemand : s.cpu.proc.ondemand = true
  ranges : s.ranges = []
  free : ∀ i, (s.cpu.proc.heapTracker i).addr = unset
  aligned : s.cpu.proc.sz % PGSIZE = 0
  top : s.cpu.proc.sz ≤ TRAPFRAME

/-- The process after a call for some whole pages. -/
structure Called (start m : ℕ) (s : HeapUse) : Prop where
  ondemand : s.cpu.proc.ondemand = true
  ranges : s.ranges = [⟨start, PGSIZE * m⟩]
  pos : 1 ≤ m
  start_aligned : start % PGSIZE = 0
  tracked : ∀ i < m, (s.cpu.proc.heapTracker i).addr = start + PGSIZE * i
  free : ∀ i, m ≤ i → (s.cpu.proc.heapTracker i).addr = unset
  aligned : s.cpu.proc.sz % PGSIZE = 0
  sz : s.cpu.proc.sz < 2 ^ 64

theorem Fresh.uncalled {c : Cpu} (F : Fresh c.proc c.table) : Uncalled ⟨c, []⟩ where
  ondemand := F.ondemand
  ranges := rfl
  free := by
    intro i
    show (c.proc.heapTracker i).addr = unset
    rw [F.tracker]
  aligned := F.aligned
  top := F.sz_le

theorem freeEntries_clear (h : ∀ i, (tracker i).addr = unset) :
    freeEntries tracker (List.range MAXHEAP) = List.range MAXHEAP := by
  apply List.filter_eq_self.mpr
  intro i _
  simpa using h i

theorem mem_takenEntries_clear (h : ∀ i, (tracker i).addr = unset) {i : ℕ} :
    i ∈ takenEntries tracker n ↔ i < (n.tdiv PGSIZE).toNat ∧ i < MAXHEAP := by
  unfold takenEntries
  rw [freeEntries_clear h, List.take_range, List.mem_range, lt_min_iff]

theorem trackable_clear (h : ∀ i, (tracker i).addr = unset) :
    Trackable tracker n ↔ 1 ≤ n.tdiv PGSIZE ∧ n.tdiv PGSIZE ≤ MAXHEAP := by
  unfold Trackable
  rw [freeEntries_clear h, List.length_range]

/-- The first call has to be for a number of whole pages. -/
theorem Uncalled.callFits_iff (h : Uncalled s) :
    CallFits s n ↔ ∃ pages : ℕ, 1 ≤ pages ∧ pages ≤ MAXHEAP ∧ n = PGSIZE * pages := by
  have ha := h.aligned
  have htop := h.top
  have hdown : pgrounddown s.cpu.proc.sz = s.cpu.proc.sz := pgrounddown_of_aligned ha
  constructor
  · rintro ⟨hcan, -, hone⟩
    have hpos := hcan.pos
    obtain ⟨hle, hge⟩ := (trackable_clear h.free).mp hcan
    have hdiv : n.tdiv PGSIZE = n / PGSIZE := Int.tdiv_eq_ediv_of_nonneg hpos.le
    refine ⟨(n.tdiv PGSIZE).toNat, by omega, by omega, ?_⟩
    by_contra hne
    -- the page that is in the range in part has no entry
    have hpage : s.cpu.proc.sz + PGSIZE * (n.tdiv PGSIZE).toNat ∈
        HeapRange.pageAddrs ⟨s.cpu.proc.sz, n.toNat⟩ := by
      rw [HeapRange.pageAddrs, hdown, mem_pages]
      rw [hdiv] at *
      simp only [PGSIZE] at *
      omega
    obtain ⟨i, ⟨-, hi⟩, -⟩ := hone _ List.mem_cons_self _ hpage
    rcases hi with hi | ⟨hi, heq⟩
    · rw [h.free i] at hi
      exact ne_unset_of_aligned (pageAddrs_aligned hpage) hi
    · have hlt := ((mem_takenEntries_clear h.free).mp hi)
      simp only [TRAPFRAME, TRAMPOLINE, MAXVA, PGSIZE, MAXHEAP] at *
      omega
  · rintro ⟨m, hpos, hle, rfl⟩
    have hdiv : ((PGSIZE : Int) * m).tdiv PGSIZE = m := Int.mul_tdiv_cancel_left _ (by decide)
    have hmem : ∀ i, i ∈ takenEntries s.cpu.proc.heapTracker (PGSIZE * m) ↔ i < m := by
      intro i
      rw [mem_takenEntries_clear h.free, hdiv]
      omega
    refine ⟨?_, by simp [h.ranges], ?_⟩
    · rw [trackable_clear h.free, hdiv]
      omega
    · intro r hr page hpage
      rw [h.ranges, List.mem_singleton] at hr
      subst hr
      have haligned := pageAddrs_aligned hpage
      rw [HeapRange.pageAddrs, hdown, mem_pages] at hpage
      have hholds : ∀ i, Holds s.cpu (PGSIZE * m) page i ↔
          i < m ∧ s.cpu.proc.sz + PGSIZE * i = page := by
        intro i
        have hfree : (s.cpu.proc.heapTracker i).addr ≠ page := by
          rw [h.free i]
          exact ne_unset_of_aligned haligned
        unfold Holds
        rw [hmem]
        simp only [hfree, false_or]
        apply and_congr_right
        intro hi
        rw [Nat.mod_eq_of_lt]
        simp only [TRAPFRAME, TRAMPOLINE, MAXVA, PGSIZE, MAXHEAP] at *
        omega
      simp only [hholds]
      refine ⟨(page - s.cpu.proc.sz) / PGSIZE, ?_, ?_⟩
      · simp only [PGSIZE, MAXHEAP] at *
        omega
      · rintro i ⟨-, -, hi⟩
        simp only [PGSIZE] at *
        omega

/-- After a call for whole pages no other call fits: no entry is for the page at `p->sz`, if
that lies beyond the range. -/
theorem Called.not_callFits (h : Called start m s) : ¬ CallFits s n := by
  rintro ⟨hcan, hdisj, hone⟩
  have hpos := hcan.pos
  have hm := h.pos
  have hsz := h.sz
  have hdown : pgrounddown s.cpu.proc.sz = s.cpu.proc.sz := pgrounddown_of_aligned h.aligned
  have hpage : s.cpu.proc.sz ∈ HeapRange.pageAddrs ⟨s.cpu.proc.sz, n.toNat⟩ := by
    simp only [HeapRange.pageAddrs, hdown, mem_pages, PGSIZE]
    omega
  obtain ⟨i, ⟨hi, hholds⟩, -⟩ := hone _ List.mem_cons_self _ hpage
  rcases hholds with haddr | ⟨hmem, heq⟩
  · by_cases him : i < m
    · have hapart := hdisj ⟨start, PGSIZE * m⟩ (by rw [h.ranges]; exact List.mem_singleton_self _)
      rw [h.tracked i him] at haddr
      simp only [HeapRange.Disjoint, PGSIZE] at *
      omega
    · rw [h.free i (by omega)] at haddr
      exact ne_unset_of_aligned h.aligned haddr
  · have hzero : i = 0 := by
      simp only [PGSIZE, MAXHEAP] at *
      omega
    have hfree := (mem_takenEntries hmem).2
    rw [hzero, h.tracked 0 hm] at hfree
    have hstart := h.start_aligned
    simp only [PGSIZE, unset] at *
    omega

theorem Uncalled.fault {e : Touch} (h : Uncalled s) (hstep : heapStep s (.fault e) = .ok t) :
    Uncalled t := by
  obtain ⟨hkept, hranges⟩ := heapStep_fault hstep
  obtain ⟨c, hc, hstep⟩ := bind_ok_iff.mp hstep
  cases hstep
  -- no page is tracked, so that the handler leaves the process alone
  have hindex : pageIndex s.cpu.proc.heapTracker e.access.trap.alignedAddr = none := by
    apply pageIndex_of_ne
    intro i
    rw [h.free i]
    exact ne_unset_of_aligned (pgrounddown_aligned _)
  have hproc := @pageFaultHandler_proc _ ⟨e.kernel, s.cpu.proc, s.cpu.table⟩ c hindex hc
  constructor
  · exact hkept.ondemand.trans h.ondemand
  · exact hranges.trans h.ranges
  · intro i
    exact (hkept.addr i).trans (h.free i)
  · exact hkept.aligned h.aligned
  · show c.proc.sz ≤ TRAPFRAME
    rw [hproc]
    exact h.top

theorem Called.fault {e : Touch} (h : Called start m s) (hstep : heapStep s (.fault e) = .ok t) :
    Called start m t := by
  obtain ⟨hkept, hranges⟩ := heapStep_fault hstep
  constructor
  · exact hkept.ondemand.trans h.ondemand
  · exact hranges.trans h.ranges
  · exact h.pos
  · exact h.start_aligned
  · intro i hi
    exact (hkept.addr i).trans (h.tracked i hi)
  · intro i hi
    exact (hkept.addr i).trans (h.free i hi)
  · exact hkept.aligned h.aligned
  · exact hkept.sz h.sz

theorem Uncalled.sbrk (h : Uncalled s) (hpos : 1 ≤ m) (hle : m ≤ MAXHEAP)
    (hstep : heapStep s (.sbrk (PGSIZE * m)) = .ok t) : Called s.cpu.proc.sz m t := by
  have hdiv : ((PGSIZE : Int) * m).tdiv PGSIZE = m := Int.mul_tdiv_cancel_left _ (by decide)
  have htop := h.top
  rw [heapStep_sbrk h.ondemand] at hstep
  split_ifs at hstep
  cases hstep
  have hmem : ∀ i, i ∈ takenEntries s.cpu.proc.heapTracker (PGSIZE * m) ↔ i < m := by
    intro i
    rw [mem_takenEntries_clear h.free, hdiv]
    omega
  constructor
  · exact h.ondemand
  · simp only [h.ranges]
    congr
  · exact hpos
  · exact h.aligned
  · intro i hi
    show (trackPages _ _ _ i).addr = _
    unfold trackPages
    rw [if_pos ((hmem i).mpr hi)]
    apply Nat.mod_eq_of_lt
    simp only [TRAPFRAME, TRAMPOLINE, MAXVA, PGSIZE, MAXHEAP] at *
    omega
  · intro i hi
    show (trackPages _ _ _ i).addr = _
    unfold trackPages
    rw [if_neg (fun hin => Nat.not_lt.mpr hi ((hmem i).mp hin))]
    exact h.free i
  · exact h.aligned
  · show s.cpu.proc.sz < 2 ^ 64
    simp only [TRAPFRAME, TRAMPOLINE, MAXVA, PGSIZE] at *
    omega

/-- What a process has done that makes no other call than one for whole pages. -/
def CalledOnce (s : HeapUse) : Prop := Uncalled s ∨ ∃ start m, Called start m s

theorem CalledOnce.agree (h : CalledOnce s) : HeapFits s e ↔ OnlyCall s e := by
  unfold HeapFits OnlyCall
  apply forall_congr'
  intro n
  apply imp_congr_right
  rintro rfl
  rcases h with h | ⟨start, m, h⟩
  · rw [h.callFits_iff]
    simp [h.ranges]
  · simp [h.ranges, h.not_callFits]

theorem CalledOnce.step (h : CalledOnce s) (hone : OnlyCall s e) (hstep : heapStep s e = .ok t) :
    CalledOnce t := by
  cases e with
  | fault e =>
    rcases h with h | ⟨start, m, h⟩
    · exact Or.inl (h.fault hstep)
    · exact Or.inr ⟨start, m, h.fault hstep⟩
  | sbrk n =>
    obtain ⟨hranges, m, hpos, hle, rfl⟩ := hone n rfl
    rcases h with h | ⟨start, k, h⟩
    · exact Or.inr ⟨_, m, h.sbrk hpos hle hstep⟩
    · rw [h.ranges] at hranges
      cases hranges

end Fresh

/-- In every run of an on-demand process the calls are safe if and only if each of them fits
the tracker. If `exec` has just loaded the process, they are if and only if each call that is
reached is the first one and for whole pages. -/
theorem sbrk_safe_iff {c : Cpu} (hond : c.proc.ondemand = true) (es : List HeapEvent) :
    (Guarded heapStep HeapSafe ⟨c, []⟩ es ↔ Guarded heapStep HeapFits ⟨c, []⟩ es) ∧
      (Fresh c.proc c.table →
        (Guarded heapStep HeapSafe ⟨c, []⟩ es ↔ Guarded heapStep OnlyCall ⟨c, []⟩ es)) := by
  have hstart : Recorded ⟨c, []⟩ := ⟨List.Pairwise.nil, by simp⟩
  have hdomain : ∀ s, Guarded heapStep (fun _ _ => True) s es :=
    fun s => guarded_of_forall fun _ _ => trivial
  have hfits : Guarded heapStep HeapSafe ⟨c, []⟩ es ↔ Guarded heapStep HeapFits ⟨c, []⟩ es := by
    refine guarded_congr (I := fun s => s.cpu.proc.ondemand = true ∧ Recorded s) ?_ ?_
      ⟨hond, hstart⟩ (hdomain _)
    · intro s e h _
      exact heapSafe_iff h.1 h.2
    · intro s e t h _ hfits hstep
      exact ⟨heapStep_ondemand h.1 hstep, ((heapSafe_iff h.1 h.2).mpr hfits).2 t hstep⟩
  refine ⟨hfits, fun F => hfits.trans ?_⟩
  apply guarded_congr (I := CalledOnce) _ _ (Or.inl F.uncalled) (hdomain _)
  · intro s e h _
    exact h.agree
  · intro s e t h _ hone hstep
    exact h.step hone hstep

section Sample

/-- A process that `exec` has just loaded. -/
def loadedCpu : Cpu := ⟨sampleKernel 4, sampleProc 0, sampleTable 0⟩

theorem loadedCpu_fresh : Fresh loadedCpu.proc loadedCpu.table :=
  sampleProc_fresh (by decide) (by decide)

/-- A call for two pages, faults of both, and a second call. -/
def twoCalls : List HeapEvent :=
  [.sbrk (PGSIZE * 2), .fault ⟨sampleKernel 4, sampleLoad 2⟩, .fault ⟨sampleKernel 4, sampleLoad 3⟩,
    .sbrk PGSIZE]

theorem sample_sbrk_safe_iff :
    (Guarded heapStep HeapSafe ⟨loadedCpu, []⟩ twoCalls ↔
        Guarded heapStep HeapFits ⟨loadedCpu, []⟩ twoCalls) ∧
      (Guarded heapStep HeapSafe ⟨loadedCpu, []⟩ twoCalls ↔
        Guarded heapStep OnlyCall ⟨loadedCpu, []⟩ twoCalls) :=
  ⟨(sbrk_safe_iff rfl _).1, (sbrk_safe_iff rfl _).2 loadedCpu_fresh⟩

/-- The second of two calls for a page returns the address that the first has returned. -/
theorem second_call_overlaps : Fresh loadedCpu.proc loadedCpu.table ∧
    ¬ Guarded heapStep HeapSafe ⟨loadedCpu, []⟩ [.sbrk PGSIZE, .sbrk PGSIZE] := by
  refine ⟨loadedCpu_fresh, ?_⟩
  rintro ⟨⟨hreturns, hafter⟩, hnext⟩
  obtain ⟨t, ht⟩ := hreturns _ rfl
  obtain ⟨hsecond, -⟩ := hnext t ht
  have hcalled : Called loadedCpu.proc.sz 1 t :=
    (loadedCpu_fresh.uncalled).sbrk le_rfl (by decide) (by simpa using ht)
  exact hcalled.not_callFits ((heapSafe_iff hcalled.ondemand (hafter t ht)).mp hsecond _ rfl)

end Sample

end AdvancedOperatingSystems.DemandPaging
