import Mathlib.Data.Finset.Card
import AdvancedOperatingSystems.DemandPaging.Swap

/-!
# The heap region of an on-demand process

One `sbrk` tracks `n` pages from the end of the process on. `Heap b n t` is the
state in which the first `t` of them have been touched, in ascending order: a
touched page is mapped or on disk, the pages above are not mapped, and the number
of mapped ones is the resident count. Pages are named by their numbers: the region
starts at page `b`.
-/

namespace AdvancedOperatingSystems.DemandPaging

open Foundations Riscv Riscv.PageTable

/-- The number of the page `TRAPFRAME`. -/
abbrev trapPage : ℕ := TRAPFRAME / PGSIZE

@[simp] theorem vpn_mul (i : ℕ) : vpn (PGSIZE * i) = i := by
  simp [vpn, PGSIZE]

theorem mul_aligned (i : ℕ) : PGSIZE * i % PGSIZE = 0 := Nat.mul_mod_right _ _

theorem mul_lt_MAXVA {i : ℕ} (h : i ≤ trapPage) : PGSIZE * i < MAXVA := by
  simp only [trapPage, TRAPFRAME, TRAMPOLINE, MAXVA, PGSIZE] at *
  omega

theorem mul_ne_unset (i : ℕ) : PGSIZE * i ≠ unset := by
  simp only [unset, PGSIZE]
  omega

theorem mul_inj {i j : ℕ} (h : PGSIZE * i = PGSIZE * j) : i = j := by
  simp only [PGSIZE] at h
  omega

def residentSet (tracker : ℕ → HeapPage) (t : ℕ) : Finset ℕ :=
  (Finset.range t).filter fun i => (tracker i).loaded = false

theorem mem_residentSet {tracker : ℕ → HeapPage} {t i : ℕ} :
    i ∈ residentSet tracker t ↔ i < t ∧ (tracker i).loaded = false := by
  simp [residentSet]

structure Heap (b n t : ℕ) (p : Proc) (pt : PageTable ℕ) : Prop where
  n_le : n ≤ MAXHEAP
  t_le : t ≤ n
  top : b + t ≤ trapPage
  sz : p.sz = PGSIZE * (b + t)
  wf : pt.Wf
  trapframe : ∃ e, pt.leaf trapPage = some e ∧ e.u = false
  above : ∀ i, t ≤ i → b + i < trapPage → pt.leaf (b + i) = none
  tracked : ∀ i < n, (p.heapTracker i).addr = PGSIZE * (b + i)
  clear : ∀ i, n ≤ i → p.heapTracker i = .clear
  fresh : ∀ i, t ≤ i → i < n →
    (p.heapTracker i).loaded = false ∧ (p.heapTracker i).lastLoadTime = unset
  timed : ∀ i < t, (p.heapTracker i).lastLoadTime < unset
  resident : ∀ i < t, (p.heapTracker i).loaded = false →
    ∃ pa, pt.leaf (b + i) = some (permW.pte pa)
  swapped : ∀ i < t, (p.heapTracker i).loaded = true →
    pt.leaf (b + i) = none ∧ ∃ block, (p.heapTracker i).startblock = some block
  count : p.residentHeapPages = (residentSet p.heapTracker t).card
  room : p.residentHeapPages ≤ MAXRESHEAP

namespace Heap

variable {b n t : ℕ} {p : Proc} {pt : PageTable ℕ}

theorem addr_ne (H : Heap b n t p pt) {i j : ℕ} (hj : j ≠ i) :
    (p.heapTracker j).addr ≠ PGSIZE * (b + i) := by
  by_cases hn : j < n
  · rw [H.tracked j hn]
    intro h
    have := mul_inj h
    omega
  · rw [H.clear j (by omega)]
    exact (mul_ne_unset _).symm

theorem pageIndex_eq (H : Heap b n t p pt) {i : ℕ} (hi : i < n) :
    pageIndex p.heapTracker (PGSIZE * (b + i)) = some i := by
  unfold pageIndex
  apply find?_range_unique (lt_of_lt_of_le hi H.n_le)
  · simp [H.tracked i hi]
  · intro j _ hj
    by_contra hne
    exact H.addr_ne hne (by simpa using hj)

theorem victim (H : Heap b n t p pt) (hfull : p.residentHeapPages = MAXRESHEAP) :
    ∃ v < t, victimPageIndex p.heapTracker = some v ∧ (p.heapTracker v).loaded = false := by
  have hpos : 0 < (residentSet p.heapTracker t).card := by
    rw [← H.count, hfull]
    decide
  obtain ⟨i, hi⟩ := Finset.card_pos.mp hpos
  obtain ⟨hit, hil⟩ := mem_residentSet.mp hi
  have hin : i < MAXHEAP := lt_of_lt_of_le hit (H.t_le.trans H.n_le)
  obtain ⟨v, -, hv, hvl, htime⟩ := victimPageIndex_spec hin hil
  have hlt : (p.heapTracker v).lastLoadTime < unset := lt_of_le_of_lt htime (H.timed i hit)
  refine ⟨v, ?_, hv, hvl⟩
  by_contra hvt
  by_cases hvn : v < n
  · rw [(H.fresh v (by omega) hvn).2] at hlt
    exact lt_irrefl _ hlt
  · rw [H.clear v (by omega)] at hlt
    exact lt_irrefl _ hlt

theorem swapOut_apply {tracker : ℕ → HeapPage} {v block i : ℕ} (h : i ≠ v) :
    swapOut tracker v block i = tracker i := Function.update_of_ne h _ _

/-- An eviction leaves one page fewer in memory. -/
theorem evict (H : Heap b n t p pt) {v block : ℕ} (hv : v < t)
    (hl : (p.heapTracker v).loaded = false) {p' : Proc} (hsz : p'.sz = p.sz)
    (htr : p'.heapTracker = swapOut p.heapTracker v block)
    (hres : p'.residentHeapPages = p.residentHeapPages - 1) :
    Heap b n t p' (pt.set (PGSIZE * (b + v)) none) := by
  have hvn : v < n := lt_of_lt_of_le hv H.t_le
  have htop := H.top
  have hself : p'.heapTracker v =
      { p.heapTracker v with loaded := true, startblock := some block } := by
    rw [htr, swapOut, Function.update_self]
  have hother : ∀ i, i ≠ v → p'.heapTracker i = p.heapTracker i := fun i hi => by
    rw [htr, swapOut_apply hi]
  have hleaf : ∀ i, i ≠ b + v → (pt.set (PGSIZE * (b + v)) none).leaf i = pt.leaf i :=
    fun i hi => by rw [set_leaf, vpn_mul, Function.update_of_ne hi]
  have hset : residentSet p'.heapTracker t = (residentSet p.heapTracker t).erase v := by
    ext i
    rw [Finset.mem_erase, mem_residentSet, mem_residentSet]
    by_cases hi : i = v
    · simp [hi, hself]
    · simp [hi, hother i hi]
  have hmem : v ∈ residentSet p.heapTracker t := mem_residentSet.mpr ⟨hv, hl⟩
  refine ⟨H.n_le, H.t_le, H.top, hsz.trans H.sz, H.wf.clear _, ?_, fun i hi hb => ?_,
    fun i hi => ?_, fun i hi => ?_, fun i hi hn => ?_, fun i hi => ?_, fun i hi hil => ?_,
    fun i hi hil => ?_, ?_, ?_⟩
  · rw [hleaf _ (by omega)]
    exact H.trapframe
  · rw [hleaf _ (by omega)]
    exact H.above i hi hb
  · by_cases hiv : i = v
    · rw [hiv, hself]
      exact H.tracked v hvn
    · rw [hother i hiv]
      exact H.tracked i hi
  · rw [hother i (by omega)]
    exact H.clear i hi
  · rw [hother i (by omega)]
    exact H.fresh i hi hn
  · by_cases hiv : i = v
    · rw [hiv, hself]
      exact H.timed v hv
    · rw [hother i hiv]
      exact H.timed i hi
  · by_cases hiv : i = v
    · rw [hiv, hself] at hil
      cases hil
    · rw [hother i hiv] at hil
      rw [hleaf _ (by omega)]
      exact H.resident i hi hil
  · by_cases hiv : i = v
    · rw [hiv, hself]
      exact ⟨by simp, block, rfl⟩
    · rw [hother i hiv] at hil ⊢
      rw [hleaf _ (by omega)]
      exact H.swapped i hi hil
  · rw [hres, hset, Finset.card_erase_of_mem hmem, H.count]
  · have := H.room
    omega

/-- Page `i` has been brought into memory, either back from disk or as the next
page of the region. -/
theorem load (H : Heap b n t p pt) {i t' pa : ℕ} {e : HeapPage}
    (hcase : t' = t ∧ i < t ∧ (p.heapTracker i).loaded = true ∨ i = t ∧ t' = t + 1)
    (hn : t' ≤ n) (htop : b + t' ≤ trapPage) (hroom : p.residentHeapPages < MAXRESHEAP)
    (haddr : e.addr = PGSIZE * (b + i)) (hl : e.loaded = false)
    (htime : e.lastLoadTime < unset) {p' : Proc} {pt' : PageTable ℕ}
    (htr : p'.heapTracker = Function.update p.heapTracker i e)
    (hsz : p'.sz = PGSIZE * (b + t'))
    (hres : p'.residentHeapPages = p.residentHeapPages + 1)
    (hleaf : pt'.leaf = Function.update pt.leaf (b + i) (some (permW.pte pa))) (hwf : pt'.Wf) :
    Heap b n t' p' pt' := by
  have hit : i < t' := by omega
  have hself : p'.heapTracker i = e := by rw [htr, Function.update_self]
  have hother : ∀ j, j ≠ i → p'.heapTracker j = p.heapTracker j := fun j hj => by
    rw [htr, Function.update_of_ne hj]
  have hleafi : pt'.leaf (b + i) = some (permW.pte pa) := by rw [hleaf, Function.update_self]
  have hleaf' : ∀ j, j ≠ b + i → pt'.leaf j = pt.leaf j := fun j hj => by
    rw [hleaf, Function.update_of_ne hj]
  have hset : residentSet p'.heapTracker t' = insert i (residentSet p.heapTracker t) := by
    ext j
    rw [Finset.mem_insert, mem_residentSet, mem_residentSet]
    by_cases hj : j = i
    · simp [hj, hself, hl, hit]
    · have hlt : j < t' ↔ j < t := by omega
      simp [hj, hother j hj, hlt]
  have hnot : i ∉ residentSet p.heapTracker t := by
    rw [mem_residentSet]
    rintro ⟨hlt, hil⟩
    rcases hcase with ⟨-, -, h⟩ | ⟨h, -⟩
    · rw [hil] at h
      cases h
    · omega
  refine ⟨H.n_le, hn, htop, hsz, hwf, ?_, fun j hj hb => ?_, fun j hj => ?_, fun j hj => ?_,
    fun j hj hjn => ?_, fun j hj => ?_, fun j hj hjl => ?_, fun j hj hjl => ?_, ?_, ?_⟩
  · rw [hleaf' _ (by omega)]
    exact H.trapframe
  · rw [hleaf' _ (by omega)]
    exact H.above j (by omega) hb
  · by_cases hji : j = i
    · rw [hji, hself, haddr]
    · rw [hother j hji]
      exact H.tracked j hj
  · rw [hother j (by omega)]
    exact H.clear j hj
  · rw [hother j (by omega)]
    exact H.fresh j (by omega) hjn
  · by_cases hji : j = i
    · rw [hji, hself]
      exact htime
    · rw [hother j hji]
      exact H.timed j (by omega)
  · by_cases hji : j = i
    · rw [hji]
      exact ⟨pa, hleafi⟩
    · rw [hother j hji] at hjl
      rw [hleaf' _ (by omega)]
      exact H.resident j (by omega) hjl
  · by_cases hji : j = i
    · rw [hji, hself, hl] at hjl
      cases hjl
    · rw [hother j hji] at hjl ⊢
      rw [hleaf' _ (by omega)]
      exact H.swapped j (by omega) hjl
  · rw [hres, hset, Finset.card_insert_of_notMem hnot, H.count]
  · omega

end Heap

/-- An on-demand process as `exec` leaves it: its end is page-aligned, nothing is
mapped from there to the trapframe, and no heap page is tracked. -/
structure Fresh (p : Proc) (pt : PageTable ℕ) : Prop where
  ondemand : p.ondemand = true
  aligned : p.sz % PGSIZE = 0
  sz_le : p.sz ≤ TRAPFRAME
  wf : pt.Wf
  trapframe : ∃ e, pt.leaf trapPage = some e ∧ e.u = false
  above : ∀ i, p.sz ≤ PGSIZE * i → i < trapPage → pt.leaf i = none
  tracker : p.heapTracker = fun _ => .clear
  resident : p.residentHeapPages = 0

section Sbrk

/-- The entry `track_heap` makes. -/
def HeapPage.tracked (addr : ℕ) : HeapPage := ⟨addr, unset, false, none⟩

theorem trackHeapLoop_clear {start k m : ℕ} {npages : Int} {tracker tracker' : ℕ → HeapPage}
    (hclear : ∀ j, k ≤ j → tracker j = .clear)
    (h : trackHeapLoop start (List.range' k m) npages tracker = .ok tracker') :
    ∃ n : ℕ, npages = n ∧ 1 ≤ n ∧ n ≤ m ∧ tracker' = fun j =>
      if k ≤ j ∧ j < k + n then .tracked ((start + PGSIZE * j) % 2 ^ 64) else tracker j := by
  induction m generalizing k npages tracker with
  | zero => simp [trackHeapLoop] at h
  | succ m ih =>
    rw [List.range'_succ, trackHeapLoop, hclear k le_rfl, if_pos rfl] at h
    by_cases hone : npages - 1 = 0
    · rw [if_pos hone] at h
      cases h
      refine ⟨1, by omega, le_rfl, by omega, ?_⟩
      funext j
      by_cases hj : j = k
      · subst hj
        simp [HeapPage.tracked]
      · have hout : ¬ (k ≤ j ∧ j < k + 1) := by omega
        rw [Function.update_of_ne hj, if_neg hout]
    · rw [if_neg hone] at h
      obtain ⟨n, hn, hpos, hle, rfl⟩ := ih (fun j hj => by
        rw [Function.update_of_ne (by omega)]
        exact hclear j (by omega)) h
      refine ⟨n + 1, by omega, by omega, by omega, ?_⟩
      funext j
      by_cases hj : j = k
      · subst hj
        simp [HeapPage.tracked]
      · have hiff : (k + 1 ≤ j ∧ j < k + 1 + n) ↔ (k ≤ j ∧ j < k + (n + 1)) := by omega
        rw [Function.update_of_ne hj]
        simp only [hiff]

theorem trackHeapLoop_returns {start k m n : ℕ} {tracker : ℕ → HeapPage}
    (hclear : ∀ j, k ≤ j → tracker j = .clear) (hpos : 1 ≤ n) (hle : n ≤ m) :
    Returns (trackHeapLoop start (List.range' k m) n tracker) := by
  induction m generalizing k n tracker with
  | zero => omega
  | succ m ih =>
    rw [List.range'_succ, trackHeapLoop, hclear k le_rfl, if_pos rfl]
    by_cases hone : (n : Int) - 1 = 0
    · rw [if_pos hone]
      exact returns_ok _
    · rw [if_neg hone]
      have hn : (n : Int) - 1 = ((n - 1 : ℕ) : Int) := by omega
      rw [hn]
      apply ih _ (by omega) (by omega)
      intro j hj
      rw [Function.update_of_ne (by omega)]
      exact hclear j (by omega)

theorem Fresh.growproc_returns {c : Cpu} (F : Fresh c.proc c.table) {n : ℕ} (hpos : 1 ≤ n)
    (hle : n ≤ MAXHEAP) : ∃ c', growproc (PGSIZE * n) c = .ok (true, c') := by
  obtain ⟨tracker, htrack⟩ := @trackHeapLoop_returns c.proc.sz 0 MAXHEAP n c.proc.heapTracker
    (fun j _ => by rw [F.tracker]) hpos hle
  have hn : ((PGSIZE : Int) * n).tdiv PGSIZE = n := Int.mul_tdiv_cancel_left _ (by decide)
  refine ⟨{ c with proc := { c.proc with heapTracker := tracker } }, ?_⟩
  rw [growproc, if_neg (by simp [F.ondemand]), hn, trackHeap, List.range_eq_range', htrack]
  rfl

/-- One `sbrk` of a fresh process tracks a region of untouched pages. -/
theorem Fresh.growproc_heap {c c' : Cpu} (F : Fresh c.proc c.table) {bytes : Int} {ok : Bool}
    (h : growproc bytes c = .ok (ok, c')) :
    ∃ b n : ℕ, c.proc.sz = PGSIZE * b ∧ bytes.tdiv PGSIZE = n ∧ 1 ≤ n ∧ c'.table = c.table ∧
      c'.kernel = c.kernel ∧ Heap b n 0 c'.proc c'.table := by
  rw [growproc, if_neg (by simp [F.ondemand])] at h
  obtain ⟨tracker, htrack, h⟩ := bind_ok_iff.mp h
  cases h
  rw [trackHeap, F.tracker, List.range_eq_range'] at htrack
  obtain ⟨n, hn, hpos, hle, rfl⟩ := trackHeapLoop_clear (fun _ _ => rfl) htrack
  obtain ⟨b, hb⟩ : ∃ b, c.proc.sz = PGSIZE * b :=
    ⟨c.proc.sz / PGSIZE, (Nat.mul_div_cancel' (Nat.dvd_of_mod_eq_zero F.aligned)).symm⟩
  have htop : b ≤ trapPage := by
    have := F.sz_le
    rw [hb] at this
    simp only [trapPage, TRAPFRAME, TRAMPOLINE, MAXVA, PGSIZE] at *
    omega
  refine ⟨b, n, hb, hn, hpos, rfl, rfl, hle, Nat.zero_le n, by simpa using htop,
    by simpa using hb, F.wf, F.trapframe, fun i _ hi => F.above _ ?_ hi, fun i hi => ?_,
    fun i hi => ?_, fun i _ hi => ?_, by simp, by simp, by simp, ?_, ?_⟩
  · rw [hb]
    exact Nat.mul_le_mul_left _ (Nat.le_add_right b i)
  · have hin : 0 ≤ i ∧ i < 0 + n := by omega
    have hmod : (c.proc.sz + PGSIZE * i) % 2 ^ 64 = PGSIZE * (b + i) := by
      rw [hb, ← Nat.mul_add]
      apply Nat.mod_eq_of_lt
      simp only [trapPage, TRAPFRAME, TRAMPOLINE, MAXVA, PGSIZE, MAXHEAP] at *
      omega
    simp only [hin, HeapPage.tracked, hmod, and_self, ↓reduceIte]
  · have hout : ¬ (0 ≤ i ∧ i < 0 + n) := by omega
    simp only [hout, ↓reduceIte]
  · have hin : 0 ≤ i ∧ i < 0 + n := by omega
    simp only [hin, HeapPage.tracked, and_self, ↓reduceIte]
  · show c.proc.residentHeapPages = _
    rw [F.resident]
    rfl
  · show c.proc.residentHeapPages ≤ _
    rw [F.resident]
    exact Nat.zero_le _

end Sbrk

end AdvancedOperatingSystems.DemandPaging
