import AdvancedOperatingSystems.DemandPaging.HeapFault

/-!
# The first touch of a heap page

The handler decides from the tracker which page was asked for and from `p->sz`
which page to map. The two are the same page exactly when the pages are first
touched in ascending order, below the trapframe. Whatever the rest of the kernel
has done between two faults, it only has to supply the pages.
-/

namespace AdvancedOperatingSystems.DemandPaging

open Foundations Riscv Riscv.PageTable

/-- A user access, and the kernel in which a page fault of it is handled. -/
structure Touch where
  kernel : Kernel
  access : Access

/-- What a user access does to the process and its table. -/
def touch (s : Proc × PageTable ℕ) (e : Touch) : Except Panic (Proc × PageTable ℕ) := do
  let (_, c) ← access e.access ⟨e.kernel, s.1, s.2⟩
  return (c.proc, c.table)

def Faults (a : Access) (c : Cpu) : Prop := attempt a c = none

/-- A load or store to a tracked page, with pages to supply if it faults. -/
structure Touch.Fits (s : Proc × PageTable ℕ) (e : Touch) : Prop where
  op : e.access.op ≠ .fetch
  tracked : (pageIndex s.1.heapTracker e.access.pageAddr).isSome
  supplies : Faults e.access ⟨e.kernel, s.1, s.2⟩ →
    e.kernel.memory.Supplies (faultPages s.1 s.2 e.access.pageAddr)

/-- The access faults on a page that has never been loaded. -/
def FirstTouch (s : Proc × PageTable ℕ) (e : Touch) : Prop :=
  Faults e.access ⟨e.kernel, s.1, s.2⟩ ∧
    ∀ i, pageIndex s.1.heapTracker e.access.pageAddr = some i →
      (s.1.heapTracker i).lastLoadTime = unset

/-- The handler maps the page of the access, user-writable and reading as zeroes, and
no other page, and the access does not fault again. -/
def FirstTouchOk (s : Proc × PageTable ℕ) (e : Touch) : Prop :=
  ∃ c, pageFaultHandler e.access.trap ⟨e.kernel, s.1, s.2⟩ = .ok c ∧
    (∃ f, c.table.leaf (vpn e.access.pageAddr) = some f ∧ f.u = true ∧ f.w = true ∧
      ∀ j < PGSIZE, c.kernel.memory.page f.pa j = 0) ∧
    (∀ v, v ≠ vpn e.access.pageAddr → (c.table.leaf v).isSome → (s.2.leaf v).isSome) ∧
    (attempt e.access c).isSome

/-- The page of the access is the one at the end of the process, below the trapframe. -/
def InOrder (s : Proc × PageTable ℕ) (e : Touch) : Prop :=
  e.access.pageAddr = s.1.sz ∧ e.access.pageAddr < TRAPFRAME

section Access

variable {a : Access} {j : ℕ} {pt : PageTable ℕ}

theorem pageAddr_eq_iff : a.pageAddr = PGSIZE * j ↔ vpn a.va = j := by
  simp only [Access.pageAddr, pgrounddown, vpn, PGSIZE]
  omega

theorem va_lt_MAXVA (ha : a.pageAddr = PGSIZE * j) (hj : j ≤ trapPage) : a.va < MAXVA := by
  have hv := pageAddr_eq_iff.mp ha
  simp only [vpn, trapPage, TRAPFRAME, TRAMPOLINE, MAXVA, PGSIZE] at *
  omega

theorem translate_mapped (ha : a.pageAddr = PGSIZE * j) (hj : j ≤ trapPage) (hop : a.op ≠ .fetch)
    {pa : ℕ} (hleaf : pt.leaf j = some (permW.pte pa)) : translate pt a = some pa := by
  have hperm : a.op.permitted (permW.pte pa) = true := by
    cases h : a.op with
    | load => rfl
    | store => rfl
    | fetch => exact absurd h hop
  unfold translate
  rw [if_neg (Nat.not_le.mpr (va_lt_MAXVA ha hj)), pageAddr_eq_iff.mp ha, hleaf]
  simp only [hperm, ↓reduceIte]
  rfl

theorem translate_unmapped (ha : a.pageAddr = PGSIZE * j) (hleaf : pt.leaf j = none) :
    translate pt a = none := by
  unfold translate
  rw [pageAddr_eq_iff.mp ha, hleaf]
  simp

theorem attempt_isSome {c : Cpu} : (attempt a c).isSome = (translate c.table a).isSome := by
  simp [attempt]

theorem attempt_frame {c c' : Cpu} {v : Byte} (h : attempt a c = some (v, c')) :
    c'.proc = c.proc ∧ c'.table = c.table := by
  unfold attempt at h
  obtain ⟨pa, -, h⟩ := Option.map_eq_some_iff.mp h
  cases hop : a.op <;>
    · rw [hop] at h
      cases h
      exact ⟨rfl, rfl⟩

end Access

namespace Heap

variable {b n t : ℕ} {p : Proc} {pt : PageTable ℕ}

theorem exists_index (H : Heap b n t p pt) {a : Access}
    (h : (pageIndex p.heapTracker a.pageAddr).isSome) :
    ∃ i < n, a.pageAddr = PGSIZE * (b + i) ∧
      pageIndex p.heapTracker a.pageAddr = some i := by
  obtain ⟨i, hi⟩ := Option.isSome_iff_exists.mp h
  have hfound : (p.heapTracker i).addr = a.pageAddr := by
    unfold pageIndex at hi
    simpa using (find?_range_first hi).2.1
  have hin : i < n := by
    by_contra hge
    rw [H.clear i (by omega)] at hfound
    have haligned : a.pageAddr = PGSIZE * (a.va / PGSIZE) := by
      rw [Access.pageAddr, pgrounddown, Nat.mul_comm]
    rw [haligned] at hfound
    exact mul_ne_unset _ hfound.symm
  exact ⟨i, hin, by rw [← hfound, H.tracked i hin], hi⟩

theorem handler_eq (H : Heap b n t p pt) {a : Access} {k : Kernel} {i : ℕ} (hi : i < n)
    (ha : a.pageAddr = PGSIZE * (b + i)) :
    pageFaultHandler a.trap ⟨k, p, pt⟩ = heapHandle (PGSIZE * (b + i)) i ⟨k, p, pt⟩ := by
  unfold pageFaultHandler
  rw [trap_alignedAddr, ha, H.pageIndex_eq hi]

theorem untouched_of_firstTouch (H : Heap b n t p pt) {i : ℕ}
    (htime : (p.heapTracker i).lastLoadTime = unset) : t ≤ i := by
  by_contra hlt
  have := H.timed i (by omega)
  rw [htime] at this
  exact lt_irrefl _ this

end Heap

section Exact

variable {b n t : ℕ} {s : Proc × PageTable ℕ} {e : Touch}

/-- The first touch of a page does what it should exactly if the page is the next one. -/
theorem firstTouchOk_iff (H : Heap b n t s.1 s.2) (hfit : e.Fits s) (hfirst : FirstTouch s e) :
    FirstTouchOk s e ↔ InOrder s e := by
  obtain ⟨i, hin, ha, hidx⟩ := H.exists_index hfit.tracked
  have hti := H.untouched_of_firstTouch (hfirst.2 i hidx)
  have hsup := hfit.supplies hfirst.1
  rw [ha] at hsup
  have hvpn : vpn e.access.pageAddr = b + i := by rw [ha, vpn_mul]
  have horder : InOrder s e ↔ i = t ∧ b + t < trapPage := by
    unfold InOrder
    rw [ha, H.sz]
    simp only [trapPage, TRAPFRAME, TRAMPOLINE, MAXVA, PGSIZE]
    omega
  rw [horder]
  unfold FirstTouchOk
  rw [H.handler_eq hin ha, hvpn]
  rcases Nat.lt_or_ge (b + t) trapPage with hlt | hge
  · obtain ⟨c₁, pa, taken, m, pt, hmade, H₁, _, _, hrun, _, hzero, hleaf, _⟩ :=
      heapHandle_untouched (c := ⟨e.kernel, s.1, s.2⟩) H hti hin hlt hsup
    rw [hrun]
    have hnew : pt.leaf (b + t) = some (permW.pte pa) := by rw [hleaf, Function.update_self]
    have hold : ∀ v, v ≠ b + t → pt.leaf v = c₁.table.leaf v := fun v hv => by
      rw [hleaf, Function.update_of_ne hv]
    constructor
    · rintro ⟨c, hc, _, hothers, _⟩
      cases hc
      refine ⟨?_, hlt⟩
      by_contra hne
      have hmapped := hothers (b + t) (by omega) (by
        show (pt.leaf (b + t)).isSome
        rw [hnew]
        rfl)
      rw [H.above t le_rfl hlt] at hmapped
      cases hmapped
    · rintro ⟨rfl, -⟩
      refine ⟨_, rfl, ⟨permW.pte pa, hnew, rfl, rfl, fun j _ => ?_⟩, fun v hv hsome => ?_, ?_⟩
      · show m.page pa j = 0
        rw [hzero]
      · obtain ⟨f, hf⟩ := Option.isSome_iff_exists.mp hsome
        have hf' : c₁.table.leaf v = some f := by
          rw [← hold v hv]
          exact hf
        rw [hmade.leaf hf']
        rfl
      · have htrans : translate pt e.access = some pa :=
          translate_mapped ha hlt.le hfit.op hnew
        rw [attempt_isSome]
        show (translate pt e.access).isSome
        rw [htrans]
        rfl
  · have htop : b + t = trapPage := by have := H.top; omega
    rw [heapHandle_trapframe (c := ⟨e.kernel, s.1, s.2⟩) H hti hin htop hsup]
    constructor
    · rintro ⟨c, hc, _⟩
      cases hc
    · omega

/-- A run stays in a region as long as the first touches are in order. -/
theorem touch_heap (H : Heap b n t s.1 s.2) (hfit : e.Fits s)
    (horder : FirstTouch s e → InOrder s e) {s' : Proc × PageTable ℕ} (h : touch s e = .ok s') :
    ∃ t', Heap b n t' s'.1 s'.2 := by
  obtain ⟨⟨v, c⟩, hacc, h⟩ := bind_ok_iff.mp h
  cases h
  obtain ⟨i, hin, ha, hidx⟩ := H.exists_index hfit.tracked
  unfold access at hacc
  cases hatt : attempt e.access ⟨e.kernel, s.1, s.2⟩ with
  | some r =>
    rw [hatt] at hacc
    cases hacc
    obtain ⟨hp, ht⟩ := attempt_frame hatt
    exact ⟨t, by rw [hp, ht]; exact H⟩
  | none =>
    have hsup := hfit.supplies hatt
    rw [ha] at hsup
    rw [hatt] at hacc
    obtain ⟨c₂, hhandle, hacc⟩ := bind_ok_iff.mp hacc
    have hframe : c.proc = c₂.proc ∧ c.table = c₂.table := by
      cases hatt₂ : attempt e.access c₂ with
      | some r =>
        rw [hatt₂] at hacc
        cases hacc
        exact attempt_frame hatt₂
      | none =>
        rw [hatt₂] at hacc
        cases hacc
        exact ⟨rfl, rfl⟩
    rw [hframe.1, hframe.2]
    rw [H.handler_eq hin ha] at hhandle
    by_cases hit : i < t
    · -- a touched page faults only when it is on disk
      have hl : (s.1.heapTracker i).loaded = true := by
        by_contra hl
        obtain ⟨pa, hleaf⟩ := H.resident i hit (by simpa using hl)
        have hle : b + i ≤ trapPage := by have := H.top; omega
        have htrans : translate s.2 e.access = some pa := translate_mapped ha hle hfit.op hleaf
        have hsome : (attempt e.access ⟨e.kernel, s.1, s.2⟩).isSome := by
          rw [attempt_isSome, htrans]
          rfl
        rw [hatt] at hsome
        cases hsome
      obtain ⟨c₁, block, page, pa, taken, m, pt, hmade, H₁, hlt₁, _, _, hrun, _, _, hleaf, hwf⟩ :=
        heapHandle_swapped (c := ⟨e.kernel, s.1, s.2⟩) H hit hl hsup
      rw [hrun] at hhandle
      cases hhandle
      have hl₁ : (c₁.proc.heapTracker i).loaded = true := by
        rw [hmade.tracker (Or.inr hl)]
        exact hl
      exact ⟨t, H₁.retrieved hit hl₁ hlt₁ hleaf hwf⟩
    · have hfresh := (H.fresh i (by omega) hin).2
      have hfirst : FirstTouch s e := by
        refine ⟨hatt, fun j hj => ?_⟩
        rw [hidx] at hj
        cases hj
        exact hfresh
      obtain ⟨hsz, hbelow⟩ := horder hfirst
      have hit : i = t := by
        rw [ha, H.sz] at hsz
        have := mul_inj hsz
        omega
      subst hit
      have hlt : b + i < trapPage := by
        rw [ha] at hbelow
        simp only [trapPage, TRAPFRAME, TRAMPOLINE, MAXVA, PGSIZE] at *
        omega
      obtain ⟨c₁, pa, taken, m, pt, _, H₁, hlt₁, _, hrun, _, _, hleaf, hwf⟩ :=
        heapHandle_untouched (c := ⟨e.kernel, s.1, s.2⟩) H le_rfl hin hlt hsup
      rw [hrun] at hhandle
      cases hhandle
      exact ⟨i + 1, H₁.grown hin hlt hlt₁ hleaf hwf⟩

end Exact

section Sample

/-- The table of a program without segments: a guard page at page `stack`, a stack page
above it, the trapframe and the trampoline. -/
def sampleTable (stack : ℕ) : PageTable ℕ where
  mid i := if i = stack / 262144 ∨ i = 255 then some (PGSIZE * (524300 + i)) else none
  low i := if i = stack / 512 ∨ i = 131071 then some (PGSIZE * (524600 + i % 512)) else none
  leaf i :=
    if i = stack then some ⟨PGSIZE * 524288, true, true, false, false⟩
    else if i = stack + 1 then some (permW.pte (PGSIZE * 524289))
    else if i = trapPage then some ⟨PGSIZE * 524290, true, true, false, false⟩
    else if i = trapPage + 1 then some ⟨PGSIZE * 524291, true, false, true, false⟩
    else none

/-- A process that has executed a program without segments. -/
def sampleProc (stack : ℕ) : Proc where
  state := .live
  xstate := 0
  pid := 1
  parent := none
  sz := PGSIZE * (stack + 2)
  pagetable := some ⟨PGSIZE * 524299, sampleTable stack⟩
  trapframe := some (PGSIZE * 524290)
  name := ['a']
  ondemand := true
  heapTracker := fun _ => .clear
  residentHeapPages := 0
  cowGroup := 0
  cowEnabled := false

/-- A kernel with so many free pages. -/
def sampleKernel (count : ℕ) : Kernel where
  memory :=
    { trampoline := PGSIZE * 524291
      kend := PGSIZE * 524288
      freelist := (List.range count).map fun i => PGSIZE * (525200 + i)
      page := fun _ _ => 5
      released := [] }
  groups := fun _ => ⟨0, [], 0⟩
  psaTracker := fun _ => false
  disk := fun _ _ => 0
  bwritten := []
  ticks := 0

variable {stack : ℕ}

theorem sampleTable_wf (h : stack % 512 < 510) : (sampleTable stack).Wf := by
  have hleaf : ∀ i, ((sampleTable stack).leaf i).isSome →
      i = stack ∨ i = stack + 1 ∨ i = trapPage ∨ i = trapPage + 1 := by
    intro i hi
    simp only [sampleTable] at hi
    split_ifs at hi with h₀ h₁ h₂ h₃
    · exact Or.inl h₀
    · exact Or.inr (Or.inl h₁)
    · exact Or.inr (Or.inr (Or.inl h₂))
    · exact Or.inr (Or.inr (Or.inr h₃))
    · cases hi
  refine ⟨fun i hi => ?_, fun i hi => ?_, fun i e hi => ?_⟩
  · have hlow : i / 512 = stack / 512 ∨ i / 512 = 131071 := by
      have := hleaf i hi
      simp only [trapPage, TRAPFRAME, TRAMPOLINE, MAXVA, PGSIZE] at this
      omega
    simp [sampleTable, hlow]
  · have hmid : i / 512 = stack / 262144 ∨ i / 512 = 255 := by
      have hlow : i = stack / 512 ∨ i = 131071 := by
        by_contra hne
        simp [sampleTable, hne] at hi
      omega
    simp [sampleTable, hmid]
  · simp only [sampleTable] at hi
    split_ifs at hi <;>
      · cases hi
        rfl

theorem sampleProc_fresh (h : stack % 512 < 510) (htop : stack + 2 ≤ trapPage) :
    Fresh (sampleProc stack) (sampleTable stack) where
  ondemand := rfl
  aligned := mul_aligned _
  sz_le := by
    simp only [sampleProc, trapPage, TRAPFRAME, TRAMPOLINE, MAXVA, PGSIZE] at *
    omega
  wf := sampleTable_wf h
  trapframe := by
    have hne : trapPage ≠ stack ∧ trapPage ≠ stack + 1 := by omega
    exact ⟨⟨PGSIZE * 524290, true, true, false, false⟩, by simp [sampleTable, hne], rfl⟩
  above i hi hlt := by
    have hle : stack + 2 ≤ i := by
      simp only [sampleProc, PGSIZE] at hi
      omega
    have hne : i ≠ stack ∧ i ≠ stack + 1 ∧ i ≠ trapPage ∧ i ≠ trapPage + 1 := by omega
    simp only [sampleTable, hne, ↓reduceIte]
  tracker := rfl
  resident := rfl

theorem sampleKernel_supplies (count : ℕ) : (sampleKernel count).memory.Supplies count := by
  refine ⟨?_, ?_, by simp [sampleKernel]⟩
  · apply List.Nodup.map _ List.nodup_range
    intro i j hij
    have := mul_inj hij
    omega
  · simp only [sampleKernel, List.mem_map, not_exists, not_and]
    intro i _ h
    simp only [PGSIZE] at h
    omega

theorem sample_faultPages (h : stack % 512 < 510) {n i : ℕ} {p : Proc}
    (H : Heap (stack + 2) n 0 p (sampleTable stack)) (hi : i < n) :
    faultPages p (sampleTable stack) (PGSIZE * (stack + 2 + i)) = 1 := by
  have hroom : roomPages p = 0 := by
    simp [roomPages, H.count, residentSet]
  have hsz : p.sz = PGSIZE * (stack + 2) := H.sz
  have hlow : lowIndex (PGSIZE * (stack + 2)) = stack / 512 := by
    rw [lowIndex, vpn_mul]
    omega
  have hmid : midIndex (PGSIZE * (stack + 2)) = stack / 262144 := by
    rw [midIndex, hlow]
    omega
  have htables : missingTables (sampleTable stack) (PGSIZE * (stack + 2)) = 0 := by
    simp [missingTables, sampleTable, hlow, hmid]
  rw [faultPages_eq (H.pageIndex_eq hi), (H.fresh i (Nat.zero_le i) hi).1, hroom, hsz, htables]
  rfl

theorem sample_region (h : stack % 512 < 510) (htop : stack + 2 ≤ trapPage) {n : ℕ}
    (hpos : 1 ≤ n) (hle : n ≤ MAXHEAP) (k : Kernel) :
    ∃ c', growproc (PGSIZE * n) ⟨k, sampleProc stack, sampleTable stack⟩ = .ok (true, c') ∧
      c'.table = sampleTable stack ∧ c'.kernel = k ∧
      Heap (stack + 2) n 0 c'.proc (sampleTable stack) := by
  have F := sampleProc_fresh h htop
  obtain ⟨c', hc'⟩ := Fresh.growproc_returns (c := ⟨k, sampleProc stack, sampleTable stack⟩)
    F hpos hle
  obtain ⟨b, m, hb, hm, _, htable, hkernel, H⟩ := Fresh.growproc_heap F hc'
  have hb' : b = stack + 2 := (mul_inj (i := stack + 2) hb).symm
  have hm' : m = n := by
    rw [Int.mul_tdiv_cancel_left _ (by decide)] at hm
    exact (Int.ofNat.inj hm).symm
  subst hb' hm'
  rw [htable] at H
  exact ⟨c', hc', htable, hkernel, H⟩

/-- A load from page `i`. -/
def sampleLoad (i : ℕ) : Access :=
  ⟨.load, PGSIZE * i, fun _ => none, fun _ => 0, fun _ => 0⟩

@[simp] theorem sampleLoad_pageAddr (i : ℕ) : (sampleLoad i).pageAddr = PGSIZE * i :=
  pgrounddown_of_aligned (mul_aligned i)

theorem sample_firstTouch (h : stack % 512 < 510) {n i : ℕ} {p : Proc}
    (H : Heap (stack + 2) n 0 p (sampleTable stack)) (hi : i < n) (hlt : stack + 2 + i < trapPage)
    {k : Kernel} (hk : k.memory.Supplies 1) :
    Touch.Fits (p, sampleTable stack) ⟨k, sampleLoad (stack + 2 + i)⟩ ∧
      FirstTouch (p, sampleTable stack) ⟨k, sampleLoad (stack + 2 + i)⟩ := by
  have hidx := H.pageIndex_eq hi
  have hfault : Faults (sampleLoad (stack + 2 + i)) ⟨k, p, sampleTable stack⟩ := by
    have htrans : translate (sampleTable stack) (sampleLoad (stack + 2 + i)) = none :=
      translate_unmapped (sampleLoad_pageAddr _) (H.above i (Nat.zero_le i) hlt)
    simp [Faults, attempt, htrans]
  refine ⟨⟨by simp [sampleLoad], by simp [hidx], fun _ => ?_⟩, hfault, fun j hj => ?_⟩
  · rw [sampleLoad_pageAddr, sample_faultPages h H hi]
    exact hk
  · simp only [sampleLoad_pageAddr] at hj
    rw [hidx] at hj
    cases hj
    exact (H.fresh i (Nat.zero_le i) hi).2

end Sample

/-- In every run over a region that one `sbrk` has tracked, all first touches do what
they should if and only if all of them are in order. -/
theorem first_touches_ok_iff {c c' : Cpu} (F : Fresh c.proc c.table) {bytes : Int} {ok : Bool}
    (hgrow : growproc bytes c = .ok (ok, c')) {es : List Touch}
    (hfit : Guarded touch (fun s e => e.Fits s) (c'.proc, c'.table) es) :
    Guarded touch (fun s e => FirstTouch s e → FirstTouchOk s e) (c'.proc, c'.table) es ↔
      Guarded touch (fun s e => FirstTouch s e → InOrder s e) (c'.proc, c'.table) es := by
  obtain ⟨b, n, _, _, _, _, _, H⟩ := F.growproc_heap hgrow
  have hI : ∃ t, Heap b n t (c'.proc, c'.table).1 (c'.proc, c'.table).2 := ⟨0, H⟩
  refine guarded_congr (I := fun s => ∃ t, Heap b n t s.1 s.2) ?_ ?_ hI hfit
  · rintro s e ⟨t, Ht⟩ he
    exact imp_congr_right fun hfirst => firstTouchOk_iff Ht he hfirst
  · rintro s e s' ⟨t, Ht⟩ he horder hstep
    exact touch_heap Ht he horder hstep

/-- A region of two pages, touched from the bottom. -/
theorem sample_first_touches_ok_iff :
    ∃ c', growproc (PGSIZE * (2 : ℕ)) ⟨sampleKernel 1, sampleProc 0, sampleTable 0⟩ =
        .ok (true, c') ∧
      (Guarded touch (fun s e => FirstTouch s e → FirstTouchOk s e) (c'.proc, c'.table)
          [⟨sampleKernel 1, sampleLoad 2⟩] ↔
        Guarded touch (fun s e => FirstTouch s e → InOrder s e) (c'.proc, c'.table)
          [⟨sampleKernel 1, sampleLoad 2⟩]) := by
  obtain ⟨c', hc', htable, -, H⟩ :=
    @sample_region 0 (by decide) (by decide) 2 (by decide) (by decide) (sampleKernel 1)
  obtain ⟨hfit, -⟩ := sample_firstTouch (i := 0) (by decide) H (by decide) (by decide)
    (sampleKernel_supplies 1)
  rw [← htable] at hfit
  exact ⟨c', hc', first_touches_ok_iff (sampleProc_fresh (by decide) (by decide)) hc'
    ⟨hfit, fun _ _ => trivial⟩⟩

/-- Of a region of two pages the upper one is touched first: the lower one is mapped. -/
theorem upper_page_first_maps_lower :
    ∃ c', growproc (PGSIZE * (2 : ℕ)) ⟨sampleKernel 1, sampleProc 0, sampleTable 0⟩ =
        .ok (true, c') ∧
      Touch.Fits (c'.proc, c'.table) ⟨sampleKernel 1, sampleLoad 3⟩ ∧
      FirstTouch (c'.proc, c'.table) ⟨sampleKernel 1, sampleLoad 3⟩ ∧
      ¬ FirstTouchOk (c'.proc, c'.table) ⟨sampleKernel 1, sampleLoad 3⟩ := by
  obtain ⟨c', hc', htable, -, H⟩ :=
    @sample_region 0 (by decide) (by decide) 2 (by decide) (by decide) (sampleKernel 1)
  obtain ⟨hfit, hfirst⟩ := sample_firstTouch (i := 1) (by decide) H (by decide) (by decide)
    (sampleKernel_supplies 1)
  rw [← htable] at hfit hfirst H
  refine ⟨c', hc', hfit, hfirst, fun hok => ?_⟩
  have horder := ((firstTouchOk_iff H hfit hfirst).mp hok).1
  have haddr : PGSIZE * 3 = PGSIZE * 2 := by
    rw [H.sz] at horder
    exact horder
  exact absurd (mul_inj haddr) (by decide)

end AdvancedOperatingSystems.DemandPaging
