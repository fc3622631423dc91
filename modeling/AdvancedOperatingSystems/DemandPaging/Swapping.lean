import AdvancedOperatingSystems.DemandPaging.FirstTouch

/-!
# Swapping preserves memory

A process alone with its heap region sees flat memory: a page in memory holds its
bytes in a frame of its own, a page on disk holds them on four blocks of its own,
and the tracker of blocks marks these blocks and no others. The relation is kept
by every access as long as the region stays below the trapframe.
-/

namespace AdvancedOperatingSystems.DemandPaging

open Foundations Riscv Riscv.PageTable

/-- A user access at some value of `ticks`. -/
structure Instr where
  access : Access
  now : BitVec 32

/-- A running process and what its accesses have loaded or stored so far, latest first. -/
structure Session where
  cpu : Cpu
  seen : List (Option Byte)

def Cpu.atTime (c : Cpu) (now : BitVec 32) : Cpu :=
  { c with kernel := { c.kernel with ticks := now } }

def userStep (s : Session) (e : Instr) : Except Panic Session := do
  let (value, c) ← access e.access (s.cpu.atTime e.now)
  return ⟨c, value :: s.seen⟩

/-- Memory without paging, and what the accesses have loaded or stored so far. -/
structure Flat where
  byte : ℕ → Byte
  seen : List (Option Byte)

def flatStep (f : Flat) (e : Instr) : Flat :=
  match e.access.op with
  | .store value => ⟨Function.update f.byte e.access.va value, some value :: f.seen⟩
  | _ => ⟨f.byte, some (f.byte e.access.va) :: f.seen⟩

/-- Each access is to one of the `t` pages from page `b` on that have been touched so
far or to the next one, and to one of the `n` pages of the region. -/
def Ascending (b n : ℕ) : ℕ → List Instr → Prop
  | _, [] => True
  | t, e :: es => ∃ i < n, e.access.pageAddr = PGSIZE * (b + i) ∧ i ≤ t ∧
      Ascending b n (max t (i + 1)) es

/-- A load or store, with pages to supply if it faults. -/
structure Instr.Fits (s : Session) (e : Instr) : Prop where
  op : e.access.op ≠ .fetch
  supplies : Faults e.access s.cpu →
    s.cpu.kernel.memory.Supplies
      (faultPages s.cpu.proc s.cpu.table e.access.pageAddr)

instance (s : Session) (e : Instr) : Decidable (e.Fits s) :=
  decidable_of_iff (e.access.op ≠ .fetch ∧ ((attempt e.access s.cpu).isNone →
      s.cpu.kernel.memory.freelist.Nodup ∧ 0 ∉ s.cpu.kernel.memory.freelist ∧
        faultPages s.cpu.proc s.cpu.table e.access.pageAddr ≤
          s.cpu.kernel.memory.freelist.length)) (by
    simp only [Option.isNone_iff_eq_none]
    constructor
    · rintro ⟨hop, hsupplies⟩
      exact ⟨hop, fun hf => ⟨(hsupplies hf).1, (hsupplies hf).2.1, (hsupplies hf).2.2⟩⟩
    · rintro ⟨hop, hsupplies⟩
      exact ⟨hop, fun hf => ⟨(hsupplies hf).nodup, (hsupplies hf).nonzero, (hsupplies hf).enough⟩⟩)

/-- If the next fault evicts a page, the page is mapped. -/
def VictimMapped (s : Session) : Prop :=
  s.cpu.proc.residentHeapPages = MAXRESHEAP →
    ∃ v, victimPageIndex s.cpu.proc.heapTracker = some v ∧
      s.cpu.table.Mapped (s.cpu.proc.heapTracker v).addr

/-- The blocks `mkfs` reserves for swapping. -/
def SwapBlock (block : ℕ) : Prop := 32 ≤ block ∧ block ≤ 4031

/-- No fault panics, the loads return what flat memory holds, victims are mapped, and
writes to the disk stay in the swap region. -/
def SwapTransparent (c : Cpu) (es : List Instr) : Prop :=
  ∃ s, exec userStep ⟨c, []⟩ es = .ok s ∧
    s.seen = (es.foldl flatStep ⟨fun _ => 0, []⟩).seen ∧
    Guarded userStep (fun s _ => VictimMapped s) ⟨c, []⟩ es ∧
    ∀ block ∈ s.cpu.kernel.bwritten, block ∈ c.kernel.bwritten ∨ SwapBlock block

def HeapPage.onDisk (e : HeapPage) (block : ℕ) : Prop :=
  e.loaded = true ∧ e.startblock = some block

/-- The contents of the pages of a region, in memory and on disk. -/
structure Stored (b n t : ℕ) (c : Cpu) (flat : ℕ → Byte) : Prop where
  frame_inj : ∀ i < t, ∀ j < t, ∀ pa, c.table.leaf (b + i) = some (permW.pte pa) →
    c.table.leaf (b + j) = some (permW.pte pa) → i = j
  frame_used : ∀ i < t, ∀ pa, c.table.leaf (b + i) = some (permW.pte pa) →
    pa ∉ c.kernel.memory.freelist ∧ pa ≠ 0
  frame : ∀ i < t, ∀ pa, c.table.leaf (b + i) = some (permW.pte pa) → ∀ j < PGSIZE,
    c.kernel.memory.page pa j = flat (PGSIZE * (b + i) + j)
  zero : ∀ i, t ≤ i → i < n → ∀ j < PGSIZE, flat (PGSIZE * (b + i) + j) = 0
  disk : ∀ i < t, ∀ block, (c.proc.heapTracker i).onDisk block → ∀ j < PGSIZE,
    readPage c.kernel.disk block j = flat (PGSIZE * (b + i) + j)
  aligned : ∀ i < t, (c.proc.heapTracker i).loaded = true →
    ∃ q, (c.proc.heapTracker i).startblock = some (4 * q)
  block_inj : ∀ i < t, ∀ j < t, ∀ block, (c.proc.heapTracker i).onDisk block →
    (c.proc.heapTracker j).onDisk block → i = j
  marked : ∀ x, c.kernel.psaTracker x = true ↔
    ∃ i < t, (c.proc.heapTracker i).onDisk (4 * (x / 4))

theorem freeBlock_spec {psa : ℕ → Bool} {x : ℕ} (hx : x < PSASIZE - PSASTART)
    (hfree : psa x = false) :
    freeBlock psa ≤ x ∧ psa (freeBlock psa) = false ∧ ∀ y < freeBlock psa, psa y = true := by
  unfold freeBlock
  cases h : (List.range (PSASIZE - PSASTART)).find? fun i => !psa i with
  | none =>
    rw [List.find?_eq_none] at h
    exact absurd (h x (List.mem_range.mpr hx)) (by simp [hfree])
  | some z =>
    obtain ⟨-, hz, hbefore⟩ := find?_range_first h
    have hbefore' : ∀ y < z, psa y = true := fun y hy => by simpa using hbefore y hy
    refine ⟨?_, by simpa using hz, hbefore'⟩
    show z ≤ x
    by_contra hlt
    rw [hbefore' x (by omega)] at hfree
    cases hfree

namespace Stored

variable {b n t : ℕ} {c : Cpu} {flat : ℕ → Byte}

/-- A region with a full resident set has fewer than 901 pages on disk, so one of the
first 901 places of four blocks is free. -/
theorem exists_free (H : Heap b n t c.proc c.table) (S : Stored b n t c flat)
    (hfull : c.proc.residentHeapPages = MAXRESHEAP) :
    ∃ q ≤ 900, c.kernel.psaTracker (4 * q) = false := by
  by_contra hno
  push Not at hno
  -- every place is occupied by a page of its own
  have hocc : ∀ q ∈ Finset.range 901, ∃ i, i < t ∧ (c.proc.heapTracker i).onDisk (4 * q) := by
    intro q hq
    have hmark : c.kernel.psaTracker (4 * q) = true := by
      simpa using hno q (by rw [Finset.mem_range] at hq; omega)
    obtain ⟨i, hi, hdisk⟩ := (S.marked _).mp hmark
    rw [Nat.mul_div_cancel_left q (by decide)] at hdisk
    exact ⟨i, hi, hdisk⟩
  choose! page hpage using hocc
  have hcard : (Finset.range 901).card ≤ ((Finset.range t) \ residentSet c.proc.heapTracker t).card := by
    apply Finset.card_le_card_of_injOn page
    · intro q hq
      obtain ⟨hlt, hloaded, -⟩ := hpage q hq
      simp [mem_residentSet, hlt, hloaded]
    · intro q hq r hr hqr
      obtain ⟨-, -, hblock⟩ := hpage q hq
      obtain ⟨-, -, hblock'⟩ := hpage r hr
      rw [hqr, hblock', Option.some.injEq] at hblock
      omega
  have hsub : residentSet c.proc.heapTracker t ⊆ Finset.range t := Finset.filter_subset _ _
  rw [Finset.card_sdiff_of_subset hsub, ← H.count, hfull, Finset.card_range,
    Finset.card_range] at hcard
  have := H.t_le.trans H.n_le
  simp only [MAXHEAP, MAXRESHEAP] at *
  omega

/-- An eviction from a full region finds four free blocks of one place. -/
theorem freeBlock_eq (H : Heap b n t c.proc c.table) (S : Stored b n t c flat)
    (hfull : c.proc.residentHeapPages = MAXRESHEAP) :
    ∃ q ≤ 900, freeBlock c.kernel.psaTracker = 4 * q ∧
      ∀ i < t, ¬ (c.proc.heapTracker i).onDisk (4 * q) := by
  obtain ⟨q, hq, hfree⟩ := S.exists_free H hfull
  obtain ⟨hle, hfree', hbefore⟩ := freeBlock_spec
    (by simp only [PSASIZE, PSASTART]; omega) hfree
  generalize freeBlock c.kernel.psaTracker = z at *
  have hplace : c.kernel.psaTracker (4 * (z / 4)) = false := by
    cases hmark : c.kernel.psaTracker (4 * (z / 4)) with
    | false => rfl
    | true =>
      have hiff := (S.marked (4 * (z / 4))).mp hmark
      rw [Nat.mul_div_cancel_left _ (by decide)] at hiff
      rw [(S.marked z).mpr hiff] at hfree'
      cases hfree'
  have hz : z = 4 * (z / 4) := by
    by_contra hne
    rw [hbefore (4 * (z / 4)) (by omega)] at hplace
    cases hplace
  refine ⟨z / 4, by omega, hz, fun i hi hdisk => ?_⟩
  have hmark := (S.marked z).mpr ⟨i, hi, hdisk⟩
  rw [hfree'] at hmark
  cases hmark

/-- An eviction puts the page on four free blocks. -/
theorem evict (H : Heap b n t c.proc c.table) (S : Stored b n t c flat) {v pa page : ℕ}
    {data : Page} {m : Memory} (full : c.proc.residentHeapPages = MAXRESHEAP) (lt : v < t)
    (loaded : (c.proc.heapTracker v).loaded = false)
    (addr : (c.proc.heapTracker v).addr = PGSIZE * (b + v))
    (leaf : c.table.leaf (b + v) = some (permW.pte pa)) (takes : Takes [page] c.kernel.memory m)
    (copy : pa ≠ 0 → pa ∉ c.kernel.memory.freelist → data = c.kernel.memory.page pa) :
    Stored b n t (c.roomMade v data m) flat := by
  obtain ⟨q, -, hq, hunused⟩ := S.freeBlock_eq H full
  obtain ⟨hpafree, hpa0⟩ := S.frame_used v lt pa leaf
  have hdata := copy hpa0 hpafree
  set c' := c.roomMade v data m with hc'
  have hmem : c'.kernel.memory = m := by
    simp [hc', Cpu.roomMade, Cpu.evicted, writePage_eq]
  have hself : c'.proc.heapTracker v =
      { c.proc.heapTracker v with loaded := true, startblock := some (4 * q) } := by
    rw [← hq]
    exact Function.update_self _ _ _
  have hother : ∀ i, i ≠ v → c'.proc.heapTracker i = c.proc.heapTracker i := fun i hi =>
    Heap.swapOut_apply hi
  have hleaf : ∀ i < t, ∀ pa', c'.table.leaf (b + i) = some (permW.pte pa') →
      i ≠ v ∧ c.table.leaf (b + i) = some (permW.pte pa') := by
    intro i _ pa' hi
    have htable : c'.table.leaf = Function.update c.table.leaf (b + v) none := by
      rw [hc', Cpu.roomMade, Cpu.evicted, set_leaf, addr, vpn_mul]
    rw [htable, Function.update_apply] at hi
    split_ifs at hi with hiv
    exact ⟨by omega, hi⟩
  have hframes : ∀ i < t, ∀ pa', c.table.leaf (b + i) = some (permW.pte pa') →
      m.page pa' = c.kernel.memory.page pa' := by
    intro i hi pa' hi'
    apply takes.page
    intro hin
    exact (S.frame_used i hi pa' hi').1 (takes.mem hin)
  have hdisk : c'.kernel.disk = (writePage (4 * q) data c.kernel).disk := by
    rw [← hq]
    simp [hc', Cpu.roomMade, Cpu.evicted, writePage_eq]
  have hpsa : c'.kernel.psaTracker = setBlocks c.kernel.psaTracker (4 * q) true := by
    rw [← hq]
    simp [hc', Cpu.roomMade, Cpu.evicted, writePage_eq]
  have honDisk : ∀ i block, i ≠ v →
      ((c'.proc.heapTracker i).onDisk block ↔ (c.proc.heapTracker i).onDisk block) := by
    intro i block hi
    rw [hother i hi]
  have honDiskv : ∀ block, (c'.proc.heapTracker v).onDisk block ↔ block = 4 * q := by
    intro block
    rw [hself]
    simp [HeapPage.onDisk, eq_comm]
  refine ⟨fun i hi j hj pa' hi' hj' => ?_, fun i hi pa' hi' => ?_, fun i hi pa' hi' j hj => ?_,
    S.zero, fun i hi block hblock j hj => ?_, fun i hi hl => ?_,
    fun i hi j hj block hi' hj' => ?_, fun x => ?_⟩
  · exact S.frame_inj i hi j hj pa' (hleaf i hi pa' hi').2 (hleaf j hj pa' hj').2
  · obtain ⟨hfree, h0⟩ := S.frame_used i hi pa' (hleaf i hi pa' hi').2
    refine ⟨fun hin => hfree ?_, h0⟩
    rw [hmem] at hin
    rw [takes.freelist]
    exact List.mem_append_right _ hin
  · rw [hmem, hframes i hi pa' (hleaf i hi pa' hi').2]
    exact S.frame i hi pa' (hleaf i hi pa' hi').2 j hj
  · rw [hdisk]
    by_cases hiv : i = v
    · subst hiv
      rw [(honDiskv block).mp hblock, readPage_writePage hj, hdata]
      exact S.frame i hi pa leaf j hj
    · have hblock' := (honDisk i block hiv).mp hblock
      obtain ⟨q', hq'⟩ := S.aligned i hi hblock'.1
      have hbq : block = 4 * q' := by
        rw [hblock'.2] at hq'
        exact Option.some.inj hq'
      have hne : q' ≠ q := by
        rintro rfl
        exact hunused i hi (hbq ▸ hblock')
      rw [readPage_writePage_of_disjoint hj (by omega)]
      exact S.disk i hi block hblock' j hj
  · by_cases hiv : i = v
    · exact ⟨q, by rw [hiv, hself]⟩
    · rw [hother i hiv] at hl ⊢
      exact S.aligned i hi hl
  · by_cases hiv : i = v
    · by_cases hjv : j = v
      · rw [hiv, hjv]
      · rw [hiv, honDiskv] at hi'
        rw [honDisk j block hjv, hi'] at hj'
        exact absurd hj' (hunused j hj)
    · by_cases hjv : j = v
      · rw [hjv, honDiskv] at hj'
        rw [honDisk i block hiv, hj'] at hi'
        exact absurd hi' (hunused i hi)
      · exact S.block_inj i hi j hj block ((honDisk i block hiv).mp hi')
          ((honDisk j block hjv).mp hj')
  · rw [hpsa, setBlocks]
    by_cases hx : x / 4 = q
    · have hin : 4 * q ≤ x ∧ x < 4 * q + 4 := by omega
      rw [if_pos hin, hx]
      exact ⟨fun _ => ⟨v, lt, (honDiskv _).mpr rfl⟩, fun _ => rfl⟩
    · have hout : ¬ (4 * q ≤ x ∧ x < 4 * q + 4) := by omega
      rw [if_neg hout, S.marked x]
      constructor
      · rintro ⟨i, hi, hblock⟩
        have hiv : i ≠ v := by
          rintro rfl
          rw [hblock.1] at loaded
          cases loaded
        exact ⟨i, hi, (honDisk i _ hiv).mpr hblock⟩
      · rintro ⟨i, hi, hblock⟩
        have hiv : i ≠ v := by
          rintro rfl
          have := (honDiskv _).mp hblock
          omega
        exact ⟨i, hi, (honDisk i _ hiv).mp hblock⟩

theorem makeRoom (H : Heap b n t c.proc c.table) (S : Stored b n t c flat) {c' : Cpu}
    (h : MadeRoom b t c c') : Stored b n t c' flat := by
  cases h with
  | kept => exact S
  | evicted full lt loaded addr leaf takes copy =>
    exact S.evict H full lt loaded addr leaf takes copy

/-- Page `i` has come into a frame taken off the free list, with the bytes it had. -/
theorem load (S : Stored b n t c flat) {i t' pa : ℕ} {taken : List ℕ} {c' : Cpu}
    (hcase : t' = t ∧ i < t ∨ (i = t ∧ t' = t + 1) ∧ (c.proc.heapTracker i).loaded = false)
    (hm : c.kernel.memory.Supplies 0)
    (htake : Takes taken c.kernel.memory c'.kernel.memory) (hpa : pa ∈ taken)
    (hdata : ∀ j < PGSIZE, c'.kernel.memory.page pa j = flat (PGSIZE * (b + i) + j))
    (hleaf : c'.table.leaf = Function.update c.table.leaf (b + i) (some (permW.pte pa)))
    (hdisk : c'.kernel.disk = c.kernel.disk)
    (hl : (c'.proc.heapTracker i).loaded = false)
    (hloaded : ∀ j, j ≠ i → (c'.proc.heapTracker j).loaded = (c.proc.heapTracker j).loaded)
    (hblocks : ∀ j, j ≠ i →
      (c'.proc.heapTracker j).startblock = (c.proc.heapTracker j).startblock)
    (hpsa : ∀ x, c'.kernel.psaTracker x = true ↔
      c.kernel.psaTracker x = true ∧ ¬ (c.proc.heapTracker i).onDisk (4 * (x / 4))) :
    Stored b n t' c' flat := by
  have hpamem : pa ∈ c.kernel.memory.freelist := htake.mem hpa
  have hpafree : pa ∉ c'.kernel.memory.freelist := by
    intro hin
    have hnodup := hm.nodup
    rw [htake.freelist] at hnodup
    exact List.disjoint_of_nodup_append hnodup hpa hin
  have hnew : c'.table.leaf (b + i) = some (permW.pte pa) := by
    rw [hleaf, Function.update_self]
  have hold : ∀ j, j ≠ i → c'.table.leaf (b + j) = c.table.leaf (b + j) := fun j hj => by
    rw [hleaf, Function.update_of_ne (by omega)]
  have hpai : ∀ pa', c'.table.leaf (b + i) = some (permW.pte pa') → pa' = pa := by
    intro pa' h
    rw [hnew, Option.some.injEq] at h
    exact (congrArg Pte.pa h).symm
  have htr : ∀ j, j ≠ i → ∀ block, (c'.proc.heapTracker j).onDisk block ↔
      (c.proc.heapTracker j).onDisk block := by
    intro j hj block
    rw [HeapPage.onDisk, HeapPage.onDisk, hloaded j hj, hblocks j hj]
  have hnotdisk : ∀ block, ¬ (c'.proc.heapTracker i).onDisk block := by
    intro block h
    rw [h.1] at hl
    cases hl
  have hlt : ∀ j, j < t' → j ≠ i → j < t := by omega
  refine ⟨fun j hj k hk pa' hj' hk' => ?_, fun j hj pa' hj' => ?_, fun j hj pa' hj' l hl' => ?_,
    fun j hj hjn => S.zero j (by omega) hjn, fun j hj block hblock l hl' => ?_,
    fun j hj hjl => ?_, fun j hj k hk block hj' hk' => ?_, fun x => ?_⟩
  · by_cases hji : j = i
    · by_cases hki : k = i
      · rw [hji, hki]
      · rw [hji] at hj'
        rw [hold k hki] at hk'
        rw [hpai pa' hj'] at hk'
        exact absurd hpamem (S.frame_used k (hlt k hk hki) pa hk').1
    · rw [hold j hji] at hj'
      by_cases hki : k = i
      · rw [hki] at hk'
        rw [hpai pa' hk'] at hj'
        exact absurd hpamem (S.frame_used j (hlt j hj hji) pa hj').1
      · rw [hold k hki] at hk'
        exact S.frame_inj j (hlt j hj hji) k (hlt k hk hki) pa' hj' hk'
  · by_cases hji : j = i
    · rw [hji] at hj'
      rw [hpai pa' hj']
      exact ⟨hpafree, fun h0 => hm.nonzero (h0 ▸ hpamem)⟩
    · rw [hold j hji] at hj'
      obtain ⟨hfree, h0⟩ := S.frame_used j (hlt j hj hji) pa' hj'
      refine ⟨fun hin => hfree ?_, h0⟩
      rw [htake.freelist]
      exact List.mem_append_right _ hin
  · by_cases hji : j = i
    · subst hji
      rw [hpai pa' hj']
      exact hdata l hl'
    · rw [hold j hji] at hj'
      have hne : pa' ∉ taken := fun hin =>
        (S.frame_used j (hlt j hj hji) pa' hj').1 (htake.mem hin)
      rw [htake.page pa' hne]
      exact S.frame j (hlt j hj hji) pa' hj' l hl'
  · by_cases hji : j = i
    · subst hji
      exact absurd hblock (hnotdisk block)
    · rw [hdisk]
      exact S.disk j (hlt j hj hji) block ((htr j hji block).mp hblock) l hl'
  · by_cases hji : j = i
    · rw [hji, hl] at hjl
      cases hjl
    · rw [hloaded j hji] at hjl
      rw [hblocks j hji]
      exact S.aligned j (hlt j hj hji) hjl
  · by_cases hji : j = i
    · subst hji
      exact absurd hj' (hnotdisk block)
    · by_cases hki : k = i
      · subst hki
        exact absurd hk' (hnotdisk block)
      · exact S.block_inj j (hlt j hj hji) k (hlt k hk hki) block ((htr j hji block).mp hj')
          ((htr k hki block).mp hk')
  · rw [hpsa, S.marked]
    constructor
    · rintro ⟨⟨j, hj, hblock⟩, hno⟩
      have hji : j ≠ i := by
        rintro rfl
        exact hno hblock
      exact ⟨j, by omega, (htr j hji _).mpr hblock⟩
    · rintro ⟨j, hj, hblock⟩
      have hji : j ≠ i := by
        rintro rfl
        exact hnotdisk _ hblock
      have hblock' := (htr j hji _).mp hblock
      refine ⟨⟨j, hlt j hj hji, hblock'⟩, fun hi' => ?_⟩
      rcases hcase with ⟨-, hit⟩ | ⟨-, hit⟩
      · exact hji (S.block_inj j (hlt j hj hji) i hit _ hblock' hi')
      · rw [hi'.1] at hit
        cases hit

theorem noteLoad_onDisk {addr i : ℕ} :
    ((noteLoad addr c).proc.heapTracker i).loaded = (c.proc.heapTracker i).loaded ∧
      ((noteLoad addr c).proc.heapTracker i).startblock = (c.proc.heapTracker i).startblock := by
  simp only [noteLoad]
  split_ifs <;> exact ⟨rfl, rfl⟩

theorem grown (H : Heap b n t c.proc c.table) (S : Stored b n t c flat) (hin : t < n)
    (hm : c.kernel.memory.Supplies 0) {pa : ℕ} {taken : List ℕ} {m : Memory} {pt : PageTable ℕ}
    (htake : Takes (pa :: taken) c.kernel.memory m) (hzero : m.page pa = fun _ => 0)
    (hleaf : pt.leaf = Function.update c.table.leaf (b + t) (some (permW.pte pa))) {sz : ℕ} :
    Stored b n (t + 1) (noteLoad (PGSIZE * (b + t)) (c.grown sz (m, pt))) flat := by
  have hfresh := (H.fresh t le_rfl hin).1
  have hnote := fun i => @noteLoad_onDisk (c.grown sz (m, pt)) (PGSIZE * (b + t)) i
  refine S.load (i := t) (Or.inr ⟨⟨rfl, rfl⟩, hfresh⟩) hm htake List.mem_cons_self (fun j hj => ?_)
    hleaf rfl ((hnote t).1.trans hfresh) (fun j _ => (hnote j).1) (fun j _ => (hnote j).2)
    fun x => ?_
  · show m.page pa j = _
    rw [hzero, S.zero t le_rfl hin j hj]
  · have hno : ¬ (c.proc.heapTracker t).onDisk (4 * (x / 4)) := by
      intro h
      rw [h.1] at hfresh
      cases hfresh
    simp [hno, noteLoad, Cpu.grown, Cpu.setSpace]

/-- The return of a page from disk. -/
theorem retrieved (S : Stored b n t c flat) {i : ℕ} (hi : i < t)
    (hm : c.kernel.memory.Supplies 0) {block page pa : ℕ} {taken : List ℕ} {m : Memory}
    {pt : PageTable ℕ} (hblock : (c.proc.heapTracker i).onDisk block)
    (htake : Takes (page :: pa :: taken) c.kernel.memory m)
    (hdata : ∀ j < PGSIZE, m.page pa j = readPage c.kernel.disk block j)
    (hleaf : pt.leaf = Function.update c.table.leaf (b + i) (some (permW.pte pa))) :
    Stored b n t (noteLoad (PGSIZE * (b + i)) (c.retrieved i block (m, pt))) flat := by
  have hnote := fun j => @noteLoad_onDisk (c.retrieved i block (m, pt)) (PGSIZE * (b + i)) j
  have hself : ((c.retrieved i block (m, pt)).proc.heapTracker i).loaded = false := by
    simp [Cpu.retrieved, swapIn]
  have hother : ∀ j, j ≠ i →
      (c.retrieved i block (m, pt)).proc.heapTracker j = c.proc.heapTracker j := fun j hj => by
    simp [Cpu.retrieved, swapIn, Function.update_of_ne hj]
  obtain ⟨q, hq⟩ := S.aligned i hi hblock.1
  have hbq : block = 4 * q := by
    rw [hblock.2] at hq
    exact Option.some.inj hq
  refine S.load (i := i) (Or.inl ⟨rfl, hi⟩) hm htake (by simp) (fun j hj => ?_) hleaf rfl
    ((hnote i).1.trans hself) (fun j hj => ?_) (fun j hj => ?_) fun x => ?_
  · exact (hdata j hj).trans (S.disk i hi block hblock j hj)
  · rw [(hnote j).1, hother j hj]
  · rw [(hnote j).2, hother j hj]
  · show setBlocks c.kernel.psaTracker block false x = true ↔ _
    have hdisk : (c.proc.heapTracker i).onDisk (4 * (x / 4)) ↔ x / 4 = q := by
      simp only [HeapPage.onDisk, hblock.1, hblock.2, hbq, Option.some.injEq, true_and]
      omega
    rw [hdisk, setBlocks, hbq]
    by_cases hx : x / 4 = q
    · have hin : 4 * q ≤ x ∧ x < 4 * q + 4 := by omega
      simp [hin, hx]
    · have hout : ¬ (4 * q ≤ x ∧ x < 4 * q + 4) := by omega
      simp [hout, hx]

/-- A store to a page in memory. -/
theorem store (H : Heap b n t c.proc c.table) (S : Stored b n t c flat) {i j pa : ℕ} (hi : i < t) (hj : j < PGSIZE)
    (hleaf : c.table.leaf (b + i) = some (permW.pte pa)) (value : Byte) {c' : Cpu}
    (hc : c' = { c with kernel := { c.kernel with
      memory := c.kernel.memory.write pa
        (Function.update (c.kernel.memory.page pa) j value) } }) :
    Stored b n t c' (Function.update flat (PGSIZE * (b + i) + j) value) := by
  subst hc
  have hsame : ∀ i' j', j' < PGSIZE → PGSIZE * (b + i') + j' = PGSIZE * (b + i) + j →
      i' = i ∧ j' = j := by
    intro i' j' hj' h
    simp only [PGSIZE] at *
    omega
  have hkeep : ∀ i' j', i' ≠ i → j' < PGSIZE →
      Function.update flat (PGSIZE * (b + i) + j) value (PGSIZE * (b + i') + j') =
        flat (PGSIZE * (b + i') + j') := fun i' j' hne hj' =>
    Function.update_of_ne (fun h => hne (hsame i' j' hj' h).1) _ _
  refine ⟨S.frame_inj, S.frame_used, fun i' hi' pa' hleaf' j' hj' => ?_,
    fun i' h₁ h₂ j' hj' => ?_, fun i' hi' block hblock j' hj' => ?_, S.aligned, S.block_inj,
    S.marked⟩
  · show Function.update c.kernel.memory.page pa _ pa' j' = _
    by_cases hne : i' = i
    · subst hne
      have hpa : pa' = pa := by
        have h := Option.some.inj (hleaf'.symm.trans hleaf)
        exact congrArg Pte.pa h
      rw [hpa, Function.update_self]
      by_cases hjj : j' = j
      · rw [hjj, Function.update_self, Function.update_self]
      · rw [Function.update_of_ne hjj, Function.update_of_ne (by omega)]
        exact S.frame i' hi' pa hleaf j' hj'
    · have hpa : pa' ≠ pa := by
        rintro rfl
        exact hne (S.frame_inj i' hi' i hi pa' hleaf' hleaf)
      rw [Function.update_of_ne hpa, hkeep i' j' hne hj']
      exact S.frame i' hi' pa' hleaf' j' hj'
  · rw [hkeep i' j' (by omega) hj']
    exact S.zero i' h₁ h₂ j' hj'
  · by_cases hne : i' = i
    · -- a page in memory is not on disk
      subst hne
      have hun := (H.swapped i' hi' hblock.1).1
      rw [hleaf] at hun
      cases hun
    · rw [hkeep i' j' hne hj']
      exact S.disk i' hi' block hblock j' hj'

end Stored

/-- The process with `t` touched pages sees the flat memory, and has written to no
blocks but those in `written` and in the swap region. -/
structure Sees (b n t : ℕ) (written : List ℕ) (s : Session) (f : Flat) : Prop where
  heap : Heap b n t s.cpu.proc s.cpu.table
  stored : Stored b n t s.cpu f.byte
  seen : s.seen = f.seen
  written : ∀ block ∈ s.cpu.kernel.bwritten, block ∈ written ∨ SwapBlock block

section Step

variable {b n t i : ℕ} {c : Cpu} {flat : ℕ → Byte} {a : Access}

/-- An access to a page in memory gives what flat memory gives. -/
theorem attempt_resident (H : Heap b n t c.proc c.table) (S : Stored b n t c flat) (hi : i < t)
    (ha : a.pageAddr = PGSIZE * (b + i)) (hop : a.op ≠ .fetch) {pa : ℕ}
    (hleaf : c.table.leaf (b + i) = some (permW.pte pa)) (now : BitVec 32)
    (seen : List (Option Byte)) :
    ∃ value c', attempt a c = some (value, c') ∧
      (∃ flat', flatStep ⟨flat, seen⟩ ⟨a, now⟩ = ⟨flat', some value :: seen⟩ ∧
        Stored b n t c' flat') ∧
      c'.proc = c.proc ∧ c'.table = c.table ∧ c'.kernel.bwritten = c.kernel.bwritten := by
  have hle : b + i ≤ trapPage := by have := H.top; omega
  have htrans := translate_mapped ha hle hop hleaf
  have hva : a.va = PGSIZE * (b + i) + a.va % PGSIZE := by
    rw [← ha, Access.pageAddr, pgrounddown, Nat.mul_comm, Nat.div_add_mod]
  have hoff : a.va % PGSIZE < PGSIZE := Nat.mod_lt _ (by decide)
  unfold attempt flatStep
  rw [htrans]
  cases hop' : a.op with
  | load =>
    refine ⟨_, c, rfl, ⟨flat, ?_, S⟩, rfl, rfl, rfl⟩
    rw [S.frame i hi pa hleaf _ hoff, ← hva]
  | fetch => exact absurd hop' hop
  | store value =>
    refine ⟨value, _, rfl, ⟨_, rfl, ?_⟩, rfl, rfl, rfl⟩
    have hst := S.store H hi hoff hleaf value rfl
    rwa [← hva] at hst

theorem MadeRoom.written {c' : Cpu} (h : MadeRoom b t c c') (H : Heap b n t c.proc c.table)
    (S : Stored b n t c flat) :
    ∀ block ∈ c'.kernel.bwritten, block ∈ c.kernel.bwritten ∨ SwapBlock block := by
  cases h with
  | kept => exact fun block hin => Or.inl hin
  | evicted full =>
    obtain ⟨q, hq, hfree, -⟩ := S.freeBlock_eq H full
    intro block hin
    simp only [Cpu.roomMade, Cpu.evicted, writePage_eq, hfree, List.mem_append, List.mem_cons,
      List.not_mem_nil, or_false, PSASTART] at hin
    rcases hin with hin | hin
    · exact Or.inr ⟨by omega, by omega⟩
    · exact Or.inl hin

theorem Stored.atTime (S : Stored b n t c flat) (now : BitVec 32) :
    Stored b n t (c.atTime now) flat :=
  ⟨S.frame_inj, S.frame_used, S.frame, S.zero, S.disk, S.aligned, S.block_inj, S.marked⟩

/-- What a fault on a page leaves, for a page on disk and for the next page. -/
theorem pageFault_sees (H : Heap b n t c.proc c.table) (S : Stored b n t c flat) (hin : i < n)
    (hit : i ≤ t) (ha : a.pageAddr = PGSIZE * (b + i)) (hlt : b + i < trapPage)
    (hl : i < t → (c.proc.heapTracker i).loaded = true)
    (hm : c.kernel.memory.Supplies (faultPages c.proc c.table a.pageAddr)) :
    ∃ c' pa, pageFaultHandler a.trap c = .ok c' ∧
      Heap b n (max t (i + 1)) c'.proc c'.table ∧ Stored b n (max t (i + 1)) c' flat ∧
      c'.table.leaf (b + i) = some (permW.pte pa) ∧
      ∀ block ∈ c'.kernel.bwritten, block ∈ c.kernel.bwritten ∨ SwapBlock block := by
  rw [ha] at hm
  have hhandle : pageFaultHandler a.trap c = heapHandle (PGSIZE * (b + i)) i c :=
    H.handler_eq hin ha
  rw [hhandle]
  by_cases hlt' : i < t
  · obtain ⟨c₁, block, page, pa, taken, m, pt, hmade, H₁, hroom, hm₁, hblock, hrun, htake, hdata,
      hleaf, hwf⟩ := heapHandle_swapped H hlt' (hl hlt') hm
    have S₁ := S.makeRoom H hmade
    have hl₁ : (c₁.proc.heapTracker i).loaded = true := by
      rw [hmade.tracker (Or.inr (hl hlt'))]
      exact hl hlt'
    rw [Nat.max_eq_left hlt']
    exact ⟨_, pa, hrun, H₁.retrieved hlt' hl₁ hroom hleaf hwf,
      S₁.retrieved hlt' hm₁ ⟨hl₁, hblock⟩ htake hdata hleaf,
      by show pt.leaf _ = _; rw [hleaf, Function.update_self], hmade.written H S⟩
  · have hit' : i = t := by omega
    subst hit'
    obtain ⟨c₁, pa, taken, m, pt, hmade, H₁, hroom, hm₁, hrun, htake, hzero, hleaf, hwf⟩ :=
      heapHandle_untouched H le_rfl hin hlt hm
    have S₁ := S.makeRoom H hmade
    rw [Nat.max_eq_right (Nat.le_succ i)]
    exact ⟨_, pa, hrun, H₁.grown hin hlt hroom hleaf hwf,
      S₁.grown H₁ hin hm₁ htake hzero hleaf,
      by show pt.leaf _ = _; rw [hleaf, Function.update_self], hmade.written H S⟩

end Step

section Run

variable {b n t i : ℕ} {written : List ℕ} {s : Session} {f : Flat} {e : Instr} {es : List Instr}

theorem faults_atTime {a : Access} {c : Cpu} {now : BitVec 32} :
    Faults a (c.atTime now) ↔ Faults a c := by
  simp [Faults, attempt, Cpu.atTime]

/-- Every access below the trapframe returns and gives what flat memory gives. -/
theorem userStep_sees (h : Sees b n t written s f) (hfit : e.Fits s) (hin : i < n) (hit : i ≤ t)
    (ha : e.access.pageAddr = PGSIZE * (b + i)) (hbelow : e.access.va < TRAPFRAME) :
    ∃ s', userStep s e = .ok s' ∧ Sees b n (max t (i + 1)) written s' (flatStep f e) := by
  obtain ⟨H, S, hseen, hwritten⟩ := h
  obtain ⟨bytes, seen⟩ := f
  have hseen' : s.seen = seen := hseen
  have hlt : b + i < trapPage := by
    have hvpn := pageAddr_eq_iff.mp ha
    simp only [vpn, trapPage, TRAPFRAME, TRAMPOLINE, MAXVA, PGSIZE] at *
    omega
  have H' : Heap b n t (s.cpu.atTime e.now).proc (s.cpu.atTime e.now).table := H
  have S' := S.atTime e.now
  by_cases hres : i < t ∧ (s.cpu.proc.heapTracker i).loaded = false
  · obtain ⟨pa, hleaf⟩ := H'.resident i hres.1 hres.2
    obtain ⟨value, c', hatt, ⟨flat', hflat, S₂⟩, hp, ht, hw⟩ :=
      attempt_resident H' S' hres.1 ha hfit.op hleaf e.now seen
    refine ⟨⟨c', some value :: s.seen⟩, ?_, ?_⟩
    · rw [userStep, access, hatt]
      rfl
    · rw [show flatStep ⟨bytes, seen⟩ e = _ from hflat, Nat.max_eq_left hres.1]
      refine ⟨by rw [hp, ht]; exact H', S₂, by rw [hseen'], fun block hblock => ?_⟩
      rw [hw] at hblock
      exact hwritten block hblock
  · have hl : i < t → (s.cpu.proc.heapTracker i).loaded = true := by
      intro hlt'
      simpa using fun hfalse => hres ⟨hlt', hfalse⟩
    have hun : s.cpu.table.leaf (b + i) = none := by
      by_cases hlt' : i < t
      · exact (H.swapped i hlt' (hl hlt')).1
      · exact H.above i (by omega) hlt
    have hfault : Faults e.access s.cpu := by
      rw [Faults, attempt, translate_unmapped ha hun]
      rfl
    obtain ⟨c₁, pa, hrun, H₁, S₁, hleaf, hw₁⟩ :=
      pageFault_sees H' S' hin hit ha hlt hl (hfit.supplies hfault)
    obtain ⟨value, c', hatt, ⟨flat', hflat, S₂⟩, hp, ht, hw⟩ :=
      attempt_resident H₁ S₁ (by omega) ha hfit.op hleaf e.now seen
    refine ⟨⟨c', some value :: s.seen⟩, ?_, ?_⟩
    · rw [userStep, access, faults_atTime.mpr hfault, hrun]
      simp only [ok_bind, hatt]
      rfl
    · rw [show flatStep ⟨bytes, seen⟩ e = _ from hflat]
      refine ⟨by rw [hp, ht]; exact H₁, S₂, by rw [hseen'], fun block hblock => ?_⟩
      rw [hw] at hblock
      rcases hw₁ block hblock with hin' | hswap
      · exact hwritten block hin'
      · exact Or.inr hswap

theorem Sees.victimMapped (h : Sees b n t written s f) : VictimMapped s := by
  intro hfull
  obtain ⟨v, hv, hvict, hl⟩ := h.heap.victim hfull
  obtain ⟨pa, hleaf⟩ := h.heap.resident v hv hl
  refine ⟨v, hvict, ?_⟩
  rw [h.heap.tracked v (lt_of_lt_of_le hv h.heap.t_le), Mapped, vpn_mul, hleaf]
  rfl

/-- The access to the first page at the trapframe panics. -/
theorem userStep_trapframe (h : Sees b n t written s f) (hfit : e.Fits s) (hin : i < n)
    (hit : i ≤ t) (ha : e.access.pageAddr = PGSIZE * (b + i)) (hge : TRAPFRAME ≤ e.access.va) :
    ¬ Returns (userStep s e) := by
  have H := h.heap
  have hvpn := pageAddr_eq_iff.mp ha
  have htop := H.top
  have hat : b + i = trapPage ∧ i = t := by
    simp only [vpn, trapPage, TRAPFRAME, TRAMPOLINE, MAXVA, PGSIZE] at *
    omega
  obtain ⟨htrap, rfl⟩ := hat
  obtain ⟨fr, hfr, hu⟩ := H.trapframe
  have hfault : Faults e.access s.cpu := by
    have htrans : translate s.cpu.table e.access = none := by
      rw [translate, hvpn, htrap, hfr]
      simp [Op.permitted, hu]
    rw [Faults, attempt, htrans]
    rfl
  have hm := hfit.supplies hfault
  rw [ha] at hm
  have hpanic : heapHandle (PGSIZE * (b + i)) i (s.cpu.atTime e.now) = .error "mappages: remap" :=
    heapHandle_trapframe H le_rfl hin htrap hm
  have hhandle : pageFaultHandler e.access.trap (s.cpu.atTime e.now) = .error "mappages: remap" :=
    (H.handler_eq hin ha).trans hpanic
  rw [userStep, access, faults_atTime.mpr hfault, hhandle]
  exact not_returns_error _

theorem run_sees (hasc : Ascending b n t es) (h : Sees b n t written s f)
    (hfit : Guarded userStep (fun s e => e.Fits s) s es)
    (hbelow : ∀ e ∈ es, e.access.va < TRAPFRAME) :
    ∃ s' t', exec userStep s es = .ok s' ∧ Sees b n t' written s' (es.foldl flatStep f) ∧
      Guarded userStep (fun s _ => VictimMapped s) s es := by
  induction es generalizing s f t with
  | nil => exact ⟨s, t, rfl, h, trivial⟩
  | cons e es ih =>
    obtain ⟨i, hin, ha, hit, hasc⟩ := hasc
    obtain ⟨s₁, hs₁, h₁⟩ := userStep_sees h hfit.1 hin hit ha (hbelow e List.mem_cons_self)
    obtain ⟨s', t', hrun, h', hvict⟩ :=
      ih hasc h₁ (hfit.2 s₁ hs₁) fun e' he' => hbelow e' (List.mem_cons_of_mem _ he')
    refine ⟨s', t', by rw [exec_cons, hs₁, ok_bind, hrun], h', h.victimMapped, fun s₂ hs₂ => ?_⟩
    rw [hs₁] at hs₂
    cases hs₂
    exact hvict

/-- A run that returns stays below the trapframe. -/
theorem below_of_returns (hasc : Ascending b n t es) (h : Sees b n t written s f)
    (hfit : Guarded userStep (fun s e => e.Fits s) s es) (hrun : Returns (exec userStep s es)) :
    ∀ e ∈ es, e.access.va < TRAPFRAME := by
  induction es generalizing s f t with
  | nil => simp
  | cons e es ih =>
    obtain ⟨i, hin, ha, hit, hasc⟩ := hasc
    rw [exec_cons, returns_bind] at hrun
    obtain ⟨s₁, hs₁, hrun⟩ := hrun
    have hbelow : e.access.va < TRAPFRAME := by
      by_contra hge
      exact userStep_trapframe h hfit.1 hin hit ha (Nat.not_lt.mp hge) ⟨s₁, hs₁⟩
    obtain ⟨s₂, hs₂, h₂⟩ := userStep_sees h hfit.1 hin hit ha hbelow
    rw [hs₁] at hs₂
    cases hs₂
    intro e' he'
    rcases List.mem_cons.mp he' with rfl | he'
    · exact hbelow
    · exact ih hasc h₂ (hfit.2 s₁ hs₁) hrun e' he'

end Run

theorem sees_tracked {c c' : Cpu} (F : Fresh c.proc c.table)
    (hpsa : ∀ x, c.kernel.psaTracker x = false) {bytes : Int} {ok : Bool}
    (hgrow : growproc bytes c = .ok (ok, c')) :
    Sees (c.proc.sz / PGSIZE) (bytes.tdiv PGSIZE).toNat 0 c'.kernel.bwritten ⟨c', []⟩
      ⟨fun _ => 0, []⟩ := by
  obtain ⟨b, n, hb, hn, _, _, hkernel, H⟩ := F.growproc_heap hgrow
  have hb' : c.proc.sz / PGSIZE = b := by
    rw [hb]
    exact Nat.mul_div_cancel_left b (by decide)
  have hn' : (bytes.tdiv PGSIZE).toNat = n := by
    rw [hn]
    rfl
  rw [hb', hn']
  refine ⟨H, ⟨by simp, by simp, by simp, by simp, by simp, by simp, by simp, fun x => ?_⟩, rfl,
    fun block hblock => Or.inl hblock⟩
  simp [hkernel, hpsa x]

/-- A process alone with the region it has tracked sees flat memory in every run that
touches the pages in ascending order if and only if no access reaches the trapframe. -/
theorem swapping_transparent_iff {c c' : Cpu} (F : Fresh c.proc c.table)
    (hpsa : ∀ x, c.kernel.psaTracker x = false) {bytes : Int} {ok : Bool}
    (hgrow : growproc bytes c = .ok (ok, c')) {es : List Instr}
    (hasc : Ascending (c.proc.sz / PGSIZE) (bytes.tdiv PGSIZE).toNat 0 es)
    (hfit : Guarded userStep (fun s e => e.Fits s) ⟨c', []⟩ es) :
    SwapTransparent c' es ↔ ∀ e ∈ es, e.access.va < TRAPFRAME := by
  have h := sees_tracked F hpsa hgrow
  constructor
  · rintro ⟨s, hs, _⟩
    exact below_of_returns hasc h hfit ⟨s, hs⟩
  · intro hbelow
    obtain ⟨s, t, hs, h', hvict⟩ := run_sees hasc h hfit hbelow
    exact ⟨s, hs, h'.seen, hvict, h'.written⟩

theorem sample_run {stack : ℕ} (h : stack % 512 < 510) (htop : stack + 2 ≤ trapPage) :
    ∃ c', growproc (PGSIZE * (1 : ℕ)) ⟨sampleKernel 1, sampleProc stack, sampleTable stack⟩ =
        .ok (true, c') ∧
      Ascending (stack + 2) 1 0 [⟨sampleLoad (stack + 2), 0⟩] ∧
      Guarded userStep (fun s e => e.Fits s) ⟨c', []⟩ [⟨sampleLoad (stack + 2), 0⟩] := by
  obtain ⟨c', hc', htable, hkernel, H⟩ :=
    @sample_region stack h htop 1 (by decide) (by decide) (sampleKernel 1)
  refine ⟨c', hc', ⟨0, by decide, sampleLoad_pageAddr _, le_rfl, trivial⟩,
    ⟨by simp [sampleLoad], fun _ => ?_⟩, fun _ _ => trivial⟩
  have hpages := sample_faultPages (i := 0) h H (by decide)
  rw [htable, hkernel, sampleLoad_pageAddr, ← Nat.add_zero (stack + 2), hpages]
  exact sampleKernel_supplies 1

def threePages : List Instr :=
  [⟨⟨.store 7, PGSIZE * 2, fun _ => none, fun _ => 0, fun _ => 0⟩, 0⟩, ⟨sampleLoad 3, 1⟩,
    ⟨⟨.store 9, PGSIZE * 3 + 1, fun _ => none, fun _ => 0, fun _ => 0⟩, 1⟩, ⟨sampleLoad 4, 2⟩,
    ⟨sampleLoad 2, 2⟩]

theorem sample_swapping_transparent_iff :
    ∃ c', growproc (PGSIZE * (3 : ℕ)) ⟨sampleKernel 3, sampleProc 0, sampleTable 0⟩ =
        .ok (true, c') ∧
      (SwapTransparent c' threePages ↔ ∀ e ∈ threePages, e.access.va < TRAPFRAME) := by
  obtain ⟨c', hc', -⟩ := @sample_region 0 (by decide) (by decide) 3 (by decide) (by decide)
    (sampleKernel 3)
  have hfits : (growproc (PGSIZE * (3 : ℕ)) ⟨sampleKernel 3, sampleProc 0, sampleTable 0⟩).toOption.map
      (fun r => decide (Guarded userStep (fun s e => e.Fits s) ⟨r.2, []⟩ threePages)) =
        some true := by
    decide +kernel
  rw [hc'] at hfits
  have hasc : Ascending 2 3 0 threePages :=
    ⟨0, by decide, by decide, by decide, 1, by decide, by decide, by decide, 1, by decide,
      by decide, by decide, 2, by decide, by decide, by decide, 0, by decide, by decide, by decide,
      trivial⟩
  exact ⟨c', hc', swapping_transparent_iff (sampleProc_fresh (by decide) (by decide))
    (fun _ => rfl) hc' hasc (of_decide_eq_true (Option.some.inj hfits))⟩

/-- A process that ends at the trapframe tracks a page there, and loads from it. -/
theorem heap_at_trapframe_panics :
    ∃ c', growproc (PGSIZE * (1 : ℕ))
        ⟨sampleKernel 1, sampleProc (trapPage - 2), sampleTable (trapPage - 2)⟩ = .ok (true, c') ∧
      Ascending trapPage 1 0 [⟨sampleLoad trapPage, 0⟩] ∧
      Guarded userStep (fun s e => e.Fits s) ⟨c', []⟩ [⟨sampleLoad trapPage, 0⟩] ∧
      ¬ SwapTransparent c' [⟨sampleLoad trapPage, 0⟩] := by
  obtain ⟨c', hc', hasc, hfit⟩ := @sample_run (trapPage - 2) (by decide) (by decide)
  refine ⟨c', hc', hasc, hfit, fun ⟨s, hs, _⟩ => ?_⟩
  have hsees := sees_tracked (sampleProc_fresh (by decide) (by decide)) (fun _ => rfl) hc'
  have hbelow := below_of_returns hasc hsees hfit ⟨s, hs⟩ _ (List.mem_singleton_self _)
  exact absurd hbelow (by decide)

end AdvancedOperatingSystems.DemandPaging
