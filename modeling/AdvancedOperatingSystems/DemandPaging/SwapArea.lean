import AdvancedOperatingSystems.DemandPaging.Exclusive
import AdvancedOperatingSystems.DemandPaging.HeapAccount
import AdvancedOperatingSystems.DemandPaging.Swapping
import AdvancedOperatingSystems.Foundations.Blocks

/-!
# The page save area

`psa_tracker` marks blocks and does not say whose they are. The processes hold disjoint blocks
of the area, and all of them marked, as long as no `exit` clears the marks of others and every
eviction finds a block.
-/

namespace AdvancedOperatingSystems.DemandPaging

open Foundations Riscv Riscv.PageTable

def HeapPage.block (e : HeapPage) : Option ℕ := if e.loaded = true then e.startblock else none

/-- The blocks of the live processes, by process and tracker entry, if process `i` had this
tracker. -/
def System.held (s : System) (i : ℕ) (tracker : ℕ → HeapPage) (x : ℕ × ℕ) : Option ℕ :=
  if (s.proc x.1).state = .live ∧ x.2 < MAXHEAP then
    (if x.1 = i then tracker x.2 else (s.proc x.1).heapTracker x.2).block
  else none

def System.holds (s : System) (x : ℕ × ℕ) : Option ℕ :=
  if (s.proc x.1).state = .live ∧ x.2 < MAXHEAP then ((s.proc x.1).heapTracker x.2).block else none

/-- The swapped-out pages of the live processes have disjoint blocks, and all their blocks are
marked. -/
structure System.SwapOwned (s : System) : Prop where
  disjoint : ∀ x y b b', s.holds x = some b → s.holds y = some b' → x ≠ y → b + 4 ≤ b' ∨ b' + 4 ≤ b
  marked : ∀ x b, s.holds x = some b → ∀ d < 4, s.kernel.psaTracker (b + d) = true

/-- The fault of the access makes room for a heap page. -/
def FaultEvicts (s : System) (i : ℕ) (a : Access) : Prop :=
  ∃ c, s.cpu i = some c ∧ attempt a c = none ∧
    (pageIndex c.proc.heapTracker a.pageAddr).isSome ∧ Crowded c

/-- An eviction finds a free block, or nobody holds the one it takes by default. An `exit` is that
of the only process with pages on disk. A `fork` takes a slot whose tracker has no page on disk. -/
def Event.SwapSafe (s : System) (i : ℕ) : Event → Prop
  | .access a => FaultEvicts s i a →
      (∃ b < PSASIZE - PSASTART, s.kernel.psaTracker b = false) ∨ ∀ x, s.holds x ≠ some 0
  | .exit _ => ∀ x, x.1 ≠ i → s.holds x = none
  | .fork _ => ∀ n, s.freeSlot = some n → ∀ k < MAXHEAP, ((s.proc n).heapTracker k).block = none
  | _ => True

structure System.SwapFresh (s : System) : Prop where
  holds : ∀ x, s.holds x = none
  unmarked : ∀ b < PSASIZE, s.kernel.psaTracker b = false

abbrev SwapArea (own : ℕ × ℕ → Option ℕ) (psaTracker : ℕ → Bool) : Prop :=
  Blocks 4 PSASIZE own psaTracker

section Held

variable {s : System} {i k v b : ℕ} {x : ℕ × ℕ} {tracker tracker' : ℕ → HeapPage} {c : Cpu}

theorem held_self : s.held i (s.proc i).heapTracker = s.holds := by
  funext x
  unfold System.held System.holds
  by_cases hx : x.1 = i
  · rw [if_pos hx, ← hx]
  · rw [if_neg hx]

theorem held_swapOut (hlive : (s.proc i).state = .live) (hv : v < MAXHEAP) :
    s.held i (swapOut tracker v b) = Function.update (s.held i tracker) (i, v) (some b) := by
  funext x
  obtain ⟨j, k⟩ := x
  by_cases hx : (j, k) = (i, v)
  · rw [hx, Function.update_self]
    simp [System.held, hlive, hv, swapOut, HeapPage.block]
  · rw [Function.update_of_ne hx]
    unfold System.held
    by_cases hj : j = i
    · subst hj
      have hk : k ≠ v := fun h => hx (by rw [h])
      simp [swapOut, hk]
    · simp only [hj, ↓reduceIte]

theorem held_congr (h : ∀ k < MAXHEAP, (tracker' k).block = (tracker k).block) :
    s.held i tracker' = s.held i tracker := by
  funext x
  unfold System.held
  split_ifs with hlive hx
  · exact h x.2 hlive.2
  · rfl
  · rfl

theorem held_mono (h : ∀ k < MAXHEAP, ∀ b, (tracker' k).block = some b → (tracker k).block = some b)
    (hx : s.held i tracker' x = some b) : s.held i tracker x = some b := by
  unfold System.held at hx ⊢
  split_ifs at hx ⊢ with hlive hi
  · exact h x.2 hlive.2 b hx
  · exact hx

theorem held_entry (hlive : (s.proc i).state = .live) (hk : k < MAXHEAP) :
    s.held i tracker (i, k) = (tracker k).block := by
  unfold System.held
  rw [if_pos ⟨hlive, hk⟩, if_pos rfl]

end Held

section Handler

variable {s : System} {i : ℕ} {c c' : Cpu} {t : Trap} {a : Access}

theorem freeBlock_of_none {psa : ℕ → Bool} (h : ∀ b < PSASIZE - PSASTART, psa b = true) :
    freeBlock psa = 0 := by
  have hnone : (List.range (PSASIZE - PSASTART)).find? (fun i => !psa i) = none := by
    rw [List.find?_eq_none]
    intro b hb
    simp [h b (List.mem_range.mp hb)]
  unfold freeBlock
  rw [hnone]
  rfl

theorem evictPageToDisk_swaps (h : evictPageToDisk c = .ok c') : ∃ v < MAXHEAP,
    (c.proc.heapTracker v).loaded = false ∧
    c'.proc.heapTracker = swapOut c.proc.heapTracker v (freeBlock c.kernel.psaTracker) ∧
    c'.kernel.psaTracker = setBlocks c.kernel.psaTracker (freeBlock c.kernel.psaTracker) true := by
  unfold evictPageToDisk at h
  cases hv : victimPageIndex c.proc.heapTracker with
  | none =>
    simp only [hv] at h
    cases h
  | some v =>
    obtain ⟨hlt, hloaded, -⟩ := victimPageIndex_iff.mp hv
    simp only [hv] at h
    cases hk : c.kernel.memory.kalloc with
    | none =>
      simp only [hk] at h
      cases h
    | some q =>
      simp only [hk] at h
      obtain ⟨space, -, h⟩ := bind_ok_iff.mp h
      cases h
      refine ⟨v, hlt, hloaded, rfl, ?_⟩
      simp [Cpu.setSpace, writePage_eq]

/-- An eviction takes a block that nobody holds. -/
theorem evictPageToDisk_area (hlive : (s.proc i).state = .live)
    (A : SwapArea (s.held i c.proc.heapTracker) c.kernel.psaTracker)
    (hfree : (∃ b < PSASIZE - PSASTART, c.kernel.psaTracker b = false) ∨
      ∀ x, s.held i c.proc.heapTracker x ≠ some 0)
    (h : evictPageToDisk c = .ok c') :
    SwapArea (s.held i c'.proc.heapTracker) c'.kernel.psaTracker := by
  obtain ⟨v, hv, hloaded, htracker, hpsa⟩ := evictPageToDisk_swaps h
  rw [htracker, hpsa, held_swapOut hlive hv]
  have hblock : freeBlock c.kernel.psaTracker % 4 = 0 ∧
      ∀ x, s.held i c.proc.heapTracker x ≠ some (freeBlock c.kernel.psaTracker) := by
    by_cases hfound : ∃ b < PSASIZE - PSASTART, c.kernel.psaTracker b = false
    · obtain ⟨b, hb, hclear⟩ := hfound
      obtain ⟨hle, hfirst, hbefore⟩ := freeBlock_spec hb hclear
      have hlt : freeBlock c.kernel.psaTracker < PSASIZE := by
        simp only [PSASIZE, PSASTART] at *
        omega
      exact ⟨A.first_aligned hlt hfirst hbefore, A.unowned (by decide) hfirst⟩
    · have hall : ∀ b < PSASIZE - PSASTART, c.kernel.psaTracker b = true := by
        intro b hb
        by_contra hclear
        exact hfound ⟨b, hb, by simpa using hclear⟩
      rw [freeBlock_of_none hall]
      exact ⟨rfl, hfree.resolve_left hfound⟩
  exact A.claim (by decide) hblock.1 fun y _ => hblock.2 y

theorem makeRoom_area (hlive : (s.proc i).state = .live)
    (A : SwapArea (s.held i c.proc.heapTracker) c.kernel.psaTracker)
    (hfree : Crowded c → (∃ b < PSASIZE - PSASTART, c.kernel.psaTracker b = false) ∨
      ∀ x, s.held i c.proc.heapTracker x ≠ some 0)
    (h : makeRoom c = .ok c') :
    SwapArea (s.held i c'.proc.heapTracker) c'.kernel.psaTracker := by
  unfold makeRoom at h
  split_ifs at h with hfull
  · obtain ⟨c₁, hevict, h⟩ := bind_ok_iff.mp h
    cases h
    have A₁ := evictPageToDisk_area hlive A (hfree hfull) hevict
    exact A₁
  · cases h
    exact A

theorem retrieveSteps_found {uvaddr b : ℕ} (is : List ℕ) (r : Option ℕ × (ℕ → HeapPage))
    (h : (is.foldl (retrieveStep uvaddr) r).1 = some b) :
    r.1 = some b ∨ ∃ k ∈ is, (r.2 k).addr = uvaddr ∧ (r.2 k).block = some b := by
  induction is generalizing r with
  | nil => exact Or.inl h
  | cons j is ih =>
    rw [List.foldl_cons] at h
    have hrest := ih _ h
    unfold retrieveStep at hrest
    by_cases hj : (r.2 j).addr = uvaddr ∧ (r.2 j).loaded = true
    · rw [if_pos hj] at hrest
      right
      rcases hrest with hstart | ⟨k, hk, haddr, hblock⟩
      · refine ⟨j, List.mem_cons_self, hj.1, ?_⟩
        rw [HeapPage.block, if_pos hj.2]
        exact hstart
      · by_cases hkj : k = j
        · subst hkj
          simp [HeapPage.block] at hblock
        · simp only [Function.update_of_ne hkj] at haddr hblock
          exact ⟨k, List.mem_cons_of_mem j hk, haddr, hblock⟩
    · rw [if_neg hj] at hrest
      rcases hrest with hstart | ⟨k, hk, haddr, hblock⟩
      · exact Or.inl hstart
      · exact Or.inr ⟨k, List.mem_cons_of_mem j hk, haddr, hblock⟩

theorem retrieveScan_found {uvaddr b : ℕ} {tracker : ℕ → HeapPage}
    (h : (retrieveScan uvaddr tracker).1 = some b) :
    ∃ k < MAXHEAP, (tracker k).addr = uvaddr ∧ (tracker k).block = some b := by
  obtain ⟨is, hmem, hloop⟩ := retrieveScan_loop uvaddr tracker
  rw [hloop] at h
  rcases retrieveSteps_found is _ h with hnone | ⟨k, hk, haddr, hblock⟩
  · cases hnone
  · exact ⟨k, (hmem k).mp hk, haddr, hblock⟩

theorem retrieveScan_block {uvaddr b k : ℕ} {tracker : ℕ → HeapPage} (hk : k < MAXHEAP)
    (h : ((retrieveScan uvaddr tracker).2 k).block = some b) :
    (tracker k).addr ≠ uvaddr ∧ (tracker k).block = some b := by
  rw [retrieveScan_tracker] at h
  split_ifs at h with hcond
  · simp [HeapPage.block] at h
  · exact ⟨fun haddr => hcond ⟨hk, haddr⟩, h⟩

theorem retrieveBlock_psa {uvaddr block : ℕ} (h : retrieveBlock uvaddr block c = .ok c') :
    c'.kernel.psaTracker = setBlocks c.kernel.psaTracker block false := by
  unfold retrieveBlock at h
  cases hk : c.kernel.memory.kalloc with
  | none =>
    simp only [hk] at h
    cases h
  | some q =>
    simp only [hk] at h
    obtain ⟨r, -, h⟩ := bind_ok_iff.mp h
    cases h
    rfl

/-- A retrieval gives the block of the page back. -/
theorem retrievePageFromDisk_area {uvaddr : ℕ} (hlive : (s.proc i).state = .live)
    (A : SwapArea (s.held i c.proc.heapTracker) c.kernel.psaTracker)
    (h : retrievePageFromDisk uvaddr c = .ok c') :
    SwapArea (s.held i c'.proc.heapTracker) c'.kernel.psaTracker := by
  have hblock := fun k hk b => @retrieveScan_block uvaddr b k c.proc.heapTracker hk
  have hfound := fun b => @retrieveScan_found uvaddr b c.proc.heapTracker
  rw [retrievePageFromDisk] at h
  generalize retrieveScan uvaddr c.proc.heapTracker = scan at h hblock hfound
  obtain ⟨found, tracker⟩ := scan
  cases found with
  | none =>
    cases h
    exact A.mono fun x b hx => held_mono (fun k hk b hb => (hblock k hk b hb).2) hx
  | some block =>
    rw [retrieveBlock_proc h, retrieveBlock_psa h]
    obtain ⟨k, hk, haddr, hkblock⟩ := hfound block rfl
    have hown : s.held i c.proc.heapTracker (i, k) = some block :=
      (held_entry hlive hk).trans hkblock
    refine A.release (by decide) (A.aligned _ _ hown) fun x b hx => ?_
    have hx' : s.held i c.proc.heapTracker x = some b :=
      held_mono (fun k hk b hb => (hblock k hk b hb).2) hx
    refine ⟨hx', ?_⟩
    rintro rfl
    -- the owner of the block is the entry that has been cleared
    obtain rfl := A.apart x (i, k) b hx' hown
    have hcleared : (tracker k).block = some b := (held_entry hlive hk).symm.trans hx
    exact (hblock k hk b hcleared).1 haddr

theorem noteLoad_area {addr : ℕ} (A : SwapArea (s.held i c.proc.heapTracker) c.kernel.psaTracker) :
    SwapArea (s.held i (noteLoad addr c).proc.heapTracker) (noteLoad addr c).kernel.psaTracker := by
  have hsame : s.held i (noteLoad addr c).proc.heapTracker = s.held i c.proc.heapTracker := by
    apply held_congr
    intro k _
    rw [noteLoad_entry]
    split_ifs <;> rfl
  rw [hsame]
  exact A

theorem growHeap_swaps (h : growHeap c = .ok c') :
    c'.proc.heapTracker = c.proc.heapTracker ∧ c'.kernel.psaTracker = c.kernel.psaTracker := by
  obtain ⟨⟨sz, space⟩, -, h⟩ := bind_ok_iff.mp h
  cases h
  exact ⟨rfl, rfl⟩

theorem heapHandle_area {addr k : ℕ} (hlive : (s.proc i).state = .live)
    (A : SwapArea (s.held i c.proc.heapTracker) c.kernel.psaTracker)
    (hfree : Crowded c → (∃ b < PSASIZE - PSASTART, c.kernel.psaTracker b = false) ∨
      ∀ x, s.held i c.proc.heapTracker x ≠ some 0)
    (h : heapHandle addr k c = .ok c') :
    SwapArea (s.held i c'.proc.heapTracker) c'.kernel.psaTracker := by
  obtain ⟨c₁, hroom, h⟩ := bind_ok_iff.mp h
  have A₁ := makeRoom_area hlive A hfree hroom
  simp only at h
  split_ifs at h
  · obtain ⟨c₂, hfetch, h⟩ := bind_ok_iff.mp h
    cases h
    exact noteLoad_area (retrievePageFromDisk_area hlive A₁ hfetch)
  · obtain ⟨c₂, hfetch, h⟩ := bind_ok_iff.mp h
    cases h
    obtain ⟨htracker, hpsa⟩ := growHeap_swaps hfetch
    rw [← htracker, ← hpsa] at A₁
    exact noteLoad_area A₁

theorem pageFaultHandler_area (hlive : (s.proc i).state = .live)
    (A : SwapArea (s.held i c.proc.heapTracker) c.kernel.psaTracker)
    (hfree : (pageIndex c.proc.heapTracker t.alignedAddr).isSome → Crowded c →
      (∃ b < PSASIZE - PSASTART, c.kernel.psaTracker b = false) ∨
        ∀ x, s.held i c.proc.heapTracker x ≠ some 0)
    (h : pageFaultHandler t c = .ok c') :
    SwapArea (s.held i c'.proc.heapTracker) c'.kernel.psaTracker := by
  unfold pageFaultHandler at h
  cases hk : pageIndex c.proc.heapTracker t.alignedAddr with
  | some k =>
    simp only [hk] at h
    exact heapHandle_area hlive A (hfree (by rw [hk]; rfl)) h
  | none =>
    simp only [hk] at h
    obtain ⟨cow, -, h⟩ := bind_ok_iff.mp h
    cases cow with
    | true =>
      obtain ⟨space, rfl⟩ := copyOnWrite_space h
      exact A
    | false =>
      obtain ⟨space, rfl⟩ := loadFromFile_space h
      exact A

theorem access_area {value : Option Byte} (hlive : (s.proc i).state = .live)
    (A : SwapArea (s.held i c.proc.heapTracker) c.kernel.psaTracker)
    (hfree : attempt a c = none → (pageIndex c.proc.heapTracker a.pageAddr).isSome → Crowded c →
      (∃ b < PSASIZE - PSASTART, c.kernel.psaTracker b = false) ∨
        ∀ x, s.held i c.proc.heapTracker x ≠ some 0)
    (h : access a c = .ok (value, c')) :
    SwapArea (s.held i c'.proc.heapTracker) c'.kernel.psaTracker := by
  obtain ⟨c₁, hfirst, hlast⟩ := access_cases h
  have A₁ : SwapArea (s.held i c₁.proc.heapTracker) c₁.kernel.psaTracker := by
    rcases hfirst with rfl | ⟨hfault, hhandle⟩
    · exact A
    · apply pageFaultHandler_area hlive A _ hhandle
      rw [trap_alignedAddr]
      exact hfree hfault
  rcases hlast with rfl | ⟨value, hattempt⟩
  · exact A₁
  · rcases attempt_cases hattempt with rfl | ⟨e, data, -, -, rfl⟩
    · exact A₁
    · exact A₁

end Handler

section Step

variable {s t : System} {i n : ℕ} {c c' : Cpu} {e : ℕ × Event} {es : List (ℕ × Event)}

theorem holds_mono (h : ∀ j, (t.proc j).state = .live →
      (s.proc j).state = .live ∧ ∀ k < MAXHEAP, ∀ b,
        ((t.proc j).heapTracker k).block = some b → ((s.proc j).heapTracker k).block = some b)
    (x : ℕ × ℕ) (b : ℕ) (hx : t.holds x = some b) : s.holds x = some b := by
  unfold System.holds at hx ⊢
  split_ifs at hx with hcond
  obtain ⟨hlive, hblock⟩ := h x.1 hcond.1
  rw [if_pos ⟨hlive, hcond.2⟩]
  exact hblock x.2 hcond.2 b hx

theorem setCpu_holds {x : ℕ × ℕ} {b : ℕ} (hlive : (s.proc i).state = .live)
    (hx : (s.setCpu i c').holds x = some b) : s.held i c'.proc.heapTracker x = some b := by
  unfold System.holds System.setCpu at hx
  unfold System.held
  by_cases hxi : x.1 = i
  · simp only [hxi, Function.update_self] at hx
    split_ifs at hx with hcond
    rw [if_pos ⟨hxi ▸ hlive, hcond.2⟩, if_pos hxi]
    exact hx
  · simp only [Function.update_of_ne hxi] at hx
    simp only [hxi, ↓reduceIte]
    exact hx

theorem cpu_area (A : SwapArea s.holds s.kernel.psaTracker) (hc : s.cpu i = some c) :
    SwapArea (s.held i c.proc.heapTracker) c.kernel.psaTracker := by
  obtain ⟨hkernel, hproc, -⟩ := cpu_some hc
  rw [hkernel, hproc, held_self]
  exact A

theorem trackHeapLoop_entry {start : ℕ} {is : List ℕ} {npages : Int}
    {tracker tracker' : ℕ → HeapPage}
    (h : trackHeapLoop start is npages tracker = .ok tracker') (k b : ℕ)
    (hb : (tracker' k).block = some b) : (tracker k).block = some b := by
  induction is generalizing npages tracker with
  | nil => cases h
  | cons j is ih =>
    have hkept : ∀ entry : HeapPage, entry.loaded = false →
        (Function.update tracker j entry k).block = some b → (tracker k).block = some b := by
      intro entry hloaded hentry
      by_cases hk : k = j
      · rw [hk, Function.update_self, HeapPage.block, hloaded] at hentry
        cases hentry
      · rw [Function.update_of_ne hk] at hentry
        exact hentry
    unfold trackHeapLoop at h
    simp only at h
    split_ifs at h
    · cases h
      exact hkept _ rfl hb
    · exact hkept _ rfl (ih h)
    · exact ih h

/-- The blocks and the marks after a `sbrk`. -/
theorem growproc_area {bytes : Int} {ok : Bool}
    (A : SwapArea (s.held i c.proc.heapTracker) c.kernel.psaTracker)
    (h : growproc bytes c = .ok (ok, c')) :
    SwapArea (s.held i c'.proc.heapTracker) c'.kernel.psaTracker := by
  unfold growproc at h
  split_ifs at h
  · simp only at h
    split_ifs at h
    · obtain ⟨⟨sz, space⟩, -, h⟩ := bind_ok_iff.mp h
      simp only at h
      split_ifs at h
      · cases h
        exact A
      · cases h
        exact A
    · obtain ⟨⟨sz, space⟩, -, h⟩ := bind_ok_iff.mp h
      cases h
      exact A
    · cases h
      exact A
  · obtain ⟨tracker, htrack, h⟩ := bind_ok_iff.mp h
    cases h
    exact A.mono fun x b hx => held_mono (fun k _ b hb => trackHeapLoop_entry htrack k b hb) hx

/-- An `exec` leaves the trackers as they are, or it clears that of the process. -/
theorem exec_area {path : Path} {argv : List (List Byte)} {namei : Path → Option File}
    {argc : Option ℕ} {k : Kernel} {p p' : Proc} {k' : Kernel}
    (h : p.exec path argv namei k = .ok (argc, k', p')) :
    k'.psaTracker = k.psaTracker ∧ ∀ j b, (p'.heapTracker j).block = some b →
      (p.heapTracker j).block = some b := by
  have hsame : ∀ j b, (p.heapTracker j).block = some b → (p.heapTracker j).block = some b :=
    fun _ _ hb => hb
  unfold Proc.exec at h
  cases hf : namei path with
  | none =>
    simp only [hf] at h
    cases h
    exact ⟨rfl, hsame⟩
  | some f =>
    simp only [hf] at h
    split_ifs at h
    · cases h
      exact ⟨rfl, hsame⟩
    · cases h
      exact ⟨rfl, hsame⟩
    · obtain ⟨⟨result, m₁⟩, -, h⟩ := bind_ok_iff.mp h
      cases result with
      | none =>
        cases h
        exact ⟨rfl, hsame⟩
      | some pg =>
        obtain ⟨⟨argc', sz, m₂, pt⟩, -, h⟩ := bind_ok_iff.mp h
        cases argc' with
        | none =>
          obtain ⟨m₃, -, h⟩ := bind_ok_iff.mp h
          cases h
          exact ⟨rfl, hsame⟩
        | some n =>
          cases hold : p.pagetable with
          | none =>
            simp only [hold] at h
            cases h
          | some old =>
            simp only [hold] at h
            obtain ⟨m₃, -, h⟩ := bind_ok_iff.mp h
            cases h
            refine ⟨rfl, fun j b hb => ?_⟩
            simp [HeapPage.block] at hb

/-- The trackers and the marks are those of before, and no other process is live. -/
structure Untouched (s t : System) (child : ℕ → Prop) : Prop where
  psa : t.kernel.psaTracker = s.kernel.psaTracker
  tracker : ∀ j, (t.proc j).heapTracker = (s.proc j).heapTracker
  live : ∀ j, (t.proc j).state = .live → (s.proc j).state = .live ∨ child j

theorem Untouched.area {child : ℕ → Prop} (U : Untouched s t child)
    (A : SwapArea s.holds s.kernel.psaTracker)
    (hchild : ∀ j, child j → ∀ k < MAXHEAP, ((s.proc j).heapTracker k).block = none) :
    SwapArea t.holds t.kernel.psaTracker := by
  rw [U.psa]
  refine A.mono fun x b hx => ?_
  unfold System.holds at hx ⊢
  split_ifs at hx with hcond
  rw [U.tracker] at hx
  rcases U.live x.1 hcond.1 with hlive | hnew
  · rw [if_pos ⟨hlive, hcond.2⟩]
    exact hx
  · rw [hchild x.1 hnew x.2 hcond.2] at hx
    cases hx

theorem Untouched.setProc {child : ℕ → Prop} {p : Proc} (U : Untouched s t child)
    (htracker : p.heapTracker = (s.proc n).heapTracker)
    (hlive : p.state = .live → (s.proc n).state = .live ∨ child n) :
    Untouched s (t.setProc n p) child where
  psa := U.psa
  tracker := by
    intro j
    by_cases hj : j = n
    · subst hj
      simp only [System.setProc, Function.update_self]
      exact htracker
    · simp only [System.setProc, Function.update_of_ne hj]
      exact U.tracker j
  live := by
    intro j
    by_cases hj : j = n
    · subst hj
      simp only [System.setProc, Function.update_self]
      exact hlive
    · simp only [System.setProc, Function.update_of_ne hj]
      exact U.live j

theorem freeproc_tracker {r : Running} {p p' : Proc} {m m' : Memory}
    (h : freeproc r p m = .ok (p', m')) : p'.heapTracker = p.heapTracker ∧ p'.state = .unused := by
  refine ⟨?_, freeproc_unused h⟩
  obtain ⟨m₁, -, h⟩ := bind_ok_iff.mp h
  obtain ⟨m₂, -, h⟩ := bind_ok_iff.mp h
  cases h
  rfl

theorem allocproc_untouched {r : Running} {result : Option (ℕ × Proc × Pagetable)} {s₁ : System}
    (h : s.allocproc r = .ok (result, s₁)) : Untouched s s₁ (fun _ => False) ∧
      ∀ n np pg, result = some (n, np, pg) → s.freeSlot = some n ∧
        np.heapTracker = (s.proc n).heapTracker := by
  have hself : Untouched s ({ s with nextpid := s.nextpid + 1 } : System) (fun _ => False) :=
    ⟨rfl, fun _ => rfl, fun _ hlive => Or.inl hlive⟩
  have hmemory : ∀ m, Untouched s (({ s with nextpid := s.nextpid + 1 } : System).setMemory m)
      (fun _ => False) := fun m => ⟨hself.psa, hself.tracker, hself.live⟩
  unfold System.allocproc at h
  cases hslot : s.freeSlot with
  | none =>
    simp only [hslot] at h
    cases h
    exact ⟨⟨rfl, fun _ => rfl, fun _ hlive => Or.inl hlive⟩, fun n np pg h => by cases h⟩
  | some n =>
    simp only [hslot] at h
    have hfreed : ∀ {p p' : Proc} {m m' : Memory}, freeproc r p m = .ok (p', m') →
        p.heapTracker = (s.proc n).heapTracker →
        Untouched s ((({ s with nextpid := s.nextpid + 1 } : System).setMemory m').setProc n p')
          (fun _ => False) := by
      intro p p' m m' hfree hp
      obtain ⟨htracker, hunused⟩ := freeproc_tracker hfree
      refine (hmemory m').setProc (htracker.trans hp) fun hlive => ?_
      rw [hunused] at hlive
      cases hlive
    cases hk : s.kernel.memory.kalloc with
    | none =>
      simp only [hk] at h
      obtain ⟨⟨np, m⟩, hfree, h⟩ := bind_ok_iff.mp h
      cases h
      exact ⟨hfreed hfree rfl, fun n np pg h => by cases h⟩
    | some q =>
      obtain ⟨trapframe, m₀⟩ := q
      simp only [hk] at h
      obtain ⟨⟨pg, m⟩, -, h⟩ := bind_ok_iff.mp h
      cases pg with
      | none =>
        simp only at h
        obtain ⟨⟨np, m'⟩, hfree, h⟩ := bind_ok_iff.mp h
        cases h
        exact ⟨hfreed hfree rfl, fun n np pg h => by cases h⟩
      | some pg =>
        cases h
        refine ⟨(hmemory m).setProc rfl (fun hlive => by cases hlive), fun n' np pg' h => ?_⟩
        cases h
        exact ⟨rfl, rfl⟩

theorem Untouched.weaken {child child' : ℕ → Prop} (U : Untouched s t child)
    (h : ∀ j, child j → child' j) : Untouched s t child' :=
  ⟨U.psa, U.tracker, fun j hlive => (U.live j hlive).imp_right (h j)⟩

/-- A `fork` leaves the trackers as they are; the child gets that of its slot. -/
theorem fork_untouched {cow : Bool} (h : s.fork i cow = .ok t) :
    Untouched s t fun j => s.freeSlot = some j := by
  unfold System.fork at h
  cases hparent : (s.proc i).pagetable with
  | none =>
    simp only [hparent] at h
    cases h
  | some parent =>
    simp only [hparent] at h
    obtain ⟨⟨result, s₁⟩, halloc, h⟩ := bind_ok_iff.mp h
    obtain ⟨U₀, hchild⟩ := allocproc_untouched halloc
    have U := U₀.weaken (fun j hj => hj.elim : ∀ j, False → s.freeSlot = some j)
    rcases result with _ | ⟨n, np, pg⟩
    · cases h
      exact U
    · obtain ⟨hslot, htracker⟩ := hchild n np pg rfl
      have hfreed : ∀ {s₂ : System} {r : Running} {p p' : Proc} {m m' : Memory},
          Untouched s s₂ (fun j => s.freeSlot = some j) → freeproc r p m = .ok (p', m') →
          p.heapTracker = np.heapTracker →
          Untouched s (s₂.setProc n p') fun j => s.freeSlot = some j := by
        intro s₂ r p p' m m' U₂ hfree hp
        exact U₂.setProc ((freeproc_tracker hfree).1.trans (hp.trans htracker))
          fun _ => Or.inr hslot
      simp only at h
      cases cow with
      | true =>
        have hjoin :
            (joinGroup (s₁.proc i) s₁.kernel.groups).1.heapTracker = (s.proc i).heapTracker ∧
            (joinGroup (s₁.proc i) s₁.kernel.groups).1.state = (s₁.proc i).state := by
          rw [← U₀.tracker i]
          unfold joinGroup
          split_ifs <;> exact ⟨rfl, rfl⟩
        have hparent' : ∀ (pg : Option Pagetable) (s₂ : System), Untouched s s₂
            (fun j => s.freeSlot = some j) → Untouched s (s₂.setProc i
            { (joinGroup (s₁.proc i) s₁.kernel.groups).1 with pagetable := pg })
            fun j => s.freeSlot = some j := by
          intro pg s₂ U₂
          refine U₂.setProc hjoin.1 fun hlive => ?_
          change (joinGroup (s₁.proc i) s₁.kernel.groups).1.state = .live at hlive
          rw [hjoin.2] at hlive
          exact U.live i hlive
        simp only [↓reduceIte] at h
        unfold System.forkCow at h
        obtain ⟨⟨ok, copy⟩, -, h⟩ := bind_ok_iff.mp h
        have U₂ : ∀ m groups, Untouched s ((s₁.setMemory m).setGroups groups)
            fun j => s.freeSlot = some j := fun _ _ => ⟨U.psa, U.tracker, U.live⟩
        cases ok with
        | false =>
          simp only [Bool.not_false, ↓reduceIte] at h
          obtain ⟨⟨np', m'⟩, hfree, h⟩ := bind_ok_iff.mp h
          cases h
          exact hfreed (hparent' _ _ (U₂ _ _)) hfree rfl
        | true =>
          simp only [Bool.not_true, Bool.false_eq_true, ↓reduceIte] at h
          obtain ⟨groups, -, h⟩ := bind_ok_iff.mp h
          obtain ⟨groups', -, h⟩ := bind_ok_iff.mp h
          cases h
          exact (hparent' _ _ (U₂ _ _)).setProc htracker fun _ => Or.inr hslot
      | false =>
        simp only [Bool.false_eq_true, ↓reduceIte] at h
        unfold System.forkCopy at h
        obtain ⟨⟨ok, m', table⟩, -, h⟩ := bind_ok_iff.mp h
        have U₂ : ∀ m, Untouched s (s₁.setMemory m) fun j => s.freeSlot = some j :=
          fun _ => ⟨U.psa, U.tracker, U.live⟩
        cases ok with
        | false =>
          simp only [Bool.not_false, ↓reduceIte] at h
          obtain ⟨⟨np', m''⟩, hfree, h⟩ := bind_ok_iff.mp h
          cases h
          exact hfreed (U₂ _) hfree rfl
        | true =>
          simp only [Bool.not_true, Bool.false_eq_true, ↓reduceIte] at h
          cases h
          exact (U₂ _).setProc htracker fun _ => Or.inr hslot

/-- After the `exit` of the only process with pages on disk nobody holds a block. -/
theorem exit_area {status : BitVec 32} (hsafe : ∀ x, x.1 ≠ i → s.holds x = none)
    (h : s.exit i status = .ok t) : SwapArea t.holds t.kernel.psaTracker := by
  unfold System.exit at h
  obtain ⟨groups, -, h⟩ := bind_ok_iff.mp h
  simp only at h
  split_ifs at h
  cases h
  apply Blocks.empty
  · intro x
    by_cases hx : x.1 = i
    · simp [System.holds, System.setProc, hx]
    · have hnone := hsafe x hx
      unfold System.holds System.setProc at *
      simp only [Function.update_of_ne hx]
      unfold System.reparent System.setGroups
      simp only
      split_ifs at hnone ⊢ <;> exact hnone
  · intro b hb
    show initPsaRegions s.kernel.psaTracker b = false
    unfold initPsaRegions
    rw [if_pos hb]

theorem wait_untouched {addr : ℕ} (h : s.wait i addr = .ok t) : Untouched s t fun _ => False := by
  have hmemory : ∀ m, Untouched s (s.setMemory m) fun _ => False :=
    fun _ => ⟨rfl, fun _ => rfl, fun _ hlive => Or.inl hlive⟩
  unfold System.wait at h
  cases hfind : (List.range NPROC).find? fun j =>
      (s.proc j).parent = some i ∧ (s.proc j).state = .zombie with
  | none =>
    simp only [hfind] at h
    cases h
    exact hmemory s.kernel.memory
  | some j =>
    simp only [hfind] at h
    cases hpg : (s.proc i).pagetable with
    | none =>
      simp only [hpg] at h
      cases h
    | some pg =>
      simp only [hpg] at h
      generalize (if addr ≠ 0 then
        copyout pg.table addr (statusByte (s.proc j).xstate) 4 s.kernel.memory
        else (true, s.kernel.memory)) = copied at h
      obtain ⟨ok, m⟩ := copied
      cases ok with
      | false =>
        cases h
        exact hmemory m
      | true =>
        simp only [Bool.not_true, Bool.false_eq_true, ↓reduceIte] at h
        obtain ⟨⟨p, m'⟩, hfree, h⟩ := bind_ok_iff.mp h
        cases h
        obtain ⟨htracker, hunused⟩ := freeproc_tracker hfree
        refine (hmemory m').setProc htracker fun hlive => ?_
        rw [hunused] at hlive
        cases hlive

/-- A step that is safe keeps the blocks and the marks in agreement. -/
theorem step_area (A : SwapArea s.holds s.kernel.psaTracker)
    (hsafe : (s.proc e.1).state = .live → e.2.SwapSafe s e.1) (h : s.step e = .ok t) :
    SwapArea t.holds t.kernel.psaTracker := by
  obtain ⟨i, e⟩ := e
  unfold System.step at h
  split_ifs at h with hlive
  · have hsafe := hsafe hlive
    simp only at h hlive hsafe
    cases hc : s.cpu i with
    | none =>
      simp only [hc] at h
      cases h
    | some c =>
      simp only [hc] at h
      have A₀ := cpu_area A hc
      obtain ⟨hkernel, hproc, -⟩ := cpu_some hc
      have hset : ∀ {c' : Cpu}, SwapArea (s.held i c'.proc.heapTracker) c'.kernel.psaTracker →
          SwapArea (s.setCpu i c').holds (s.setCpu i c').kernel.psaTracker :=
        fun A' => A'.mono fun x b hx => setCpu_holds hlive hx
      cases e with
      | access a =>
        obtain ⟨⟨value, c'⟩, haccess, h⟩ := bind_ok_iff.mp h
        cases h
        refine hset (access_area hlive A₀ ?_ haccess)
        intro hfault hindex hfull
        rw [hproc, held_self, hkernel]
        exact hsafe ⟨c, hc, hfault, hindex, hfull⟩
      | sbrk bytes =>
        obtain ⟨⟨ok, c'⟩, hgrow, h⟩ := bind_ok_iff.mp h
        cases h
        exact hset (growproc_area A₀ hgrow)
      | fork cow => exact (fork_untouched h).area A hsafe
      | exec path argv namei =>
        obtain ⟨⟨argc, k, p⟩, hexec, h⟩ := bind_ok_iff.mp h
        cases h
        obtain ⟨hpsa, htracker⟩ := exec_area hexec
        show SwapArea _ k.psaTracker
        rw [hpsa]
        refine A.mono (holds_mono fun j hj => ?_)
        by_cases hji : j = i
        · subst hji
          refine ⟨hlive, fun k _ b hb => ?_⟩
          simp only [Function.update_self] at hb
          exact htracker k b hb
        · simp only [Function.update_of_ne hji] at hj ⊢
          exact ⟨hj, fun _ _ _ hb => hb⟩
      | exit status => exact exit_area hsafe h
      | wait addr => exact (wait_untouched h).area A fun _ hno => hno.elim
      | write dstva src len =>
        cases h
        exact A
  · cases h
    exact A

/-- The blocks of the processes are theirs, and marked, after a run whose steps are safe. -/
theorem swap_area_owned (hfresh : s.SwapFresh)
    (hes : Guarded System.step (fun s e => (s.proc e.1).state = .live → e.2.SwapSafe s e.1) s es)
    (hrun : exec System.step s es = .ok t) : t.SwapOwned := by
  have A₀ : SwapArea s.holds s.kernel.psaTracker := Blocks.empty hfresh.holds hfresh.unmarked
  have A : SwapArea t.holds t.kernel.psaTracker :=
    Guarded.invariant (fun _ _ _ A hsafe hstep => step_area A hsafe hstep) A₀ hes hrun
  exact ⟨fun x y b b' hx hy hne => A.disjoint hx hy hne, A.marked⟩

end Step

section Sample

def crowdedTable : PageTable ℕ :=
  { sampleTable 0 with
    leaf i :=
      if 2 ≤ i ∧ i < 102 then some (permW.pte (PGSIZE * (524700 + i))) else (sampleTable 0).leaf i }

/-- A process that has touched 100 of its 101 heap pages. -/
def crowdedProc : Proc :=
  { sampleProc 0 with
    sz := PGSIZE * 102
    pagetable := some ⟨PGSIZE * 524299, crowdedTable⟩
    heapTracker := fun k =>
      if k < 101 then ⟨PGSIZE * (2 + k), if k < 100 then 0 else unset, false, none⟩ else .clear
    residentHeapPages := MAXRESHEAP }

/-- A process that has a trapframe and a trampoline only. -/
def bareProc : Proc :=
  { blankProc with
    state := .live
    pid := 2
    parent := some 0
    pagetable := some ⟨PGSIZE * 524298, {
      mid := fun i => if i = 255 then some (PGSIZE * 524297) else none
      low := fun i => if i = 131071 then some (PGSIZE * 524296) else none
      leaf := fun i =>
        if i = trapPage then some ⟨PGSIZE * 524295, true, true, false, false⟩
        else if i = trapPage + 1 then some ⟨PGSIZE * 524291, true, false, true, false⟩
        else none }⟩
    trapframe := some (PGSIZE * 524295) }

def crowdedSystem : System :=
  { sampleSystem with
    proc := fun i => if i = 0 then crowdedProc else if i = 1 then bareProc else blankProc
    nextpid := 3 }

theorem crowdedSystem_fresh : crowdedSystem.SwapFresh where
  holds := by
    rintro ⟨i, k⟩
    unfold System.holds crowdedSystem HeapPage.block
    by_cases h₀ : i = 0
    · by_cases hk : k < 101 <;> simp [h₀, crowdedProc, hk]
    · by_cases h₁ : i = 1 <;> simp [h₀, h₁, bareProc, blankProc]
  unmarked := fun _ _ => rfl

theorem crowded_load_run : ∃ t, exec System.step crowdedSystem [(0, .access (sampleLoad 102))] =
    .ok t ∧ t.holds (0, 0) = some 0 := by
  have hok : (exec System.step crowdedSystem [(0, .access (sampleLoad 102))]).toOption.map
      (fun t => t.holds (0, 0)) = some (some 0) := by
    decide +kernel
  cases hrun : exec System.step crowdedSystem [(0, .access (sampleLoad 102))] with
  | error e =>
    rw [hrun] at hok
    cases hok
  | ok t =>
    rw [hrun] at hok
    exact ⟨t, rfl, Option.some.inj hok⟩

/-- The last of the pages is touched, and the first one goes to disk. -/
theorem sample_swap_area_owned : ∃ t,
    exec System.step crowdedSystem [(0, .access (sampleLoad 102))] = .ok t ∧ t.SwapOwned := by
  obtain ⟨t, hrun, -⟩ := crowded_load_run
  have hsafe : Guarded System.step
      (fun s e => (s.proc e.1).state = .live → e.2.SwapSafe s e.1) crowdedSystem
      [(0, .access (sampleLoad 102))] :=
    ⟨fun _ _ => Or.inl ⟨0, by decide, rfl⟩, fun _ _ => trivial⟩
  exact ⟨t, hrun, swap_area_owned crowdedSystem_fresh hsafe hrun⟩

/-- The other process exits: the block of the page is no longer marked. -/
theorem exit_releases_others : crowdedSystem.SwapFresh ∧ ∃ t,
    exec System.step crowdedSystem [(0, .access (sampleLoad 102)), (1, .exit 0)] = .ok t ∧
    ¬ t.SwapOwned := by
  refine ⟨crowdedSystem_fresh, ?_⟩
  have hok : (exec System.step crowdedSystem
      [(0, .access (sampleLoad 102)), (1, .exit 0)]).toOption.map
      (fun t => (t.holds (0, 0), t.kernel.psaTracker 0)) = some (some 0, false) := by
    decide +kernel
  cases hrun : exec System.step crowdedSystem [(0, .access (sampleLoad 102)), (1, .exit 0)] with
  | error e =>
    rw [hrun] at hok
    cases hok
  | ok t =>
    rw [hrun] at hok
    simp only [Except.toOption, Option.map_some, Option.some.injEq, Prod.mk.injEq] at hok
    obtain ⟨hholds, hclear⟩ := hok
    refine ⟨t, rfl, fun howned => ?_⟩
    have hmark := howned.marked (0, 0) 0 hholds 0 (by decide)
    rw [hclear] at hmark
    cases hmark

end Sample

end AdvancedOperatingSystems.DemandPaging
