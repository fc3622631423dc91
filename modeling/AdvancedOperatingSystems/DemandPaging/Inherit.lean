import AdvancedOperatingSystems.DemandPaging.ForkImage
import AdvancedOperatingSystems.DemandPaging.Frames
import AdvancedOperatingSystems.DemandPaging.KernelWrites
import AdvancedOperatingSystems.DemandPaging.Retained

/-!
# What a child inherits of the heap

A process sees a page of its heap in memory, on disk, or as zeros before the first touch. A
child gets the pages in memory, but neither the tracker nor the blocks on disk: a page it has
not got is found only where the tracker left in its slot says the same of it, and only as long
as no eviction writes over the block. The next `sbrk` finds the entries of that tracker.
-/

namespace AdvancedOperatingSystems.DemandPaging

open Foundations Riscv Riscv.PageTable

section Definitions

/-- A page of the heap as the process sees it. -/
def heapContents (c : Cpu) (addr : ℕ) : Page :=
  match c.table.leaf (vpn addr) with
  | some e => c.kernel.memory.page e.pa
  | none => match pageIndex c.proc.heapTracker addr with
    | some k =>
      if (c.proc.heapTracker k).loaded then
        readPage c.kernel.disk ((c.proc.heapTracker k).startblock.getD 0)
      else fun _ => 0
    | none => fun _ => 0

/-- A load from a page of the heap of the process. -/
structure HeapLoad (c : Cpu) (a : Access) : Prop where
  op : a.op = .load
  va : a.va < 2 ^ 64
  tracked : (pageIndex c.proc.heapTracker a.pageAddr).isSome

/-- What a page of the heap of the parent needs of the tracker in the child's slot: nothing on
disk if the page is copied, an entry if the parent has not touched it, and the parent's block
if it is on disk. -/
inductive Inheritable (c : Cpu) (tracker : ℕ → HeapPage) (addr : ℕ) : Prop
  | copied (e : Pte) (below : addr < TRAPFRAME) (leaf : c.table.leaf (vpn addr) = some e)
      (user : e.u = true) (size : addr < c.proc.sz) (off : NotOnDisk tracker addr)
  | untouched (below : addr < TRAPFRAME) (leaf : c.table.leaf (vpn addr) = none)
      (blank : ∀ k, pageIndex c.proc.heapTracker addr = some k →
        (c.proc.heapTracker k).loaded = false)
      (tracked : (pageIndex tracker addr).isSome) (off : NotOnDisk tracker addr)
  | swapped (k b : ℕ) (below : addr < TRAPFRAME) (leaf : c.table.leaf (vpn addr) = none)
      (index : pageIndex c.proc.heapTracker addr = some k)
      (block : (c.proc.heapTracker k).block = some b) (on : OnDisk tracker addr b)

/-- The pages that an event of a process writes to. -/
def Event.stores : Event → Set ℕ
  | .access a => {v | (∃ value, a.op = .store value) ∧ v = vpn a.va}
  | .write dstva _ len => {v | ∃ a ∈ bufferPages dstva len, v = vpn a}
  | _ => ∅

def storedPages (n : ℕ) (es : List (ℕ × Event)) : Set ℕ := {v | ∃ e ∈ es, e.1 = n ∧ v ∈ e.2.stores}

/-- The events that spare the heap of process `n`. An eviction writes over none of its blocks;
its own faults on tracked pages fetch them; a copy of the kernel to the memory of another
process meets no page that it maps. Nobody gives memory back. -/
def Event.Spares (s : System) (n i : ℕ) : Event → Prop
  | .access a => (Event.access a).Keeps s i ∧
      (FaultEvicts s i a → BlocksSpared (s.proc n).heapTracker s.kernel.psaTracker) ∧
      (i = n → ∀ c, s.cpu n = some c → attempt a c = none →
        ∀ k, pageIndex c.proc.heapTracker a.pageAddr = some k → Fetches a c k)
  | .exit _ => i ≠ n
  | .wait _ => ∀ j < NPROC, (s.proc j).parent = some i → (s.proc j).state ≠ .zombie
  | .write dstva _ len => i ≠ n → ∀ c, s.cpu i = some c → ∀ a ∈ written c.table dstva len,
      ∀ v e, s.leaf n v = some e → e.pa ≠ c.table.walkaddr a
  | e => e.Keeps s i

/-- The pages that free entries of the tracker have been taken for. -/
def addedPages (tracker tracker' : ℕ → HeapPage) : Set ℕ :=
  {addr | addr ≠ unset ∧ ∃ k < MAXHEAP, (tracker k).addr = unset ∧ (tracker' k).addr = addr}

/-- What `sbrk` returns, and the pages that it adds to the heap. -/
def growth (bytes : Int) (c : Cpu) : Except Panic ((Bool × Set ℕ) × Cpu) := do
  let (ok, c') ← growproc bytes c
  return ((ok, addedPages c.proc.heapTracker c'.proc.heapTracker), c')

/-- What one `sbrk` after another does. -/
def growths : List Int → Cpu → Except Panic (List (Bool × Set ℕ))
  | [], _ => .ok []
  | bytes :: calls, c => do
    let (added, c) ← growth bytes c
    let rest ← growths calls c
    return added :: rest

/-- Calls of `sbrk` in any number return the same and add the same pages to the heap. -/
def SameGrowth (c d : Cpu) : Prop := ∀ calls : List Int, growths calls c = growths calls d

def SameFree (tracker tracker' : ℕ → HeapPage) : Prop :=
  ∀ k < MAXHEAP, (tracker k).addr = unset ↔ (tracker' k).addr = unset

def Cpu.withSz (c : Cpu) (sz : ℕ) : Cpu := { c with proc := { c.proc with sz := sz } }

/-- A process that runs, on demand and in order. -/
structure System.Settled (s : System) (n : ℕ) (d : Cpu) : Prop where
  cpu : s.cpu n = some d
  live : (s.proc n).state = .live
  tidy : d.Tidy
  ondemand : d.proc.ondemand = true
  readable : AllReadable d.table

/-- The process `d` goes on as `d'`: outside the pages stored to it finds what it found before,
and unless it grows its tracker has the same addresses. -/
structure System.Follows (t : System) (n : ℕ) (stored : Set ℕ) (grows : Prop) (d d' : Cpu) : Prop
    extends t.Settled n d' where
  finds : ∀ addr data, addr % PGSIZE = 0 → vpn addr ∉ stored → d.Finds addr data →
    d'.Finds addr data
  addrs : ¬ grows → AddrsKept d.proc d'.proc

end Definitions

section Growth

variable {tracker tracker' : ℕ → HeapPage} {is : List ℕ} {start : ℕ} {c d : Cpu}

def trackedPages (start : ℕ) (ks : List ℕ) : Set ℕ :=
  {addr | ∃ k ∈ ks, (start + PGSIZE * k) % 2 ^ 64 = addr}

theorem addedPages_eq {ks : List ℕ} (halign : start % PGSIZE = 0)
    (hks : ∀ k ∈ ks, k < MAXHEAP ∧ (tracker k).addr = unset) :
    addedPages tracker (trackPages start ks tracker) = trackedPages start ks := by
  ext addr
  constructor
  · rintro ⟨hne, k, -, hunset, heq⟩
    by_cases hin : k ∈ ks
    · rw [trackPages, if_pos hin] at heq
      exact ⟨k, hin, heq⟩
    · rw [trackPages, if_neg hin, hunset] at heq
      exact absurd heq.symm hne
  · rintro ⟨k, hin, rfl⟩
    refine ⟨?_, k, (hks k hin).1, (hks k hin).2, by rw [trackPages, if_pos hin]⟩
    simp only [PGSIZE, unset] at *
    omega

theorem growth_eq (hond : c.proc.ondemand = true) (halign : c.proc.sz % PGSIZE = 0)
    (bytes : Int) : growth bytes c =
      if 1 ≤ bytes.tdiv PGSIZE ∧
          bytes.tdiv PGSIZE ≤ (freeEntries c.proc.heapTracker (List.range MAXHEAP)).length then
        .ok ((true, trackedPages c.proc.sz
            ((freeEntries c.proc.heapTracker (List.range MAXHEAP)).take (bytes.tdiv PGSIZE).toNat)),
          c.withTracker (trackPages c.proc.sz ((freeEntries c.proc.heapTracker
            (List.range MAXHEAP)).take (bytes.tdiv PGSIZE).toNat) c.proc.heapTracker))
      else .error "Error: No more process heap pages allowed.\n" := by
  have hadded := addedPages_eq halign fun k => @mem_takenEntries c.proc.heapTracker bytes k
  unfold takenEntries at hadded
  unfold growth
  rw [growproc_eq hond]
  by_cases hcond : Trackable c.proc.heapTracker bytes
  · rw [if_pos hcond, if_pos (show _ ∧ _ from hcond), ← hadded]
    rfl
  · rw [if_neg hcond, if_neg (show ¬ (_ ∧ _) from hcond)]
    rfl

theorem freeEntries_congr (h : SameFree tracker tracker') :
    freeEntries tracker (List.range MAXHEAP) = freeEntries tracker' (List.range MAXHEAP) := by
  unfold freeEntries
  apply List.filter_congr
  intro k hk
  rw [decide_eq_decide]
  exact h k (List.mem_range.mp hk)

theorem SameFree.growths (hc : c.proc.ondemand = true) (hd : d.proc.ondemand = true)
    (hsz : d.proc.sz = c.proc.sz) (halign : c.proc.sz % PGSIZE = 0)
    (h : SameFree c.proc.heapTracker d.proc.heapTracker) (calls : List Int) :
    growths calls c = growths calls d := by
  induction calls generalizing c d with
  | nil => rfl
  | cons bytes calls ih =>
    unfold DemandPaging.growths
    rw [growth_eq hc halign, growth_eq hd (by rw [hsz]; exact halign), ← freeEntries_congr h, hsz]
    generalize (freeEntries c.proc.heapTracker (List.range MAXHEAP)) = free
    split_ifs with hcond
    · have hrest := @ih
        (c.withTracker (trackPages c.proc.sz (free.take (bytes.tdiv PGSIZE).toNat)
          c.proc.heapTracker))
        (d.withTracker (trackPages c.proc.sz (free.take (bytes.tdiv PGSIZE).toNat)
          d.proc.heapTracker)) hc hd hsz halign ?_
      · simp only [ok_bind]
        rw [hrest]
      · intro k hk
        simp only [Cpu.withTracker, trackPages]
        split_ifs
        · exact Iff.rfl
        · exact h k hk
    · rfl

theorem trackedPages_mem {ks : List ℕ} {k : ℕ} (hks : ∀ j ∈ ks, j < MAXHEAP) (hk : k < MAXHEAP) :
    (start + PGSIZE * k) % 2 ^ 64 ∈ trackedPages start ks ↔ k ∈ ks := by
  constructor
  · rintro ⟨j, hj, heq⟩
    have hlt := hks j hj
    have hjk : j = k := by
      simp only [PGSIZE, MAXHEAP] at *
      omega
    exact hjk ▸ hj
  · intro hk
    exact ⟨k, hk, rfl⟩

/-- Calls of `sbrk` that return the same find the same free entries. -/
theorem sameGrowth_iff (hc : c.proc.ondemand = true) (hd : d.proc.ondemand = true)
    (hsz : d.proc.sz = c.proc.sz) (halign : c.proc.sz % PGSIZE = 0) :
    SameGrowth c d ↔ SameFree c.proc.heapTracker d.proc.heapTracker := by
  constructor
  · intro h
    have halign' : d.proc.sz % PGSIZE = 0 := by rw [hsz]; exact halign
    have hone : ∀ n : ℕ, growths [(PGSIZE : Int) * n] c = growths [(PGSIZE : Int) * n] d :=
      fun n => h _
    have hn : ∀ n : ℕ, ((PGSIZE : Int) * n).tdiv PGSIZE = n := fun n =>
      Int.mul_tdiv_cancel_left _ (by decide)
    simp only [growths, growth_eq hc halign, growth_eq hd halign', hn, hsz] at hone
    have hmem := @mem_freeEntries c.proc.heapTracker
    have hmem' := @mem_freeEntries d.proc.heapTracker
    generalize freeEntries c.proc.heapTracker (List.range MAXHEAP) = free at hone hmem
    generalize freeEntries d.proc.heapTracker (List.range MAXHEAP) = free' at hone hmem'
    have hlen : ∀ n : ℕ, 1 ≤ n → (n ≤ free.length ↔ n ≤ free'.length) := by
      intro n hpos
      have heq := hone n
      by_cases h₁ : n ≤ free.length <;> by_cases h₂ : n ≤ free'.length
      · exact iff_of_true h₁ h₂
      · rw [if_pos (by omega), if_neg (by omega)] at heq
        cases heq
      · rw [if_neg (by omega), if_pos (by omega)] at heq
        cases heq
      · exact iff_of_false h₁ h₂
    have hsame : free.length = free'.length := by
      have h₁ := hlen free.length
      have h₂ := hlen free'.length
      omega
    intro k hk
    by_cases hpos : 1 ≤ free.length
    · have heq := hone free.length
      rw [if_pos (by omega), if_pos (by omega)] at heq
      simp only [ok_bind, Int.toNat_natCast, List.take_length] at heq
      rw [hsame, List.take_length] at heq
      have hpages : trackedPages c.proc.sz free = trackedPages c.proc.sz free' := by
        have hlist := Except.ok.inj heq
        exact (Prod.mk.inj (List.cons.inj hlist).1).2
      have h₁ := @trackedPages_mem c.proc.sz _ _ (fun j hj => (hmem.mp hj).1) hk
      have h₂ := @trackedPages_mem c.proc.sz _ _ (fun j hj => (hmem'.mp hj).1) hk
      rw [hpages] at h₁
      have hiff : k ∈ free ↔ k ∈ free' := h₁.symm.trans h₂
      rw [hmem, hmem'] at hiff
      simpa [hk] using hiff
    · have hnil : free = [] := List.length_eq_zero_iff.mp (by omega)
      have hnil' : free' = [] := List.length_eq_zero_iff.mp (by omega)
      refine iff_of_false (fun hunset => ?_) fun hunset => ?_
      · have := hmem.mpr ⟨hk, hunset⟩
        simp [hnil] at this
      · have := hmem'.mpr ⟨hk, hunset⟩
        simp [hnil'] at this
  · intro h calls
    exact h.growths hc hd hsz halign calls

end Growth

section Rows

variable {s s₁ t : System} {i n : ℕ} {r : Running} {np : Proc} {pg parent : Pagetable} {trapframe : ℕ}
  {m₀ m m' : Memory} {copy : CowCopy} {groups : CowGroups} {table : PageTable ℕ} {c c' d : Cpu}

/-- The table of the parent after its pages have been shared. -/
theorem uvmcopyCowLoop_parent {group : ℕ} {is : List ℕ} {copy copy' : CowCopy}
    (hread : AllReadable copy.old) (hw : copy.old.Wf)
    (h : uvmcopyCowLoop group is copy = .ok (none, copy')) :
    copy'.old.Wf ∧ AllReadable copy'.old := by
  induction is generalizing copy with
  | nil =>
    cases h
    exact ⟨hw, hread⟩
  | cons i is ih =>
    unfold uvmcopyCowLoop at h
    obtain ⟨slot, hwalk, h⟩ := bind_ok_iff.mp h
    rcases slot with _ | _ | e
    · cases h
    · exact ih hread hw h
    · simp only at h
      obtain ⟨⟨ok, m, new⟩, -, h⟩ := bind_ok_iff.mp h
      cases ok with
      | false =>
        simp only [Bool.not_false, ↓reduceIte] at h
        cases h
      | true =>
        simp only [Bool.not_true, Bool.false_eq_true, ↓reduceIte] at h
        obtain ⟨groups, -, h⟩ := bind_ok_iff.mp h
        have he := walk_entry hwalk
        have hlow : (copy.old.low (lowIndex i)).isSome := hw.low_of_leaf _ (by rw [he]; rfl)
        refine @ih ⟨groups, m, copy.old.set i (some (readOnly e)), new⟩ (fun v e' he' => ?_)
          (wf_setLeaf hw hlow (onlyValid_readOnly (hread _ e he))) h
        rw [set_leaf] at he'
        by_cases hv : v = vpn i
        · rw [hv, Function.update_self] at he'
          cases he'
          exact hread _ e he
        · rw [Function.update_of_ne hv] at he'
          exact hread v e' he'

theorem uvmcopyCow_parent {group sz : ℕ} {copy copy' : CowCopy} (hread : AllReadable copy.old)
    (hw : copy.old.Wf) (h : uvmcopyCow group sz copy = .ok (true, copy')) :
    copy'.old.Wf ∧ AllReadable copy'.old := by
  unfold uvmcopyCow at h
  obtain ⟨⟨stop, copy₁⟩, hloop, h⟩ := bind_ok_iff.mp h
  cases stop with
  | none =>
    cases h
    exact uvmcopyCowLoop_parent hread hw hloop
  | some i =>
    obtain ⟨s₂, -, h⟩ := bind_ok_iff.mp h
    cases h

/-- A process that has shared its pages finds them as before. -/
theorem Cpu.Finds.shared {d' : Cpu} {addr : ℕ} {data : Page} (F : d.Finds addr data)
    (hleaf : ∀ v, d'.table.leaf v = d.table.leaf v ∨
      d'.table.leaf v = (d.table.leaf v).map readOnly)
    (htracker : d'.proc.heapTracker = d.proc.heapTracker)
    (hpage : ∀ v e, d.table.leaf v = some e →
      d'.kernel.memory.page e.pa = d.kernel.memory.page e.pa)
    (hdisk : d'.kernel.disk = d.kernel.disk) : d'.Finds addr data := by
  have hnone : d.table.leaf (vpn addr) = none → d'.table.leaf (vpn addr) = none := by
    intro hno
    rcases hleaf (vpn addr) with hsame | hshared
    · rw [hsame, hno]
    · rw [hshared, hno]
      rfl
  cases F with
  | mapped e below leaf user readable off bytes =>
    have hbytes : ∀ j < PGSIZE, d'.kernel.memory.page e.pa j = data j := by
      intro j hj
      rw [hpage _ e leaf]
      exact bytes j hj
    rcases hleaf (vpn addr) with hsame | hshared
    · exact .mapped e below (hsame.trans leaf) user readable (htracker ▸ off) hbytes
    · rw [leaf] at hshared
      exact .mapped (readOnly e) below hshared user readable (htracker ▸ off) hbytes
  | untouched leaf tracked off bytes =>
    exact .untouched (hnone leaf) (htracker ▸ tracked) (htracker ▸ off) bytes
  | swapped b leaf on bytes =>
    exact .swapped b (hnone leaf) (htracker ▸ on) fun j hj => by rw [hdisk, bytes j hj]

theorem System.Follows.mono {stored stored' : Set ℕ} {grows grows' : Prop} {d' : Cpu}
    (h : t.Follows n stored grows d d') (hstored : stored ⊆ stored') (hgrows : grows → grows') :
    t.Follows n stored' grows' d d' where
  toSettled := h.toSettled
  finds addr data haligned hnot := h.finds addr data haligned fun hin => hnot (hstored hin)
  addrs hno := h.addrs fun hgr => hno (hgrows hgr)

/-- A process whose row of the table has changed at most in `parent`. -/
theorem System.Settled.row (S : s.Settled n d) (ht : t.UserPages) {par : Option ℕ}
    (hrow : t.proc n = { s.proc n with parent := par }) (hsound : t.kernel.memory.Sound) :
    t.Settled n ⟨t.kernel, t.proc n, d.table⟩ ∧ AddrsKept d.proc (t.proc n) ∧
      (t.proc n).heapTracker = d.proc.heapTracker := by
  obtain ⟨pg, hpg, hd⟩ := Option.map_eq_some_iff.mp S.cpu
  have htable : d.table = pg.table := by rw [← hd]
  have hproc := (cpu_some S.cpu).2.1
  have hcpu : t.cpu n = some ⟨t.kernel, t.proc n, d.table⟩ := by
    unfold System.cpu
    rw [hrow]
    simp only [hpg, Option.map_some, htable]
  have hfields : (t.proc n).heapTracker = d.proc.heapTracker ∧ (t.proc n).sz = d.proc.sz ∧
      (t.proc n).ondemand = d.proc.ondemand ∧ (t.proc n).state = (s.proc n).state := by
    rw [hrow, hproc]
    exact ⟨rfl, rfl, rfl, rfl⟩
  obtain ⟨htracker, hsz, hond, hstate⟩ := hfields
  refine ⟨⟨hcpu, hstate.trans S.live, ⟨?_, S.tidy.wf, S.tidy.frames, fun v e he => ?_, hsound,
    ht.toKept.nodup⟩, hond.trans S.ondemand, S.readable⟩, ⟨hond, fun k => ?_, fun h => ?_,
    fun h => ?_⟩, htracker⟩
  · rw [hsz]
    exact S.tidy.sz
  · exact ht.toKept.not_free (((cpu_some hcpu).2.2 v).trans he)
  · rw [htracker]
  · rw [hsz]
    exact h
  · rw [hsz]
    exact h

theorem System.Settled.other (S : s.Settled n d) (ht : t.UserPages) {par : Option ℕ}
    (hrow : t.proc n = { s.proc n with parent := par }) (hsound : t.kernel.memory.Sound)
    (hpage : ∀ v e, d.table.leaf v = some e →
      t.kernel.memory.page e.pa = s.kernel.memory.page e.pa)
    (hdisk : ∀ b, (∃ k < MAXHEAP, ((s.proc n).heapTracker k).block = some b) → ∀ j < PGSIZE,
      readPage t.kernel.disk b j = readPage s.kernel.disk b j) :
    t.Follows n ∅ False d ⟨t.kernel, t.proc n, d.table⟩ := by
  obtain ⟨hsettled, haddrs, htracker⟩ := S.row ht hrow hsound
  obtain ⟨hkernel, hproc, -⟩ := cpu_some S.cpu
  refine ⟨hsettled, fun addr data _ _ F => ?_, fun _ => haddrs⟩
  refine F.congr rfl (fun k _ _ => congrFun htracker k) (fun k _ _ _ => congrFun htracker k)
    (fun e he _ => ?_) fun b hb j hj => ?_
  · rw [hkernel]
    exact hpage _ e he
  · rw [hkernel]
    rw [hproc] at hb
    exact hdisk b hb j hj

theorem System.Settled.drawn (S : s.Settled n d) (hs : s.UserPages) (ht : t.UserPages)
    (hrow : t.proc n = s.proc n) (hdraws : s.kernel.memory.Draws t.kernel.memory)
    (hdisk : t.kernel.disk = s.kernel.disk) : ∃ d', t.Follows n ∅ False d d' := by
  obtain ⟨hd, -, hleaf⟩ := cpu_some S.cpu
  refine ⟨_, @System.Settled.other s t n d S ht (s.proc n).parent hrow ?_ (fun v e he => ?_)
    fun b _ j _ => ?_⟩
  · have hsound := S.tidy.sound
    rw [hd] at hsound
    exact hdraws.sound hsound
  · exact hdraws.page _ (hs.toKept.not_free ((hleaf v).trans he))
  · rw [hdisk]

/-- The process itself has run. -/
theorem System.Settled.setCpu {stored : Set ℕ} {grows : Prop} (S : s.Settled n d)
    (hp : SameProc d.proc c'.proc) (ht : c'.Tidy) (hread : AllReadable c'.table)
    (hfinds : ∀ addr data, addr % PGSIZE = 0 → vpn addr ∉ stored → d.Finds addr data →
      c'.Finds addr data)
    (haddrs : ¬ grows → AddrsKept d.proc c'.proc) :
    ∃ d', (s.setCpu n c').Follows n stored grows d d' := by
  obtain ⟨pg, hpg, rfl⟩ := Option.map_eq_some_iff.mp S.cpu
  have hfields : c'.proc.pagetable = some pg ∧ c'.proc.state = (s.proc n).state ∧
      c'.proc.ondemand = (s.proc n).ondemand := by
    unfold SameProc at hp
    rw [hp]
    exact ⟨hpg, rfl, rfl⟩
  refine ⟨⟨c'.kernel, { c'.proc with pagetable := some { pg with table := c'.table } }, c'.table⟩,
    ⟨?_, ?_, ⟨ht.sz, ht.wf, ht.frames, ht.used, ht.sound, ht.nodup⟩, ?_, hread⟩,
    fun addr data haligned hnot F => ?_, fun hno => ?_⟩
  · simp [System.cpu, System.setCpu, hfields.1]
  · simp only [System.setCpu, Function.update_self]
    exact hfields.2.1.trans S.live
  · exact hfields.2.2.trans S.ondemand
  · exact (hfinds addr data haligned hnot F).congr rfl (fun _ _ _ => rfl) (fun _ _ _ _ => rfl)
      (fun _ _ _ => rfl) fun _ _ _ _ => rfl
  · obtain ⟨h₁, h₂, h₃, h₄⟩ := haddrs hno
    exact ⟨h₁, h₂, h₃, h₄⟩

end Rows

section Step

variable {s t : System} {i n : ℕ} {c c' d : Cpu} {a : Access}

theorem setCpu_proc_ne (hne : n ≠ i) : (s.setCpu i c').proc n = s.proc n := by
  simp [System.setCpu, hne]

theorem System.Settled.access_other {value : Option Byte} (S : s.Settled n d) (hs : s.UserPages)
    (ht : (s.setCpu i c').UserPages) (hne : n ≠ i) (hc : s.cpu i = some c)
    (hspares : (Event.access a).Spares s n i) (h : access a c = .ok (value, c')) :
    ∃ d', (s.setCpu i c').Follows n ∅ False d d' := by
  obtain ⟨⟨hva, hserved⟩, hspared, -⟩ := hspares
  obtain ⟨hkernel, -, -⟩ := cpu_some hc
  have hd := (cpu_some S.cpu).1
  have hn : c.kernel.memory.freelist.Nodup := by
    rw [hkernel]
    exact hs.toKept.nodup
  refine ⟨_, S.other ht (setCpu_proc_ne hne) ?_ (fun v e he => ?_) fun b hb j hj => ?_⟩
  · have hsound := S.tidy.sound
    rw [hd, ← hkernel] at hsound
    obtain ⟨c₁, hstep, rfl | ⟨e, data, -, -, rfl⟩⟩ := access_step hn hva (hserved c hc) h
    · exact hstep.space.draws.sound hsound
    · exact (hstep.space.draws.sound hsound).of_freelist rfl rfl
  · exact access_frame hs.toKept hc hva (hserved c hc) h hne (((cpu_some S.cpu).2.2 v).trans he)
  · rcases access_disk h with hsame | ⟨hnone, hsome, hwritten⟩
    · rw [← hkernel, ← hsame]
      rfl
    · rw [← hkernel]
      refine hwritten.page (fun hfull => ?_) hj
      obtain ⟨k, hk, hkb⟩ := hb
      rw [hkernel]
      exact hspared ⟨c, hc, hnone, hsome, hfull⟩ k hk b hkb

theorem System.Settled.access_self {value : Option Byte} (S : s.Settled n d) (hs : s.UserPages)
    (hspares : (Event.access a).Spares s n n) (h : access a d = .ok (value, c')) :
    ∃ d', (s.setCpu n c').Follows n (Event.access a).stores False d d' := by
  obtain ⟨⟨hva, hserved⟩, hspared, hfetch⟩ := hspares
  obtain ⟨hkernel, hproc, -⟩ := cpu_some S.cpu
  obtain ⟨ht, hread, haddrs⟩ := S.tidy.access hva S.readable (hserved d S.cpu) h
  have hp : SameProc d.proc c'.proc := by
    obtain ⟨c₁, hstep, rfl | ⟨e, data, -, -, rfl⟩⟩ :=
      access_step S.tidy.nodup hva (hserved d S.cpu) h
    · exact hstep.proc
    · exact hstep.proc
  refine S.setCpu hp ht hread (fun addr data haligned hnot F => ?_) fun _ => haddrs
  refine F.access S.tidy hva haligned (hserved d S.cpu) (fun hnone k hk => ⟨?_, fun hfull => ?_⟩)
    (fun value hop heq => hnot ⟨⟨value, hop⟩, heq.symm⟩) (fun c₁ hstep => ?_) h
  · exact hfetch rfl d S.cpu hnone k hk
  · rw [hkernel, hproc]
    exact hspared ⟨d, S.cpu, hnone, by rw [hk]; rfl, hfull⟩
  · have hkept := hs.toKept.setCpu S.cpu hstep.space hstep.proc
    have hleaf : ∀ v, (s.setCpu n c₁).leaf n v = c₁.table.leaf v := by
      intro v
      rw [setCpu_leaf S.cpu hstep.proc, if_pos rfl]
    intro v e he hw w e' he' hpa
    exact (hkept.writable n v e ((hleaf v).trans he) hw n w e' ((hleaf w).trans he') hpa).2

theorem System.Settled.sbrk_other {bytes : Int} (S : s.Settled n d) (hs : s.UserPages)
    (ht : (s.setCpu i c').UserPages) (hne : n ≠ i) (hc : s.cpu i = some c) (hpos : 0 ≤ bytes)
    (h : growproc bytes c = .ok (true, c')) : ∃ d', (s.setCpu i c').Follows n ∅ False d d' := by
  have hkernel := (cpu_some hc).1
  have hn : c.kernel.memory.freelist.Nodup := by
    rw [hkernel]
    exact hs.toKept.nodup
  have hdraws : s.kernel.memory.Draws c'.kernel.memory := by
    rw [← hkernel]
    exact (growproc_evolves hn hpos h).1.draws
  refine S.drawn hs ht (setCpu_proc_ne hne) hdraws ?_
  rw [← hkernel]
  exact growproc_disk h

theorem System.Settled.sbrk_self {bytes : Int} {ok : Bool} (S : s.Settled n d)
    (h : growproc bytes d = .ok (ok, c')) : ∃ d', (s.setCpu n c').Follows n ∅ True d d' := by
  have hgrow := h
  rw [growproc_eq S.ondemand] at h
  split_ifs at h
  cases h
  obtain ⟨hsz, hwf, hframes, hused, hsound, hnodup⟩ := S.tidy
  exact S.setCpu rfl ⟨hsz, hwf, hframes, hused, hsound, hnodup⟩ S.readable
    (fun addr data haligned _ F => F.growproc S.ondemand haligned hgrow) fun hno => absurd trivial hno

end Step

section Fork

variable {s s₁ t : System} {i n k : ℕ} {r : Running} {np : Proc} {pg parent : Pagetable}
  {trapframe : ℕ} {m₀ m m' : Memory} {copy : CowCopy} {groups : CowGroups} {table : PageTable ℕ}
  {d : Cpu}

theorem System.Settled.refl (S : s.Settled n d) : s.Follows n ∅ False d d :=
  ⟨S, fun _ _ _ _ F => F, fun _ => .refl⟩

theorem Allocated.proc_ne (A : Allocated s r k np pg s₁ trapframe m₀ m) (hne : n ≠ k) :
    s₁.proc n = s.proc n := by
  rw [A.system]
  exact Function.update_of_ne hne _ _

theorem System.Settled.slot_ne (S : s.Settled n d) (A : Allocated s r k np pg s₁ trapframe m₀ m) :
    n ≠ k := by
  rintro rfl
  have hunused := (freeSlot_unused A.slot).2
  rw [S.live] at hunused
  cases hunused

theorem System.Settled.forkCopy (S : s.Settled n d) (hs : s.UserPages) (ht : t.UserPages)
    (A : Allocated s r k np pg s₁ trapframe m₀ m)
    (F : CopyForked s₁ t i k np parent pg m' table) : ∃ d', t.Follows n ∅ False d d' := by
  have hne := S.slot_ne A
  obtain ⟨hdraws, -⟩ := A.fresh hs.toKept.nodup
  have hcopied := F.copied
  rw [A.memory] at hcopied
  have hev := uvmcopy_evolves (Q := fun _ => True) (fun _ _ _ _ => trivial) hdraws.nodup hcopied
  have hrow : t.proc n = s.proc n := by
    rw [F.system]
    exact (Function.update_of_ne hne _ _).trans (A.proc_ne hne)
  refine S.drawn hs ht hrow ?_ (by rw [F.system, A.system]; rfl)
  rw [F.memory]
  exact hdraws.trans hev.draws

theorem CowForked.draws (hs : s.UserPages) (A : Allocated s r k np pg s₁ trapframe m₀ m)
    (F : CowForked s₁ t i k np parent pg copy groups) :
    s.kernel.memory.Draws t.kernel.memory := by
  obtain ⟨hdraws, -⟩ := A.fresh hs.toKept.nodup
  rw [F.memory]
  refine hdraws.trans ?_
  rw [← A.memory]
  exact (uvmcopyCow_shares (by rw [A.memory]; exact hdraws.nodup) F.copied).draws

theorem System.Settled.forkCow_other (S : s.Settled n d) (hs : s.UserPages) (ht : t.UserPages)
    (hni : n ≠ i) (A : Allocated s r k np pg s₁ trapframe m₀ m)
    (F : CowForked s₁ t i k np parent pg copy groups) : ∃ d', t.Follows n ∅ False d d' := by
  have hne := S.slot_ne A
  have hrow : t.proc n = s.proc n := by
    rw [F.system]
    exact ((Function.update_of_ne hne _ _).trans (Function.update_of_ne hni _ _)).trans
      (A.proc_ne hne)
  exact S.drawn hs ht hrow (F.draws hs A) (by rw [F.system, A.system]; rfl)

/-- A `fork(1)` of the process itself: its pages are read-only now. -/
theorem System.Settled.forkCow_self (S : s.Settled n d) (hs : s.UserPages) (ht : t.UserPages)
    (hparent : (s.proc n).pagetable = some parent)
    (A : Allocated s r k np pg s₁ trapframe m₀ m)
    (F : CowForked s₁ t n k np parent pg copy groups) : ∃ d', t.Follows n ∅ False d d' := by
  have hne := S.slot_ne A
  obtain rfl := cpu_eq S.cpu hparent
  obtain ⟨hdraws, -⟩ := A.fresh hs.toKept.nodup
  have hshares := uvmcopyCow_shares (by rw [A.memory]; exact hdraws.nodup) F.copied
  obtain ⟨hwf, hread⟩ := uvmcopyCow_parent S.readable S.tidy.wf F.copied
  have hall := F.draws hs A
  have hjoin : ∀ (p : Proc) (groups : CowGroups), (joinGroup p groups).1.heapTracker = p.heapTracker ∧
      (joinGroup p groups).1.sz = p.sz ∧ (joinGroup p groups).1.ondemand = p.ondemand ∧
      (joinGroup p groups).1.state = p.state := by
    intro p groups
    unfold joinGroup
    split_ifs <;> exact ⟨rfl, rfl, rfl, rfl⟩
  have hrow : t.proc n = { (joinGroup (s.proc n) s₁.kernel.groups).1 with
      pagetable := some { parent with table := copy.old } } := by
    rw [F.system, ← A.proc_ne hne]
    exact (Function.update_of_ne hne _ _).trans (Function.update_self _ _ _)
  obtain ⟨h₁, h₂, h₃, h₄⟩ := hjoin (s.proc n) s₁.kernel.groups
  have hcpu : t.cpu n = some ⟨t.kernel, t.proc n, copy.old⟩ := by
    unfold System.cpu
    rw [hrow]
    rfl
  have hdisk : t.kernel.disk = s.kernel.disk := by
    rw [F.system, A.system]
    rfl
  have htracker : (t.proc n).heapTracker = (s.proc n).heapTracker := by
    rw [hrow]
    exact h₁
  have hsz : (t.proc n).sz = (s.proc n).sz := by
    rw [hrow]
    exact h₂
  have hond : (t.proc n).ondemand = (s.proc n).ondemand := by
    rw [hrow]
    exact h₃
  refine ⟨_, ⟨hcpu, ?_, ⟨?_, hwf, fun v e he => ?_, fun v e he => ?_, hall.sound S.tidy.sound,
    hall.nodup⟩, hond.trans S.ondemand, hread⟩, fun addr data _ _ F => ?_, fun _ => ⟨hond, fun k => ?_,
    fun h => ?_, fun h => ?_⟩⟩
  · rw [hrow]
    exact h₄.trans S.live
  · rw [hsz]
    exact S.tidy.sz
  · obtain ⟨e₀, he₀, hpa, -⟩ := hshares.entry he
    rw [← hpa]
    exact S.tidy.frames v e₀ he₀
  · exact ht.toKept.not_free (((cpu_some hcpu).2.2 v).trans he)
  · exact F.shared hshares.old htracker
      (fun v e he => hall.page _ (S.tidy.used v e he)) hdisk
  · exact congrArg HeapPage.addr (congrFun htracker k)
  · rw [hsz]
    exact h
  · rw [hsz]
    exact h

theorem System.Settled.fork {cow : Bool} (S : s.Settled n d) (hs : s.UserPages)
    (hlive : (s.proc i).state = .live) (hforks : Forks s i cow) (hrun : s.fork i cow = .ok t) :
    ∃ d', t.Follows n ∅ False d d' := by
  have ht := fork_user hs hlive hforks hrun
  rcases fork_cases hlive hforks hrun with
    ⟨-, rfl⟩ | ⟨k, np, pg, s₁, trapframe, m₀, m, parent, -, hparent, A, hcase⟩
  · exact ⟨d, S.refl⟩
  · rcases hcase with ⟨-, copy, groups, F⟩ | ⟨-, m', table, F⟩
    · by_cases hni : n = i
      · subst hni
        exact S.forkCow_self hs ht hparent A F
      · exact S.forkCow_other hs ht hni A F
    · exact S.forkCopy hs ht A F

end Fork

section Events

variable {s t : System} {i n : ℕ} {c d : Cpu} {e : ℕ × Event} {es : List (ℕ × Event)}

/-- The `exit` of a process keeps its memory. -/
theorem exit_cases {status : BitVec 32} (h : s.exit i status = .ok t) :
    t.kernel.memory = s.kernel.memory ∧ t.kernel.disk = s.kernel.disk ∧
    (∀ j v, t.leaf j v = s.leaf j v) ∧
    ∀ j, j ≠ i → ∃ par, t.proc j = { s.proc j with parent := par } := by
  unfold System.exit at h
  obtain ⟨groups, -, h⟩ := bind_ok_iff.mp h
  simp only at h
  split_ifs at h
  cases h
  have hrow : ∀ (s : System) j, ∃ par, (s.reparent i).proc j = { s.proc j with parent := par } := by
    intro s j
    simp only [System.reparent]
    split_ifs
    · exact ⟨_, rfl⟩
    · exact ⟨(s.proc j).parent, rfl⟩
  refine ⟨rfl, rfl, fun j v => ?_, fun j hj => ?_⟩
  · rw [setProc_leaf]
    split_ifs with hj
    · subst hj
      obtain ⟨par, hpar⟩ := hrow (System.setGroups { s with kernel := { s.kernel with
        psaTracker := initPsaRegions s.kernel.psaTracker } } groups) j
      rw [hpar]
      rfl
    · obtain ⟨par, hpar⟩ := hrow (System.setGroups { s with kernel := { s.kernel with
        psaTracker := initPsaRegions s.kernel.psaTracker } } groups) j
      unfold System.leaf
      rw [hpar]
      rfl
  · obtain ⟨par, hpar⟩ := hrow (System.setGroups { s with kernel := { s.kernel with
      psaTracker := initPsaRegions s.kernel.psaTracker } } groups) j
    exact ⟨par, (Function.update_of_ne hj _ _).trans hpar⟩

theorem wait_none {addr : ℕ} (hno : ∀ j < NPROC, (s.proc j).parent = some i →
    (s.proc j).state ≠ .zombie) : s.wait i addr = .ok s := by
  have hnone : ((List.range NPROC).find? fun j =>
      (s.proc j).parent = some i ∧ (s.proc j).state = .zombie) = none := by
    rw [List.find?_eq_none]
    intro j hj
    simp only [decide_eq_true_eq, not_and]
    exact hno j (List.mem_range.mp hj)
  unfold System.wait
  rw [hnone]
  rfl

theorem copyout_sound {pt : PageTable ℕ} {dstva len : ℕ} {src : ℕ → Byte} {m : Memory}
    (hm : m.Sound) (hone : UserOnce pt) : (copyout pt dstva src len m).2.Sound := by
  obtain ⟨-, hfree, -⟩ := @copyout_spec pt dstva len src m hone
  have hframed : m.Framed ⟨m.kend, m.trampoline⟩ := ⟨rfl, rfl, fun q hq => (hm q hq).2⟩
  exact hm.of_freelist hfree (copyout_framed hframed).kend

theorem System.UserPages.userOnce (h : s.UserPages) (hc : s.cpu i = some c) : UserOnce c.table := by
  obtain ⟨-, -, hleaf⟩ := cpu_some hc
  intro v e he hu w e' he' hu' hpa
  exact h.once i v e ((hleaf v).trans he) hu w e' ((hleaf w).trans he') hu' hpa

theorem System.Settled.write_other {dstva len : ℕ} {src : ℕ → Byte} (S : s.Settled n d)
    (hs : s.UserPages) (hni : n ≠ i) (hc : s.cpu i = some c)
    (hspares : (Event.write dstva src len).Spares s n i) :
    ∃ d', (s.setMemory (copyout c.table dstva src len s.kernel.memory).2).Follows n ∅ False d d' := by
  have hone := hs.userOnce hc
  obtain ⟨hd, -, hleaf⟩ := cpu_some S.cpu
  obtain ⟨-, hfree, htramp, hother, -⟩ :=
    @copyout_spec c.table dstva len src s.kernel.memory hone
  have hsound := S.tidy.sound
  rw [hd] at hsound
  have ht : (s.setMemory (copyout c.table dstva src len s.kernel.memory).2).UserPages :=
    hs.congr (fun _ _ => rfl) hfree htramp
  have hrow : s.proc n = { s.proc n with parent := (s.proc n).parent } := rfl
  refine ⟨_, S.other ht hrow (copyout_sound hsound hone) (fun v e he => ?_) fun _ _ _ _ => rfl⟩
  exact hother _ fun a ha heq => hspares (Ne.symm hni) c hc a ha v e ((hleaf v).trans he) heq.symm

theorem System.Settled.write_self {dstva len : ℕ} {src : ℕ → Byte} (S : s.Settled n d)
    (hs : s.UserPages) :
    ∃ d', (s.setMemory (copyout d.table dstva src len s.kernel.memory).2).Follows n
      (Event.write dstva src len).stores False d d' := by
  have hone := hs.userOnce S.cpu
  obtain ⟨hd, hproc, hleaf⟩ := cpu_some S.cpu
  obtain ⟨-, hfree, htramp, hother, -⟩ :=
    @copyout_spec d.table dstva len src s.kernel.memory hone
  have hsound := S.tidy.sound
  rw [hd] at hsound
  have ht : (s.setMemory (copyout d.table dstva src len s.kernel.memory).2).UserPages :=
    hs.congr (fun _ _ => rfl) hfree htramp
  have hrow : s.proc n = { s.proc n with parent := (s.proc n).parent } := rfl
  obtain ⟨hsettled, haddrs, htracker⟩ := S.row ht hrow (copyout_sound hsound hone)
  refine ⟨_, hsettled, fun addr data haligned hnot F => ?_, fun _ => haddrs⟩
  refine F.congr rfl (fun k _ _ => congrFun htracker k) (fun k _ _ _ => congrFun htracker k)
    (fun e he hu => ?_) fun _ _ _ _ => by rw [hd]; rfl
  rw [hd]
  refine hother _ fun a ha heq => hnot ⟨a, List.takeWhile_subset _ ha, ?_⟩
  -- the page is written to through the same entry
  have hpa := List.mem_takeWhile_imp ha
  simp only [ne_eq, decide_eq_true_eq] at hpa
  obtain ⟨-, e', he', hu', hepa'⟩ := walkaddr_spec hpa
  exact hone _ e' he' hu' _ e he hu (by rw [hepa', heq])

/-- The events that spare the heap of a process keep user pages apart. -/
theorem step_spares (hs : s.UserPages)
    (hspares : (s.proc e.1).state = .live → e.2.Spares s n e.1) (hrun : s.step e = .ok t) :
    t.UserPages := by
  obtain ⟨i, e⟩ := e
  have hserves : ((s.proc i).state = .live → e.Serves s i) → t.UserPages :=
    fun h => step_user hs h hrun
  by_cases hlive : (s.proc i).state = .live
  · have hspares := hspares hlive
    cases e with
    | access a => exact hserves fun _ => hspares.1
    | sbrk bytes => exact hserves fun _ => hspares
    | fork cow => exact hserves fun _ => hspares
    | exec path argv namei => exact hspares.elim
    | write dstva src len => exact hserves fun _ => trivial
    | exit status =>
      unfold System.step at hrun
      rw [if_pos hlive] at hrun
      cases hc : s.cpu i with
      | none =>
        simp only [hc] at hrun
        cases hrun
      | some c =>
        simp only [hc] at hrun
        obtain ⟨hmem, -, hleaf, -⟩ := exit_cases hrun
        exact hs.congr hleaf (by rw [hmem]) (by rw [hmem])
    | wait addr =>
      unfold System.step at hrun
      rw [if_pos hlive] at hrun
      cases hc : s.cpu i with
      | none =>
        simp only [hc] at hrun
        cases hrun
      | some c =>
        simp only [hc] at hrun
        cases (wait_none hspares).symm.trans hrun
        exact hs
  · exact hserves fun h => absurd h hlive

/-- What a step that spares the heap of a process leaves of it. -/
theorem step_follows (S : s.Settled n d) (hs : s.UserPages)
    (hspares : (s.proc e.1).state = .live → e.2.Spares s n e.1) (hrun : s.step e = .ok t) :
    ∃ d', t.Follows n {v | e.1 = n ∧ v ∈ e.2.stores} (e.1 = n ∧ ∃ bytes, e.2 = .sbrk bytes)
      d d' := by
  have ht := step_spares hs hspares hrun
  obtain ⟨i, e⟩ := e
  have hquiet : (∃ d', t.Follows n ∅ False d d') → ∃ d', t.Follows n
      {v | i = n ∧ v ∈ e.stores} (i = n ∧ ∃ bytes, e = .sbrk bytes) d d' :=
    fun ⟨d', h⟩ => ⟨d', h.mono (Set.empty_subset _) False.elim⟩
  unfold System.step at hrun
  split_ifs at hrun with hlive
  · have hspares := hspares hlive
    cases hc : s.cpu i with
    | none =>
      simp only [hc] at hrun
      cases hrun
    | some c =>
      simp only [hc] at hrun
      cases e with
      | access a =>
        obtain ⟨⟨value, c'⟩, haccess, hrun⟩ := bind_ok_iff.mp hrun
        cases hrun
        by_cases hni : i = n
        · subst hni
          cases S.cpu.symm.trans hc
          obtain ⟨d', h⟩ := S.access_self hs hspares haccess
          exact ⟨d', h.mono (fun v hv => ⟨rfl, hv⟩) False.elim⟩
        · exact hquiet (S.access_other hs ht (Ne.symm hni) hc hspares haccess)
      | sbrk bytes =>
        obtain ⟨⟨ok, c'⟩, hgrow, hrun⟩ := bind_ok_iff.mp hrun
        cases hrun
        by_cases hni : i = n
        · subst hni
          cases S.cpu.symm.trans hc
          obtain ⟨d', h⟩ := S.sbrk_self hgrow
          exact ⟨d', h.mono (Set.empty_subset _) fun _ => ⟨rfl, bytes, rfl⟩⟩
        · obtain rfl := hspares.2 c ok c' hc hgrow
          exact hquiet (S.sbrk_other hs ht (Ne.symm hni) hc hspares.1 hgrow)
      | fork cow => exact hquiet (S.fork hs hlive hspares hrun)
      | exec path argv namei => exact hspares.elim
      | exit status =>
        obtain ⟨hmem, hdisk, -, hrow⟩ := exit_cases hrun
        obtain ⟨par, hpar⟩ := hrow n (Ne.symm hspares)
        have hsound := S.tidy.sound
        rw [(cpu_some S.cpu).1, ← hmem] at hsound
        exact hquiet ⟨_, S.other ht hpar hsound (fun v e _ => by rw [hmem])
          fun b _ j _ => by rw [hdisk]⟩
      | wait addr =>
        cases (wait_none hspares).symm.trans hrun
        exact hquiet ⟨d, S.refl⟩
      | write dstva src len =>
        cases hrun
        by_cases hni : i = n
        · subst hni
          cases S.cpu.symm.trans hc
          obtain ⟨d', h⟩ := @System.Settled.write_self s i d dstva len src S hs
          exact ⟨d', h.mono (fun v hv => ⟨rfl, hv⟩) False.elim⟩
        · exact hquiet (S.write_other hs (Ne.symm hni) hc hspares)
  · cases hrun
    exact hquiet ⟨d, S.refl⟩

end Events

section Runs

variable {s t u : System} {i n : ℕ} {cow : Bool} {c d d' d'' : Cpu} {es : List (ℕ × Event)}
  {stored stored' : Set ℕ} {grows grows' : Prop}

theorem System.Follows.trans (h : t.Follows n stored grows d d')
    (h' : u.Follows n stored' grows' d' d'') :
    u.Follows n (stored ∪ stored') (grows ∨ grows') d d'' where
  toSettled := h'.toSettled
  finds := by
    intro addr data haligned hnot F
    refine h'.finds addr data haligned (fun hin => hnot (Or.inr hin)) ?_
    exact h.finds addr data haligned (fun hin => hnot (Or.inl hin)) F
  addrs := by
    intro hno
    exact (h.addrs fun hgr => hno (Or.inl hgr)).trans (h'.addrs fun hgr => hno (Or.inr hgr))

/-- The events of the run spare the heap of the process. -/
def SparingRun (s : System) (n : ℕ) (es : List (ℕ × Event)) : Prop :=
  Guarded System.step (fun s e => (s.proc e.1).state = .live → e.2.Spares s n e.1) s es

/-- What a run that spares the heap of a process leaves of it. -/
theorem run_follows (S : t.Settled n d) (ht : t.UserPages) (hes : SparingRun t n es)
    (hrun : exec System.step t es = .ok u) :
    ∃ d', u.Follows n (storedPages n es) (∃ bytes, (n, Event.sbrk bytes) ∈ es) d d' := by
  induction es generalizing t d with
  | nil =>
    cases hrun
    exact ⟨d, S.refl.mono (Set.empty_subset _) False.elim⟩
  | cons e es ih =>
    obtain ⟨t₁, hstep, hrun⟩ := bind_ok_iff.mp hrun
    obtain ⟨d₁, h₁⟩ := step_follows S ht hes.1 hstep
    obtain ⟨d', h'⟩ := ih h₁.toSettled (step_spares ht hes.1 hstep) (hes.2 t₁ hstep) hrun
    refine ⟨d', (h₁.trans h').mono ?_ ?_⟩
    · rintro v (⟨hn, hv⟩ | ⟨e', he', hn, hv⟩)
      · exact ⟨e, List.mem_cons_self, hn, hv⟩
      · exact ⟨e', List.mem_cons_of_mem _ he', hn, hv⟩
    · rintro (⟨hn, bytes, hbytes⟩ | ⟨bytes, hin⟩)
      · refine ⟨bytes, ?_⟩
        rw [← hn, ← hbytes]
        exact List.mem_cons_self
      · exact ⟨bytes, List.mem_cons_of_mem _ hin⟩

/-- A child finds the pages it can inherit. -/
theorem ChildOf.finds {last : Proc} {addr : ℕ} (C : ChildOf c d last)
    (hread : ∀ v e, c.table.leaf v = some e → e.r = true) (haligned : addr % PGSIZE = 0)
    (h : Inheritable c last.heapTracker addr) : d.Finds addr (heapContents c addr) := by
  have hnone : addr < TRAPFRAME → c.table.leaf (vpn addr) = none →
      d.table.leaf (vpn addr) = none := by
    intro hbelow hno
    rw [← Option.not_isSome_iff_eq_none]
    intro hsome
    obtain ⟨e', he'⟩ := Option.isSome_iff_exists.mp hsome
    rcases C.only _ e' he' with hparent | hv | hv
    · rw [hno] at hparent
      cases hparent
    · simp only [vpn, TRAPFRAME, TRAMPOLINE, MAXVA, PGSIZE] at *
      omega
    · simp only [vpn, TRAPFRAME, TRAMPOLINE, MAXVA, PGSIZE] at *
      omega
  unfold heapContents
  cases h with
  | copied e below leaf user size off =>
    have hsize : PGSIZE * vpn addr < c.proc.sz := by
      simp only [vpn, PGSIZE] at *
      omega
    obtain ⟨e', he', hu, hr⟩ := C.mapped _ e leaf hsize
    obtain ⟨e₀, he₀, -, hpage⟩ := C.page _ e' he' (hu.trans user)
    obtain rfl := Option.some.inj (leaf.symm.trans he₀)
    rw [leaf]
    refine .mapped e' ?_ he' (hu.trans user) (hr.trans (hread _ e leaf)) (C.tracker ▸ off)
      fun j _ => by rw [hpage]
    simp only [TRAPFRAME, TRAMPOLINE, MAXVA, PGSIZE] at *
    omega
  | untouched below leaf blank tracked off =>
    refine .untouched (hnone below leaf) (C.tracker ▸ tracked) (C.tracker ▸ off) fun j _ => ?_
    rw [leaf]
    cases hk : pageIndex c.proc.heapTracker addr with
    | none => rfl
    | some k => simp [blank k hk]
  | swapped k b below leaf index block on =>
    refine .swapped b (hnone below leaf) (C.tracker ▸ on) fun j _ => ?_
    unfold HeapPage.block at block
    split_ifs at block with hloaded
    rw [leaf, index, C.disk]
    simp [hloaded, block]

theorem ChildOf.settled {last : Proc} (C : ChildOf c d last) (hcpu : t.cpu n = some d)
    (hlive : (t.proc n).state = .live) (hond : c.proc.ondemand = true) : t.Settled n d :=
  ⟨hcpu, hlive, C.tidy, C.ondemand.trans hond, C.readable⟩

theorem fork_cpu {cow : Bool} (H : Forker s i c) (hslot : s.freeSlot = some n)
    (hfork : s.fork i cow = .ok t) (hlive : (t.proc n).state = .live) : (t.cpu n).isSome := by
  have hforks : Forks s i cow := by
    intro n' t' hn ht
    cases hslot.symm.trans hn
    cases hfork.symm.trans ht
    exact hlive
  rcases fork_cases H.live hforks hfork with
    ⟨hnone, -⟩ | ⟨k, np, pg, s₁, trapframe, m₀, m, parent, -, -, A, hcase⟩
  · cases hnone.symm.trans hslot
  · obtain rfl : n = k := Option.some.inj (hslot.symm.trans A.slot)
    rcases hcase with ⟨-, copy, groups, F⟩ | ⟨-, m', table, F⟩ <;>
      · rw [F.system]
        simp [System.cpu, System.startChild, System.setProc]

/-- In every state that a run reaches after a fork, if its events spare the heap of the child, a
load of the child from a page that it could inherit and that it has not stored to returns what
the parent had there; and its `sbrk` does what that of the parent would do, if and only if the
slot's tracker has the same entries free. -/
theorem child_inherits (H : Forker s i c) (hs : s.UserPages) (hslot : s.freeSlot = some n)
    (hfork : s.fork i cow = .ok t) (hlive : (t.proc n).state = .live) (hes : SparingRun t n es)
    (hrun : exec System.step t es = .ok u) :
    ∃ d, u.cpu n = some d ∧
    (∀ a, HeapLoad c a → Inheritable c (s.proc n).heapTracker a.pageAddr →
      vpn a.va ∉ storedPages n es → (Event.access a).Spares u n n →
      ∃ d', access a d = .ok (some (heapContents c a.pageAddr (a.va % PGSIZE)), d')) ∧
    ((∀ bytes, (n, Event.sbrk bytes) ∉ es) → (SameGrowth (c.withSz d.proc.sz) d ↔
      SameFree (s.proc i).heapTracker (s.proc n).heapTracker)) := by
  have hforks : Forks s i cow := by
    intro n' t' hn ht
    cases hslot.symm.trans hn
    cases hfork.symm.trans ht
    exact hlive
  have ht := fork_user hs H.live hforks hfork
  obtain ⟨d₀, hd₀⟩ := Option.isSome_iff_exists.mp (fork_cpu H hslot hfork hlive)
  have C := fork_child H hslot hfork hlive hd₀
  obtain ⟨d, F⟩ := run_follows (C.settled hd₀ hlive H.ondemand) ht hes hrun
  obtain ⟨hkernel, hproc, -⟩ := cpu_some F.cpu
  refine ⟨d, F.cpu, fun a ha hinh hnot hspares => ?_, fun hno => ?_⟩
  · have haligned := pageAddr_aligned a
    obtain ⟨-, hspared, hfetch⟩ := hspares
    have hfinds := F.finds _ _ haligned (by rwa [vpn_pageAddr]) (C.finds H.readable haligned hinh)
    refine hfinds.load F.tidy ha.op ha.va fun hnone k hk => ⟨hfetch rfl d F.cpu hnone k hk, ?_⟩
    intro hfull
    rw [hproc, hkernel]
    exact hspared ⟨d, F.cpu, hnone, by rw [hk]; rfl, hfull⟩
  · -- without `sbrk` the tracker of the child has the addresses that the slot's had
    have hkept := F.addrs fun ⟨bytes, hin⟩ => hno bytes hin
    have haligned : d.proc.sz % PGSIZE = 0 := hkept.aligned (by rw [C.sz]; exact H.aligned)
    have hsame := sameGrowth_iff (c := c.withSz d.proc.sz) H.ondemand F.ondemand rfl haligned
    rw [hsame, (cpu_some H.cpu).2.1.symm]
    unfold SameFree
    simp only [hkept.addr, C.tracker]
    exact Iff.rfl

end Runs

section Sample

/-- A process that has grown its heap by a page, which it has not touched. -/
def heapProc : Proc :=
  { sampleProc 0 with heapTracker := Function.update (fun _ => .clear) 0 (.tracked (PGSIZE * 2)) }

/-- The process and the slots of the other processes, with a tracker left in them. -/
def heapSystem (tracker : ℕ → HeapPage) : System where
  kernel := sampleKernel 20
  proc i := if i = 0 then heapProc else { blankProc with heapTracker := tracker }
  nextpid := 2
  initproc := 0

def heapCpu : Cpu := ⟨sampleKernel 20, heapProc, sampleTable 0⟩

variable {tracker : ℕ → HeapPage}

theorem heapSystem_leaf (i v : ℕ) : (heapSystem tracker).leaf i v = sampleSystem.leaf i v := by
  simp only [System.leaf, heapSystem, sampleSystem]
  split_ifs <;> rfl

theorem heapSystem_user : (heapSystem tracker).UserPages :=
  sampleSystem_freshUser.userPages.congr heapSystem_leaf rfl rfl

theorem heapSystem_forker : Forker (heapSystem tracker) 0 heapCpu where
  live := rfl
  cpu := rfl
  ondemand := rfl
  tidy :=
    { sz := by decide
      wf := sampleTable_wf (by decide)
      frames := sampleTable_frames 0
      used := fun v e he => sampleSystem_fresh.mapped 0 v e he
      sound := sampleKernel_sound 20 (by decide)
      nodup := (sampleKernel_supplies 20).nodup }
  aligned := by decide
  readable := by
    intro v e he
    simp only [heapCpu, sampleTable] at he
    split_ifs at he <;>
      · cases he
        rfl
  trampoline_ne := by
    show PGSIZE * 524291 ≠ 0
    decide
  trampoline_used := sampleSystem_fresh.kernel

theorem heapSystem_slot : (heapSystem tracker).freeSlot = some 1 := by
  rfl

theorem sampleLoad_heapLoad : HeapLoad heapCpu (sampleLoad 2) where
  op := rfl
  va := by decide
  tracked := by
    unfold pageIndex
    rw [List.find?_isSome]
    exact ⟨0, by simp, by simp [heapCpu, heapProc, HeapPage.tracked]⟩

theorem sampleLoad_inheritable :
    Inheritable heapCpu heapProc.heapTracker (sampleLoad 2).pageAddr := by
  have hblank : ∀ k, (heapProc.heapTracker k).loaded = false := by
    intro k
    simp only [heapProc, Function.update_apply]
    split_ifs <;> rfl
  rw [sampleLoad_pageAddr]
  refine .untouched (by decide) ?_ (fun k _ => hblank k) ?_ fun k _ _ => hblank k
  · rw [vpn_mul]
    rfl
  · exact pageIndex_isSome.mpr ⟨0, by decide, rfl⟩

section Fetch

variable {d : Cpu} {k : ℕ} (hres : d.proc.residentHeapPages = 0)
  (hblank : ∀ k < MAXHEAP, (d.proc.heapTracker k).loaded = false)

include hres

theorem not_crowded : ¬ Crowded d := by
  rw [Crowded, hres]
  decide

theorem roomTracker_same : roomTracker d = d.proc.heapTracker := by
  rw [roomTracker, evictee, if_neg (not_crowded hres)]

include hblank

theorem sampleLoad_served : SwapInServed (sampleLoad 2) d := by
  intro k c₁ hk hroom hloaded
  rw [makeRoom, if_neg (show ¬ d.proc.residentHeapPages = MAXRESHEAP from not_crowded hres)]
    at hroom
  cases hroom
  rw [hblank k (pageIndex_some hk).1] at hloaded
  cases hloaded

/-- The first load from the page fetches it. -/
theorem sampleLoad_fetches (hsz : d.proc.sz = PGSIZE * 2) (hleaf : d.table.leaf 2 = none)
    (hfree : 3 ≤ d.kernel.memory.freelist.length) (hk : k < MAXHEAP) :
    Fetches (sampleLoad 2) d k := by
  have hev : evictee d = none := if_neg (not_crowded hres)
  have htable : roomTable d = d.table := by rw [roomTable, hev]
  have hfreed : roomFree d = d.kernel.memory.freelist.length := by
    rw [roomFree, if_neg (not_crowded hres), Nat.sub_zero]
  have hloaded : ¬ (roomTracker d k).loaded = true := by
    rw [roomTracker_same hres, hblank k hk]
    decide
  have hmaps : AllocMaps (roomTable d) (PGSIZE * 2) (roomFree d) := by
    refine ⟨by decide, ?_, ?_⟩
    · rw [htable, Mapped, vpn_mul, hleaf]
      decide
    · have hle : missingTables (roomTable d) (PGSIZE * 2) ≤ 2 := by
        unfold missingTables
        split_ifs <;> omega
      omega
  have hup : pgroundup d.proc.sz = PGSIZE * 2 := by
    rw [hsz]
    decide
  refine ⟨⟨fun hfull => absurd hfull (not_crowded hres), ?_⟩, ⟨by decide, ?_⟩, fun v hv => ?_, ?_⟩
  · rw [if_neg hloaded, hup]
    exact Or.inr hmaps.returns
  · rw [if_neg hloaded, sampleLoad_pageAddr, hup, hsz]
    exact ⟨by decide, rfl, hmaps⟩
  · rw [hev] at hv
    cases hv
  · intro j hj _ hl
    rw [roomTracker_same hres, hblank j hj] at hl
    cases hl

end Fetch

/-- The parent forks and then loads from the page. -/
def heapRun : Except Panic (System × System) := do
  let t ← (heapSystem heapProc.heapTracker).fork 0 false
  let u ← exec System.step t [(0, .access (sampleLoad 2))]
  return (t, u)

theorem heapRun_states : ∃ t u d, (heapSystem heapProc.heapTracker).fork 0 false = .ok t ∧
    exec System.step t [(0, .access (sampleLoad 2))] = .ok u ∧ (t.proc 1).state = .live ∧
    (t.proc 0).residentHeapPages = 0 ∧ (∀ k < MAXHEAP, ((t.proc 0).heapTracker k).loaded = false) ∧
    u.cpu 1 = some d ∧ d.proc.residentHeapPages = 0 ∧ d.proc.sz = PGSIZE * 2 ∧
    (∀ k < MAXHEAP, (d.proc.heapTracker k).loaded = false) ∧ d.table.leaf 2 = none ∧
    3 ≤ d.kernel.memory.freelist.length := by
  have hall : heapRun.toOption.any (fun (t, u) => (t.proc 1).state = .live ∧
      (t.proc 0).residentHeapPages = 0 ∧
      (∀ k < MAXHEAP, ((t.proc 0).heapTracker k).loaded = false) ∧
      (u.cpu 1).any fun d => d.proc.residentHeapPages = 0 ∧ d.proc.sz = PGSIZE * 2 ∧
        (∀ k < MAXHEAP, (d.proc.heapTracker k).loaded = false) ∧ d.table.leaf 2 = none ∧
        3 ≤ d.kernel.memory.freelist.length) = true := by
    decide +kernel
  unfold heapRun at hall
  cases hfork : (heapSystem heapProc.heapTracker).fork 0 false with
  | error e =>
    rw [hfork] at hall
    cases hall
  | ok t =>
    rw [hfork, ok_bind] at hall
    cases hrun : exec System.step t [(0, .access (sampleLoad 2))] with
    | error e =>
      rw [hrun] at hall
      cases hall
    | ok u =>
      rw [hrun] at hall
      obtain ⟨hlive, hres, hblank, hany⟩ := of_decide_eq_true hall
      cases hd : u.cpu 1 with
      | none =>
        rw [hd] at hany
        cases hany
      | some d =>
        rw [hd] at hany
        obtain ⟨h₁, h₂, h₃, h₄, h₅⟩ := of_decide_eq_true hany
        exact ⟨t, u, d, rfl, hrun, hlive, hres, hblank, hd, h₁, h₂, h₃, h₄, h₅⟩

theorem pageFaultHandler_untracked {a : Access} {d : Cpu} (hop : a.op = .load)
    (hk : pageIndex d.proc.heapTracker a.pageAddr = none) (hnamei : a.namei d.proc.name = none) :
    pageFaultHandler a.trap d = .error "File not Found\n" := by
  have hcow : cowFault a.trap d = .ok false := cowFault_false (by simp [hop])
  unfold pageFaultHandler
  rw [trap_alignedAddr, hk]
  simp only [hcow]
  rw [ok_bind]
  unfold loadFromFile
  simp only [trap_namei, hnamei, Bool.false_eq_true, ↓reduceIte]

/-- The tracker in the child's slot has an entry for the page. The parent loads from it first. -/
theorem sample_child_inherits : ∃ t u d, (heapSystem heapProc.heapTracker).fork 0 false = .ok t ∧
    exec System.step t [(0, .access (sampleLoad 2))] = .ok u ∧ u.cpu 1 = some d ∧
    (∃ d', access (sampleLoad 2) d =
      .ok (some (heapContents heapCpu (sampleLoad 2).pageAddr ((sampleLoad 2).va % PGSIZE)), d')) ∧
    (SameGrowth (heapCpu.withSz d.proc.sz) d ↔
      SameFree ((heapSystem heapProc.heapTracker).proc 0).heapTracker
        ((heapSystem heapProc.heapTracker).proc 1).heapTracker) := by
  obtain ⟨t, u, d, hfork, hrun, hlive, hres, hblank, hd, hres', hsz, hblank', hleaf, hfree⟩ :=
    heapRun_states
  have hproc : ∀ c, t.cpu 0 = some c → c.proc = t.proc 0 := fun c hc => (cpu_some hc).2.1
  have hes : SparingRun t 1 [(0, .access (sampleLoad 2))] := by
    refine ⟨fun _ => ⟨⟨by decide, fun c hc _ => ?_⟩, ?_, fun h => absurd h (by decide)⟩,
      fun _ _ => trivial⟩
    · exact sampleLoad_served (by rw [hproc c hc]; exact hres) (by rw [hproc c hc]; exact hblank)
    · rintro ⟨c, hc, -, -, hfull⟩
      exact absurd hfull (not_crowded (by rw [hproc c hc]; exact hres))
  have hspares : (Event.access (sampleLoad 2)).Spares u 1 1 := by
    refine ⟨⟨by decide, fun c hc _ => ?_⟩, ?_, fun _ c hc _ k hk => ?_⟩
    · cases hd.symm.trans hc
      exact sampleLoad_served hres' hblank'
    · rintro ⟨c, hc, -, -, hfull⟩
      cases hd.symm.trans hc
      exact absurd hfull (not_crowded hres')
    · cases hd.symm.trans hc
      exact sampleLoad_fetches hres' hblank' hsz hleaf hfree (pageIndex_some hk).1
  obtain ⟨d', hd', hloads, hgrowth⟩ := child_inherits heapSystem_forker heapSystem_user
    heapSystem_slot hfork hlive hes hrun
  cases hd.symm.trans hd'
  refine ⟨t, u, d, hfork, hrun, hd, ?_, hgrowth ?_⟩
  · refine hloads _ sampleLoad_heapLoad sampleLoad_inheritable ?_ hspares
    rintro ⟨e, he, hn, -⟩
    cases List.mem_singleton.mp he
    cases hn
  · intro bytes hin
    cases List.mem_singleton.mp hin

/-- In a slot that no process has used, the child neither finds the page of the heap nor can
it grow its heap. -/
theorem child_loses_heap : ∃ t d, (heapSystem fun _ => .zero).fork 0 false = .ok t ∧
    (t.proc 1).state = .live ∧ t.cpu 1 = some d ∧ HeapLoad heapCpu (sampleLoad 2) ∧
    access (sampleLoad 2) d = .error "File not Found\n" ∧ ¬ SameGrowth heapCpu d := by
  have hall : ((heapSystem fun _ => .zero).fork 0 false).toOption.any (fun t =>
      (t.proc 1).state = .live ∧ (t.cpu 1).isSome) = true := by decide +kernel
  cases hfork : (heapSystem fun _ => .zero).fork 0 false with
  | error e =>
    rw [hfork] at hall
    cases hall
  | ok t =>
    rw [hfork] at hall
    obtain ⟨hlive, hsome⟩ := of_decide_eq_true hall
    obtain ⟨d, hd⟩ := Option.isSome_iff_exists.mp hsome
    have C := fork_child heapSystem_forker heapSystem_slot hfork hlive hd
    refine ⟨t, d, rfl, hlive, hd, sampleLoad_heapLoad, ?_, fun h => ?_⟩
    · have hleaf : d.table.leaf 2 = none := by
        cases he : d.table.leaf 2 with
        | none => rfl
        | some e => rcases C.only _ e he with h | h | h <;> exact absurd h (by decide)
      have htr := translate_unmapped (sampleLoad_pageAddr 2) hleaf
      have hindex : pageIndex d.proc.heapTracker (sampleLoad 2).pageAddr = none := by
        rw [C.tracker, sampleLoad_pageAddr]
        exact pageIndex_of_ne fun k => show HeapPage.zero.addr ≠ PGSIZE * 2 by decide
      unfold access
      rw [attempt_none.mpr htr, pageFaultHandler_untracked rfl hindex rfl]
      rfl
    · have hsame := (sameGrowth_iff rfl (C.ondemand.trans rfl) C.sz (by decide)).mp h 1 (by decide)
      rw [C.tracker] at hsame
      exact absurd (hsame.mp rfl) (by decide)

end Sample

end AdvancedOperatingSystems.DemandPaging
