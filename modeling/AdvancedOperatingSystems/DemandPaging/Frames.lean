import AdvancedOperatingSystems.DemandPaging.Forking
import AdvancedOperatingSystems.DemandPaging.Populate

/-!
# Frames

The pages of the allocator, of the page tables and of the processes are pages that `kfree`
accepts, but for the trampoline. This holds however often a page is freed or shared.
-/

namespace AdvancedOperatingSystems.DemandPaging

open Foundations Riscv Riscv.PageTable

/-- Where the image of the kernel ends, and its page `trampoline`. -/
structure Layout where
  kend : ℕ
  trampoline : ℕ

/-- A page that `kfree` accepts. -/
def Layout.Frame (L : Layout) (q : ℕ) : Prop := q % PGSIZE = 0 ∧ L.kend ≤ q ∧ q < PHYSTOP

def Layout.Entry (L : Layout) (e : Pte) : Prop :=
  e.r = true ∧ (L.Frame e.pa ∨ e.pa = L.trampoline)

structure Memory.Framed (L : Layout) (m : Memory) : Prop where
  kend : m.kend = L.kend
  trampoline : m.trampoline = L.trampoline
  free : ∀ q ∈ m.freelist, L.Frame q

structure FramedTable (L : Layout) (pt : PageTable ℕ) : Prop where
  wf : pt.Wf
  leaf : ∀ v e, pt.leaf v = some e → L.Entry e
  mid : ∀ i t, pt.mid i = some t → L.Frame t
  low : ∀ i t, pt.low i = some t → L.Frame t

/-- Memory and a page table whose pages are frames. -/
structure FramedSpace (L : Layout) (s : Space) : Prop where
  memory : s.1.Framed L
  table : FramedTable L s.2

section Memory

variable {L : Layout} {m m' : Memory} {q : ℕ} {e : Pte}

theorem Layout.Entry.grants (h : L.Entry e) : e.onlyValid = false := by
  unfold Pte.onlyValid
  rw [h.1]
  rfl

theorem Layout.Entry.readOnly (h : L.Entry e) : L.Entry (readOnly e) := h

theorem Memory.Framed.kalloc (h : m.Framed L) (hk : m.kalloc = some (q, m')) :
    L.Frame q ∧ m'.Framed L := by
  cases hl : m.freelist with
  | nil =>
    rw [Memory.kalloc_none.mpr hl] at hk
    cases hk
  | cons r rest =>
    rw [Memory.kalloc_cons hl] at hk
    cases hk
    have hfree := h.free
    rw [hl] at hfree
    exact ⟨hfree _ List.mem_cons_self, h.kend, h.trampoline,
      fun p hp => hfree p (List.mem_cons_of_mem _ hp)⟩

theorem Memory.Framed.write (h : m.Framed L) (pa : ℕ) (data : Page) : (m.write pa data).Framed L :=
  ⟨h.kend, h.trampoline, h.free⟩

theorem Memory.Framed.memset (h : m.Framed L) (pa : ℕ) (c : Byte) : (m.memset pa c).Framed L :=
  h.write pa _

theorem Memory.Framed.kfree (h : m.Framed L) (hk : m.kfree q = .ok m') : m'.Framed L := by
  unfold Memory.kfree at hk
  split_ifs at hk with hcond
  cases hk
  refine ⟨h.kend, h.trampoline, fun p hp => ?_⟩
  rcases List.mem_cons.mp hp with rfl | hp
  · rw [h.kend] at hcond
    push Not at hcond
    exact hcond
  · exact h.free p hp

theorem Memory.Framed.kfree_returns (h : m.Framed L) (hq : L.Frame q) : ∃ m', m.kfree q = .ok m' := by
  obtain ⟨halign, hlow, hhigh⟩ := hq
  have hcond : ¬ (q % PGSIZE ≠ 0 ∨ q < m.kend ∨ PHYSTOP ≤ q) := by
    rw [h.kend]
    push Not
    exact ⟨halign, hlow, hhigh⟩
  unfold Memory.kfree
  rw [if_neg hcond]
  exact ⟨_, rfl⟩

end Memory

section Vm

variable {L : Layout} {r : Running} {m m' : Memory} {pt pt' : PageTable ℕ} {s s' : Space}
  {va a : ℕ} {e : Pte}

theorem tablePage_framed {slot : Option ℕ} {t : ℕ} (hm : m.Framed L)
    (hslot : ∀ t, slot = some t → L.Frame t) (h : tablePage slot m = some (t, m')) :
    L.Frame t ∧ m'.Framed L := by
  cases slot with
  | some t' =>
    cases h
    exact ⟨hslot _ rfl, hm⟩
  | none =>
    obtain ⟨⟨p, m₁⟩, hk, h⟩ := Option.map_eq_some_iff.mp h
    cases h
    obtain ⟨hp, hm₁⟩ := hm.kalloc hk
    exact ⟨hp, hm₁.memset _ _⟩

theorem walkAlloc_framed {found : Bool} (h : FramedSpace L s) (hrun : walkAlloc va s = .ok (found, s')) :
    FramedSpace L s' ∧ s'.2.leaf = s.2.leaf ∧ (found = true → (s'.2.low (lowIndex va)).isSome) := by
  obtain ⟨m, pt⟩ := s
  obtain ⟨m', pt'⟩ := s'
  obtain ⟨-, -, hleaf, hwf, hfound⟩ := walkAlloc_ok h.table.wf hrun
  refine ⟨?_, hleaf, hfound⟩
  unfold walkAlloc at hrun
  simp only at hrun
  split_ifs at hrun
  cases h₁ : tablePage (pt.mid (midIndex va)) m with
  | none =>
    rw [h₁] at hrun
    cases hrun
    exact h
  | some q =>
    obtain ⟨t, m₁⟩ := q
    obtain ⟨ht, hm₁⟩ := tablePage_framed h.memory (h.table.mid _) h₁
    have hmid : ∀ i u, Function.update pt.mid (midIndex va) (some t) i = some u → L.Frame u := by
      intro i u hu
      by_cases hi : i = midIndex va
      · rw [hi, Function.update_self] at hu
        cases hu
        exact ht
      · rw [Function.update_of_ne hi] at hu
        exact h.table.mid i u hu
    simp only [h₁] at hrun
    cases h₂ : tablePage (pt.low (lowIndex va)) m₁ with
    | none =>
      rw [h₂] at hrun
      cases hrun
      exact ⟨hm₁, hwf, h.table.leaf, hmid, h.table.low⟩
    | some q =>
      obtain ⟨t', m₂⟩ := q
      obtain ⟨ht', hm₂⟩ := tablePage_framed hm₁ (h.table.low _) h₂
      rw [h₂] at hrun
      cases hrun
      refine ⟨hm₂, hwf, h.table.leaf, hmid, fun i u hu => ?_⟩
      change Function.update pt.low (lowIndex va) (some t') i = some u at hu
      by_cases hi : i = lowIndex va
      · rw [hi, Function.update_self] at hu
        cases hu
        exact ht'
      · rw [Function.update_of_ne hi] at hu
        exact h.table.low i u hu

theorem FramedTable.map (h : FramedTable L pt) (he : L.Entry e) (hlow : (pt.low (lowIndex va)).isSome) :
    FramedTable L (pt.set va (some e)) where
  wf := wf_setLeaf h.wf hlow he.grants
  leaf := by
    intro v f hf
    by_cases hv : v = vpn va
    · rw [hv, set_leaf, Function.update_self] at hf
      cases hf
      exact he
    · rw [set_leaf, Function.update_of_ne hv] at hf
      exact h.leaf v f hf
  mid := h.mid
  low := h.low

theorem FramedTable.clear (h : FramedTable L pt) (va : ℕ) : FramedTable L (pt.set va none) where
  wf := h.wf.clear va
  leaf := by
    intro v f hf
    by_cases hv : v = vpn va
    · rw [hv, set_leaf, Function.update_self] at hf
      cases hf
    · rw [set_leaf, Function.update_of_ne hv] at hf
      exact h.leaf v f hf
  mid := h.mid
  low := h.low

theorem mappages_framed {ok : Bool} (h : FramedSpace L s) (he : L.Entry e)
    (hrun : mappages va e s = .ok (ok, s')) : FramedSpace L s' := by
  obtain ⟨⟨found, m₁, pt₁⟩, hwalk, hrun⟩ := bind_ok_iff.mp hrun
  obtain ⟨h₁, -, hlow⟩ := walkAlloc_framed h hwalk
  cases found with
  | false =>
    cases hrun
    exact h₁
  | true =>
    simp only [Bool.not_true, Bool.false_eq_true, ↓reduceIte] at hrun
    split_ifs at hrun
    cases hrun
    exact ⟨h₁.memory, h₁.table.map he (hlow rfl)⟩

theorem unmapPage_framed {doFree : Bool} (h : FramedSpace L s) (hrun : unmapPage r doFree s a = .ok s') :
    FramedSpace L s' := by
  obtain ⟨slot, -, hrun⟩ := bind_ok_iff.mp hrun
  rcases slot with _ | _ | e
  · cases hrun
  · cases hrun
    exact h
  · simp only at hrun
    split_ifs at hrun
    · obtain ⟨free, -, hrun⟩ := bind_ok_iff.mp hrun
      cases free with
      | false =>
        cases hrun
        exact ⟨h.memory, h.table.clear a⟩
      | true =>
        obtain ⟨m, hk, hrun⟩ := bind_ok_iff.mp hrun
        cases hrun
        have hm := h.memory.kfree hk
        exact ⟨⟨hm.kend, hm.trampoline, hm.free⟩, h.table.clear a⟩
    · cases hrun
      exact ⟨h.memory, h.table.clear a⟩

theorem uvmunmap_framed {npages : ℕ} {doFree : Bool} (h : FramedSpace L s)
    (hrun : uvmunmap r va npages doFree s = .ok s') : FramedSpace L s' := by
  unfold uvmunmap at hrun
  split_ifs at hrun
  exact exec_invariant (fun _ _ _ hs hstep => unmapPage_framed hs hstep) h hrun

theorem uvmdealloc_framed {oldsz newsz sz : ℕ} (h : FramedSpace L s)
    (hrun : uvmdealloc r oldsz newsz s = .ok (sz, s')) : FramedSpace L s' := by
  unfold uvmdealloc at hrun
  split_ifs at hrun
  · cases hrun
    exact h
  · obtain ⟨s₁, hun, hrun⟩ := bind_ok_iff.mp hrun
    cases hrun
    exact uvmunmap_framed h hun
  · cases hrun
    exact h

theorem Perm.pte_entry {perm : Perm} {q : ℕ} (hq : L.Frame q) : L.Entry (perm.pte q) :=
  ⟨rfl, Or.inl hq⟩

theorem uvmallocLoop_framed {perm : Perm} {oldsz : ℕ} {as : List ℕ} {ok : Bool} (h : FramedSpace L s)
    (hrun : uvmallocLoop r perm oldsz as s = .ok (ok, s')) : FramedSpace L s' := by
  induction as generalizing s with
  | nil =>
    cases hrun
    exact h
  | cons a as ih =>
    obtain ⟨m, pt⟩ := s
    unfold uvmallocLoop at hrun
    cases hk : m.kalloc with
    | none =>
      simp only [hk] at hrun
      obtain ⟨⟨sz, s₁⟩, hdealloc, hrun⟩ := bind_ok_iff.mp hrun
      cases hrun
      exact uvmdealloc_framed h hdealloc
    | some q =>
      obtain ⟨mem, m₁⟩ := q
      obtain ⟨hmem, hm₁⟩ := h.memory.kalloc hk
      simp only [hk] at hrun
      obtain ⟨⟨ok₁, m₂, pt₂⟩, hmap, hrun⟩ := bind_ok_iff.mp hrun
      have h₁ : FramedSpace L (m₁.memset mem 0, pt) := ⟨hm₁.memset mem 0, h.table⟩
      have h₂ := mappages_framed h₁ (Perm.pte_entry hmem) hmap
      cases ok₁ with
      | true => exact ih h₂ hrun
      | false =>
        obtain ⟨m₃, hfree, hrun⟩ := bind_ok_iff.mp hrun
        obtain ⟨⟨sz, s₄⟩, hdealloc, hrun⟩ := bind_ok_iff.mp hrun
        cases hrun
        have h₃ : FramedSpace L (m₃, pt₂) := ⟨h₂.memory.kfree hfree, h₂.table⟩
        exact uvmdealloc_framed h₃ hdealloc

theorem uvmalloc_framed {oldsz newsz sz : ℕ} {perm : Perm} (h : FramedSpace L s)
    (hrun : uvmalloc r oldsz newsz perm s = .ok (sz, s')) : FramedSpace L s' := by
  unfold uvmalloc at hrun
  split_ifs at hrun
  · cases hrun
    exact h
  · obtain ⟨⟨ok, s₁⟩, hloop, hrun⟩ := bind_ok_iff.mp hrun
    cases hrun
    exact uvmallocLoop_framed h hloop

theorem copyin_framed {dst : ℕ} (h : m.Framed L) : (copyin pt dst a m).2.Framed L := by
  unfold copyin
  simp only
  split_ifs
  · exact h
  · exact h.write _ _

theorem copyout_framed {src : ℕ → Byte} {len : ℕ} (h : m.Framed L) :
    (copyout pt a src len m).2.Framed L := by
  have hloop : ∀ {as : List ℕ} {m m' : Memory}, m.Framed L →
      exec (copyoutPage pt a src len) m as = .ok m' ∨
        exec (copyoutPage pt a src len) m as = .error m' → m'.Framed L := by
    intro as
    induction as with
    | nil =>
      rintro m m' hm (hrun | hrun)
      · cases hrun
        exact hm
      · cases hrun
    | cons va0 as ih =>
      intro m m' hm hrun
      rw [exec_cons] at hrun
      unfold copyoutPage at hrun
      simp only at hrun
      split_ifs at hrun
      · rcases hrun with hrun | hrun
        · cases hrun
        · cases hrun
          exact hm
      · exact ih (hm.write _ _) hrun
  unfold copyout
  cases hexec : exec (copyoutPage pt a src len) m (bufferPages a len) with
  | ok m' => exact hloop h (Or.inl hexec)
  | error m' => exact hloop h (Or.inr hexec)

theorem loadsegLoop_framed {offset sz : ℕ} {f : File} {is : List ℕ} {ok : Bool} (h : m.Framed L)
    (hrun : loadsegLoop pt va f offset sz is m = .ok (ok, m')) : m'.Framed L := by
  induction is generalizing m with
  | nil =>
    cases hrun
    exact h
  | cons i is ih =>
    unfold loadsegLoop at hrun
    simp only at hrun
    split_ifs at hrun
    · exact ih (h.write _ _) hrun
    · cases hrun
      exact h.write _ _

theorem loadseg_framed {offset sz : ℕ} {f : File} {ok : Bool} (h : m.Framed L)
    (hrun : loadseg pt va f offset sz m = .ok (ok, m')) : m'.Framed L :=
  loadsegLoop_framed h hrun

end Vm

/-- What a function that runs for a process leaves. -/
structure Served (L : Layout) (c c' : Cpu) : Prop where
  space : FramedSpace L c'.space
  proc : SameProc c.proc c'.proc
  groups : c'.kernel.groups = c.kernel.groups

section Handler

variable {L : Layout} {c c' c'' : Cpu} {t : Trap} {a : Access}

theorem SameProc.trans {p p' p'' : Proc} (h : SameProc p p') (h' : SameProc p' p'') :
    SameProc p p'' := by
  unfold SameProc at *
  rw [h] at h'
  exact h'

theorem Served.refl (h : FramedSpace L c.space) : Served L c c := ⟨h, rfl, rfl⟩

theorem Served.trans (h : Served L c c') (h' : Served L c' c'') : Served L c c'' :=
  ⟨h'.space, h.proc.trans h'.proc, h'.groups.trans h.groups⟩

theorem Served.setSpace {s : Space} (h : Served L c c') (hs : FramedSpace L s) :
    Served L c (c'.setSpace s) := ⟨hs, h.proc, h.groups⟩

theorem evictPageToDisk_served (h : FramedSpace L c.space) (hrun : evictPageToDisk c = .ok c') :
    Served L c c' := by
  unfold evictPageToDisk at hrun
  cases hv : victimPageIndex c.proc.heapTracker with
  | none =>
    simp only [hv] at hrun
    cases hrun
  | some v =>
    simp only [hv] at hrun
    cases hk : c.kernel.memory.kalloc with
    | none =>
      simp only [hk] at hrun
      cases hrun
    | some q =>
      obtain ⟨page, m⟩ := q
      obtain ⟨-, hm⟩ := h.memory.kalloc hk
      simp only [hk] at hrun
      obtain ⟨s, hun, hrun⟩ := bind_ok_iff.mp hrun
      cases hrun
      have hspace : FramedSpace L ((copyin c.table page (c.proc.heapTracker v).addr m).2, c.table) :=
        ⟨copyin_framed hm, h.table⟩
      refine ⟨uvmunmap_framed hspace hun, rfl, ?_⟩
      simp [Cpu.setSpace, writePage_eq]

theorem makeRoom_served (h : FramedSpace L c.space) (hrun : makeRoom c = .ok c') :
    Served L c c' := by
  unfold makeRoom at hrun
  split_ifs at hrun
  · obtain ⟨c₁, hevict, hrun⟩ := bind_ok_iff.mp hrun
    cases hrun
    have H := evictPageToDisk_served h hevict
    exact ⟨H.space, H.proc.trans rfl, H.groups⟩
  · cases hrun
    exact .refl h

theorem retrieveBlock_served {addr block : ℕ} (h : FramedSpace L c.space)
    (hrun : retrieveBlock addr block c = .ok c') : Served L c c' := by
  unfold retrieveBlock at hrun
  cases hk : c.kernel.memory.kalloc with
  | none =>
    simp only [hk] at hrun
    cases hrun
  | some q =>
    obtain ⟨page, m⟩ := q
    obtain ⟨-, hm⟩ := h.memory.kalloc hk
    simp only [hk] at hrun
    obtain ⟨⟨sz, m₁, pt⟩, halloc, hrun⟩ := bind_ok_iff.mp hrun
    cases hrun
    have hspace : FramedSpace L (m.write page (readPage c.kernel.disk block), c.table) :=
      ⟨hm.write _ _, h.table⟩
    have H := uvmalloc_framed hspace halloc
    exact ⟨⟨copyout_framed H.memory, H.table⟩, rfl, rfl⟩

theorem retrievePageFromDisk_served {addr : ℕ} (h : FramedSpace L c.space)
    (hrun : retrievePageFromDisk addr c = .ok c') : Served L c c' := by
  rw [retrievePageFromDisk] at hrun
  generalize retrieveScan addr c.proc.heapTracker = scan at hrun
  obtain ⟨found, tracker⟩ := scan
  cases found with
  | none =>
    cases hrun
    exact ⟨h, rfl, rfl⟩
  | some block =>
    have H := @retrieveBlock_served L { c with proc := { c.proc with heapTracker := tracker } } c'
      addr block h hrun
    have hproc : SameProc c.proc { c.proc with heapTracker := tracker } := rfl
    exact ⟨H.space, hproc.trans H.proc, H.groups⟩

theorem growHeap_served (h : FramedSpace L c.space) (hrun : growHeap c = .ok c') :
    Served L c c' := by
  obtain ⟨⟨sz, s⟩, halloc, hrun⟩ := bind_ok_iff.mp hrun
  cases hrun
  exact ⟨uvmalloc_framed h halloc, rfl, rfl⟩

theorem heapHandle_served {addr i : ℕ} (h : FramedSpace L c.space)
    (hrun : heapHandle addr i c = .ok c') : Served L c c' := by
  obtain ⟨c₁, hroom, hrun⟩ := bind_ok_iff.mp hrun
  have H₁ := makeRoom_served h hroom
  simp only at hrun
  split_ifs at hrun
  · obtain ⟨c₂, hfetch, hrun⟩ := bind_ok_iff.mp hrun
    cases hrun
    have H := H₁.trans (retrievePageFromDisk_served H₁.space hfetch)
    exact ⟨H.space, H.proc.trans rfl, H.groups⟩
  · obtain ⟨c₂, hfetch, hrun⟩ := bind_ok_iff.mp hrun
    cases hrun
    have H := H₁.trans (growHeap_served H₁.space hfetch)
    exact ⟨H.space, H.proc.trans rfl, H.groups⟩

theorem copyOnWrite_served (h : FramedSpace L c.space) (hrun : copyOnWrite t c = .ok c') :
    Served L c c' := by
  unfold copyOnWrite at hrun
  cases hk : c.kernel.memory.kalloc with
  | none =>
    simp only [hk] at hrun
    cases hrun
  | some q =>
    obtain ⟨page, m⟩ := q
    obtain ⟨-, hm⟩ := h.memory.kalloc hk
    simp only [hk] at hrun
    have hcopied : (copyin c.table page t.alignedAddr m).2.Framed L := copyin_framed hm
    generalize copyin c.table page t.alignedAddr m = copied at hrun hcopied
    obtain ⟨ok, m₁⟩ := copied
    cases ok with
    | false => cases hrun
    | true =>
      obtain ⟨s, hun, hrun⟩ := bind_ok_iff.mp hrun
      obtain ⟨⟨sz, m₂, pt⟩, halloc, hrun⟩ := bind_ok_iff.mp hrun
      have hspace : FramedSpace L (m₁, c.table) := ⟨hcopied, h.table⟩
      have H := uvmalloc_framed (uvmunmap_framed hspace hun) halloc
      have hback : (copyout pt t.alignedAddr (m₂.page page) PGSIZE m₂).2.Framed L :=
        copyout_framed H.memory
      simp only at hrun
      generalize copyout pt t.alignedAddr (m₂.page page) PGSIZE m₂ = back at hrun hback
      obtain ⟨ok, m₃⟩ := back
      cases ok with
      | false => cases hrun
      | true =>
        obtain ⟨m₄, hfree, hrun⟩ := bind_ok_iff.mp hrun
        cases hrun
        exact ⟨⟨hback.kfree hfree, H.table⟩, rfl, rfl⟩

theorem loadFromFile_served (h : FramedSpace L c.space) (hrun : loadFromFile t c = .ok c') :
    Served L c c' := by
  unfold loadFromFile at hrun
  cases hf : t.namei c.proc.name with
  | none =>
    simp only [hf] at hrun
    cases hrun
  | some f =>
    simp only [hf] at hrun
    split_ifs at hrun
    cases hseg : findSegment f (Elfhdr.ofBytes (readi f 0 sizeofElfhdr t.elf).2) t.alignedAddr
      (List.range (Elfhdr.ofBytes (readi f 0 sizeofElfhdr t.elf).2).phnum) t.ph with
    | none =>
      simp only [hseg] at hrun
      cases hrun
      exact .refl h
    | some ph =>
      simp only [hseg] at hrun
      obtain ⟨⟨sz, m, pt⟩, halloc, hrun⟩ := bind_ok_iff.mp hrun
      simp only at hrun
      split_ifs at hrun
      obtain ⟨⟨loaded, m₁⟩, hload, hrun⟩ := bind_ok_iff.mp hrun
      simp only at hrun
      split_ifs at hrun
      cases hrun
      have H := uvmalloc_framed h halloc
      exact ⟨⟨loadseg_framed H.memory hload, H.table⟩, rfl, rfl⟩

theorem pageFaultHandler_served (h : FramedSpace L c.space)
    (hrun : pageFaultHandler t c = .ok c') : Served L c c' := by
  unfold pageFaultHandler at hrun
  cases hk : pageIndex c.proc.heapTracker t.alignedAddr with
  | some i =>
    simp only [hk] at hrun
    exact heapHandle_served h hrun
  | none =>
    simp only [hk] at hrun
    obtain ⟨cow, -, hrun⟩ := bind_ok_iff.mp hrun
    cases cow with
    | true => exact copyOnWrite_served h hrun
    | false => exact loadFromFile_served h hrun

theorem access_served {b : Option Byte} (h : FramedSpace L c.space)
    (hrun : access a c = .ok (b, c')) : Served L c c' := by
  obtain ⟨c₁, hfirst, hlast⟩ := access_cases hrun
  have H₁ : Served L c c₁ := by
    rcases hfirst with rfl | ⟨-, hhandle⟩
    · exact .refl h
    · exact pageFaultHandler_served h hhandle
  rcases hlast with rfl | ⟨b, hattempt⟩
  · exact H₁
  · rcases attempt_cases hattempt with rfl | ⟨e, data, -, -, rfl⟩
    · exact H₁
    · exact ⟨⟨H₁.space.memory.write _ _, H₁.space.table⟩, H₁.proc, H₁.groups⟩

theorem growproc_served {n : Int} {ok : Bool} (h : FramedSpace L c.space)
    (hrun : growproc n c = .ok (ok, c')) : Served L c c' := by
  unfold growproc at hrun
  split_ifs at hrun
  · simp only at hrun
    split_ifs at hrun
    · obtain ⟨⟨sz, s⟩, halloc, hrun⟩ := bind_ok_iff.mp hrun
      have H := uvmalloc_framed h halloc
      simp only at hrun
      split_ifs at hrun
      · cases hrun
        exact ⟨H, rfl, rfl⟩
      · cases hrun
        exact ⟨H, rfl, rfl⟩
    · obtain ⟨⟨sz, s⟩, hdealloc, hrun⟩ := bind_ok_iff.mp hrun
      cases hrun
      exact ⟨uvmdealloc_framed h hdealloc, rfl, rfl⟩
    · cases hrun
      exact .refl h
  · obtain ⟨tracker, -, hrun⟩ := bind_ok_iff.mp hrun
    cases hrun
    exact ⟨h, rfl, rfl⟩

end Handler

structure FramedProc (L : Layout) (p : Proc) : Prop where
  table : ∀ pg, p.pagetable = some pg → L.Frame pg.root ∧ FramedTable L pg.table
  trapframe : ∀ t, p.trapframe = some t → L.Frame t
  owns : p.pagetable.isSome → p.trapframe.isSome

structure System.Framed (L : Layout) (s : System) : Prop where
  memory : s.kernel.memory.Framed L
  proc : ∀ i, FramedProc L (s.proc i)

section Tables

variable {L : Layout} {r : Running} {m m' : Memory} {pg : Pagetable} {sz : ℕ}

theorem freewalkLow_framed {pt : PageTable ℕ} {j : ℕ} (h : m.Framed L)
    (hrun : freewalkLow pt m j = .ok m') : m'.Framed L := by
  unfold freewalkLow at hrun
  cases hlow : pt.low j with
  | none =>
    simp only [hlow] at hrun
    cases hrun
    exact h
  | some t =>
    simp only [hlow] at hrun
    split_ifs at hrun
    exact h.kfree hrun

theorem freewalkMid_framed {pt : PageTable ℕ} {i : ℕ} (h : m.Framed L)
    (hrun : freewalkMid pt m i = .ok m') : m'.Framed L := by
  unfold freewalkMid at hrun
  cases hmid : pt.mid i with
  | none =>
    simp only [hmid] at hrun
    cases hrun
    exact h
  | some t =>
    simp only [hmid] at hrun
    obtain ⟨m₁, hlow, hrun⟩ := bind_ok_iff.mp hrun
    exact (exec_invariant (fun _ _ _ hs hstep => freewalkLow_framed hs hstep) h hlow).kfree hrun

theorem freewalk_framed (h : m.Framed L) (hrun : freewalk pg m = .ok m') : m'.Framed L := by
  obtain ⟨m₁, hwalk, hrun⟩ := bind_ok_iff.mp hrun
  exact (exec_invariant (fun _ _ _ hs hstep => freewalkMid_framed hs hstep) h hwalk).kfree hrun

theorem uvmfree_framed (h : m.Framed L) (ht : FramedTable L pg.table)
    (hrun : uvmfree r pg sz m = .ok m') : m'.Framed L := by
  unfold uvmfree at hrun
  split_ifs at hrun
  · obtain ⟨⟨m₁, table⟩, hunmap, hrun⟩ := bind_ok_iff.mp hrun
    have hspace : FramedSpace L (m, pg.table) := ⟨h, ht⟩
    exact @freewalk_framed L m₁ m' ⟨pg.root, table⟩ (uvmunmap_framed hspace hunmap).memory hrun
  · obtain ⟨q, hq, hrun⟩ := bind_ok_iff.mp hrun
    cases hq
    exact @freewalk_framed L m m' ⟨pg.root, pg.table⟩ h hrun

theorem procFreepagetable_framed (h : m.Framed L) (ht : FramedTable L pg.table)
    (hrun : procFreepagetable r pg sz m = .ok m') : m'.Framed L := by
  obtain ⟨s₁, hunmap₁, hrun⟩ := bind_ok_iff.mp hrun
  obtain ⟨⟨m₂, pt₂⟩, hunmap₂, hrun⟩ := bind_ok_iff.mp hrun
  have hspace : FramedSpace L (m, pg.table) := ⟨h, ht⟩
  have H := uvmunmap_framed (uvmunmap_framed hspace hunmap₁) hunmap₂
  exact uvmfree_framed H.memory H.table hrun

theorem framedTable_empty : FramedTable L PageTable.empty where
  wf := wf_empty
  leaf := by simp [PageTable.empty]
  mid := by simp [PageTable.empty]
  low := by simp [PageTable.empty]

theorem procPagetable_framed {trapframe : ℕ} {result : Option Pagetable} (h : m.Framed L)
    (ht : L.Frame trapframe) (hrun : procPagetable r trapframe m = .ok (result, m')) :
    m'.Framed L ∧ ∀ pg, result = some pg → L.Frame pg.root ∧ FramedTable L pg.table := by
  unfold procPagetable at hrun
  cases hc : uvmcreate m with
  | none =>
    simp only [hc] at hrun
    cases hrun
    exact ⟨h, fun pg hpg => by cases hpg⟩
  | some q =>
    obtain ⟨pg₀, m₀⟩ := q
    simp only [hc] at hrun
    obtain ⟨⟨root, m₁⟩, hk, hroot⟩ := Option.map_eq_some_iff.mp hc
    cases hroot
    obtain ⟨hframe, hm₁⟩ := h.kalloc hk
    have h₀ : FramedSpace L (m₁.memset root 0, PageTable.empty) :=
      ⟨hm₁.memset root 0, framedTable_empty⟩
    have htramp : L.Entry (trampolinePte (m₁.memset root 0)) :=
      ⟨rfl, Or.inr (hm₁.memset root 0).trampoline⟩
    obtain ⟨⟨ok₁, m₂, pt₂⟩, hmap₁, hrun⟩ := bind_ok_iff.mp hrun
    have h₂ := mappages_framed h₀ htramp hmap₁
    cases ok₁ with
    | false =>
      simp only [Bool.not_false, ↓reduceIte] at hrun
      obtain ⟨m₃, hfree, hrun⟩ := bind_ok_iff.mp hrun
      cases hrun
      exact ⟨uvmfree_framed h₂.memory h₂.table hfree, fun pg hpg => by cases hpg⟩
    | true =>
      simp only [Bool.not_true, Bool.false_eq_true, ↓reduceIte] at hrun
      obtain ⟨⟨ok₂, m₃, pt₃⟩, hmap₂, hrun⟩ := bind_ok_iff.mp hrun
      have hentry : L.Entry (trapframePte trapframe) := ⟨rfl, Or.inl ht⟩
      have h₃ := mappages_framed h₂ hentry hmap₂
      cases ok₂ with
      | false =>
        simp only [Bool.not_false, ↓reduceIte] at hrun
        obtain ⟨⟨m₄, pt₄⟩, hunmap, hrun⟩ := bind_ok_iff.mp hrun
        obtain ⟨m₅, hfree, hrun⟩ := bind_ok_iff.mp hrun
        cases hrun
        have h₄ := uvmunmap_framed h₃ hunmap
        exact ⟨uvmfree_framed h₄.memory h₄.table hfree, fun pg hpg => by cases hpg⟩
      | true =>
        simp only [Bool.not_true, Bool.false_eq_true, ↓reduceIte] at hrun
        cases hrun
        refine ⟨h₃.memory, fun pg hpg => ?_⟩
        cases hpg
        exact ⟨hframe, h₃.table⟩

theorem freeproc_framed {p p' : Proc} (h : m.Framed L)
    (hp : ∀ pg, p.pagetable = some pg → FramedTable L pg.table)
    (hrun : freeproc r p m = .ok (p', m')) : m'.Framed L ∧ FramedProc L p' := by
  obtain ⟨m₁, hframe, hrun⟩ := bind_ok_iff.mp hrun
  obtain ⟨m₂, htable, hrun⟩ := bind_ok_iff.mp hrun
  have h₁ : m₁.Framed L := by
    cases ht : p.trapframe with
    | none =>
      simp only [ht] at hframe
      cases hframe
      exact h
    | some t =>
      simp only [ht] at hframe
      exact h.kfree hframe
  have h₂ : m₂.Framed L := by
    cases ht : p.pagetable with
    | none =>
      simp only [ht] at htable
      cases htable
      exact h₁
    | some pg =>
      simp only [ht] at htable
      exact procFreepagetable_framed h₁ (hp pg ht) htable
  cases hrun
  refine ⟨h₂, fun pg hpg => ?_, fun t ht => ?_, fun hpg => ?_⟩
  · cases hpg
  · cases ht
  · cases hpg

end Tables

section Copies

variable {L : Layout} {r : Running} {old : PageTable ℕ} {s s' : Space} {c c' : CowCopy}
  {is : List ℕ} {group : ℕ}

theorem uvmcopyLoop_framed {stop : Option ℕ} (hold : FramedTable L old) (h : FramedSpace L s)
    (hrun : uvmcopyLoop old is s = .ok (stop, s')) : FramedSpace L s' := by
  induction is generalizing s with
  | nil =>
    cases hrun
    exact h
  | cons i is ih =>
    obtain ⟨m, new⟩ := s
    unfold uvmcopyLoop at hrun
    obtain ⟨slot, hwalk, hrun⟩ := bind_ok_iff.mp hrun
    rcases slot with _ | _ | e
    · cases hrun
    · exact ih h hrun
    · obtain ⟨-, hleaf⟩ := walk_ok hwalk
      have he := hold.leaf _ e (hleaf _ rfl).symm
      cases hk : m.kalloc with
      | none =>
        simp only [hk] at hrun
        cases hrun
        exact h
      | some q =>
        obtain ⟨mem, m₁⟩ := q
        obtain ⟨hmem, hm₁⟩ := h.memory.kalloc hk
        simp only [hk] at hrun
        obtain ⟨⟨ok, m₂, new₂⟩, hmap, hrun⟩ := bind_ok_iff.mp hrun
        have hspace : FramedSpace L (m₁.write mem (m₁.page e.pa), new) := ⟨hm₁.write _ _, h.table⟩
        have hentry : L.Entry { e with pa := mem } := ⟨he.1, Or.inl hmem⟩
        have h₂ := mappages_framed hspace hentry hmap
        cases ok with
        | true => exact ih h₂ hrun
        | false =>
          obtain ⟨m₃, hfree, hrun⟩ := bind_ok_iff.mp hrun
          cases hrun
          exact ⟨h₂.memory.kfree hfree, h₂.table⟩

theorem uvmcopy_framed {sz : ℕ} {ok : Bool} (hold : FramedTable L old) (h : FramedSpace L s)
    (hrun : uvmcopy r old sz s = .ok (ok, s')) : FramedSpace L s' := by
  obtain ⟨⟨stop, s₁⟩, hloop, hrun⟩ := bind_ok_iff.mp hrun
  have h₁ := uvmcopyLoop_framed hold h hloop
  cases stop with
  | none =>
    cases hrun
    exact h₁
  | some i =>
    obtain ⟨s₂, hunmap, hrun⟩ := bind_ok_iff.mp hrun
    cases hrun
    exact uvmunmap_framed h₁ hunmap

/-- The tables and memory of a copy are framed. -/
structure FramedCopy (L : Layout) (c : CowCopy) : Prop where
  memory : c.memory.Framed L
  old : FramedTable L c.old
  new : FramedTable L c.new

theorem uvmcopyCowLoop_framed {stop : Option ℕ} (h : FramedCopy L c)
    (hrun : uvmcopyCowLoop group is c = .ok (stop, c')) : FramedCopy L c' := by
  induction is generalizing c with
  | nil =>
    cases hrun
    exact h
  | cons i is ih =>
    unfold uvmcopyCowLoop at hrun
    obtain ⟨slot, hwalk, hrun⟩ := bind_ok_iff.mp hrun
    rcases slot with _ | _ | e
    · cases hrun
    · exact ih h hrun
    · obtain ⟨-, hleaf⟩ := walk_ok hwalk
      have hslot := (hleaf _ rfl).symm
      have he := h.old.leaf _ e hslot
      obtain ⟨⟨ok, m₁, new₁⟩, hmap, hrun⟩ := bind_ok_iff.mp hrun
      have hspace : FramedSpace L (c.memory, c.new) := ⟨h.memory, h.new⟩
      have h₁ := mappages_framed hspace he.readOnly hmap
      cases ok with
      | false =>
        cases hrun
        exact ⟨h₁.memory, h.old, h₁.table⟩
      | true =>
        simp only [Bool.not_true, Bool.false_eq_true, ↓reduceIte] at hrun
        obtain ⟨groups, -, hrun⟩ := bind_ok_iff.mp hrun
        have hlow : (c.old.low (lowIndex i)).isSome :=
          h.old.wf.low_of_leaf _ (by rw [hslot]; rfl)
        exact ih ⟨h₁.memory, h.old.map he.readOnly hlow, h₁.table⟩ hrun

theorem uvmcopyCow_framed {sz : ℕ} {ok : Bool} (h : FramedCopy L c)
    (hrun : uvmcopyCow group sz c = .ok (ok, c')) : FramedCopy L c' := by
  obtain ⟨⟨stop, c₁⟩, hloop, hrun⟩ := bind_ok_iff.mp hrun
  have h₁ := uvmcopyCowLoop_framed h hloop
  cases stop with
  | none =>
    cases hrun
    exact h₁
  | some i =>
    obtain ⟨⟨m, new⟩, hunmap, hrun⟩ := bind_ok_iff.mp hrun
    cases hrun
    have hspace : FramedSpace L (c₁.memory, c₁.new) := ⟨h₁.memory, h₁.new⟩
    have h₂ := uvmunmap_framed hspace hunmap
    exact ⟨h₂.memory, h₁.old, h₂.table⟩

end Copies

def SameOwner (p p' : Proc) : Prop :=
  p' = { p with name := p'.name, ondemand := p'.ondemand, pagetable := p'.pagetable, sz := p'.sz,
                heapTracker := p'.heapTracker, residentHeapPages := p'.residentHeapPages }

section Exec

variable {L : Layout} {r : Running} {m m' : Memory} {pt pt' : PageTable ℕ} {s s' : Space}
  {f : File} {elf : Elfhdr} {ondemand : Bool} {argv : List (List Byte)} {sz sz' : ℕ}

theorem loadSegments_framed {is : List ℕ} {ok : Bool} (h : FramedSpace L s)
    (hrun : loadSegments r f elf ondemand is sz s = .ok (ok, sz', s')) : FramedSpace L s' := by
  induction is generalizing sz s with
  | nil =>
    cases hrun
    exact h
  | cons i is ih =>
    unfold loadSegments at hrun
    simp only at hrun
    split_ifs at hrun
    · cases hrun
      exact h
    · exact ih h hrun
    · cases hrun
      exact h
    · cases hrun
      exact h
    · cases hrun
      exact h
    · exact ih h hrun
    · exact ih h hrun
    · obtain ⟨⟨sz1, m, pt⟩, halloc, hrun⟩ := bind_ok_iff.mp hrun
      have H := uvmalloc_framed h halloc
      simp only at hrun
      split_ifs at hrun
      · cases hrun
        exact H
      · obtain ⟨⟨loaded, m₁⟩, hload, hrun⟩ := bind_ok_iff.mp hrun
        have H₁ : FramedSpace L (m₁, pt) := ⟨loadseg_framed H.memory hload, H.table⟩
        cases loaded with
        | true => exact ih H₁ hrun
        | false =>
          cases hrun
          exact H₁

theorem uvmclear_framed {va : ℕ} (h : FramedTable L pt) (hrun : uvmclear va pt = .ok pt') :
    FramedTable L pt' := by
  obtain ⟨slot, hwalk, hrun⟩ := bind_ok_iff.mp hrun
  rcases slot with _ | _ | e
  · cases hrun
  · cases hrun
    exact h
  · obtain ⟨-, hleaf⟩ := walk_ok hwalk
    have hslot := (hleaf _ rfl).symm
    cases hrun
    exact h.map (e := { e with u := false }) (h.leaf _ e hslot)
      (h.wf.low_of_leaf _ (by rw [hslot]; rfl))

/-- `pushStrings` over any way of copying a string to the stack. -/
def pushStringsWith (copy : ℕ → (ℕ → Byte) → ℕ → Memory → Bool × Memory) (stackbase : ℕ) :
    List (List Byte) → ℕ → List ℕ → Memory → Memory × Option (ℕ × List ℕ)
  | [], sp, ustack, m => (m, some (sp, ustack))
  | arg :: args, sp, ustack, m =>
    if MAXARG ≤ ustack.length then (m, none)
    else
      let sp := sub64 sp (arg.length + 1)
      let sp := sp - sp % 16
      if sp < stackbase then (m, none)
      else match copy sp (fun j => arg.getD j 0) (arg.length + 1) m with
        | (false, m) => (m, none)
        | (true, m) => pushStringsWith copy stackbase args sp (ustack ++ [sp]) m

-- the equations of `pushStrings` itself would have Lean evaluate `copyout`
theorem pushStrings_eq (pt : PageTable ℕ) : pushStrings pt = pushStringsWith (copyout pt) := by
  delta pushStrings pushStringsWith
  rfl

theorem pushStringsWith_framed {copy : ℕ → (ℕ → Byte) → ℕ → Memory → Bool × Memory}
    (hcopy : ∀ sp src len m, m.Framed L → (copy sp src len m).2.Framed L) {stackbase sp : ℕ}
    {ustack : List ℕ} (h : m.Framed L) :
    (pushStringsWith copy stackbase argv sp ustack m).1.Framed L := by
  induction argv generalizing sp ustack m with
  | nil => exact h
  | cons arg args ih =>
    unfold pushStringsWith
    simp only
    split_ifs
    · exact h
    · exact h
    · have hframed := hcopy (sub64 sp (arg.length + 1) - sub64 sp (arg.length + 1) % 16)
        (fun j => arg.getD j 0) (arg.length + 1) m h
      generalize copy _ _ (arg.length + 1) m = copied at hframed
      obtain ⟨ok, m₁⟩ := copied
      cases ok with
      | false => exact hframed
      | true => exact ih hframed

theorem pushStrings_framed {stackbase sp : ℕ} {ustack : List ℕ} (h : m.Framed L) :
    (pushStrings pt stackbase argv sp ustack m).1.Framed L := by
  rw [pushStrings_eq]
  exact pushStringsWith_framed (fun _ _ _ _ hm => copyout_framed hm) h

theorem pushArgs_framed (h : m.Framed L) : (pushArgs pt sz argv m).1.Framed L := by
  unfold pushArgs
  have hstrings := @pushStrings_framed L m pt argv (sub64 sz PGSIZE) sz [] h
  simp only
  generalize pushStrings pt (sub64 sz PGSIZE) argv sz [] m = pushed at hstrings
  obtain ⟨m₁, result⟩ := pushed
  rcases result with _ | ⟨sp, ustack⟩
  · exact hstrings
  · simp only
    split_ifs
    · exact hstrings
    · have hcopy := @copyout_framed L m₁ pt
        (sub64 sp ((ustack.length + 1) * 8) - sub64 sp ((ustack.length + 1) * 8) % 16)
        (wordByte (ustack ++ [0])) ((ustack.length + 1) * 8) hstrings
      generalize copyout pt _ _ ((ustack.length + 1) * 8) m₁ = copied at hcopy
      obtain ⟨ok, m₂⟩ := copied
      cases ok with
      | false => exact hcopy
      | true => exact hcopy

theorem buildImage_framed {argc : Option ℕ} (h : FramedSpace L s)
    (hrun : buildImage r f elf ondemand argv s = .ok (argc, sz, s')) : FramedSpace L s' := by
  obtain ⟨⟨ok, sz₁, s₁⟩, hload, hrun⟩ := bind_ok_iff.mp hrun
  have h₁ := loadSegments_framed h hload
  cases ok with
  | false =>
    cases hrun
    exact h₁
  | true =>
    obtain ⟨⟨sz₂, m₂, pt₂⟩, halloc, hrun⟩ := bind_ok_iff.mp hrun
    have h₂ := uvmalloc_framed h₁ halloc
    simp only at hrun
    split_ifs at hrun
    · cases hrun
      exact h₂
    · obtain ⟨pt₃, hclear, hrun⟩ := bind_ok_iff.mp hrun
      cases hrun
      exact ⟨pushArgs_framed h₂.memory, uvmclear_framed h₂.table hclear⟩

theorem exec_framed {k k' : Kernel} {p p' : Proc} {path : Path} {namei : Path → Option File}
    {argc : Option ℕ} (hk : k.memory.Framed L) (hp : FramedProc L p) (hpg : p.pagetable.isSome)
    (hrun : p.exec path argv namei k = .ok (argc, k', p')) :
    k'.memory.Framed L ∧ FramedProc L p' ∧ k'.groups = k.groups ∧ SameOwner p p' := by
  have hsame : FramedProc L { p with ondemand := isOndemand path } := ⟨hp.table, hp.trapframe, hp.owns⟩
  unfold Proc.exec at hrun
  cases hf : namei path with
  | none =>
    simp only [hf] at hrun
    cases hrun
    exact ⟨hk, hsame, rfl, rfl⟩
  | some f =>
    simp only [hf] at hrun
    split_ifs at hrun
    · cases hrun
      exact ⟨hk, hsame, rfl, rfl⟩
    · cases hrun
      exact ⟨hk, hsame, rfl, rfl⟩
    · obtain ⟨⟨result, m₁⟩, htable, hrun⟩ := bind_ok_iff.mp hrun
      obtain ⟨trapframe, ht⟩ := Option.isSome_iff_exists.mp (hp.owns hpg)
      have hframe : L.Frame (p.trapframe.getD 0) := by
        rw [ht]
        exact hp.trapframe trapframe ht
      obtain ⟨hm₁, hnew⟩ := procPagetable_framed hk hframe htable
      cases result with
      | none =>
        cases hrun
        exact ⟨hm₁, hsame, rfl, rfl⟩
      | some pg =>
        obtain ⟨hroot, hpgt⟩ := hnew pg rfl
        obtain ⟨⟨argc', sz, m₂, pt⟩, hbuild, hrun⟩ := bind_ok_iff.mp hrun
        have hspace : FramedSpace L (m₁, pg.table) := ⟨hm₁, hpgt⟩
        have H := buildImage_framed hspace hbuild
        cases argc' with
        | none =>
          obtain ⟨m₃, hfree, hrun⟩ := bind_ok_iff.mp hrun
          cases hrun
          exact ⟨@procFreepagetable_framed L _ _ _ ⟨pg.root, pt⟩ _ H.memory H.table hfree, hsame,
            rfl, rfl⟩
        | some n =>
          cases hold : p.pagetable with
          | none =>
            simp only [hold] at hrun
            cases hrun
          | some old =>
            simp only [hold] at hrun
            obtain ⟨m₃, hfree, hrun⟩ := bind_ok_iff.mp hrun
            cases hrun
            refine ⟨procFreepagetable_framed H.memory (hp.table old hold).2 hfree, ?_, rfl, rfl⟩
            refine ⟨fun pg' hpg' => ?_, hp.trapframe, fun _ => hp.owns hpg⟩
            cases hpg'
            exact ⟨hroot, H.table⟩

end Exec

end AdvancedOperatingSystems.DemandPaging
