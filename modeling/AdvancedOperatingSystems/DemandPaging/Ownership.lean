import AdvancedOperatingSystems.DemandPaging.OnePage
import AdvancedOperatingSystems.DemandPaging.Swap

/-!
# Which pages a page table gains

Whatever the functions of `vm.c` and the page-fault handler do while a process runs, they
write to pages that were free, and an entry they add to the table is for such a page,
which no other entry they add is for.
-/

namespace AdvancedOperatingSystems.DemandPaging

open Foundations Riscv Riscv.PageTable

/-- Pages leave the free list, and only pages that were on it have changed. -/
structure Memory.Draws (m m' : Memory) : Prop where
  sub : ∀ q ∈ m'.freelist, q ∈ m.freelist
  nodup : m'.freelist.Nodup
  page : ∀ q, q ∉ m.freelist → m'.page q = m.page q
  trampoline : m'.trampoline = m.trampoline
  kend : m'.kend = m.kend

section Draws

variable {m m' m'' : Memory} {q : ℕ}

theorem Memory.Draws.refl (h : m.freelist.Nodup) : m.Draws m :=
  ⟨fun _ hq => hq, h, fun _ _ => rfl, rfl, rfl⟩

theorem Memory.Draws.trans (h : m.Draws m') (h' : m'.Draws m'') : m.Draws m'' where
  sub q hq := h.sub q (h'.sub q hq)
  nodup := h'.nodup
  page q hq := (h'.page q fun hmem => hq (h.sub q hmem)).trans (h.page q hq)
  trampoline := h'.trampoline.trans h.trampoline
  kend := h'.kend.trans h.kend

theorem Memory.Draws.write (h : m.Draws m') (hq : q ∈ m.freelist) (data : Page) :
    m.Draws (m'.write q data) where
  sub := h.sub
  nodup := h.nodup
  page q' hq' := by
    have hne : q' ≠ q := fun heq => hq' (heq ▸ hq)
    rw [Memory.write_page, Function.update_of_ne hne, h.page q' hq']
  trampoline := h.trampoline
  kend := h.kend

theorem Memory.Draws.kfree (h : m.Draws m') (hq : q ∈ m.freelist) (hq' : q ∉ m'.freelist)
    (hfree : m'.kfree q = .ok m'') : m.Draws m'' := by
  unfold Memory.kfree at hfree
  split_ifs at hfree
  cases hfree
  refine ⟨fun x hx => ?_, List.nodup_cons.mpr ⟨hq', h.nodup⟩, fun x hx => ?_, h.trampoline, h.kend⟩
  · rcases List.mem_cons.mp hx with rfl | hx
    · exact hq
    · exact h.sub x hx
  · have hne : x ≠ q := fun heq => hx (heq ▸ hq)
    show Function.update m'.page q _ x = _
    rw [Function.update_of_ne hne, h.page x hx]

theorem kalloc_draws (hn : m.freelist.Nodup) (h : m.kalloc = some (q, m')) :
    m.Draws m' ∧ q ∈ m.freelist ∧ q ∉ m'.freelist := by
  unfold Memory.kalloc at h
  cases hl : m.freelist with
  | nil => simp [hl] at h
  | cons r rest =>
    rw [hl] at h
    cases h
    rw [hl, List.nodup_cons] at hn
    refine ⟨⟨fun x hx => ?_, hn.2, fun x hx => ?_, rfl, rfl⟩, List.mem_cons_self, hn.1⟩
    · rw [hl]
      exact List.mem_cons_of_mem _ hx
    · rw [hl, List.mem_cons, not_or] at hx
      rw [Memory.memset_page, Function.update_of_ne hx.1]

end Draws

/-- The entries of the table are as they were, or of the kind `Q` and for pages that were
free. -/
structure Evolves (Q : Pte → Prop) (s s' : Space) : Prop where
  draws : s.1.Draws s'.1
  leaf : ∀ v e, s'.2.leaf v = some e → s.2.leaf v = some e ∨
    Q e ∧ e.pa ∈ s.1.freelist ∧ e.pa ∉ s'.1.freelist ∧
      ∀ w e', s'.2.leaf w = some e' → e'.pa = e.pa → w = v ∨ s.2.leaf w = some e'

def Readable (e : Pte) : Prop := e.u = true → e.r = true

theorem readable_pte (perm : Perm) (pa : ℕ) : Readable (perm.pte pa) := fun _ => rfl

section Evolves

variable {Q : Pte → Prop} {s s' s'' : Space} {m m' m'' : Memory} {pt pt' : PageTable ℕ}

theorem Evolves.refl (h : s.1.freelist.Nodup) : Evolves Q s s :=
  ⟨.refl h, fun _ _ he => Or.inl he⟩

theorem Evolves.trans (h : Evolves Q s s') (h' : Evolves Q s' s'') : Evolves Q s s'' := by
  refine ⟨h.draws.trans h'.draws, fun v e he => ?_⟩
  have hback : ∀ w e', s''.2.leaf w = some e' → e'.pa ∉ s'.1.freelist → s'.2.leaf w = some e' := by
    intro w e' he' hfree
    rcases h'.leaf w e' he' with hold | ⟨-, hmem, -⟩
    · exact hold
    · exact absurd hmem hfree
  rcases h'.leaf v e he with hold | ⟨hQ, hmem, htaken, honly⟩
  · rcases h.leaf v e hold with hold | ⟨hQ, hmem, htaken, honly⟩
    · exact Or.inl hold
    · refine Or.inr ⟨hQ, hmem, fun hfree => htaken (h'.draws.sub _ hfree), fun w e' he' hpa => ?_⟩
      exact honly w e' (hback w e' he' (hpa ▸ htaken)) hpa
  · refine Or.inr ⟨hQ, h.draws.sub _ hmem, htaken, fun w e' he' hpa => ?_⟩
    rcases honly w e' he' hpa with rfl | hold
    · exact Or.inl rfl
    · rcases h.leaf w e' hold with hold | ⟨-, -, htaken', -⟩
      · exact Or.inr hold
      · exact absurd (hpa ▸ hmem) htaken'

theorem Evolves.of_leaf (h : m.Draws m') (hleaf : pt'.leaf = pt.leaf) :
    Evolves Q (m, pt) (m', pt') :=
  ⟨h, fun v e he => Or.inl (by rw [← hleaf]; exact he)⟩

/-- An entry for a page that was free. -/
theorem Evolves.of_map {v : ℕ} {e : Pte} (h : m.Draws m') (hQ : Q e) (hmem : e.pa ∈ m.freelist)
    (htaken : e.pa ∉ m'.freelist) (hleaf : pt'.leaf = Function.update pt.leaf v (some e)) :
    Evolves Q (m, pt) (m', pt') := by
  have hother : ∀ w e', w ≠ v → pt'.leaf w = some e' → pt.leaf w = some e' := by
    intro w e' hne he'
    rw [hleaf, Function.update_of_ne hne] at he'
    exact he'
  refine ⟨h, fun w e' he' => ?_⟩
  by_cases hw : w = v
  · subst hw
    have heq : e = e' := by
      have h : pt'.leaf w = some e' := he'
      rw [hleaf, Function.update_self] at h
      exact Option.some.inj h
    subst heq
    refine Or.inr ⟨hQ, hmem, htaken, fun x e'' he'' _ => ?_⟩
    by_cases hx : x = w
    · exact Or.inl hx
    · exact Or.inr (hother x e'' hx he'')
  · exact Or.inl (hother w e' hw he')

theorem Evolves.write (h : Evolves Q s (m', pt')) {q : ℕ} (hq : q ∈ s.1.freelist) (data : Page) :
    Evolves Q s (m'.write q data, pt') :=
  ⟨h.draws.write hq data, h.leaf⟩

theorem Evolves.kfree {q : ℕ} (h₁ : m.Draws m') (hq : q ∈ m.freelist) (hq₁ : q ∉ m'.freelist)
    (h : Evolves Q (m', pt) s') (hfree : s'.1.kfree q = .ok m'') :
    Evolves Q (m, pt) (m'', s'.2) := by
  have hfreelist : m''.freelist = q :: s'.1.freelist := (Memory.kfree_ok hfree).1
  have hq' : q ∉ s'.1.freelist := fun hmem => hq₁ (h.draws.sub _ hmem)
  refine ⟨(h₁.trans h.draws).kfree hq hq' hfree, fun v e he => ?_⟩
  rcases h.leaf v e he with hold | ⟨hQ, hmem, htaken, honly⟩
  · exact Or.inl hold
  · refine Or.inr ⟨hQ, h₁.sub _ hmem, ?_, honly⟩
    show e.pa ∉ m''.freelist
    rw [hfreelist, List.mem_cons, not_or]
    exact ⟨fun heq => hq₁ (heq ▸ hmem), htaken⟩

theorem Evolves.clear (h : s.1.freelist.Nodup) (va : ℕ) : Evolves Q s (s.1, s.2.set va none) := by
  refine ⟨.refl h, fun v e he => Or.inl ?_⟩
  simp only [set_leaf, Function.update_apply] at he
  split_ifs at he
  exact he

end Evolves

section Vm

variable {r : Running} {perm : Perm} {m m' : Memory} {pt pt' : PageTable ℕ} {va : ℕ} {found : Bool}

theorem tablePage_draws {slot : Option ℕ} {t : ℕ} (hn : m.freelist.Nodup)
    (h : tablePage slot m = some (t, m')) : m.Draws m' := by
  cases slot with
  | some t' =>
    cases h
    exact .refl hn
  | none =>
    obtain ⟨⟨q, m₁⟩, hk, h⟩ := Option.map_eq_some_iff.mp h
    cases h
    obtain ⟨hdraws, hmem, -⟩ := kalloc_draws hn hk
    exact hdraws.write hmem _

theorem walkAlloc_draws (hn : m.freelist.Nodup)
    (h : walkAlloc va (m, pt) = .ok (found, m', pt')) : m.Draws m' ∧ pt'.leaf = pt.leaf := by
  unfold walkAlloc at h
  by_cases hva : MAXVA ≤ va
  · simp [hva] at h
  · simp only [if_neg hva] at h
    cases h₁ : tablePage (pt.mid (midIndex va)) m with
    | none =>
      rw [h₁] at h
      cases h
      exact ⟨.refl hn, rfl⟩
    | some t =>
      obtain ⟨t, m₁⟩ := t
      have hdraws₁ := tablePage_draws hn h₁
      simp only [h₁] at h
      cases h₂ : tablePage (pt.low (lowIndex va)) m₁ with
      | none =>
        rw [h₂] at h
        cases h
        exact ⟨hdraws₁, rfl⟩
      | some t' =>
        obtain ⟨t', m₂⟩ := t'
        rw [h₂] at h
        cases h
        exact ⟨hdraws₁.trans (tablePage_draws hdraws₁.nodup h₂), rfl⟩

/-- The walk finds a slot when there are enough pages for the missing tables. -/
theorem walkAlloc_found (h : walkAlloc va (m, pt) = .ok (found, m', pt'))
    (hlen : missingTables pt va ≤ m.freelist.length) : found = true := by
  unfold walkAlloc at h
  by_cases hva : MAXVA ≤ va
  · simp [hva] at h
  · simp only [if_neg hva] at h
    cases h₁ : tablePage (pt.mid (midIndex va)) m with
    | none =>
      obtain ⟨hmid, hnil⟩ := tablePage_none.mp h₁
      simp [missingTables, hmid, hnil] at hlen
    | some t =>
      obtain ⟨t, m₁⟩ := t
      obtain ⟨-, taken, htake, hcount⟩ := tablePage_some h₁
      have hlength := htake.length
      simp only [h₁] at h
      cases h₂ : tablePage (pt.low (lowIndex va)) m₁ with
      | none =>
        obtain ⟨hlow, hnil⟩ := tablePage_none.mp h₂
        simp only [missingTables, hlow, Option.isNone_none, ↓reduceIte] at hlen
        rw [hnil, List.length_nil] at hlength
        omega
      | some t' =>
        obtain ⟨t', m₂⟩ := t'
        rw [h₂] at h
        cases h
        rfl

/-- What `mappages` does to the table. -/
inductive MapResult (va : ℕ) (e : Pte) (pt pt' : PageTable ℕ) : Bool → Prop
  | fails (leaf : pt'.leaf = pt.leaf) : MapResult va e pt pt' false
  | maps (unmapped : pt.leaf (vpn va) = none)
      (leaf : pt'.leaf = Function.update pt.leaf (vpn va) (some e)) : MapResult va e pt pt' true

theorem mappages_draws {e : Pte} {ok : Bool} (hn : m.freelist.Nodup)
    (h : mappages va e (m, pt) = .ok (ok, m', pt')) : m.Draws m' ∧ MapResult va e pt pt' ok := by
  obtain ⟨⟨found, m₁, pt₁⟩, hwalk, h⟩ := bind_ok_iff.mp h
  obtain ⟨hdraws, hleaf⟩ := walkAlloc_draws hn hwalk
  cases hf : found with
  | false =>
    simp only [hf, Bool.not_false, ↓reduceIte] at h
    cases h
    exact ⟨hdraws, .fails hleaf⟩
  | true =>
    simp only [hf, Bool.not_true, Bool.false_eq_true, ↓reduceIte] at h
    by_cases hsome : (pt₁.leaf (vpn va)).isSome
    · simp [hsome] at h
    · rw [if_neg hsome] at h
      cases h
      rw [Option.not_isSome_iff_eq_none, hleaf] at hsome
      exact ⟨hdraws, .maps hsome (by rw [set_leaf, hleaf])⟩

theorem mappages_found {e : Pte} {ok : Bool} (h : mappages va e (m, pt) = .ok (ok, m', pt'))
    (hlen : missingTables pt va ≤ m.freelist.length) : ok = true := by
  obtain ⟨⟨found, m₁, pt₁⟩, hwalk, h⟩ := bind_ok_iff.mp h
  have hfound := walkAlloc_found hwalk hlen
  subst hfound
  simp only [Bool.not_true, Bool.false_eq_true, ↓reduceIte] at h
  by_cases hsome : (pt₁.leaf (vpn va)).isSome
  · simp [hsome] at h
  · rw [if_neg hsome] at h
    cases h
    rfl

/-- One page of the loop of `uvmalloc`: it is mapped, or the page taken for it given back. -/
theorem uvmallocLoop_cons {oldsz a : ℕ} {as : List ℕ} {ok : Bool} {s' : Space}
    (hn : m.freelist.Nodup) (h : uvmallocLoop r perm oldsz (a :: as) (m, pt) = .ok (ok, s')) :
    (∃ s₁, Evolves Readable (m, pt) s₁ ∧ (∃ pa ∈ m.freelist, s₁.2.leaf (vpn a) = some (perm.pte pa)) ∧
      uvmallocLoop r perm oldsz as s₁ = .ok (ok, s')) ∨
    ok = false ∧ m.freelist.length < 1 + missingTables pt a ∧ ∃ s₁, Evolves Readable (m, pt) s₁ ∧
      ∃ sz, uvmdealloc r a oldsz s₁ = .ok (sz, s') := by
  unfold uvmallocLoop at h
  cases hk : m.kalloc with
  | none =>
    simp only [hk] at h
    obtain ⟨⟨sz, s₁⟩, hdealloc, h⟩ := bind_ok_iff.mp h
    cases h
    have hnil := Memory.kalloc_none.mp hk
    exact Or.inr ⟨rfl, by rw [hnil, List.length_nil]; omega, _, .refl hn, sz, hdealloc⟩
  | some q =>
    obtain ⟨mem, m₁⟩ := q
    obtain ⟨hdraws, hmem, htaken⟩ := kalloc_draws hn hk
    obtain ⟨hfree, -, -⟩ := Memory.kalloc_some hk
    have hlen : m.freelist.length = (m₁.memset mem 0).freelist.length + 1 := by rw [hfree]; rfl
    have hdraws₁ : m.Draws (m₁.memset mem 0) := hdraws.write hmem _
    simp only [hk] at h
    obtain ⟨⟨ok₁, m₂, pt₂⟩, hmap, h⟩ := bind_ok_iff.mp h
    obtain ⟨hdraws₂, hresult⟩ := mappages_draws hdraws₁.nodup hmap
    have htaken₂ : mem ∉ m₂.freelist := fun hfree => htaken (hdraws₂.sub _ hfree)
    cases hresult with
    | fails hleaf =>
      simp only [Bool.false_eq_true, ↓reduceIte] at h
      obtain ⟨m₃, hkfree, h⟩ := bind_ok_iff.mp h
      obtain ⟨⟨sz, s₁⟩, hdealloc, h⟩ := bind_ok_iff.mp h
      cases h
      refine Or.inr ⟨rfl, ?_, (m₃, pt₂), ?_, sz, hdealloc⟩
      · by_contra hge
        have := mappages_found hmap (by omega)
        cases this
      · exact .of_leaf ((hdraws₁.trans hdraws₂).kfree hmem htaken₂ hkfree) hleaf
    | maps _ hleaf =>
      simp only [↓reduceIte] at h
      refine Or.inl ⟨(m₂, pt₂), .of_map (hdraws₁.trans hdraws₂) (readable_pte perm mem) hmem htaken₂ hleaf,
        ⟨mem, hmem, ?_⟩, h⟩
      show pt₂.leaf (vpn a) = _
      rw [hleaf, Function.update_self]

theorem uvmallocLoop_evolves {oldsz : ℕ} {as : List ℕ} {s s' : Space} (hn : s.1.freelist.Nodup)
    (h : uvmallocLoop r perm oldsz as s = .ok (true, s')) : Evolves Readable s s' := by
  induction as generalizing s with
  | nil =>
    cases h
    exact .refl hn
  | cons a as ih =>
    rcases uvmallocLoop_cons hn h with ⟨s₁, hev, -, hrest⟩ | ⟨hok, -⟩
    · exact hev.trans (ih hev.draws.nodup hrest)
    · cases hok

theorem uvmalloc_evolves {oldsz newsz sz : ℕ} {s s' : Space} (hn : s.1.freelist.Nodup)
    (h : uvmalloc r oldsz newsz perm s = .ok (sz, s')) (hsz : sz ≠ 0) : Evolves Readable s s' := by
  unfold uvmalloc at h
  split_ifs at h
  · cases h
    exact .refl hn
  · obtain ⟨⟨ok, s₁⟩, hloop, h⟩ := bind_ok_iff.mp h
    cases h
    cases ok with
    | false => simp at hsz
    | true => exact uvmallocLoop_evolves hn hloop

/-- The growth by one page, successful or not: the page is mapped, unless it lies beyond the
address space or there are too few pages. -/
theorem uvmalloc_next_evolves {b sz : ℕ} {s s' : Space} (hn : s.1.freelist.Nodup)
    (h : uvmalloc r b ((b + PGSIZE) % 2 ^ 64) perm s = .ok (sz, s')) :
    Evolves Readable s s' ∧ (2 ^ 64 ≤ b + PGSIZE ∨
      (∃ pa ∈ s.1.freelist, s'.2.leaf (vpn (pgroundup b)) = some (perm.pte pa)) ∨
      sz = 0 ∧ s.1.freelist.length < 1 + missingTables s.2 (pgroundup b)) := by
  by_cases hwrap : 2 ^ 64 ≤ b + PGSIZE
  · have hlt : (b + PGSIZE) % 2 ^ 64 < b := by
      simp only [PGSIZE] at *
      omega
    unfold uvmalloc at h
    rw [if_pos hlt] at h
    cases h
    exact ⟨.refl hn, Or.inl hwrap⟩
  · rw [uvmalloc_next (not_le.mp hwrap)] at h
    obtain ⟨⟨ok, s₁⟩, hloop, h⟩ := bind_ok_iff.mp h
    cases h
    rcases uvmallocLoop_cons hn hloop with
      ⟨s₂, hev, hmapped, hrest⟩ | ⟨hok, hfew, s₂, hev, sz, hdealloc⟩
    · cases hrest
      exact ⟨hev, Or.inr (Or.inl hmapped)⟩
    · have hsame : s₁ = s₂ := by
        simp only [uvmdealloc, le_refl, ↓reduceIte] at hdealloc
        cases hdealloc
        rfl
      subst hsame
      exact ⟨hev, Or.inr (Or.inr ⟨by simp [hok], hfew⟩)⟩

theorem uvmunmap_keep_evolves {s s' : Space} (hn : s.1.freelist.Nodup)
    (h : uvmunmap r va 1 false s = .ok s') : Evolves Readable s s' ∧ s'.2.leaf (vpn va) = none := by
  by_cases ha : va % PGSIZE = 0
  · rw [uvmunmap_one ha] at h
    obtain ⟨slot, hwalk, h⟩ := bind_ok_iff.mp h
    obtain ⟨-, hslot⟩ := walk_ok hwalk
    rcases slot with _ | _ | e
    · cases h
    · cases h
      exact ⟨.refl hn, (hslot none rfl).symm⟩
    · simp only [Bool.false_eq_true, ↓reduceIte] at h
      split_ifs at h
      cases h
      exact ⟨.clear hn va, by simp⟩
  · rw [uvmunmap, if_pos ha] at h
    cases h

end Vm

section Copies

variable {m : Memory} {pt : PageTable ℕ} {a : ℕ}

theorem copyin_draws {m₀ : Memory} {dst : ℕ} (h : m₀.Draws m) (hdst : dst ∈ m₀.freelist) :
    m₀.Draws (copyin pt dst a m).2 := by
  unfold copyin
  by_cases hpa : pt.walkaddr a = 0
  · simp only [if_pos hpa]
    exact h
  · simp only [if_neg hpa]
    exact h.write hdst _

theorem copyout_evolves {s : Space} {src : Page} (h : Evolves Readable s (m, pt)) (ha : a % PGSIZE = 0)
    (hfree : pt.walkaddr a ≠ 0 → pt.walkaddr a ∈ s.1.freelist) :
    Evolves Readable s ((copyout pt a src PGSIZE m).2, pt) := by
  by_cases hpa : pt.walkaddr a = 0
  · rw [copyout_unmapped ha hpa]
    exact h
  · rw [copyout_page ha rfl hpa]
    exact h.write (hfree hpa) _

end Copies

section Handler

variable {a : Access} {t : Trap} {c c' c'' : Cpu}

/-- The process as it was, but for its size and its account of heap pages. -/
def SameProc (p p' : Proc) : Prop :=
  p' = { p with heapTracker := p'.heapTracker, residentHeapPages := p'.residentHeapPages,
                sz := p'.sz }

/-- What a function that runs for a process does to the processor. -/
structure HandlerStep (c c' : Cpu) : Prop where
  space : Evolves Readable c.space c'.space
  proc : SameProc c.proc c'.proc
  groups : c'.kernel.groups = c.kernel.groups

theorem HandlerStep.refl (hn : c.kernel.memory.freelist.Nodup) : HandlerStep c c :=
  ⟨.refl hn, rfl, rfl⟩

theorem HandlerStep.trans (h : HandlerStep c c') (h' : HandlerStep c' c'') : HandlerStep c c'' where
  space := h.space.trans h'.space
  proc := by
    have h₁ := h.proc
    have h₂ := h'.proc
    unfold SameProc at *
    rw [h₁] at h₂
    exact h₂
  groups := h'.groups.trans h.groups

theorem HandlerStep.nodup (h : HandlerStep c c') : c'.kernel.memory.freelist.Nodup :=
  h.space.draws.nodup

/-- When a page is read back from disk, `kalloc` does not fail: there are pages for the copy
in the kernel, for the page and for the tables on the way. -/
def SwapInServed (a : Access) (c : Cpu) : Prop :=
  ∀ i c₁, pageIndex c.proc.heapTracker a.pageAddr = some i → makeRoom c = .ok c₁ →
    (c₁.proc.heapTracker i).loaded = true →
    (retrieveScan a.pageAddr c₁.proc.heapTracker).1.isSome →
    2 + missingTables c₁.table a.pageAddr ≤ c₁.kernel.memory.freelist.length

theorem evictPageToDisk_step (hn : c.kernel.memory.freelist.Nodup)
    (h : evictPageToDisk c = .ok c') : HandlerStep c c' := by
  unfold evictPageToDisk at h
  cases hv : victimPageIndex c.proc.heapTracker with
  | none =>
    simp only [hv] at h
    cases h
  | some v =>
    simp only [hv] at h
    cases hk : c.kernel.memory.kalloc with
    | none =>
      simp only [hk] at h
      cases h
    | some q =>
      obtain ⟨page, m⟩ := q
      simp only [hk] at h
      obtain ⟨s, hs, h⟩ := bind_ok_iff.mp h
      cases h
      obtain ⟨hdraws, hmem, -⟩ := kalloc_draws hn hk
      have hcopy := @copyin_draws _ c.table (c.proc.heapTracker v).addr _ _ hdraws hmem
      obtain ⟨hev, -⟩ := uvmunmap_keep_evolves hcopy.nodup hs
      refine ⟨(Evolves.of_leaf hcopy rfl).trans hev, rfl, ?_⟩
      simp [Cpu.setSpace, writePage_eq]

theorem makeRoom_step (hn : c.kernel.memory.freelist.Nodup) (h : makeRoom c = .ok c') :
    HandlerStep c c' := by
  unfold makeRoom at h
  split_ifs at h
  · obtain ⟨c₁, h₁, h⟩ := bind_ok_iff.mp h
    cases h
    exact (evictPageToDisk_step hn h₁).trans ⟨.refl (evictPageToDisk_step hn h₁).nodup, rfl, rfl⟩
  · cases h
    exact .refl hn

theorem retrieveBlock_step {addr block : ℕ} (ha : addr % PGSIZE = 0)
    (hn : c.kernel.memory.freelist.Nodup)
    (hserved : 2 + missingTables c.table addr ≤ c.kernel.memory.freelist.length)
    (h : retrieveBlock addr block c = .ok c') : HandlerStep c c' := by
  unfold retrieveBlock at h
  cases hk : c.kernel.memory.kalloc with
  | none =>
    simp only [hk] at h
    cases h
  | some q =>
    obtain ⟨page, m⟩ := q
    simp only [hk] at h
    obtain ⟨⟨sz, m₁, pt⟩, halloc, h⟩ := bind_ok_iff.mp h
    cases h
    obtain ⟨hdraws, hmem, -⟩ := kalloc_draws hn hk
    obtain ⟨hfree, -, -⟩ := Memory.kalloc_some hk
    have hlen : c.kernel.memory.freelist.length = m.freelist.length + 1 := by rw [hfree]; rfl
    have hdraws₁ := hdraws.write hmem (readPage c.kernel.disk block)
    obtain ⟨hev, hmapped⟩ := uvmalloc_next_evolves hdraws₁.nodup halloc
    rw [pgroundup_of_aligned ha] at hmapped
    have htarget : pt.walkaddr addr ≠ 0 →
        pt.walkaddr addr ∈ c.kernel.memory.freelist := by
      intro hne
      obtain ⟨hva, e, he, -, hpa⟩ := walkaddr_spec hne
      rcases hmapped with hwrap | ⟨pa, hpa', hleaf⟩ | ⟨-, hfew⟩
      · simp only [MAXVA, PGSIZE] at hva hwrap
        omega
      · have heq : some e = some (permW.pte pa) := he.symm.trans hleaf
        cases heq
        rw [← hpa]
        exact hdraws₁.sub _ hpa'
      · have hfew' : m.freelist.length < 1 + missingTables c.table addr := hfew
        omega
    have hall := (Evolves.of_leaf hdraws₁ rfl).trans hev
    exact ⟨copyout_evolves hall ha htarget, rfl, rfl⟩

theorem retrievePageFromDisk_step {addr : ℕ} (ha : addr % PGSIZE = 0)
    (hn : c.kernel.memory.freelist.Nodup)
    (hserved : (retrieveScan addr c.proc.heapTracker).1.isSome →
      2 + missingTables c.table addr ≤ c.kernel.memory.freelist.length)
    (h : retrievePageFromDisk addr c = .ok c') : HandlerStep c c' := by
  rw [retrievePageFromDisk] at h
  generalize retrieveScan addr c.proc.heapTracker = scan at h hserved
  obtain ⟨found, tracker⟩ := scan
  have hscan : HandlerStep c { c with proc := { c.proc with heapTracker := tracker } } :=
    ⟨.refl hn, rfl, rfl⟩
  cases found with
  | none =>
    cases h
    exact hscan
  | some block => exact hscan.trans (retrieveBlock_step ha hn (hserved rfl) h)

theorem growHeap_step (hn : c.kernel.memory.freelist.Nodup) (h : growHeap c = .ok c') :
    HandlerStep c c' := by
  obtain ⟨⟨sz, s⟩, halloc, h⟩ := bind_ok_iff.mp h
  cases h
  exact ⟨(uvmalloc_next_evolves hn halloc).1, rfl, rfl⟩

theorem heapHandle_step {i : ℕ} (hn : c.kernel.memory.freelist.Nodup)
    (hserved : SwapInServed a c) (hi : pageIndex c.proc.heapTracker a.pageAddr = some i)
    (h : heapHandle a.pageAddr i c = .ok c') : HandlerStep c c' := by
  obtain ⟨c₁, hroom, h⟩ := bind_ok_iff.mp h
  have h₁ := makeRoom_step hn hroom
  by_cases hloaded : (c₁.proc.heapTracker i).loaded = true
  · simp only [if_pos hloaded] at h
    obtain ⟨c₂, hret, h⟩ := bind_ok_iff.mp h
    cases h
    have h₂ := retrievePageFromDisk_step (pgrounddown_aligned _) h₁.nodup
      (hserved i c₁ hi hroom hloaded) hret
    exact (h₁.trans h₂).trans ⟨.refl h₂.nodup, rfl, rfl⟩
  · simp only [if_neg hloaded] at h
    obtain ⟨c₂, hgrow, h⟩ := bind_ok_iff.mp h
    cases h
    have h₂ := growHeap_step h₁.nodup hgrow
    exact (h₁.trans h₂).trans ⟨.refl h₂.nodup, rfl, rfl⟩

theorem copyOnWrite_step (hn : c.kernel.memory.freelist.Nodup) (h : copyOnWrite t c = .ok c') :
    HandlerStep c c' := by
  have ha : t.alignedAddr % PGSIZE = 0 := pgrounddown_aligned _
  unfold copyOnWrite at h
  cases hk : c.kernel.memory.kalloc with
  | none =>
    simp only [hk] at h
    cases h
  | some q =>
    obtain ⟨page, m⟩ := q
    simp only [hk] at h
    split_ifs at h
    obtain ⟨s, hunmap, h⟩ := bind_ok_iff.mp h
    obtain ⟨⟨sz, m₁, pt⟩, halloc, h⟩ := bind_ok_iff.mp h
    split_ifs at h
    obtain ⟨m₂, hkfree, h⟩ := bind_ok_iff.mp h
    cases h
    obtain ⟨hdraws, hmem, htaken⟩ := kalloc_draws hn hk
    have hcopyin : (copyin c.table page t.alignedAddr m).2.freelist = m.freelist := by
      unfold copyin
      by_cases hpa : c.table.walkaddr t.alignedAddr = 0 <;> simp [hpa]
    have hcopy := @copyin_draws _ c.table t.alignedAddr _ _ hdraws hmem
    obtain ⟨hev₁, hnone⟩ := uvmunmap_keep_evolves hcopy.nodup hunmap
    obtain ⟨hev₂, -⟩ := uvmalloc_next_evolves hev₁.draws.nodup halloc
    have htarget : pt.walkaddr t.alignedAddr ≠ 0 → pt.walkaddr t.alignedAddr ∈ s.1.freelist := by
      intro hne
      obtain ⟨-, e, he, -, hpa⟩ := walkaddr_spec hne
      rcases hev₂.leaf _ e he with hold | ⟨-, hmem, -⟩
      · rw [hnone] at hold
        cases hold
      · exact hpa ▸ hmem
    have hall : Evolves Readable ((copyin c.table page t.alignedAddr m).2, c.table)
        ((copyout pt t.alignedAddr (m₁.page page) PGSIZE m₁).2, pt) :=
      hev₁.trans (copyout_evolves hev₂ ha htarget)
    exact ⟨.kfree hcopy hmem (by rw [hcopyin]; exact htaken) hall hkfree, rfl, rfl⟩

theorem loadsegLoop_evolves {va offset sz : ℕ} {f : File} {is : List ℕ} {s : Space} {m m' : Memory}
    {pt : PageTable ℕ} {ok : Bool} (h : Evolves Readable s (m, pt))
    (hfree : ∀ i ∈ is, pt.walkaddr ((va + i) % 2 ^ 64) ≠ 0 →
      pt.walkaddr ((va + i) % 2 ^ 64) ∈ s.1.freelist)
    (hload : loadsegLoop pt va f offset sz is m = .ok (ok, m')) : Evolves Readable s (m', pt) := by
  induction is generalizing m with
  | nil =>
    cases hload
    exact h
  | cons i is ih =>
    unfold loadsegLoop at hload
    simp only at hload
    split_ifs at hload with hpa hgot
    · refine ih ?_ (fun j hj => hfree j (List.mem_cons_of_mem _ hj)) hload
      exact h.write (hfree i List.mem_cons_self hpa) _
    · cases hload
      exact h.write (hfree i List.mem_cons_self hpa) _

theorem loadFromFile_step (hva : t.stval < 2 ^ 64) (hn : c.kernel.memory.freelist.Nodup)
    (h : loadFromFile t c = .ok c') : HandlerStep c c' := by
  have ha : t.alignedAddr % PGSIZE = 0 := pgrounddown_aligned _
  have hlt : t.alignedAddr < 2 ^ 64 := by
    simp only [Trap.alignedAddr, pgrounddown, PGSIZE]
    omega
  unfold loadFromFile at h
  cases hf : t.namei c.proc.name with
  | none =>
    simp only [hf] at h
    cases h
  | some f =>
    simp only [hf] at h
    split_ifs at h
    generalize findSegment f _ _ _ _ = segment at h
    cases segment with
    | none =>
      cases h
      exact .refl hn
    | some ph =>
      simp only at h
      obtain ⟨⟨sz, m, pt⟩, halloc, h⟩ := bind_ok_iff.mp h
      obtain ⟨hev, hmapped⟩ := uvmalloc_next_evolves hn halloc
      rw [pgroundup_of_aligned ha] at hmapped
      simp only at h
      split_ifs at h with hsz
      obtain ⟨⟨ok, m₁⟩, hload, h⟩ := bind_ok_iff.mp h
      simp only at h
      split_ifs at h
      cases h
      have hone : pages 0 (PGSIZE % 2 ^ 32) = [0] := by decide
      unfold loadseg at hload
      rw [hone] at hload
      refine ⟨loadsegLoop_evolves hev (fun i hi hne => ?_) hload, rfl, rfl⟩
      obtain rfl := List.mem_singleton.mp hi
      rw [Nat.add_zero, Nat.mod_eq_of_lt hlt] at *
      obtain ⟨hmax, e, he, -, hpa⟩ := walkaddr_spec hne
      rcases hmapped with hwrap | ⟨pa, hpa', hleaf⟩ | ⟨hzero, -⟩
      · simp only [MAXVA, PGSIZE] at hmax hwrap
        omega
      · have heq : some e = some ((flags2perm ph.flags).pte pa) := he.symm.trans hleaf
        cases heq
        rw [← hpa]
        exact hpa'
      · exact absurd hzero hsz

theorem pageFaultHandler_step (hva : a.va < 2 ^ 64) (hn : c.kernel.memory.freelist.Nodup)
    (hserved : SwapInServed a c) (h : pageFaultHandler a.trap c = .ok c') : HandlerStep c c' := by
  unfold pageFaultHandler at h
  rw [trap_alignedAddr] at h
  cases hi : pageIndex c.proc.heapTracker a.pageAddr with
  | some i =>
    simp only [hi] at h
    exact heapHandle_step hn hserved hi h
  | none =>
    simp only [hi] at h
    obtain ⟨cow, -, h⟩ := bind_ok_iff.mp h
    cases cow with
    | true => exact copyOnWrite_step hn h
    | false => exact loadFromFile_step hva hn h

end Handler

end AdvancedOperatingSystems.DemandPaging
