import AdvancedOperatingSystems.DemandPaging.Exclusive
import AdvancedOperatingSystems.DemandPaging.ForkImage

/-!
# Stores to shared pages

`uvmcopy_cow` clears `PTE_W` and leaves no mark of it, so that the handler takes every page
without `PTE_W` for a shared one. The copy gets the permissions of a new heap page.
-/

namespace AdvancedOperatingSystems.DemandPaging

open Foundations Riscv Riscv.PageTable

/-- `uvmcopy_cow` has left the entry of a page in a table to the parent or given it to the child. -/
def SharedBy (s s' : CowCopy) (addr : ℕ) (pt : PageTable ℕ) : Prop :=
  ∃ group sz, uvmcopyCow group sz s = .ok (true, s') ∧ s.memory.freelist.Nodup ∧ s.new.Wf ∧
    (∀ v e, s.old.leaf v = some e → e.r = true) ∧ addr ∈ pages 0 sz ∧
    (pt.leaf (vpn addr) = s'.old.leaf (vpn addr) ∨ pt.leaf (vpn addr) = s'.new.leaf (vpn addr))

/-- The page had the entry when `uvmcopy_cow` first shared it: the entry had `PTE_W`, which is
cleared, or had none and its page was in no group. Later forks may have shared it again. -/
inductive MadeReadOnly (addr : ℕ) (e : Pte) : PageTable ℕ → Prop
  | cleared {s s' pt} (hfork : SharedBy s s' addr pt) (he : s.old.leaf (vpn addr) = some e)
      (hfirst : e.w = true ∨ ∀ g, e.pa ∉ (s.groups g).shmem) : MadeReadOnly addr e pt
  | again {s s' pt} (h : MadeReadOnly addr e s.old) (hfork : SharedBy s s' addr pt) :
      MadeReadOnly addr e pt

def UserWritable (e : Pte) : Prop := e.u = true ∧ e.w = true

instance (e : Pte) : Decidable (UserWritable e) := inferInstanceAs (Decidable (_ ∧ _))

/-- The page of the store has been replaced by a copy with the permissions of `e`. Nothing
else has been mapped or unmapped in any process, and the page of `e` is as it was. -/
structure CopiedForStore (s : System) (i : ℕ) (a : Access) (e : Pte) (c c' : Cpu) : Prop where
  entry : ∃ pa, c'.table.leaf (vpn a.va) = some { e with pa := pa } ∧
    pa ∈ c.kernel.memory.freelist ∧ pa ∉ c'.kernel.memory.freelist ∧
    ∀ k < PGSIZE, c'.kernel.memory.page pa k = c.kernel.memory.page e.pa k
  others : ∀ j v, (j, v) ≠ (i, vpn a.va) → (s.setCpu i c').leaf j v = s.leaf j v
  shared : c'.kernel.memory.page e.pa = c.kernel.memory.page e.pa

/-- A store to a page that was writable gets a copy, and a store to another page stays
forbidden. The kernel goes on. -/
def StoreHandled (s : System) (i : ℕ) (a : Access) (e : Pte) (c : Cpu) : Prop :=
  ∃ c', pageFaultHandler a.trap c = .ok c' ∧
    if UserWritable e then CopiedForStore s i a e c c' else translate c'.table a = none

/-- A page that is not tracked as heap was writable and not executable, and two pages are
free. For a tracked page the branch for those returns, and it maps the contents of the page if
it was writable and not executable, and nothing there if it was not writable. -/
def StoreHandleable (a : Access) (e : Pte) (c : Cpu) : Prop :=
  match pageIndex c.proc.heapTracker a.pageAddr with
  | none => UserWritable e ∧ e.x = false ∧ 2 ≤ c.kernel.memory.freelist.length
  | some k => HeapReturns a c k ∧
      if UserWritable e then HeapMaps a c k ∧ e.x = false ∧
        ∀ j < PGSIZE, heapData a c k j = c.kernel.memory.page e.pa j
      else ¬ HeapMaps a c k

section ReadOnly

variable {c c' : CowCopy} {group : ℕ} {is : List ℕ}

/-- What `uvmcopy_cow` leaves to the parent. -/
theorem uvmcopyCowLoop_old (hn : c.memory.freelist.Nodup)
    (h : uvmcopyCowLoop group is c = .ok (none, c')) :
    ∀ i ∈ is, ∀ e, c.old.leaf (vpn i) = some e →
      i < MAXVA ∧ c'.old.leaf (vpn i) = some (readOnly e) := by
  induction is generalizing c with
  | nil => simp
  | cons i is ih =>
    unfold uvmcopyCowLoop at h
    obtain ⟨slot, hwalk, h⟩ := bind_ok_iff.mp h
    rcases slot with _ | _ | e
    · cases h
    · intro j hj e he
      rcases List.mem_cons.mp hj with rfl | hj
      · rw [walk_empty hwalk] at he
        cases he
      · exact ih hn h j hj e he
    · have he := walk_entry hwalk
      simp only at h
      obtain ⟨⟨ok, m, new⟩, hmap, h⟩ := bind_ok_iff.mp h
      obtain ⟨hdraws, hresult⟩ := mappages_draws hn hmap
      cases hresult with
      | fails _ =>
        simp only [Bool.not_false, ↓reduceIte] at h
        cases h
      | maps _ hleaf =>
        simp only [Bool.not_true, Bool.false_eq_true, ↓reduceIte] at h
        obtain ⟨groups, -, h⟩ := bind_ok_iff.mp h
        have hself : ∀ e', c.old.leaf (vpn i) = some e' →
            c'.old.leaf (vpn i) = some (readOnly e') := by
          intro e' he'
          obtain rfl := Option.some.inj (he.symm.trans he')
          have S := uvmcopyCowLoop_shares hdraws.nodup h
          rcases S.old (vpn i) with hsame | hcleared
          · simp [hsame]
          · simp [hcleared, readOnly_readOnly]
        intro j hj e' he'
        by_cases hv : vpn j = vpn i
        · rw [hv] at he' ⊢
          refine ⟨?_, hself e' he'⟩
          have hi := (walk_ok hwalk).1
          simp only [vpn, PGSIZE, MAXVA] at *
          omega
        · rcases List.mem_cons.mp hj with rfl | hj
          · exact absurd rfl hv
          · exact ih hdraws.nodup h j hj e' (by simpa [hv] using he')

theorem SharedBy.leaf {s s' : CowCopy} {addr : ℕ} {pt : PageTable ℕ} {e : Pte}
    (h : SharedBy s s' addr pt) (he : s.old.leaf (vpn addr) = some e) :
    addr < MAXVA ∧ pt.leaf (vpn addr) = some (readOnly e) ∧ e.r = true := by
  obtain ⟨group, sz, hcopy, hn, hwf, hread, hmem, hleaf⟩ := h
  have hnew := (uvmcopyCow_new hread hwf hcopy).2 addr hmem e he
  unfold uvmcopyCow at hcopy
  obtain ⟨⟨stop, s₁⟩, hloop, hcopy⟩ := bind_ok_iff.mp hcopy
  cases stop with
  | none =>
    cases hcopy
    obtain ⟨hva, hold⟩ := uvmcopyCowLoop_old hn hloop addr hmem e he
    refine ⟨hva, ?_, hread _ e he⟩
    rcases hleaf with hleaf | hleaf
    · exact hleaf.trans hold
    · exact hleaf.trans hnew
  | some i =>
    obtain ⟨s₂, -, hcopy⟩ := bind_ok_iff.mp hcopy
    cases hcopy

theorem MadeReadOnly.leaf {addr : ℕ} {e : Pte} {pt : PageTable ℕ} (h : MadeReadOnly addr e pt) :
    addr < MAXVA ∧ pt.leaf (vpn addr) = some (readOnly e) ∧ e.r = true := by
  induction h with
  | cleared hfork he _ => exact hfork.leaf he
  | again _ hfork ih =>
    obtain ⟨hva, hleaf, -⟩ := hfork.leaf ih.2.1
    exact ⟨hva, hleaf, ih.2.2⟩

end ReadOnly

section Copy

variable {a : Access} {c c' : Cpu} {e : Pte}

/-- What `copy_on_write` leaves in the table and in the copy. -/
theorem copyOnWrite_copies (ht : c.Tidy) (hva : a.va < 2 ^ 64) (hmax : a.pageAddr < MAXVA)
    (hleaf : c.table.leaf (vpn a.pageAddr) = some e) (h : copyOnWrite a.trap c = .ok c') :
    ∃ pa, c'.table.leaf = Function.update c.table.leaf (vpn a.va) (some (permW.pte pa)) ∧
      pa ∈ c.kernel.memory.freelist ∧
      ∀ k < PGSIZE, c'.kernel.memory.page pa k = c.kernel.memory.page e.pa k := by
  have ha := pageAddr_aligned a
  have hmapped : c.table.Mapped a.pageAddr := by simp [Mapped, hleaf]
  have hlow : (c.table.low (lowIndex a.pageAddr)).isSome := ht.wf.low_of_leaf _ hmapped
  have hmid : (c.table.mid (midIndex a.pageAddr)).isSome := ht.wf.mid_of_low _ hlow
  cases hk : c.kernel.memory.kalloc with
  | none =>
    unfold copyOnWrite at h
    rw [hk] at h
    cases h
  | some q =>
    obtain ⟨page, m⟩ := q
    obtain ⟨hsound, -⟩ := kalloc_sound ht.sound hk
    obtain ⟨hdraws, hmem, htaken⟩ := kalloc_draws ht.nodup hk
    rw [copyOnWrite_eq hk] at h
    by_cases hu : e.u = true
    · have hwalk := walkaddr_eq ht.wf hmax hleaf hu
      have hused := ht.used _ e hleaf
      rw [copyin_mapped hwalk (ht.frames _ e hleaf), if_neg (by simp), uvmunmap_unmappable ht.wf
        ⟨ha, hmax, hmid, hlow⟩, ok_bind] at h
      have hsound' : (m.write page (m.page e.pa)).Sound := hsound.of_freelist rfl rfl
      obtain ⟨-, hspec⟩ :=
        @uvmalloc_pageAddr a c.running permW _ _ (ht.wf.clear a.pageAddr) hsound' hva
      obtain ⟨⟨sz, m₁, pt⟩, halloc, h⟩ := bind_ok_iff.mp h
      obtain ⟨hwf₁, ⟨-, -, pa, taken, htake, -, -, hleaf₁⟩ | ⟨-, hleaf₁, -⟩⟩ :=
        hspec sz m₁ pt halloc
      · have hentry : pt.leaf (vpn a.pageAddr) = some (permW.pte pa) := by
          rw [hleaf₁, vpn_pageAddr, Function.update_self]
        have hpa : pa ∈ m.freelist := htake.mem List.mem_cons_self
        have hwalk₁ : pt.walkaddr a.pageAddr = pa :=
          walkaddr_eq hwf₁ hmax hentry rfl
        simp only [copyout_page ha hwalk₁ (hsound' pa hpa).1] at h
        rw [if_neg (by simp)] at h
        obtain ⟨m₂, hfree, h⟩ := bind_ok_iff.mp h
        cases h
        refine ⟨pa, ?_, hdraws.sub _ hpa, fun k hk => ?_⟩
        · show pt.leaf = _
          rw [hleaf₁, set_leaf, vpn_pageAddr, Function.update_idem]
        · have hne : pa ≠ page := fun h => htaken (h ▸ hpa)
          -- the buffer is none of the pages that `uvmalloc` takes
          have hbuffer : page ∉ pa :: taken := fun h => htaken (htake.mem h)
          have hdata : m₁.page page = c.kernel.memory.page e.pa := by
            rw [htake.page page hbuffer, Memory.write_page, Function.update_self]
            exact hdraws.page _ hused
          show m₂.page pa k = _
          rw [(Memory.kfree_ok hfree).2.2, Function.update_of_ne hne, Memory.write_page,
            Function.update_self, if_pos hk, hdata]
      · have hentry : pt.leaf (vpn a.pageAddr) = none := by simp [hleaf₁]
        simp only [copyout_unmapped ha (walkaddr_unmapped hentry)] at h
        cases h
    · rw [Bool.not_eq_true] at hu
      rw [copyin_unmapped (walkaddr_not_user hleaf hu), if_pos rfl] at h
      cases h

theorem pageFaultHandler_shared {value : Byte} (ht : c.Tidy) (hcow : c.proc.cowEnabled = true)
    (hop : a.op = .store value) (hindex : pageIndex c.proc.heapTracker a.pageAddr = none)
    (hmax : a.pageAddr < MAXVA) (hleaf : c.table.leaf (vpn a.pageAddr) = some e)
    (hw : e.w = false) : pageFaultHandler a.trap c = copyOnWrite a.trap c := by
  have hmapped : c.table.Mapped a.pageAddr := by simp [Mapped, hleaf]
  have htest : cowFault a.trap c = .ok true := by
    unfold cowFault
    rw [if_pos ⟨hcow, by rw [trap_scause, hop]; rfl⟩, trap_alignedAddr,
      ht.wf.walk_mapped hmax hmapped, hleaf, ok_bind]
    simp only [hw, Bool.not_false]
    rfl
  unfold pageFaultHandler
  rw [trap_alignedAddr, hindex]
  simp only [htest, ok_bind, ↓reduceIte]

theorem translate_store {value : Byte} {pt : PageTable ℕ} (hop : a.op = .store value)
    (hmax : a.pageAddr < MAXVA) (hleaf : pt.leaf (vpn a.va) = some e) :
    (translate pt a).isSome ↔ UserWritable e := by
  rw [translate_isSome hmax hleaf, hop]
  simp [Op.permitted, UserWritable]

theorem va_lt (hmax : a.pageAddr < MAXVA) : a.va < 2 ^ 64 := by
  simp only [Access.pageAddr, pgrounddown, MAXVA, PGSIZE] at *
  omega

/-- A step that replaces the page of the store by a copy with the entry of a new heap page. -/
theorem copiedForStore {s : System} {i : ℕ} (hc : s.cpu i = some c) (ht : c.Tidy)
    (hleaf : c.table.leaf (vpn a.va) = some (readOnly e)) (hread : e.r = true)
    (hwritable : UserWritable e) (hx : e.x = false) (hstep : HandlerStep c c') {pa : ℕ}
    (hpa : c'.table.leaf (vpn a.va) = some (permW.pte pa))
    (hothers : ∀ v, v ≠ vpn a.va → c'.table.leaf v = c.table.leaf v)
    (hdata : ∀ k < PGSIZE, c'.kernel.memory.page pa k = c.kernel.memory.page e.pa k) :
    CopiedForStore s i a e c c' := by
  have hentry : ({ e with pa := pa } : Pte) = permW.pte pa := by
    obtain ⟨hu, hw⟩ := hwritable
    simp only [Perm.pte, hu, hw, hx, hread]
  have hnew : c.table.leaf (vpn a.va) ≠ some (permW.pte pa) := by
    rw [hleaf]
    intro h
    cases congrArg Pte.w (Option.some.inj h)
  obtain ⟨-, hfree, htaken, -⟩ := (hstep.space.leaf _ _ hpa).resolve_left hnew
  refine ⟨⟨pa, hentry ▸ hpa, hfree, htaken, hdata⟩, fun j v hne => ?_, ?_⟩
  · rw [setCpu_leaf hc hstep.proc]
    by_cases hj : j = i
    · rw [if_pos hj, hj, (cpu_some hc).2.2]
      apply hothers
      rintro rfl
      exact hne (by rw [hj])
    · rw [if_neg hj]
  · exact hstep.space.draws.page e.pa (ht.used _ (readOnly e) hleaf)

end Copy

section Exact

variable {s : System} {i : ℕ} {a : Access} {e : Pte} {c : Cpu} {value : Byte}

/-- A page that is not tracked goes to `copy_on_write`. -/
theorem store_handled_untracked (hc : s.cpu i = some c) (ht : c.Tidy)
    (hcow : c.proc.cowEnabled = true) (hop : a.op = .store value)
    (hro : MadeReadOnly a.pageAddr e c.table)
    (hindex : pageIndex c.proc.heapTracker a.pageAddr = none) :
    StoreHandled s i a e c ↔
      UserWritable e ∧ e.x = false ∧ 2 ≤ c.kernel.memory.freelist.length := by
  obtain ⟨hmax, hleaf, hread⟩ := hro.leaf
  have hleaf' : c.table.leaf (vpn a.va) = some (readOnly e) := vpn_pageAddr a ▸ hleaf
  have hva := va_lt hmax
  have hfault : translate c.table a = none := by
    rw [← Option.not_isSome_iff_eq_none, translate_store hop hmax hleaf']
    exact fun h => by cases h.2
  obtain ⟨hret, -⟩ := copyOnWrite_spec (ht.faulting hva hfault) hmax hleaf
  unfold StoreHandled
  rw [pageFaultHandler_shared ht hcow hop hindex hmax hleaf rfl]
  constructor
  · rintro ⟨c', hrun, hright⟩
    obtain ⟨pa, htable, -⟩ := copyOnWrite_copies ht hva hmax hleaf hrun
    have hentry : c'.table.leaf (vpn a.va) = some (permW.pte pa) := by
      rw [htable, Function.update_self]
    by_cases hwritable : UserWritable e
    · rw [if_pos hwritable] at hright
      obtain ⟨pa', hpa', -⟩ := hright.entry
      have hx := congrArg Pte.x (Option.some.inj (hpa'.symm.trans hentry))
      exact ⟨hwritable, hx, (hret.mp ⟨c', hrun⟩).2⟩
    · rw [if_neg hwritable] at hright
      have hsome := (translate_store hop hmax hentry).mpr ⟨rfl, rfl⟩
      rw [hright] at hsome
      cases hsome
  · rintro ⟨hwritable, hx, hfree⟩
    obtain ⟨c', hrun⟩ := hret.mpr ⟨hwritable.1, hfree⟩
    obtain ⟨pa, htable, -, hdata⟩ := copyOnWrite_copies ht hva hmax hleaf hrun
    refine ⟨c', hrun, ?_⟩
    rw [if_pos hwritable]
    apply copiedForStore hc ht hleaf' hread hwritable hx (copyOnWrite_step ht.nodup hrun)
      (by rw [htable, Function.update_self])
      (fun v hv => by rw [htable, Function.update_of_ne hv]) hdata

/-- A tracked page goes to the branch for heap pages. -/
theorem store_handled_tracked (hc : s.cpu i = some c) (ht : c.Tidy) (hop : a.op = .store value)
    (hro : MadeReadOnly a.pageAddr e c.table) {k : ℕ}
    (hindex : pageIndex c.proc.heapTracker a.pageAddr = some k) :
    StoreHandled s i a e c ↔ HeapReturns a c k ∧
      if UserWritable e then HeapMaps a c k ∧ e.x = false ∧
        ∀ j < PGSIZE, heapData a c k j = c.kernel.memory.page e.pa j
      else ¬ HeapMaps a c k := by
  obtain ⟨hmax, hleaf, hread⟩ := hro.leaf
  have hleaf' : c.table.leaf (vpn a.va) = some (readOnly e) := vpn_pageAddr a ▸ hleaf
  have hva := va_lt hmax
  have hfault : translate c.table a = none := by
    rw [← Option.not_isSome_iff_eq_none, translate_store hop hmax hleaf']
    exact fun h => by cases h.2
  obtain ⟨hret, hspec⟩ := heapHandle_spec (i := k) (ht.faulting hva hfault)
  unfold StoreHandled
  rw [pageFaultHandler_tracked hindex]
  by_cases hwritable : UserWritable e
  · -- what the branch has mapped, if it maps the page of the store
    have hmapped : ∀ c', heapHandle a.pageAddr k c = .ok c' → HeapMaps a c k →
        ∃ pa, c'.table.leaf (vpn a.va) = some (permW.pte pa) ∧ translate c'.table a = some pa := by
      intro c' hrun hmaps
      obtain ⟨pa, hpa⟩ := Option.isSome_iff_exists.mp ((hspec c' hrun).1.mpr hmaps)
      obtain ⟨-, e', he', hperm, rfl⟩ := translate_entry hpa
      obtain ⟨-, -, -, hroom | ⟨pa', hpa'⟩⟩ := heapHandle_room ht hva hindex hmaps hrun
      · rcases roomTable_leaf (c := c) (vpn a.va) with hnone | hsame
        · rw [hroom, hnone] at he'
          cases he'
        · rw [hroom, hsame, hleaf'] at he'
          cases he'
          rw [hop] at hperm
          simp [Op.permitted, readOnly] at hperm
      · rw [he'] at hpa'
        cases hpa'
        exact ⟨_, he', hpa⟩
    simp only [if_pos hwritable]
    constructor
    · rintro ⟨c', hrun, hcopied⟩
      obtain ⟨pa, hentry, -, -, hdata⟩ := hcopied.entry
      have hmaps : HeapMaps a c k :=
        (hspec c' hrun).1.mp ((translate_store hop hmax hentry).mpr hwritable)
      obtain ⟨pa', hentry', hpa'⟩ := hmapped c' hrun hmaps
      have heq := Option.some.inj (hentry.symm.trans hentry')
      have hpa : pa' = pa := (congrArg Pte.pa heq).symm
      refine ⟨hret.mp ⟨c', hrun⟩, hmaps, congrArg Pte.x heq, fun j hj => ?_⟩
      rw [← (hspec c' hrun).2 ht.nodup ht.used pa' hpa' j hj, hpa]
      exact hdata j hj
    · rintro ⟨hreturns, hmaps, hx, hdata⟩
      obtain ⟨c', hrun⟩ := hret.mpr hreturns
      obtain ⟨pa, hentry, hpa⟩ := hmapped c' hrun hmaps
      obtain ⟨hstep, -, hothers, -⟩ := heapHandle_room ht hva hindex hmaps hrun
      refine ⟨c', hrun, copiedForStore hc ht hleaf' hread hwritable hx hstep hentry
        (fun v hv => ?_) fun j hj => ?_⟩
      · rw [hothers v hv]
        exact roomTable_other hmaps hleaf' hv
      · rw [(hspec c' hrun).2 ht.nodup ht.used pa hpa j hj, hdata j hj]
  · simp only [if_neg hwritable]
    constructor
    · rintro ⟨c', hrun, hnone⟩
      refine ⟨hret.mp ⟨c', hrun⟩, fun hmaps => ?_⟩
      have hsome := (hspec c' hrun).1.mpr hmaps
      rw [hnone] at hsome
      cases hsome
    · rintro ⟨hreturns, hmaps⟩
      obtain ⟨c', hrun⟩ := hret.mpr hreturns
      refine ⟨c', hrun, Option.not_isSome_iff_eq_none.mp fun hsome => ?_⟩
      exact hmaps ((hspec c' hrun).1.mp hsome)

/-- Exactly when a store to a page that `uvmcopy_cow` has made read-only is handled as the
entry before the fork asks for. -/
theorem store_handled_iff (hc : s.cpu i = some c) (ht : c.Tidy)
    (hcow : c.proc.cowEnabled = true) (hop : a.op = .store value)
    (hro : MadeReadOnly a.pageAddr e c.table) :
    StoreHandled s i a e c ↔ StoreHandleable a e c := by
  unfold StoreHandleable
  cases hindex : pageIndex c.proc.heapTracker a.pageAddr with
  | none => exact store_handled_untracked hc ht hcow hop hro hindex
  | some k => exact store_handled_tracked hc ht hop hro hindex

end Exact

section Sample

def groupKernel : Kernel :=
  { sampleKernel 20 with groups := fun i => if i = 0 then ⟨1, [], 0⟩ else ⟨0, [], 0⟩ }

/-- The table of a program without segments, one page of which has lost `PTE_W`. -/
def readOnlyTable (addr : ℕ) (e : Pte) : PageTable ℕ :=
  (sampleTable 0).set addr (some (readOnly e))

def groupProc (addr : ℕ) (e : Pte) : Proc :=
  { sampleProc 0 with
    pagetable := some ⟨PGSIZE * 524299, readOnlyTable addr e⟩, cowGroup := 1, cowEnabled := true }

def groupSystem (addr : ℕ) (e : Pte) : System where
  kernel := groupKernel
  proc i := if i = 0 then groupProc addr e else blankProc
  nextpid := 2
  initproc := 0

def groupCpu (addr : ℕ) (e : Pte) : Cpu := ⟨groupKernel, groupProc addr e, readOnlyTable addr e⟩

def sampleStore (addr : ℕ) : Access := ⟨.store 1, addr, fun _ => none, fun _ => 0, fun _ => 0⟩

abbrev guardPte : Pte := ⟨PGSIZE * 524288, true, true, false, false⟩

abbrev stackPte : Pte := permW.pte (PGSIZE * 524289)

variable {addr : ℕ} {e : Pte}

theorem sampleTable_used (he : (sampleTable 0).leaf (vpn addr) = some e) :
    e.pa ∉ groupKernel.memory.freelist := by
  intro hmem
  obtain ⟨k, -, hk⟩ := List.mem_map.mp hmem
  simp only [sampleTable] at he
  split_ifs at he <;> cases he <;>
    · simp only [Perm.pte, PGSIZE] at hk
      omega

theorem groupCpu_tidy (he : (sampleTable 0).leaf (vpn addr) = some e)
    (hlow : ((sampleTable 0).low (lowIndex addr)).isSome) (hread : e.r = true) :
    (groupCpu addr e).Tidy := by
  have hleaf : ∀ v e', (readOnlyTable addr e).leaf v = some e' → ∃ e₀,
      (sampleTable 0).leaf v = some e₀ ∧ e'.pa = e₀.pa := by
    intro v e' he'
    unfold readOnlyTable at he'
    rw [set_leaf] at he'
    by_cases hv : v = vpn addr
    · subst hv
      rw [Function.update_self] at he'
      cases he'
      exact ⟨e, he, rfl⟩
    · rw [Function.update_of_ne hv] at he'
      exact ⟨e', he', rfl⟩
  constructor
  · show PGSIZE * 2 < 2 ^ 64
    decide
  · exact wf_setLeaf (sampleTable_wf (by decide)) hlow (onlyValid_readOnly hread)
  · intro v e' he'
    obtain ⟨e₀, he₀, hpa⟩ := hleaf v e' he'
    rw [hpa]
    exact sampleTable_frames 0 v e₀ he₀
  · intro v e' he'
    obtain ⟨e₀, he₀, hpa⟩ := hleaf v e' he'
    rw [hpa]
    exact @sampleTable_used (PGSIZE * v) e₀ (by rw [vpn_mul]; exact he₀)
  · exact sampleKernel_sound 20 (by decide)
  · exact (sampleKernel_supplies 20).nodup

theorem sample_madeReadOnly (haddr : (sampleStore addr).pageAddr = addr) (hmem : addr ∈ pages 0 (PGSIZE * 2))
    (he : (sampleTable 0).leaf (vpn addr) = some e) (hw : e.w = true) :
    MadeReadOnly (sampleStore addr).pageAddr e (groupCpu addr e).table := by
  rw [haddr]
  have hok : (uvmcopyCow 1 (PGSIZE * 2) ⟨groupKernel.groups, groupKernel.memory, sampleTable 0,
      PageTable.empty⟩).toOption.map Prod.fst = some true := by
    decide +kernel
  have hread : ∀ v e, (sampleTable 0).leaf v = some e → e.r = true := by
    intro v e he
    simp only [sampleTable] at he
    split_ifs at he <;>
      · cases he
        rfl
  cases hcopy : uvmcopyCow 1 (PGSIZE * 2) ⟨groupKernel.groups, groupKernel.memory, sampleTable 0,
      PageTable.empty⟩ with
  | error panic =>
    rw [hcopy] at hok
    cases hok
  | ok result =>
    obtain ⟨ok, s'⟩ := result
    rw [hcopy] at hok
    obtain rfl : ok = true := Option.some.inj hok
    have hnew := (uvmcopyCow_new hread wf_empty hcopy).2 addr hmem e he
    refine .cleared ⟨1, PGSIZE * 2, hcopy, (sampleKernel_supplies 20).nodup, wf_empty, hread,
      hmem, Or.inr ?_⟩ he (Or.inl hw)
    exact (congrFun (set_leaf _ _ _) _).trans ((Function.update_self _ _ _).trans hnew.symm)

/-- A store to the stack. -/
theorem sample_store_handled_iff :
    StoreHandled (groupSystem PGSIZE stackPte) 0 (sampleStore PGSIZE) stackPte
        (groupCpu PGSIZE stackPte) ↔
      StoreHandleable (sampleStore PGSIZE) stackPte (groupCpu PGSIZE stackPte) :=
  store_handled_iff rfl (groupCpu_tidy rfl rfl rfl) rfl rfl
    (sample_madeReadOnly (by decide) (by decide) rfl rfl)

/-- A store to the guard page, which no user program could write to. -/
theorem store_to_guard_panics :
    (groupSystem 0 guardPte).cpu 0 = some (groupCpu 0 guardPte) ∧ (groupCpu 0 guardPte).Tidy ∧
    (groupCpu 0 guardPte).proc.cowEnabled = true ∧
    MadeReadOnly (sampleStore 0).pageAddr guardPte (groupCpu 0 guardPte).table ∧
    ¬ UserWritable guardPte ∧
    ¬ StoreHandled (groupSystem 0 guardPte) 0 (sampleStore 0) guardPte (groupCpu 0 guardPte) := by
  refine ⟨rfl, groupCpu_tidy rfl rfl rfl, rfl, sample_madeReadOnly (by decide) (by decide) rfl rfl, by decide, ?_⟩
  rintro ⟨c', hrun, -⟩
  have hpanic : (pageFaultHandler (sampleStore 0).trap (groupCpu 0 guardPte)).toOption.isSome =
      false := by
    have hindex : pageIndex (groupCpu 0 guardPte).proc.heapTracker (sampleStore 0).pageAddr =
        none := pageIndex_clear (by decide)
    unfold pageFaultHandler
    rw [trap_alignedAddr, hindex]
    decide +kernel
  rw [hrun] at hpanic
  cases hpanic

end Sample

end AdvancedOperatingSystems.DemandPaging
