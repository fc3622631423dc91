import AdvancedOperatingSystems.DemandPaging.Forking
import AdvancedOperatingSystems.DemandPaging.Tidy

/-!
# The memory of a forked child

Both ways of copying memory give the child, for every page below the size of the parent that
the parent maps, a page with the same contents. They copy nothing else: the child's account of
heap pages is what the last process in its slot has left there.
-/

namespace AdvancedOperatingSystems.DemandPaging

open Foundations Riscv Riscv.PageTable

section Copies

/-- The new table has gained copies of pages of the old one. -/
structure CopiesFrom (old : PageTable ℕ) (s s' : Space) : Prop where
  draws : s.1.Draws s'.1
  wf : s'.2.Wf
  kept : ∀ v e, s.2.leaf v = some e → s'.2.leaf v = some e
  copied : ∀ v e', s'.2.leaf v = some e' → s.2.leaf v = some e' ∨
    ∃ e, old.leaf v = some e ∧ e' = { e with pa := e'.pa } ∧ e'.pa ∈ s.1.freelist ∧
      e'.pa ∉ s'.1.freelist ∧ s'.1.page e'.pa = s.1.page e.pa

variable {old : PageTable ℕ} {s s' s'' : Space} {is : List ℕ}

theorem CopiesFrom.refl (hn : s.1.freelist.Nodup) (hw : s.2.Wf) : CopiesFrom old s s :=
  ⟨.refl hn, hw, fun _ _ he => he, fun _ _ he => Or.inl he⟩

theorem CopiesFrom.trans (hused : ∀ v e, old.leaf v = some e → e.pa ∉ s.1.freelist)
    (h : CopiesFrom old s s') (h' : CopiesFrom old s' s'') : CopiesFrom old s s'' where
  draws := h.draws.trans h'.draws
  wf := h'.wf
  kept v e he := h'.kept v e (h.kept v e he)
  copied v e' he' := by
    rcases h'.copied v e' he' with hkept | ⟨e, he, heq, hmem, htaken, hpage⟩
    · rcases h.copied v e' hkept with hkept | ⟨e, he, heq, hmem, htaken, hpage⟩
      · exact Or.inl hkept
      · refine Or.inr ⟨e, he, heq, hmem, fun hfree => htaken (h'.draws.sub _ hfree), ?_⟩
        rw [h'.draws.page _ htaken, hpage]
    · refine Or.inr ⟨e, he, heq, h.draws.sub _ hmem, htaken, ?_⟩
      rw [hpage, h.draws.page _ (hused v e he)]

theorem walk_entry {va : ℕ} {e : Pte} (h : old.walk va = .ok (some (some e))) :
    old.leaf (vpn va) = some e := ((walk_ok h).2 _ rfl).symm

theorem walk_empty {va : ℕ} (h : old.walk va = .ok (some none)) : old.leaf (vpn va) = none :=
  ((walk_ok h).2 _ rfl).symm

theorem uvmcopyLoop_copies (hold : old.Wf)
    (hused : ∀ v e, old.leaf v = some e → e.pa ∉ s.1.freelist) (hn : s.1.freelist.Nodup)
    (hw : s.2.Wf) (h : uvmcopyLoop old is s = .ok (none, s')) :
    CopiesFrom old s s' ∧ ∀ i ∈ is, ∀ e, old.leaf (vpn i) = some e →
      ∃ pa, s'.2.leaf (vpn i) = some { e with pa := pa } := by
  induction is generalizing s with
  | nil =>
    cases h
    exact ⟨.refl hn hw, by simp⟩
  | cons i is ih =>
    obtain ⟨m, new⟩ := s
    unfold uvmcopyLoop at h
    obtain ⟨slot, hwalk, h⟩ := bind_ok_iff.mp h
    rcases slot with _ | _ | e
    · cases h
    · obtain ⟨hcopies, hall⟩ := ih hused hn hw h
      refine ⟨hcopies, fun j hj e he => ?_⟩
      rcases List.mem_cons.mp hj with rfl | hj
      · rw [walk_empty hwalk] at he
        cases he
      · exact hall j hj e he
    · have he := walk_entry hwalk
      have hgrants := hold.leaf_grants _ e he
      simp only at h
      cases hk : m.kalloc with
      | none =>
        simp only [hk] at h
        cases h
      | some q =>
        obtain ⟨mem, m₁⟩ := q
        simp only [hk] at h
        obtain ⟨hdraws, hmem, htaken⟩ := kalloc_draws hn hk
        obtain ⟨⟨ok, m₂, new₂⟩, hmap, h⟩ := bind_ok_iff.mp h
        have hdraws₁ := hdraws.write hmem (m₁.page e.pa)
        obtain ⟨hdraws₂, -⟩ := mappages_draws hdraws₁.nodup hmap
        obtain ⟨-, -, hw₂, hcase⟩ := mappages_ok hw (e := { e with pa := mem }) hgrants hmap
        rcases hcase with ⟨rfl, -⟩ | ⟨rfl, hun, hleaf⟩
        · simp only [Bool.false_eq_true, ↓reduceIte] at h
          obtain ⟨m₃, -, h⟩ := bind_ok_iff.mp h
          cases h
        · simp only [↓reduceIte] at h
          have hall : m.Draws m₂ := hdraws₁.trans hdraws₂
          have hfirst : CopiesFrom old (m, new) (m₂, new₂) := by
            refine ⟨hall, hw₂, fun v e' he' => ?_, fun v e' he' => ?_⟩
            · have hne : v ≠ vpn i := by
                rintro rfl
                rw [hun] at he'
                cases he'
              show new₂.leaf v = _
              rw [hleaf, Function.update_of_ne hne]
              exact he'
            · have he' : new₂.leaf v = some e' := he'
              rw [hleaf] at he'
              by_cases hv : v = vpn i
              · subst hv
                rw [Function.update_self] at he'
                cases he'
                refine Or.inr ⟨e, he, rfl, hmem, fun hfree => htaken (hdraws₂.sub _ hfree), ?_⟩
                show m₂.page mem = m.page e.pa
                rw [hdraws₂.page mem htaken, Memory.write_page, Function.update_self,
                  hdraws.page _ (hused _ e he)]
              · rw [Function.update_of_ne hv] at he'
                exact Or.inl he'
          obtain ⟨hrest, hlater⟩ := ih (fun v e' he' hfree => hused v e' he' (hall.sub _ hfree))
            hall.nodup hw₂ h
          refine ⟨hfirst.trans hused hrest, fun j hj e' he' => ?_⟩
          rcases List.mem_cons.mp hj with rfl | hj
          · rw [he] at he'
            cases he'
            refine ⟨mem, hrest.kept _ _ ?_⟩
            show new₂.leaf (vpn j) = _
            rw [hleaf, Function.update_self]
          · exact hlater j hj e' he'

theorem uvmcopy_copies {r : Running} {sz : ℕ} (hold : old.Wf)
    (hused : ∀ v e, old.leaf v = some e → e.pa ∉ s.1.freelist) (hn : s.1.freelist.Nodup)
    (hw : s.2.Wf) (h : uvmcopy r old sz s = .ok (true, s')) :
    CopiesFrom old s s' ∧ ∀ i ∈ pages 0 sz, ∀ e, old.leaf (vpn i) = some e →
      ∃ pa, s'.2.leaf (vpn i) = some { e with pa := pa } := by
  unfold uvmcopy at h
  obtain ⟨⟨stop, s₁⟩, hloop, h⟩ := bind_ok_iff.mp h
  cases stop with
  | none =>
    cases h
    exact uvmcopyLoop_copies hold hused hn hw hloop
  | some i =>
    obtain ⟨s₂, -, h⟩ := bind_ok_iff.mp h
    cases h

end Copies

section Shared

variable {group : ℕ} {is : List ℕ} {c c' : CowCopy}

theorem onlyValid_readOnly {e : Pte} (h : e.r = true) : (readOnly e).onlyValid = false := by
  simp [readOnly, Pte.onlyValid, h]

/-- The child's table after the pages of the parent have been shared. -/
theorem uvmcopyCowLoop_new (hread : ∀ v e, c.old.leaf v = some e → e.r = true) (hw : c.new.Wf)
    (h : uvmcopyCowLoop group is c = .ok (none, c')) :
    c'.new.Wf ∧ (∀ v e, c.new.leaf v = some e → c'.new.leaf v = some e) ∧
      ∀ i ∈ is, ∀ e, c.old.leaf (vpn i) = some e → c'.new.leaf (vpn i) = some (readOnly e) := by
  induction is generalizing c with
  | nil =>
    cases h
    exact ⟨hw, fun _ _ he => he, by simp⟩
  | cons i is ih =>
    unfold uvmcopyCowLoop at h
    obtain ⟨slot, hwalk, h⟩ := bind_ok_iff.mp h
    rcases slot with _ | _ | e
    · cases h
    · obtain ⟨hw', hkept, hall⟩ := ih hread hw h
      refine ⟨hw', hkept, fun j hj e he => ?_⟩
      rcases List.mem_cons.mp hj with rfl | hj
      · rw [walk_empty hwalk] at he
        cases he
      · exact hall j hj e he
    · have he := walk_entry hwalk
      simp only at h
      obtain ⟨⟨ok, m, new⟩, hmap, h⟩ := bind_ok_iff.mp h
      obtain ⟨-, -, hw₁, hcase⟩ := mappages_ok hw (onlyValid_readOnly (hread _ e he)) hmap
      rcases hcase with ⟨rfl, -⟩ | ⟨rfl, hun, hleaf⟩
      · simp only [Bool.not_false, ↓reduceIte] at h
        cases h
      · simp only [Bool.not_true, Bool.false_eq_true, ↓reduceIte] at h
        obtain ⟨groups, -, h⟩ := bind_ok_iff.mp h
        have hread₁ : ∀ v e', (c.old.set i (some (readOnly e))).leaf v = some e' → e'.r = true := by
          intro v e' he'
          rw [set_leaf] at he'
          by_cases hv : v = vpn i
          · subst hv
            rw [Function.update_self] at he'
            cases he'
            exact hread _ e he
          · rw [Function.update_of_ne hv] at he'
            exact hread v e' he'
        obtain ⟨hw', hkept, hall⟩ := @ih
          ⟨groups, m, c.old.set i (some (readOnly e)), new⟩ hread₁ hw₁ h
        refine ⟨hw', fun v e' he' => hkept v e' ?_, fun j hj e' he' => ?_⟩
        · have hne : v ≠ vpn i := by
            rintro rfl
            rw [hun] at he'
            cases he'
          show new.leaf v = _
          rw [hleaf, Function.update_of_ne hne]
          exact he'
        · by_cases hv : vpn j = vpn i
          · rw [hv] at he' ⊢
            rw [he] at he'
            cases he'
            refine hkept _ _ ?_
            show new.leaf (vpn i) = _
            rw [hleaf, Function.update_self]
          · rcases List.mem_cons.mp hj with rfl | hj
            · exact absurd rfl hv
            · refine hall j hj e' ?_
              show (c.old.set i (some (readOnly e))).leaf (vpn j) = _
              rw [set_leaf, Function.update_of_ne hv]
              exact he'

theorem uvmcopyCow_new {sz : ℕ} (hread : ∀ v e, c.old.leaf v = some e → e.r = true)
    (hw : c.new.Wf) (h : uvmcopyCow group sz c = .ok (true, c')) :
    c'.new.Wf ∧ ∀ i ∈ pages 0 sz, ∀ e, c.old.leaf (vpn i) = some e →
      c'.new.leaf (vpn i) = some (readOnly e) := by
  unfold uvmcopyCow at h
  obtain ⟨⟨stop, c₁⟩, hloop, h⟩ := bind_ok_iff.mp h
  cases stop with
  | none =>
    cases h
    obtain ⟨hw', -, hall⟩ := uvmcopyCowLoop_new hread hw hloop
    exact ⟨hw', hall⟩
  | some i =>
    obtain ⟨s₂, -, h⟩ := bind_ok_iff.mp h
    cases h

end Shared

section Child

/-- An on-demand process that is about to fork: its size is that of whole pages, every page it
maps can be read, and the allocator does not hold the page of the trampoline. -/
structure Forker (s : System) (i : ℕ) (c : Cpu) : Prop where
  live : (s.proc i).state = .live
  cpu : s.cpu i = some c
  ondemand : c.proc.ondemand = true
  tidy : c.Tidy
  aligned : c.proc.sz % PGSIZE = 0
  readable : ∀ v e, c.table.leaf v = some e → e.r = true
  trampoline_ne : s.kernel.memory.trampoline ≠ 0
  trampoline_used : s.kernel.memory.trampoline ∉ s.kernel.memory.freelist

/-- The child `d` of the process `c`, in the slot where the process `last` was before. -/
structure ChildOf (c d : Cpu) (last : Proc) : Prop where
  tidy : d.Tidy
  tracker : d.proc.heapTracker = last.heapTracker
  resident : d.proc.residentHeapPages = last.residentHeapPages
  sz : d.proc.sz = c.proc.sz
  ondemand : d.proc.ondemand = c.proc.ondemand
  disk : d.kernel.disk = c.kernel.disk
  page : ∀ v e', d.table.leaf v = some e' → e'.u = true → ∃ e, c.table.leaf v = some e ∧
    e.u = true ∧ d.kernel.memory.page e'.pa = c.kernel.memory.page e.pa
  mapped : ∀ v e, c.table.leaf v = some e → PGSIZE * v < c.proc.sz →
    ∃ e', d.table.leaf v = some e' ∧ e'.u = e.u ∧ e'.r = e.r
  readable : ∀ v e', d.table.leaf v = some e' → e'.r = true
  only : ∀ v e', d.table.leaf v = some e' →
    (c.table.leaf v).isSome ∨ v = vpn TRAPFRAME ∨ v = vpn TRAMPOLINE

variable {s s₁ t : System} {i n : ℕ} {np : Proc} {pg parent : Pagetable} {trapframe : ℕ}
  {m₀ m : Memory} {c d : Cpu}

theorem cpu_eq (h : s.cpu i = some c) {pg : Pagetable} (hpg : (s.proc i).pagetable = some pg) :
    c = ⟨s.kernel, s.proc i, pg.table⟩ := by
  unfold System.cpu at h
  rw [hpg] at h
  cases h
  rfl

theorem Allocated.frames (H : Forker s i c)
    (A : Allocated s (s.running i) n np pg s₁ trapframe m₀ m) {v : ℕ} {e : Pte}
    (he : pg.table.leaf v = some e) : e.u = false ∧ e.pa ≠ 0 ∧ e.pa ∉ m.freelist := by
  have hkernel := (cpu_some H.cpu).1
  have hn := H.tidy.nodup
  have hsound := H.tidy.sound
  rw [hkernel] at hn hsound
  obtain ⟨hdraws, hmem, htaken, hleaf⟩ := A.fresh hn
  obtain ⟨hu, ⟨hpa, -⟩ | ⟨hpa, -⟩⟩ := hleaf v e he
  · rw [hpa]
    exact ⟨hu, H.trampoline_ne, fun hfree => H.trampoline_used (hdraws.sub _ hfree)⟩
  · rw [hpa]
    exact ⟨hu, (hsound _ hmem).1, htaken⟩

theorem Allocated.readable (hn : s.kernel.memory.freelist.Nodup)
    (A : Allocated s (s.running i) n np pg s₁ trapframe m₀ m) {v : ℕ} {e : Pte}
    (he : pg.table.leaf v = some e) : e.r = true ∧ (v = vpn TRAPFRAME ∨ v = vpn TRAMPOLINE) := by
  rw [(procPagetable_leaf (kalloc_draws hn A.kalloc).1.nodup A.table).2] at he
  simp only [Function.update_apply] at he
  split_ifs at he with h₁ h₂
  · cases he
    exact ⟨rfl, Or.inl h₁⟩
  · cases he
    exact ⟨rfl, Or.inr h₂⟩

theorem mem_pages_of_lt {v sz : ℕ} (h : PGSIZE * v < sz) :
    PGSIZE * v ∈ pages 0 sz ∧ vpn (PGSIZE * v) = v := by
  refine ⟨mem_pages.mpr ⟨Nat.zero_le _, h, ?_⟩, ?_⟩
  · simp
  · simp [vpn]

theorem copyForked_child {m' : Memory} {table : PageTable ℕ} (H : Forker s i c) (hne : n ≠ i)
    (hparent : (s.proc i).pagetable = some parent)
    (A : Allocated s (s.running i) n np pg s₁ trapframe m₀ m)
    (F : CopyForked s₁ t i n np parent pg m' table) (hd : t.cpu n = some d) :
    ChildOf c d (s.proc n) := by
  obtain rfl := cpu_eq H.cpu hparent
  have hproc : s₁.proc i = s.proc i := by
    rw [A.system]
    exact Function.update_of_ne hne.symm _ _
  have hmem := A.memory
  obtain ⟨hdraws, -, -, -⟩ := A.fresh H.tidy.nodup
  have hcopied := F.copied
  rw [hproc, hmem] at hcopied
  have hused : ∀ v e, parent.table.leaf v = some e → e.pa ∉ m.freelist :=
    fun v e he hfree => H.tidy.used v e he (hdraws.sub _ hfree)
  obtain ⟨C, hall⟩ := uvmcopy_copies H.tidy.wf hused hdraws.nodup (procPagetable_wf A.table) hcopied
  have htable : (t.proc n).pagetable = some { pg with table := table } := by
    rw [F.system]
    simp [System.startChild, System.setProc]
  obtain rfl := cpu_eq hd htable
  have hmem' := F.memory
  have hrow : t.proc n = { np with
      pagetable := some { pg with table := table }, sz := (s.proc i).sz, name := (s.proc i).name,
      ondemand := (s.proc i).ondemand, parent := some i, state := .live } := by
    rw [F.system, ← hproc]
    exact Function.update_self _ _ _
  have hentry : ∀ v e', table.leaf v = some e' → e'.pa ≠ 0 ∧ e'.pa ∉ m'.freelist ∧
      (e'.r = true ∧ ((parent.table.leaf v).isSome ∨ v = vpn TRAPFRAME ∨ v = vpn TRAMPOLINE)) ∧
      (e'.u = true → ∃ e, parent.table.leaf v = some e ∧ e.u = true ∧
        m'.page e'.pa = s.kernel.memory.page e.pa) := by
    intro v e' he'
    rcases C.copied v e' he' with hnew | ⟨e, he, heq, hfree, htaken, hpage⟩
    · obtain ⟨hu, hne, hfree⟩ := A.frames H hnew
      obtain ⟨hr, hv⟩ := A.readable H.tidy.nodup hnew
      refine ⟨hne, fun hfree' => hfree (C.draws.sub _ hfree'), ⟨hr, Or.inr hv⟩, fun hu' => ?_⟩
      rw [hu] at hu'
      cases hu'
    · refine ⟨(hdraws.sound H.tidy.sound _ hfree).1, htaken, ⟨?_, Or.inl (by rw [he]; rfl)⟩,
        fun hu => ⟨e, he, ?_, ?_⟩⟩
      · rw [heq]
        exact H.readable v e he
      · rw [heq] at hu
        exact hu
      · exact hpage.trans (hdraws.page _ (H.tidy.used v e he))
  refine ⟨⟨?_, C.wf, fun v e' he' => (hentry v e' he').1, fun v e' he' => ?_, ?_, ?_⟩,
    ?_, ?_, ?_, ?_, ?_, fun v e' he' hu => ?_, fun v e he hlt => ?_,
    fun v e' he' => (hentry v e' he').2.2.1.1, fun v e' he' => (hentry v e' he').2.2.1.2⟩
  · rw [hrow]
    exact H.tidy.sz
  · rw [hmem']
    exact (hentry v e' he').2.1
  · rw [hmem']
    exact (hdraws.trans C.draws).sound H.tidy.sound
  · rw [hmem']
    exact C.draws.nodup
  · rw [hrow, A.child]
  · rw [hrow, A.child]
  · rw [hrow]
  · rw [hrow]
  · rw [F.system, A.system]
    rfl
  · rw [hmem']
    exact (hentry v e' he').2.2.2 hu
  · obtain ⟨hmem₁, hvpn⟩ := mem_pages_of_lt hlt
    obtain ⟨pa, hpa⟩ := hall _ hmem₁ e (by rw [hvpn]; exact he)
    rw [hvpn] at hpa
    exact ⟨_, hpa, rfl, rfl⟩

theorem cowForked_child {copy : CowCopy} {groups : CowGroups} (H : Forker s i c) (hne : n ≠ i)
    (hparent : (s.proc i).pagetable = some parent)
    (A : Allocated s (s.running i) n np pg s₁ trapframe m₀ m)
    (F : CowForked s₁ t i n np parent pg copy groups) (hd : t.cpu n = some d) :
    ChildOf c d (s.proc n) := by
  obtain rfl := cpu_eq H.cpu hparent
  have hproc : s₁.proc i = s.proc i := by
    rw [A.system]
    exact Function.update_of_ne hne.symm _ _
  have hmem := A.memory
  obtain ⟨hdraws, -, -, -⟩ := A.fresh H.tidy.nodup
  have hjoin : (joinGroup (s₁.proc i) s₁.kernel.groups).1.sz = (s.proc i).sz ∧
      (joinGroup (s₁.proc i) s₁.kernel.groups).1.name = (s.proc i).name ∧
      (joinGroup (s₁.proc i) s₁.kernel.groups).1.ondemand = (s.proc i).ondemand := by
    rw [hproc]
    unfold joinGroup
    split_ifs <;> exact ⟨rfl, rfl, rfl⟩
  have hcopied := F.copied
  rw [hjoin.1, hmem] at hcopied
  have S := uvmcopyCow_shares hdraws.nodup hcopied
  obtain ⟨hwf, hall⟩ := uvmcopyCow_new H.readable (procPagetable_wf A.table) hcopied
  have htable : (t.proc n).pagetable = some { pg with table := copy.new } := by
    rw [F.system]
    simp [System.startChild, System.setProc]
  obtain rfl := cpu_eq hd htable
  have hmem' := F.memory
  have hrow : (t.proc n).heapTracker = (s.proc n).heapTracker ∧
      (t.proc n).residentHeapPages = (s.proc n).residentHeapPages ∧
      (t.proc n).sz = (s.proc i).sz ∧ (t.proc n).ondemand = (s.proc i).ondemand := by
    rw [F.system, ← hjoin.1, ← hjoin.2.2]
    simp [System.startChild, System.setProc, A.child]
  have hentry : ∀ v e', copy.new.leaf v = some e' → e'.pa ≠ 0 ∧ e'.pa ∉ copy.memory.freelist ∧
      (e'.r = true ∧ ((parent.table.leaf v).isSome ∨ v = vpn TRAPFRAME ∨ v = vpn TRAMPOLINE)) ∧
      (e'.u = true → ∃ e, parent.table.leaf v = some e ∧ e.u = true ∧
        copy.memory.page e'.pa = s.kernel.memory.page e.pa) := by
    intro v e' he'
    rcases S.new v e' he' with hnew | ⟨-, hold⟩
    · obtain ⟨hu, hne, hfree⟩ := A.frames H hnew
      obtain ⟨hr, hv⟩ := A.readable H.tidy.nodup hnew
      refine ⟨hne, fun hfree' => hfree (S.draws.sub _ hfree'), ⟨hr, Or.inr hv⟩, fun hu' => ?_⟩
      rw [hu] at hu'
      cases hu'
    · obtain ⟨e, he, hpa, hu, hr, -⟩ := S.entry hold
      have hused := H.tidy.used v e he
      rw [← hpa]
      refine ⟨H.tidy.frames v e he, fun hfree => hused (hdraws.sub _ (S.draws.sub _ hfree)),
        ⟨hr ▸ H.readable v e he, Or.inl (by rw [he]; rfl)⟩,
        fun hu' => ⟨e, he, hu.trans hu', ?_⟩⟩
      exact (S.draws.page _ fun hfree => hused (hdraws.sub _ hfree)).trans (hdraws.page _ hused)
  refine ⟨⟨?_, hwf, fun v e' he' => (hentry v e' he').1, fun v e' he' => ?_, ?_, ?_⟩,
    hrow.1, hrow.2.1, hrow.2.2.1, hrow.2.2.2, ?_, fun v e' he' hu => ?_, fun v e he hlt => ?_,
    fun v e' he' => (hentry v e' he').2.2.1.1, fun v e' he' => (hentry v e' he').2.2.1.2⟩
  · rw [hrow.2.2.1]
    exact H.tidy.sz
  · rw [hmem']
    exact (hentry v e' he').2.1
  · rw [hmem']
    exact (hdraws.trans S.draws).sound H.tidy.sound
  · rw [hmem']
    exact S.draws.nodup
  · rw [F.system, A.system]
    rfl
  · rw [hmem']
    exact (hentry v e' he').2.2.2 hu
  · obtain ⟨hmem₁, hvpn⟩ := mem_pages_of_lt hlt
    have hpa := hall _ hmem₁ e (by rw [hvpn]; exact he)
    rw [hvpn] at hpa
    exact ⟨_, hpa, rfl, rfl⟩

/-- What a fork that yields a child gives to it. -/
theorem fork_child {cow : Bool} (H : Forker s i c) (hslot : s.freeSlot = some n)
    (hfork : s.fork i cow = .ok t) (hlive : (t.proc n).state = .live) (hd : t.cpu n = some d) :
    ChildOf c d (s.proc n) := by
  have hforks : Forks s i cow := by
    intro n' t' hn ht
    rw [hslot] at hn
    rw [hfork] at ht
    cases hn
    cases ht
    exact hlive
  rcases fork_cases H.live hforks hfork with
    ⟨hnone, -⟩ | ⟨n', np, pg, s₁, trapframe, m₀, m, parent, hne, hparent, A, hcase⟩
  · rw [hslot] at hnone
    cases hnone
  · obtain rfl : n = n' := Option.some.inj (hslot.symm.trans A.slot)
    rcases hcase with ⟨-, copy, groups, F⟩ | ⟨-, m', table, F⟩
    · exact cowForked_child H hne hparent A F hd
    · exact copyForked_child H hne hparent A F hd

end Child

end AdvancedOperatingSystems.DemandPaging
