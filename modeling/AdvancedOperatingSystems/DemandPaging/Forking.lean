import AdvancedOperatingSystems.DemandPaging.Ownership
import AdvancedOperatingSystems.DemandPaging.System

/-!
# What a successful fork does

The child's slot, its table and what the two ways of copying memory make of the tables of
parent and child.
-/

namespace AdvancedOperatingSystems.DemandPaging

open Foundations Riscv Riscv.PageTable

/-- The entry of a process for a page, by page number. -/
def System.leaf (s : System) (i v : ℕ) : Option Pte :=
  (s.proc i).pagetable.bind fun pg => pg.table.leaf v

section Rows

variable {s : System} {i j v : ℕ} {p : Proc} {c c' : Cpu}

@[simp] theorem setMemory_leaf (m : Memory) : (s.setMemory m).leaf i v = s.leaf i v := rfl

@[simp] theorem setGroups_leaf (groups : CowGroups) : (s.setGroups groups).leaf i v = s.leaf i v :=
  rfl

theorem setProc_leaf : (s.setProc i p).leaf j v =
    if j = i then p.pagetable.bind fun pg => pg.table.leaf v else s.leaf j v := by
  unfold System.leaf System.setProc
  by_cases h : j = i
  · subst h
    simp
  · simp [h]

theorem cpu_some (h : s.cpu i = some c) :
    c.kernel = s.kernel ∧ c.proc = s.proc i ∧ ∀ v, s.leaf i v = c.table.leaf v := by
  obtain ⟨pg, hpg, rfl⟩ := Option.map_eq_some_iff.mp h
  exact ⟨rfl, rfl, fun v => by simp [System.leaf, hpg]⟩

theorem setCpu_leaf (h : s.cpu i = some c) (hp : SameProc c.proc c'.proc) :
    (s.setCpu i c').leaf j v = if j = i then c'.table.leaf v else s.leaf j v := by
  obtain ⟨pg, hpg, rfl⟩ := Option.map_eq_some_iff.mp h
  have hpg' : c'.proc.pagetable = some pg := by
    unfold SameProc at hp
    rw [hp]
    exact hpg
  by_cases hj : j = i
  · subst hj
    simp [System.leaf, System.setCpu, hpg']
  · simp [System.leaf, System.setCpu, hj]

end Rows

section NewTable

variable {r : Running} {m m' : Memory} {trapframe : ℕ} {pg : Pagetable}

abbrev trampolinePte (m : Memory) : Pte := ⟨m.trampoline, true, false, true, false⟩

abbrev trapframePte (trapframe : ℕ) : Pte := ⟨trapframe, true, true, false, false⟩

/-- A new table has two entries. -/
theorem procPagetable_leaf (hn : m.freelist.Nodup)
    (h : procPagetable r trapframe m = .ok (some pg, m')) :
    m.Draws m' ∧ pg.table.leaf = Function.update (Function.update (fun _ => none)
      (vpn TRAMPOLINE) (some (trampolinePte m))) (vpn TRAPFRAME)
      (some (trapframePte trapframe)) := by
  unfold procPagetable at h
  cases hc : uvmcreate m with
  | none =>
    simp only [hc] at h
    cases h
  | some q =>
    obtain ⟨pg₀, m₀⟩ := q
    simp only [hc] at h
    obtain ⟨⟨root, m₁⟩, hk, hroot⟩ := Option.map_eq_some_iff.mp hc
    cases hroot
    obtain ⟨hdraws, hmem, -⟩ := kalloc_draws hn hk
    have hdraws₁ : m.Draws (m₁.memset root 0) := hdraws.write hmem _
    obtain ⟨⟨ok₁, m₂, pt₂⟩, hmap₁, h⟩ := bind_ok_iff.mp h
    obtain ⟨hdraws₂, hresult₁⟩ := mappages_draws hdraws₁.nodup hmap₁
    cases hresult₁ with
    | fails _ =>
      simp only [Bool.not_false, ↓reduceIte] at h
      obtain ⟨m₃, -, h⟩ := bind_ok_iff.mp h
      cases h
    | maps _ hleaf₁ =>
      simp only [Bool.not_true, Bool.false_eq_true, ↓reduceIte] at h
      obtain ⟨⟨ok₂, m₃, pt₃⟩, hmap₂, h⟩ := bind_ok_iff.mp h
      obtain ⟨hdraws₃, hresult₂⟩ := mappages_draws hdraws₂.nodup hmap₂
      cases hresult₂ with
      | fails _ =>
        simp only [Bool.not_false, ↓reduceIte] at h
        obtain ⟨s₄, -, h⟩ := bind_ok_iff.mp h
        obtain ⟨m₅, -, h⟩ := bind_ok_iff.mp h
        cases h
      | maps _ hleaf₂ =>
        simp only [Bool.not_true, Bool.false_eq_true, ↓reduceIte] at h
        cases h
        refine ⟨(hdraws₁.trans hdraws₂).trans hdraws₃, ?_⟩
        show pt₃.leaf = _
        rw [hleaf₂, hleaf₁, trampolinePte, hdraws₁.trampoline]
        rfl

theorem procPagetable_wf (h : procPagetable r trapframe m = .ok (some pg, m')) :
    pg.table.Wf := by
  unfold procPagetable at h
  cases hc : uvmcreate m with
  | none =>
    simp only [hc] at h
    cases h
  | some q =>
    obtain ⟨pg₀, m₀⟩ := q
    simp only [hc] at h
    obtain ⟨⟨root, m₁⟩, -, hroot⟩ := Option.map_eq_some_iff.mp hc
    cases hroot
    obtain ⟨⟨ok₁, m₂, pt₂⟩, hmap₁, h⟩ := bind_ok_iff.mp h
    obtain ⟨-, -, hw₂, -⟩ := mappages_ok wf_empty rfl hmap₁
    cases ok₁ with
    | false =>
      simp only [Bool.not_false, ↓reduceIte] at h
      obtain ⟨m₃, -, h⟩ := bind_ok_iff.mp h
      cases h
    | true =>
      simp only [Bool.not_true, Bool.false_eq_true, ↓reduceIte] at h
      obtain ⟨⟨ok₂, m₃, pt₃⟩, hmap₂, h⟩ := bind_ok_iff.mp h
      obtain ⟨-, -, hw₃, -⟩ := mappages_ok hw₂ rfl hmap₂
      cases ok₂ with
      | false =>
        simp only [Bool.not_false, ↓reduceIte] at h
        obtain ⟨s₄, -, h⟩ := bind_ok_iff.mp h
        obtain ⟨m₅, -, h⟩ := bind_ok_iff.mp h
        cases h
      | true =>
        simp only [Bool.not_true, Bool.false_eq_true, ↓reduceIte] at h
        cases h
        exact hw₃

end NewTable

section Copies

variable {old : PageTable ℕ} {s s' : Space} {is : List ℕ}

theorem uvmcopyLoop_evolves {Q : Pte → Prop} (hQ : ∀ v e, old.leaf v = some e → ∀ pa,
    Q { e with pa := pa }) (hn : s.1.freelist.Nodup)
    (h : uvmcopyLoop old is s = .ok (none, s')) : Evolves Q s s' := by
  induction is generalizing s with
  | nil =>
    cases h
    exact .refl hn
  | cons i is ih =>
    obtain ⟨m, new⟩ := s
    unfold uvmcopyLoop at h
    obtain ⟨slot, hwalk, h⟩ := bind_ok_iff.mp h
    rcases slot with _ | _ | e
    · cases h
    · exact ih hn h
    · simp only at h
      cases hk : m.kalloc with
      | none =>
        simp only [hk] at h
        cases h
      | some q =>
        obtain ⟨mem, m₁⟩ := q
        simp only [hk] at h
        obtain ⟨hdraws, hmem, htaken⟩ := kalloc_draws hn hk
        obtain ⟨⟨ok, m₂, new₂⟩, hmap, h⟩ := bind_ok_iff.mp h
        have hdraws₁ := hdraws.write hmem (m₁.page e.pa)
        obtain ⟨hdraws₂, hresult⟩ := mappages_draws hdraws₁.nodup hmap
        cases hresult with
        | fails _ =>
          simp only [Bool.false_eq_true, ↓reduceIte] at h
          obtain ⟨m₃, -, h⟩ := bind_ok_iff.mp h
          cases h
        | maps _ hleaf =>
          simp only [↓reduceIte] at h
          have hall : m.Draws m₂ := hdraws₁.trans hdraws₂
          have htaken₂ : mem ∉ m₂.freelist := fun hfree => htaken (hdraws₂.sub _ hfree)
          have he : old.leaf (vpn i) = some e := ((walk_ok hwalk).2 _ rfl).symm
          exact (Evolves.of_map hall (hQ _ e he mem) hmem htaken₂ hleaf).trans (ih hall.nodup h)

theorem uvmcopy_evolves {Q : Pte → Prop} {r : Running} {sz : ℕ}
    (hQ : ∀ v e, old.leaf v = some e → ∀ pa, Q { e with pa := pa }) (hn : s.1.freelist.Nodup)
    (h : uvmcopy r old sz s = .ok (true, s')) : Evolves Q s s' := by
  unfold uvmcopy at h
  obtain ⟨⟨stop, s₁⟩, hloop, h⟩ := bind_ok_iff.mp h
  cases stop with
  | none =>
    cases h
    exact uvmcopyLoop_evolves hQ hn hloop
  | some i =>
    obtain ⟨s₂, -, h⟩ := bind_ok_iff.mp h
    cases h

/-- The two tables after pages have been shared: the parent has lost the right to write to
some, and the child has got such pages only. -/
structure Shares (s s' : CowCopy) : Prop where
  draws : s.memory.Draws s'.memory
  old : ∀ v, s'.old.leaf v = s.old.leaf v ∨ s'.old.leaf v = (s.old.leaf v).map readOnly
  new : ∀ v e, s'.new.leaf v = some e →
    s.new.leaf v = some e ∨ e.w = false ∧ s'.old.leaf v = some e

theorem readOnly_readOnly (e : Pte) : readOnly (readOnly e) = readOnly e := rfl

theorem readOnly_of_not_w {e : Pte} (h : e.w = false) : readOnly e = e := by
  unfold readOnly
  rw [← h]

variable {c c' c'' : CowCopy} {group : ℕ}

theorem Shares.refl (hn : c.memory.freelist.Nodup) : Shares c c :=
  ⟨.refl hn, fun _ => Or.inl rfl, fun _ _ h => Or.inl h⟩

theorem Shares.trans (h : Shares c c') (h' : Shares c' c'') : Shares c c'' where
  draws := h.draws.trans h'.draws
  old v := by
    rcases h'.old v with h₂ | h₂ <;> rcases h.old v with h₁ | h₁
    · exact Or.inl (h₂.trans h₁)
    · exact Or.inr (h₂.trans h₁)
    · exact Or.inr (h₂.trans (congrArg _ h₁))
    · refine Or.inr ?_
      rw [h₂, h₁, Option.map_map]
      rfl
  new v e he := by
    rcases h'.new v e he with hold | hshared
    · rcases h.new v e hold with hold | ⟨hw, hold⟩
      · exact Or.inl hold
      · refine Or.inr ⟨hw, ?_⟩
        rcases h'.old v with h₂ | h₂
        · rw [h₂, hold]
        · rw [h₂, hold, Option.map_some, readOnly_of_not_w hw]
    · exact Or.inr hshared

theorem Shares.entry (h : Shares c c') {v : ℕ} {e : Pte} (he : c'.old.leaf v = some e) :
    ∃ e₀, c.old.leaf v = some e₀ ∧ e₀.pa = e.pa ∧ e₀.u = e.u ∧ e₀.r = e.r ∧
      (e.w = true → e₀.w = true) := by
  rcases h.old v with hsame | hcleared
  · exact ⟨e, by rw [← he, hsame], rfl, rfl, rfl, id⟩
  · rw [hcleared, Option.map_eq_some_iff] at he
    obtain ⟨e₀, he₀, rfl⟩ := he
    exact ⟨e₀, he₀, rfl, rfl, rfl, by simp [readOnly]⟩

theorem uvmcopyCowLoop_shares (hn : c.memory.freelist.Nodup)
    (h : uvmcopyCowLoop group is c = .ok (none, c')) : Shares c c' := by
  induction is generalizing c with
  | nil =>
    cases h
    exact .refl hn
  | cons i is ih =>
    unfold uvmcopyCowLoop at h
    obtain ⟨slot, hwalk, h⟩ := bind_ok_iff.mp h
    rcases slot with _ | _ | e
    · cases h
    · exact ih hn h
    · simp only at h
      obtain ⟨⟨ok, m, new⟩, hmap, h⟩ := bind_ok_iff.mp h
      obtain ⟨hdraws, hresult⟩ := mappages_draws hn hmap
      cases hresult with
      | fails _ =>
        simp only [Bool.not_false, ↓reduceIte] at h
        cases h
      | maps _ hleaf =>
        simp only [Bool.not_true, Bool.false_eq_true, ↓reduceIte] at h
        obtain ⟨groups, -, h⟩ := bind_ok_iff.mp h
        have he : c.old.leaf (vpn i) = some e := ((walk_ok hwalk).2 _ rfl).symm
        refine Shares.trans ⟨hdraws, fun v => ?_, fun v e' he' => ?_⟩ (ih hdraws.nodup h)
        · by_cases hv : v = vpn i
          · subst hv
            exact Or.inr (by simp [he])
          · exact Or.inl (by simp [hv])
        · simp only [hleaf] at he'
          by_cases hv : v = vpn i
          · subst hv
            rw [Function.update_self] at he'
            cases he'
            exact Or.inr ⟨rfl, by simp⟩
          · rw [Function.update_of_ne hv] at he'
            exact Or.inl he'

theorem uvmcopyCow_shares {sz : ℕ} (hn : c.memory.freelist.Nodup)
    (h : uvmcopyCow group sz c = .ok (true, c')) : Shares c c' := by
  unfold uvmcopyCow at h
  obtain ⟨⟨stop, c₁⟩, hloop, h⟩ := bind_ok_iff.mp h
  cases stop with
  | none =>
    cases h
    exact uvmcopyCowLoop_shares hn hloop
  | some i =>
    obtain ⟨s₂, -, h⟩ := bind_ok_iff.mp h
    cases h

end Copies

section Fork

variable {s s' s₁ : System} {r : Running} {i n : ℕ} {np : Proc} {pg : Pagetable} {cow : Bool}

/-- The child before it gets its memory. -/
structure Allocated (s : System) (r : Running) (n : ℕ) (np : Proc) (pg : Pagetable)
    (s₁ : System) (trapframe : ℕ) (m₀ m : Memory) : Prop where
  slot : s.freeSlot = some n
  kalloc : s.kernel.memory.kalloc = some (trapframe, m₀)
  table : procPagetable r trapframe m₀ = .ok (some pg, m)
  child : np = { s.proc n with
    pid := s.nextpid, state := .used, trapframe := some trapframe, pagetable := some pg }
  system : s₁ = (({ s with nextpid := s.nextpid + 1 } : System).setMemory m).setProc n np

theorem freeSlot_unused (h : s.freeSlot = some n) : n < NPROC ∧ (s.proc n).state = .unused := by
  unfold System.freeSlot at h
  refine ⟨List.mem_range.mp (List.mem_of_find?_eq_some h), ?_⟩
  have := List.find?_some h
  simpa using this

theorem freeproc_unused {p p' : Proc} {m m' : Memory} (h : freeproc r p m = .ok (p', m')) :
    p'.state = .unused := by
  unfold freeproc at h
  obtain ⟨m₁, -, h⟩ := bind_ok_iff.mp h
  obtain ⟨m₂, -, h⟩ := bind_ok_iff.mp h
  cases h
  rfl

/-- Without a child, `allocproc` has found no slot, or it leaves the slot unused. -/
theorem allocproc_cases {result : Option (ℕ × Proc × Pagetable)}
    (h : s.allocproc r = .ok (result, s₁)) :
    (result = none ∧ s.freeSlot = none ∧ s₁ = s) ∨
    (result = none ∧ ∃ n, s.freeSlot = some n ∧ (s₁.proc n).state = .unused) ∨
    ∃ n np pg trapframe m₀ m, result = some (n, np, pg) ∧ Allocated s r n np pg s₁ trapframe m₀ m := by
  unfold System.allocproc at h
  cases hslot : s.freeSlot with
  | none =>
    simp only [hslot] at h
    cases h
    exact Or.inl ⟨rfl, rfl, rfl⟩
  | some n =>
    simp only [hslot] at h
    cases hk : s.kernel.memory.kalloc with
    | none =>
      simp only [hk] at h
      obtain ⟨⟨np, m⟩, hfree, h⟩ := bind_ok_iff.mp h
      cases h
      refine Or.inr (Or.inl ⟨rfl, n, rfl, ?_⟩)
      simp only [System.setProc, Function.update_self]
      exact freeproc_unused hfree
    | some q =>
      obtain ⟨trapframe, m₀⟩ := q
      simp only [hk] at h
      obtain ⟨⟨pg, m⟩, htable, h⟩ := bind_ok_iff.mp h
      cases pg with
      | none =>
        simp only at h
        obtain ⟨⟨np, m⟩, hfree, h⟩ := bind_ok_iff.mp h
        cases h
        refine Or.inr (Or.inl ⟨rfl, n, rfl, ?_⟩)
        simp only [System.setProc, Function.update_self]
        exact freeproc_unused hfree
      | some pg =>
        cases h
        exact Or.inr (Or.inr ⟨n, _, pg, trapframe, m₀, m, rfl, hslot, hk, htable, rfl, rfl⟩)

def Forks (s : System) (i : ℕ) (cow : Bool) : Prop :=
  ∀ n s', s.freeSlot = some n → s.fork i cow = .ok s' → (s'.proc n).state = .live

/-- The system after `fork(1)`. -/
structure CowForked (s₁ s' : System) (i n : ℕ) (np : Proc) (parent pg : Pagetable)
    (copy : CowCopy) (groups : CowGroups) : Prop where
  copied : uvmcopyCow (joinGroup (s₁.proc i) s₁.kernel.groups).1.cowGroup
    (joinGroup (s₁.proc i) s₁.kernel.groups).1.sz
    ⟨(joinGroup (s₁.proc i) s₁.kernel.groups).2, s₁.kernel.memory, parent.table, pg.table⟩ =
      .ok (true, copy)
  system : s' = (((s₁.setMemory copy.memory).setGroups groups).setProc i
    { (joinGroup (s₁.proc i) s₁.kernel.groups).1 with
      pagetable := some { parent with table := copy.old } }).startChild i n
    { np with cowEnabled := true,
              cowGroup := (joinGroup (s₁.proc i) s₁.kernel.groups).1.cowGroup }
    { pg with table := copy.new }

/-- The system after `fork(0)`. -/
structure CopyForked (s₁ s' : System) (i n : ℕ) (np : Proc) (parent pg : Pagetable)
    (m : Memory) (table : PageTable ℕ) : Prop where
  copied : uvmcopy (s₁.running i) parent.table (s₁.proc i).sz (s₁.kernel.memory, pg.table) =
    .ok (true, m, table)
  system : s' = (s₁.setMemory m).startChild i n np { pg with table := table }

section Rows

variable {parent : Pagetable} {trapframe : ℕ} {m₀ m m' : Memory} {copy : CowCopy}
  {groups : CowGroups} {table : PageTable ℕ}

theorem Allocated.leaf (H : Allocated s r n np pg s₁ trapframe m₀ m) (j v : ℕ) :
    s₁.leaf j v = if j = n then pg.table.leaf v else s.leaf j v := by
  rw [H.system, setProc_leaf, H.child]
  rfl

theorem Allocated.memory (H : Allocated s r n np pg s₁ trapframe m₀ m) :
    s₁.kernel.memory = m := by
  rw [H.system]
  rfl

theorem Allocated.fresh (hn : s.kernel.memory.freelist.Nodup)
    (H : Allocated s r n np pg s₁ trapframe m₀ m) :
    s.kernel.memory.Draws m ∧ trapframe ∈ s.kernel.memory.freelist ∧ trapframe ∉ m.freelist ∧
    ∀ v e, pg.table.leaf v = some e → e.u = false ∧
      (e.pa = s.kernel.memory.trampoline ∧ e.w = false ∨ e.pa = trapframe ∧ v = vpn TRAPFRAME) := by
  obtain ⟨hdraws, hmem, htaken⟩ := kalloc_draws hn H.kalloc
  obtain ⟨hdraws₁, hleaf⟩ := procPagetable_leaf hdraws.nodup H.table
  refine ⟨hdraws.trans hdraws₁, hmem, fun hfree => htaken (hdraws₁.sub _ hfree), fun v e he => ?_⟩
  rw [hleaf] at he
  simp only [Function.update_apply] at he
  split_ifs at he with h₁ h₂
  · cases he
    exact ⟨rfl, Or.inr ⟨rfl, h₁⟩⟩
  · cases he
    exact ⟨rfl, Or.inl ⟨hdraws.trampoline, rfl⟩⟩

theorem CowForked.leaf (H : Allocated s r n np pg s₁ trapframe m₀ m)
    (F : CowForked s₁ s' i n np parent pg copy groups) (j v : ℕ) :
    s'.leaf j v = if j = n then copy.new.leaf v
      else if j = i then copy.old.leaf v else s.leaf j v := by
  rw [F.system, System.startChild, setProc_leaf]
  by_cases hj : j = n
  · simp [hj]
  · rw [if_neg hj, if_neg hj, setProc_leaf]
    by_cases hi : j = i
    · simp [hi]
    · simp [hi, H.leaf, hj]

theorem CowForked.memory (F : CowForked s₁ s' i n np parent pg copy groups) :
    s'.kernel.memory = copy.memory := by
  rw [F.system]
  rfl

theorem CopyForked.leaf (H : Allocated s r n np pg s₁ trapframe m₀ m)
    (F : CopyForked s₁ s' i n np parent pg m' table) (j v : ℕ) :
    s'.leaf j v = if j = n then table.leaf v else s.leaf j v := by
  rw [F.system, System.startChild, setProc_leaf]
  by_cases hj : j = n
  · simp [hj]
  · rw [if_neg hj, if_neg hj, setMemory_leaf, H.leaf, if_neg hj]

theorem CopyForked.memory (F : CopyForked s₁ s' i n np parent pg m' table) :
    s'.kernel.memory = m' := by
  rw [F.system]
  rfl

end Rows

theorem forkCow_cases {parent : Pagetable} (h : s₁.forkCow i n np parent pg = .ok s') :
    (s'.proc n).state = .unused ∨ ∃ copy groups, CowForked s₁ s' i n np parent pg copy groups := by
  unfold System.forkCow at h
  obtain ⟨⟨ok, copy⟩, hcopy, h⟩ := bind_ok_iff.mp h
  cases ok with
  | false =>
    simp only [Bool.not_false, ↓reduceIte] at h
    obtain ⟨⟨np', m⟩, hfree, h⟩ := bind_ok_iff.mp h
    cases h
    refine Or.inl ?_
    simp only [System.setProc, Function.update_self]
    exact freeproc_unused hfree
  | true =>
    simp only [Bool.not_true, Bool.false_eq_true, ↓reduceIte] at h
    obtain ⟨groups, -, h⟩ := bind_ok_iff.mp h
    obtain ⟨groups', -, h⟩ := bind_ok_iff.mp h
    cases h
    exact Or.inr ⟨copy, groups', hcopy, rfl⟩

theorem forkCopy_cases {parent : Pagetable} (h : s₁.forkCopy i n np parent pg = .ok s') :
    (s'.proc n).state = .unused ∨ ∃ m table, CopyForked s₁ s' i n np parent pg m table := by
  unfold System.forkCopy at h
  obtain ⟨⟨ok, m, table⟩, hcopy, h⟩ := bind_ok_iff.mp h
  cases ok with
  | false =>
    simp only [Bool.not_false, ↓reduceIte] at h
    obtain ⟨⟨np', m'⟩, hfree, h⟩ := bind_ok_iff.mp h
    cases h
    refine Or.inl ?_
    simp only [System.setProc, Function.update_self]
    exact freeproc_unused hfree
  | true =>
    simp only [Bool.not_true, Bool.false_eq_true, ↓reduceIte] at h
    cases h
    exact Or.inr ⟨m, table, hcopy, rfl⟩

/-- A fork that yields a child wherever it finds a slot. -/
theorem fork_cases (hlive : (s.proc i).state = .live) (hforks : Forks s i cow)
    (h : s.fork i cow = .ok s') :
    (s.freeSlot = none ∧ s' = s) ∨
    ∃ n np pg s₁ trapframe m₀ m parent, n ≠ i ∧ (s.proc i).pagetable = some parent ∧
      Allocated s (s.running i) n np pg s₁ trapframe m₀ m ∧
      ((cow = true ∧ ∃ copy groups, CowForked s₁ s' i n np parent pg copy groups) ∨
        cow = false ∧ ∃ m' table, CopyForked s₁ s' i n np parent pg m' table) := by
  have hrun := h
  unfold System.fork at h
  cases hparent : (s.proc i).pagetable with
  | none =>
    simp only [hparent] at h
    cases h
  | some parent =>
    simp only [hparent] at h
    obtain ⟨⟨result, s₁⟩, hrun₁, h⟩ := bind_ok_iff.mp h
    rcases allocproc_cases hrun₁ with ⟨hresult, hslot, hs⟩ | ⟨hresult, n, hslot, hunused⟩ |
      ⟨n, np, pg, trapframe, m₀, m, hresult, halloc⟩
    all_goals subst hresult
    · cases h
      exact Or.inl ⟨hslot, hs⟩
    · cases h
      rw [hforks n s' hslot hrun] at hunused
      cases hunused
    · have hne : n ≠ i := by
        rintro rfl
        rw [(freeSlot_unused halloc.slot).2] at hlive
        cases hlive
      have hchild := hforks n s' halloc.slot hrun
      refine Or.inr ⟨n, np, pg, s₁, trapframe, m₀, m, parent, hne, rfl, halloc, ?_⟩
      simp only at h
      cases cow with
      | true =>
        rcases forkCow_cases h with hunused | hforked
        · rw [hchild] at hunused
          cases hunused
        · exact Or.inl ⟨rfl, hforked⟩
      | false =>
        rcases forkCopy_cases h with hunused | hforked
        · rw [hchild] at hunused
          cases hunused
        · exact Or.inr ⟨rfl, hforked⟩

end Fork

end AdvancedOperatingSystems.DemandPaging
