import AdvancedOperatingSystems.DemandPaging.Fault
import AdvancedOperatingSystems.DemandPaging.Mapping

/-!
# User instructions and the heap system call

A user instruction accesses memory through the page table of its process. Where
the table does not permit the access, the page-fault handler runs and the
instruction is executed again; `none` is the outcome of an access that faults a
second time. `growproc` is `sbrk`.
-/

namespace AdvancedOperatingSystems.DemandPaging

open Foundations Riscv Riscv.PageTable

/-- The accesses of user instructions to one byte of memory. -/
inductive Op
  | load
  | store (value : Byte)
  | fetch
  deriving DecidableEq, Repr

/-- The `scause` of the page fault. -/
def Op.scause : Op → ℕ
  | .load => 13
  | .store _ => 15
  | .fetch => 12

/-- A valid entry permits the access from user mode. -/
def Op.permitted (op : Op) (e : Pte) : Bool :=
  e.u && match op with
    | .load => e.r
    | .store _ => e.w
    | .fetch => e.x

/-- A user access, with what a page fault of it would find. -/
structure Access where
  op : Op
  va : ℕ
  namei : Path → Option File
  elf : ℕ → Byte
  ph : ℕ → Byte

def Access.trap (a : Access) : Trap := ⟨a.op.scause, a.va, a.namei, a.elf, a.ph⟩

def Access.pageAddr (a : Access) : ℕ := pgrounddown a.va

@[simp] theorem trap_alignedAddr (a : Access) : a.trap.alignedAddr = a.pageAddr := rfl

@[simp] theorem trap_scause (a : Access) : a.trap.scause = a.op.scause := rfl

@[simp] theorem trap_namei (a : Access) : a.trap.namei = a.namei := rfl

@[simp] theorem trap_elf (a : Access) : a.trap.elf = a.elf := rfl

@[simp] theorem trap_ph (a : Access) : a.trap.ph = a.ph := rfl

/-- The frame the hardware translates the address to, if the access is permitted. -/
def translate (pt : PageTable ℕ) (a : Access) : Option ℕ :=
  if MAXVA ≤ a.va then none
  else match pt.leaf (vpn a.va) with
    | none => none
    | some e => if a.op.permitted e then some e.pa else none

/-- The access through the table as it is: the byte loaded or stored. -/
def attempt (a : Access) (c : Cpu) : Option (Byte × Cpu) :=
  (translate c.table a).map fun pa =>
    let old := c.kernel.memory.page pa
    let offset := a.va % PGSIZE
    match a.op with
    | .store value =>
      let m := c.kernel.memory.write pa (Function.update old offset value)
      (value, { c with kernel := { c.kernel with memory := m } })
    | _ => (old offset, c)

/-- A user access with at most one page fault. -/
def access (a : Access) (c : Cpu) : Except Panic (Option Byte × Cpu) :=
  match attempt a c with
  | some (value, c) => .ok (some value, c)
  | none => do
    let c ← pageFaultHandler a.trap c
    match attempt a c with
    | some (value, c) => return (some value, c)
    | none => return (none, c)

section Cases

variable {a : Access} {c c' : Cpu}

theorem translate_entry {pt : PageTable ℕ} {pa : ℕ} (h : translate pt a = some pa) :
    a.va < MAXVA ∧ ∃ e, pt.leaf (vpn a.va) = some e ∧ a.op.permitted e = true ∧ e.pa = pa := by
  unfold translate at h
  split_ifs at h with hva
  cases hleaf : pt.leaf (vpn a.va) with
  | none => simp [hleaf] at h
  | some e =>
    simp only [hleaf] at h
    split_ifs at h with hperm
    exact ⟨Nat.lt_of_not_le hva, e, rfl, hperm, Option.some.inj h⟩

/-- What an access that is permitted does: a store writes to a page with `PTE_W`. -/
theorem attempt_cases {b : Byte} (h : attempt a c = some (b, c')) :
    c' = c ∨ ∃ e data, c.table.leaf (vpn a.va) = some e ∧ e.w = true ∧
      c' = { c with kernel := { c.kernel with memory := c.kernel.memory.write e.pa data } } := by
  obtain ⟨pa, hpa, h⟩ := Option.map_eq_some_iff.mp h
  obtain ⟨-, e, hleaf, hperm, rfl⟩ := translate_entry hpa
  cases hop : a.op with
  | load =>
    simp only [hop] at h
    cases h
    exact Or.inl rfl
  | fetch =>
    simp only [hop] at h
    cases h
    exact Or.inl rfl
  | store value =>
    simp only [hop] at h
    cases h
    refine Or.inr ⟨e, _, hleaf, ?_, rfl⟩
    simp only [Op.permitted, hop, Bool.and_eq_true] at hperm
    exact hperm.2

/-- An access is the work of the handler, if it faults, and an attempt. -/
theorem access_cases {b : Option Byte} (h : access a c = .ok (b, c')) :
    ∃ c₁, (c₁ = c ∨ attempt a c = none ∧ pageFaultHandler a.trap c = .ok c₁) ∧
      (c' = c₁ ∨ ∃ b, attempt a c₁ = some (b, c')) := by
  unfold access at h
  cases hattempt : attempt a c with
  | some q =>
    obtain ⟨b₁, c₁⟩ := q
    simp only [hattempt] at h
    cases h
    exact ⟨c, Or.inl rfl, Or.inr ⟨b₁, hattempt⟩⟩
  | none =>
    simp only [hattempt] at h
    obtain ⟨c₁, hc₁, h⟩ := bind_ok_iff.mp h
    refine ⟨c₁, Or.inr ⟨rfl, hc₁⟩, ?_⟩
    cases hagain : attempt a c₁ with
    | some q =>
      obtain ⟨b₁, c₂⟩ := q
      simp only [hagain] at h
      cases h
      exact Or.inr ⟨b₁, rfl⟩
    | none =>
      simp only [hagain] at h
      cases h
      exact Or.inl rfl

theorem attempt_load {pa : ℕ} (hop : a.op = .load) (h : translate c.table a = some pa) :
    attempt a c = some (c.kernel.memory.page pa (a.va % PGSIZE), c) := by
  unfold attempt
  rw [h, hop]
  rfl

theorem access_mapped {pa : ℕ} (hop : a.op = .load) (h : translate c.table a = some pa) :
    access a c = .ok (some (c.kernel.memory.page pa (a.va % PGSIZE)), c) := by
  unfold access
  rw [attempt_load hop h]

end Cases

/-- The loop of `track_heap`. Addresses are `uint64`s. -/
def trackHeapLoop (start : ℕ) :
    List ℕ → Int → (ℕ → HeapPage) → Except Panic (ℕ → HeapPage)
  | [], _, _ => .error "Error: No more process heap pages allowed.\n"
  | i :: is, npages, tracker =>
    if (tracker i).addr = unset then
      let tracker := Function.update tracker i
        { tracker i with
          addr := (start + PGSIZE * i) % 2 ^ 64, loaded := false, startblock := none }
      if npages - 1 = 0 then .ok tracker else trackHeapLoop start is (npages - 1) tracker
    else trackHeapLoop start is npages tracker

def trackHeap (start : ℕ) (npages : Int) (tracker : ℕ → HeapPage) :
    Except Panic (ℕ → HeapPage) :=
  trackHeapLoop start (List.range MAXHEAP) npages tracker

/-- `growproc`: whether it succeeds. The size is an `int` and its sum with `p->sz` a `uint64`;
`PGROUNDUP` does not overflow here, which the one of the `int` does in its last page. -/
def growproc (n : Int) (c : Cpu) : Except Panic (Bool × Cpu) :=
  if c.proc.ondemand = false then do
    let n := (n + (PGSIZE - 1)) / PGSIZE * PGSIZE
    let newsz := ((c.proc.sz + n) % 2 ^ 64).toNat
    if 0 < n then
      let (sz, s) ← uvmalloc c.running c.proc.sz newsz permW c.space
      if sz = 0 then return (false, c.setSpace s)
      else return (true, ({ c with proc := { c.proc with sz := sz } } : Cpu).setSpace s)
    else if n < 0 then
      let (sz, s) ← uvmdealloc c.running c.proc.sz newsz c.space
      return (true, ({ c with proc := { c.proc with sz := sz } } : Cpu).setSpace s)
    else return (true, c)
  else do
    let tracker ← trackHeap c.proc.sz (n.tdiv PGSIZE) c.proc.heapTracker
    return (true, { c with proc := { c.proc with heapTracker := tracker } })

end AdvancedOperatingSystems.DemandPaging
