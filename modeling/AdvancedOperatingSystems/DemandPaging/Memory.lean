import AdvancedOperatingSystems.Foundations.Runs
import AdvancedOperatingSystems.Riscv.Sv39

/-!
# Physical memory and the page groups of copy-on-write

Constants of `param.h` and `fs.h`, the allocator of `kalloc.c`, and the table of
CoW groups of `cow.c`. Physical pages are named by their addresses and hold their
bytes; the page tables of the processes are kept apart from the bytes.
-/

namespace AdvancedOperatingSystems.DemandPaging

open Foundations Riscv

abbrev NPROC : ℕ := 64

abbrev MAXARG : ℕ := 32

abbrev PSASTART : ℕ := 33

abbrev PSASIZE : ℕ := 4000

abbrev MAXHEAP : ℕ := 1000

abbrev MAXRESHEAP : ℕ := 100

abbrev SHMEM_MAX : ℕ := 100

abbrev BSIZE : ℕ := 1024

abbrev Byte := BitVec 8

/-- The bytes of a page, from offset 0 to `PGSIZE - 1`. -/
abbrev Page := ℕ → Byte

/-- What a load through a pointer to no mapped address ends in. -/
abbrev kerneltrap : Panic := "kerneltrap"

/-- `kmem` and the memory it hands out. `trampoline` and `kend` are the symbols
`trampoline` and `end` of the linker script. `released` records the pages `uvmunmap`
has passed to `kfree`. -/
structure Memory where
  trampoline : ℕ
  kend : ℕ
  freelist : List ℕ
  page : ℕ → Page
  released : List ℕ

namespace Memory

variable (m : Memory)

def write (pa : ℕ) (data : Page) : Memory := { m with page := Function.update m.page pa data }

/-- `memset(pa, c, PGSIZE)`. -/
def memset (pa : ℕ) (c : Byte) : Memory := m.write pa fun _ => c

@[simp] theorem write_freelist (pa : ℕ) (data : Page) : (m.write pa data).freelist = m.freelist :=
  rfl

@[simp] theorem write_released (pa : ℕ) (data : Page) : (m.write pa data).released = m.released :=
  rfl

@[simp] theorem write_page (pa : ℕ) (data : Page) :
    (m.write pa data).page = Function.update m.page pa data := rfl

@[simp] theorem memset_freelist (pa : ℕ) (c : Byte) : (m.memset pa c).freelist = m.freelist := rfl

@[simp] theorem memset_released (pa : ℕ) (c : Byte) : (m.memset pa c).released = m.released := rfl

@[simp] theorem write_kend (pa : ℕ) (data : Page) : (m.write pa data).kend = m.kend := rfl

@[simp] theorem memset_kend (pa : ℕ) (c : Byte) : (m.memset pa c).kend = m.kend := rfl

@[simp] theorem memset_page (pa : ℕ) (c : Byte) :
    (m.memset pa c).page = Function.update m.page pa fun _ => c := rfl

/-- `kalloc`: `none` is the NULL pointer. -/
def kalloc : Option (ℕ × Memory) :=
  match m.freelist with
  | [] => none
  | r :: rest => some (r, { m with freelist := rest }.memset r 5)

def kfree (pa : ℕ) : Except Panic Memory :=
  if pa % PGSIZE ≠ 0 ∨ pa < m.kend ∨ PHYSTOP ≤ pa then .error "kfree"
  else .ok { m.memset pa 1 with freelist := pa :: m.freelist }

variable {m}

theorem kalloc_cons {r : ℕ} {rest : List ℕ} (h : m.freelist = r :: rest) :
    m.kalloc = some (r, { m with freelist := rest }.memset r 5) := by
  simp [kalloc, h]

theorem kalloc_none : m.kalloc = none ↔ m.freelist = [] := by
  unfold kalloc
  cases m.freelist <;> simp

theorem kalloc_some {r : ℕ} {m' : Memory} (h : m.kalloc = some (r, m')) :
    m.freelist = r :: m'.freelist ∧ m'.released = m.released ∧ m'.page = Function.update m.page r fun _ => 5 := by
  unfold kalloc at h
  cases hl : m.freelist with
  | nil => simp [hl] at h
  | cons s rest =>
    simp only [hl, Option.some.injEq, Prod.mk.injEq] at h
    obtain ⟨rfl, rfl⟩ := h
    exact ⟨rfl, rfl, rfl⟩

theorem kfree_ok {pa : ℕ} {m' : Memory} (h : m.kfree pa = .ok m') :
    m'.freelist = pa :: m.freelist ∧ m'.released = m.released ∧ m'.page = Function.update m.page pa fun _ => 1 := by
  unfold kfree at h
  split_ifs at h
  cases h
  exact ⟨rfl, rfl, rfl⟩

end Memory

/-- `struct cow_group`. `shmem` lists the entries before the first 0. -/
structure CowGroup where
  group : ℕ
  shmem : List ℕ
  count : Int

/-- The loop of `add_shmem` and its store. The entry after the last one is `count`. -/
def CowGroup.store (g : CowGroup) (pa : ℕ) : CowGroup :=
  if pa ∈ g.shmem then g
  else if SHMEM_MAX ≤ g.shmem.length then { g with count := (BitVec.ofNat 32 pa).toInt }
  else if pa = 0 then g
  else { g with shmem := g.shmem ++ [pa] }

/-- The array `cow_group`. Nothing calls `cow_init`, so an unused slot has the
group 0 of the zeroed data segment, and no group is ever -1. -/
abbrev CowGroups := ℕ → CowGroup

namespace CowGroups

variable (groups : CowGroups)

/-- `get_cow_group`: the index of the first slot of the group. -/
def getCowGroup (group : ℕ) : Option ℕ :=
  (List.range NPROC).find? fun i => (groups i).group = group

def cowGroupInit (groupno : ℕ) : CowGroups :=
  match groups.getCowGroup 0 with
  | none => groups
  | some i => Function.update groups i { groups i with group := groupno }

/-- An update of the group through the pointer `get_cow_group` returns. -/
def modifyGroup (group : ℕ) (f : CowGroup → CowGroup) : Except Panic CowGroups :=
  match groups.getCowGroup group with
  | none => .error kerneltrap
  | some i => .ok (Function.update groups i (f (groups i)))

def incrCowGroupCount (group : ℕ) : Except Panic CowGroups :=
  groups.modifyGroup group fun g => { g with count := g.count + 1 }

def decrCowGroupCount (group : ℕ) : Except Panic CowGroups :=
  groups.modifyGroup group fun g => { g with count := g.count - 1 }

def addShmem (group pa : ℕ) : Except Panic CowGroups :=
  groups.modifyGroup group fun g => g.store pa

end CowGroups

/-- What `uvmunmap` reads of the running process and the CoW groups. -/
structure Running where
  groups : CowGroups
  cowGroup : ℕ

namespace Running

variable (r : Running)

/-- `is_shmem(p->cow_group, pa)` of the running process. -/
def isShmem (pa : ℕ) : Except Panic Bool :=
  match r.groups.getCowGroup r.cowGroup with
  | none => .error kerneltrap
  | some i => .ok (decide (pa ∈ (r.groups i).shmem))

/-- `get_cow_group_count(p->cow_group)` of the running process. -/
def count : Except Panic Int :=
  match r.groups.getCowGroup r.cowGroup with
  | none => .error kerneltrap
  | some i => .ok (r.groups i).count

/-- The condition under which `uvmunmap` frees a page. -/
def mayFree (pa : ℕ) : Except Panic Bool := do
  if ← r.isShmem pa then
    return (← r.count) = 1
  else
    return true

end Running

end AdvancedOperatingSystems.DemandPaging
