import AdvancedOperatingSystems.DemandPaging.Memory

/-!
# User page tables

The functions of `vm.c` on user page tables. `walk` with `alloc` set allocates
the tables on the way; the table pages are named by their physical addresses.
A function that changes both works on a `Space`, memory together with the
table. Lengths in memory are those of whole pages.
-/

namespace AdvancedOperatingSystems.DemandPaging

open Foundations Riscv Riscv.PageTable

/-- `PGROUNDUP` of a `uint64`. -/
def pgroundup64 (a : ℕ) : ℕ := (a + (PGSIZE - 1)) % 2 ^ 64 / PGSIZE * PGSIZE

structure Pagetable where
  root : ℕ
  table : PageTable ℕ

abbrev Space := Memory × PageTable ℕ

/-- A table page of the walk: the present one, or a zeroed new one. -/
def tablePage (slot : Option ℕ) (m : Memory) : Option (ℕ × Memory) :=
  match slot with
  | some t => some (t, m)
  | none => m.kalloc.map fun (t, m) => (t, m.memset t 0)

/-- `walk(pagetable, va, 1)`: whether it finds a slot. -/
def walkAlloc (va : ℕ) : Space → Except Panic (Bool × Space)
  | (m, pt) =>
    if MAXVA ≤ va then .error "walk"
    else match tablePage (pt.mid (midIndex va)) m with
      | none => .ok (false, m, pt)
      | some (t, m) =>
        let pt := { pt with mid := Function.update pt.mid (midIndex va) (some t) }
        match tablePage (pt.low (lowIndex va)) m with
        | none => .ok (false, m, pt)
        | some (t, m) =>
          .ok (true, m, { pt with low := Function.update pt.low (lowIndex va) (some t) })

/-- `mappages` of one page: whether it succeeds. -/
def mappages (va : ℕ) (e : Pte) (s : Space) : Except Panic (Bool × Space) := do
  let (found, m, pt) ← walkAlloc va s
  if !found then return (false, m, pt)
  else if (pt.leaf (vpn va)).isSome then .error "mappages: remap"
  else return (true, m, pt.set va (some e))

/-- The body of the loop of `uvmunmap`. -/
def unmapPage (r : Running) (doFree : Bool) (s : Space) (a : ℕ) : Except Panic Space := do
  match ← s.2.walk a with
  | none => .error "uvmunmap: walk"
  | some none => return s
  | some (some e) =>
    if e.onlyValid then .error "uvmunmap: not a leaf"
    else if doFree then
      if ← r.mayFree e.pa then
        let m ← s.1.kfree e.pa
        return ({ m with released := e.pa :: m.released }, s.2.set a none)
      else return (s.1, s.2.set a none)
    else return (s.1, s.2.set a none)

def uvmunmap (r : Running) (va npages : ℕ) (doFree : Bool) (s : Space) : Except Panic Space :=
  if va % PGSIZE ≠ 0 then .error "uvmunmap: not aligned"
  else exec (unmapPage r doFree) s (pages va (va + npages * PGSIZE))

/-- `uvmdealloc`: the new size. -/
def uvmdealloc (r : Running) (oldsz newsz : ℕ) (s : Space) : Except Panic (ℕ × Space) := do
  if oldsz ≤ newsz then return (oldsz, s)
  else if pgroundup64 newsz < pgroundup64 oldsz then
    let npages := (pgroundup64 oldsz - pgroundup64 newsz) / PGSIZE
    let s ← uvmunmap r (pgroundup64 newsz) npages true s
    return (newsz, s)
  else return (newsz, s)

/-- The bits `PTE_X` and `PTE_W` of a permission. -/
structure Perm where
  w : Bool
  x : Bool
  deriving DecidableEq, Repr

abbrev permW : Perm := ⟨true, false⟩

/-- The entry `uvmalloc` makes: `PTE_R|PTE_U|xperm`. -/
def Perm.pte (perm : Perm) (pa : ℕ) : Pte := ⟨pa, true, perm.w, perm.x, true⟩

/-- The loop of `uvmalloc` from the rounded old size on: whether it succeeds. -/
def uvmallocLoop (r : Running) (perm : Perm) (oldsz : ℕ) :
    List ℕ → Space → Except Panic (Bool × Space)
  | [], s => .ok (true, s)
  | a :: as, (m, pt) =>
    match m.kalloc with
    | none => do
      let (_, s) ← uvmdealloc r a oldsz (m, pt)
      return (false, s)
    | some (mem, m) => do
      let (ok, m, pt) ← mappages a (perm.pte mem) (m.memset mem 0, pt)
      if ok then uvmallocLoop r perm oldsz as (m, pt)
      else
        let m ← m.kfree mem
        let (_, s) ← uvmdealloc r a oldsz (m, pt)
        return (false, s)

/-- `uvmalloc`: the new size, 0 on failure. -/
def uvmalloc (r : Running) (oldsz newsz : ℕ) (perm : Perm) (s : Space) :
    Except Panic (ℕ × Space) := do
  if newsz < oldsz then return (oldsz, s)
  else
    let oldsz := pgroundup64 oldsz
    let (ok, s) ← uvmallocLoop r perm oldsz (pages oldsz newsz) s
    return (if ok then newsz else 0, s)

def uvmcreate (m : Memory) : Option (Pagetable × Memory) :=
  m.kalloc.map fun (root, m) => (⟨root, PageTable.empty⟩, m.memset root 0)

/-- `freewalk` of a level-0 table. Every leaf has `PTE_R`, so none is taken for a table. -/
def freewalkLow (pt : PageTable ℕ) (m : Memory) (j : ℕ) : Except Panic Memory :=
  match pt.low j with
  | none => .ok m
  | some t =>
    if (List.range 512).any fun k => (pt.leaf (512 * j + k)).isSome then .error "freewalk: leaf"
    else m.kfree t

/-- `freewalk` of a level-1 table. -/
def freewalkMid (pt : PageTable ℕ) (m : Memory) (i : ℕ) : Except Panic Memory :=
  match pt.mid i with
  | none => .ok m
  | some t => do
    let m ← exec (freewalkLow pt) m ((List.range 512).map fun j => 512 * i + j)
    m.kfree t

/-- `freewalk` of a root page. -/
def freewalk (pagetable : Pagetable) (m : Memory) : Except Panic Memory := do
  let m ← exec (freewalkMid pagetable.table) m (List.range 512)
  m.kfree pagetable.root

def uvmfree (r : Running) (pagetable : Pagetable) (sz : ℕ) (m : Memory) : Except Panic Memory := do
  let (m, table) ←
    if 0 < sz then uvmunmap r 0 (pgroundup64 sz / PGSIZE) true (m, pagetable.table)
    else pure (m, pagetable.table)
  freewalk { pagetable with table := table } m

/-- The loop of `uvmcopy`: the address at which it gave up, if it did. -/
def uvmcopyLoop (old : PageTable ℕ) : List ℕ → Space → Except Panic (Option ℕ × Space)
  | [], s => .ok (none, s)
  | i :: is, (m, new) => do
    match ← old.walk i with
    | none => .error "uvmcopy: pte should exist"
    | some none => uvmcopyLoop old is (m, new)
    | some (some e) =>
      match m.kalloc with
      | none => return (some i, m, new)
      | some (mem, m) =>
        let (ok, m, new) ← mappages i { e with pa := mem } (m.write mem (m.page e.pa), new)
        if ok then uvmcopyLoop old is (m, new)
        else
          let m ← m.kfree mem
          return (some i, m, new)

/-- `uvmcopy`: whether it succeeds. -/
def uvmcopy (r : Running) (old : PageTable ℕ) (sz : ℕ) (s : Space) :
    Except Panic (Bool × Space) := do
  match ← uvmcopyLoop old (pages 0 sz) s with
  | (none, s) => return (true, s)
  | (some i, s) =>
    let s ← uvmunmap r 0 (i / PGSIZE) true s
    return (false, s)

def uvmclear (va : ℕ) (pt : PageTable ℕ) : Except Panic (PageTable ℕ) := do
  match ← pt.walk va with
  | none => .error "uvmclear"
  | some none => return pt
  | some (some e) => return pt.set va (some { e with u := false })

/-- The pages a buffer of `len` bytes at `va` crosses, the values of `va0`. -/
def bufferPages (va len : ℕ) : List ℕ :=
  if len = 0 then [] else pages (pgrounddown va) (va + len)

/-- The body of the loop of `copyout`: it stops at the first page that is not mapped. -/
def copyoutPage (pt : PageTable ℕ) (dstva : ℕ) (src : ℕ → Byte) (len : ℕ) (m : Memory) (va0 : ℕ) :
    Except Memory Memory :=
  let pa0 := pt.walkaddr va0
  if pa0 = 0 then .error m
  else .ok (m.write pa0 fun j =>
    if dstva ≤ va0 + j ∧ va0 + j < dstva + len then src (va0 + j - dstva) else m.page pa0 j)

/-- `copyout` of `len` bytes: whether it succeeds, and memory. -/
def copyout (pt : PageTable ℕ) (dstva : ℕ) (src : ℕ → Byte) (len : ℕ) (m : Memory) :
    Bool × Memory :=
  match exec (copyoutPage pt dstva src len) m (bufferPages dstva len) with
  | .ok m => (true, m)
  | .error m => (false, m)

/-- `copyin` of one page, as its callers use it. -/
def copyin (pt : PageTable ℕ) (dst srcva : ℕ) (m : Memory) : Bool × Memory :=
  let pa0 := pt.walkaddr srcva
  if pa0 = 0 then (false, m) else (true, m.write dst (m.page pa0))

end AdvancedOperatingSystems.DemandPaging
