import Mathlib.Data.List.Nodup
import Mathlib.Logic.Function.Basic
import Mathlib.Tactic.Common
import Mathlib.Tactic.Ring

/-!
# Sv39 page tables as the kernels use them

Constants of `riscv.h` and `memlayout.h`, the address arithmetic of the page
loops, and page tables. A table is represented by its three levels: which
level-1 and level-0 table pages exist, and the leaf entries of the level-0
tables, indexed by virtual page number. The type `ν` names the table pages.
An absent leaf is a PTE with `PTE_V` clear.
-/

namespace AdvancedOperatingSystems.Riscv

/-- The text a kernel stops with. A load through a NULL or unmapped kernel
address ends in `kerneltrap`, which panics as well. -/
abbrev Panic := String

abbrev PGSIZE : ℕ := 4096

/-- One beyond the highest virtual address, `1L << 38`. -/
abbrev MAXVA : ℕ := 2 ^ 38

abbrev TRAMPOLINE : ℕ := MAXVA - PGSIZE

abbrev TRAPFRAME : ℕ := TRAMPOLINE - PGSIZE

abbrev KERNBASE : ℕ := 0x80000000

abbrev PHYSTOP : ℕ := KERNBASE + 128 * 1024 * 1024

/-- `PGROUNDUP`, for addresses that do not overflow. -/
def pgroundup (a : ℕ) : ℕ := (a + (PGSIZE - 1)) / PGSIZE * PGSIZE

def pgrounddown (a : ℕ) : ℕ := a / PGSIZE * PGSIZE

theorem le_pgroundup (a : ℕ) : a ≤ pgroundup a := by
  simp only [pgroundup, PGSIZE]
  omega

theorem pgroundup_of_aligned {a : ℕ} (h : a % PGSIZE = 0) : pgroundup a = a := by
  simp only [pgroundup, PGSIZE] at *
  omega

theorem pgroundup_aligned (a : ℕ) : pgroundup a % PGSIZE = 0 := by
  simp [pgroundup]

theorem pgrounddown_aligned (a : ℕ) : pgrounddown a % PGSIZE = 0 := by
  simp [pgrounddown]

theorem pgrounddown_of_aligned {a : ℕ} (h : a % PGSIZE = 0) : pgrounddown a = a := by
  simp only [pgrounddown, PGSIZE] at *
  omega

/-- The values `i` takes in `for(i = start; i < stop; i += PGSIZE)`. -/
def pages (start stop : ℕ) : List ℕ :=
  (List.range ((stop - start + (PGSIZE - 1)) / PGSIZE)).map fun k => start + PGSIZE * k

theorem mem_pages {start stop a : ℕ} :
    a ∈ pages start stop ↔ start ≤ a ∧ a < stop ∧ (a - start) % PGSIZE = 0 := by
  simp only [pages, PGSIZE, List.mem_map, List.mem_range]
  constructor
  · rintro ⟨k, hk, rfl⟩
    omega
  · rintro ⟨h₁, h₂, h₃⟩
    exact ⟨(a - start) / 4096, by omega, by omega⟩

theorem nodup_pages (start stop : ℕ) : (pages start stop).Nodup := by
  refine List.Nodup.map (fun i j h => ?_) List.nodup_range
  simp only [PGSIZE] at h
  omega

@[simp] theorem pages_eq_nil {start stop : ℕ} (h : stop ≤ start) : pages start stop = [] := by
  simp [pages, PGSIZE, Nat.sub_eq_zero_of_le h]

theorem pages_cons {start stop : ℕ} (h : start < stop) :
    pages start stop = start :: pages (start + PGSIZE) stop := by
  have hn : (stop - start + 4095) / 4096 = (stop - (start + 4096) + 4095) / 4096 + 1 := by omega
  simp only [pages, PGSIZE, hn, List.range_succ_eq_map, List.map_cons, List.map_map,
    Nat.mul_zero, Nat.add_zero, List.cons.injEq, true_and]
  apply List.map_congr_left
  intro k _
  simp only [Function.comp_apply]
  omega

theorem pages_one {a : ℕ} : pages a (a + PGSIZE) = [a] := by
  rw [pages_cons (by simp [PGSIZE]), pages_eq_nil le_rfl]

theorem pages_pgroundup (sz : ℕ) : pages 0 (pgroundup sz) = pages 0 sz := by
  have hcount : (pgroundup sz - 0 + (PGSIZE - 1)) / PGSIZE = (sz - 0 + (PGSIZE - 1)) / PGSIZE := by
    simp only [pgroundup, PGSIZE]
    omega
  unfold pages
  rw [hcount]

/-- A valid page-table entry: the frame and the `R`, `W`, `X`, `U` bits. -/
structure Pte where
  pa : ℕ
  r : Bool
  w : Bool
  x : Bool
  u : Bool
  deriving DecidableEq, Repr

/-- `PTE_FLAGS(*pte) == PTE_V`: no permission bit is set. -/
def Pte.onlyValid (e : Pte) : Bool := !(e.r || e.w || e.x || e.u)

/-- A page table whose table pages are named by `ν`. -/
structure PageTable (ν : Type) where
  mid : ℕ → Option ν
  low : ℕ → Option ν
  leaf : ℕ → Option Pte

namespace PageTable

variable {ν : Type} (pt : PageTable ν)

/-- `uvmcreate`: a zeroed root page. -/
def empty : PageTable ν := ⟨fun _ => none, fun _ => none, fun _ => none⟩

def vpn (va : ℕ) : ℕ := va / PGSIZE

/-- Index of the level-0 table that holds the entry of `va` (bits 21 and up). -/
def lowIndex (va : ℕ) : ℕ := vpn va / 512

/-- Index of the level-1 table on the path to `va` (bits 30 and up). -/
def midIndex (va : ℕ) : ℕ := lowIndex va / 512

/-- `walk(pagetable, va, 0)`: `none` is the NULL pointer, otherwise the contents
of the level-0 slot. -/
def walk (va : ℕ) : Except Panic (Option (Option Pte)) :=
  if MAXVA ≤ va then .error "walk"
  else if (pt.mid (midIndex va)).isNone then .ok none
  else if (pt.low (lowIndex va)).isNone then .ok none
  else .ok (some (pt.leaf (vpn va)))

/-- `walkaddr`: the frame of a valid user page, 0 if there is none. -/
def walkaddr (va : ℕ) : ℕ :=
  if MAXVA ≤ va then 0
  else match pt.walk va with
    | .ok (some (some e)) => if e.u then e.pa else 0
    | _ => 0

/-- Store an entry into the level-0 slot of `va`. -/
def set (va : ℕ) (e : Option Pte) : PageTable ν :=
  { pt with leaf := Function.update pt.leaf (vpn va) e }

@[simp] theorem set_mid (va : ℕ) (e : Option Pte) : (pt.set va e).mid = pt.mid := rfl

@[simp] theorem set_low (va : ℕ) (e : Option Pte) : (pt.set va e).low = pt.low := rfl

@[simp] theorem set_leaf (va : ℕ) (e : Option Pte) :
    (pt.set va e).leaf = Function.update pt.leaf (vpn va) e := rfl

theorem vpn_inj {a b : ℕ} (ha : a % PGSIZE = 0) (hb : b % PGSIZE = 0)
    (h : vpn a = vpn b) : a = b := by
  simp only [vpn, PGSIZE] at *
  omega

/-- Leaves sit in existing level-0 tables, those below existing level-1 tables,
and every leaf grants something, so that it is not taken for a table. -/
structure Wf : Prop where
  low_of_leaf : ∀ i, (pt.leaf i).isSome → (pt.low (i / 512)).isSome
  mid_of_low : ∀ i, (pt.low i).isSome → (pt.mid (i / 512)).isSome
  leaf_grants : ∀ i e, pt.leaf i = some e → e.onlyValid = false

theorem wf_empty : (empty : PageTable ν).Wf :=
  ⟨by simp [empty], by simp [empty], by simp [empty]⟩

/-- The page of `va` has a valid leaf. -/
def Mapped (va : ℕ) : Prop := (pt.leaf (vpn va)).isSome

instance (va : ℕ) : Decidable (pt.Mapped va) := inferInstanceAs (Decidable (_ = true))

variable {pt}

theorem Wf.walk_mapped (hw : pt.Wf) {va : ℕ} (hva : va < MAXVA) (h : pt.Mapped va) :
    pt.walk va = .ok (some (pt.leaf (vpn va))) := by
  have hlow := hw.low_of_leaf _ h
  have hmid := hw.mid_of_low _ hlow
  have h₁ : (pt.low (lowIndex va)).isNone = false := by
    simpa [lowIndex, Option.isSome_iff_ne_none] using hlow
  have h₂ : (pt.mid (midIndex va)).isNone = false := by
    simpa [midIndex, lowIndex, Option.isSome_iff_ne_none] using hmid
  simp [walk, Nat.not_le.mpr hva, h₁, h₂]

theorem walk_ok {va : ℕ} {r : Option (Option Pte)} (h : pt.walk va = .ok r) :
    va < MAXVA ∧ ∀ e, r = some e → e = pt.leaf (vpn va) := by
  unfold walk at h
  split_ifs at h with h₁ h₂ h₃
  all_goals
    cases h
    exact ⟨Nat.lt_of_not_le h₁, by simp⟩

theorem walk_returns {va : ℕ} (hva : va < MAXVA) : ∃ r, pt.walk va = .ok r := by
  unfold walk
  rw [if_neg (Nat.not_le.mpr hva)]
  split_ifs <;> exact ⟨_, rfl⟩

theorem walkaddr_congr {a b : ℕ} (h : vpn a = vpn b) : pt.walkaddr a = pt.walkaddr b := by
  have hmax : MAXVA ≤ a ↔ MAXVA ≤ b := by
    simp only [vpn, MAXVA, PGSIZE] at *
    omega
  have hlow : lowIndex a = lowIndex b := by rw [lowIndex, lowIndex, h]
  have hmid : midIndex a = midIndex b := by rw [midIndex, midIndex, hlow]
  simp only [walkaddr, walk, hmax, hlow, hmid, h]

theorem walkaddr_spec {a : ℕ} (h : pt.walkaddr a ≠ 0) :
    a < MAXVA ∧ ∃ e, pt.leaf (vpn a) = some e ∧ e.u = true ∧ e.pa = pt.walkaddr a := by
  unfold walkaddr at *
  by_cases hva : MAXVA ≤ a
  · simp [hva] at h
  · simp only [if_neg hva] at *
    refine ⟨Nat.lt_of_not_le hva, ?_⟩
    cases hwalk : pt.walk a with
    | error e => simp [hwalk] at h
    | ok slot =>
      obtain ⟨-, hslot⟩ := walk_ok hwalk
      rcases slot with _ | _ | e
      · simp [hwalk] at h
      · simp [hwalk] at h
      · have hleaf := hslot _ rfl
        cases hu : e.u with
        | false => simp [hwalk, hu] at h
        | true => exact ⟨e, hleaf.symm, hu, by simp [hu]⟩

theorem Wf.clear (hw : pt.Wf) (va : ℕ) : (pt.set va none).Wf := by
  have hsub : ∀ i e, (pt.set va none).leaf i = some e → pt.leaf i = some e := by
    intro i e he
    simp only [set_leaf, Function.update_apply] at he
    split_ifs at he
    exact he
  refine ⟨fun i hi => ?_, hw.mid_of_low, fun i e he => hw.leaf_grants i e (hsub i e he)⟩
  obtain ⟨e, he⟩ := Option.isSome_iff_exists.mp hi
  exact hw.low_of_leaf i (by rw [hsub i e he]; rfl)

end PageTable

end AdvancedOperatingSystems.Riscv
