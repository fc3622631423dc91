import AdvancedOperatingSystems.DemandPaging.Inherit
import AdvancedOperatingSystems.DemandPaging.KernelWrites
import AdvancedOperatingSystems.DemandPaging.Sbrk

/-!
# Buffers of system calls

A user access that faults goes through the page-fault handler, `copyin` and `copyout` walk
the page table. They agree on a buffer exactly where no page under it is untouched or swapped
out.
-/

namespace AdvancedOperatingSystems.DemandPaging

open Foundations Riscv Riscv.PageTable

/-- The body of the loop of `copyin`: `dst` with the bytes that the page at `va0` holds. -/
def copyinPage (pt : PageTable ℕ) (srcva len : ℕ) (m : Memory) (dst : ℕ → Byte) (va0 : ℕ) :
    Except (ℕ → Byte) (ℕ → Byte) :=
  let pa0 := pt.walkaddr va0
  if pa0 = 0 then .error dst
  else .ok fun k =>
    if va0 ≤ srcva + k ∧ srcva + k < va0 + PGSIZE ∧ k < len then m.page pa0 (srcva + k - va0)
    else dst k

/-- `copyin` of `len` bytes: whether it succeeds, and the buffer `dst` of the kernel. -/
def copyinBytes (pt : PageTable ℕ) (dst : ℕ → Byte) (srcva len : ℕ) (m : Memory) :
    Bool × (ℕ → Byte) :=
  match exec (copyinPage pt srcva len m) dst (bufferPages srcva len) with
  | .ok dst => (true, dst)
  | .error dst => (false, dst)

section Agreement

variable (namei : Path → Option File) (elf ph : ℕ → Byte) (c : Cpu) (va len : ℕ)

def UserLoads (va : ℕ) (b : Byte) : Prop :=
  ∃ c', access ⟨.load, va, namei, elf, ph⟩ c = .ok (some b, c')

def Writable : Prop :=
  ∀ k < len, ∀ b, ∃ c', access ⟨.store b, va + k, namei, elf, ph⟩ c = .ok (some b, c')

/-- `copyin` returns 0 with the bytes that loads of the program return. -/
def CopiesIn : Prop :=
  ∀ dst, ∃ b, copyinBytes c.table dst va len c.kernel.memory = (true, b) ∧
    ∀ k < len, UserLoads namei elf ph c (va + k) (b k)

/-- `copyout` returns 0, and loads of the program return what has been written. -/
def CopiesOut : Prop :=
  ∀ src, ∃ m, copyout c.table va src len c.kernel.memory = (true, m) ∧
    ∀ k < len, UserLoads namei elf ph (c.setSpace (m, c.table)) (va + k) (src k)

/-- System calls and the program see the same memory in the buffer. -/
def SameMemory : Prop :=
  CopiesIn namei elf ph c va len ∧
    (Writable namei elf ph c va len → CopiesOut namei elf ph c va len)

end Agreement

def UserMapped (pt : PageTable ℕ) (va len : ℕ) : Prop :=
  ∀ k < len, pt.walkaddr (va + k) ≠ 0

def Unaliased (pt : PageTable ℕ) (va len : ℕ) : Prop :=
  ∀ k < len, ∀ k' < len, pt.walkaddr (va + k) = pt.walkaddr (va + k') →
    (va + k) % PGSIZE = (va + k') % PGSIZE → k = k'

section Loops

variable {pt : PageTable ℕ} {va len : ℕ} {m : Memory} {as : List ℕ}

theorem walkaddr_pgrounddown (a : ℕ) : pt.walkaddr (pgrounddown a) = pt.walkaddr a := by
  apply walkaddr_congr
  simp only [vpn, pgrounddown, PGSIZE]
  omega

theorem eq_pgrounddown {a b : ℕ} (ha : a % PGSIZE = 0) (hle : a ≤ b) (hlt : b < a + PGSIZE) :
    a = pgrounddown b := by
  simp only [pgrounddown, PGSIZE] at *
  omega

theorem pgrounddown_add_mod (a : ℕ) : pgrounddown a + a % PGSIZE = a := by
  simp only [pgrounddown, PGSIZE]
  omega

theorem sub_pgrounddown (a : ℕ) : a - pgrounddown a = a % PGSIZE := by
  simp only [pgrounddown, PGSIZE]
  omega

theorem bufferPages_mapped (h : UserMapped pt va len) :
    ∀ a ∈ bufferPages va len, a % PGSIZE = 0 ∧ pt.walkaddr a ≠ 0 := by
  intro a ha
  obtain ⟨hlen, hlt, hpage, haligned⟩ := mem_bufferPages.mp ha
  refine ⟨haligned, ?_⟩
  -- the first byte of the buffer on the page
  have hsum : va + (max a va - va) = max a va := by omega
  have hfirst := h (max a va - va) (by omega)
  rw [hsum, ← walkaddr_pgrounddown] at hfirst
  rwa [← eq_pgrounddown haligned (le_max_left a va) (max_lt (by simp) hpage)] at hfirst

/-- The loop of `copyin` over mapped pages. -/
theorem copyinLoop_mapped (h : ∀ a ∈ as, a % PGSIZE = 0 ∧ pt.walkaddr a ≠ 0) (dst : ℕ → Byte) :
    ∃ b, exec (copyinPage pt va len m) dst as = .ok b ∧
      ∀ k < len, (pgrounddown (va + k) ∈ as ∨
          dst k = m.page (pt.walkaddr (va + k)) ((va + k) % PGSIZE)) →
        b k = m.page (pt.walkaddr (va + k)) ((va + k) % PGSIZE) := by
  induction as generalizing dst with
  | nil => exact ⟨dst, rfl, fun k _ hk => hk.resolve_left List.not_mem_nil⟩
  | cons a as ih =>
    obtain ⟨ha, hpa⟩ := h a List.mem_cons_self
    obtain ⟨b, hrun, hb⟩ := ih (fun a' ha' => h a' (List.mem_cons_of_mem _ ha'))
      fun k => if a ≤ va + k ∧ va + k < a + PGSIZE ∧ k < len then
        m.page (pt.walkaddr a) (va + k - a) else dst k
    refine ⟨b, ?_, fun k hk hin => hb k hk ?_⟩
    · rw [exec_cons, copyinPage]
      simp only [if_neg hpa, ok_bind]
      exact hrun
    · by_cases hpage : a ≤ va + k ∧ va + k < a + PGSIZE ∧ k < len
      · apply Or.inr
        rw [if_pos hpage, eq_pgrounddown ha hpage.1 hpage.2.1, walkaddr_pgrounddown,
          sub_pgrounddown]
      · rw [if_neg hpage]
        apply hin.imp_left
        intro hmem
        apply (List.mem_cons.mp hmem).resolve_left
        rintro rfl
        apply hpage
        simp only [pgrounddown, PGSIZE]
        omega

/-- The loop of `copyout` over mapped pages: a byte of memory holds `x` at the end if it holds
`x` at the start or is written, and nothing else is written there. -/
theorem copyoutLoop_mapped {src : ℕ → Byte}
    (h : ∀ a ∈ as, a % PGSIZE = 0 ∧ pt.walkaddr a ≠ 0) :
    ∃ m', exec (copyoutPage pt va src len) m as = .ok m' ∧
      ∀ q j x, (∀ a ∈ as, pt.walkaddr a = q → va ≤ a + j → a + j < va + len →
          src (a + j - va) = x) →
        ((∃ a ∈ as, pt.walkaddr a = q ∧ va ≤ a + j ∧ a + j < va + len) ∨ m.page q j = x) →
        m'.page q j = x := by
  induction as generalizing m with
  | nil =>
    refine ⟨m, rfl, fun q j x _ hx => hx.resolve_left ?_⟩
    rintro ⟨a, ha, -⟩
    cases ha
  | cons a as ih =>
    obtain ⟨ha, hpa⟩ := h a List.mem_cons_self
    obtain ⟨m', hrun, hm'⟩ := @ih (m.write (pt.walkaddr a) fun j =>
      if va ≤ a + j ∧ a + j < va + len then src (a + j - va) else m.page (pt.walkaddr a) j)
      fun a' ha' => h a' (List.mem_cons_of_mem _ ha')
    refine ⟨m', ?_, fun q j x hsame hx =>
      hm' q j x (fun a' ha' => hsame a' (List.mem_cons_of_mem _ ha')) ?_⟩
    · rw [exec_cons, copyoutPage]
      simp only [if_neg hpa, ok_bind]
      exact hrun
    · by_cases hin : pt.walkaddr a = q ∧ va ≤ a + j ∧ a + j < va + len
      · apply Or.inr
        rw [Memory.write_page, ← hin.1, Function.update_self, if_pos hin.2]
        exact hsame a List.mem_cons_self hin.1 hin.2.1 hin.2.2
      · have hkept : (m.write (pt.walkaddr a) fun j =>
            if va ≤ a + j ∧ a + j < va + len then src (a + j - va)
            else m.page (pt.walkaddr a) j).page q j = m.page q j := by
          rw [Memory.write_page]
          by_cases hq : q = pt.walkaddr a
          · rw [hq, Function.update_self, if_neg fun hrange => hin ⟨hq.symm, hrange⟩]
          · rw [Function.update_of_ne hq]
        rw [hkept]
        refine hx.imp_left ?_
        rintro ⟨a', ha', hrest⟩
        rcases List.mem_cons.mp ha' with rfl | ha'
        · exact absurd hrest hin
        · exact ⟨a', ha', hrest⟩

theorem copyinBytes_mapped (h : UserMapped pt va len) (dst : ℕ → Byte) :
    ∃ b, copyinBytes pt dst va len m = (true, b) ∧
      ∀ k < len, b k = m.page (pt.walkaddr (va + k)) ((va + k) % PGSIZE) := by
  obtain ⟨b, hrun, hb⟩ := copyinLoop_mapped (m := m) (bufferPages_mapped h) dst
  refine ⟨b, ?_, fun k hk => hb k hk (Or.inl (pgrounddown_mem_bufferPages hk))⟩
  unfold copyinBytes
  rw [hrun]

/-- Where every page is mapped, `copyout` stores each byte that is not stored over. -/
theorem copyout_mapped {src : ℕ → Byte} (h : UserMapped pt va len) :
    ∃ m', copyout pt va src len m = (true, m') ∧ (Unaliased pt va len →
      ∀ k < len, m'.page (pt.walkaddr (va + k)) ((va + k) % PGSIZE) = src k) := by
  obtain ⟨m', hrun, hm'⟩ := @copyoutLoop_mapped pt va len m _ src (bufferPages_mapped h)
  refine ⟨m', ?_, fun halias k hk => hm' _ _ _ ?_ (Or.inl ?_)⟩
  · unfold copyout
    rw [hrun]
  · intro a ha hpa hlo hhi
    have haligned := (mem_bufferPages.mp ha).2.2.2
    have hoff : (va + k) % PGSIZE < PGSIZE := Nat.mod_lt _ (by decide)
    have hsum : va + (a + (va + k) % PGSIZE - va) = a + (va + k) % PGSIZE := by omega
    congr 1
    symm
    apply halias k hk _ (by omega)
    · rw [hsum, ← hpa, ← walkaddr_pgrounddown (a + (va + k) % PGSIZE)]
      rw [← eq_pgrounddown haligned (Nat.le_add_right _ _) (by omega)]
    · rw [hsum]
      simp only [PGSIZE] at *
      omega
  · refine ⟨_, pgrounddown_mem_bufferPages hk, walkaddr_pgrounddown _, ?_⟩
    rw [pgrounddown_add_mod]
    omega

theorem bufferPages_unmapped (h : ¬ UserMapped pt va len) :
    ∃ a ∈ bufferPages va len, pt.walkaddr a = 0 := by
  unfold UserMapped at h
  push Not at h
  obtain ⟨k, hk, hpa⟩ := h
  exact ⟨_, pgrounddown_mem_bufferPages hk, (walkaddr_pgrounddown _).trans hpa⟩

theorem copyinBytes_unmapped (h : ¬ UserMapped pt va len) (dst : ℕ → Byte) :
    (copyinBytes pt dst va len m).1 = false := by
  obtain ⟨a, ha, hpa⟩ := bufferPages_unmapped h
  unfold copyinBytes
  cases hrun : exec (copyinPage pt va len m) dst (bufferPages va len) with
  | error b => rfl
  | ok b =>
    refine absurd hrun (exec_ne_ok _ ha (fun b b' => ?_) _ _)
    simp [copyinPage, hpa]

end Loops

section SameMemory

variable {namei : Path → Option File} {elf ph : ℕ → Byte} {c : Cpu} {va len : ℕ}

theorem userLoads_iff (hread : ∀ v e, c.table.leaf v = some e → Readable e)
    (h : c.table.walkaddr va ≠ 0) {b : Byte} : UserLoads namei elf ph c va b ↔
      b = c.kernel.memory.page (c.table.walkaddr va) (va % PGSIZE) := by
  obtain ⟨hmax, e, hleaf, hu, hpa⟩ := walkaddr_spec h
  have htranslate : translate c.table ⟨.load, va, namei, elf, ph⟩ = some (c.table.walkaddr va) := by
    unfold translate
    simp only [if_neg (Nat.not_le.mpr hmax), hleaf, Op.permitted, hu, hread _ e hleaf hu,
      Bool.and_self, if_true, hpa]
  unfold UserLoads
  rw [access_mapped rfl htranslate]
  constructor
  · rintro ⟨c', hc'⟩
    simp only [Except.ok.injEq, Prod.mk.injEq, Option.some.injEq] at hc'
    exact hc'.1.symm
  · rintro rfl
    exact ⟨c, rfl⟩

theorem copiesIn_iff (hread : ∀ v e, c.table.leaf v = some e → Readable e) :
    CopiesIn namei elf ph c va len ↔ UserMapped c.table va len := by
  constructor
  · intro h
    by_contra hmapped
    obtain ⟨b, hcopy, -⟩ := h fun _ => 0
    have hfail := @copyinBytes_unmapped _ _ _ c.kernel.memory hmapped fun _ => 0
    rw [hcopy] at hfail
    cases hfail
  · intro h dst
    obtain ⟨b, hcopy, hb⟩ := @copyinBytes_mapped _ _ _ c.kernel.memory h dst
    exact ⟨b, hcopy, fun k hk => (userLoads_iff hread (h k hk)).mpr (hb k hk)⟩

theorem copiesOut_iff (hread : ∀ v e, c.table.leaf v = some e → Readable e)
    (h : UserMapped c.table va len) :
    CopiesOut namei elf ph c va len ↔ Unaliased c.table va len := by
  constructor
  · intro hout k hk k' hk' hpage hoff
    -- two addresses of one byte of memory, with different bytes written to them
    by_contra hne
    obtain ⟨m, -, hm⟩ := hout fun i => if i = k then 1 else 0
    have hfirst := (@userLoads_iff _ _ _ (c.setSpace (m, c.table)) _ hread (h k hk) _).mp (hm k hk)
    have hsecond :=
      (@userLoads_iff _ _ _ (c.setSpace (m, c.table)) _ hread (h k' hk') _).mp (hm k' hk')
    rw [if_pos rfl] at hfirst
    rw [if_neg (Ne.symm hne)] at hsecond
    simp only [Cpu.setSpace, ← hpage, ← hoff] at hfirst hsecond
    exact absurd (hfirst.trans hsecond.symm) (by decide)
  · intro halias src
    obtain ⟨m, hcopy, hm⟩ := @copyout_mapped _ _ _ c.kernel.memory src h
    refine ⟨m, hcopy, fun k hk => ?_⟩
    apply (@userLoads_iff _ _ _ (c.setSpace (m, c.table)) _ hread (h k hk) _).mpr
    exact (hm halias k hk).symm

theorem UserOnce.unaliased (hone : UserOnce c.table) (h : UserMapped c.table va len) :
    Unaliased c.table va len := by
  intro k hk k' hk' hpage hoff
  have hpages : pgrounddown (va + k') = pgrounddown (va + k) := by
    apply walkaddr_inj hone (pgrounddown_aligned _) (pgrounddown_aligned _)
    · rw [walkaddr_pgrounddown]
      exact h k hk
    · rw [walkaddr_pgrounddown, walkaddr_pgrounddown, hpage]
  have hk₁ := pgrounddown_add_mod (va + k)
  have hk₂ := pgrounddown_add_mod (va + k')
  omega

/-- System calls and the program see the same memory in a buffer if and only if no page under
it is untouched or swapped out and, where the program can write to it, its bytes are different
bytes of memory. The last holds of every table that has no frame twice. -/
theorem same_memory_iff (hread : ∀ v e, c.table.leaf v = some e → Readable e) :
    (SameMemory namei elf ph c va len ↔ UserMapped c.table va len ∧
      (Writable namei elf ph c va len → Unaliased c.table va len)) ∧
    (UserOnce c.table → (SameMemory namei elf ph c va len ↔ UserMapped c.table va len)) := by
  have hiff : SameMemory namei elf ph c va len ↔ UserMapped c.table va len ∧
      (Writable namei elf ph c va len → Unaliased c.table va len) := by
    unfold SameMemory
    rw [copiesIn_iff hread]
    constructor
    · rintro ⟨h, hout⟩
      exact ⟨h, fun hw => (copiesOut_iff hread h).mp (hout hw)⟩
    · rintro ⟨h, halias⟩
      exact ⟨h, fun hw => (copiesOut_iff hread h).mpr (halias hw)⟩
  refine ⟨hiff, fun hone => ?_⟩
  rw [hiff]
  constructor
  · exact And.left
  · intro h
    exact ⟨h, fun _ => hone.unaliased h⟩

end SameMemory

section Sample

theorem sampleTable_readable (stack v : ℕ) (e : Pte) (h : (sampleTable stack).leaf v = some e) :
    Readable e := by
  simp only [sampleTable] at h
  split_ifs at h <;>
    · cases h
      exact fun _ => rfl

/-- Four bytes on the stack of a process that `exec` has just loaded. -/
theorem stack_same_memory_iff :
    (SameMemory (fun _ => none) (fun _ => 0) (fun _ => 0) loadedCpu PGSIZE 4 ↔
      UserMapped loadedCpu.table PGSIZE 4 ∧
        (Writable (fun _ => none) (fun _ => 0) (fun _ => 0) loadedCpu PGSIZE 4 →
          Unaliased loadedCpu.table PGSIZE 4)) ∧
    (UserOnce loadedCpu.table →
      (SameMemory (fun _ => none) (fun _ => 0) (fun _ => 0) loadedCpu PGSIZE 4 ↔
        UserMapped loadedCpu.table PGSIZE 4)) :=
  same_memory_iff (c := loadedCpu) (sampleTable_readable 0)

/-- A page of the tracked heap that the process has not touched: a load returns 0, `copyin`
returns -1. -/
theorem untouched_page_not_copied : ∃ c, growproc PGSIZE loadedCpu = .ok (true, c) ∧
    c.proc.ondemand = true ∧ (c.proc.heapTracker 0).addr = PGSIZE * 2 ∧
    UserLoads (fun _ => none) (fun _ => 0) (fun _ => 0) c (PGSIZE * 2) 0 ∧
    ¬ SameMemory (fun _ => none) (fun _ => 0) (fun _ => 0) c (PGSIZE * 2) 1 := by
  have hall : (growproc PGSIZE loadedCpu).toOption.all (fun r => r.1 = true ∧
      r.2.proc.ondemand = true ∧ (r.2.proc.heapTracker 0).addr = PGSIZE * 2 ∧
      r.2.table.walkaddr (PGSIZE * 2) = 0 ∧
      (access ⟨.load, PGSIZE * 2, fun _ => none, fun _ => 0, fun _ => 0⟩ r.2).toOption.map
        Prod.fst = some (some 0)) = true := by decide +kernel
  obtain ⟨c, hgrow⟩ := loadedCpu_fresh.growproc_returns (n := 1) le_rfl (by decide)
  rw [Nat.cast_one, mul_one] at hgrow
  rw [hgrow] at hall
  obtain ⟨-, hond, haddr, hpa, hload⟩ := of_decide_eq_true hall
  have htable : c.table = loadedCpu.table := by
    obtain ⟨-, -, -, -, -, htable, -⟩ := loadedCpu_fresh.growproc_heap hgrow
    exact htable
  refine ⟨c, hgrow, hond, haddr, ?_, fun h => ?_⟩
  · cases haccess : access ⟨.load, PGSIZE * 2, fun _ => none, fun _ => 0, fun _ => 0⟩ c with
    | error e =>
      rw [haccess] at hload
      cases hload
    | ok r =>
      rw [haccess] at hload
      obtain ⟨b, c'⟩ := r
      cases hload
      exact ⟨c', haccess⟩
  · have hread : ∀ v e, c.table.leaf v = some e → Readable e := by
      rw [htable]
      exact sampleTable_readable 0
    exact (copiesIn_iff hread).mp h.1 0 (by decide) hpa

end Sample

end AdvancedOperatingSystems.DemandPaging
