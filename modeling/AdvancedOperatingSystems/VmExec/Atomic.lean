import AdvancedOperatingSystems.VmExec.Loading

/-!
# Whether exec of a VM is atomic

A call of `exec` that runs out of pages before it commits leaves the calling process alone. The
memory region of a VM comes after that: where its pages are missing, `exec` frees the page table
that the process has just got, and returns -1.
-/

namespace AdvancedOperatingSystems.VmExec

open Foundations Riscv Riscv.PageTable DemandPaging
open TrapEmulate (vmStart vmEnd)

/-- The pages of the image that a file and arguments make, if the file is a program. -/
def programPages (f : File) (argv : List (List Byte)) : Option ℕ :=
  let (got, buf) := readi f 0 sizeofElfhdr fun _ => 0
  let elf := Elfhdr.ofBytes buf
  if got ≠ sizeofElfhdr then none
  else if elf.magic ≠ ELF_MAGIC then none
  else imagePages f elf argv

def InUse (pg : Pagetable) (q : ℕ) : Prop := q = pg.root ∨ Holds pg.table q

/-- A process that calls `exec`, and the memory of the kernel. -/
structure Caller (m : Memory) (p : Proc) : Prop where
  kend : KERNBASE ≤ m.kend
  trampoline : m.trampoline < m.kend
  nodup : m.freelist.Nodup
  free : ∀ q ∈ m.freelist, Freeable m.kend q
  table : Disposable m.kend p.pagetable p.sz
  held_nodup : (held p.pagetable p.sz).Nodup
  used : ∀ q, InUse p.pagetable q → q ∉ m.freelist
  trapframe : p.trapframePage ∉ m.freelist
  trapframe_held : p.trapframePage ∉ held p.pagetable p.sz

/-- What a call of `exec` with that result is to leave. -/
def Atomic (p : Proc) (r : Option ℕ) (m' : Memory) (p' : Proc) : Prop :=
  match r with
  | none => p' = p ∧ ∀ q, InUse p.pagetable q ∨ q = p.trapframePage → q ∉ m'.freelist
  | some _ =>
    (∀ q, InUse p'.pagetable q → q ∉ m'.freelist) ∧
      ∀ va, va < p'.sz ∨ vmStart ≤ va ∧ va < vmEnd → p'.pagetable.table.Mapped va

section Free

variable {l : List ℕ} {kend n sz : ℕ} {A : ℕ → Prop} {m : Memory} {pt : PageTable ℕ} {root : ℕ}
  {pg : Pagetable}

theorem length_le_of_freeable (hn : l.Nodup) (h : ∀ q ∈ l, Freeable kend q) (hk : KERNBASE ≤ kend) :
    l.length ≤ 32768 := by
  have hmap : (l.map (· / PGSIZE)).Nodup := by
    apply hn.map_on
    intro a ha b hb heq
    have ha := (h a ha).1
    have hb := (h b hb).1
    simp only [PGSIZE] at *
    omega
  have hsub : l.map (· / PGSIZE) ⊆ List.range' 524288 32768 := by
    intro v hv
    obtain ⟨q, hq, rfl⟩ := List.mem_map.mp hv
    have hq := h q hq
    rw [List.mem_range'_1]
    simp only [Freeable, PHYSTOP, KERNBASE, PGSIZE] at *
    omega
  have hle := (hmap.subperm hsub).length_le
  rwa [List.length_map, List.length_range'] at hle

theorem mem_held {q : ℕ} (h : q ∈ held pg sz) : InUse pg q := by
  unfold held at h
  rw [List.mem_append, List.mem_cons] at h
  rcases h with h | h | h
  · obtain ⟨a, -, e, he, hpa⟩ := mem_frames.mp h
    exact Or.inr (Or.inr (Or.inr ⟨_, e, he, hpa⟩))
  · exact Or.inl h
  · rcases mem_tables h with hmid | hlow
    · exact Or.inr (Or.inl hmid)
    · exact Or.inr (Or.inr (Or.inl hlow))

/-- A table with the pages below a size is given back. -/
theorem Owned.freed (h : Owned kend A (fun v => Special v ∨ Block 0 (npages sz) v) (m, pt))
    (hA : ∀ q, A q → Freeable kend q) (hroot : Freeable kend root) (hsmall : npages sz < 262144) :
    ∃ m', procFreepagetable ⟨root, pt⟩ sz m = .ok m' ∧
      ∀ q ∈ m'.freelist, q = root ∨ A q := by
  have hkend : m.kend = kend := h.kend
  have hblock : ∀ v, Block 0 (npages sz) v ↔ PGSIZE * v < sz := by
    intro v
    simp only [Block, npages, PGSIZE]
    omega
  have hleaf : ∀ v, (pt.leaf v).isSome ↔ PGSIZE * v < sz ∨ v = trapPage ∨ v = trapPage + 1 := by
    intro v
    rw [h.leaf v, hblock]
    exact or_comm
  have hheld : ∀ q ∈ held ⟨root, pt⟩ sz, q = root ∨ A q := by
    intro q hq
    unfold held at hq
    rw [List.mem_append, List.mem_cons] at hq
    rcases hq with hq | hq | hq
    · obtain ⟨a, ha, e, he, rfl⟩ := mem_frames.mp hq
      refine Or.inr (h.frame _ e ?_ he)
      rw [mem_pages] at ha
      simp only [npages, vpn, trapPage, TRAPFRAME, TRAMPOLINE, MAXVA, PGSIZE] at *
      omega
    · exact Or.inl hq
    · rcases mem_tables hq with ⟨i, hi⟩ | ⟨j, hj⟩
      · exact Or.inr (h.mid i q hi)
      · exact Or.inr (h.low j q hj)
  have hdisposable : Disposable m.kend ⟨root, pt⟩ sz := by
    refine ⟨h.wf, fun v hv => ?_, fun q hq => ?_, ?_⟩
    · have hv := (hleaf v).mp hv
      simp only [npages, trapPage, TRAPFRAME, TRAMPOLINE, MAXVA, PGSIZE] at *
      omega
    · rw [hkend]
      rcases hheld q hq with rfl | hq
      · exact hroot
      · exact hA q hq
    · have := le_npages sz
      simp only [TRAPFRAME, TRAMPOLINE, MAXVA, PGSIZE] at *
      omega
  obtain ⟨m', hrun, -, hperm⟩ := procFreepagetable_fits hdisposable hleaf
  refine ⟨m', hrun, fun q hq => ?_⟩
  rcases List.mem_append.mp (hperm.mem_iff.mp hq) with hq | hq
  · exact hheld q hq
  · exact Or.inr (h.free q hq)

end Free

section Region

variable {kend n root sz : ℕ} {A : ℕ → Prop} {m : Memory} {pt : PageTable ℕ} {p : Proc} {argc : ℕ}

/-- The region of a VM gets its pages, or the new page table is freed. -/
theorem createRegion_spec (hvm : isVm p.name = true) (hp : p.pagetable.table = pt)
    (hO : Owned kend A (fun v => Special v ∨ Block 0 (npages p.sz) v) (m, pt))
    (hv : Vacant 2 pt) (hn : m.freelist.Nodup) (hunfree : ∀ q, Holds pt q → q ∉ m.freelist)
    (hA : ∀ q, A q → Freeable kend q) (hroot : Freeable kend p.pagetable.root)
    (hsmall : npages p.sz < 262144) (hlen : m.freelist.length < 262144) :
    if cost 1024 ≤ m.freelist.length then
      ∃ m' pt', createRegion argc p m =
          .ok (some argc, m', { p with pagetable := { p.pagetable with table := pt' } }) ∧
        (∀ q ∈ m'.freelist, A q) ∧ (∀ q, Holds pt' q → q ∉ m'.freelist) ∧
        ∀ v, v < npages p.sz ∨ 524288 ≤ v ∧ v < 525312 → (pt'.leaf v).isSome
    else ∃ m' pt', createRegion argc p m =
      .ok (none, m', { p with pagetable := { p.pagetable with table := pt' } }) := by
  have hO' : Owned kend A
      (fun v => (Special v ∨ Block 0 (npages p.sz) v) ∨ Block 2 0 v) (m, pt) :=
    hO.congr fun v => by
      have hnone : ¬ Block 2 0 v := by
        unfold Block
        omega
      exact ⟨Or.inl, fun h => h.resolve_right hnone⟩
  have hG : Grown m.freelist.length 2 0 pt (m, pt) := by
    refine ⟨hn, hunfree, rfl, by simp, fun j => ?_, fun v e hb _ => ?_, fun _ _ => rfl⟩
    · constructor
      · exact Or.inl
      · rintro (h | h)
        · exact h
        · omega
    · unfold Block at hb
      omega
  have hspec := @uvmallocLoop_spec pt kend m.freelist.length 2 0 A
    (fun v => Special v ∨ Block 0 (npages p.sz) v) permW (m, pt) 0 1024 hO' hG hv hlen (by omega)
    le_rfl (fun v hdiv hin => by
      rcases hin with hspecial | hblock
      · rw [special_div hspecial] at hdiv
        omega
      · unfold Block at hblock
        omega) hA
  have hstart : pgroundup64 vmStart = PGSIZE * (262144 * 2 + 0) := by decide
  have hpages : pages (PGSIZE * (262144 * 2 + 0)) (vmStart + 1024 * PGSIZE) =
      (List.range' 0 1024).map fun i => PGSIZE * (262144 * 2 + i) := by
    rw [pages_block]
    rfl
  have hup : ¬ vmStart + 1024 * PGSIZE < vmStart := by decide
  have hpos : vmStart + 1024 * PGSIZE ≠ 0 := by decide
  rw [← hpages, Nat.zero_add] at hspec
  unfold createRegion uvmalloc
  rw [if_pos hvm]
  simp only [hp, if_neg hup, hstart]
  by_cases hfed : cost 1024 ≤ m.freelist.length
  · rw [if_pos hfed] at hspec ⊢
    obtain ⟨⟨m', pt'⟩, hrun, hO₁, hG₁⟩ := hspec
    simp only [hrun, ok_bind, if_true]
    refine ⟨m', pt', ?_, hO₁.free, hG₁.unfree, fun v hv => ?_⟩
    · simp only [pure, Except.pure, ok_bind, if_neg hpos]
    · apply (hO₁.leaf v).mpr
      rcases hv with hv | hv
      · exact Or.inl (Or.inr ⟨by omega, by omega⟩)
      · exact Or.inr ⟨by omega, by omega⟩
  · rw [if_neg hfed] at hspec ⊢
    obtain ⟨⟨m', pt'⟩, hrun, hO₁⟩ := hspec
    have hO₂ : Owned kend A (fun v => Special v ∨ Block 0 (npages p.sz) v) (m', pt') :=
      hO₁.congr fun v => by
        have hnone : ¬ Block 2 0 v := by
          unfold Block
          omega
        exact ⟨fun h => h.resolve_right hnone, Or.inl⟩
    obtain ⟨m'', hfreed, -⟩ := @Owned.freed kend p.sz A m' pt' p.pagetable.root hO₂ hA hroot hsmall
    refine ⟨m'', pt', ?_⟩
    simp only [hrun, ok_bind, Bool.false_eq_true, if_false, pure, Except.pure, if_true, hfreed]

end Region

section Exec

variable {path : Path} {argv : List (List Byte)} {namei : Path → Option File} {m : Memory} {p : Proc}
  {f : File}

/-- The process with its new image, before the region of a VM. -/
def commit (path : Path) (argv : List (List Byte)) (f : File) (pg : Pagetable) (sz : ℕ) (p : Proc) :
    Proc :=
  { p with
    name := progName path, pagetable := pg, sz := sz
    trapframe := ⟨elfEntry (readi f 0 sizeofElfhdr fun _ => 0).2, stackPointer sz argv,
      stackPointer sz argv⟩ }

/-- A call of `exec` that has not got the pages for the image leaves them all free. -/
theorem exec_early (h : Caller m p) (hshort : ∀ f n, namei path = some f →
    programPages f argv = some n → m.freelist.length < emptyCost + cost n) :
    ∃ m', exec path argv namei m p = .ok (none, m', p) ∧ ∀ q ∈ m'.freelist, q ∈ m.freelist := by
  have hstay : ∃ m', (.ok (none, m, p) : Except Panic (Option ℕ × Memory × Proc)) =
      .ok (none, m', p) ∧ ∀ q ∈ m'.freelist, q ∈ m.freelist := ⟨m, rfl, fun _ hq => hq⟩
  have hkend : 0 < m.kend := lt_of_lt_of_le (by decide) h.kend
  have htramp : m.trampoline ∉ m.freelist := by
    intro hmem
    have := (h.free _ hmem).2.1
    have := h.trampoline
    omega
  unfold exec
  cases hf : namei path with
  | none => exact hstay
  | some f =>
    have hsize := hshort f
    unfold programPages at hsize
    simp only at hsize ⊢
    by_cases hgot : (readi f 0 sizeofElfhdr fun _ => 0).1 = sizeofElfhdr
    · simp only [if_neg (not_not.mpr hgot)] at hsize ⊢
      generalize Elfhdr.ofBytes (readi f 0 sizeofElfhdr fun _ => 0).2 = elf at hsize ⊢
      by_cases hmagic : elf.magic = ELF_MAGIC
      · simp only [if_neg (not_not.mpr hmagic)] at hsize ⊢
        have hcreate := @procPagetable_spec m m.kend p.trapframePage rfl h.nodup h.free htramp
          h.trapframe
        have hlen := length_le_of_freeable h.nodup h.free h.kend
        by_cases hthree : emptyCost ≤ m.freelist.length
        · rw [if_pos hthree] at hcreate
          obtain ⟨⟨root, pt⟩, m₁, hrun, hroot, hbare, himage, -⟩ := hcreate
          have hA : ∀ q, q ∈ m.freelist ∧ q ≠ root → Freeable m.kend q := fun q hq => h.free q hq.1
          simp only [hrun, ok_bind]
          rcases @buildImage_spec m.kend (m.freelist.length - emptyCost) _ pt (m₁, pt) f elf argv
              himage hbare (by omega) hA hkend with
            ⟨n, s', argc, hpages, -, hbuilt⟩ | ⟨-, sz, ⟨m₂, pt₂⟩, hbuild, hO, hle⟩
          · have hcount := hbuilt.count
            have hneed := hsize n hf hpages
            omega
          · obtain ⟨m₃, hfreed, hin⟩ := @Owned.freed m.kend sz _ m₂ pt₂ root hO hA (h.free _ hroot)
              (by omega)
            simp only [hbuild, ok_bind, hfreed]
            refine ⟨m₃, rfl, fun q hq => ?_⟩
            rcases hin q hq with rfl | hq
            · exact hroot
            · exact hq.1
        · rw [if_neg hthree] at hcreate
          obtain ⟨m₁, hrun, hin⟩ := hcreate
          simp only [hrun, ok_bind]
          exact ⟨m₁, rfl, hin⟩
      · simp only [if_pos hmagic]
        exact hstay
    · simp only [if_pos hgot]
      exact hstay

/-- With the pages for the image `exec` commits. -/
theorem exec_commits (h : Caller m p) {n : ℕ} (hf : namei path = some f)
    (hn : programPages f argv = some n) (hfed : emptyCost + cost n ≤ m.freelist.length) :
    ∃ root pt₀ pt m₁ argc, root ∈ m.freelist ∧
      Built m.kend (fun q => q ∈ m.freelist ∧ q ≠ root) (m.freelist.length - emptyCost) n pt₀
        (m₁, pt) ∧
      (∀ q, Holds pt₀ q → q ∈ m.freelist ∨ q = m.trampoline ∨ q = p.trapframePage) ∧
      exec path argv namei m p = procFreepagetable p.pagetable p.sz m₁ >>=
        createRegion argc (commit path argv f ⟨root, pt⟩ (PGSIZE * n) p) := by
  have hkend : 0 < m.kend := lt_of_lt_of_le (by decide) h.kend
  have htramp : m.trampoline ∉ m.freelist := by
    intro hmem
    have := (h.free _ hmem).2.1
    have := h.trampoline
    omega
  unfold programPages at hn
  simp only at hn
  split_ifs at hn with hgot hmagic
  have hcreate := @procPagetable_spec m m.kend p.trapframePage rfl h.nodup h.free htramp h.trapframe
  have hlen := length_le_of_freeable h.nodup h.free h.kend
  rw [if_pos (le_trans (Nat.le_add_right _ _) hfed)] at hcreate
  obtain ⟨⟨root, pt₀⟩, m₁, hrun, hroot, hbare, himage, hholds⟩ := hcreate
  have hA : ∀ q, q ∈ m.freelist ∧ q ≠ root → Freeable m.kend q := fun q hq => h.free q hq.1
  rcases @buildImage_spec m.kend (m.freelist.length - emptyCost) _ pt₀ (m₁, pt₀) f
      (Elfhdr.ofBytes (readi f 0 sizeofElfhdr fun _ => 0).2) argv himage hbare (by omega) hA hkend with
    ⟨n', ⟨m₂, pt⟩, argc, hpages, hbuild, hbuilt⟩ | ⟨hfull, -⟩
  · have hsame : n' = n := by
      rw [hn] at hpages
      cases hpages
      rfl
    subst hsame
    refine ⟨root, pt₀, pt, m₂, argc, hroot, hbuilt, hholds, ?_⟩
    unfold exec
    rw [hf]
    simp only [if_neg hgot, if_neg hmagic, hrun, ok_bind, hbuild]
    rfl
  · have hneed := hfull n hn
    omega

theorem Built.holds {kend N n root trampoline trapframe q : ℕ} {m₁ : Memory} {pt₀ pt : PageTable ℕ}
    (h : Built kend (fun q => q ∈ m.freelist ∧ q ≠ root) N n pt₀ (m₁, pt)) (hN : N < 262144)
    (h₀ : ∀ q, Holds pt₀ q → q ∈ m.freelist ∨ q = trampoline ∨ q = trapframe) (hq : Holds pt q) :
    q ∈ m.freelist ∨ q = trampoline ∨ q = trapframe := by
  have hcount := h.count
  have hle := le_cost n
  rcases hq with ⟨i, hi⟩ | ⟨j, hj⟩ | ⟨v, e, he, rfl⟩
  · exact Or.inl (h.owned.mid i q hi).1
  · exact Or.inl (h.owned.low j q hj).1
  · by_cases hv : v < trapPage
    · exact Or.inl (h.owned.frame v e hv he).1
    · apply h₀
      have hin : Special v ∨ Block 0 n v := (h.owned.leaf v).mp (by rw [he]; rfl)
      rcases hin with hspecial | hblock
      · exact Or.inr (Or.inr ⟨v, e, (h.special v hspecial) ▸ he, rfl⟩)
      · simp only [Block, trapPage, TRAPFRAME, TRAMPOLINE, MAXVA, PGSIZE] at *
        omega

/-- `exec` of a VM whose image gets its pages: what matters is whether those of the old image are
enough for the region. -/
theorem exec_vm (h : Caller m p) (hvm : isVm (progName path) = true) {n : ℕ}
    (hf : namei path = some f) (hn : programPages f argv = some n)
    (hfed : emptyCost + cost n ≤ m.freelist.length) (hfits : Fits p.pagetable.table p.sz) :
    if emptyCost + cost n + cost 1024 ≤ m.freelist.length + (held p.pagetable p.sz).length then
      ∃ argc m' p', exec path argv namei m p = .ok (some argc, m', p') ∧
        Atomic p (some argc) m' p'
    else ∃ m' p', exec path argv namei m p = .ok (none, m', p') ∧ p' ≠ p := by
  obtain ⟨root, pt₀, pt, m₁, argc, hroot, hbuilt, hholds, hexec⟩ := exec_commits h hf hn hfed
  have hlen := length_le_of_freeable h.nodup h.free h.kend
  have hcount : m₁.freelist.length + cost n = m.freelist.length - emptyCost := hbuilt.count
  have hle := le_cost n
  have hkend₁ : m₁.kend = m.kend := hbuilt.owned.kend
  have hused : ∀ q ∈ held p.pagetable p.sz, q ∉ m.freelist := fun q hq => h.used q (mem_held hq)
  have hfree₁ : ∀ q ∈ m₁.freelist, q ∈ m.freelist ∧ q ≠ root := hbuilt.owned.free
  obtain ⟨m₂, hfreed, hkend₂, hperm⟩ := procFreepagetable_fits (hkend₁ ▸ h.table) hfits
  have hmem : ∀ q, q ∈ m₂.freelist ↔ q ∈ held p.pagetable p.sz ∨ q ∈ m₁.freelist := by
    intro q
    rw [hperm.mem_iff, List.mem_append]
  have hA : ∀ q, (q ∈ m.freelist ∨ q ∈ held p.pagetable p.sz) ∧ q ≠ root → Freeable m.kend q := by
    rintro q ⟨hq | hq, -⟩
    · exact h.free q hq
    · exact h.table.freeable q hq
  have hn₂ : m₂.freelist.Nodup := by
    rw [hperm.nodup_iff, List.nodup_append]
    refine ⟨h.held_nodup, hbuilt.nodup, ?_⟩
    rintro q hq _ hq' rfl
    exact hused q hq (hfree₁ q hq').1
  have hlen₂ : m₂.freelist.length = (held p.pagetable p.sz).length + m₁.freelist.length := by
    rw [hperm.length_eq, List.length_append]
  have hbound₂ : m₂.freelist.length ≤ 32768 := by
    refine length_le_of_freeable hn₂ (fun q hq => ?_) h.kend
    rcases (hmem q).mp hq with hq | hq
    · exact h.table.freeable q hq
    · exact h.free q (hfree₁ q hq).1
  have hsame : npages (PGSIZE * n) = n := by
    simp only [npages, PGSIZE]
    omega
  have hregion := @createRegion_spec m.kend
    (fun q => (q ∈ m.freelist ∨ q ∈ held p.pagetable p.sz) ∧ q ≠ root) m₂ pt
    (commit path argv f ⟨root, pt⟩ (PGSIZE * n) p) argc hvm rfl
    (by
      refine ⟨hbuilt.owned.wf, hkend₂.trans hkend₁, fun q hq => ?_, fun i t hi => ?_,
        fun j t hj => ?_, fun v => ?_, fun v e hv he => ?_⟩
      · rcases (hmem q).mp hq with hq | hq
        · refine ⟨Or.inr hq, ?_⟩
          rintro rfl
          exact hused q hq hroot
        · exact ⟨Or.inl (hfree₁ q hq).1, (hfree₁ q hq).2⟩
      · exact (hbuilt.owned.mid i t hi).imp_left Or.inl
      · exact (hbuilt.owned.low j t hj).imp_left Or.inl
      · show _ ↔ Special v ∨ Block 0 (npages (PGSIZE * n)) v
        rw [hsame]
        exact hbuilt.owned.leaf v
      · exact (hbuilt.owned.frame v e hv he).imp_left Or.inl)
    hbuilt.vacant hn₂
    (fun q hq hfree => by
      rcases (hmem q).mp hfree with hheld | hfree
      · rcases hbuilt.holds (by omega) hholds hq with hq | rfl | rfl
        · exact hused q hheld hq
        · have hfreeable := (h.table.freeable _ hheld).2.1
          have := h.trampoline
          omega
        · exact h.trapframe_held hheld
      · exact hbuilt.unfree q hq hfree)
    hA (h.free root hroot)
    (by
      show npages (PGSIZE * n) < 262144
      rw [hsame]
      omega)
    (by omega)
  have hthree : emptyCost = 3 := rfl
  rw [hexec, hfreed]
  simp only [ok_bind]
  by_cases hfull : emptyCost + cost n + cost 1024 ≤
      m.freelist.length + (held p.pagetable p.sz).length
  · rw [if_pos hfull]
    rw [if_pos (by omega)] at hregion
    obtain ⟨m', pt', hrun, hfree, hunfree, hmapped⟩ := hregion
    refine ⟨argc, m', _, hrun, fun q hq hin => ?_, fun va hva => hmapped _ ?_⟩
    · rcases hq with rfl | hq
      · exact (hfree _ hin).2 rfl
      · exact hunfree q hq hin
    · rcases hva with hva | hva
      · left
        show vpn va < npages (PGSIZE * n)
        have hva : va < PGSIZE * n := hva
        rw [hsame]
        simp only [vpn, PGSIZE] at *
        omega
      · right
        simp only [vpn, vmStart, vmEnd, PGSIZE] at *
        omega
  · rw [if_neg hfull]
    rw [if_neg (by omega)] at hregion
    obtain ⟨m', pt', hrun⟩ := hregion
    refine ⟨m', _, hrun, fun heq => ?_⟩
    have hsame : root = p.pagetable.root := congrArg (fun p => p.pagetable.root) heq
    exact h.used root (Or.inl hsame) hroot

theorem exec_vm_short (h : Caller m p) (hvm : isVm (progName path) = true) {n : ℕ}
    (hf : namei path = some f) (hn : programPages f argv = some n)
    (hfed : emptyCost + cost n ≤ m.freelist.length) (hfits : Fits p.pagetable.table p.sz)
    (hshort : ¬ emptyCost + cost n + cost 1024 ≤
      m.freelist.length + (held p.pagetable p.sz).length) :
    ∃ m' p', exec path argv namei m p = .ok (none, m', p') ∧ p' ≠ p := by
  have hcases := exec_vm h hvm hf hn hfed hfits
  rwa [if_neg hshort] at hcases

/-- `exec` of a VM leaves the calling process alone or makes all of its image, exactly when the
pages for the region are there whenever it gets as far as to commit. -/
theorem vm_exec_atomic_iff (h : Caller m p) (hvm : isVm (progName path) = true) :
    (∀ r m' p', exec path argv namei m p = .ok (r, m', p') → Atomic p r m' p') ↔
      ∀ f n, namei path = some f → programPages f argv = some n →
        emptyCost + cost n ≤ m.freelist.length → Fits p.pagetable.table p.sz →
          emptyCost + cost n + cost 1024 ≤ m.freelist.length + (held p.pagetable p.sz).length := by
  constructor
  · intro hatomic f n hf hn hfed hfits
    by_contra hshort
    obtain ⟨m', p', hexec, hne⟩ := exec_vm_short h hvm hf hn hfed hfits hshort
    exact hne (hatomic none m' p' hexec).1
  · intro hcond r m' p' hexec
    by_cases hearly : ∀ f n, namei path = some f → programPages f argv = some n →
        m.freelist.length < emptyCost + cost n
    · obtain ⟨m₁, hrun, hsub⟩ := exec_early h hearly
      rw [hrun] at hexec
      cases hexec
      refine ⟨rfl, fun q hq hfree => ?_⟩
      rcases hq with hq | rfl
      · exact h.used q hq (hsub q hfree)
      · exact h.trapframe (hsub _ hfree)
    · push Not at hearly
      obtain ⟨f, n, hf, hn, hfed⟩ := hearly
      by_cases hfits : Fits p.pagetable.table p.sz
      · have hcases := exec_vm h hvm hf hn hfed hfits
        rw [if_pos (hcond f n hf hn hfed hfits)] at hcases
        obtain ⟨argc, m₁, p₁, hrun, hatomic⟩ := hcases
        rw [hrun] at hexec
        cases hexec
        exact hatomic
      · -- the old page table is not one that `proc_freepagetable` can free
        obtain ⟨root, pt₀, pt, m₁, argc, -, -, -, hrun⟩ := exec_commits h hf hn hfed
        rw [hrun] at hexec
        obtain ⟨m₂, hfreed, -⟩ := bind_ok_iff.mp hexec
        exact absurd (procFreepagetable_returns h.table.wf h.table.bounded h.table.sz_le hfreed) hfits

end Exec

/-- The pages of the sample, from the end of the kernel on. -/
def samplePage (k : ℕ) : ℕ := KERNBASE + PGSIZE * (32 + k)

def sampleMemory : Memory where
  trampoline := KERNBASE
  kend := samplePage 0
  freelist := (List.range 10).map fun k => samplePage (4 + k)
  page := fun _ _ => 0
  released := []

def sampleProc : Proc where
  pagetable := ⟨samplePage 1, bareTable (samplePage 2) (samplePage 3) KERNBASE (samplePage 0)⟩
  sz := 0
  name := ['s', 'h']
  trapframePage := samplePage 0
  trapframe := ⟨0, 0, 0⟩

def sampleProgram : File where
  size := sizeofElfhdr
  byte j := ([0x7F, 0x45, 0x4C, 0x46] : List Byte).getD j 0
  size_le := by decide

def samplePath : Path := ['/', 'v', 'm', '-', 'a']

theorem sample_held : held sampleProc.pagetable sampleProc.sz =
    [samplePage 1, samplePage 2, samplePage 3] := by
  decide +kernel

theorem sample_free_iff {q : ℕ} :
    q ∈ sampleMemory.freelist ↔ ∃ k < 10, q = samplePage (4 + k) := by
  unfold sampleMemory
  simp only [List.mem_map, List.mem_range]
  constructor
  · rintro ⟨k, hk, rfl⟩
    exact ⟨k, hk, rfl⟩
  · rintro ⟨k, hk, rfl⟩
    exact ⟨k, hk, rfl⟩

theorem samplePage_freeable {k : ℕ} (hk : k < 14) : Freeable sampleMemory.kend (samplePage k) := by
  simp only [Freeable, sampleMemory, samplePage, PHYSTOP, KERNBASE, PGSIZE]
  omega

theorem sampleProc_bounded (v : ℕ) (h : (sampleProc.pagetable.table.leaf v).isSome) :
    v ≤ trapPage + 1 := by
  rcases ((bareTable_bare _ _ _ _).leaf v).mp h with rfl | rfl
  · exact Nat.le_succ _
  · exact le_rfl

theorem sample_caller : Caller sampleMemory sampleProc where
  kend := by decide
  trampoline := by decide
  nodup := by decide
  free := by
    intro q hq
    obtain ⟨k, hk, rfl⟩ := sample_free_iff.mp hq
    exact samplePage_freeable (by omega)
  table := by
    refine ⟨bareTable_wf _ _ _ _, sampleProc_bounded, fun q hq => ?_, Nat.zero_le _⟩
    rw [sample_held] at hq
    simp only [List.mem_cons, List.not_mem_nil, or_false] at hq
    rcases hq with rfl | rfl | rfl <;> exact samplePage_freeable (by omega)
  held_nodup := by
    rw [sample_held]
    decide
  used := by
    intro q hq hfree
    obtain ⟨k, hk, rfl⟩ := sample_free_iff.mp hfree
    rcases hq with h | h
    · simp only [sampleProc, samplePage, PGSIZE] at h
      omega
    · rcases bareTable_holds h with h | h | h | h <;>
        simp only [samplePage, KERNBASE, PGSIZE] at h <;> omega
  trapframe := by decide
  trapframe_held := by
    rw [sample_held]
    decide

theorem sample_vm_exec_atomic_iff :
    (∀ r m' p', exec samplePath [] (fun _ => some sampleProgram) sampleMemory sampleProc =
        .ok (r, m', p') → Atomic sampleProc r m' p') ↔
      ∀ f n, some sampleProgram = some f → programPages f [] = some n →
        emptyCost + cost n ≤ sampleMemory.freelist.length →
          Fits sampleProc.pagetable.table sampleProc.sz →
            emptyCost + cost n + cost 1024 ≤ sampleMemory.freelist.length +
              (held sampleProc.pagetable sampleProc.sz).length :=
  vm_exec_atomic_iff sample_caller (by decide)

/-- With ten free pages the image is built and the region is not: the process is left with a page
table that has been freed. -/
theorem vm_exec_loses_process : Caller sampleMemory sampleProc ∧ isVm (progName samplePath) = true ∧
    ∃ m' p', exec samplePath [] (fun _ => some sampleProgram) sampleMemory sampleProc =
      .ok (none, m', p') ∧ ¬ Atomic sampleProc none m' p' := by
  have hfits : Fits sampleProc.pagetable.table sampleProc.sz := by
    intro v
    have hbare := (bareTable_bare (samplePage 2) (samplePage 3) KERNBASE (samplePage 0)).leaf v
    refine hbare.trans ⟨Or.inr, fun h => h.resolve_left (Nat.not_lt_zero _)⟩
  have hpages : programPages sampleProgram [] = some 2 := by decide +kernel
  have hfed : emptyCost + cost 2 ≤ sampleMemory.freelist.length := by decide
  have hshort : ¬ emptyCost + cost 2 + cost 1024 ≤
      sampleMemory.freelist.length + (held sampleProc.pagetable sampleProc.sz).length := by
    rw [sample_held]
    decide
  obtain ⟨m', p', hrun, hne⟩ := @exec_vm_short samplePath [] (fun _ => some sampleProgram)
    sampleMemory sampleProc sampleProgram sample_caller (by decide) 2 rfl hpages hfed hfits hshort
  exact ⟨sample_caller, by decide, m', p', hrun, fun hatomic => hne hatomic.1⟩

end AdvancedOperatingSystems.VmExec
