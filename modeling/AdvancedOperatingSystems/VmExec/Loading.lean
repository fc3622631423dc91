import AdvancedOperatingSystems.VmExec.Image

/-!
# Loading a program

The size of the image that a file makes, as far as it can be loaded at all, and whether the
arguments fit on the stack page. With these `exec` gets to its end exactly when there are enough
pages for that size.
-/

namespace AdvancedOperatingSystems.VmExec

open Foundations Riscv Riscv.PageTable DemandPaging

/-- The file has all the bytes of a segment. -/
def segmentPresent (f : File) (offset sz : ℕ) : Bool :=
  (pages 0 (sz % 2 ^ 32)).all fun i =>
    f.count ((offset % 2 ^ 32 + i) % 2 ^ 32) (min (sz % 2 ^ 32 - i) PGSIZE) =
      min (sz % 2 ^ 32 - i) PGSIZE

/-- The size of the segments of a file, if they can be loaded. -/
def segmentsSize (f : File) (elf : Elfhdr) : List ℕ → ℕ → Option ℕ
  | [], sz => some sz
  | i :: is, sz =>
    let (got, buf) := readi f (elf.off i) sizeofProghdr fun _ => 0
    let ph := Proghdr.ofBytes buf
    let stop := (ph.vaddr + ph.memsz) % 2 ^ 64
    if got ≠ sizeofProghdr then none
    else if ph.type ≠ ELF_PROG_LOAD then segmentsSize f elf is sz
    else if ph.memsz < ph.filesz then none
    else if stop < ph.vaddr then none
    else if ph.vaddr % PGSIZE ≠ 0 then none
    else if max sz stop = 0 then none
    else if segmentPresent f ph.off ph.filesz then segmentsSize f elf is (max sz stop)
    else none

/-- The strings and the array `ustack` fit below the stack pointer, on the page below `top`. -/
def argsFit (top : ℕ) : List (List Byte) → ℕ → ℕ → Bool
  | [], sp, argc =>
    let size := (argc + 1) * 8
    let sp := sub64 sp size
    let sp := sp - sp % 16
    top - PGSIZE ≤ sp && sp + size ≤ top
  | arg :: args, sp, argc =>
    let sp := pushPointer sp arg
    argc < MAXARG && top - PGSIZE ≤ sp && sp + (arg.length + 1) ≤ top && argsFit top args sp (argc + 1)

/-- The pages of the image that a file and arguments make, if they can be loaded. -/
def imagePages (f : File) (elf : Elfhdr) (argv : List (List Byte)) : Option ℕ := do
  let sz ← segmentsSize f elf (List.range elf.phnum) 0
  let n := npages sz + 2
  if argsFit (PGSIZE * n) argv (PGSIZE * n) 0 then some n else none

theorem le_segmentsSize {f : File} {elf : Elfhdr} {is : List ℕ} {sz sz' : ℕ}
    (h : segmentsSize f elf is sz = some sz') : sz ≤ sz' := by
  induction is generalizing sz with
  | nil =>
    cases h
    exact le_rfl
  | cons i is ih =>
    simp only [segmentsSize] at h
    split_ifs at h
    · exact ih h
    · exact (le_max_left _ _).trans (ih h)

theorem npages_mono {sz sz' : ℕ} (h : sz ≤ sz') : npages sz ≤ npages sz' := by
  simp only [npages, PGSIZE]
  omega

theorem le_npages (sz : ℕ) : sz ≤ PGSIZE * npages sz := by
  simp only [npages, PGSIZE]
  omega

/-- The free list and its bound have not changed. -/
structure Undrawn (m m' : Memory) : Prop where
  freelist : m'.freelist = m.freelist
  kend : m'.kend = m.kend

section Frame

variable {m m' m'' : Memory} {pt pt₀ : PageTable ℕ} {kend N n k c : ℕ} {A S : ℕ → Prop}

theorem Undrawn.refl (m : Memory) : Undrawn m m := ⟨rfl, rfl⟩

theorem Undrawn.write (h : Undrawn m m') (pa : ℕ) (data : Page) : Undrawn m (m'.write pa data) :=
  ⟨h.freelist, h.kend⟩

theorem Undrawn.trans (h : Undrawn m m') (h' : Undrawn m' m'') : Undrawn m m'' :=
  ⟨h'.freelist.trans h.freelist, h'.kend.trans h.kend⟩

theorem Owned.undrawn (h : Owned kend A S (m, pt)) (hm : Undrawn m m') :
    Owned kend A S (m', pt) := by
  refine ⟨h.wf, hm.kend.trans h.kend, fun q hq => ?_, h.mid, h.low, h.leaf, h.frame⟩
  exact h.free q (hm.freelist ▸ hq)

theorem Grown.undrawn (h : Grown N c k pt₀ (m, pt)) (hm : Undrawn m m') :
    Grown N c k pt₀ (m', pt) := by
  have hfree : m'.freelist = m.freelist := hm.freelist
  refine ⟨?_, fun q hq => ?_, ?_, h.mid, h.low, h.user, h.leaf⟩
  · exact hfree ▸ h.nodup
  · exact hfree ▸ h.unfree q hq
  · exact hfree ▸ h.count

theorem Image.undrawn (h : Image kend A N pt₀ n (m, pt)) (hm : Undrawn m m') :
    Image kend A N pt₀ n (m', pt) :=
  ⟨h.owned.undrawn hm, h.grown.undrawn hm⟩

theorem copyout_undrawn (pt : PageTable ℕ) (va : ℕ) (src : ℕ → Byte) (len : ℕ) (m : Memory) :
    Undrawn m (copyout pt va src len m).2 := by
  have hloop : ∀ (as : List ℕ) (m : Memory),
      (∀ m', Foundations.exec (copyoutPage pt va src len) m as = .ok m' → Undrawn m m') ∧
      ∀ m', Foundations.exec (copyoutPage pt va src len) m as = .error m' → Undrawn m m' := by
    intro as
    induction as with
    | nil =>
      intro m
      refine ⟨fun m' h => ?_, fun m' h => ?_⟩
      · cases h
        exact Undrawn.refl m
      · cases h
    | cons a as ih =>
      intro m
      rw [exec_cons]
      by_cases hpa : pt.walkaddr a = 0
      · have hstep : copyoutPage pt va src len m a = .error m := by
          simp only [copyoutPage, if_pos hpa]
        rw [hstep]
        refine ⟨fun m' h => ?_, fun m' h => ?_⟩
        · cases h
        · cases h
          exact Undrawn.refl m
      · obtain ⟨data, hstep⟩ : ∃ data, copyoutPage pt va src len m a =
            .ok (m.write (pt.walkaddr a) data) := by
          simp only [copyoutPage, if_neg hpa]
          exact ⟨_, rfl⟩
        rw [hstep]
        have hwrite := (Undrawn.refl m).write (pt.walkaddr a) data
        exact ⟨fun m' h => hwrite.trans ((ih _).1 m' h), fun m' h => hwrite.trans ((ih _).2 m' h)⟩
  unfold copyout
  cases hrun : Foundations.exec (copyoutPage pt va src len) m (bufferPages va len) with
  | ok m' => exact (hloop _ m).1 m' hrun
  | error m' => exact (hloop _ m).2 m' hrun

/-- `copyout` stops at a page without a user frame. -/
theorem copyout_ok_iff (pt : PageTable ℕ) (va : ℕ) (src : ℕ → Byte) (len : ℕ) (m : Memory) :
    (copyout pt va src len m).1 = true ↔ ∀ a ∈ bufferPages va len, pt.walkaddr a ≠ 0 := by
  have hloop : ∀ (as : List ℕ) (m : Memory),
      (∃ m', Foundations.exec (copyoutPage pt va src len) m as = .ok m') ↔
        ∀ a ∈ as, pt.walkaddr a ≠ 0 := by
    intro as
    induction as with
    | nil =>
      intro m
      simp
    | cons a as ih =>
      intro m
      rw [exec_cons, List.forall_mem_cons]
      by_cases hpa : pt.walkaddr a = 0
      · simp [copyoutPage, hpa, bind, Except.bind]
      · simp only [copyoutPage, if_neg hpa, ok_bind]
        rw [ih]
        exact (and_iff_right hpa).symm
  rw [← hloop _ m]
  unfold copyout
  cases Foundations.exec (copyoutPage pt va src len) m (bufferPages va len) <;> simp

end Frame

section Args

variable {pt : PageTable ℕ} {top : ℕ}

/-- Only the stack page has a user frame, from the page below `top` on. -/
def StackPage (pt : PageTable ℕ) (top : ℕ) : Prop :=
  ∀ a, a % PGSIZE = 0 → top - PGSIZE ≤ a → (pt.walkaddr a ≠ 0 ↔ a = top - PGSIZE)

theorem copyout_stack (h : StackPage pt top) (htop : top % PGSIZE = 0) (hpos : PGSIZE ≤ top)
    {va len : ℕ} (hva : top - PGSIZE ≤ va) (hlen : 0 < len) (src : ℕ → Byte) (m : Memory) :
    (copyout pt va src len m).1 = true ↔ va + len ≤ top := by
  rw [copyout_ok_iff]
  constructor
  · intro hall
    by_contra hout
    -- the page of the last byte is above the stack page
    have hlast : pgrounddown (va + len - 1) ∈ bufferPages va len := by
      rw [mem_bufferPages]
      simp only [pgrounddown, PGSIZE] at *
      omega
    have heq := (h _ (pgrounddown_aligned _) (by
      simp only [pgrounddown, PGSIZE] at *
      omega)).mp (hall _ hlast)
    simp only [pgrounddown, PGSIZE] at *
    omega
  · intro hin a ha
    rw [mem_bufferPages] at ha
    apply (h a ha.2.2.2 _).mpr
    · simp only [PGSIZE] at *
      omega
    · simp only [PGSIZE] at *
      omega

/-- Which argument strings a `copyout` that stops above `top` puts on the stack page. -/
theorem pushStringsWith_fit {copy : ℕ → (ℕ → Byte) → ℕ → Memory → Bool × Memory}
    (hframe : ∀ va src len m, Undrawn m (copy va src len m).2)
    (hcopy : ∀ va src len m, top - PGSIZE ≤ va → 0 < len →
      ((copy va src len m).1 = true ↔ va + len ≤ top))
    (args : List (List Byte)) (sp : ℕ) (ustack : List ℕ) (m : Memory) :
    Undrawn m (pushStringsWith copy (top - PGSIZE) args sp ustack m).1 ∧
      (argsFit top args sp ustack.length = true ↔
        ∃ sp' ustack', (pushStringsWith copy (top - PGSIZE) args sp ustack m).2 =
          some (sp', ustack') ∧ argsFit top [] sp' ustack'.length = true) := by
  induction args generalizing sp ustack m with
  | nil =>
    refine ⟨Undrawn.refl m, fun hfit => ⟨sp, ustack, rfl, hfit⟩, ?_⟩
    rintro ⟨sp', ustack', heq, hfit⟩
    cases heq
    exact hfit
  | cons arg args ih =>
    have hpointer : sub64 sp (arg.length + 1) - sub64 sp (arg.length + 1) % 16 =
        pushPointer sp arg := rfl
    unfold pushStringsWith
    simp only [hpointer]
    have hfit : argsFit top (arg :: args) sp ustack.length = true ↔ ustack.length < MAXARG ∧
        top - PGSIZE ≤ pushPointer sp arg ∧ pushPointer sp arg + (arg.length + 1) ≤ top ∧
        argsFit top args (pushPointer sp arg) (ustack.length + 1) = true := by
      rw [argsFit]
      simp only [Bool.and_eq_true, decide_eq_true_eq, and_assoc]
    rw [hfit]
    by_cases hmany : MAXARG ≤ ustack.length
    · rw [if_pos hmany]
      refine ⟨Undrawn.refl m, fun h => absurd h.1 (Nat.not_lt.mpr hmany), ?_⟩
      rintro ⟨sp', ustack', hnone, -⟩
      cases hnone
    · rw [if_neg hmany]
      by_cases hlow : pushPointer sp arg < top - PGSIZE
      · rw [if_pos hlow]
        refine ⟨Undrawn.refl m, fun h => absurd h.2.1 (Nat.not_le.mpr hlow), ?_⟩
        rintro ⟨sp', ustack', hnone, -⟩
        cases hnone
      · rw [if_neg hlow]
        have hwhole := hcopy (pushPointer sp arg) (fun j => arg.getD j 0) (arg.length + 1) m
          (Nat.not_lt.mp hlow) (Nat.succ_pos _)
        have hundrawn := hframe (pushPointer sp arg) (fun j => arg.getD j 0) (arg.length + 1) m
        generalize copy (pushPointer sp arg) (fun j => arg.getD j 0) (arg.length + 1) m = copied
          at hwhole hundrawn
        obtain ⟨ok, m₁⟩ := copied
        cases ok with
        | false =>
          refine ⟨hundrawn, fun h => absurd (hwhole.mpr h.2.2.1) Bool.false_ne_true, ?_⟩
          rintro ⟨sp', ustack', hnone, -⟩
          cases hnone
        | true =>
          have hrest := ih (pushPointer sp arg) (ustack ++ [pushPointer sp arg]) m₁
          refine ⟨hundrawn.trans hrest.1, ?_⟩
          rw [← hrest.2, List.length_append, List.length_singleton]
          constructor
          · intro h
            exact h.2.2.2
          · intro h
            exact ⟨Nat.not_le.mp hmany, Nat.not_lt.mp hlow, hwhole.mp rfl, h⟩

theorem pushArgs_fit (h : StackPage pt top) (htop : top % PGSIZE = 0) (hpos : PGSIZE ≤ top)
    (hsmall : top < 2 ^ 64) (argv : List (List Byte)) (m : Memory) :
    Undrawn m (pushArgs pt top argv m).1 ∧
      ((pushArgs pt top argv m).2.isSome ↔ argsFit top argv top 0 = true) := by
  have hbase : sub64 top PGSIZE = top - PGSIZE := by
    simp only [sub64, PGSIZE] at *
    omega
  have hstrings := @pushStringsWith_fit top (copyout pt) (copyout_undrawn pt)
    (fun va src len m hva hlen => copyout_stack h htop hpos hva hlen src m) argv top [] m
  rw [List.length_nil, ← pushStrings_eq] at hstrings
  simp only [pushArgs, hbase]
  generalize pushStrings pt (top - PGSIZE) argv top [] m = pushed at hstrings
  obtain ⟨m₁, r⟩ := pushed
  obtain ⟨hframe, hfit⟩ := hstrings
  cases r with
  | none =>
    refine ⟨hframe, fun h => (Bool.false_ne_true h).elim, fun h => ?_⟩
    obtain ⟨sp', ustack', hnone, -⟩ := hfit.mp h
    cases hnone
  | some r =>
    obtain ⟨sp, ustack⟩ := r
    have hlast : argsFit top argv top 0 = true ↔ argsFit top [] sp ustack.length = true := by
      rw [hfit]
      constructor
      · rintro ⟨sp', ustack', heq, hlast⟩
        cases heq
        exact hlast
      · intro hlast
        exact ⟨sp, ustack, rfl, hlast⟩
    rw [hlast, argsFit]
    simp only [Bool.and_eq_true, decide_eq_true_eq]
    split_ifs with hlow
    · exact ⟨hframe, fun h => (Bool.false_ne_true h).elim, fun h => absurd h.1 (Nat.not_le.mpr hlow)⟩
    · have hwhole := copyout_stack h htop hpos (Nat.not_lt.mp hlow)
        (show 0 < (ustack.length + 1) * 8 by omega) (wordByte (ustack ++ [0])) m₁
      have hundrawn := copyout_undrawn pt
        (sub64 sp ((ustack.length + 1) * 8) - sub64 sp ((ustack.length + 1) * 8) % 16)
        (wordByte (ustack ++ [0])) ((ustack.length + 1) * 8) m₁
      generalize copyout pt
        (sub64 sp ((ustack.length + 1) * 8) - sub64 sp ((ustack.length + 1) * 8) % 16)
        (wordByte (ustack ++ [0])) ((ustack.length + 1) * 8) m₁ = copied at hwhole hundrawn
      obtain ⟨ok, m₂⟩ := copied
      refine ⟨?_, ?_⟩
      · cases ok <;> exact hframe.trans hundrawn
      · cases ok with
        | false =>
          exact ⟨fun h => (Bool.false_ne_true h).elim,
            fun h => absurd (hwhole.mpr h.2) Bool.false_ne_true⟩
        | true => exact ⟨fun _ => ⟨Nat.not_lt.mp hlow, hwhole.mp rfl⟩, fun _ => rfl⟩

end Args

section Segments

variable {kend N n : ℕ} {A : ℕ → Prop} {pt₀ pt : PageTable ℕ} {m : Memory} {s : Space} {f : File}
  {elf : Elfhdr}

theorem Image.walkaddr_ne (h : Image kend A N pt₀ n (m, pt)) (hN : N < 262144)
    (hA : ∀ q, A q → Freeable kend q) (hkend : 0 < kend) {a : ℕ} (ha : vpn a < n) :
    pt.walkaddr a ≠ 0 := by
  have hcount := h.grown.count
  have hle := le_cost n
  have hblock : Block 0 n (vpn a) := ⟨by omega, by omega⟩
  have hva : a < MAXVA ∧ vpn a < trapPage := by
    simp only [vpn, trapPage, TRAPFRAME, TRAMPOLINE, MAXVA, PGSIZE] at *
    omega
  obtain ⟨e, he⟩ := Option.isSome_iff_exists.mp ((h.owned.leaf _).mpr (Or.inr hblock))
  rw [walkaddr_eq h.owned.wf hva.1 he (h.grown.user _ e hblock he).1]
  have hfreeable := hA _ (h.owned.frame _ e hva.2 he)
  unfold Freeable at hfreeable
  omega

theorem loadsegLoop_present {va offset sz : ℕ} {is : List ℕ}
    (h : ∀ i ∈ is, pt.walkaddr ((va + i) % 2 ^ 64) ≠ 0) (m : Memory) :
    ∃ m', Undrawn m m' ∧ loadsegLoop pt va f offset sz is m = .ok (is.all fun i =>
      f.count ((offset + i) % 2 ^ 32) (min (sz - i) PGSIZE) = min (sz - i) PGSIZE, m') := by
  induction is generalizing m with
  | nil => exact ⟨m, Undrawn.refl m, rfl⟩
  | cons i is ih =>
    rw [List.forall_mem_cons] at h
    unfold loadsegLoop
    rw [List.all_cons]
    simp only [if_neg h.1]
    have hgot : (readi f ((offset + i) % 2 ^ 32) (min (sz - i) PGSIZE)
        (m.page (pt.walkaddr ((va + i) % 2 ^ 64)))).1 =
          f.count ((offset + i) % 2 ^ 32) (min (sz - i) PGSIZE) := rfl
    have hwrite := (Undrawn.refl m).write (pt.walkaddr ((va + i) % 2 ^ 64))
      (readi f ((offset + i) % 2 ^ 32) (min (sz - i) PGSIZE)
        (m.page (pt.walkaddr ((va + i) % 2 ^ 64)))).2
    rw [hgot]
    by_cases hall : f.count ((offset + i) % 2 ^ 32) (min (sz - i) PGSIZE) = min (sz - i) PGSIZE
    · obtain ⟨m', hframe, hrest⟩ := ih h.2 (m.write (pt.walkaddr ((va + i) % 2 ^ 64))
        (readi f ((offset + i) % 2 ^ 32) (min (sz - i) PGSIZE)
          (m.page (pt.walkaddr ((va + i) % 2 ^ 64)))).2)
      refine ⟨m', hwrite.trans hframe, ?_⟩
      rw [decide_eq_true hall, Bool.true_and, if_pos hall, hrest]
    · refine ⟨_, hwrite, ?_⟩
      rw [decide_eq_false hall, Bool.false_and, if_neg hall]

theorem loadseg_present (h : Image kend A N pt₀ n (m, pt)) (hN : N < 262144)
    (hA : ∀ q, A q → Freeable kend q) (hkend : 0 < kend) {va off sz : ℕ}
    (hva : va + sz ≤ PGSIZE * n) :
    ∃ m', Undrawn m m' ∧ loadseg pt va f off sz m = .ok (segmentPresent f off sz, m') := by
  apply loadsegLoop_present
  intro i hi
  have hcount := h.grown.count
  have hle := le_cost n
  have hmod := Nat.mod_le sz (2 ^ 32)
  rw [mem_pages] at hi
  have hlt : va + i < 2 ^ 64 := by
    simp only [PGSIZE] at *
    omega
  rw [Nat.mod_eq_of_lt hlt]
  apply h.walkaddr_ne hN hA hkend
  simp only [vpn, PGSIZE] at *
  omega

theorem uvmalloc_max {perm : Perm} {sz stop : ℕ} (h : Image kend A N pt₀ (npages sz) s)
    (hv : Vacant 0 pt₀) (hN : N < 262144) (hA : ∀ q, A q → Freeable kend q) :
    (∃ s', uvmalloc sz stop perm s = .ok (max sz stop, s') ∧
      Image kend A N pt₀ (npages (max sz stop)) s') ∨
    N < cost (npages (max sz stop)) ∧ ∃ s', uvmalloc sz stop perm s = .ok (0, s') ∧
      Owned kend A (fun v => Special v ∨ Block 0 (npages sz) v) s' := by
  have halloc := @uvmalloc_image kend N A pt₀ s perm sz stop h hv hN hA
  by_cases hlt : stop < sz
  · rw [if_pos hlt] at halloc
    rw [max_eq_left hlt.le]
    exact Or.inl ⟨s, halloc, h⟩
  · rw [if_neg hlt] at halloc
    rw [max_eq_right (Nat.not_lt.mp hlt)]
    by_cases hfed : cost (npages stop) ≤ N
    · rw [if_pos hfed] at halloc
      exact Or.inl halloc
    · rw [if_neg hfed] at halloc
      exact Or.inr ⟨Nat.not_le.mp hfed, halloc⟩

/-- The loop over the program headers loads all of the segments when there are enough pages, and
leaves the pages of its last size when it stops. -/
theorem loadSegments_spec (is : List ℕ) {sz : ℕ} (h : Image kend A N pt₀ (npages sz) s)
    (hv : Vacant 0 pt₀) (hN : N < 262144) (hA : ∀ q, A q → Freeable kend q) (hkend : 0 < kend) :
    (∃ sz' s', segmentsSize f elf is sz = some sz' ∧
      loadSegments f elf is sz s = .ok (true, sz', s') ∧ Image kend A N pt₀ (npages sz') s') ∨
    (∀ sz', segmentsSize f elf is sz = some sz' → N < cost (npages sz')) ∧
      ∃ sz' s', loadSegments f elf is sz s = .ok (false, sz', s') ∧
        Owned kend A (fun v => Special v ∨ Block 0 (npages sz') v) s' ∧ npages sz' ≤ N := by
  induction is generalizing sz s with
  | nil => exact Or.inl ⟨sz, s, rfl, rfl, h⟩
  | cons i is ih =>
    have hle : npages sz ≤ N := by
      have hcount := h.grown.count
      have := le_cost (npages sz)
      omega
    have hstay : ∃ sz' s', (.ok (false, sz, s) : Except Panic (Bool × ℕ × Space)) =
        .ok (false, sz', s') ∧ Owned kend A (fun v => Special v ∨ Block 0 (npages sz') v) s' ∧
          npages sz' ≤ N := ⟨sz, s, rfl, h.owned, hle⟩
    simp only [segmentsSize, loadSegments]
    have hmemsz : (Proghdr.ofBytes (readi f (elf.off i) sizeofProghdr fun _ => 0).2).memsz < 2 ^ 64 :=
      field_lt _ 40 8
    generalize Proghdr.ofBytes (readi f (elf.off i) sizeofProghdr fun _ => 0).2 = ph at hmemsz
    by_cases hgot : (readi f (elf.off i) sizeofProghdr fun _ => 0).1 = sizeofProghdr
    · simp only [if_neg (not_not.mpr hgot)]
      by_cases htype : ph.type = ELF_PROG_LOAD
      · simp only [if_neg (not_not.mpr htype)]
        by_cases hfilesz : ph.memsz < ph.filesz
        · simp only [if_pos hfilesz]
          exact Or.inr ⟨fun _ hnone => (by cases hnone), hstay⟩
        · simp only [if_neg hfilesz]
          by_cases hwrap : (ph.vaddr + ph.memsz) % 2 ^ 64 < ph.vaddr
          · simp only [if_pos hwrap]
            exact Or.inr ⟨fun _ hnone => (by cases hnone), hstay⟩
          · simp only [if_neg hwrap]
            by_cases halign : ph.vaddr % PGSIZE = 0
            · simp only [if_neg (not_not.mpr halign)]
              rcases @uvmalloc_max kend N A pt₀ s (flags2perm ph.flags) sz
                  ((ph.vaddr + ph.memsz) % 2 ^ 64) h hv hN hA with
                ⟨⟨m, pt⟩, hrun, himage⟩ | ⟨hfull, s', hrun, hO⟩
              · simp only [hrun, ok_bind]
                have hle' : npages (max sz ((ph.vaddr + ph.memsz) % 2 ^ 64)) ≤ N := by
                  have hcount := himage.grown.count
                  have := le_cost (npages (max sz ((ph.vaddr + ph.memsz) % 2 ^ 64)))
                  omega
                by_cases hzero : max sz ((ph.vaddr + ph.memsz) % 2 ^ 64) = 0
                · have hsz : npages (max sz ((ph.vaddr + ph.memsz) % 2 ^ 64)) = npages sz := by
                    congr 1
                    omega
                  rw [hsz] at himage
                  simp only [if_pos hzero]
                  exact Or.inr ⟨fun _ hnone => (by cases hnone), sz, _, rfl, himage.owned, hle⟩
                · simp only [if_neg hzero]
                  -- the bytes of the segment are below the new size
                  have hbytes : ph.vaddr + ph.filesz ≤
                      PGSIZE * npages (max sz ((ph.vaddr + ph.memsz) % 2 ^ 64)) := by
                    have hmax := le_max_right sz ((ph.vaddr + ph.memsz) % 2 ^ 64)
                    generalize max sz ((ph.vaddr + ph.memsz) % 2 ^ 64) = top at hmax
                    have htop := le_npages top
                    omega
                  obtain ⟨m', hframe, hload⟩ := @loadseg_present kend N _ A pt₀ pt m f himage hN hA
                    hkend ph.vaddr ph.off ph.filesz hbytes
                  rw [hload]
                  simp only [ok_bind]
                  cases segmentPresent f ph.off ph.filesz with
                  | true => exact ih (himage.undrawn hframe)
                  | false =>
                    exact Or.inr ⟨fun _ hnone => (by cases hnone), _, _, rfl,
                      (himage.undrawn hframe).owned, hle'⟩
              · simp only [hrun, ok_bind, if_true]
                refine Or.inr ⟨fun sz' hsome => ?_, sz, s', rfl, hO, hle⟩
                split_ifs at hsome
                have := cost_mono (npages_mono (le_segmentsSize hsome))
                omega
            · simp only [if_pos halign]
              exact Or.inr ⟨fun _ hnone => (by cases hnone), hstay⟩
      · simp only [if_pos htype]
        exact ih h
    · simp only [if_pos hgot]
      exact Or.inr ⟨fun _ hnone => (by cases hnone), hstay⟩

/-- The image of a program that has been built, with the pages for a VM still to come. -/
structure Built (kend : ℕ) (A : ℕ → Prop) (N n : ℕ) (pt₀ : PageTable ℕ) (s : Space) :
    Prop where
  owned : Owned kend A (fun v => Special v ∨ Block 0 n v) s
  nodup : s.1.freelist.Nodup
  unfree : ∀ q, Holds s.2 q → q ∉ s.1.freelist
  count : s.1.freelist.length + cost n = N
  vacant : Vacant 2 s.2
  special : ∀ v, Special v → s.2.leaf v = pt₀.leaf v

theorem Image.vacant (h : Image kend A N pt₀ n (m, pt)) (hb : Bare pt₀) (hN : N < 262144) :
    Vacant 2 pt := by
  have hcount := h.grown.count
  have hle := le_cost n
  refine ⟨?_, fun j hj => ?_, fun v hv => ?_⟩
  · rw [← Option.not_isSome_iff_eq_none, h.grown.mid, hb.mid]
    omega
  · rw [← Option.not_isSome_iff_eq_none, h.grown.low, hb.low]
    omega
  · rw [← Option.not_isSome_iff_eq_none, h.owned.leaf]
    rintro (hspecial | hblock)
    · rw [special_div hspecial] at hv
      omega
    · unfold Block at hblock
      omega

/-- The guard page below the stack. -/
theorem Image.clear (h : Image kend A N pt₀ n (m, pt)) (hb : Bare pt₀) (hN : N < 262144) {v : ℕ}
    (hv : v < n) :
    ∃ e, pt.leaf v = some e ∧
      uvmclear (PGSIZE * v) pt = .ok (pt.set (PGSIZE * v) (some { e with u := false })) ∧
      Built kend A N n pt₀ (m, pt.set (PGSIZE * v) (some { e with u := false })) := by
  have hcount := h.grown.count
  have hle := le_cost n
  have hblock : Block 0 n v := ⟨by omega, by omega⟩
  have hva : PGSIZE * v < MAXVA := by
    simp only [MAXVA, PGSIZE]
    omega
  have hsome := (h.owned.leaf v).mpr (Or.inr hblock)
  obtain ⟨e, he⟩ := Option.isSome_iff_exists.mp hsome
  have hleaf : ∀ v' e', (pt.set (PGSIZE * v) (some { e with u := false })).leaf v' = some e' →
      ∃ e'', pt.leaf v' = some e'' ∧ e'.pa = e''.pa := by
    intro v' e' he'
    rw [set_leaf, vpn_mul, Function.update_apply] at he'
    split_ifs at he' with heq
    · cases he'
      exact ⟨e, heq ▸ he, rfl⟩
    · exact ⟨e', he', rfl⟩
  have hmapped : ∀ v', ((pt.set (PGSIZE * v) (some { e with u := false })).leaf v').isSome ↔
      (pt.leaf v').isSome := by
    intro v'
    rw [set_leaf, vpn_mul, Function.update_apply]
    split_ifs with heq
    · rw [heq, show pt.leaf v = some e from he]
      exact Iff.rfl
    · exact Iff.rfl
  have hvacant := h.vacant hb hN
  refine ⟨e, he, ?_, ⟨?_, h.owned.kend, h.owned.free, h.owned.mid, h.owned.low,
    fun v' => (hmapped v').trans (h.owned.leaf v'), fun v' e' hv' he' => ?_⟩, h.grown.nodup,
    fun q hq => h.grown.unfree q ?_, hcount, ⟨hvacant.mid, hvacant.low, fun v' hv' => ?_⟩,
    fun v' hv' => ?_⟩
  · have hwalk := h.owned.wf.walk_mapped hva (by rw [Mapped, vpn_mul]; exact hsome)
    unfold uvmclear
    rw [hwalk, vpn_mul, he]
    rfl
  · apply wf_setLeaf h.owned.wf
    · rw [lowIndex, vpn_mul]
      exact h.owned.wf.low_of_leaf v hsome
    · simp [Pte.onlyValid, (h.grown.user v e hblock he).2]
  · obtain ⟨e'', he'', hpa⟩ := hleaf v' e' he'
    rw [hpa]
    exact h.owned.frame v' e'' hv' he''
  · rcases hq with hmid | hlow | ⟨v', e', he', hpa⟩
    · exact Or.inl hmid
    · exact Or.inr (Or.inl hlow)
    · obtain ⟨e'', he'', hpa'⟩ := hleaf v' e' he'
      exact Or.inr (Or.inr ⟨v', e'', he'', by rw [← hpa', hpa]⟩)
  · rw [← Option.not_isSome_iff_eq_none, hmapped, hvacant.leaf v' hv']
    simp
  · have hout : ¬ Block 0 n v' := by
      have := special_div hv'
      unfold Block
      omega
    have hne : v' ≠ v := by
      rintro rfl
      exact hout hblock
    rw [set_leaf, vpn_mul, Function.update_of_ne hne]
    exact h.grown.leaf v' hout

/-- The stack page is the last one of an image with its guard page. -/
theorem Image.stackPage (h : Image kend A N pt₀ n (m, pt)) (hb : Bare pt₀) (hN : N < 262144)
    (hA : ∀ q, A q → Freeable kend q) (hkend : 0 < kend) {v : ℕ} (hv : v + 2 = n) (e : Option Pte) :
    StackPage (pt.set (PGSIZE * v) e) (PGSIZE * n) := by
  have hbase : PGSIZE * n - PGSIZE = PGSIZE * (v + 1) := by
    simp only [PGSIZE]
    omega
  intro a ha hge
  rw [hbase] at hge ⊢
  have hne : vpn a ≠ v := by
    simp only [vpn, PGSIZE] at *
    omega
  have hleaf : (pt.set (PGSIZE * v) e).leaf (vpn a) = pt.leaf (vpn a) := by
    rw [set_leaf, vpn_mul, Function.update_of_ne hne]
  have hwalk : (pt.set (PGSIZE * v) e).walkaddr a = pt.walkaddr a := by
    unfold walkaddr walk
    rw [hleaf]
    rfl
  rw [hwalk]
  constructor
  · intro huser
    obtain ⟨-, e', he', hu, -⟩ := walkaddr_spec huser
    have hin : Special (vpn a) ∨ Block 0 n (vpn a) := (h.owned.leaf _).mp (by rw [he']; rfl)
    by_cases hblock : Block 0 n (vpn a)
    · simp only [Block, vpn, PGSIZE] at *
      omega
    · rw [h.grown.leaf _ hblock] at he'
      rw [hb.special _ e' he'] at hu
      cases hu
  · rintro rfl
    apply h.walkaddr_ne hN hA hkend
    rw [vpn_mul]
    omega

theorem buildImage_eq {argv : List (List Byte)} {sz sz1 : ℕ} {s₁ : Space} {pt' : PageTable ℕ}
    (hload : loadSegments f elf (List.range elf.phnum) 0 s = .ok (true, sz, s₁))
    (halloc : uvmalloc (pgroundup64 sz) ((pgroundup64 sz + 2 * PGSIZE) % 2 ^ 64) permW s₁ =
      .ok (sz1, m, pt)) (hpos : sz1 ≠ 0) (hclear : uvmclear (sub64 sz1 (2 * PGSIZE)) pt = .ok pt') :
    buildImage f elf argv s =
      .ok ((pushArgs pt' sz1 argv m).2, sz1, (pushArgs pt' sz1 argv m).1, pt') := by
  unfold buildImage
  rw [hload]
  simp only [ok_bind, Bool.not_true, Bool.false_eq_true, if_false]
  rw [halloc]
  simp only [ok_bind, if_neg hpos]
  rw [hclear]
  rfl

theorem buildImage_full {argv : List (List Byte)} {sz : ℕ} {s₁ : Space}
    (hload : loadSegments f elf (List.range elf.phnum) 0 s = .ok (true, sz, s₁))
    (halloc : uvmalloc (pgroundup64 sz) ((pgroundup64 sz + 2 * PGSIZE) % 2 ^ 64) permW s₁ =
      .ok (0, m, pt)) : buildImage f elf argv s = .ok (none, pgroundup64 sz, m, pt) := by
  unfold buildImage
  rw [hload]
  simp only [ok_bind, Bool.not_true, Bool.false_eq_true, if_false]
  rw [halloc]
  rfl

/-- `exec` builds the image up to the arguments exactly when there are enough pages for it. -/
theorem buildImage_spec {argv : List (List Byte)} (h : Image kend A N pt₀ 0 s) (hb : Bare pt₀)
    (hN : N < 262144) (hA : ∀ q, A q → Freeable kend q) (hkend : 0 < kend) :
    (∃ n s' argc, imagePages f elf argv = some n ∧
      buildImage f elf argv s = .ok (some argc, PGSIZE * n, s') ∧ Built kend A N n pt₀ s') ∨
    (∀ n, imagePages f elf argv = some n → N < cost n) ∧
      ∃ sz s', buildImage f elf argv s = .ok (none, sz, s') ∧
        Owned kend A (fun v => Special v ∨ Block 0 (npages sz) v) s' ∧ npages sz ≤ N := by
  have hv := hb.vacant (show 0 < 255 by omega)
  rcases @loadSegments_spec kend N A pt₀ s f elf (List.range elf.phnum) 0 h hv hN hA hkend with
    ⟨sz, s₁, hsize, hload, himage⟩ | ⟨hfull, sz, s', hload, hO, hle⟩
  · have hcount := himage.grown.count
    have hle := le_cost (npages sz)
    have hround : pgroundup64 sz = PGSIZE * npages sz := by
      simp only [npages, pgroundup64, PGSIZE] at *
      omega
    have hsame : ∀ k, npages (PGSIZE * k) = k := by
      intro k
      simp only [npages, PGSIZE]
      omega
    have htop : (PGSIZE * npages sz + 2 * PGSIZE) % 2 ^ 64 = PGSIZE * (npages sz + 2) := by
      simp only [PGSIZE]
      omega
    have hmax : max (PGSIZE * npages sz) (PGSIZE * (npages sz + 2)) =
        PGSIZE * (npages sz + 2) := by
      apply max_eq_right
      simp only [PGSIZE]
      omega
    have hpages : imagePages f elf argv =
        if argsFit (PGSIZE * (npages sz + 2)) argv (PGSIZE * (npages sz + 2)) 0 then
          some (npages sz + 2) else none := by
      unfold imagePages
      rw [hsize]
      rfl
    have halloc := @uvmalloc_max kend N A pt₀ s₁ permW (PGSIZE * npages sz)
      (PGSIZE * (npages sz + 2)) (by rw [hsame]; exact himage) hv hN hA
    rw [hmax, hsame, hsame, ← htop, ← hround] at halloc
    rcases halloc with ⟨⟨m₂, pt₂⟩, hrun, himage₂⟩ | ⟨hfull, ⟨m₂, pt₂⟩, hrun, hO⟩
    · have hcount₂ := himage₂.grown.count
      have hle₂ := le_cost (npages sz + 2)
      have hpos : (pgroundup64 sz + 2 * PGSIZE) % 2 ^ 64 ≠ 0 := by
        rw [hround, htop]
        simp only [PGSIZE]
        omega
      have hguard : sub64 ((pgroundup64 sz + 2 * PGSIZE) % 2 ^ 64) (2 * PGSIZE) =
          PGSIZE * npages sz := by
        rw [hround, htop]
        simp only [sub64, PGSIZE]
        omega
      obtain ⟨e, he, hclear, hbuilt⟩ := himage₂.clear hb hN (show npages sz < npages sz + 2 by omega)
      have hstack := himage₂.stackPage hb hN hA hkend rfl (some { e with u := false })
      have hargs := @pushArgs_fit _ _ hstack (mul_aligned _) (by simp only [PGSIZE]; omega)
        (by
          simp only [PGSIZE]
          omega) argv m₂
      rw [buildImage_eq hload hrun hpos (by rw [hguard]; exact hclear), hround, htop, hpages]
      generalize pushArgs _ _ argv m₂ = pushed at hargs
      obtain ⟨m₃, argc⟩ := pushed
      obtain ⟨hframe, hfit⟩ := hargs
      cases argc with
      | some argc =>
        rw [if_pos (hfit.mp rfl)]
        refine Or.inl ⟨_, _, argc, rfl, rfl, hbuilt.owned.undrawn hframe, ?_, fun q hq => ?_, ?_,
          hbuilt.vacant, hbuilt.special⟩
        · exact hframe.freelist ▸ hbuilt.nodup
        · exact hframe.freelist ▸ hbuilt.unfree q hq
        · exact hframe.freelist ▸ hbuilt.count
      | none =>
        rw [if_neg fun hyes => Bool.false_ne_true (hfit.mpr hyes)]
        refine Or.inr ⟨fun _ hnone => (by cases hnone), _, _, rfl, ?_, ?_⟩
        · rw [hsame]
          exact hbuilt.owned.undrawn hframe
        · rw [hsame]
          omega
    · rw [buildImage_full hload hrun, hround, hpages]
      refine Or.inr ⟨fun n hn => ?_, _, _, rfl, by rw [hsame]; exact hO, by rw [hsame]; omega⟩
      split_ifs at hn
      cases hn
      exact hfull
  · have hstop : buildImage f elf argv s = .ok (none, sz, s') := by
      unfold buildImage
      rw [hload]
      rfl
    refine Or.inr ⟨fun n hn => ?_, sz, s', hstop, hO, hle⟩
    unfold imagePages at hn
    cases hsize : segmentsSize f elf (List.range elf.phnum) 0 with
    | none =>
      rw [hsize] at hn
      cases hn
    | some sz' =>
      simp only [hsize, Option.bind_eq_bind, Option.bind_some] at hn
      split_ifs at hn
      cases hn
      have := @cost_mono (npages sz') (npages sz' + 2) (by omega)
      have := hfull sz' hsize
      omega

end Segments

end AdvancedOperatingSystems.VmExec
