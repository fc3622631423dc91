import AdvancedOperatingSystems.DemandPaging.EagerLoad
import AdvancedOperatingSystems.DemandPaging.Grouping
import AdvancedOperatingSystems.DemandPaging.HeapAccount

/-!
# Loading on demand

`page_fault_handler` reads a whole page of the file for a page of a segment, where `exec` stops
at `filesz`. The two ways make the same page exactly when the file says so.
-/

namespace AdvancedOperatingSystems.DemandPaging

open Foundations Riscv Riscv.PageTable

def File.elfhdr (f : File) : Elfhdr := Elfhdr.ofBytes (readi f 0 sizeofElfhdr fun _ => 0).2

def File.program (f : File) : List Proghdr := f.segments f.elfhdr (List.range f.elfhdr.phnum)

def Proghdr.Covers (ph : Proghdr) (page : ℕ) : Prop := ph.vaddr ≤ page ∧ page < ph.stop

instance (ph : Proghdr) (page : ℕ) : Decidable (ph.Covers page) :=
  inferInstanceAs (Decidable (_ ∧ _))

/-- `exec` has loaded all segments of the file into a new table. -/
def LoadedAtOnce (f : File) (sz : ℕ) (s : Space) : Prop :=
  f.count 0 sizeofElfhdr = sizeofElfhdr ∧ f.elfhdr.magic = ELF_MAGIC ∧
    ∃ r trapframe m pg m₀, m.freelist.Nodup ∧ procPagetable r trapframe m = .ok (some pg, m₀) ∧
      loadSegments r f f.elfhdr false (List.range f.elfhdr.phnum) 0 (m₀, pg.table) =
        .ok (true, sz, s)

/-- For the page the file has what `exec` would load: the first segment with the page has a
whole page of bytes there, these are the bytes of the last segment that fills them or 0, and it
has the flags of the first segment that ends behind the beginning of the page. -/
def PageAgrees (f : File) (phs : List Proghdr) (page : ℕ) : Prop :=
  ∃ ph, phs.find? (fun ph => ph.Covers page) = some ph ∧
    f.count ((ph.off + (page - ph.vaddr)) % 2 ^ 32) PGSIZE = PGSIZE ∧
    eagerPerm phs page = some (flags2perm ph.flags) ∧
    ∀ k < PGSIZE, ph.byte f page k = eagerByte f phs page k

/-- An access of a user program, with the page fault it may take. -/
def userAccess (c : Cpu) (a : Access) : Except Panic Cpu := do
  let (_, c) ← access a c
  return c

def FaultsOnSegment (f : File) (c : Cpu) (a : Access) : Prop :=
  translate c.table a = none ∧ ∃ ph ∈ f.program, ph.Covers a.pageAddr

/-- The handler returns, and the page has the entry and the bytes that it has in the image. -/
def LoadsAsEager (s : Space) (c : Cpu) (a : Access) : Prop :=
  ∃ c' e pa, pageFaultHandler a.trap c = .ok c' ∧ s.2.leaf (vpn a.va) = some e ∧
    c'.table.leaf (vpn a.va) = some { e with pa := pa } ∧
    ∀ k < PGSIZE, c'.kernel.memory.page pa k = s.1.page e.pa k

/-- The page is not mapped yet and there are pages for it, the test for a shared page does not
panic, and the file agrees. -/
def LoadsWell (f : File) (c : Cpu) (a : Access) : Prop :=
  CowTestReturns a c ∧ AllocMaps c.table a.pageAddr c.kernel.memory.freelist.length ∧
    PageAgrees f f.program a.pageAddr

section Headers

variable {f : File} {elf : Elfhdr} {is : List ℕ} {buf : ℕ → Byte} {i addr : ℕ}

theorem readi_whole {off n j : ℕ} (h : f.count off n = n) (hj : j < n) (buf buf' : ℕ → Byte) :
    (readi f off n buf).2 j = (readi f off n buf').2 j := by
  simp only [readi, h, hj, ↓reduceIte]

theorem proghdr_whole (h : f.count (elf.off i) sizeofProghdr = sizeofProghdr)
    (buf : ℕ → Byte) :
    Proghdr.ofBytes (readi f (elf.off i) sizeofProghdr buf).2 = f.proghdr elf i := by
  have hfield : ∀ off n, off + n ≤ sizeofProghdr →
      field (readi f (elf.off i) sizeofProghdr buf).2 off n =
        field (readi f (elf.off i) sizeofProghdr fun _ => 0).2 off n :=
    fun off n hle => field_congr fun j _ hj => readi_whole h (lt_of_lt_of_le hj hle) _ _
  unfold File.proghdr Proghdr.ofBytes
  rw [hfield 0 4 (by decide), hfield 4 4 (by decide), hfield 8 8 (by decide),
    hfield 16 8 (by decide), hfield 32 8 (by decide), hfield 40 8 (by decide)]

theorem elfhdr_whole (h : f.count 0 sizeofElfhdr = sizeofElfhdr) (buf : ℕ → Byte) :
    Elfhdr.ofBytes (readi f 0 sizeofElfhdr buf).2 = f.elfhdr := by
  have hfield : ∀ off n, off + n ≤ sizeofElfhdr →
      field (readi f 0 sizeofElfhdr buf).2 off n =
        field (readi f 0 sizeofElfhdr fun _ => 0).2 off n :=
    fun off n hle => field_congr fun j _ hj => readi_whole h (lt_of_lt_of_le hj hle) _ _
  unfold File.elfhdr Elfhdr.ofBytes
  rw [hfield 0 4 (by decide), hfield 32 8 (by decide), hfield 56 2 (by decide)]

theorem findSegment_eq (h : ∀ i ∈ is, f.count (elf.off i) sizeofProghdr = sizeofProghdr) :
    findSegment f elf addr is buf = (f.segments elf is).find? fun ph => ph.Covers addr := by
  induction is generalizing buf with
  | nil => rfl
  | cons i is ih =>
    have ih := @ih (readi f (elf.off i) sizeofProghdr buf).2 fun j hj =>
      h j (List.mem_cons_of_mem i hj)
    unfold findSegment
    simp only
    rw [proghdr_whole (h i List.mem_cons_self), ih, segments_cons, List.find?_append]
    have hcovers : ∀ ph : Proghdr, ph.vaddr ≤ addr ∧ addr < (ph.vaddr + ph.memsz) % 2 ^ 64 ↔
        ph.Covers addr := fun _ => Iff.rfl
    simp only [hcovers]
    by_cases htype : (f.proghdr elf i).type = ELF_PROG_LOAD
    · by_cases hin : (f.proghdr elf i).Covers addr <;> simp [htype, hin]
    · simp [htype]

theorem faultSegment_eq {a : Access} (hhdr : f.count 0 sizeofElfhdr = sizeofElfhdr)
    (h : ∀ i ∈ List.range f.elfhdr.phnum, f.count (f.elfhdr.off i) sizeofProghdr = sizeofProghdr) :
    faultSegment a f = f.program.find? fun ph => ph.Covers a.pageAddr := by
  unfold faultSegment
  rw [elfhdr_whole hhdr]
  exact findSegment_eq h

end Headers

section Ordered

variable {f : File} {phs : List Proghdr} {ph : Proghdr} {page : ℕ}

/-- Where the segments lie one behind the other, as a linker puts them, the file agrees exactly
when it has a whole page of bytes and those behind the segment's own are zero. -/
theorem pageAgrees_iff_of_ordered (hordered : phs.Pairwise fun p q => p.stop ≤ q.vaddr)
    (hfits : ∀ p ∈ phs, p.vaddr + p.filesz ≤ p.stop) (hph : ph ∈ phs) (hcovers : ph.Covers page) :
    PageAgrees f phs page ↔
      f.count ((ph.off + (page - ph.vaddr)) % 2 ^ 32) PGSIZE = PGSIZE ∧
        ∀ k < PGSIZE, ph.vaddr + ph.filesz % 2 ^ 32 ≤ page + k → ph.byte f page k = 0 := by
  obtain ⟨before, after, rfl⟩ := List.append_of_mem hph
  rw [List.pairwise_append, List.pairwise_cons] at hordered
  obtain ⟨-, ⟨hafter, -⟩, hbefore⟩ := hordered
  have hlow : ∀ p ∈ before, p.stop ≤ page := fun p hp =>
    (hbefore p hp ph List.mem_cons_self).trans hcovers.1
  have hhigh : ∀ p ∈ after, page < p.vaddr := fun p hp =>
    lt_of_lt_of_le hcovers.2 (hafter p hp)
  have hfind : (before ++ ph :: after).find? (fun p => p.Covers page) = some ph := by
    have hnone : before.find? (fun p => p.Covers page) = none := by
      rw [List.find?_eq_none]
      intro p hp hcov
      exact absurd (of_decide_eq_true hcov).2 (not_lt.mpr (hlow p hp))
    rw [List.find?_append, hnone]
    simp [hcovers]
  have hperm : eagerPerm (before ++ ph :: after) page = some (flags2perm ph.flags) := by
    have hnone : before.find? (fun p => page < p.stop) = none := by
      rw [List.find?_eq_none]
      intro p hp hlt
      exact absurd (of_decide_eq_true hlt) (not_lt.mpr (hlow p hp))
    unfold eagerPerm
    rw [List.find?_append, hnone]
    simp [hcovers.2]
  have hbyte : ∀ k, eagerByte f (before ++ ph :: after) page k =
      if ph.Fills page k then ph.byte f page k else 0 := by
    intro k
    have hskip : ∀ rest : List Proghdr, (∀ p ∈ rest, page < p.vaddr) →
        ∀ b : Byte, rest.foldl (fun b p => if p.Fills page k then p.byte f page k else b) b = b := by
      intro rest
      induction rest with
      | nil => exact fun _ _ => rfl
      | cons p rest ih =>
        intro hrest b
        have hfills : ¬ p.Fills page k := fun hfills =>
          absurd hfills.1 (not_le.mpr (hrest p List.mem_cons_self))
        rw [List.foldl_cons, if_neg hfills]
        exact ih (fun q hq => hrest q (List.mem_cons_of_mem p hq)) b
    have hzero : eagerByte f before page k = 0 := eagerByte_beyond fun p hp =>
      (hfits p (List.mem_append_left _ hp)).trans (hlow p hp)
    have hsnoc := @eagerByte_snoc f before ph page k
    unfold eagerByte at *
    rw [List.append_cons, List.foldl_append, hskip after hhigh, hsnoc, hzero]
  unfold PageAgrees
  rw [hfind, hperm]
  constructor
  · rintro ⟨p, hp, hcount, -, hall⟩
    cases hp
    refine ⟨hcount, fun k hk hbehind => ?_⟩
    have hfills : ¬ ph.Fills page k := fun hfills => absurd hfills.2 (not_lt.mpr hbehind)
    rw [hall k hk, hbyte k, if_neg hfills]
  · rintro ⟨hcount, hall⟩
    refine ⟨ph, rfl, hcount, rfl, fun k hk => ?_⟩
    rw [hbyte k]
    split_ifs with hfills
    · rfl
    · exact hall k hk (not_lt.mp fun hlt => hfills ⟨hcovers.1, hlt⟩)

end Ordered

section Eager

variable {f : File} {sz : ℕ} {s : Space}

theorem vpn_trapframe : vpn TRAPFRAME = trapPage := by decide

/-- The image that `exec` makes when it loads all segments at once. -/
theorem LoadedAtOnce.image (h : LoadedAtOnce f sz s) :
    EagerImage f.program (eagerData f f.program) sz s ∧
      ∀ i ∈ List.range f.elfhdr.phnum,
        f.count (f.elfhdr.off i) sizeofProghdr = sizeofProghdr := by
  obtain ⟨-, -, r, trapframe, m, pg, m₀, hnodup, htable, hload⟩ := h
  obtain ⟨hdraws, hleaf⟩ := procPagetable_leaf hnodup htable
  have hempty : EagerImage [] (eagerData f []) 0 (m₀, pg.table) := by
    refine ⟨procPagetable_wf htable, hdraws.nodup, ?_, Nat.zero_le _, ?_, ?_, ?_, ?_⟩
    · show (pg.table.leaf trapPage).isSome
      rw [hleaf, vpn_trapframe, Function.update_self]
      rfl
    · intro ph hph
      cases hph
    · intro v hv
      exact absurd hv (Nat.not_lt_zero _)
    · intro v _ hv
      exact absurd hv (Nat.not_lt_zero _)
    · intro v _ _ _ hv
      exact absurd hv (Nat.not_lt_zero _)
  have H := loadSegments_eager hempty (fun ph hph => by cases hph) hload
  rw [List.nil_append] at H
  exact H

end Eager

section Process

variable {f : File} {phs : List Proghdr} {elf : Elfhdr} {is : List ℕ} {sz sz' : ℕ} {s s' : Space}
  {r : Running}

/-- On demand the loop over the program headers only finds the size. -/
theorem loadSegments_demand (hrun : loadSegments r f elf true is sz s = .ok (true, sz', s')) :
    s' = s ∧ sz ≤ sz' ∧ (∀ ph ∈ f.segments elf is, ph.stop ≤ sz') ∧
      (sz' = sz ∨ ∃ ph ∈ f.segments elf is, sz' = ph.stop) := by
  induction is generalizing sz with
  | nil =>
    cases hrun
    exact ⟨rfl, le_rfl, (fun ph hph => by cases hph), Or.inl rfl⟩
  | cons i is ih =>
    rw [segments_cons]
    obtain ⟨-, ⟨htype, hrest⟩ | ⟨htype, -, -, -, sz₁, s₁, hrest, hstep⟩⟩ := loadSegments_cons hrun
    · rw [if_neg htype, List.nil_append]
      exact ih hrest
    · rw [if_pos htype]
      simp only [↓reduceIte] at hstep
      obtain ⟨rfl, rfl⟩ := hstep
      obtain ⟨hspace, hle, hall, hlast⟩ := ih hrest
      refine ⟨hspace, (le_max_left _ _).trans hle, fun ph hph => ?_, ?_⟩
      · rcases List.mem_append.mp hph with hph | hph
        · rw [List.mem_singleton.mp hph]
          exact (le_max_right _ _).trans hle
        · exact hall ph hph
      · rcases hlast with rfl | ⟨ph, hph, rfl⟩
        · rcases max_choice sz (f.proghdr elf i).stop with hmax | hmax
          · exact Or.inl hmax
          · exact Or.inr ⟨_, List.mem_append_left _ (List.mem_singleton_self _), hmax⟩
        · exact Or.inr ⟨ph, List.mem_append_right _ hph, rfl⟩

/-- `exec` on demand leaves the pages of the segments unmapped. -/
theorem buildImage_demand {argv : List (List Byte)} {argc : Option ℕ} (hw : s.2.Wf)
    (hsmall : ∀ ph ∈ f.segments elf (List.range elf.phnum), ph.stop ≤ TRAPFRAME)
    (hbuild : buildImage r f elf true argv s = .ok (argc, sz, s')) (hargc : argc.isSome) :
    sz < 2 ^ 64 ∧ ∀ v, (∃ ph ∈ f.segments elf (List.range elf.phnum), PGSIZE * v < ph.stop) →
      s.2.leaf v = none → s'.2.leaf v = none := by
  obtain ⟨⟨ok, sz₀, s₀⟩, hload, hrun⟩ := bind_ok_iff.mp hbuild
  cases ok with
  | false =>
    cases hrun
    cases hargc
  | true =>
    simp only [Bool.not_true, Bool.false_eq_true, ↓reduceIte] at hrun
    obtain ⟨rfl, -, hstops, hlast⟩ := loadSegments_demand hload
    have hsz₀ : sz₀ ≤ TRAPFRAME := by
      rcases hlast with rfl | ⟨ph, hph, rfl⟩
      · exact Nat.zero_le _
      · exact hsmall ph hph
    have hround : sz₀ ≤ pgroundup64 sz₀ ∧ pgroundup64 sz₀ ≤ TRAPFRAME ∧
        pgroundup64 (pgroundup64 sz₀) = pgroundup64 sz₀ ∧ pgroundup64 sz₀ % PGSIZE = 0 := by
      simp only [pgroundup64, TRAPFRAME, TRAMPOLINE, MAXVA, PGSIZE] at *
      omega
    obtain ⟨⟨sz₁, m₁, pt₁⟩, halloc, hrun⟩ := bind_ok_iff.mp hrun
    by_cases hzero : sz₁ = 0
    · rw [if_pos hzero] at hrun
      cases hrun
      cases hargc
    · rw [if_neg hzero] at hrun
      obtain ⟨pt₂, hclear, hrun⟩ := bind_ok_iff.mp hrun
      cases hrun
      have hcleared : ∀ v, pt₁.leaf v = none → pt₂.leaf v = none := by
        intro v hv
        obtain ⟨slot, hwalk, hset⟩ := bind_ok_iff.mp hclear
        rcases slot with _ | _ | e
        · cases hset
        · cases hset
          exact hv
        · obtain ⟨-, hleaf⟩ := walk_ok hwalk
          cases hset
          rw [set_leaf, Function.update_of_ne]
          · exact hv
          · rintro rfl
            rw [← hleaf _ rfl] at hv
            cases hv
      rcases uvmalloc_ok hw halloc hzero with ⟨-, hsz₁, hsame⟩ | ⟨-, hsz₁, P, -⟩
      · refine ⟨?_, fun v _ hv => hcleared v ?_⟩
        · show sz₁ < 2 ^ 64
          rw [hsz₁]
          exact lt_of_le_of_lt hround.2.1 (by decide)
        · rw [show pt₁ = s₀.2 from congrArg Prod.snd hsame]
          exact hv
      · refine ⟨?_, ?_⟩
        · show sz₁ < 2 ^ 64
          rw [hsz₁]
          exact Nat.mod_lt _ (Nat.two_pow_pos 64)
        rintro v ⟨ph, hph, hv⟩ hnone
        apply hcleared
        have hout : v ∉ (pages (pgroundup64 (pgroundup64 sz₀))
            ((pgroundup64 sz₀ + 2 * PGSIZE) % 2 ^ 64)).map vpn := by
          rw [hround.2.2.1, List.mem_map]
          rintro ⟨a, ha, rfl⟩
          obtain ⟨hlow, -, -⟩ := mem_pages.mp ha
          have hstop := hstops ph hph
          have haligned := hround.2.2.2
          have hle := hround.1
          clear hlast hsmall hstops
          simp only [vpn, PGSIZE] at *
          omega
        exact (P.others v hout).trans hnone

end Process

section Fault

variable {L : Layout} {f : File} {sz : ℕ} {s : Space} {c c' : Cpu} {a : Access} {name : Path}

/-- A process that runs the program, as far as its page faults need it: the pages of segments
that are mapped are writable where those of the image are. -/
structure Demands (L : Layout) (f : File) (s : Space) (name : Path) (c : Cpu) : Prop where
  space : FramedSpace L c.space
  tracker : c.proc.heapTracker = fun _ => .clear
  name : c.proc.name = name
  sz : c.proc.sz < 2 ^ 64
  loaded : ∀ v e ph, ph ∈ f.program → ph.Covers (PGSIZE * v) → c.table.leaf v = some e →
    ∃ e', s.2.leaf v = some e' ∧ e'.w = e.w

/-- A layout whose pages are not the page at 0. -/
structure Layout.Nonzero (L : Layout) : Prop where
  kend : 0 < L.kend
  trampoline : L.trampoline ≠ 0

theorem mul_vpn (a : Access) : PGSIZE * vpn a.va = a.pageAddr := by
  simp only [Access.pageAddr, pgrounddown, vpn, PGSIZE]
  omega

theorem Demands.faulting (h : Demands L f s name c) (hL : L.Nonzero) (hva : a.va < 2 ^ 64)
    (hfault : translate c.table a = none) : Faulting a c where
  va := hva
  sz := h.sz
  wf := h.space.table.wf
  frames := by
    intro v e he
    rcases (h.space.table.leaf v e he).2 with hframe | htramp
    · have := hL.kend
      have := hframe.2.1
      omega
    · rw [htramp]
      exact hL.trampoline
  sound := by
    intro q hq
    obtain ⟨hmod, hlow, hhigh⟩ := h.space.memory.free q hq
    have hkend : c.kernel.memory.kend = L.kend := h.space.memory.kend
    have := hL.kend
    exact ⟨by omega, hmod, by rw [hkend]; exact hlow, hhigh⟩
  fault := hfault

theorem Demands.untracked (h : Demands L f s name c) (a : Access) :
    pageIndex c.proc.heapTracker a.pageAddr = none := by
  rw [h.tracker]
  refine pageIndex_clear ?_
  rw [← mul_vpn]
  exact mul_ne_unset _

/-- A fault on a page of a segment does what loading at once would have done exactly when the
file agrees and nothing else is in the way. -/
theorem loadsAsEager_iff (h : Demands L f s name c) (hL : L.Nonzero) (heager : LoadedAtOnce f sz s)
    (hva : a.va < 2 ^ 64) (hnamei : a.namei name = some f) (hfault : FaultsOnSegment f c a) :
    LoadsAsEager s c a ↔ LoadsWell f c a := by
  obtain ⟨hnone, ph₀, hph₀, hcovers₀⟩ := hfault
  have hF := h.faulting hL hva hnone
  obtain ⟨image, hwhole⟩ := heager.image
  have hfile : a.namei c.proc.name = some f := by rw [h.name, hnamei]
  have hmagic : (Elfhdr.ofBytes (readi f 0 sizeofElfhdr a.elf).2).magic = ELF_MAGIC := by
    rw [elfhdr_whole heager.1]
    exact heager.2.1
  -- the entry and the bytes of the page in the image
  have hbelow : PGSIZE * vpn a.va < sz := by
    rw [mul_vpn]
    exact lt_of_lt_of_le hcovers₀.2 (image.stops ph₀ hph₀)
  obtain ⟨perm, hperm⟩ := Option.isSome_iff_exists.mp (image.perm _ hbelow)
  obtain ⟨pa₁, hentry, -, hbytes⟩ := image.mapped _ perm hbelow hperm
  rw [mul_vpn] at hperm
  have hdata : ∀ k < PGSIZE, s.1.page pa₁ k = eagerByte f f.program a.pageAddr k := by
    intro k hk
    rw [hbytes k hk, eagerData, mul_vpn]
  obtain ⟨ph, hph⟩ : ∃ ph, f.program.find? (fun ph => ph.Covers a.pageAddr) = some ph := by
    cases hfind : f.program.find? fun ph => ph.Covers a.pageAddr with
    | some ph => exact ⟨ph, rfl⟩
    | none =>
      rw [List.find?_eq_none] at hfind
      exact absurd (decide_eq_true hcovers₀) (hfind ph₀ hph₀)
  have hseg : faultSegment a f = some ph := (faultSegment_eq heager.1 hwhole).trans hph
  have hagrees : PageAgrees f f.program a.pageAddr ↔
      f.count ((ph.off + (a.pageAddr - ph.vaddr)) % 2 ^ 32) PGSIZE = PGSIZE ∧
        flags2perm ph.flags = perm ∧
        ∀ k < PGSIZE, ph.byte f a.pageAddr k = eagerByte f f.program a.pageAddr k := by
    unfold PageAgrees
    rw [hph, hperm]
    constructor
    · rintro ⟨ph', hph', hcount, hflags, hall⟩
      cases hph'
      exact ⟨hcount, (Option.some.inj hflags).symm, hall⟩
    · rintro ⟨hcount, hflags, hall⟩
      exact ⟨ph, rfl, hcount, by rw [hflags], hall⟩
  obtain ⟨htest, hvalue⟩ := cowFault_spec (a := a) (c := c)
  unfold LoadsAsEager LoadsWell pageFaultHandler
  rw [trap_alignedAddr, h.untracked a, hagrees]
  simp only
  by_cases hreturns : CowTestReturns a c
  swap
  · refine iff_of_false ?_ fun hw => hreturns hw.1
    rintro ⟨c', e, pa, hrun, -⟩
    obtain ⟨b, hb, -⟩ := bind_ok_iff.mp hrun
    exact hreturns (htest.mp ⟨b, hb⟩)
  obtain ⟨b, hb⟩ := htest.mpr hreturns
  have hcow := hvalue b hb
  rw [hb, ok_bind]
  cases b with
  | true =>
    -- the page is mapped already, and its copy would be writable
    obtain ⟨e, hcause, hstore, hleaf, hw⟩ := hcow.mp rfl
    obtain ⟨hlt, -⟩ := hreturns hcause hstore
    simp only [↓reduceIte]
    refine iff_of_false ?_ fun hwell => ?_
    · rintro ⟨c', e', pa, hrun, he', hleaf', -⟩
      obtain ⟨pa', hpa'⟩ := (copyOnWrite_spec hF hlt hleaf).2 c' hrun
      rw [vpn_pageAddr] at hleaf
      obtain ⟨e₁, he₁, hw₁⟩ := h.loaded (vpn a.va) e ph₀ hph₀ (by rw [mul_vpn]; exact hcovers₀) hleaf
      rw [he'] at he₁
      cases he₁
      rw [hleaf'] at hpa'
      have hwritable : e'.w = true := congrArg Pte.w (Option.some.inj hpa')
      rw [hw₁, hw] at hwritable
      cases hwritable
    · have hunmapped := hwell.2.1.2.1
      rw [Mapped, hleaf] at hunmapped
      exact hunmapped rfl
  | false =>
    simp only [Bool.false_eq_true, ↓reduceIte]
    obtain ⟨hret, hspec⟩ := loadFromFile_segment hF hfile hmagic hseg
    constructor
    · rintro ⟨c', e', pa, hrun, he', hleaf', hpage⟩
      obtain ⟨hmaps, hcount⟩ := hret.mp ⟨c', hrun⟩
      obtain ⟨-, pa', hpa', hfilled⟩ := hspec c' hrun
      rw [hentry] at he'
      cases he'
      rw [hleaf'] at hpa'
      obtain ⟨rfl, hflags⟩ : pa = pa' ∧ perm = flags2perm ph.flags := by
        have heq := Option.some.inj hpa'
        refine ⟨congrArg Pte.pa heq, ?_⟩
        have hwflag : perm.w = (flags2perm ph.flags).w := congrArg Pte.w heq
        have hxflag : perm.x = (flags2perm ph.flags).x := congrArg Pte.x heq
        cases perm
        cases hflag : flags2perm ph.flags
        rw [hflag] at hwflag hxflag
        simp only at hwflag hxflag
        rw [hwflag, hxflag]
      refine ⟨hreturns, hmaps, hcount, hflags.symm, fun k hk => ?_⟩
      rw [← hdata k hk]
      exact (hfilled k hk).symm.trans (hpage k hk)
    · rintro ⟨-, hmaps, hcount, hflags, hall⟩
      obtain ⟨c', hrun⟩ := hret.mpr ⟨hmaps, hcount⟩
      obtain ⟨-, pa, hleaf', hfilled⟩ := hspec c' hrun
      refine ⟨c', _, pa, hrun, hentry, ?_, fun k hk => ?_⟩
      · rw [hleaf', hflags]
        rfl
      · show c'.kernel.memory.page pa k = s.1.page pa₁ k
        rw [hfilled k hk, hdata k hk]
        exact hall k hk

end Fault

section Run

variable {L : Layout} {f : File} {sz : ℕ} {s : Space} {c c' : Cpu} {a : Access} {name : Path}

/-- An access keeps what later page faults need, if its own fault on a segment went well. -/
theorem Demands.step (h : Demands L f s name c) (hL : L.Nonzero) (hva : a.va < 2 ^ 64)
    (hloads : FaultsOnSegment f c a → LoadsAsEager s c a) (hrun : userAccess c a = .ok c') :
    Demands L f s name c' := by
  obtain ⟨⟨value, c₂⟩, haccess, hrun⟩ := bind_ok_iff.mp hrun
  cases hrun
  have hserved := access_served h.space haccess
  obtain ⟨c₁, hfirst, hlast⟩ := access_cases haccess
  have hindex : pageIndex c.proc.heapTracker a.trap.alignedAddr = none := by
    rw [trap_alignedAddr]
    exact h.untracked a
  have hproc : c'.proc = c.proc := by
    have hproc₁ : c₁.proc = c.proc := by
      rcases hfirst with rfl | ⟨-, hhandle⟩
      · rfl
      · exact pageFaultHandler_proc hindex hhandle
    rcases hlast with rfl | ⟨b, hattempt⟩
    · exact hproc₁
    · exact (attempt_frame hattempt).1.trans hproc₁
  have htable : c'.table = c₁.table := by
    rcases hlast with rfl | ⟨b, hattempt⟩
    · rfl
    · exact (attempt_frame hattempt).2
  refine ⟨hserved.space, by rw [hproc]; exact h.tracker, by rw [hproc]; exact h.name,
    by rw [hproc]; exact h.sz, fun v e ph hph hcovers he => ?_⟩
  rw [htable] at he
  rcases hfirst with rfl | ⟨hattempt, hhandle⟩
  · exact h.loaded v e ph hph hcovers he
  · have hfault : translate c.table a = none := by
      have hnone : ¬ (attempt a c).isSome := by simp [hattempt]
      rw [attempt_isSome] at hnone
      exact Option.not_isSome_iff_eq_none.mp hnone
    have hF := h.faulting hL hva hfault
    by_cases hv : v = vpn a.va
    · subst hv
      rw [mul_vpn] at hcovers
      obtain ⟨c₃, e', pa, hrun, he', hleaf, -⟩ := hloads ⟨hfault, ph, hph, hcovers⟩
      obtain rfl := Except.ok.inj (hhandle.symm.trans hrun)
      rw [hleaf] at he
      cases he
      exact ⟨e', he', rfl⟩
    · obtain ⟨-, hothers⟩ :=
        pageFaultHandler_elsewhere hF.wf hF.sound hva (h.untracked a) hhandle
      rw [hothers v hv] at he
      exact h.loaded v e ph hph hcovers he

/-- What a successful `exec` has built. -/
theorem exec_builds {k k' : Kernel} {p p' : Proc} {path : Path} {namei : Path → Option File}
    {argv : List (List Byte)} {argc : ℕ} (hfile : namei path = some f)
    (hrun : p.exec path argv namei k = .ok (some argc, k', p')) :
    ∃ pg m s', procPagetable ⟨k.groups, p.cowGroup⟩ (p.trapframe.getD 0) k.memory =
        .ok (some pg, m) ∧
      buildImage ⟨k.groups, p.cowGroup⟩ f f.elfhdr (isOndemand path) argv (m, pg.table) =
        .ok (some argc, p'.sz, s') ∧
      p'.pagetable = some { pg with table := s'.2 } ∧ p'.name = progName path ∧
      p'.heapTracker = fun _ => .clear := by
  unfold Proc.exec at hrun
  simp only [hfile] at hrun
  split_ifs at hrun
  · cases hrun
  · cases hrun
  · obtain ⟨⟨result, m₁⟩, htable, hrun⟩ := bind_ok_iff.mp hrun
    cases result with
    | none => cases hrun
    | some pg =>
      obtain ⟨⟨argc', sz, m₂, pt⟩, hbuild, hrun⟩ := bind_ok_iff.mp hrun
      cases argc' with
      | none =>
        obtain ⟨m₃, -, hrun⟩ := bind_ok_iff.mp hrun
        cases hrun
      | some n =>
        cases hold : p.pagetable with
        | none =>
          simp only [hold] at hrun
          cases hrun
        | some old =>
          simp only [hold] at hrun
          obtain ⟨m₃, -, hrun⟩ := bind_ok_iff.mp hrun
          cases hrun
          exact ⟨pg, m₁, (m₂, pt), htable, hbuild, rfl, rfl, rfl⟩

/-- The process after `exec` on demand. -/
theorem exec_demands {k k' : Kernel} {p p' : Proc} {path : Path} {namei : Path → Option File}
    {argv : List (List Byte)} {argc : ℕ} {pg : Pagetable} (hk : k.memory.Framed L)
    (hp : FramedProc L p) (hpg : p.pagetable.isSome) (hnodup : k.memory.freelist.Nodup)
    (hfile : namei path = some f) (hond : isOndemand path = true)
    (hrun : p.exec path argv namei k = .ok (some argc, k', p')) (hpg' : p'.pagetable = some pg)
    (heager : LoadedAtOnce f sz s) : Demands L f s (progName path) ⟨k', p', pg.table⟩ := by
  obtain ⟨hmemory, hproc, -, -⟩ := exec_framed hk hp hpg hrun
  obtain ⟨pg₀, m, s', htable, hbuild, hnew, hname, htracker⟩ := exec_builds hfile hrun
  rw [hond] at hbuild
  obtain ⟨image, -⟩ := heager.image
  obtain ⟨-, hleaf⟩ := procPagetable_leaf hnodup htable
  have hsmall : ∀ ph ∈ f.program, ph.stop ≤ TRAPFRAME := fun ph hph =>
    (image.stops ph hph).trans image.size_le
  obtain ⟨hsz, hkept⟩ := buildImage_demand (procPagetable_wf htable) hsmall hbuild rfl
  rw [hpg'] at hnew
  have hpt : pg.table = s'.2 := congrArg Pagetable.table (Option.some.inj hnew)
  refine ⟨⟨hmemory, (hproc.table pg hpg').2⟩, htracker, hname, hsz, fun v e ph hph hcovers he => ?_⟩
  -- no page of a segment is mapped yet
  have hlow : PGSIZE * v < TRAPFRAME := lt_of_lt_of_le hcovers.2 (hsmall ph hph)
  have hv : v ≠ vpn TRAPFRAME ∧ v ≠ vpn TRAMPOLINE := by
    constructor
    · rintro rfl
      exact absurd hlow (by decide)
    · rintro rfl
      exact absurd hlow (by decide)
  have hnone := hkept v ⟨ph, hph, hcovers.2⟩
    (by rw [hleaf, Function.update_of_ne hv.1, Function.update_of_ne hv.2])
  change pg.table.leaf v = some e at he
  rw [hpt, hnone] at he
  cases he

/-- In every run of user accesses of a program that `exec` has loaded on demand, each fault on a
page of a segment gives the page the entry and the bytes that loading at once would have given
it, if and only if at each of them the page is not mapped yet, there are pages for it, the test
for a shared page does not panic, and the file agrees. -/
theorem demand_loading_eager_iff {k k' : Kernel} {p p' : Proc} {path : Path}
    {namei : Path → Option File} {argv : List (List Byte)} {argc : ℕ} {pg : Pagetable}
    (hL : L.Nonzero) (hk : k.memory.Framed L) (hp : FramedProc L p) (hpg : p.pagetable.isSome)
    (hnodup : k.memory.freelist.Nodup) (hfile : namei path = some f)
    (hond : isOndemand path = true)
    (hexec : p.exec path argv namei k = .ok (some argc, k', p')) (hpg' : p'.pagetable = some pg)
    (heager : LoadedAtOnce f sz s) {as : List Access}
    (has : ∀ a ∈ as, a.va < 2 ^ 64 ∧ a.namei (progName path) = some f) :
    Guarded userAccess (fun c a => FaultsOnSegment f c a → LoadsAsEager s c a)
        ⟨k', p', pg.table⟩ as ↔
      Guarded userAccess (fun c a => FaultsOnSegment f c a → LoadsWell f c a)
        ⟨k', p', pg.table⟩ as := by
  have hstart := exec_demands hk hp hpg hnodup hfile hond hexec hpg' heager
  have hinputs : Guarded userAccess (fun _ a => a.va < 2 ^ 64 ∧ a.namei (progName path) = some f)
      ⟨k', p', pg.table⟩ as := guarded_of_forall has
  apply guarded_congr (I := Demands L f s (progName path)) _ _ hstart hinputs
  · rintro c a hc ⟨hva, hnamei⟩
    exact imp_congr_right fun hfault => loadsAsEager_iff hc hL heager hva hnamei hfault
  · rintro c a c' hc ⟨hva, hnamei⟩ hwell hstep
    exact hc.step hL hva
      (fun hfault => (loadsAsEager_iff hc hL heager hva hnamei hfault).mpr (hwell hfault)) hstep

end Run

section Sample

/-- A program of one page, which the file has behind its headers. -/
def onePageFile : File where
  size := 2 * PGSIZE
  byte i := if PGSIZE ≤ i then 7 else [
    0x7f, 0x45, 0x4c, 0x46, 0, 0, 0, 0, 0, 0, 0, 0, 0, 0, 0, 0, 0, 0, 0, 0, 0, 0, 0, 0,
    0, 0, 0, 0, 0, 0, 0, 0, 64, 0, 0, 0, 0, 0, 0, 0, 0, 0, 0, 0, 0, 0, 0, 0,
    0, 0, 0, 0, 0, 0, 0, 0, 1, 0, 0, 0, 0, 0, 0, 0,
    1, 0, 0, 0, 6, 0, 0, 0, 0, 0x10, 0, 0, 0, 0, 0, 0, 0, 0, 0, 0, 0, 0, 0, 0,
    0, 0, 0, 0, 0, 0, 0, 0, 0, 0x10, 0, 0, 0, 0, 0, 0, 0, 0x10].getD i 0
  size_le := by decide

/-- The program is loaded at once into a new table. -/
theorem onePageFile_loads : ∃ sz s, LoadedAtOnce onePageFile sz s := by
  have hok : (procPagetable ⟨fun _ => ⟨0, [], 0⟩, 0⟩ 0 (sampleKernel 20).memory >>= fun r =>
      loadSegments ⟨fun _ => ⟨0, [], 0⟩, 0⟩ onePageFile onePageFile.elfhdr false
        (List.range onePageFile.elfhdr.phnum) 0 (r.2, (r.1.getD ⟨0, PageTable.empty⟩).table) >>=
      fun t => .ok (r.1.isSome, t.1)).toOption = some (true, true) := by
    decide +kernel
  cases htable : procPagetable ⟨fun _ => ⟨0, [], 0⟩, 0⟩ 0 (sampleKernel 20).memory with
  | error e =>
    rw [htable] at hok
    cases hok
  | ok result =>
    obtain ⟨pg, m⟩ := result
    rw [htable, ok_bind] at hok
    simp only at hok
    cases hload : loadSegments ⟨fun _ => ⟨0, [], 0⟩, 0⟩ onePageFile onePageFile.elfhdr false
        (List.range onePageFile.elfhdr.phnum) 0 (m, (pg.getD ⟨0, PageTable.empty⟩).table) with
    | error e =>
      rw [hload] at hok
      cases hok
    | ok result =>
      obtain ⟨ok, sz, s⟩ := result
      rw [hload] at hok
      cases pg with
      | none => cases hok
      | some pg =>
        cases ok with
        | false => cases hok
        | true =>
          exact ⟨sz, s, by decide, by decide +kernel, _, 0, _, pg, m,
            (sampleKernel_supplies 20).nodup, htable, hload⟩

theorem sampleLayout_nonzero : sampleLayout.Nonzero := ⟨by decide, by decide⟩

def firstLoad : Access := ⟨.load, 0, fun _ => some onePageFile, fun _ => 0, fun _ => 0⟩

/-- The program is executed, and reads its first page. -/
theorem sample_demand_loading_eager_iff : ∃ sz s k p pg,
    LoadedAtOnce onePageFile sz s ∧
    (sampleProc 0).exec ['a'] [] (fun _ => some onePageFile) (sampleKernel 20) =
      .ok (some 0, k, p) ∧ p.pagetable = some pg ∧
    (Guarded userAccess (fun c a => FaultsOnSegment onePageFile c a → LoadsAsEager s c a)
        ⟨k, p, pg.table⟩ [firstLoad] ↔
      Guarded userAccess (fun c a => FaultsOnSegment onePageFile c a → LoadsWell onePageFile c a)
        ⟨k, p, pg.table⟩ [firstLoad]) := by
  obtain ⟨sz, s, heager⟩ := onePageFile_loads
  have hok : ((sampleProc 0).exec ['a'] [] (fun _ => some onePageFile)
      (sampleKernel 20)).toOption.map (fun r => (r.1, r.2.2.pagetable.isSome)) =
      some (some 0, true) := by
    decide +kernel
  cases hexec : (sampleProc 0).exec ['a'] [] (fun _ => some onePageFile) (sampleKernel 20) with
  | error e =>
    rw [hexec] at hok
    cases hok
  | ok r =>
    obtain ⟨argc, k, p⟩ := r
    rw [hexec] at hok
    simp only [Except.toOption, Option.map_some, Option.some.injEq, Prod.mk.injEq] at hok
    obtain ⟨rfl, hsome⟩ := hok
    obtain ⟨pg, hpg⟩ := Option.isSome_iff_exists.mp hsome
    have hproc : FramedProc sampleLayout (sampleProc 0) := sampleSystem_framed.proc 0
    refine ⟨sz, s, k, p, pg, heager, rfl, hpg, ?_⟩
    exact demand_loading_eager_iff sampleLayout_nonzero sampleSystem_framed.memory hproc rfl
      (sampleKernel_supplies 20).nodup rfl (by decide) hexec hpg heager
      (by
        intro a ha
        rw [List.mem_singleton.mp ha]
        exact ⟨by decide, rfl⟩)

end Sample

end AdvancedOperatingSystems.DemandPaging
