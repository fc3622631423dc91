import AdvancedOperatingSystems.DemandPaging.Exec
import AdvancedOperatingSystems.DemandPaging.Forking
import AdvancedOperatingSystems.DemandPaging.HeapRegion

/-!
# The image of a program loaded at once

What `exec` makes of the segments of a file when it does not load on demand: which entry and
which bytes each page gets, as a function of the program headers.
-/

namespace AdvancedOperatingSystems.DemandPaging

open Foundations Riscv Riscv.PageTable

def Proghdr.stop (ph : Proghdr) : ℕ := (ph.vaddr + ph.memsz) % 2 ^ 64

/-- The part of a segment that comes from the file has byte `k` of the page. -/
def Proghdr.Fills (ph : Proghdr) (page k : ℕ) : Prop :=
  ph.vaddr ≤ page ∧ page + k < ph.vaddr + ph.filesz % 2 ^ 32

instance (ph : Proghdr) (page k : ℕ) : Decidable (ph.Fills page k) :=
  inferInstanceAs (Decidable (_ ∧ _))

/-- The byte of the file at the place of byte `k` of the page. -/
def Proghdr.byte (ph : Proghdr) (f : File) (page k : ℕ) : Byte :=
  f.byte ((ph.off + (page - ph.vaddr)) % 2 ^ 32 + k)

/-- Program header `i` of the file. -/
def File.proghdr (f : File) (elf : Elfhdr) (i : ℕ) : Proghdr :=
  Proghdr.ofBytes (readi f (elf.off i) sizeofProghdr fun _ => 0).2

/-- The headers of the segments that `exec` loads. -/
def File.segments (f : File) (elf : Elfhdr) (is : List ℕ) : List Proghdr :=
  (is.map (f.proghdr elf)).filter fun ph => ph.type = ELF_PROG_LOAD

/-- A byte of a page that has been loaded at once: the last segment that fills it counts. -/
def eagerByte (f : File) (phs : List Proghdr) (page k : ℕ) : Byte :=
  phs.foldl (fun b ph => if ph.Fills page k then ph.byte f page k else b) 0

/-- The flags of a page that has been loaded at once are those of the first segment that ends
behind its first byte. -/
def eagerPerm (phs : List Proghdr) (page : ℕ) : Option Perm :=
  (phs.find? fun ph => page < ph.stop).map fun ph => flags2perm ph.flags

/-- The pages below `sz` are mapped, each with a frame of its own, as the headers say, and hold
the data. -/
structure EagerImage (phs : List Proghdr) (data : ℕ → Page) (sz : ℕ) (s : Space) : Prop where
  wf : s.2.Wf
  nodup : s.1.freelist.Nodup
  trapframe : (s.2.leaf trapPage).isSome
  size_le : sz ≤ TRAPFRAME
  stops : ∀ ph ∈ phs, ph.stop ≤ sz
  perm : ∀ v, PGSIZE * v < sz → (eagerPerm phs (PGSIZE * v)).isSome
  mapped : ∀ v perm, PGSIZE * v < sz → eagerPerm phs (PGSIZE * v) = some perm →
    ∃ pa, s.2.leaf v = some (perm.pte pa) ∧ pa ∉ s.1.freelist ∧
      ∀ k < PGSIZE, s.1.page pa k = data v k
  apart : ∀ v w e e', PGSIZE * v < sz → PGSIZE * w < sz → s.2.leaf v = some e →
    s.2.leaf w = some e' → e.pa = e'.pa → v = w

section Headers

variable {f : File} {elf : Elfhdr} {phs : List Proghdr} {ph : Proghdr} {page k : ℕ}

theorem segments_cons (i : ℕ) (is : List ℕ) : f.segments elf (i :: is) =
    (if (f.proghdr elf i).type = ELF_PROG_LOAD then [f.proghdr elf i] else []) ++
      f.segments elf is := by
  unfold File.segments
  rw [List.map_cons, List.filter_cons]
  by_cases h : (f.proghdr elf i).type = ELF_PROG_LOAD <;> simp [h]

theorem eagerByte_snoc : eagerByte f (phs ++ [ph]) page k =
    if ph.Fills page k then ph.byte f page k else eagerByte f phs page k := by
  unfold eagerByte
  rw [List.foldl_append]
  rfl

theorem eagerPerm_snoc : eagerPerm (phs ++ [ph]) page =
    ((eagerPerm phs page).or (if page < ph.stop then some (flags2perm ph.flags) else none)) := by
  unfold eagerPerm
  rw [List.find?_append]
  cases phs.find? fun ph => decide (page < ph.stop) with
  | some ph' => rfl
  | none => by_cases h : page < ph.stop <;> simp [h]

theorem eagerPerm_none (h : ∀ ph ∈ phs, ph.stop ≤ page) : eagerPerm phs page = none := by
  unfold eagerPerm
  rw [Option.map_eq_none_iff, List.find?_eq_none]
  intro ph hph
  simpa using h ph hph

theorem proghdr_memsz_lt (i : ℕ) : (f.proghdr elf i).memsz < 2 ^ 64 := by
  have h := field_lt (readi f (elf.off i) sizeofProghdr fun _ => 0).2 40 8
  rw [show (256 : ℕ) ^ 8 = 2 ^ 64 by norm_num] at h
  exact h

theorem Proghdr.stop_eq (hmemsz : ph.memsz < 2 ^ 64) (hwrap : ph.vaddr ≤ ph.stop) :
    ph.stop = ph.vaddr + ph.memsz := by
  unfold Proghdr.stop at *
  omega

end Headers

section Loadseg

variable {pt : PageTable ℕ} {va offset sz : ℕ} {f : File} {is : List ℕ} {m m' : Memory}

/-- What a successful `loadseg` writes, if the pages of the segment have frames of their own. -/
theorem loadsegLoop_ok (hnodup : is.Nodup)
    (hinj : ∀ i ∈ is, ∀ j ∈ is, pt.walkaddr ((va + i) % 2 ^ 64) =
      pt.walkaddr ((va + j) % 2 ^ 64) → i = j)
    (h : loadsegLoop pt va f offset sz is m = .ok (true, m')) :
    m'.freelist = m.freelist ∧
    (∀ pa, (∀ i ∈ is, pt.walkaddr ((va + i) % 2 ^ 64) ≠ pa) → m'.page pa = m.page pa) ∧
    ∀ i ∈ is, ∀ k, m'.page (pt.walkaddr ((va + i) % 2 ^ 64)) k =
      if k < min (sz - i) PGSIZE then f.byte ((offset + i) % 2 ^ 32 + k)
      else m.page (pt.walkaddr ((va + i) % 2 ^ 64)) k := by
  induction is generalizing m with
  | nil =>
    cases h
    exact ⟨rfl, fun _ _ => rfl, fun i hi => by cases hi⟩
  | cons i is ih =>
    obtain ⟨hnew, hnodup⟩ := List.nodup_cons.mp hnodup
    unfold loadsegLoop at h
    simp only at h
    split_ifs at h with hpa hgot
    swap
    · cases h
    obtain ⟨hfree, hothers, hdata⟩ := ih hnodup
      (fun j hj l hl => hinj j (List.mem_cons_of_mem i hj) l (List.mem_cons_of_mem i hl)) h
    have hcount : f.count ((offset + i) % 2 ^ 32) (min (sz - i) PGSIZE) = min (sz - i) PGSIZE := hgot
    have hself : ∀ j ∈ is, pt.walkaddr ((va + j) % 2 ^ 64) ≠ pt.walkaddr ((va + i) % 2 ^ 64) := by
      intro j hj heq
      have hji := hinj j (List.mem_cons_of_mem i hj) i List.mem_cons_self heq
      exact hnew (hji ▸ hj)
    refine ⟨hfree, fun pa hpa => ?_, fun j hj k => ?_⟩
    · rw [hothers pa fun j hj => hpa j (List.mem_cons_of_mem i hj), Memory.write_page,
        Function.update_of_ne (Ne.symm (hpa i List.mem_cons_self))]
    · rcases List.mem_cons.mp hj with rfl | hj
      · rw [hothers _ hself, Memory.write_page, Function.update_self]
        show (if k < f.count _ _ then _ else _) = _
        rw [hcount]
      · rw [hdata j hj k, Memory.write_page, Function.update_of_ne (hself j hj)]

end Loadseg

namespace EagerImage

variable {f : File} {phs : List Proghdr} {ph : Proghdr} {data : ℕ → Page} {sz sz' v : ℕ}
  {s s' : Space} {r : Running}

theorem entry (h : EagerImage phs data sz s) (hv : PGSIZE * v < sz) :
    ∃ perm pa, eagerPerm phs (PGSIZE * v) = some perm ∧ s.2.leaf v = some (perm.pte pa) := by
  obtain ⟨perm, hperm⟩ := Option.isSome_iff_exists.mp (h.perm v hv)
  obtain ⟨pa, hleaf, -⟩ := h.mapped v perm hv hperm
  exact ⟨perm, pa, hperm, hleaf⟩

theorem walkaddr (h : EagerImage phs data sz s) (hv : PGSIZE * v < sz) {perm : Perm} {pa : ℕ}
    (hleaf : s.2.leaf v = some (perm.pte pa)) : s.2.walkaddr (PGSIZE * v) = pa := by
  have hlt : PGSIZE * v < MAXVA := lt_of_lt_of_le hv (h.size_le.trans (by decide))
  exact walkaddr_eq h.wf hlt (by rw [vpn_mul]; exact hleaf) rfl

/-- `uvmalloc` for a segment: the new pages hold zeros. -/
theorem grow (h : EagerImage phs data sz s) (hzero : ∀ v, sz ≤ PGSIZE * v → data v = fun _ => 0)
    (hrun : uvmalloc r sz ph.stop (flags2perm ph.flags) s = .ok (sz', s')) (hne : sz' ≠ 0) :
    EagerImage (phs ++ [ph]) data sz' s' ∧ ph.stop ≤ sz' ∧ sz ≤ sz' := by
  have hround : pgroundup64 sz = pgroundup sz := by
    have := h.size_le
    simp only [pgroundup64, pgroundup, PGSIZE, MAXVA, TRAPFRAME, TRAMPOLINE] at *
    omega
  rcases uvmalloc_ok h.wf hrun hne with ⟨hlt, rfl, rfl⟩ | ⟨hle, rfl, P, hva⟩
  · -- the segment ends below: nothing is allocated
    have hperm : ∀ v, PGSIZE * v < sz' → eagerPerm (phs ++ [ph]) (PGSIZE * v) =
        eagerPerm phs (PGSIZE * v) := by
      intro v hv
      obtain ⟨perm, hsome⟩ := Option.isSome_iff_exists.mp (h.perm v hv)
      rw [eagerPerm_snoc, hsome]
      rfl
    refine ⟨⟨h.wf, h.nodup, h.trapframe, h.size_le, ?_, ?_, ?_, h.apart⟩, hlt.le, le_rfl⟩
    · intro ph' hph'
      rcases List.mem_append.mp hph' with hph' | hph'
      · exact h.stops ph' hph'
      · rw [List.mem_singleton.mp hph']
        exact hlt.le
    · intro v hv
      rw [hperm v hv]
      exact h.perm v hv
    · intro v perm hv hsome
      rw [hperm v hv] at hsome
      exact h.mapped v perm hv hsome
  · rw [hround] at P hva
    obtain ⟨taken, htake, hin⟩ := P.takes
    have hnew : ∀ v, v ∈ (pages (pgroundup sz) ph.stop).map vpn ↔
        sz ≤ PGSIZE * v ∧ PGSIZE * v < ph.stop := by
      intro v
      rw [List.mem_map]
      constructor
      · rintro ⟨a, ha, rfl⟩
        obtain ⟨hlow, hhigh, hmod⟩ := mem_pages.mp ha
        simp only [pgroundup, vpn, PGSIZE] at *
        omega
      · rintro ⟨hlow, hhigh⟩
        refine ⟨PGSIZE * v, mem_pages.mpr ⟨?_, hhigh, ?_⟩, vpn_mul v⟩
        · simp only [pgroundup, PGSIZE] at *
          omega
        · simp only [pgroundup, PGSIZE] at *
          omega
    have hold : ∀ v, PGSIZE * v < sz → s'.2.leaf v = s.2.leaf v := by
      intro v hv
      exact P.others v fun hmem => by have := (hnew v).mp hmem; omega
    have hpermOld : ∀ v, PGSIZE * v < sz → eagerPerm (phs ++ [ph]) (PGSIZE * v) =
        eagerPerm phs (PGSIZE * v) := by
      intro v hv
      obtain ⟨perm, hsome⟩ := Option.isSome_iff_exists.mp (h.perm v hv)
      rw [eagerPerm_snoc, hsome]
      rfl
    have hpermNew : ∀ v, sz ≤ PGSIZE * v → PGSIZE * v < ph.stop →
        eagerPerm (phs ++ [ph]) (PGSIZE * v) = some (flags2perm ph.flags) := by
      intro v hlow hhigh
      have hnone := eagerPerm_none fun ph' hph' => (h.stops ph' hph').trans hlow
      rw [eagerPerm_snoc, hnone, if_pos hhigh]
      rfl
    -- the frame of an old page is not one of those taken
    have hframe : ∀ v e, PGSIZE * v < sz → s'.2.leaf v = some e → e.pa ∉ s.1.freelist := by
      intro v e hv he
      rw [hold v hv] at he
      obtain ⟨perm, pa, hperm, hleaf⟩ := h.entry hv
      obtain ⟨pa', hleaf', hfree, -⟩ := h.mapped v perm hv hperm
      rw [he] at hleaf'
      cases hleaf'
      exact hfree
    have hframeNew : ∀ v e, sz ≤ PGSIZE * v → PGSIZE * v < ph.stop → s'.2.leaf v = some e →
        e = (flags2perm ph.flags).pte e.pa ∧ e.pa ∈ taken := by
      intro v e hlow hhigh he
      have hmem := (hnew v).mpr ⟨hlow, hhigh⟩
      obtain ⟨pa, hleaf⟩ := P.mapped v hmem
      rw [he] at hleaf
      cases hleaf
      exact ⟨rfl, hin v hmem pa he⟩
    have hnodup := h.nodup
    rw [htake.freelist] at hnodup
    -- the trapframe is in the way of a larger program
    have hreserved : trapPage ∉ (pages (pgroundup sz) ph.stop).map vpn := by
      intro hmem
      have hsome := h.trapframe
      rw [P.unmapped trapPage hmem] at hsome
      cases hsome
    refine ⟨⟨P.wf, hnodup.of_append_right, ?_, ?_, ?_, ?_, ?_, ?_⟩, le_rfl, hle⟩
    · rw [P.others trapPage hreserved]
      exact h.trapframe
    · by_contra hlt
      refine hreserved ((hnew trapPage).mpr ⟨?_, ?_⟩)
      · exact h.size_le.trans (by decide)
      · exact lt_of_le_of_lt (by decide) (not_le.mp hlt)
    · intro ph' hph'
      rcases List.mem_append.mp hph' with hph' | hph'
      · exact (h.stops ph' hph').trans hle
      · rw [List.mem_singleton.mp hph']
    · intro v hv
      by_cases hlow : PGSIZE * v < sz
      · rw [hpermOld v hlow]
        exact h.perm v hlow
      · rw [hpermNew v (by omega) hv]
        rfl
    · intro v perm hv hperm
      by_cases hlow : PGSIZE * v < sz
      · rw [hpermOld v hlow] at hperm
        obtain ⟨pa, hleaf, hfree, hdata⟩ := h.mapped v perm hlow hperm
        rw [htake.freelist, List.mem_append, not_or] at hfree
        refine ⟨pa, (hold v hlow).trans hleaf, hfree.2, fun k hk => ?_⟩
        rw [htake.page pa hfree.1]
        exact hdata k hk
      · rw [hpermNew v (by omega) hv] at hperm
        cases hperm
        have hmem := (hnew v).mpr ⟨by omega, hv⟩
        obtain ⟨pa, hleaf⟩ := P.mapped v hmem
        have htaken := hin v hmem pa hleaf
        refine ⟨pa, hleaf, fun hfree => ?_, fun k _ => ?_⟩
        · exact (List.disjoint_of_nodup_append hnodup) htaken hfree
        · rw [P.zero h.nodup v hmem pa hleaf, hzero v (by omega)]
    · intro v w e e' hv hw he he' hpa
      by_cases hlow : PGSIZE * v < sz
      · by_cases hlow' : PGSIZE * w < sz
        · exact h.apart v w e e' hlow hlow' (by rw [← hold v hlow]; exact he)
            (by rw [← hold w hlow']; exact he') hpa
        · have hfree := hframe v e hlow he
          rw [hpa, htake.freelist] at hfree
          exact absurd (List.mem_append_left _ (hframeNew w e' (by omega) hw he').2) hfree
      · by_cases hlow' : PGSIZE * w < sz
        · have hfree := hframe w e' hlow' he'
          rw [← hpa, htake.freelist] at hfree
          exact absurd (List.mem_append_left _ (hframeNew v e (by omega) hv he).2) hfree
        · have hent := (hframeNew v e (by omega) hv he).1
          have hent' := (hframeNew w e' (by omega) hw he').1
          rw [hent] at he
          rw [hent', ← hpa] at he'
          exact P.inj h.nodup v ((hnew v).mpr ⟨by omega, hv⟩) w ((hnew w).mpr ⟨by omega, hw⟩) e.pa
            he he'

/-- `loadseg` of a segment whose pages are there. -/
theorem load {m' : Memory} (h : EagerImage phs data sz s) (haligned : ph.vaddr % PGSIZE = 0)
    (hend : ph.vaddr + ph.filesz ≤ sz)
    (hrun : loadseg s.2 ph.vaddr f ph.off ph.filesz s.1 = .ok (true, m')) :
    EagerImage phs (fun v k => if ph.Fills (PGSIZE * v) k then ph.byte f (PGSIZE * v) k
      else data v k) sz (m', s.2) := by
  have hmax : sz ≤ TRAPFRAME := h.size_le
  have hfilesz : ph.filesz % 2 ^ 32 ≤ ph.filesz := Nat.mod_le _ _
  generalize hn : ph.filesz % 2 ^ 32 = n at hfilesz
  -- the page of the segment at offset `i`
  have hpage : ∀ i ∈ pages 0 n, ∃ w, ph.vaddr + i = PGSIZE * w ∧ PGSIZE * w < sz ∧
      (ph.vaddr + i) % 2 ^ 64 = PGSIZE * w := by
    intro i hi
    obtain ⟨-, hlt, hmod⟩ := mem_pages.mp hi
    refine ⟨(ph.vaddr + i) / PGSIZE, ?_, ?_, ?_⟩ <;>
      · simp only [TRAPFRAME, TRAMPOLINE, MAXVA, PGSIZE] at *
        omega
  have hentry : ∀ i ∈ pages 0 n, ∀ w, ph.vaddr + i = PGSIZE * w → ∃ e, s.2.leaf w = some e ∧
      s.2.walkaddr ((ph.vaddr + i) % 2 ^ 64) = e.pa ∧ PGSIZE * w < sz := by
    intro i hi w hw
    obtain ⟨w', hw', hlt, hmod⟩ := hpage i hi
    obtain rfl : w = w' := mul_inj (hw.symm.trans hw')
    obtain ⟨perm, pa, -, hleaf⟩ := h.entry hlt
    exact ⟨_, hleaf, by rw [hmod, h.walkaddr hlt hleaf]; rfl, hlt⟩
  have hinj : ∀ i ∈ pages 0 n, ∀ j ∈ pages 0 n, s.2.walkaddr ((ph.vaddr + i) % 2 ^ 64) =
      s.2.walkaddr ((ph.vaddr + j) % 2 ^ 64) → i = j := by
    intro i hi j hj heq
    obtain ⟨w, hw, -⟩ := hpage i hi
    obtain ⟨w', hw', -⟩ := hpage j hj
    obtain ⟨e, he, hpa, hlt⟩ := hentry i hi w hw
    obtain ⟨e', he', hpa', hlt'⟩ := hentry j hj w' hw'
    obtain rfl := h.apart w w' e e' hlt hlt' he he' (by rw [← hpa, ← hpa', heq])
    omega
  unfold loadseg at hrun
  rw [hn] at hrun
  obtain ⟨hfree, hothers, hdata⟩ := loadsegLoop_ok (nodup_pages 0 n) hinj hrun
  refine ⟨h.wf, by rw [hfree]; exact h.nodup, h.trapframe, hmax, h.stops, h.perm, ?_, h.apart⟩
  intro v perm hv hperm
  obtain ⟨pa, hleaf, hunused, hold⟩ := h.mapped v perm hv hperm
  refine ⟨pa, hleaf, by rw [hfree]; exact hunused, fun k hk => ?_⟩
  by_cases hin : ph.vaddr ≤ PGSIZE * v ∧ PGSIZE * v < ph.vaddr + n
  · -- the page is one of the segment, at offset `PGSIZE * v - ph.vaddr`
    have hi : PGSIZE * v - ph.vaddr ∈ pages 0 n := by
      rw [mem_pages]
      simp only [PGSIZE] at *
      omega
    have hadd : ph.vaddr + (PGSIZE * v - ph.vaddr) = PGSIZE * v := by omega
    obtain ⟨e, he, hpa, -⟩ := hentry _ hi v hadd
    rw [hleaf] at he
    cases he
    have hbyte := hdata _ hi k
    rw [hpa] at hbyte
    show m'.page ((perm.pte pa).pa) k = _
    rw [hbyte, Nat.mod_add_mod]
    by_cases hfills : ph.Fills (PGSIZE * v) k
    · have hk' : k < min (n - (PGSIZE * v - ph.vaddr)) PGSIZE := by
        have := hfills.2
        rw [hn] at this
        omega
      rw [if_pos hk', if_pos hfills]
      rfl
    · have hk' : ¬ k < min (n - (PGSIZE * v - ph.vaddr)) PGSIZE := by
        intro hlt
        refine hfills ⟨hin.1, ?_⟩
        rw [hn]
        omega
      rw [if_neg hk', if_neg hfills]
      exact hold k hk
  · have hne : ∀ i ∈ pages 0 n, s.2.walkaddr ((ph.vaddr + i) % 2 ^ 64) ≠ pa := by
      intro i hi heq
      obtain ⟨w, hw, -⟩ := hpage i hi
      obtain ⟨e, he, hpa, hlt⟩ := hentry i hi w hw
      obtain rfl := h.apart w v e _ hlt hv he hleaf (by rw [← hpa, heq]; rfl)
      obtain ⟨-, hlt', -⟩ := mem_pages.mp hi
      exact hin ⟨by omega, by omega⟩
    have hfills : ¬ ph.Fills (PGSIZE * v) k := by
      rintro ⟨hlow, hhigh⟩
      rw [hn] at hhigh
      exact hin ⟨hlow, by omega⟩
    rw [hothers pa hne, if_neg hfills]
    exact hold k hk

end EagerImage

section Loop

variable {f : File} {elf : Elfhdr} {phs : List Proghdr} {is : List ℕ} {sz sz' : ℕ} {s s' : Space}
  {r : Running}

abbrev eagerData (f : File) (phs : List Proghdr) : ℕ → Page := fun v => eagerByte f phs (PGSIZE * v)

theorem eagerByte_beyond {page k : ℕ}
    (h : ∀ ph ∈ phs, ph.vaddr + ph.filesz ≤ page) : eagerByte f phs page k = 0 := by
  induction phs using List.reverseRecOn with
  | nil => rfl
  | append_singleton phs ph ih =>
    have hph := h ph (List.mem_append_right _ (List.mem_singleton_self ph))
    have hfills : ¬ ph.Fills page k := by
      rintro ⟨-, hhigh⟩
      have := Nat.mod_le ph.filesz (2 ^ 32)
      omega
    rw [eagerByte_snoc, if_neg hfills]
    exact ih fun ph' hph' => h ph' (List.mem_append_left _ hph')

/-- What a successful step of the loop has done. -/
theorem loadSegments_cons {ondemand : Bool} {i : ℕ}
    (hrun : loadSegments r f elf ondemand (i :: is) sz s = .ok (true, sz', s')) :
    f.count (elf.off i) sizeofProghdr = sizeofProghdr ∧
    ((f.proghdr elf i).type ≠ ELF_PROG_LOAD ∧
        loadSegments r f elf ondemand is sz s = .ok (true, sz', s') ∨
      (f.proghdr elf i).type = ELF_PROG_LOAD ∧
        (f.proghdr elf i).filesz ≤ (f.proghdr elf i).memsz ∧
        (f.proghdr elf i).vaddr ≤ (f.proghdr elf i).stop ∧
        (f.proghdr elf i).vaddr % PGSIZE = 0 ∧ ∃ sz₁ s₁,
          loadSegments r f elf ondemand is sz₁ s₁ = .ok (true, sz', s') ∧
          if ondemand then sz₁ = max sz (f.proghdr elf i).stop ∧ s₁ = s
          else ∃ m, uvmalloc r sz (f.proghdr elf i).stop (flags2perm (f.proghdr elf i).flags) s =
              .ok (sz₁, m, s₁.2) ∧ sz₁ ≠ 0 ∧
            loadseg s₁.2 (f.proghdr elf i).vaddr f (f.proghdr elf i).off (f.proghdr elf i).filesz m =
              .ok (true, s₁.1)) := by
  unfold loadSegments at hrun
  simp only at hrun
  rw [show (readi f (elf.off i) sizeofProghdr fun _ => 0).1 = f.count (elf.off i) sizeofProghdr from
      rfl, show Proghdr.ofBytes (readi f (elf.off i) sizeofProghdr fun _ => 0).2 = f.proghdr elf i from
      rfl, show ((f.proghdr elf i).vaddr + (f.proghdr elf i).memsz) % 2 ^ 64 =
      (f.proghdr elf i).stop from rfl] at hrun
  generalize f.proghdr elf i = ph at hrun
  by_cases hcount : f.count (elf.off i) sizeofProghdr = sizeofProghdr
  swap
  · rw [if_pos hcount] at hrun
    cases hrun
  rw [if_neg (not_not.mpr hcount)] at hrun
  refine ⟨hcount, ?_⟩
  by_cases htype : ph.type = ELF_PROG_LOAD
  swap
  · rw [if_pos htype] at hrun
    exact Or.inl ⟨htype, hrun⟩
  rw [if_neg (not_not.mpr htype)] at hrun
  by_cases hsize : ph.memsz < ph.filesz
  · rw [if_pos hsize] at hrun
    cases hrun
  by_cases hwrap : ph.stop < ph.vaddr
  · rw [if_neg hsize, if_pos hwrap] at hrun
    cases hrun
  by_cases haligned : ph.vaddr % PGSIZE = 0
  swap
  · rw [if_neg hsize, if_neg hwrap, if_pos haligned] at hrun
    cases hrun
  rw [if_neg hsize, if_neg hwrap, if_neg (not_not.mpr haligned)] at hrun
  refine Or.inr ⟨htype, not_lt.mp hsize, not_lt.mp hwrap, haligned, ?_⟩
  cases ondemand with
  | true =>
    simp only [↓reduceIte] at hrun ⊢
    refine ⟨_, s, hrun, ?_, rfl⟩
    rw [max_def]
    split_ifs <;> omega
  | false =>
    simp only [Bool.false_eq_true, ↓reduceIte] at hrun ⊢
    obtain ⟨⟨sz₁, m₁, pt₁⟩, halloc, hrun⟩ := bind_ok_iff.mp hrun
    by_cases hzero : sz₁ = 0
    · rw [if_pos hzero] at hrun
      cases hrun
    · rw [if_neg hzero] at hrun
      obtain ⟨⟨loaded, m₂⟩, hload, hrun⟩ := bind_ok_iff.mp hrun
      cases loaded with
      | false => cases hrun
      | true => exact ⟨sz₁, (m₂, pt₁), hrun, m₁, halloc, hzero, hload⟩

/-- The loop of `exec` over the program headers makes the image that they describe. -/
theorem loadSegments_eager (h : EagerImage phs (eagerData f phs) sz s)
    (hfits : ∀ ph ∈ phs, ph.vaddr + ph.filesz ≤ ph.stop)
    (hrun : loadSegments r f elf false is sz s = .ok (true, sz', s')) :
    EagerImage (phs ++ f.segments elf is) (eagerData f (phs ++ f.segments elf is)) sz' s' ∧
      ∀ i ∈ is, f.count (elf.off i) sizeofProghdr = sizeofProghdr := by
  induction is generalizing phs sz s with
  | nil =>
    cases hrun
    rw [show f.segments elf [] = [] from rfl, List.append_nil]
    exact ⟨h, fun i hi => by cases hi⟩
  | cons i is ih =>
    rw [segments_cons]
    have hmemsz := @proghdr_memsz_lt f elf i
    obtain ⟨hcount, ⟨htype, hrun⟩ | ⟨htype, hsize, hwrap, haligned, sz₁, s₁, hrun, hstep⟩⟩ :=
      loadSegments_cons hrun
    · obtain ⟨H, hall⟩ := ih h hfits hrun
      rw [if_neg htype, List.nil_append]
      exact ⟨H, fun j hj => (List.mem_cons.mp hj).elim (fun hj => hj ▸ hcount) (hall j)⟩
    · rw [if_pos htype]
      generalize f.proghdr elf i = ph at *
      simp only [Bool.false_eq_true, ↓reduceIte] at hstep
      obtain ⟨m, halloc, hne, hload⟩ := hstep
      have hstop := ph.stop_eq hmemsz hwrap
      have hbeyond : ∀ v, sz ≤ PGSIZE * v → eagerData f phs v = fun _ => 0 := by
        intro v hv
        funext k
        exact eagerByte_beyond fun ph' hph' =>
          ((hfits ph' hph').trans (h.stops ph' hph')).trans hv
      obtain ⟨hgrown, hle, -⟩ := h.grow hbeyond halloc hne
      have hloaded := hgrown.load haligned (by omega) hload
      have hdata : (fun v k => if ph.Fills (PGSIZE * v) k then ph.byte f (PGSIZE * v) k
          else eagerData f phs v k) = eagerData f (phs ++ [ph]) := by
        funext v k
        exact eagerByte_snoc.symm
      rw [hdata] at hloaded
      have hfits' : ∀ ph' ∈ phs ++ [ph], ph'.vaddr + ph'.filesz ≤ ph'.stop := by
        intro ph' hph'
        rcases List.mem_append.mp hph' with hph' | hph'
        · exact hfits ph' hph'
        · rw [List.mem_singleton.mp hph', hstop]
          omega
      obtain ⟨H, hall⟩ := ih hloaded hfits' hrun
      rw [List.append_assoc] at H
      exact ⟨H, fun j hj => (List.mem_cons.mp hj).elim (fun hj => hj ▸ hcount) (hall j)⟩

end Loop

end AdvancedOperatingSystems.DemandPaging
