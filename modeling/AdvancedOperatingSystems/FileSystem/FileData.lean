import AdvancedOperatingSystems.FileSystem.BlockMap

/-!
# The data of a file

`writei` changes the bytes of one file and of no other, as far as blocks can be allocated and
the source can be read; `readi` gives the bytes that the file has.
-/

namespace AdvancedOperatingSystems.FileSystem

open Foundations Riscv DemandPaging StoreProgram

section Write

/-- `m` bytes from `src tot` on have been written at `off`, and `c` more have gone to the block
without being counted. -/
structure Written (sb : Superblock) (i : ℕ) (src : ℕ → Option Byte) (tot off n : ℕ)
    (s : Noted ℕ Block) (ip : Dinode) (m c : ℕ) (t : Noted ℕ Block) (ip' : Dinode) : Prop where
  isOpen : Open sb i t.mem ip'
  others : Others sb i s.mem t.mem
  same : ip' = { ip with addrs := ip'.addrs }
  whole : ∀ bn, BSIZE * bn < off + m → entry t.mem ip' (slotOf bn) ≠ 0
  kept : ∀ u < NSLOTS, entry s.mem ip u ≠ 0 → entry t.mem ip' u = entry s.mem ip u
  new : ∀ k, off ≤ k → k < off + m + c → byteAt t.mem ip' k = (src (tot + (k - off))).getD 0
  old : ∀ k < MAXFILE * BSIZE, ¬ (off ≤ k ∧ k < off + m + c) →
    entry s.mem ip (slotOf (k / BSIZE)) ≠ 0 → byteAt t.mem ip' k = byteAt s.mem ip k
  readable : ∀ j < m + c, (src (tot + j)).isSome
  done : m = n ∧ c = 0 ∨ m < n ∧ c = 0 ∧ Full sb t.mem ∨
    m + c < n ∧ src (tot + (m + c)) = none
  noted : NotedFor sb s t fun b => b = entry t.mem ip' NDIRECT ∨
    ∃ bn, off / BSIZE ≤ bn ∧ BSIZE * bn < off + n ∧ b = entry t.mem ip' (slotOf bn)
  silent : t.scribbles = s.scribbles ∨ ∃ j < n, src (tot + j) = none

variable {sb : Superblock} {i : ℕ} {src : ℕ → Option Byte} {tot off n m c : ℕ}
  {s t u : Noted ℕ Block} {ip ip' ip'' : Dinode}

theorem chunk_le (off n : ℕ) : chunk off n ≤ n := Nat.min_le_left _ _

theorem chunk_le_block (off n : ℕ) : off % BSIZE + chunk off n ≤ BSIZE := by
  have hlt := Nat.mod_lt off (by decide : 0 < BSIZE)
  have := Nat.min_le_right n (BSIZE - off % BSIZE)
  unfold chunk
  omega

theorem chunk_pos (off : ℕ) (hn : n ≠ 0) : 0 < chunk off n := by
  have hlt := Nat.mod_lt off (by decide : 0 < BSIZE)
  exact Nat.lt_min.mpr ⟨Nat.pos_of_ne_zero hn, by omega⟩

theorem div_eq_of_chunk (off k : ℕ) (hlow : off ≤ k) (hhigh : off % BSIZE + (k - off) < BSIZE) :
    k / BSIZE = off / BSIZE ∧ k % BSIZE = off % BSIZE + (k - off) := by
  simp only [BSIZE] at hhigh ⊢
  omega

theorem copied_spec (src : ℕ → Option Byte) (tot m : ℕ) : copied src tot m ≤ m ∧
    (∀ j < copied src tot m, (src (tot + j)).isSome) ∧
    (copied src tot m ≠ m → src (tot + copied src tot m) = none) := by
  unfold copied
  cases hfind : (List.range m).find? fun j => (src (tot + j)).isNone with
  | none =>
    rw [List.find?_eq_none] at hfind
    refine ⟨le_rfl, fun j hj => ?_, fun h => absurd rfl h⟩
    have hsome := hfind j (List.mem_range.mpr hj)
    revert hsome
    cases src (tot + j) <;> simp
  | some j =>
    rw [List.find?_range_eq_some] at hfind
    obtain ⟨hnone, hmem, hfirst⟩ := hfind
    refine ⟨Nat.le_of_lt (List.mem_range.mp hmem), fun l hl => ?_, fun _ => ?_⟩
    · simpa using hfirst l hl
    · exact Option.isNone_iff_eq_none.mp hnone

/-- One copy into the block that `bmap` has found. -/
theorem Grows.put (h : Grows sb i s.mem ip t.mem ip') (hoff : off / BSIZE < MAXFILE)
    (hne : entry t.mem ip' (slotOf (off / BSIZE)) ≠ 0) (hm : off % BSIZE + m ≤ BSIZE)
    {mem' : ℕ → Block}
    (hmem' : mem' = Function.update t.mem (entry t.mem ip' (slotOf (off / BSIZE)))
      (copyInto src tot (off % BSIZE) m (t.mem (entry t.mem ip' (slotOf (off / BSIZE)))))) :
    Open sb i mem' ip' ∧ Others sb i s.mem mem' ∧
      (∀ u, entry mem' ip' u = entry t.mem ip' u) ∧
      (∀ k, off ≤ k → k < off + m → byteAt mem' ip' k = (src (tot + (k - off))).getD 0) ∧
      ∀ k < MAXFILE * BSIZE, ¬ (off ≤ k ∧ k < off + m) →
        entry s.mem ip (slotOf (k / BSIZE)) ≠ 0 → byteAt mem' ip' k = byteAt s.mem ip k := by
  obtain ⟨hopen, hothers, hentry, -, hbyte⟩ := h.isOpen.write hoff hne
    (copyInto src tot (off % BSIZE) m (t.mem (entry t.mem ip' (slotOf (off / BSIZE)))))
  rw [← hmem'] at hopen hothers hentry hbyte
  refine ⟨hopen, h.others.trans hothers, hentry, fun k hlow hhigh => ?_, fun k hk hout hold => ?_⟩
  · obtain ⟨hdiv, hmod⟩ := div_eq_of_chunk off k hlow (by omega)
    have hk : k < MAXFILE * BSIZE := by
      rw [← hdiv, Nat.div_lt_iff_lt_mul (by decide)] at hoff
      exact hoff
    rw [hbyte k hk, if_pos hdiv, copyInto, hmod, if_pos (by omega), Nat.add_sub_cancel_left]
  · rw [hbyte k hk, ← h.blocks.byteAt_eq hk hold]
    split_ifs with hdiv
    · -- in the block, but not in the chunk
      rw [copyInto, if_neg, byteAt, hdiv]
      simp only [BSIZE] at hdiv hout ⊢
      omega
    · rfl

/-- A copy of a whole chunk. -/
theorem written_chunk
    (hwhole : ∀ bn, BSIZE * bn < off → entry s.mem ip (slotOf bn) ≠ 0)
    (h : Grows sb i s.mem ip t.mem ip') (hoff : off + n ≤ MAXFILE * BSIZE) (hn : n ≠ 0)
    (hne : entry t.mem ip' (slotOf (off / BSIZE)) ≠ 0)
    (hnoted : NotedFor sb s t
      (fun b => b = entry t.mem ip' NDIRECT ∨ b = entry t.mem ip' (slotOf (off / BSIZE))))
    (hscribbles : t.scribbles = s.scribbles)
    (hall : copied src tot (chunk off n) = chunk off n)
    (hu : u =
      { t with
        mem := Function.update t.mem (entry t.mem ip' (slotOf (off / BSIZE)))
          (copyInto src tot (off % BSIZE) (chunk off n)
            (t.mem (entry t.mem ip' (slotOf (off / BSIZE)))))
        notes := t.notes.insert (entry t.mem ip' (slotOf (off / BSIZE))) }) :
    Written sb i src tot off (chunk off n) s ip (chunk off n) 0 u ip' := by
  have hpos := chunk_pos off hn
  have hle := chunk_le off n
  have hdiv : off / BSIZE < MAXFILE := div_lt_maxfile (by omega)
  have hmem : u.mem = Function.update t.mem (entry t.mem ip' (slotOf (off / BSIZE)))
      (copyInto src tot (off % BSIZE) (chunk off n)
        (t.mem (entry t.mem ip' (slotOf (off / BSIZE))))) := by rw [hu]
  obtain ⟨hopen', hothers, hentry, hnew, hold⟩ := h.put hdiv hne (chunk_le_block off n) hmem
  have hspec := copied_spec src tot (chunk off n)
  rw [hall] at hspec
  refine ⟨hopen', hothers, h.same, fun bn hbn => ?_, fun v hv hvne => ?_, hnew, hold, hspec.2.1,
    Or.inl ⟨rfl, rfl⟩, fun b hb => ?_, Or.inl (by rw [hu]; exact hscribbles)⟩
  · rw [hentry]
    by_cases hlow : BSIZE * bn < off
    · have hlt : bn < MAXFILE := by
        simp only [MAXFILE, BSIZE, NDIRECT, NINDIRECT] at hoff hlow ⊢
        omega
      rw [h.kept _ (slotOf_lt hlt) (hwhole bn hlow)]
      exact hwhole bn hlow
    · have hblock := chunk_le_block off n
      have heq : bn = off / BSIZE := by
        simp only [BSIZE] at hlow hbn hblock ⊢
        omega
      rw [heq]
      exact hne
  · rw [hentry, h.kept v hv hvne]
  · rw [hu] at hb
    rcases List.mem_insert_iff.mp hb with rfl | hb
    · refine Or.inr (Or.inr ⟨Or.inr ⟨off / BSIZE, le_rfl, ?_, (hentry _).symm⟩, hne⟩)
      have := Nat.mul_div_le off BSIZE
      omega
    · rcases hnoted b hb with hb | hb | ⟨hb | hb, hb0⟩
      · exact Or.inl hb
      · exact Or.inr (Or.inl hb)
      · exact Or.inr (Or.inr ⟨Or.inl (hb.trans (hentry _).symm), hb0⟩)
      · refine Or.inr (Or.inr ⟨Or.inr ⟨off / BSIZE, le_rfl, ?_, hb.trans (hentry _).symm⟩, hb0⟩)
        have := Nat.mul_div_le off BSIZE
        omega

/-- Nothing has been written. -/
theorem written_none (hwhole : ∀ bn, BSIZE * bn < off → entry s.mem ip (slotOf bn) ≠ 0)
    (h : Grows sb i s.mem ip t.mem ip') (hoff : off ≤ MAXFILE * BSIZE)
    (hdone : n = 0 ∨ 0 < n ∧ Full sb t.mem)
    (hnoted : NotedFor sb s t fun b => b = entry t.mem ip' NDIRECT ∨
      ∃ bn, off / BSIZE ≤ bn ∧ BSIZE * bn < off + n ∧ b = entry t.mem ip' (slotOf bn))
    (hscribbles : t.scribbles = s.scribbles) :
    Written sb i src tot off n s ip 0 0 t ip' := by
  refine ⟨h.isOpen, h.others, h.same, fun bn hbn => ?_, h.kept, fun k hlow hhigh => ?_,
    fun k hk _ hne => h.blocks.byteAt_eq hk hne, fun j hj => ?_, ?_, hnoted, Or.inl hscribbles⟩
  · have hlt : bn < MAXFILE := by
      simp only [MAXFILE, BSIZE, NDIRECT, NINDIRECT] at hoff hbn ⊢
      omega
    rw [h.kept _ (slotOf_lt hlt) (hwhole bn hbn)]
    exact hwhole bn hbn
  · omega
  · omega
  · rcases hdone with rfl | ⟨hpos, hfull⟩
    · exact Or.inl ⟨rfl, rfl⟩
    · exact Or.inr (Or.inl ⟨hpos, rfl, hfull⟩)

/-- A copy that stops at a byte that cannot be read. -/
theorem written_short (hwhole : ∀ bn, BSIZE * bn < off → entry s.mem ip (slotOf bn) ≠ 0)
    (h : Grows sb i s.mem ip t.mem ip') (hoff : off + n ≤ MAXFILE * BSIZE)
    (hne : entry t.mem ip' (slotOf (off / BSIZE)) ≠ 0)
    (hnoted : NotedFor sb s t
      (fun b => b = entry t.mem ip' NDIRECT ∨ b = entry t.mem ip' (slotOf (off / BSIZE))))
    (hshort : copied src tot (chunk off n) ≠ chunk off n)
    (hu : u =
      { t with
        mem := Function.update t.mem (entry t.mem ip' (slotOf (off / BSIZE)))
          (copyInto src tot (off % BSIZE) (copied src tot (chunk off n))
            (t.mem (entry t.mem ip' (slotOf (off / BSIZE)))))
        scribbles := entry t.mem ip' (slotOf (off / BSIZE)) :: t.scribbles }) :
    Written sb i src tot off n s ip 0 (copied src tot (chunk off n)) u ip' := by
  obtain ⟨hcopied, hsome, hnone⟩ := copied_spec src tot (chunk off n)
  have hle := chunk_le off n
  have hblock := chunk_le_block off n
  have hlt : copied src tot (chunk off n) < n := by omega
  generalize copied src tot (chunk off n) = c at *
  have hmem : u.mem = Function.update t.mem (entry t.mem ip' (slotOf (off / BSIZE)))
      (copyInto src tot (off % BSIZE) c (t.mem (entry t.mem ip' (slotOf (off / BSIZE))))) := by
    rw [hu]
  obtain ⟨hopen, hothers, hentry, hnew, hold⟩ :=
    h.put (div_lt_maxfile (by omega)) hne (by omega) hmem
  refine ⟨hopen, hothers, h.same, fun bn hbn => ?_, fun v hv hvne => ?_, hnew, hold, ?_,
    Or.inr (Or.inr ⟨?_, ?_⟩), fun b hb => ?_, Or.inr ⟨c, hlt, hnone hshort⟩⟩
  · have hbn' : bn < MAXFILE := by
      simp only [MAXFILE, BSIZE, NDIRECT, NINDIRECT] at hoff hbn ⊢
      omega
    rw [hentry, h.kept _ (slotOf_lt hbn') (hwhole bn hbn)]
    exact hwhole bn hbn
  · rw [hentry, h.kept v hv hvne]
  · rwa [Nat.zero_add]
  · rwa [Nat.zero_add]
  · rw [Nat.zero_add]
    exact hnone hshort
  · rw [hu] at hb
    have hdiv := Nat.mul_div_le off BSIZE
    rcases hnoted b hb with hb | hb | ⟨hb | hb, hb0⟩
    · exact Or.inl hb
    · exact Or.inr (Or.inl hb)
    · exact Or.inr (Or.inr ⟨Or.inl (hb.trans (hentry _).symm), hb0⟩)
    · exact Or.inr (Or.inr
        ⟨Or.inr ⟨off / BSIZE, le_rfl, by omega, hb.trans (hentry _).symm⟩, hb0⟩)

/-- One chunk, and then the rest. -/
theorem Written.append {l : ℕ} (h : Written sb i src tot off l s ip l 0 t ip')
    (h' : Written sb i src (tot + l) (off + l) (n - l) t ip' m c u ip'') (hl : l ≤ n)
    (hoff : off + n ≤ MAXFILE * BSIZE) : Written sb i src tot off n s ip (l + m) c u ip'' := by
  have hbound : ∀ bn, BSIZE * bn < off + n → slotOf bn < NSLOTS := by
    intro bn hbn
    apply slotOf_lt
    simp only [MAXFILE, BSIZE, NDIRECT, NINDIRECT] at hoff hbn ⊢
    omega
  refine ⟨h'.isOpen, h.others.trans h'.others, ?_, ?_, fun v hv hne => ?_, fun k hlow hhigh => ?_,
    fun k hk hout hne => ?_, fun j hj => ?_, ?_, fun b hb => ?_, ?_⟩
  · have hsame := h'.same
    rw [h.same] at hsame
    exact hsame
  · rw [← Nat.add_assoc]
    exact h'.whole
  · have hkept := h.kept v hv hne
    rw [h'.kept v hv (by rw [hkept]; exact hne), hkept]
  · by_cases hfirst : k < off + l
    · have hne : entry t.mem ip' (slotOf (k / BSIZE)) ≠ 0 := by
        apply h.whole
        have := Nat.mul_div_le k BSIZE
        omega
      rw [h'.old k (by omega) (by omega) hne]
      exact h.new k hlow (by omega)
    · rw [h'.new k (by omega) (by omega)]
      congr 2
      omega
  · have hkept := h.kept _ (slotOf_lt (div_lt_maxfile hk)) hne
    rw [h'.old k hk (by omega) (by rw [hkept]; exact hne), h.old k hk (by omega) hne]
  · by_cases hfirst : j < l
    · exact h.readable j (by omega)
    · have hread := h'.readable (j - l) (by omega)
      have hsum : tot + l + (j - l) = tot + j := by omega
      rwa [hsum] at hread
  · rcases h'.done with ⟨hm, hc⟩ | ⟨hm, hc, hfull⟩ | ⟨hm, hnone⟩
    · exact Or.inl ⟨by omega, hc⟩
    · exact Or.inr (Or.inl ⟨by omega, hc, hfull⟩)
    · refine Or.inr (Or.inr ⟨by omega, ?_⟩)
      have hsum : tot + (l + m + c) = tot + l + (m + c) := by omega
      rw [hsum]
      exact hnone
  · rcases h'.noted b hb with hb | hb | ⟨hb | ⟨bn, hlow, hhigh, hb⟩, hb0⟩
    · rcases h.noted b hb with hb | hb | ⟨hb | ⟨bn, hlow, hhigh, hb⟩, hb0⟩
      · exact Or.inl hb
      · exact Or.inr (Or.inl hb)
      · refine Or.inr (Or.inr ⟨Or.inl ?_, hb0⟩)
        rw [h'.kept NDIRECT (by decide) (hb ▸ hb0)]
        exact hb
      · refine Or.inr (Or.inr ⟨Or.inr ⟨bn, hlow, by omega, ?_⟩, hb0⟩)
        rw [h'.kept _ (hbound bn (by omega)) (hb ▸ hb0)]
        exact hb
    · exact Or.inr (Or.inl hb)
    · exact Or.inr (Or.inr ⟨Or.inl hb, hb0⟩)
    · have hdiv : off / BSIZE ≤ (off + l) / BSIZE := Nat.div_le_div_right (Nat.le_add_right _ _)
      exact Or.inr (Or.inr ⟨Or.inr ⟨bn, by omega, by omega, hb⟩, hb0⟩)
  · rcases h'.silent with hsilent | ⟨j, hj, hnone⟩
    · rcases h.silent with hsilent' | ⟨j, hj, hnone⟩
      · exact Or.inl (hsilent.trans hsilent')
      · exact Or.inr ⟨j, by omega, hnone⟩
    · refine Or.inr ⟨l + j, by omega, ?_⟩
      rwa [← Nat.add_assoc]

/-- The loop of `writei`. -/
theorem writeiLoop_ends {fuel : ℕ} (hfuel : n ≤ fuel) (hoff : off + n ≤ MAXFILE * BSIZE)
    (hopen : Open sb i s.mem ip)
    (hwhole : ∀ bn, BSIZE * bn < off → entry s.mem ip (slotOf bn) ≠ 0) :
    Ends (writeiLoop sb src fuel tot off n ip) s fun r t =>
      ∃ m c, r.1 = tot + m ∧ Written sb i src tot off n s ip m c t r.2 := by
  induction fuel generalizing tot off n s ip with
  | zero =>
    rw [writeiLoop, ends_pure]
    exact ⟨0, 0, rfl, written_none hwhole (.refl hopen) (by omega) (Or.inl (by omega)) .refl rfl⟩
  | succ fuel ih =>
    rw [writeiLoop]
    by_cases hn : n = 0
    · rw [if_pos hn, ends_pure]
      exact ⟨0, 0, rfl, written_none hwhole (.refl hopen) (by omega) (Or.inl hn) .refl rfl⟩
    · rw [if_neg hn, ends_bind]
      apply (bmap_ends hopen (div_lt_maxfile (by omega) : off / BSIZE < MAXFILE)).mono
      rintro ⟨addr, ip₁⟩ t ⟨hgrows, haddr, hfull, hnoted, hscribbles, -⟩
      dsimp only at hgrows haddr hfull hnoted hscribbles ⊢
      by_cases hzero : addr = 0
      · rw [if_pos hzero, ends_pure]
        refine ⟨0, 0, rfl, written_none hwhole hgrows (by omega)
          (Or.inr ⟨Nat.pos_of_ne_zero hn, hfull hzero⟩) (fun b hb => ?_) hscribbles⟩
        rcases hnoted b hb with hb | hb | ⟨hb | hb, hb0⟩
        · exact Or.inl hb
        · exact Or.inr (Or.inl hb)
        · exact Or.inr (Or.inr ⟨Or.inl hb, hb0⟩)
        · exact absurd (hb.trans (haddr.symm.trans hzero)) hb0
      · rw [if_neg hzero, haddr]
        have hne := haddr ▸ hzero
        by_cases hall : copied src tot (chunk off n) = chunk off n
        · have hchunk := written_chunk (u := _) hwhole hgrows hoff hn hne hnoted hscribbles hall rfl
          have hle := chunk_le off n
          have hpos := chunk_pos off hn
          rw [if_pos hall, ends_bind, ends_modify]
          apply (ih (by omega) (by omega) hchunk.isOpen hchunk.whole).mono
          rintro r u ⟨m, c, hr, hrest⟩
          exact ⟨chunk off n + m, c, by rw [hr, Nat.add_assoc], hchunk.append hrest hle hoff⟩
        · rw [if_neg hall, ends_bind, ends_modifySilently, ends_pure]
          exact ⟨0, _, rfl, written_short hwhole hgrows hoff hne hnoted hall rfl⟩

/-- The bytes at an offset are replaced, and the list grows as far as they go. -/
def overwrite (bs : List Byte) (off : ℕ) (new : List Byte) : List Byte :=
  bs.take off ++ new ++ bs.drop (off + new.length)

/-- What `writei` leaves: `m` bytes are written. `c` more were copied before the copy failed, and
are in the file as far as its size goes. -/
structure Wrote (sb : Superblock) (i : ℕ) (src : ℕ → Option Byte) (off n : ℕ) (s : Noted ℕ Block)
    (ip : Dinode) (m c : ℕ) (t : Noted ℕ Block) (ip' : Dinode) : Prop where
  volume : Volume sb t.mem
  stored : sb.inode t.mem i = ip'
  others : Others sb i s.mem t.mem
  same : ip' = { ip with addrs := ip'.addrs, size := max ip.size (off + m) }
  bytes : ip'.bytes t.mem =
    (overwrite (ip.bytes s.mem) off ((List.range (m + c)).map fun j => (src j).getD 0)).take
      (max ip.size (off + m))
  readable : ∀ j < m + c, (src j).isSome
  done : m = n ∧ c = 0 ∨ m < n ∧ c = 0 ∧ Full sb t.mem ∨ m + c < n ∧ src (m + c) = none
  noted : ∀ b ∈ t.notes, b ∈ s.notes ∨ b = sb.iblock i ∨ (∃ c < sb.size, b = sb.bblock c) ∨
    b = entry t.mem ip' NDIRECT ∨
    ∃ bn, off / BSIZE ≤ bn ∧ BSIZE * bn < off + n ∧ b = entry t.mem ip' (slotOf bn)
  silent : t.scribbles = s.scribbles ∨ ∃ j < n, src j = none

theorem length_bytes (ip : Dinode) (mem : ℕ → Block) : (ip.bytes mem).length = ip.size := by
  rw [Dinode.bytes, List.length_map, List.length_range]

/-- The bytes of the file after the loop of `writei`. -/
theorem Written.bytes (h : Written sb i src 0 off n s ip m c t ip') (hopen : Open sb i s.mem ip)
    (hoff : off ≤ ip.size) :
    Dinode.bytes { ip' with size := max ip.size (off + m) } t.mem =
      (overwrite (ip.bytes s.mem) off ((List.range (m + c)).map fun j => (src j).getD 0)).take
        (max ip.size (off + m)) := by
  have hbound := hopen.consistent.bounded i hopen.lt
  rw [Function.update_self] at hbound
  have hbytes : ∀ k < ip.size, k < (ip.bytes s.mem).length := fun k hk => by rwa [length_bytes]
  have hold : ∀ k < ip.size, ¬ (off ≤ k ∧ k < off + m + c) →
      byteAt t.mem ip' k = byteAt s.mem ip k := fun k hk hout =>
    h.old k (by omega) hout (hopen.block_ne_zero hk).2
  have hlen := length_bytes ip s.mem
  apply List.ext_getElem
  · rw [length_bytes, overwrite]
    simp only [List.length_take, List.length_append, List.length_drop, List.length_map,
      List.length_range, hlen]
    omega
  · intro k hk hk'
    have hkmax : k < max ip.size (off + m) := by rwa [length_bytes] at hk
    have hbyte : (Dinode.bytes { ip' with size := max ip.size (off + m) } t.mem)[k] =
        byteAt t.mem ip' k := by
      simp only [Dinode.bytes, List.getElem_map, List.getElem_range]
      rfl
    rw [hbyte, List.getElem_take]
    unfold overwrite
    by_cases hlow : k < off
    · rw [List.getElem_append_left (by simp; omega), List.getElem_append_left (by simp; omega),
        List.getElem_take, hold k (by omega) (by omega)]
      simp [Dinode.bytes]
    · by_cases hmid : k < off + m + c
      · rw [List.getElem_append_left (by simp; omega), List.getElem_append_right (by simp; omega),
          h.new k (by omega) hmid, List.getElem_map, List.getElem_range]
        simp only [List.length_take, hlen, Nat.zero_add, Nat.min_eq_left hoff]
      · have hin : k < ip.size := by
          rcases Nat.lt_or_ge k ip.size with hin | hout
          · exact hin
          · omega
        rw [List.getElem_append_right (by simp; omega), List.getElem_drop,
          hold k hin (by omega)]
        simp only [Dinode.bytes, List.getElem_map, List.getElem_range, List.length_append,
          List.length_take, List.length_map, List.length_range, Nat.min_eq_left hoff]
        congr 1
        omega

/-- `writei` fails and changes nothing, or it writes what it can into the file. -/
theorem writei_ends (hopen : Open sb i s.mem ip) :
    Ends (writei sb i ip src off n) s fun r t =>
      (r.1 = none ∧ r.2 = ip ∧ t = s ∧ (ip.size < off ∨ MAXFILE * BSIZE < off + n)) ∨
      ∃ m c, r.1 = some m ∧ off ≤ ip.size ∧ off + n ≤ MAXFILE * BSIZE ∧
        Wrote sb i src off n s ip m c t r.2 := by
  unfold writei
  by_cases hbeyond : off > ip.size ∨ (off + n) % 2 ^ 32 < off
  · rw [if_pos hbeyond, ends_pure]
    refine Or.inl ⟨rfl, rfl, rfl, ?_⟩
    rcases hbeyond with hbeyond | hwrap
    · exact Or.inl hbeyond
    · right
      by_contra hle
      rw [Nat.mod_eq_of_lt] at hwrap
      · omega
      · simp only [MAXFILE, BSIZE, NDIRECT, NINDIRECT] at hle
        omega
  · rw [if_neg hbeyond]
    have hoff : off ≤ ip.size := by omega
    by_cases hlarge : off + n > MAXFILE * BSIZE
    · rw [if_pos hlarge, ends_pure]
      exact Or.inl ⟨rfl, rfl, rfl, Or.inr hlarge⟩
    · rw [if_neg hlarge, ends_bind]
      have hbefore : ∀ bn, BSIZE * bn < off → entry s.mem ip (slotOf bn) ≠ 0 := by
        intro bn hbn
        have := hopen.consistent.whole i hopen.lt bn
        rw [Function.update_self] at this
        exact this (by omega)
      apply (writeiLoop_ends le_rfl (by omega) hopen hbefore).mono
      rintro ⟨tot, ip'⟩ t ⟨m, c, htot, h⟩
      rw [Nat.zero_add] at htot
      dsimp only at htot h ⊢
      subst htot
      have hsize : (if off + tot > ip'.size then { ip' with size := off + tot } else ip') =
          { ip' with size := max ip.size (off + tot) } := by
        have hsame := h.same
        have heq : ip'.size = ip.size := by rw [hsame]
        split_ifs with hgrow
        · rw [Nat.max_eq_right (by omega)]
        · rw [Nat.max_eq_left (by omega), ← heq]
      rw [hsize]
      have hle : tot ≤ n := by
        rcases h.done with ⟨hm, -⟩ | ⟨hm, -⟩ | ⟨hm, -⟩ <;> omega
      have hbound := hopen.consistent.bounded i hopen.lt
      rw [Function.update_self] at hbound
      have hopen' := h.isOpen.resize (max ip.size (off + tot)) (by omega) (by
        intro bn hbn
        rcases Nat.lt_or_ge (BSIZE * bn) (off + tot) with hlt | hge
        · exact h.whole bn hlt
        · have hbn' : BSIZE * bn < ip.size := by omega
          have := hopen.consistent.whole i hopen.lt bn
          have hlt := hopen.consistent.lt_maxfile hopen.lt bn
          rw [Function.update_self] at this hlt
          rw [h.kept _ (slotOf_lt (hlt hbn')) (this hbn')]
          exact this hbn')
      obtain ⟨hvolume, hothers, hentry, hused, hbytes⟩ := hopen'.close
      rw [ends_bind]
      apply iupdate_ends
      rw [ends_pure]
      refine Or.inr ⟨tot, c, rfl, hoff, by omega, hvolume, ?_, h.others.trans hothers, ?_, ?_, ?_,
        ?_, ?_, ?_⟩
      · rw [sb.inode_stored hopen'.fits, Function.update_self]
      · have hsame := h.same
        dsimp only
        conv_lhs => rw [hsame]
      · rw [hbytes]
        exact h.bytes hopen hoff
      · simpa using h.readable
      · rcases h.done with hdone | ⟨hlt, hc, hfull⟩ | ⟨hlt, hnone⟩
        · exact Or.inl hdone
        · refine Or.inr (Or.inl ⟨hlt, hc, fun b hb => ?_⟩)
          rw [hused b hb]
          exact hfull b hb
        · rw [Nat.zero_add] at hnone
          exact Or.inr (Or.inr ⟨hlt, hnone⟩)
      · intro b hb
        dsimp only at hb ⊢
        rcases List.mem_insert_iff.mp hb with rfl | hb
        · exact Or.inr (Or.inl rfl)
        · rw [hentry]
          rcases h.noted b hb with hb | hb | ⟨hb | ⟨bn, hlow, hhigh, hb⟩, -⟩
          · exact Or.inl hb
          · exact Or.inr (Or.inr (Or.inl hb))
          · exact Or.inr (Or.inr (Or.inr (Or.inl hb)))
          · refine Or.inr (Or.inr (Or.inr (Or.inr ⟨bn, hlow, hhigh, ?_⟩)))
            rw [hentry]
            exact hb
      · simpa using h.silent

end Write

section Read

variable {sb : Superblock} {i : ℕ} {s : Noted ℕ Block} {ip : Dinode}

/-- The loop of `readi` within a file: nothing is allocated. -/
theorem readiLoop_ends (dst : ℕ → Bool) {fuel tot off n : ℕ} (hfuel : n ≤ fuel)
    (hsize : off + n ≤ ip.size) (hopen : Open sb i s.mem ip) :
    Ends (readiLoop sb dst fuel tot off n ip) s fun r t => t = s ∧ r.2 = ip ∧
      r.1 = if ∀ j < n, dst (tot + j) = true then
        some ((List.range n).map fun j => byteAt s.mem ip (off + j)) else none := by
  induction fuel generalizing tot off n with
  | zero =>
    obtain rfl : n = 0 := by omega
    rw [readiLoop, ends_pure]
    exact ⟨rfl, rfl, by simp⟩
  | succ fuel ih =>
    rw [readiLoop]
    by_cases hn : n = 0
    · subst hn
      rw [if_pos rfl, ends_pure]
      exact ⟨rfl, rfl, by simp⟩
    · have hpos := chunk_pos off hn
      have hle := chunk_le off n
      have hblock := chunk_le_block off n
      obtain ⟨hlt, hne⟩ := hopen.block_ne_zero (k := off) (by omega)
      rw [if_neg hn, ends_bind]
      apply (bmap_ends hopen hlt).mono
      rintro ⟨addr, ip₁⟩ t ⟨-, haddr, -, -, -, hsame⟩
      obtain ⟨rfl, rfl⟩ := hsame hne
      dsimp only at haddr ⊢
      rw [if_neg (haddr ▸ hne), ends_bind, ends_get]
      have hchunk : ((List.range (chunk off n)).map fun j => t.mem addr (off % BSIZE + j)) =
          (List.range (chunk off n)).map fun j => byteAt t.mem ip₁ (off + j) := by
        apply List.map_congr_left
        intro j hj
        have hj := List.mem_range.mp hj
        obtain ⟨hdiv, hmod⟩ := div_eq_of_chunk off (off + j) (Nat.le_add_right _ _)
          (by omega)
        rw [byteAt, hdiv, hmod, haddr, Nat.add_sub_cancel_left]
      rw [hchunk]
      by_cases hall : ((List.range (chunk off n)).all fun j => dst (tot + j)) = true
      · rw [if_pos hall, ends_bind]
        rw [List.all_eq_true] at hall
        apply (ih (by omega) (by omega)).mono
        rintro ⟨rest, ip₂⟩ u ⟨rfl, rfl, hrest⟩
        dsimp only at hrest ⊢
        rw [ends_pure]
        refine ⟨rfl, rfl, ?_⟩
        rw [hrest]
        have hiff : (∀ j < n - chunk off n, dst (tot + chunk off n + j) = true) ↔
            ∀ j < n, dst (tot + j) = true := by
          constructor
          · intro h j hj
            by_cases hfirst : j < chunk off n
            · exact hall j (List.mem_range.mpr hfirst)
            · have := h (j - chunk off n) (by omega)
              have hsum : tot + chunk off n + (j - chunk off n) = tot + j := by omega
              rwa [hsum] at this
          · intro h j hj
            rw [Nat.add_assoc]
            exact h _ (by omega)
        by_cases hdst : ∀ j < n, dst (tot + j) = true
        · rw [if_pos (hiff.mpr hdst), if_pos hdst, Option.map_some]
          have hsplit : n = chunk off n + (n - chunk off n) := by omega
          conv_rhs => rw [hsplit, List.range_add, List.map_append, List.map_map]
          simp only [Function.comp_def, Nat.add_assoc]
        · rw [if_neg fun h => hdst (hiff.mp h), if_neg hdst, Option.map_none]
      · rw [if_neg hall, ends_pure, if_neg]
        · exact ⟨rfl, rfl, rfl⟩
        · intro hdst
          apply hall
          rw [List.all_eq_true]
          intro j hj
          exact hdst j (Nat.lt_of_lt_of_le (List.mem_range.mp hj) hle)

/-- `readi` gives the bytes of the file from an offset on, and changes nothing. -/
theorem readi_ends (hopen : Open sb i s.mem ip) (dst : ℕ → Bool) {off n : ℕ}
    (hfits : off + n < 2 ^ 32) :
    Ends (readi sb ip dst off n) s fun r t => t = s ∧ r.2 = ip ∧
      r.1 = if ∀ j < ((ip.bytes s.mem).drop off).length, j < n → dst j = true then
        some (((ip.bytes s.mem).drop off).take n) else none := by
  have hlen : (ip.bytes s.mem).length = ip.size := by simp [Dinode.bytes]
  have hmod : (off + n) % 2 ^ 32 = off + n := Nat.mod_eq_of_lt hfits
  unfold readi
  by_cases hbeyond : off > ip.size
  · rw [if_pos (Or.inl hbeyond), ends_pure]
    have hnil : (ip.bytes s.mem).drop off = [] := List.drop_of_length_le (by omega)
    rw [hnil]
    exact ⟨rfl, rfl, by simp⟩
  · rw [if_neg (by omega)]
    dsimp only
    have hcount : ((ip.bytes s.mem).drop off).length = ip.size - off := by
      rw [List.length_drop, hlen]
    have htake : ∀ m, off + m ≤ ip.size → m = min n (ip.size - off) →
        ((List.range m).map fun j => byteAt s.mem ip (off + j)) =
          ((ip.bytes s.mem).drop off).take n := by
      intro m hm hmin
      apply List.ext_getElem
      · rw [List.length_map, List.length_range, List.length_take, hcount, hmin]
      · intro j hj hj'
        simp [Dinode.bytes]
    have hmin : (if off + n > ip.size then ip.size - off else n) = min n (ip.size - off) := by
      split_ifs <;> omega
    rw [hmin]
    apply (readiLoop_ends dst (by omega) (by omega) hopen).mono
    rintro r t ⟨rfl, hip, hr⟩
    refine ⟨rfl, hip, ?_⟩
    rw [hr, htake _ (by omega) rfl, hcount]
    simp only [Nat.zero_add]
    apply if_congr _ rfl rfl
    constructor
    · intro h j hj hjn
      exact h j (by omega)
    · intro h j hj
      exact h j (by omega) (by omega)

end Read

end AdvancedOperatingSystems.FileSystem
