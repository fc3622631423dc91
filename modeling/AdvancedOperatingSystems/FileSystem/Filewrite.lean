import AdvancedOperatingSystems.FileSystem.Files
import AdvancedOperatingSystems.FileSystem.Bio

/-!
# Writing to an open file

`filewrite` writes in chunks, each in a transaction of its own, so that a transaction does not
need more of the log than `begin_op` reserves. Together the chunks write what one call of
`writei` would.
-/

namespace AdvancedOperatingSystems.FileSystem

open Foundations Riscv DemandPaging StoreProgram

/-- `max` of `filewrite`. -/
abbrev maxWrite : ℕ := (MAXOPBLOCKS - 1 - 1 - 2) / 2 * BSIZE

/-- What `filewrite` leaves: `i`, `f->off`, the blocks, and what each transaction has logged. -/
structure FileWriting where
  i : ℕ
  off : ℕ
  mem : ℕ → Block
  logs : List (List ℕ)

section Definitions

variable (sb : Superblock) (inum : ℕ)

/-- One transaction of `filewrite`. -/
def writeChunk (src : ℕ → Option Byte) (off n : ℕ) : FsProgram (Option ℕ) := do
  let ip ← ilock sb inum
  let r ← writei sb inum ip src off n
  return r.1

/-- The loop of `filewrite`, for an inode. The first argument bounds the iterations. -/
def filewriteLoop (src : ℕ → Option Byte) (n : ℕ) :
    ℕ → ℕ → ℕ → (ℕ → Block) → Except Panic FileWriting
  | 0, i, off, mem => .ok ⟨i, off, mem, []⟩
  | fuel + 1, i, off, mem =>
      if i < n then do
        let n1 := min (n - i) maxWrite
        let r ← (writeChunk sb inum (fun j => src (i + j)) off n1).run ⟨mem, [], []⟩
        if r.1 = some n1 then do
          let w ← filewriteLoop src n fuel (i + n1) (off + n1) r.2.mem
          return { w with logs := r.2.notes :: w.logs }
        else return ⟨i, off + r.1.getD 0, r.2.mem, [r.2.notes]⟩
      else .ok ⟨i, off, mem, []⟩

/-- `filewrite` of `n` bytes at `off`, for an inode. -/
def filewrite (src : ℕ → Option Byte) (off n : ℕ) (mem : ℕ → Block) : Except Panic FileWriting :=
  filewriteLoop sb inum src n n 0 off mem

/-- The value that `filewrite` returns. -/
def FileWriting.ret (n : ℕ) (w : FileWriting) : ℤ := if w.i = n then n else -1

end Definitions

theorem overwrite_nil (bs : List Byte) (off : ℕ) : overwrite bs off [] = bs := by
  simp [overwrite]

theorem overwrite_append {bs new new' : List Byte} {off : ℕ} (h : off ≤ bs.length) :
    overwrite (overwrite bs off new) (off + new.length) new' = overwrite bs off (new ++ new') := by
  have hlen : (bs.take off ++ new).length = off + new.length := by
    rw [List.length_append, List.length_take, Nat.min_eq_left h]
  have htake : (overwrite bs off new).take (off + new.length) = bs.take off ++ new := by
    unfold overwrite
    rw [← hlen, List.take_left]
  have hdrop : (overwrite bs off new).drop (off + new.length + new'.length) =
      bs.drop (off + (new ++ new').length) := by
    unfold overwrite
    rw [← hlen, ← List.drop_drop, List.drop_left, List.drop_drop, hlen, List.length_append,
      Nat.add_assoc]
  conv_lhs => rw [overwrite, htake, hdrop]
  unfold overwrite
  simp only [List.append_assoc]

section Chunks

variable {sb : Superblock} {i : Fin sb.ninodes} {src : ℕ → Option Byte} {off n : ℕ}

/-- `n` bytes were to be written at an offset of one file, and `m` of them were. -/
structure Advanced (sb : Superblock) (i : Fin sb.ninodes) (src : ℕ → Option Byte) (off n : ℕ)
    (mem : ℕ → Block) (m : ℕ) (mem' : ℕ → Block) : Prop where
  volume : Volume sb mem'
  le : m ≤ n
  files : ∃ bs,
    sb.files mem' = Function.update (sb.files mem) i { sb.files mem i with bytes := bs } ∧
    ((∀ j < n, (src j).isSome) →
      bs = overwrite (sb.files mem i).bytes off ((List.range m).map fun j => (src j).getD 0))

variable {mem mem' mem'' : ℕ → Block} {m : ℕ}

theorem Advanced.none (h : Volume sb mem) : Advanced sb i src off n mem 0 mem := by
  refine ⟨h, Nat.zero_le n, (sb.files mem i).bytes, ?_, fun _ => ?_⟩
  · rw [Function.update_eq_self]
  · rw [List.range_zero, List.map_nil, overwrite_nil]

theorem Advanced.shorten {l : ℕ} (h : Advanced sb i src off l mem m mem') (hl : l ≤ n) :
    Advanced sb i src off n mem m mem' := by
  obtain ⟨bs, hfiles, hbytes⟩ := h.files
  exact ⟨h.volume, Nat.le_trans h.le hl, bs, hfiles,
    fun hread => hbytes fun j hj => hread j (Nat.lt_of_lt_of_le hj hl)⟩

/-- A chunk that went through, and then the rest. -/
theorem Advanced.append {l : ℕ} (h : Advanced sb i src off l mem l mem')
    (h' : Advanced sb i (fun j => src (l + j)) (off + l) (n - l) mem' m mem'') (hl : l ≤ n)
    (hoff : off ≤ (sb.files mem i).bytes.length) :
    Advanced sb i src off n mem (l + m) mem'' := by
  obtain ⟨bs, hfiles, hbytes⟩ := h.files
  obtain ⟨bs', hfiles', hbytes'⟩ := h'.files
  have hle := h'.le
  have hself : sb.files mem' i = { sb.files mem i with bytes := bs } := by
    rw [hfiles, Function.update_self]
  refine ⟨h'.volume, by omega, bs', ?_, fun hread => ?_⟩
  · rw [hfiles', hself, hfiles, Function.update_idem]
  · have hnew := hbytes' fun j hj => hread (l + j) (by omega)
    have hold := hbytes fun j hj => hread j (by omega)
    have hlen : ((List.range l).map fun j => (src j).getD 0).length = l := by
      rw [List.length_map, List.length_range]
    rw [hself] at hnew
    dsimp only at hnew
    rw [hnew, hold, List.range_add, List.map_append, List.map_map, ← overwrite_append hoff, hlen]
    rfl

/-- Where a chunk of `filewrite` can be noted. -/
theorem chunk_places {t : Noted ℕ Block} {ip : Dinode} (hsize : sb.size ≤ BPB) (hn : n ≤ maxWrite)
    (hnoted : ∀ b ∈ t.notes, b = sb.iblock i ∨ (∃ c < sb.size, b = sb.bblock c) ∨
      b = entry t.mem ip NDIRECT ∨
      ∃ bn, off / BSIZE ≤ bn ∧ BSIZE * bn < off + n ∧ b = entry t.mem ip (slotOf bn)) :
    ∃ l : List ℕ, l.length ≤ 7 ∧ ∀ b ∈ t.notes, b ∈ l := by
  refine ⟨sb.iblock i :: sb.bblock 0 :: entry t.mem ip NDIRECT ::
    (List.range 4).map fun k => entry t.mem ip (slotOf (off / BSIZE + k)), by simp, fun b hb => ?_⟩
  simp only [List.mem_cons, List.mem_map, List.mem_range]
  rcases hnoted b hb with rfl | ⟨c, hc, rfl⟩ | rfl | ⟨bn, hlow, hhigh, rfl⟩
  · exact Or.inl rfl
  · -- there is one block of bitmap
    have hzero : sb.bblock c = sb.bblock 0 := by
      unfold Superblock.bblock
      rw [Nat.div_eq_of_lt (Nat.lt_of_lt_of_le hc hsize), Nat.zero_div]
    exact Or.inr (Or.inl hzero)
  · exact Or.inr (Or.inr (Or.inl rfl))
  · refine Or.inr (Or.inr (Or.inr ⟨bn - off / BSIZE, ?_, ?_⟩))
    · simp only [maxWrite, MAXOPBLOCKS, BSIZE] at hn hlow hhigh ⊢
      omega
    · rw [Nat.add_sub_cancel' hlow]

/-- What one transaction of `filewrite` leaves, and how much it logs: the block of the inode, the
bitmap, the indirect block and at most four blocks of the file. -/
theorem writeChunk_ends (src : ℕ → Option Byte) (off : ℕ) (h : Volume sb mem)
    (hlive : (sb.files mem i).type ≠ 0) (hsize : sb.size ≤ BPB) (hn : n ≤ maxWrite) :
    Ends (writeChunk sb i src off n) ⟨mem, [], []⟩ fun r t =>
      (Advanced sb i src off n mem (r.getD 0) t.mem ∧
        (r.isSome → off ≤ (sb.files mem i).bytes.length) ∧
        ((∀ j < n, (src j).isSome) → t.scribbles = [])) ∧ t.notes.length ≤ 7 := by
  have hlength : (sb.files mem i).bytes.length = (sb.inode mem i).size := length_bytes _ _
  have hends : Ends (writeChunk sb i src off n) ⟨mem, [], []⟩ fun r t =>
      (Advanced sb i src off n mem (r.getD 0) t.mem ∧
        (r.isSome → off ≤ (sb.files mem i).bytes.length) ∧
        ((∀ j < n, (src j).isSome) → t.scribbles = [])) ∧
      ∃ ip : Dinode, ∀ b ∈ t.notes, b = sb.iblock i ∨ (∃ c < sb.size, b = sb.bblock c) ∨
        b = entry t.mem ip NDIRECT ∨
        ∃ bn, off / BSIZE ≤ bn ∧ BSIZE * bn < off + n ∧ b = entry t.mem ip (slotOf bn) := by
    have hlive' : (sb.inode (⟨mem, [], []⟩ : Noted ℕ Block).mem i).type ≠ 0 := hlive
    apply ilock_bind_ends hlive'
    refine (writei_ends (h.locked i.isLt hlive)).bind ?_
    rintro r t (⟨hr, -, rfl, -⟩ | ⟨m, c, hr, hoff, -, hw⟩)
    · rw [ends_pure, hr]
      exact ⟨⟨.none h, (fun hsome => by cases hsome), fun _ => rfl⟩, sb.inode mem i,
        fun b hb => by cases hb⟩
    · rw [ends_pure, hr]
      have hm : m ≤ n := by
        rcases hw.done with ⟨hm, -⟩ | ⟨hm, -⟩ | ⟨hm, -⟩ <;> omega
      refine ⟨⟨⟨hw.volume, hm, r.2.bytes t.mem, ?_, fun hread => ?_⟩, fun _ => by rwa [hlength],
        fun hread => hw.silent.resolve_right ?_⟩,
        r.2, fun b hb => (hw.noted b hb).resolve_left List.not_mem_nil⟩
      · rw [sb.files_update hw.others hw.stored]
        have hsame := hw.same
        congr 1
        unfold Superblock.fileOf
        rw [hsame]
        rfl
      · have hc : c = 0 := by
          rcases hw.done with ⟨-, hc⟩ | ⟨-, hc, -⟩ | ⟨hlt, hnone⟩
          · exact hc
          · exact hc
          · have := hread _ hlt
            rw [hnone] at this
            cases this
        subst hc
        rw [hw.bytes, Nat.add_zero, List.take_of_length_le]
        · rfl
        · rw [length_overwrite (by rwa [length_bytes]), length_bytes, List.length_map,
            List.length_range]
      · rintro ⟨j, hj, hnone⟩
        have := hread j hj
        rw [hnone] at this
        cases this
  apply (hends.length_notes List.nodup_nil fun r t hpost => ?_).mono
  · rintro r t ⟨⟨hadvanced, -⟩, hlogged⟩
    exact ⟨hadvanced, hlogged⟩
  · obtain ⟨-, ip, hnoted⟩ := hpost
    exact chunk_places hsize hn hnoted

/-- The loop of `filewrite`. -/
theorem filewriteLoop_ends (hsize : sb.size ≤ BPB) {fuel k : ℕ} (hfuel : n - k ≤ fuel)
    (h : Volume sb mem) (hlive : (sb.files mem i).type ≠ 0) :
    ∃ w m, filewriteLoop sb i src n fuel k off mem = .ok w ∧ w.off = off + m ∧
      Advanced sb i (fun j => src (k + j)) off (n - k) mem m w.mem ∧
      (w.i = n → m = n - k) ∧ ∀ log ∈ w.logs, log.length ≤ 7 := by
  induction fuel generalizing k off mem with
  | zero =>
    refine ⟨⟨k, off, mem, []⟩, 0, rfl, rfl, .none h, fun _ => by omega, fun log hlog => ?_⟩
    cases hlog
  | succ fuel ih =>
    rw [filewriteLoop]
    by_cases hk : k < n
    · rw [if_pos hk]
      have hpos : 0 < min (n - k) maxWrite := Nat.lt_min.mpr ⟨by omega, by decide⟩
      have hle := Nat.min_le_left (n - k) maxWrite
      obtain ⟨r, t, hrun, ⟨hadvanced, hoff, -⟩, hlogged⟩ := writeChunk_ends
        (fun j => src (k + j)) off h hlive hsize (Nat.min_le_right (n - k) maxWrite)
      generalize min (n - k) maxWrite = l at *
      dsimp only
      rw [hrun]
      by_cases hall : r = some l
      · have hbound := hoff (by rw [hall]; rfl)
        rw [hall, Option.getD_some] at hadvanced
        have hlive' : (sb.files t.mem i).type ≠ 0 := by
          obtain ⟨bs, hfiles, -⟩ := hadvanced.files
          rw [hfiles, Function.update_self]
          exact hlive
        have hnext : ∃ w m, filewriteLoop sb i src n fuel (k + l) (off + l) t.mem = .ok w ∧
            w.off = off + l + m ∧
            Advanced sb i (fun j => src (k + l + j)) (off + l) (n - (k + l)) t.mem m w.mem ∧
            (w.i = n → m = n - (k + l)) ∧ ∀ log ∈ w.logs, log.length ≤ 7 :=
          ih (by omega) hadvanced.volume hlive'
        obtain ⟨w, m, hw, hwoff, hrest, hdone, hlogs⟩ := hnext
        have hsrc : (fun j => src (k + l + j)) = fun j => src (k + (l + j)) := by
          funext j
          rw [Nat.add_assoc]
        have hsub : n - (k + l) = n - k - l := Nat.sub_add_eq n k l
        rw [hsrc, hsub] at hrest
        refine ⟨{ w with logs := t.notes :: w.logs }, l + m, ?_, ?_,
          hadvanced.append hrest hle hbound, fun hi => ?_, fun log hlog => ?_⟩
        · change (if r = some l then _ else _) = _
          rw [if_pos hall, hw]
          rfl
        · rw [← Nat.add_assoc]
          exact hwoff
        · have := hdone hi
          omega
        · rcases List.mem_cons.mp hlog with rfl | hlog
          · exact hlogged
          · exact hlogs log hlog
      · have hadvanced' : Advanced sb i (fun j => src (k + j)) off (n - k) mem (r.getD 0) t.mem :=
          hadvanced.shorten hle
        refine ⟨⟨k, off + r.getD 0, t.mem, [t.notes]⟩, r.getD 0, ?_, rfl, hadvanced',
          fun hi => ?_, fun log hlog => ?_⟩
        · change (if r = some l then _ else _) = _
          rw [if_neg hall]
          rfl
        · exact absurd hi (Nat.ne_of_lt hk)
        · rw [List.mem_singleton.mp hlog]
          exact hlogged
    · rw [if_neg hk]
      refine ⟨⟨k, off, mem, []⟩, 0, rfl, rfl, .none h, fun _ => by omega, fun log hlog => ?_⟩
      cases hlog

/-- `filewrite` writes a prefix of the buffer to one file, and all of it if it does not return -1.
Each of its transactions logs at most seven blocks, fewer than `MAXOPBLOCKS`. -/
theorem filewrite_fits (hsize : sb.size ≤ BPB) (h : Volume sb mem)
    (hlive : (sb.files mem i).type ≠ 0) (src : ℕ → Option Byte) (off n : ℕ) :
    ∃ w m, filewrite sb i src off n mem = .ok w ∧ w.off = off + m ∧
      Advanced sb i src off n mem m w.mem ∧ (w.ret n ≠ -1 → m = n) ∧
      ∀ log ∈ w.logs, log.length ≤ 7 := by
  have hloop : ∃ w m, filewriteLoop sb i src n n 0 off mem = .ok w ∧ w.off = off + m ∧
      Advanced sb i (fun j => src (0 + j)) off (n - 0) mem m w.mem ∧ (w.i = n → m = n - 0) ∧
      ∀ log ∈ w.logs, log.length ≤ 7 := filewriteLoop_ends hsize (Nat.sub_le n 0) h hlive
  obtain ⟨w, m, hw, hoff, hadvanced, hdone, hlogs⟩ := hloop
  simp only [Nat.zero_add, Nat.sub_zero] at hadvanced hdone
  refine ⟨w, m, hw, hoff, hadvanced, fun hret => hdone ?_, hlogs⟩
  by_contra hne
  exact hret (if_neg hne)

/-- Five bytes over the end of the direct blocks. -/
theorem sample_filewrite_fits :
    ∃ w m, filewrite sampleVolume (1 : Fin 2) (fun _ => some 8) 12286 5 sampleBlocks.mem = .ok w ∧
      w.off = 12286 + m ∧
      Advanced sampleVolume (1 : Fin 2) (fun _ => some 8) 12286 5 sampleBlocks.mem m w.mem ∧
      (w.ret 5 ≠ -1 → m = 5) ∧ ∀ log ∈ w.logs, log.length ≤ 7 :=
  filewrite_fits (by decide) sampleBlocks_volume (by decide +kernel) (fun _ => some 8) 12286 5

end Chunks

end AdvancedOperatingSystems.FileSystem
