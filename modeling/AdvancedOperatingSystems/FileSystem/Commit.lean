import AdvancedOperatingSystems.FileSystem.CacheView
import AdvancedOperatingSystems.FileSystem.Log

/-!
# What a commit writes

The loops of `log.c` over the memory of blocks that the cache stands for. Each of them makes
a list of writes, to the disk and to the memory alike; the lists are those of a redo log.
-/

namespace AdvancedOperatingSystems.FileSystem

open Foundations Riscv DemandPaging

/-- The blocks of the log: it has a header, and with the pins of a full log one buffer is
left. `mkfs` makes a log of `LOGSIZE` blocks. -/
structure LogArea where
  start : ℕ
  size : ℕ
  pos : 0 < size
  fits : size ≤ NBUF

namespace LogArea

variable (A : LogArea)

def redo : RedoLog ℕ Block where
  header := A.start
  slot i := A.start + i + 1
  capacity := A.size - 1
  decode := decodeHeader

def Home (b : ℕ) : Prop := b < A.start ∨ A.start + A.size ≤ b

instance (b : ℕ) : Decidable (A.Home b) := inferInstanceAs (Decidable (_ ∨ _))

theorem laid : A.redo.Laid where
  slot_inj := by
    intro i _ j _ h
    simp only [redo] at h
    omega
  slot_ne_header := by
    intro i _ h
    simp only [redo] at h
    omega

variable {A} in
theorem not_reserved {b : ℕ} : ¬ A.redo.Reserved b ↔ A.Home b := by
  have hpos := A.pos
  unfold RedoLog.Reserved Home
  simp only [redo]
  constructor
  · intro h
    by_contra hb
    rw [not_or] at h
    apply h.2
    refine ⟨b - A.start - 1, ?_, ?_⟩ <;> omega
  · rintro h (rfl | ⟨i, hi, rfl⟩) <;> omega

end LogArea

/-- The log of the root device has these blocks. -/
structure LogArea.Is (A : LogArea) (log : Log) : Prop where
  start : log.start = A.start
  size : log.size = A.size
  dev : log.dev = ROOTDEV

structure LogArea.Txn (A : LogArea) (lh : List ℕ) : Prop where
  nodup : lh.Nodup
  home : ∀ b ∈ lh, A.Home b
  bound : ∀ b ∈ lh, b < 2 ^ 32
  length_lt : lh.length < A.size

theorem LogArea.txn_nil (A : LogArea) : A.Txn [] :=
  ⟨List.nodup_nil, by simp, by simp, A.pos⟩

theorem LogArea.Txn.fits {A : LogArea} {lh : List ℕ} (h : A.Txn lh) : A.redo.Fits lh where
  length_le := Nat.le_sub_one_of_lt h.length_lt
  home := fun b hb => LogArea.not_reserved.mpr (h.home b hb)

theorem LogArea.Txn.decode_encode {A : LogArea} {lh : List ℕ} (h : A.Txn lh) (data : Block) :
    decodeHeader (encodeHeader data lh) = lh := by
  have hlt := h.length_lt
  have hfits := A.fits
  have hNBUF : NBUF < 2 ^ 31 := by decide
  exact decode_encodeHeader data lh (by omega) h.bound

namespace LogArea

variable {A : LogArea} {lh : List ℕ} {d f : ℕ → Block} {h h0 : Block}

theorem redo_decode (d : ℕ → Block) : A.redo.decode (d A.redo.header) = decodeHeader (d A.start) :=
  rfl

/-- A commit that stops leaves a log that a recovery can read, and all or nothing of the
transaction. -/
theorem crash_commit (hlh : A.Txn lh) (hd : decodeHeader (d A.start) = [])
    (hh : decodeHeader h = lh) (hh0 : decodeHeader h0 = []) (n : ℕ) :
    A.Txn (decodeHeader (applyWrites d ((A.redo.commitWrites f lh h h0).take n) A.start)) ∧
      ((∀ b, A.Home b →
          A.redo.recovered (applyWrites d ((A.redo.commitWrites f lh h h0).take n)) b = d b) ∨
        ∀ b, A.Home b →
          A.redo.recovered (applyWrites d ((A.redo.commitWrites f lh h h0).take n)) b =
            RedoLog.committed d f lh b) := by
  rw [← redo_decode] at hd ⊢
  constructor
  · rcases RedoLog.crash_commit_header A.laid hlh.fits hd hh hh0 n (f := f) with h | h <;> rw [h]
    · exact A.txn_nil
    · exact hlh
  · simp only [← not_reserved]
    exact RedoLog.crash_commit A.laid hlh.fits hd hh hh0 n

/-- A recovery that stops leaves a log that another one can read, and what that one finds. -/
theorem crash_recovery (hlh : A.Txn (decodeHeader (d A.start))) (hh0 : decodeHeader h0 = [])
    (n : ℕ) :
    A.Txn (decodeHeader (applyWrites d ((A.redo.recoveryWrites d h0).take n) A.start)) ∧
      ∀ b, A.Home b →
        A.redo.recovered (applyWrites d ((A.redo.recoveryWrites d h0).take n)) b =
          A.redo.recovered d b := by
  have hfits := hlh.fits
  rw [← redo_decode] at hfits ⊢
  refine ⟨?_, fun b hb => RedoLog.crash_recovery hfits hh0 n (not_reserved.mpr hb)⟩
  rcases RedoLog.crash_recovery_header hfits hh0 n with h | h <;> rw [h]
  · exact A.txn_nil
  · exact hlh

end LogArea

/-- The references of the blocks of a list, one for each. -/
def pins (l : List ℕ) (b : ℕ) : ℕ := if b ∈ l then 1 else 0

theorem pins_pos {l : List ℕ} {b : ℕ} : 0 < pins l b ↔ b ∈ l := by
  unfold pins
  split_ifs with h <;> simp [h]

@[simp] theorem pins_nil : pins [] = fun _ => 0 := rfl

theorem pins_tail {b : ℕ} {l : List ℕ} (h : b ∉ l) : Function.update (pins (b :: l)) b 0 = pins l := by
  funext c
  by_cases hc : c = b
  · subst hc
    simp [pins, h]
  · rw [Function.update_of_ne hc]
    simp [pins, hc]

namespace Bio

open Fs

variable {s : Bio} {mem : ℕ → Block} {refs : ℕ → ℕ} {p b c tail : ℕ} {log : Log} {S : List ℕ}

/-- One round of `write_log` copies a block of the cache to its slot of the log. -/
theorem writeLogBody_shows (h : s.Shows mem refs fun _ => none) (hS : ∀ c, 0 < refs c → c ∈ S)
    (hroom : S.length < NBUF) (hdev : log.dev = ROOTDEV) (hslot : log.start + tail + 1 = c)
    (hsrc : log.lh.getD tail 0 = b) (hb : 0 < refs b) (hc : refs c = 0) :
    ∃ t, writeLogBody p log s tail = .ok t ∧
      t.Shows (Function.update mem c (mem b)) refs (fun _ => none) ∧
      t.disk = Function.update s.disk c (mem b) ∧ t.written = s.written ++ [(c, mem b)] := by
  have hcb : c ≠ b := by
    rintro rfl
    omega
  obtain ⟨dst, s₁, hread, h₁, hdst, -, hdisk₁, hwritten₁⟩ :=
    bread_shows (p := p) h hS (Or.inr hroom) (b := c) rfl
  have hb₁ : 0 < Function.update refs c (refs c + 1) b := by
    rwa [Function.update_of_ne hcb.symm]
  have hc₁ : 0 < Function.update refs c (refs c + 1) c := by simp
  obtain ⟨src, s₂, hread', h₂, hsrc', hkeep₂, hdisk₂, hwritten₂⟩ :=
    bread_shows (p := p) (S := c :: S) h₁ (b := b)
      (by
        intro k hk
        by_cases hkc : k = c
        · exact hkc ▸ List.mem_cons_self
        · rw [Function.update_of_ne hkc] at hk
          exact List.mem_cons_of_mem c (hS k hk))
      (Or.inl hb₁) (by simp [hcb.symm])
  have hdst₂ := hdst.of_keeps hkeep₂ hc₁
  obtain ⟨h₃, hkeep₃⟩ := setData_shows h₂ hdst₂
    (by simp [hcb]) (mem b)
  have hdst₃ := hdst₂.of_keeps hkeep₃ (by simp [hcb])
  have hsrc₃ := hsrc'.of_keeps hkeep₃ (by simp)
  obtain ⟨s₄, hwrite, h₄, hkeep₄, hdisk₄, hwritten₄⟩ :=
    bwrite_shows (p := p) h₃ hdst₃ (by simp [hcb])
  have hdst₄ := hdst₃.of_keeps hkeep₄ (by simp [hcb])
  have hsrc₄ := hsrc₃.of_keeps hkeep₄ (by simp)
  obtain ⟨s₅, hrel, h₅, hkeep₅, hdisk₅, hwritten₅⟩ :=
    brelse_shows (p := p) h₄ hsrc₄.has (by simp) (by simp) (by simp [hcb.symm]; omega)
  have hdst₅ := hdst₄.of_keeps hkeep₅ (by simp [hcb])
  obtain ⟨s₆, hrel', h₆, -, hdisk₆, hwritten₆⟩ :=
    brelse_shows (p := p) h₅ hdst₅.has (by simp [hcb]) (by simp [hcb])
      (by intro; rw [hdisk₅, hdisk₄]; simp)
  refine ⟨s₆, ?_, h₆.congr rfl ?_ ?_, ?_, ?_⟩
  · simp only [writeLogBody, hslot, hsrc, hdev, hread, ok_bind, hread', h₂.data_eq hsrc', hwrite, hrel,
      hrel']
  · funext k
    by_cases hkc : k = c
    · subst hkc
      simp [hcb, hc]
    · simp [hkc]
  · funext k
    simp only [Function.update_apply]
    split_ifs <;> rfl
  · rw [hdisk₆, hdisk₅, hdisk₄]
    simp only [setData, setBuf_disk, hdisk₂, hdisk₁, Function.update_self]
  · rw [hwritten₆, hwritten₅, hwritten₄]
    simp only [setData, setBuf_written, hwritten₂, hwritten₁, Function.update_self]

/-- One round of `install_trans` copies a slot of the log to its home block, which is not
pinned afterwards. -/
theorem installBody_shows (recovering : Bool) (h : s.Shows mem refs fun _ => none)
    (hS : ∀ c, 0 < refs c → c ∈ S)
    (hroom : S.length < NBUF ∧ 0 < refs b ∨ S.length + 1 < NBUF) (hdev : log.dev = ROOTDEV)
    (hslot : log.start + tail + 1 = c) (hhome : log.lh.getD tail 0 = b) (hcb : c ≠ b)
    (hb : refs b = if recovering then 0 else 1) (hc : refs c = 0) :
    ∃ t, installBody p log recovering s tail = .ok t ∧
      t.Shows (Function.update mem b (mem c)) (Function.update refs b 0) (fun _ => none) ∧
      t.disk = Function.update s.disk b (mem c) ∧ t.written = s.written ++ [(b, mem c)] := by
  obtain ⟨lbuf, s₁, hread, h₁, hlbuf, -, hdisk₁, hwritten₁⟩ :=
    bread_shows (p := p) h hS (Or.inr (by omega)) (b := c) rfl
  obtain ⟨dbuf, s₂, hread', h₂, hdbuf, hkeep₂, hdisk₂, hwritten₂⟩ :=
    bread_shows (p := p) (S := c :: S) h₁ (b := b)
      (by
        intro k hk
        by_cases hkc : k = c
        · exact hkc ▸ List.mem_cons_self
        · rw [Function.update_of_ne hkc] at hk
          exact List.mem_cons_of_mem c (hS k hk))
      (by
        rw [Function.update_of_ne hcb.symm, List.length_cons]
        omega)
      (by simp [hcb.symm])
  have hlbuf₂ := hlbuf.of_keeps hkeep₂ (by simp)
  have hdata : (s₂.buf lbuf).data = mem c := h₂.data_eq hlbuf₂
  obtain ⟨h₃, hkeep₃⟩ := setData_shows h₂ hdbuf (by simp) (mem c)
  have hlbuf₃ := hlbuf₂.of_keeps hkeep₃ (by simp [hcb])
  have hdbuf₃ := hdbuf.of_keeps hkeep₃ (by simp)
  obtain ⟨s₄, hwrite, h₄, hkeep₄, hdisk₄, hwritten₄⟩ :=
    bwrite_shows (p := p) h₃ hdbuf₃ (by simp)
  have hlbuf₄ := hlbuf₃.of_keeps hkeep₄ (by simp [hcb])
  have hdbuf₄ := hdbuf₃.of_keeps hkeep₄ (by simp)
  -- after `bunpin`, or without a pin, only the reference of this round is left
  obtain ⟨h₅, hkeep₅⟩ : (if recovering then s₄ else s₄.bunpin dbuf).Shows
      (Function.update mem b (mem c)) (Function.update (Function.update refs c 1) b 1)
      (Function.update (Function.update (fun _ => none) c (some p)) b (some p)) ∧
      s₄.Keeps (if recovering then s₄ else s₄.bunpin dbuf)
        (Function.update (Function.update refs c 1) b 1) := by
    cases recovering with
    | true =>
      refine ⟨h₄.congr rfl ?_ rfl, Keeps.refl _ _⟩
      simp [hcb.symm, hb, hc]
    | false =>
      obtain ⟨hu, hk⟩ := bunpin_shows h₄ hdbuf₄.has (by simp [hcb.symm, hb])
      refine ⟨hu.congr rfl ?_ rfl, fun j k hpos hj => ?_⟩
      · simp [hcb.symm, hb, hc]
      · apply hk j k _ hj
        revert hpos
        simp only [Function.update_apply]
        split_ifs <;> omega
  set s₅ := if recovering then s₄ else s₄.bunpin dbuf with hs₅
  have hsame : s₅.disk = s₄.disk ∧ s₅.written = s₄.written := by
    rw [hs₅]
    split_ifs <;> exact ⟨rfl, rfl⟩
  have hlbuf₅ := hlbuf₄.of_keeps hkeep₅ (by simp [hcb])
  have hdbuf₅ := hdbuf₄.of_keeps hkeep₅ (by simp)
  have hclean : s.disk c = mem c := (h.clean c hc).2
  obtain ⟨s₆, hrel, h₆, hkeep₆, hdisk₆, hwritten₆⟩ :=
    brelse_shows (p := p) h₅ hlbuf₅.has (by simp [hcb]) (by simp [hcb])
      (by
        intro
        rw [hsame.1, hdisk₄]
        simp [hcb, setData, hdisk₂, hdisk₁, hclean])
  have hdbuf₆ := hdbuf₅.of_keeps hkeep₆ (by simp)
  obtain ⟨s₇, hrel', h₇, -, hdisk₇, hwritten₇⟩ :=
    brelse_shows (p := p) h₆ hdbuf₆.has (by simp [hcb.symm]) (by simp [hcb.symm])
      (by
        intro
        rw [hdisk₆, hsame.1, hdisk₄]
        simp)
  refine ⟨s₇, ?_, h₇.congr rfl ?_ ?_, ?_, ?_⟩
  · simp only [installBody, hslot, hhome, hdev, hread, ok_bind, hread', hdata, hwrite, ← hs₅, hrel,
      hrel']
  · funext k
    simp only [Function.update_apply]
    split_ifs <;> simp_all
  · funext k
    simp only [Function.update_apply]
    split_ifs <;> rfl
  · rw [hdisk₇, hdisk₆, hsame.1, hdisk₄]
    simp only [setData, setBuf_disk, hdisk₂, hdisk₁, Function.update_self]
  · rw [hwritten₇, hwritten₆, hsame.2, hwritten₄]
    simp only [setData, setBuf_written, hwritten₂, hwritten₁, Function.update_self]

section Loops

variable {A : LogArea} {f : ℕ → Block}

/-- The loop of `write_log` from a block of the transaction on. -/
theorem writeLog_loop (hA : A.Is log) (htxn : A.Txn log.lh) (pre rest : List ℕ)
    (hsplit : log.lh = pre ++ rest) (h : s.Shows mem (pins log.lh) fun _ => none)
    (hf : ∀ b ∈ log.lh, mem b = f b) :
    ∃ t, exec (writeLogBody p log) s (List.range' pre.length rest.length) = .ok t ∧
      t.Shows (applyWrites mem ((rest.zipIdx pre.length).map fun p => (A.redo.slot p.2, f p.1)))
        (pins log.lh) (fun _ => none) ∧
      t.disk =
        applyWrites s.disk ((rest.zipIdx pre.length).map fun p => (A.redo.slot p.2, f p.1)) ∧
      t.written =
        s.written ++ (rest.zipIdx pre.length).map fun p => (A.redo.slot p.2, f p.1) := by
  induction rest generalizing s mem pre with
  | nil => exact ⟨s, rfl, h, rfl, by simp⟩
  | cons b rest ih =>
    have hmem : b ∈ log.lh := by simp [hsplit]
    have hlt := htxn.length_lt
    have hlen : pre.length < A.size - 1 := by
      rw [hsplit, List.length_append, List.length_cons] at hlt
      omega
    have hslot : log.start + pre.length + 1 = A.redo.slot pre.length := by
      rw [hA.start]
      rfl
    have hout : A.redo.slot pre.length ∉ log.lh := htxn.fits.slot_notMem hlen
    have hfits := A.fits
    obtain ⟨t, hbody, ht, hdisk, hwritten⟩ := writeLogBody_shows (p := p) h
      (fun c hc => pins_pos.mp hc) (by omega) hA.dev hslot (by simp [hsplit]) (pins_pos.mpr hmem)
      (by simp [pins, hout])
    rw [hf b hmem] at ht hdisk hwritten
    obtain ⟨u, hrun, hu, hdisk', hwritten'⟩ := ih (pre ++ [b]) (by simp [hsplit]) ht (by
      intro c hc
      have hne : c ≠ A.redo.slot pre.length := by
        rintro rfl
        exact hout hc
      rw [Function.update_of_ne hne]
      exact hf c hc)
    rw [List.length_append, List.length_singleton] at hrun hu hdisk' hwritten'
    refine ⟨u, ?_, hu, ?_, ?_⟩
    · rw [List.length_cons, List.range'_succ, exec_cons, hbody, ok_bind, hrun]
    · rw [hdisk', hdisk]
      rfl
    · rw [hwritten', hwritten, List.append_assoc]
      rfl

/-- The pins that `install_trans` finds on the blocks that it has still to copy. -/
def homePins (recovering : Bool) (rest : List ℕ) : ℕ → ℕ :=
  if recovering then fun _ => 0 else pins rest

theorem homePins_le {recovering : Bool} {rest : List ℕ} {c : ℕ}
    (h : 0 < homePins recovering rest c) : c ∈ rest := by
  cases recovering with
  | true => exact absurd h (by simp [homePins])
  | false => exact pins_pos.mp h

theorem homePins_tail {recovering : Bool} {rest : List ℕ} (hb : b ∉ rest) :
    Function.update (homePins recovering (b :: rest)) b 0 = homePins recovering rest := by
  cases recovering with
  | true => simp [homePins]
  | false => exact pins_tail hb

/-- The loop of `install_trans` from a block of the transaction on. -/
theorem installTrans_loop (recovering : Bool) (hA : A.Is log) (htxn : A.Txn log.lh)
    (pre rest : List ℕ) (hsplit : log.lh = pre ++ rest)
    (h : s.Shows mem (homePins recovering rest) fun _ => none) {d : ℕ → Block}
    (hd : ∀ i < A.size - 1, mem (A.redo.slot i) = d (A.redo.slot i)) :
    ∃ t, exec (installBody p log recovering) s (List.range' pre.length rest.length) = .ok t ∧
      t.Shows (applyWrites mem ((rest.zipIdx pre.length).map fun p => (p.1, d (A.redo.slot p.2))))
        (fun _ => 0) (fun _ => none) ∧
      t.disk =
        applyWrites s.disk ((rest.zipIdx pre.length).map fun p => (p.1, d (A.redo.slot p.2))) ∧
      t.written =
        s.written ++ (rest.zipIdx pre.length).map fun p => (p.1, d (A.redo.slot p.2)) := by
  induction rest generalizing s mem pre with
  | nil =>
    refine ⟨s, rfl, h.congr rfl ?_ rfl, rfl, by simp⟩
    cases recovering <;> rfl
  | cons b rest ih =>
    have hmem : b ∈ log.lh := by simp [hsplit]
    have hlt := htxn.length_lt
    have hfits := A.fits
    rw [hsplit, List.length_append, List.length_cons] at hlt
    have hlen : pre.length < A.size - 1 := by omega
    have hnodup := htxn.nodup
    rw [hsplit, List.nodup_append, List.nodup_cons] at hnodup
    have hslot : log.start + pre.length + 1 = A.redo.slot pre.length := by
      rw [hA.start]
      rfl
    have hout : A.redo.slot pre.length ∉ log.lh := htxn.fits.slot_notMem hlen
    have hne : ∀ i < A.size - 1, A.redo.slot i ≠ b := by
      rintro i hi rfl
      exact htxn.fits.slot_notMem hi hmem
    obtain ⟨t, hbody, ht, hdisk, hwritten⟩ := installBody_shows (p := p)
      (S := if recovering then [] else b :: rest) recovering h
      (by
        intro c hc
        cases recovering with
        | true => exact absurd hc (by simp [homePins])
        | false => exact homePins_le hc)
      (by
        cases recovering with
        | true => exact Or.inr (show 1 < NBUF by decide)
        | false =>
          left
          refine ⟨?_, pins_pos.mpr List.mem_cons_self⟩
          simp only [Bool.false_eq_true, if_false, List.length_cons]
          omega)
      hA.dev hslot (by simp [hsplit]) (hne _ hlen)
      (by cases recovering <;> simp [homePins, pins])
      (by
        by_contra hpos
        have hc := homePins_le (Nat.pos_of_ne_zero hpos)
        exact hout (by rw [hsplit]; exact List.mem_append_right _ hc))
    rw [hd _ hlen] at ht hdisk hwritten
    obtain ⟨u, hrun, hu, hdisk', hwritten'⟩ := ih (pre ++ [b]) (by simp [hsplit])
      (ht.congr rfl (homePins_tail hnodup.2.1.1) rfl) (by
        intro i hi
        rw [Function.update_of_ne (hne i hi)]
        exact hd i hi)
    rw [List.length_append, List.length_singleton] at hrun hu hdisk' hwritten'
    refine ⟨u, ?_, hu, ?_, ?_⟩
    · rw [List.length_cons, List.range'_succ, exec_cons, hbody, ok_bind, hrun]
    · rw [hdisk', hdisk]
      rfl
    · rw [hwritten', hwritten, List.append_assoc]
      rfl

end Loops

end Bio

namespace Fs

open Bio

variable {A : LogArea} {s : Fs} {mem : ℕ → Block} {refs : ℕ → ℕ} {p : ℕ} {S : List ℕ}

theorem readHead_shows (hA : A.Is s.log) (h : s.bio.Shows mem refs fun _ => none)
    (hS : ∀ c, 0 < refs c → c ∈ S) (hroom : S.length < NBUF) (hclean : refs A.start = 0) :
    ∃ t, s.readHead p = .ok t ∧ t.bio.Shows mem refs (fun _ => none) ∧
      t.log = { s.log with lh := decodeHeader (mem A.start) } ∧ t.bio.disk = s.bio.disk ∧
      t.bio.written = s.bio.written := by
  obtain ⟨i, s₁, hread, h₁, hi, -, hdisk₁, hwritten₁⟩ :=
    bread_shows (p := p) h hS (Or.inr hroom) (b := A.start) rfl
  obtain ⟨s₂, hrel, h₂, -, hdisk₂, hwritten₂⟩ :=
    brelse_shows (p := p) h₁ hi.has (by simp) (by simp)
      (by intro; rw [hdisk₁]; exact (h.clean _ hclean).2)
  refine ⟨{ bio := s₂, log := { s.log with lh := decodeHeader (mem A.start) } }, ?_,
    h₂.congr rfl (by simp) (by simp), rfl, hdisk₂.trans hdisk₁, hwritten₂.trans hwritten₁⟩
  simp only [readHead, hA.dev, hA.start, hread, ok_bind, hrel, h₁.data_eq hi]
  rfl

/-- `write_head` writes the list to the header. -/
theorem writeHead_shows (hA : A.Is s.log) (h : s.bio.Shows mem refs fun _ => none)
    (hS : ∀ c, 0 < refs c → c ∈ S) (hroom : S.length < NBUF) :
    ∃ t, s.writeHead p = .ok t ∧
      t.bio.Shows (Function.update mem A.start (encodeHeader (mem A.start) s.log.lh)) refs
        (fun _ => none) ∧
      t.log = s.log ∧
      t.bio.disk =
        Function.update s.bio.disk A.start (encodeHeader (mem A.start) s.log.lh) ∧
      t.bio.written = s.bio.written ++ [(A.start, encodeHeader (mem A.start) s.log.lh)] := by
  obtain ⟨i, s₁, hread, h₁, hi, -, hdisk₁, hwritten₁⟩ :=
    bread_shows (p := p) h hS (Or.inr hroom) (b := A.start) rfl
  have hdata := h₁.data_eq hi
  obtain ⟨h₂, hkeep₂⟩ := setData_shows h₁ hi (by simp) (encodeHeader (mem A.start) s.log.lh)
  have hi₂ := hi.of_keeps hkeep₂ (by simp)
  obtain ⟨s₃, hwrite, h₃, hkeep₃, hdisk₃, hwritten₃⟩ :=
    bwrite_shows (p := p) h₂ hi₂ (by simp)
  have hi₃ := hi₂.of_keeps hkeep₃ (by simp)
  obtain ⟨s₄, hrel, h₄, -, hdisk₄, hwritten₄⟩ :=
    brelse_shows (p := p) h₃ hi₃.has (by simp) (by simp)
      (by intro; rw [hdisk₃]; simp)
  refine ⟨{ s with bio := s₄ }, ?_, h₄.congr rfl (by simp) (by simp), rfl, ?_, ?_⟩
  · simp only [writeHead, hA.dev, hA.start, hread, ok_bind, hdata, hwrite, hrel]
    rfl
  · rw [hdisk₄, hdisk₃]
    simp only [setData, setBuf_disk, hdisk₁, Function.update_self]
  · rw [hwritten₄, hwritten₃]
    simp only [setData, setBuf_written, hwritten₁, Function.update_self]

theorem writeLog_shows (hA : A.Is s.log) (htxn : A.Txn s.log.lh)
    (h : s.bio.Shows mem (pins s.log.lh) fun _ => none) :
    ∃ t, s.writeLog p = .ok t ∧ t.log = s.log ∧
      t.bio.Shows (applyWrites mem (A.redo.logWrites mem s.log.lh)) (pins s.log.lh) (fun _ => none) ∧
      t.bio.disk = applyWrites s.bio.disk (A.redo.logWrites mem s.log.lh) ∧
      t.bio.written = s.bio.written ++ A.redo.logWrites mem s.log.lh := by
  obtain ⟨t, hrun, ht, hdisk, hwritten⟩ := writeLog_loop (p := p) hA htxn [] s.log.lh rfl h
    (f := mem) fun _ _ => rfl
  refine ⟨{ s with bio := t }, ?_, rfl, ht, hdisk, hwritten⟩
  rw [List.length_nil, ← List.range_eq_range'] at hrun
  simp only [writeLog, hrun, ok_bind]
  rfl

theorem installTrans_shows (recovering : Bool) (hA : A.Is s.log) (htxn : A.Txn s.log.lh)
    (h : s.bio.Shows mem (homePins recovering s.log.lh) fun _ => none) :
    ∃ t, s.installTrans p recovering = .ok t ∧ t.log = s.log ∧
      t.bio.Shows (applyWrites mem (A.redo.installs mem s.log.lh)) (fun _ => 0) (fun _ => none) ∧
      t.bio.disk = applyWrites s.bio.disk (A.redo.installs mem s.log.lh) ∧
      t.bio.written = s.bio.written ++ A.redo.installs mem s.log.lh := by
  obtain ⟨t, hrun, ht, hdisk, hwritten⟩ := installTrans_loop (p := p) recovering hA htxn [] s.log.lh rfl h
    (d := mem) fun _ _ => rfl
  refine ⟨{ s with bio := t }, ?_, rfl, ht, hdisk, hwritten⟩
  rw [List.length_nil, ← List.range_eq_range'] at hrun
  simp only [installTrans, hrun, ok_bind]
  rfl

/-- A commit makes the writes of a transaction of the redo log, and leaves all home blocks
of the memory as they are. -/
theorem commit_shows (hA : A.Is s.log) (htxn : A.Txn s.log.lh) (hpos : 0 < s.log.lh.length)
    (h : s.bio.Shows mem (pins s.log.lh) fun _ => none) :
    ∃ t mem' h₁ h₀, s.commit p = .ok t ∧ t.log = { s.log with lh := [] } ∧
      t.bio.Shows mem' (fun _ => 0) (fun _ => none) ∧ (∀ b, A.Home b → mem' b = mem b) ∧
      decodeHeader h₁ = s.log.lh ∧ decodeHeader h₀ = [] ∧
      t.bio.disk = applyWrites s.bio.disk (A.redo.commitWrites mem s.log.lh h₁ h₀) ∧
      t.bio.written = s.bio.written ++ A.redo.commitWrites mem s.log.lh h₁ h₀ := by
  have hlt := htxn.length_lt
  have hfits := A.fits
  obtain ⟨s₁, hlog, hlog₁, hs₁, hdisk₁, hwritten₁⟩ := writeLog_shows (p := p) hA htxn h
  set mem₁ := applyWrites mem (A.redo.logWrites mem s.log.lh) with hmem₁
  obtain ⟨s₂, hhead, hs₂, hlog₂, hdisk₂, hwritten₂⟩ := writeHead_shows (p := p)
    (by rw [hlog₁]; exact hA) hs₁ (fun c hc => pins_pos.mp hc) (by omega)
  set h₁ := encodeHeader (mem₁ A.start) s₁.log.lh with hh₁
  have hA₂ : A.Is s₂.log := by rw [hlog₂, hlog₁]; exact hA
  have hlh₂ : s₂.log.lh = s.log.lh := by rw [hlog₂, hlog₁]
  obtain ⟨s₃, hinst, hlog₃, hs₃, hdisk₃, hwritten₃⟩ := installTrans_shows (p := p)
    false hA₂ (by rw [hlh₂]; exact htxn) (by rw [hlh₂]; exact hs₂)
  -- the slots hold the blocks of the transaction
  have hcopies : A.redo.installs (Function.update mem₁ A.start h₁) s.log.lh =
      s.log.lh.map fun b => (b, mem b) := by
    apply RedoLog.installs_of_logged
    intro i hi
    have hne : A.redo.slot i ≠ A.start :=
      A.laid.slot_ne_header i (Nat.lt_of_lt_of_le hi htxn.fits.length_le)
    rw [Function.update_of_ne hne]
    exact RedoLog.logWrites_slot A.laid htxn.fits hi
  rw [hlh₂, hcopies] at hs₃ hdisk₃ hwritten₃
  set mem₃ := applyWrites (Function.update mem₁ A.start h₁) (s.log.lh.map fun b => (b, mem b))
    with hmem₃
  have hA₃ : A.Is s₃.clear.log := by
    refine ⟨?_, ?_, ?_⟩
    · rw [clear, hlog₃]; exact hA₂.start
    · rw [clear, hlog₃]; exact hA₂.size
    · rw [clear, hlog₃]; exact hA₂.dev
  obtain ⟨s₄, hclear, hs₄, hlog₄, hdisk₄, hwritten₄⟩ := writeHead_shows (p := p) (S := [])
    hA₃ hs₃ (by simp) (by decide)
  set h₀ := encodeHeader (mem₃ A.start) s₃.clear.log.lh
  have hempty : decodeHeader h₀ = [] := A.txn_nil.decode_encode _
  refine ⟨s₄, _, h₁, h₀, ?_, ?_, hs₄, ?_, ?_, hempty, ?_, ?_⟩
  · rw [commit, if_pos hpos]
    simp only [hlog, ok_bind, hhead, hinst, hclear]
  · rw [hlog₄, clear, hlog₃, hlog₂, hlog₁]
  · intro b hb
    have hne : b ≠ A.start := by
      rintro rfl
      exact LogArea.not_reserved.mpr hb (Or.inl rfl)
    rw [Function.update_of_ne hne, hmem₃, applyWrites_map]
    split_ifs with hmem
    · rfl
    · rw [Function.update_of_ne hne, hmem₁, ← List.take_length (l := A.redo.logWrites mem s.log.lh)]
      exact RedoLog.logWrites_home htxn.fits (LogArea.not_reserved.mpr hb)
  · rw [hh₁, hlog₁]
    exact htxn.decode_encode _
  · rw [hdisk₄]
    change Function.update s₃.bio.disk _ _ = _
    rw [hdisk₃, hdisk₂, hdisk₁, RedoLog.commitWrites, applyWrites_append, applyWrites_cons,
      applyWrites_append]
    rfl
  · rw [hwritten₄]
    change s₃.bio.written ++ _ = _
    rw [hwritten₃, hwritten₂, hwritten₁, RedoLog.commitWrites]
    simp only [List.append_assoc, List.singleton_append]
    rfl

/-- The recovery at boot makes the writes of a recovery of the redo log. -/
theorem initlog_shows (disk : ℕ → Block) (log : Log) (hlh : A.Txn (decodeHeader (disk A.start))) :
    ∃ t mem' h₀, ({ bio := binit disk, log := log } : Fs).initlog p ROOTDEV A.start A.size = .ok t ∧
      t.log = { log with start := A.start, size := A.size, dev := ROOTDEV, lh := [] } ∧
      t.bio.Shows mem' (fun _ => 0) (fun _ => none) ∧ decodeHeader h₀ = [] ∧
      t.bio.disk = applyWrites disk (A.redo.recoveryWrites disk h₀) ∧
      t.bio.written = A.redo.recoveryWrites disk h₀ := by
  set s : Fs := ⟨binit disk, { log with start := A.start, size := A.size, dev := ROOTDEV }⟩ with hs
  have hA : A.Is s.log := ⟨rfl, rfl, rfl⟩
  obtain ⟨s₁, hread, hs₁, hlog₁, hdisk₁, hwritten₁⟩ := readHead_shows (p := p) (S := []) hA
    (binit_shows disk) (by simp) (by decide) rfl
  have hlh₁ : s₁.log.lh = decodeHeader (disk A.start) := by rw [hlog₁]
  obtain ⟨s₂, hinst, hlog₂, hs₂, hdisk₂, hwritten₂⟩ := installTrans_shows (p := p)
    (s := s₁) (A := A) true (by rw [hlog₁]; exact ⟨rfl, rfl, rfl⟩)
    (by rw [hlh₁]; exact hlh) hs₁
  obtain ⟨s₃, hhead, hs₃, hlog₃, hdisk₃, hwritten₃⟩ := writeHead_shows (p := p) (S := [])
    (s := s₂.clear) (A := A) (by rw [clear, hlog₂, hlog₁]; exact ⟨rfl, rfl, rfl⟩) hs₂ (by simp)
    (by decide)
  set h₀ := encodeHeader (applyWrites disk (A.redo.installs disk s₁.log.lh) A.start) s₂.clear.log.lh
  have hempty : decodeHeader h₀ = [] := A.txn_nil.decode_encode _
  refine ⟨s₃, _, h₀, ?_, ?_, hs₃, hempty, ?_, ?_⟩
  · rw [initlog, if_neg (by decide), recoverFromLog]
    change (s.readHead p >>= _) = _
    simp only [hread, ok_bind, hinst, hhead]
  · rw [hlog₃, clear, hlog₂, hlog₁]
  · rw [hdisk₃]
    change Function.update s₂.bio.disk _ _ = _
    rw [hdisk₂, hdisk₁, hlh₁, RedoLog.recoveryWrites, applyWrites_append]
    rfl
  · rw [hwritten₃]
    change s₂.bio.written ++ _ = _
    rw [hwritten₂, hwritten₁, hlh₁, RedoLog.recoveryWrites]
    rfl

end Fs

end AdvancedOperatingSystems.FileSystem
