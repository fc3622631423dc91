import AdvancedOperatingSystems.FileSystem.Filewrite
import AdvancedOperatingSystems.FileSystem.CrashSafety

/-!
# Functions of the file system on the machine

A function of `fs.c` is a program over the contents of the blocks. A process runs it between
`begin_op` and `end_op`: it looks at blocks through the cache and changes them through the log.
The machine then has the contents that the program leaves. A function that is alone in its
transaction is atomic: after a crash the disk has all of its changes or none.
-/

namespace AdvancedOperatingSystems.FileSystem

open Foundations Riscv DemandPaging StoreProgram

section Definitions

variable {α : Type} (p : ℕ)

/-- The calls of process `p` in a function. A change without `log_write` is none of them. -/
def calls : FsProgram α → (ℕ → Block) → List FsEvent
  | .ret _, _ => []
  | .look b next, mem => .look p b :: calls (next (mem b)) mem
  | .change b f next, mem => .change p b f :: calls next (Function.update mem b (f (mem b)))
  | .scribble b f next, mem => calls next (Function.update mem b (f (mem b)))
  | .stop _, _ => []

/-- A function that a process has run in an operation, up to `end_op`. -/
def operation (prog : FsProgram α) (mem : ℕ → Block) : List FsEvent :=
  .beginOp p :: calls p prog mem

end Definitions

namespace Machine

variable {α : Type} {A : LogArea} {s t u : Fs} {mem : ℕ → Block} {p : ℕ} {prog : FsProgram α} {r : α}
  {w w' : Noted ℕ Block}

/-- What the calls of a function leave on the machine: the contents of the blocks are those
that the program leaves, and the disk is as before. -/
structure Ran (A : LogArea) (s t : Fs) (w' : Noted ℕ Block) : Prop where
  up : Up A t w'.mem
  disk : t.bio.disk = s.bio.disk
  outstanding : t.log.outstanding = s.log.outstanding

/-- A function whose changes fit into the log runs on the machine. -/
theorem Up.calls (h : Up A s w.mem) (hrun : prog.run w = .ok (r, w'))
    (hsilent : w'.scribbles = w.scribbles) (hnoted : ∀ b ∈ w.notes, b ∈ s.log.lh)
    (hallowed : ∀ e ∈ calls p prog w.mem, Allowed A e) (hout : 1 ≤ s.log.outstanding)
    (hroom : s.log.lh.length + w'.notes.length + 1 < A.size + w.notes.length) :
    ∃ t, exec (step A) (.up s) (FileSystem.calls p prog w.mem) = .ok (.up t) ∧ Ran A s t w' := by
  induction prog generalizing s w with
  | ret a =>
    cases hrun
    exact ⟨s, rfl, h, rfl, rfl⟩
  | look b next ih =>
    obtain ⟨s₁, hlook, h₁, hdisk₁, hlog₁⟩ := h.look (p := p) (b := b)
    obtain ⟨t, hexec, hran⟩ := ih (w.mem b) h₁ hrun hsilent (by rw [hlog₁]; exact hnoted)
      (fun e he => hallowed e (List.mem_cons_of_mem _ he)) (by rw [hlog₁]; exact hout)
      (by rw [hlog₁]; exact hroom)
    refine ⟨t, ?_, hran.up, hran.disk.trans hdisk₁, hran.outstanding.trans (by rw [hlog₁])⟩
    rw [FileSystem.calls, exec_cons, step, hlook]
    exact hexec
  | change b f next ih =>
    have hlength := (length_notes_le hrun).1
    obtain ⟨hhome, hbound⟩ := hallowed _ List.mem_cons_self
    have hsize := h.area.size
    have hfits := A.fits
    have hinsert : w.notes.length ≤ (w.notes.insert b).length := List.length_le_length_insert
    have hlogRoom : LogRoom s := by
      simp only [LogRoom, LOGSIZE, NBUF, MAXOPBLOCKS] at *
      omega
    obtain ⟨s₁, hchange, h₁, hdisk₁, hlog₁⟩ := h.change (p := p) (f := f) hhome hbound hlogRoom
    have hmem₁ : ∀ c, c ∈ s₁.log.lh ↔ c = b ∨ c ∈ s.log.lh := by
      intro c
      rw [hlog₁]
      dsimp only
      split_ifs with hin
      · exact ⟨Or.inr, fun hc => hc.elim (fun heq => heq ▸ hin) id⟩
      · simp [or_comm]
    have hgrown : s₁.log.lh.length + w.notes.length ≤ s.log.lh.length + (w.notes.insert b).length := by
      rw [hlog₁]
      dsimp only
      by_cases hin : b ∈ s.log.lh
      · rw [if_pos hin]
        omega
      · have hnew : b ∉ w.notes := fun hb => hin (hnoted b hb)
        rw [if_neg hin, List.length_insert_of_not_mem hnew, List.length_append,
          List.length_singleton]
        omega
    obtain ⟨t, hexec, hran⟩ := @ih s₁ _ h₁ hrun hsilent
      (fun c hc => (hmem₁ c).mpr ((List.mem_insert_iff.mp hc).imp_right (hnoted c)))
      (fun e he => hallowed e (List.mem_cons_of_mem _ he)) (by rw [hlog₁]; exact hout)
      (by dsimp only; omega)
    refine ⟨t, ?_, hran.up, hran.disk.trans hdisk₁, hran.outstanding.trans (by rw [hlog₁])⟩
    rw [FileSystem.calls, exec_cons, step, hchange]
    exact hexec
  | scribble b f next ih =>
    have hlength := (length_notes_le (show next.run _ = .ok (r, w') from hrun)).2
    rw [hsilent] at hlength
    exact absurd hlength (Nat.not_succ_le_self _)
  | stop e => cases hrun

/-- A system between two calls where no operation is under way. -/
structure Quiet (A : LogArea) (s : Fs) (mem : ℕ → Block) : Prop extends Up A s mem where
  outstanding : s.log.outstanding = 0
  committed : s.log.lh = []

theorem Quiet.disk_home (h : Quiet A s mem) (b : ℕ) : s.bio.disk b = mem b :=
  (h.shows.clean b (by simp [pins, h.committed])).2

/-- A function in an operation, on a system where it is the only one. -/
theorem Quiet.operation (h : Quiet A s mem) (hrun : prog.run ⟨mem, [], []⟩ = .ok (r, w'))
    (hsilent : w'.scribbles = []) (hallowed : ∀ e ∈ calls p prog mem, Allowed A e)
    (hroom : w'.notes.length + 1 < A.size) :
    ∃ t, exec (step A) (.up s) (FileSystem.operation p prog mem) = .ok (.up t) ∧
      Up A t w'.mem ∧ t.bio.disk = s.bio.disk ∧ t.log.outstanding = 1 := by
  have hout := h.outstanding
  have hbegin : s.beginOp = .ok { s with log := { s.log with outstanding := 1 } } := by
    unfold Fs.beginOp
    rw [if_neg (by simp [h.idle]), if_neg (by rw [h.committed, hout]; decide), hout]
    rfl
  have hup : Up A { s with log := { s.log with outstanding := 1 } } mem :=
    ⟨⟨h.area.start, h.area.size, h.area.dev⟩, h.idle, h.txn, h.shows, h.empty⟩
  obtain ⟨t, hexec, hran⟩ := Up.calls (w := ⟨mem, [], []⟩) hup hrun hsilent
    (fun b hb => by cases hb) hallowed (Int.le_refl 1) (by rw [h.committed]; simpa using hroom)
  refine ⟨t, ?_, hran.up, hran.disk, hran.outstanding⟩
  rw [FileSystem.operation, exec_cons, step, hbegin]
  exact hexec

/-- After its `end_op` the changes of the function are on disk, all of them. If power fails in
the `end_op`, a recovery finds all of them or none. -/
theorem Quiet.atomic (h : Quiet A s mem) (hrun : prog.run ⟨mem, [], []⟩ = .ok (r, w'))
    (hsilent : w'.scribbles = []) (hallowed : ∀ e ∈ calls p prog mem, Allowed A e)
    (hroom : w'.notes.length + 1 < A.size) :
    (∃ u mem', exec (step A) (.up s) (FileSystem.operation p prog mem ++ [.endOp p]) =
        .ok (.up u) ∧ Quiet A u mem' ∧ ∀ b, A.Home b → mem' b = w'.mem b) ∧
    ∀ k, ∃ disk, exec (step A) (.up s)
        (FileSystem.operation p prog mem ++ [.crashInEndOp p k]) = .ok (.down disk) ∧
      ((∀ b, A.Home b → A.redo.recovered disk b = mem b) ∨
        ∀ b, A.Home b → A.redo.recovered disk b = w'.mem b) := by
  obtain ⟨t, hexec, ht, hdisk, hone⟩ := h.operation hrun hsilent hallowed hroom
  obtain ⟨u, mem', hend, hu, hhome, hcases⟩ := ht.endOp (p := p)
  refine ⟨⟨u, mem', ?_, ?_, hhome⟩, fun k => ?_⟩
  · rw [exec_append, hexec, ok_bind, exec_cons, step, hend]
    rfl
  · obtain ⟨hne, -⟩ | ⟨-, hlog, -⟩ := hcases
    · exact absurd hone hne
    · exact ⟨hu, by rw [hlog], by rw [hlog]⟩
  · -- the store falls back to what was durable, or to what the function has left
    have hrefines : Refines A (.up t) ⟨mem, w'.mem⟩ :=
      ⟨w'.mem, ht, fun b _ => ⟨rfl, by rw [hdisk]; exact (h.disk_home b).symm⟩⟩
    have hcrash : ∃ disk, step A (.up t) (.crashInEndOp p k) = .ok (.down disk) :=
      ⟨_, by rw [step, hend]; rfl⟩
    obtain ⟨disk, hcrash⟩ := hcrash
    refine ⟨disk, by rw [exec_append, hexec, ok_bind, exec_cons, hcrash]; rfl, ?_⟩
    obtain ⟨n, hnext, hdown⟩ :=
      refines_step _ _ _ (.crashInEndOp p k) hrefines trivial hcrash
    simp only [emit, if_pos hone, takes_singleton] at hnext
    cases hnext with
    | crashBefore => exact Or.inl fun b hb => (hdown.2 b hb).1.symm
    | crashAfter => exact Or.inr fun b hb => (hdown.2 b hb).1.symm

/-- Each transaction of `filewrite`, from a readable buffer, is such a function: it fits into any
log of more than eight blocks. -/
theorem Quiet.writeChunk_atomic {sb : Superblock} {i : Fin sb.ninodes} {src : ℕ → Option Byte}
    {off n : ℕ} (h : Quiet A s mem) (hvolume : Volume sb mem) (hlive : (sb.files mem i).type ≠ 0)
    (hsize : sb.size ≤ BPB) (hn : n ≤ maxWrite) (hread : ∀ j < n, (src j).isSome)
    (hallowed : ∀ e ∈ calls p (writeChunk sb i src off n) mem, Allowed A e) (hlog : 8 < A.size) :
    ∃ m new, Advanced sb i src off n mem m new ∧
      (∃ u mem', exec (step A) (.up s)
          (FileSystem.operation p (writeChunk sb i src off n) mem ++ [.endOp p]) = .ok (.up u) ∧
        Quiet A u mem' ∧ ∀ b, A.Home b → mem' b = new b) ∧
      ∀ k, ∃ disk, exec (step A) (.up s)
          (FileSystem.operation p (writeChunk sb i src off n) mem ++ [.crashInEndOp p k]) =
          .ok (.down disk) ∧
        ((∀ b, A.Home b → A.redo.recovered disk b = mem b) ∨
          ∀ b, A.Home b → A.redo.recovered disk b = new b) := by
  obtain ⟨r, w', hrun, ⟨hadvanced, -, hsilent⟩, hnotes⟩ :=
    writeChunk_ends src off hvolume hlive hsize hn
  exact ⟨r.getD 0, w'.mem, hadvanced, h.atomic hrun (hsilent hread) hallowed (by omega)⟩

end Machine

end AdvancedOperatingSystems.FileSystem
