import AdvancedOperatingSystems.FileSystem.Commit
import AdvancedOperatingSystems.Foundations.Simulation

/-!
# Crash safety of the log

Processes begin and end operations, read blocks and change them through the log, in any
order. The machine may lose power between these calls, after any number of the disk writes of
an `end_op`, and after any number of the disk writes of the recovery at boot. Seen from
outside, the home blocks are a store with a durable copy: a commit makes it current, and a
crash falls back to it, where a crash in a commit has made it current or has not.
-/

namespace AdvancedOperatingSystems.FileSystem

open Foundations Riscv DemandPaging

namespace Fs

variable (pid b : ℕ) (s : Fs)

/-- How a system call changes a block: `bread`, the change, `log_write`, `brelse`. -/
def change (f : Block → Block) : Except Stop Fs := do
  let (i, bio) ← s.bio.bread pid s.log.dev b
  let s ← ({ s with bio := bio.setData i (f (bio.buf i).data) } : Fs).logWrite i
  let bio ← s.bio.brelse pid i
  return { s with bio := bio }

/-- How a system call reads a block: `bread`, a look at the data, `brelse`. -/
def look : Except Stop (Block × Fs) := do
  let (i, bio) ← s.bio.bread pid s.log.dev b
  let data := (bio.buf i).data
  let bio ← bio.brelse pid i
  return (data, { s with bio := bio })

end Fs

/-- The machine is up, or it is down and only the disk is left. -/
inductive Machine
  | up (s : Fs)
  | down (disk : ℕ → Block)

/-- What happens to the machine. A crash in an `end_op` or in a boot comes after `k` of its
disk writes. -/
inductive FsEvent
  | beginOp (pid : ℕ)
  | change (pid b : ℕ) (f : Block → Block)
  | look (pid b : ℕ)
  | endOp (pid : ℕ)
  | crash
  | crashInEndOp (pid k : ℕ)
  | boot (pid : ℕ)
  | crashInBoot (pid k : ℕ)

namespace Machine

variable (A : LogArea)

/-- `log` in zeroed memory. -/
def zeroLog : Log := ⟨0, 0, 0, false, 0, []⟩

/-- `binit`, and `initlog` with the superblock's log. -/
def start (pid : ℕ) (disk : ℕ → Block) : Except Stop Fs :=
  ({ bio := .binit disk, log := zeroLog } : Fs).initlog pid ROOTDEV A.start A.size

/-- One event. A machine that is up does not boot, and one that is down does nothing else. -/
def step : Machine → FsEvent → Except Stop Machine
  | up s, .beginOp _ => s.beginOp >>= fun t => .ok (up t)
  | up s, .change pid b f => s.change pid b f >>= fun t => .ok (up t)
  | up s, .look pid b => s.look pid b >>= fun r => .ok (up r.2)
  | up s, .endOp pid => s.endOp pid >>= fun t => .ok (up t)
  | up s, .crash => .ok (down s.bio.disk)
  | up s, .crashInEndOp pid k =>
      s.endOp pid >>= fun t =>
        .ok (down (applyWrites s.bio.disk ((t.bio.written.drop s.bio.written.length).take k)))
  | down disk, .boot pid => start A pid disk >>= fun t => .ok (up t)
  | down disk, .crashInBoot pid k =>
      start A pid disk >>= fun t => .ok (down (applyWrites disk (t.bio.written.take k)))
  | _, _ => .error .sleep

inductive Label
  | change (b : ℕ) (f : Block → Block)
  | look (b : ℕ) (data : Block)
  | commit
  | crash
  | crashInCommit

/-- What is seen of an event. The last `end_op` of a group commits. -/
def emit : Machine → FsEvent → List Label
  | up _, .change _ b f => [.change b f]
  | up s, .look pid b =>
      match s.look pid b with
      | .ok (data, _) => [.look b data]
      | .error _ => []
  | up s, .endOp _ => if s.log.outstanding = 1 then [.commit] else []
  | up _, .crash => [.crash]
  | up s, .crashInEndOp _ _ => if s.log.outstanding = 1 then [.crashInCommit] else [.crash]
  | _, _ => []

end Machine

structure Store where
  durable : ℕ → Block
  current : ℕ → Block

/-- The steps of the store. -/
inductive Store.Next : Store → Machine.Label → Store → Prop
  | change (m : Store) (b : ℕ) (f : Block → Block) :
      Next m (.change b f) ⟨m.durable, Function.update m.current b (f (m.current b))⟩
  | look (m : Store) (b : ℕ) : Next m (.look b (m.current b)) m
  | commit (m : Store) : Next m .commit ⟨m.current, m.current⟩
  | crash (m : Store) : Next m .crash ⟨m.durable, m.durable⟩
  | crashBefore (m : Store) : Next m .crashInCommit ⟨m.durable, m.durable⟩
  | crashAfter (m : Store) : Next m .crashInCommit ⟨m.current, m.current⟩

namespace Machine

/-- A running system between two calls: the transaction's blocks are pinned, no lock is held
and the log on disk is empty. -/
structure Up (A : LogArea) (s : Fs) (mem : ℕ → Block) : Prop where
  area : A.Is s.log
  idle : s.log.committing = false
  txn : A.Txn s.log.lh
  shows : s.bio.Shows mem (pins s.log.lh) fun _ => none
  empty : decodeHeader (s.bio.disk A.start) = []

def Refines (A : LogArea) : Machine → Store → Prop
  | up s, m => ∃ mem, Up A s mem ∧ ∀ b, A.Home b → m.current b = mem b ∧ m.durable b = s.bio.disk b
  | down disk, m => A.Txn (decodeHeader (disk A.start)) ∧
      ∀ b, A.Home b → m.current b = A.redo.recovered disk b ∧ m.durable b = A.redo.recovered disk b

/-- System calls read and change blocks outside of the log only, by their 32-bit numbers. -/
def Allowed (A : LogArea) : FsEvent → Prop
  | .change _ b _ => A.Home b ∧ b < 2 ^ 32
  | .look _ b => A.Home b
  | _ => True

instance (A : LogArea) : ∀ e, Decidable (Allowed A e)
  | .change _ b _ => inferInstanceAs (Decidable (A.Home b ∧ b < 2 ^ 32))
  | .look _ b => inferInstanceAs (Decidable (A.Home b))
  | .beginOp _ => isTrue trivial
  | .endOp _ => isTrue trivial
  | .crash => isTrue trivial
  | .crashInEndOp _ _ => isTrue trivial
  | .boot _ => isTrue trivial
  | .crashInBoot _ _ => isTrue trivial

variable {A : LogArea} {s t : Fs} {mem : ℕ → Block} {p b : ℕ} {f : Block → Block}

theorem Up.length_lt (h : Up A s mem) : s.log.lh.length < NBUF :=
  Nat.lt_of_lt_of_le h.txn.length_lt A.fits

theorem Up.look (h : Up A s mem) :
    ∃ t, s.look p b = .ok (mem b, t) ∧ Up A t mem ∧ t.bio.disk = s.bio.disk ∧ t.log = s.log := by
  obtain ⟨i, s₁, hread, h₁, hi, -, hdisk₁, -⟩ :=
    Bio.bread_shows (p := p) h.shows (fun c hc => pins_pos.mp hc) (Or.inr h.length_lt) (b := b)
      rfl
  obtain ⟨s₂, hrel, h₂, -, hdisk₂, -⟩ :=
    Bio.brelse_shows (p := p) h₁ hi.has (by simp) (by simp)
      (by
        intro hone
        rw [hdisk₁]
        exact (h.shows.clean b (by simpa using hone)).2)
  refine ⟨{ s with bio := s₂ }, ?_, ⟨h.area, h.idle, h.txn, h₂.congr rfl (by simp) (by simp), ?_⟩,
    hdisk₂.trans hdisk₁, rfl⟩
  · simp only [Fs.look, h.area.dev, hread, ok_bind, h₁.data_eq hi, hrel]
    rfl
  · change decodeHeader (s₂.disk A.start) = []
    rw [hdisk₂, hdisk₁]
    exact h.empty

/-- Whether `log_write` takes a block. -/
def LogRoom (s : Fs) : Prop :=
  s.log.lh.length < LOGSIZE ∧ (s.log.lh.length : ℤ) < s.log.size - 1 ∧ 1 ≤ s.log.outstanding

/-- A change goes to the memory and not to the disk. -/
theorem Up.change (h : Up A s mem) (hb : A.Home b) (hbound : b < 2 ^ 32) (hroom : LogRoom s) :
    ∃ t, s.change p b f = .ok t ∧ Up A t (Function.update mem b (f (mem b))) ∧
      t.bio.disk = s.bio.disk ∧
      t.log = { s.log with lh := if b ∈ s.log.lh then s.log.lh else s.log.lh ++ [b] } := by
  obtain ⟨hlen, hsize, hout⟩ := hroom
  obtain ⟨i, s₁, hread, h₁, hi, -, hdisk₁, -⟩ :=
    Bio.bread_shows (p := p) h.shows (fun c hc => pins_pos.mp hc) (Or.inr h.length_lt) (b := b)
      rfl
  obtain ⟨h₂, hkeep₂⟩ := Bio.setData_shows h₁ hi (by simp) (f (mem b))
  have hi₂ := hi.of_keeps hkeep₂ (by simp)
  have hnot : ¬ (s.log.lh.length ≥ LOGSIZE ∨ (s.log.lh.length : ℤ) ≥ s.log.size - 1) := by
    omega
  have hnot' : ¬ s.log.outstanding < 1 := by omega
  have hblock : ((s₁.setData i (f (mem b))).buf i).blockno = b := hi₂.has.2.2
  by_cases hmem : b ∈ s.log.lh
  · -- the block is in the log already
    obtain ⟨s₃, hrel, h₃, -, hdisk₃, -⟩ :=
      Bio.brelse_shows (p := p) h₂ hi₂.has (by simp) (by simp) (by simp [pins, hmem])
    refine ⟨{ s with bio := s₃ }, ?_, ⟨h.area, h.idle, h.txn, h₃.congr rfl (by simp) (by simp), ?_⟩,
      hdisk₃.trans hdisk₁, by rw [if_pos hmem]⟩
    · simp only [Fs.change, h.area.dev, hread, ok_bind, h₁.data_eq hi, Fs.logWrite, if_neg hnot,
        if_neg hnot', hblock, if_pos hmem, hrel]
      rfl
    · change decodeHeader (s₃.disk A.start) = []
      rw [hdisk₃]
      exact hdisk₁ ▸ h.empty
  · obtain ⟨h₃, hkeep₃⟩ := Bio.bpin_shows h₂ hi₂.has
    have hi₃ := hi₂.of_keeps hkeep₃ (by simp)
    obtain ⟨s₄, hrel, h₄, -, hdisk₄, -⟩ :=
      Bio.brelse_shows (p := p) h₃ hi₃.has (by simp) (by simp) (by simp [pins, hmem])
    have hpins : pins (s.log.lh ++ [b]) = Function.update (pins s.log.lh) b 1 := by
      funext c
      by_cases hc : c = b
      · subst hc
        simp [pins]
      · rw [Function.update_of_ne hc]
        simp [pins, hc]
    have htxn : A.Txn (s.log.lh ++ [b]) := by
      refine ⟨?_, ?_, ?_, ?_⟩
      · rw [List.nodup_append]
        refine ⟨h.txn.nodup, List.nodup_singleton b, ?_⟩
        rintro c hc d hd rfl
        exact hmem (List.mem_singleton.mp hd ▸ hc)
      · intro c hc
        rcases List.mem_append.mp hc with hc | hc
        · exact h.txn.home c hc
        · rw [List.mem_singleton.mp hc]
          exact hb
      · intro c hc
        rcases List.mem_append.mp hc with hc | hc
        · exact h.txn.bound c hc
        · rw [List.mem_singleton.mp hc]
          exact hbound
      · rw [h.area.size] at hsize
        rw [List.length_append, List.length_singleton]
        omega
    refine ⟨{ bio := s₄, log := { s.log with lh := s.log.lh ++ [b] } }, ?_,
      ⟨⟨h.area.start, h.area.size, h.area.dev⟩, h.idle, htxn, ?_, ?_⟩, hdisk₄.trans hdisk₁,
      by rw [if_neg hmem]⟩
    · simp only [Fs.change, h.area.dev, hread, ok_bind, h₁.data_eq hi, Fs.logWrite, if_neg hnot,
        if_neg hnot', hblock, if_neg hmem, hrel]
      rfl
    · refine h₄.congr rfl ?_ (by simp)
      rw [hpins]
      simp [pins, hmem]
    · change decodeHeader (s₄.disk A.start) = []
      rw [hdisk₄]
      exact hdisk₁ ▸ h.empty

/-- What an `end_op` does: it leaves the disk alone, or it is the last of its group and makes
the writes of a commit. -/
theorem Up.endOp (h : Up A s mem) :
    ∃ t mem', s.endOp p = .ok t ∧ Up A t mem' ∧ (∀ b, A.Home b → mem' b = mem b) ∧
      (s.log.outstanding ≠ 1 ∧ t.bio = s.bio ∧
          t.log = { s.log with outstanding := s.log.outstanding - 1 } ∨
        s.log.outstanding = 1 ∧ t.log = { s.log with outstanding := 0, lh := [] } ∧
          (∀ b, A.Home b → t.bio.disk b = mem b) ∧
          (t.bio.disk = s.bio.disk ∧ t.bio.written = s.bio.written ∨
            ∃ h₁ h₀, decodeHeader h₁ = s.log.lh ∧ decodeHeader h₀ = [] ∧
              t.bio.written = s.bio.written ++ A.redo.commitWrites mem s.log.lh h₁ h₀)) := by
  have hidle : ¬ s.log.committing = true := by simp [h.idle]
  by_cases hlast : s.log.outstanding = 1
  · have hzero : s.log.outstanding - 1 = 0 := by omega
    have hlog : ∀ l : Log, l.outstanding = s.log.outstanding - 1 → l.committing = true →
        l.lh = [] → l.start = s.log.start → l.size = s.log.size → l.dev = s.log.dev →
        ({ l with committing := false } : Log) = { s.log with outstanding := 0, lh := [] } := by
      rintro ⟨⟩ rfl rfl rfl rfl rfl rfl
      simp [hzero, h.idle]
    set s' : Fs :=
      { s with log := { s.log with outstanding := s.log.outstanding - 1, committing := true } } with hs'
    rcases Nat.eq_zero_or_pos s.log.lh.length with hempty | hpos
    · -- there is nothing to commit
      have hnil := List.length_eq_zero_iff.mp hempty
      refine ⟨{ s' with log := { s'.log with committing := false } }, mem, ?_,
        ⟨⟨h.area.start, h.area.size, h.area.dev⟩, rfl, h.txn, h.shows, h.empty⟩, fun _ _ => rfl,
        Or.inr ⟨hlast, hlog s'.log rfl rfl hnil rfl rfl rfl, fun b _ => ?_, Or.inl ⟨rfl, rfl⟩⟩⟩
      · have hcommit : s'.commit p = .ok s' := by
          rw [Fs.commit, if_neg (by rw [hs', hempty]; exact lt_irrefl 0)]
        simp only [Fs.endOp, if_neg hidle, if_pos hzero]
        rw [hcommit]
        rfl
      · exact (h.shows.clean b (by simp [pins, hnil])).2
    · obtain ⟨t, mem', h₁, h₀, hcommit, htlog, ht, hhome, hh₁, hh₀, hdisk, hwritten⟩ :=
        Fs.commit_shows (p := p) (s := s') (A := A) ⟨h.area.start, h.area.size, h.area.dev⟩ h.txn
          hpos h.shows
      have hdisk' : ∀ b, A.Home b → t.bio.disk b = mem b := fun b hb =>
        (ht.clean b rfl).2.trans (hhome b hb)
      refine ⟨{ t with log := { t.log with committing := false } }, mem', ?_, ⟨?_, rfl, ?_, ?_, ?_⟩,
        hhome, Or.inr ⟨hlast, ?_, hdisk', Or.inr ⟨h₁, h₀, hh₁, hh₀, hwritten⟩⟩⟩
      · simp only [Fs.endOp, if_neg hidle, if_pos hzero]
        rw [hcommit]
        rfl
      · rw [htlog]
        exact ⟨h.area.start, h.area.size, h.area.dev⟩
      · rw [htlog]
        exact A.txn_nil
      · rw [htlog]
        exact ht
      · change decodeHeader (t.bio.disk A.redo.header) = []
        rw [hdisk, RedoLog.commitWrites_header, hh₀]
      · rw [htlog]
        exact hlog _ rfl rfl rfl rfl rfl rfl
  · have hne : ¬ s.log.outstanding - 1 = 0 := by omega
    refine ⟨{ s with log := { s.log with outstanding := s.log.outstanding - 1 } }, mem, ?_,
      ⟨⟨h.area.start, h.area.size, h.area.dev⟩, h.idle, h.txn, h.shows, h.empty⟩, fun _ _ => rfl,
      Or.inl ⟨hlast, rfl, rfl⟩⟩
    simp only [Fs.endOp, if_neg hidle, if_neg hne]

theorem start_up {disk : ℕ → Block} (hdisk : A.Txn (decodeHeader (disk A.start))) :
    ∃ t mem h₀, start A p disk = .ok t ∧ Up A t mem ∧ t.log.lh = [] ∧ t.log.outstanding = 0 ∧
      (∀ b, A.Home b → mem b = A.redo.recovered disk b ∧ t.bio.disk b = A.redo.recovered disk b) ∧
      decodeHeader h₀ = [] ∧ t.bio.written = A.redo.recoveryWrites disk h₀ := by
  obtain ⟨t, mem, h₀, hboot, hlog, ht, hh₀, hd, hwritten⟩ :=
    Fs.initlog_shows (p := p) (A := A) disk zeroLog hdisk
  have hhome : ∀ b, A.Home b → t.bio.disk b = A.redo.recovered disk b := by
    intro b hb
    rw [hd]
    exact RedoLog.recoveryWrites_home (LogArea.not_reserved.mpr hb)
  refine ⟨t, mem, h₀, hboot, ⟨by rw [hlog]; exact ⟨rfl, rfl, rfl⟩, by rw [hlog]; rfl,
    by rw [hlog]; exact A.txn_nil, by rw [hlog]; exact ht, ?_⟩, by rw [hlog], by rw [hlog]; rfl,
    fun b hb => ⟨?_, hhome b hb⟩, hh₀, hwritten⟩
  · change decodeHeader (t.bio.disk A.redo.header) = []
    rw [hd, RedoLog.recoveryWrites_header, hh₀]
  · rw [← (ht.clean b rfl).2]
    exact hhome b hb

/-- Each event of the machine is one of the store. -/
theorem refines_step (M N : Machine) (m : Store) (e : FsEvent) (hM : Refines A M m)
    (hallowed : Allowed A e) (hstep : step A M e = .ok N) :
    ∃ n, Takes Store.Next m (emit M e) n ∧ Refines A N n := by
  cases M with
  | up s =>
    obtain ⟨mem, hup, hstore⟩ := hM
    cases e with
    | beginOp p =>
      obtain ⟨t, hbegin, hN⟩ := bind_ok_iff.mp hstep
      cases hN
      refine ⟨m, rfl, mem, ?_⟩
      unfold Fs.beginOp at hbegin
      split_ifs at hbegin
      cases hbegin
      exact ⟨⟨⟨hup.area.start, hup.area.size, hup.area.dev⟩, hup.idle, hup.txn, hup.shows, hup.empty⟩,
        hstore⟩
    | change p b f =>
      obtain ⟨t, hchange, hN⟩ := bind_ok_iff.mp hstep
      cases hN
      have hroom : LogRoom s := by
        by_contra hnot
        obtain ⟨i, s₁, hread, h₁, hi, -, -, -⟩ :=
          Bio.bread_shows (p := p) hup.shows (fun c hc => pins_pos.mp hc)
            (Or.inr hup.length_lt) (b := b) rfl
        simp only [Fs.change, hup.area.dev, hread, ok_bind, Fs.logWrite] at hchange
        split_ifs at hchange with hfull hout
        · cases hchange
        · cases hchange
        · exact hnot ⟨by omega, by omega, by omega⟩
        · exact hnot ⟨by omega, by omega, by omega⟩
      obtain ⟨t', hchange', ht', hdisk', -⟩ :=
        hup.change (p := p) (f := f) hallowed.1 hallowed.2 hroom
      obtain rfl : t' = t := Except.ok.inj (hchange'.symm.trans hchange)
      refine ⟨_, takes_singleton.mpr (.change m b f), _, ht', fun c hc => ?_⟩
      rw [hdisk']
      refine ⟨?_, (hstore c hc).2⟩
      by_cases hcb : c = b
      · subst hcb
        simp [(hstore c hc).1]
      · simp [Function.update_of_ne hcb, (hstore c hc).1]
    | look p b =>
      obtain ⟨⟨data, t⟩, hlook, hN⟩ := bind_ok_iff.mp hstep
      cases hN
      obtain ⟨t', hlook', ht', hdisk', -⟩ := hup.look (p := p) (b := b)
      obtain ⟨rfl, rfl⟩ := Prod.mk.inj (Except.ok.inj (hlook'.symm.trans hlook))
      refine ⟨m, ?_, mem, ht', by rw [hdisk']; exact hstore⟩
      simp only [emit, hlook', takes_singleton]
      rw [← (hstore b hallowed).1]
      exact .look m b
    | endOp p =>
      obtain ⟨t, hend, hN⟩ := bind_ok_iff.mp hstep
      cases hN
      obtain ⟨t', mem', hend', ht', hhome, hcases⟩ := hup.endOp (p := p)
      obtain rfl : t' = t := Except.ok.inj (hend'.symm.trans hend)
      rcases hcases with ⟨hlast, hbio, -⟩ | ⟨hlast, -, hdisk, -⟩
      · refine ⟨m, by simp [emit, hlast], mem', ht', fun b hb => ?_⟩
        rw [hhome b hb, hbio]
        exact hstore b hb
      · refine ⟨⟨m.current, m.current⟩, ?_, mem', ht', fun b hb => ?_⟩
        · simp only [emit, if_pos hlast, takes_singleton]
          exact .commit m
        · rw [hhome b hb, hdisk b hb]
          exact ⟨(hstore b hb).1, (hstore b hb).1⟩
    | crash =>
      cases hstep
      refine ⟨⟨m.durable, m.durable⟩, takes_singleton.mpr (.crash m), ?_, fun b hb => ?_⟩
      · rw [hup.empty]
        exact A.txn_nil
      · rw [RedoLog.recovered_of_empty hup.empty]
        exact ⟨(hstore b hb).2, (hstore b hb).2⟩
    | crashInEndOp p k =>
      obtain ⟨t, hend, hN⟩ := bind_ok_iff.mp hstep
      cases hN
      obtain ⟨t', mem', hend', ht', hhome, hcases⟩ := hup.endOp (p := p)
      obtain rfl : t' = t := Except.ok.inj (hend'.symm.trans hend)
      -- without writes the disk is as it was
      have hnone : t'.bio.written = s.bio.written →
          Refines A (down (applyWrites s.bio.disk
            ((t'.bio.written.drop s.bio.written.length).take k))) ⟨m.durable, m.durable⟩ := by
        intro hsame
        rw [hsame, List.drop_length, List.take_nil, applyWrites_nil]
        refine ⟨by rw [hup.empty]; exact A.txn_nil, fun b hb => ?_⟩
        rw [RedoLog.recovered_of_empty hup.empty]
        exact ⟨(hstore b hb).2, (hstore b hb).2⟩
      rcases hcases with ⟨hlast, hbio, -⟩ | ⟨hlast, -, -, ⟨-, hsame⟩ | ⟨h₁, h₀, hh₁, hh₀, hwritten⟩⟩
      · refine ⟨⟨m.durable, m.durable⟩, ?_, hnone (by rw [hbio])⟩
        simp only [emit, if_neg hlast, takes_singleton]
        exact .crash m
      · refine ⟨⟨m.durable, m.durable⟩, ?_, hnone hsame⟩
        simp only [emit, if_pos hlast, takes_singleton]
        exact .crashBefore m
      · rw [hwritten, List.drop_left]
        obtain ⟨htxn, hold | hnew⟩ := LogArea.crash_commit hup.txn hup.empty hh₁ hh₀ k (f := mem)
        · refine ⟨⟨m.durable, m.durable⟩, ?_, htxn, fun b hb => ?_⟩
          · simp only [emit, if_pos hlast, takes_singleton]
            exact .crashBefore m
          · rw [hold b hb]
            exact ⟨(hstore b hb).2, (hstore b hb).2⟩
        · refine ⟨⟨m.current, m.current⟩, ?_, htxn, fun b hb => ?_⟩
          · simp only [emit, if_pos hlast, takes_singleton]
            exact .crashAfter m
          · have hmem : RedoLog.committed s.bio.disk mem s.log.lh b = mem b := by
              unfold RedoLog.committed
              split_ifs with hin
              · rfl
              · exact (hup.shows.clean b (by simp [pins, hin])).2
            rw [hnew b hb, hmem]
            exact ⟨(hstore b hb).1, (hstore b hb).1⟩
    | boot p => cases hstep
    | crashInBoot p k => cases hstep
  | down disk =>
    obtain ⟨htxn, hstore⟩ := hM
    cases e with
    | boot p =>
      obtain ⟨t, hboot, hN⟩ := bind_ok_iff.mp hstep
      cases hN
      obtain ⟨t', mem, h₀, hboot', ht', -, -, hhome, -⟩ := start_up (p := p) htxn
      obtain rfl : t' = t := Except.ok.inj (hboot'.symm.trans hboot)
      refine ⟨m, rfl, mem, ht', fun b hb => ?_⟩
      rw [(hhome b hb).1, (hhome b hb).2]
      exact hstore b hb
    | crashInBoot p k =>
      obtain ⟨t, hboot, hN⟩ := bind_ok_iff.mp hstep
      cases hN
      obtain ⟨t', mem, h₀, hboot', -, -, -, -, hh₀, hwritten⟩ := start_up (p := p) htxn
      obtain rfl : t' = t := Except.ok.inj (hboot'.symm.trans hboot)
      rw [hwritten]
      obtain ⟨htxn', hkeep⟩ := LogArea.crash_recovery htxn hh₀ k
      refine ⟨m, rfl, htxn', fun b hb => ?_⟩
      rw [hkeep b hb]
      exact hstore b hb
    | beginOp p => cases hstep
    | change p b f => cases hstep
    | look p b => cases hstep
    | endOp p => cases hstep
    | crash => cases hstep
    | crashInEndOp p k => cases hstep

/-- Every run of the machine, with crashes at any point of a commit or of a recovery, looks
like one of the store: what is read is what was written, a group of operations survives a
crash as a whole or not at all, and committed ones survive. -/
theorem log_crash_safe (A : LogArea) (disk : ℕ → Block)
    (hdisk : A.Txn (decodeHeader (disk A.start))) (es : List FsEvent)
    (hes : ∀ e ∈ es, Allowed A e) :
    ∃ m, Takes Store.Next ⟨A.redo.recovered disk, A.redo.recovered disk⟩
      (history (step A) emit (.down disk) es) m := by
  obtain ⟨m, hm, -⟩ := takes_history (R := Refines A) (fun _ e => Allowed A e)
    (fun M m e N hM he hstep => refines_step M N m e hM he hstep)
    (s := .down disk) (m := ⟨A.redo.recovered disk, A.redo.recovered disk⟩)
    ⟨hdisk, fun _ _ => ⟨rfl, rfl⟩⟩ (guarded_of_forall hes)
  exact ⟨m, hm⟩

/-- The log as `mkfs` lays it out. -/
def mkfsLog : LogArea := ⟨2, LOGSIZE, by decide, by decide⟩

/-- Two blocks are changed, and power fails after `k` writes of the commit. -/
def sampleRun (k : ℕ) : List FsEvent :=
  [.boot 1, .beginOp 1, .change 1 5000 (fun _ _ => 7), .change 1 5001 (fun _ _ => 8),
    .crashInEndOp 1 k, .boot 1, .look 1 5000]

/-- Block 5001 of the disk after a run. -/
def sampleByte (r : Except Stop Machine) : Option Byte :=
  match r with
  | .ok (.up s) => some (s.bio.disk 5001 0)
  | .ok (.down disk) => some (disk 5001 0)
  | .error _ => none

/-- The header makes the difference, although no home block was written before it. -/
theorem sample_log_crash_safe :
    (∃ m, Takes Store.Next ⟨mkfsLog.redo.recovered fun _ _ => 0, mkfsLog.redo.recovered fun _ _ => 0⟩
      (history (step mkfsLog) emit (.down fun _ _ => 0) (sampleRun 3)) m) ∧
    sampleByte (exec (step mkfsLog) (.down fun _ _ => 0) (sampleRun 2)) = some 0 ∧
    sampleByte (exec (step mkfsLog) (.down fun _ _ => 0) (sampleRun 3)) = some 8 := by
  refine ⟨log_crash_safe mkfsLog (fun _ _ => 0) (decodeHeader_zero ▸ mkfsLog.txn_nil) (sampleRun 3) ?_, ?_, ?_⟩
  · decide +kernel
  · decide +kernel
  · decide +kernel

end Machine

end AdvancedOperatingSystems.FileSystem
