import AdvancedOperatingSystems.FileSystem.CrashSafety
import AdvancedOperatingSystems.Foundations.Totals

/-!
# Reserving log space

`begin_op` reserves `MAXOPBLOCKS` blocks of the log for each operation and lets a process
wait when they might not fit into `LOGSIZE` blocks. One block of the log that `mkfs` makes is
the header, so that `log_write` takes one block less than that. A run in which no operation
changes more than `budget` blocks never panics if and only if the budget is below
`MAXOPBLOCKS`.
-/

namespace AdvancedOperatingSystems.FileSystem

open Foundations Riscv DemandPaging

/-- The blocks that each process has changed in its operation, if it is in one. -/
abbrev Usage := ℕ → Option (List ℕ)

namespace Usage

def next (u : Usage) : FsEvent → Usage
  | .beginOp p => Function.update u p (some [])
  | .change p b _ => Function.update u p ((u p).map (List.insert b))
  | .look _ _ => u
  | .endOp p => Function.update u p none
  | _ => fun _ => none

/-- Processes call `begin_op` outside of an operation, and `log_write` and `end_op` in one,
which changes at most `budget` blocks. -/
def Allows (budget : ℕ) (u : Usage) : FsEvent → Prop
  | .beginOp p => p < NPROC ∧ u p = none
  | .change p b _ => (u p).any fun bs => (bs.insert b).length ≤ budget
  | .endOp p => (u p).isSome
  | .crashInEndOp p _ => (u p).isSome
  | _ => True

instance (budget : ℕ) (u : Usage) : ∀ e, Decidable (u.Allows budget e)
  | .beginOp p => inferInstanceAs (Decidable (p < NPROC ∧ u p = none))
  | .change p b _ =>
      inferInstanceAs (Decidable ((u p).any (fun bs => (bs.insert b).length ≤ budget) = true))
  | .endOp p => inferInstanceAs (Decidable ((u p).isSome = true))
  | .crashInEndOp p _ => inferInstanceAs (Decidable ((u p).isSome = true))
  | .look _ _ => isTrue trivial
  | .crash => isTrue trivial
  | .boot _ => isTrue trivial
  | .crashInBoot _ _ => isTrue trivial

theorem Allows.mono {budget more : ℕ} (h : budget ≤ more) {u : Usage} {e : FsEvent}
    (he : u.Allows budget e) : u.Allows more e := by
  cases e with
  | change p b f =>
    obtain ⟨bs, hbs, hle⟩ := (Option.any_eq_true _ _).mp he
    exact (Option.any_eq_true _ _).mpr
      ⟨bs, hbs, decide_eq_true (Nat.le_trans (of_decide_eq_true hle) h)⟩
  | beginOp p => exact he
  | look p b => exact he
  | endOp p => exact he
  | crash => exact he
  | crashInEndOp p k => exact he
  | boot p => exact he
  | crashInBoot p k => exact he

def Within (A : LogArea) (budget : ℕ) : Usage → List FsEvent → Prop
  | _, [] => True
  | u, e :: es => Machine.Allowed A e ∧ u.Allows budget e ∧ Within A budget (u.next e) es

instance decidableWithin (A : LogArea) (budget : ℕ) :
    ∀ (u : Usage) (es : List FsEvent), Decidable (Within A budget u es)
  | _, [] => isTrue trivial
  | u, e :: es =>
      have := decidableWithin A budget (u.next e) es
      inferInstanceAs (Decidable (Machine.Allowed A e ∧ u.Allows budget e ∧ _))

theorem Within.mono {A : LogArea} {budget more : ℕ} (h : budget ≤ more) {u : Usage}
    {es : List FsEvent} (hes : Within A budget u es) : Within A more u es := by
  induction es generalizing u with
  | nil => trivial
  | cons e es ih => exact ⟨hes.1, hes.2.1.mono h, ih hes.2.2⟩

def rest (v : Option (List ℕ)) : ℕ := v.elim 0 fun bs => MAXOPBLOCKS - bs.length

def ops (v : Option (List ℕ)) : ℕ := v.elim 0 fun _ => 1

end Usage

namespace Machine

open Usage

/-- What `begin_op` keeps: the blocks in the log and those reserved fit into `LOGSIZE`, and an
operation that is alone leaves a block of it. -/
structure Reserved (budget : ℕ) (s : Fs) (u : Usage) : Prop where
  count : s.log.outstanding = total NPROC ops u
  space : s.log.lh.length + total NPROC Usage.rest u ≤ LOGSIZE
  alone : s.log.outstanding ≤ 1 → s.log.lh.length + total NPROC Usage.rest u < LOGSIZE
  quiet : s.log.outstanding = 0 → s.log.lh = []
  slots : ∀ p bs, u p = some bs → p < NPROC ∧ bs.length ≤ budget ∧ ∀ b ∈ bs, b ∈ s.log.lh

def Budgeted (A : LogArea) (budget : ℕ) : Machine → Usage → Prop
  | up s, u => ∃ mem, Up A s mem ∧ Reserved budget s u
  | down disk, u => A.Txn (decodeHeader (disk A.start)) ∧ u = fun _ => none

variable {A : LogArea} {budget : ℕ} {s : Fs} {u : Usage} {mem : ℕ → Block}

/-- A process in an operation finds room in the log: each operation holds a reservation. -/
theorem Reserved.logRoom (hA : A.Is s.log) (hsize : A.size = LOGSIZE) (h : Reserved budget s u)
    (hbudget : budget < MAXOPBLOCKS) {p : ℕ} {bs : List ℕ} (hp : u p = some bs) : LogRoom s := by
  obtain ⟨hslot, hlen, -⟩ := h.slots p bs hp
  have hops := cost_le_total ops u hslot
  rw [hp] at hops
  simp only [ops, Option.elim_some] at hops
  -- every operation under way has a block left that it may log
  have hrest : total NPROC ops u ≤ 1 * total NPROC Usage.rest u := by
    apply total_le_mul
    intro q _
    cases hq : u q with
    | none => exact Nat.zero_le _
    | some cs =>
      have := (h.slots q cs hq).2.1
      simp only [ops, Usage.rest, Option.elim_some]
      omega
  have hspace := h.space
  have halone := h.alone
  have hcount := h.count
  refine ⟨?_, ?_, ?_⟩
  · omega
  · rw [hA.size, hsize]
    omega
  · omega

/-- The changes that an operation may still make are at most `MAXOPBLOCKS` for each operation. -/
theorem rest_le_ops (u : Usage) : total NPROC Usage.rest u ≤ MAXOPBLOCKS * total NPROC ops u := by
  apply total_le_mul
  intro q _
  cases u q <;> simp [Usage.rest, ops]

/-- `begin_op` reserves. -/
theorem Reserved.beginOp (h : Reserved budget s u) {p : ℕ} (hp : p < NPROC) (hnone : u p = none)
    (hfits : s.log.lh.length + (s.log.outstanding + 1) * MAXOPBLOCKS ≤ (LOGSIZE : ℤ)) :
    Reserved budget { s with log := { s.log with outstanding := s.log.outstanding + 1 } }
      (u.next (.beginOp p)) := by
  have hops := total_update ops u hp (some [])
  have hrest := total_update Usage.rest u hp (some [])
  rw [hnone] at hops hrest
  simp only [ops, Usage.rest, Option.elim_none, Option.elim_some, List.length_nil] at hops hrest
  have hle := rest_le_ops u
  have hcount := h.count
  simp only [LOGSIZE, MAXOPBLOCKS] at hfits hrest hle
  refine ⟨?_, ?_, ?_, ?_, ?_⟩
  · simp only [next]
    omega
  · simp only [next, LOGSIZE, MAXOPBLOCKS]
    omega
  · intro hone
    have hempty := h.quiet (by dsimp only at hone; omega)
    simp only [next, LOGSIZE, MAXOPBLOCKS, hempty, List.length_nil]
    dsimp only at hone
    omega
  · intro hzero
    dsimp only at hzero
    omega
  · intro q bs hq
    simp only [next] at hq
    by_cases hqp : q = p
    · subst hqp
      rw [Function.update_self] at hq
      cases hq
      exact ⟨hp, Nat.zero_le _, fun b hb => (by cases hb)⟩
    · rw [Function.update_of_ne hqp] at hq
      exact h.slots q bs hq

/-- `log_write` uses up a reservation for a block that is new to the operation. -/
theorem Reserved.change (h : Reserved budget s u) (hbudget : budget < MAXOPBLOCKS) {p b : ℕ}
    {bs : List ℕ} (hp : u p = some bs) (hlen : (bs.insert b).length ≤ budget) {t : Fs}
    (hlog : t.log = { s.log with lh := if b ∈ s.log.lh then s.log.lh else s.log.lh ++ [b] })
    {f : Block → Block} : Reserved budget t (u.next (.change p b f)) := by
  obtain ⟨hslot, hbs, hin⟩ := h.slots p bs hp
  have hops := total_update ops u hslot (some (bs.insert b))
  have hrest := total_update Usage.rest u hslot (some (bs.insert b))
  have hone := cost_le_total ops u hslot
  rw [hp] at hops hrest hone
  simp only [ops, Usage.rest, Option.elim_some] at hops hrest hone
  have hcount := h.count
  have hspace := h.space
  have halone := h.alone
  -- the log grows only if the reservation shrinks
  have hgrow : t.log.lh.length + total NPROC Usage.rest (u.next (.change p b f)) ≤
      s.log.lh.length + total NPROC Usage.rest u := by
    simp only [next, hp, Option.map_some, hlog]
    by_cases hold : b ∈ bs
    · rw [List.insert_of_mem hold] at hrest ⊢
      rw [if_pos (hin b hold)]
      omega
    · rw [List.insert_of_not_mem hold, List.length_cons] at hrest hlen
      rw [List.insert_of_not_mem hold]
      split_ifs
      · omega
      · rw [List.length_append, List.length_singleton]
        omega
  have hmem : ∀ c, c ∈ s.log.lh ∨ c = b → c ∈ t.log.lh := by
    intro c hc
    simp only [hlog]
    split_ifs with hb
    · rcases hc with hc | rfl
      · exact hc
      · exact hb
    · exact List.mem_append.mpr (hc.imp id List.mem_singleton.mpr)
  have hout : t.log.outstanding = s.log.outstanding := by rw [hlog]
  refine ⟨?_, ?_, ?_, ?_, ?_⟩
  · rw [hout, hcount]
    simp only [next, hp, Option.map_some]
    omega
  · omega
  · intro hle
    rw [hout] at hle
    have := halone hle
    omega
  · intro hzero
    rw [hout] at hzero
    omega
  · intro q cs hq
    simp only [next, hp, Option.map_some] at hq
    by_cases hqp : q = p
    · subst hqp
      rw [Function.update_self] at hq
      cases hq
      refine ⟨hslot, hlen, fun c hc => ?_⟩
      rcases List.mem_insert_iff.mp hc with rfl | hc
      · exact hmem c (Or.inr rfl)
      · exact hmem c (Or.inl (hin c hc))
    · rw [Function.update_of_ne hqp] at hq
      obtain ⟨hlt, hcs, hall⟩ := h.slots q cs hq
      exact ⟨hlt, hcs, fun c hc => hmem c (Or.inl (hall c hc))⟩

/-- `end_op` gives up what is left of a reservation. -/
theorem Reserved.endOp (h : Reserved budget s u) (hbudget : budget < MAXOPBLOCKS) {p : ℕ}
    (hp : (u p).isSome) {t : Fs}
    (hlog : s.log.outstanding ≠ 1 ∧
        t.log = { s.log with outstanding := s.log.outstanding - 1 } ∨
      s.log.outstanding = 1 ∧ t.log = { s.log with outstanding := 0, lh := [] }) :
    Reserved budget t (u.next (.endOp p)) := by
  obtain ⟨bs, hbs⟩ := Option.isSome_iff_exists.mp hp
  obtain ⟨hslot, hlen, -⟩ := h.slots p bs hbs
  have hops := total_update ops u hslot none
  have hrest := total_update Usage.rest u hslot none
  rw [hbs] at hops hrest
  simp only [ops, Usage.rest, Option.elim_some, Option.elim_none] at hops hrest
  have hle := rest_le_ops (u.next (.endOp p))
  simp only [next] at hle
  have hcount := h.count
  have hspace := h.space
  rcases hlog with ⟨hnot, hlog⟩ | ⟨hlast, hlog⟩
  · refine ⟨?_, ?_, ?_, ?_, ?_⟩
    · rw [hlog]
      change s.log.outstanding - 1 = _
      simp only [next]
      omega
    · rw [hlog]
      simp only [next]
      omega
    · intro _
      rw [hlog]
      simp only [next]
      omega
    · rw [hlog]
      intro hzero
      change s.log.outstanding - 1 = 0 at hzero
      omega
    · intro q cs hq
      simp only [next] at hq
      by_cases hqp : q = p
      · subst hqp
        rw [Function.update_self] at hq
        cases hq
      · rw [Function.update_of_ne hqp] at hq
        rw [hlog]
        exact h.slots q cs hq
  · refine ⟨?_, ?_, ?_, ?_, ?_⟩
    · rw [hlog]
      change (0 : ℤ) = _
      simp only [next]
      omega
    · rw [hlog]
      simp only [next, List.length_nil]
      omega
    · intro _
      rw [hlog]
      simp only [next, List.length_nil]
      omega
    · intro _
      rw [hlog]
    · -- no other operation is under way
      intro q cs hq
      simp only [next] at hq
      by_cases hqp : q = p
      · subst hqp
        rw [Function.update_self] at hq
        cases hq
      · have hq' := hq
        rw [Function.update_of_ne hqp] at hq'
        have hone := cost_le_total ops (Function.update u p none) (h.slots q cs hq').1
        rw [hq] at hone
        simp only [ops, Option.elim_some] at hone
        omega

/-- An event of operations within the budget does not panic, and the reservations still fit. -/
theorem budgeted_step (hsize : A.size = LOGSIZE) (hbudget : budget < MAXOPBLOCKS) {M : Machine}
    {e : FsEvent} (hM : Budgeted A budget M u) (hallowed : Allowed A e)
    (huse : u.Allows budget e) :
    (∃ N, step A M e = .ok N ∧ Budgeted A budget N (u.next e)) ∨ step A M e = .error .sleep := by
  cases M with
  | up s =>
    obtain ⟨mem, hup, hres⟩ := hM
    have htxn := hup.txn
    cases e with
    | beginOp p =>
      obtain ⟨hp, hnone⟩ := huse
      have hbegin : s.beginOp = .error .sleep ∨
          s.beginOp = .ok { s with log := { s.log with outstanding := s.log.outstanding + 1 } } ∧
            s.log.lh.length + (s.log.outstanding + 1) * MAXOPBLOCKS ≤ (LOGSIZE : ℤ) := by
        unfold Fs.beginOp
        split_ifs with hcommitting hfull
        · exact Or.inl rfl
        · exact Or.inl rfl
        · exact Or.inr ⟨rfl, by omega⟩
      rcases hbegin with hsleep | ⟨hok, hfits⟩
      · exact Or.inr (by rw [step, hsleep]; rfl)
      · exact Or.inl
          ⟨up { s with log := { s.log with outstanding := s.log.outstanding + 1 } },
          by rw [step, hok]; rfl, mem,
          ⟨⟨hup.area.start, hup.area.size, hup.area.dev⟩, hup.idle, htxn, hup.shows, hup.empty⟩,
          hres.beginOp hp hnone hfits⟩
    | change p b f =>
      obtain ⟨bs, hp, hlen⟩ := (Option.any_eq_true _ _).mp huse
      obtain ⟨t, hchange, ht, -, hlog⟩ := hup.change (p := p) (f := f) hallowed.1 hallowed.2
        (hres.logRoom hup.area hsize hbudget hp)
      exact Or.inl ⟨up t, by rw [step, hchange]; rfl, _, ht,
        hres.change hbudget hp (of_decide_eq_true hlen) hlog⟩
    | look p b =>
      obtain ⟨t, hlook, ht, -, hlog⟩ := hup.look (p := p) (b := b)
      refine Or.inl ⟨up t, by rw [step, hlook]; rfl, mem, ht, ?_⟩
      exact ⟨hlog ▸ hres.count, hlog ▸ hres.space, hlog ▸ hres.alone, hlog ▸ hres.quiet,
        hlog ▸ hres.slots⟩
    | endOp p =>
      obtain ⟨t, mem', hend, ht, -, hcases⟩ := hup.endOp (p := p)
      refine Or.inl ⟨up t, by rw [step, hend]; rfl, mem', ht, hres.endOp hbudget huse ?_⟩
      rcases hcases with ⟨hnot, -, hlog⟩ | ⟨hlast, hlog, -, -⟩
      · exact Or.inl ⟨hnot, hlog⟩
      · exact Or.inr ⟨hlast, hlog⟩
    | crash =>
      refine Or.inl ⟨down s.bio.disk, rfl, ?_, rfl⟩
      rw [hup.empty]
      exact A.txn_nil
    | crashInEndOp p k =>
      obtain ⟨t, mem', hend, ht, -, hcases⟩ := hup.endOp (p := p)
      refine Or.inl ⟨down _, by rw [step, hend]; rfl, ?_, rfl⟩
      have hnone : t.bio.written = s.bio.written → A.Txn (decodeHeader
          (applyWrites s.bio.disk ((t.bio.written.drop s.bio.written.length).take k) A.start)) := by
        intro hsame
        rw [hsame, List.drop_length, List.take_nil, applyWrites_nil, hup.empty]
        exact A.txn_nil
      rcases hcases with ⟨-, hbio, -⟩ | ⟨-, -, -, ⟨-, hsame⟩ | ⟨h₁, h₀, hh₁, hh₀, hwritten⟩⟩
      · exact hnone (by rw [hbio])
      · exact hnone hsame
      · rw [hwritten, List.drop_left]
        exact (LogArea.crash_commit htxn hup.empty hh₁ hh₀ k).1
    | boot p => exact Or.inr rfl
    | crashInBoot p k => exact Or.inr rfl
  | down disk =>
    obtain ⟨htxn, rfl⟩ := hM
    cases e with
    | boot p =>
      obtain ⟨t, mem, h₀, hboot, ht, hlh, hout, -⟩ := start_up (p := p) htxn
      have hrest : total NPROC Usage.rest (fun _ => none) = 0 := total_const Usage.rest none rfl
      refine Or.inl ⟨up t, by rw [step, hboot]; rfl, mem, ht, ?_, ?_, ?_, ?_, ?_⟩
      · rw [hout]
        simp only [next]
        rw [total_const ops none rfl]
        rfl
      · simp only [hlh, next, hrest]
        decide
      · intro _
        simp only [hlh, next, hrest]
        decide
      · intro _
        exact hlh
      · intro q k hq
        cases hq
    | crashInBoot p k =>
      obtain ⟨t, mem, h₀, hboot, -, -, -, -, hh₀, hwritten⟩ := start_up (p := p) htxn
      refine Or.inl ⟨down _, by rw [step, hboot]; rfl, ?_, rfl⟩
      rw [hwritten]
      exact (LogArea.crash_recovery htxn hh₀ k).1
    | beginOp p => exact Or.inr rfl
    | change p b f => exact Or.inr rfl
    | look p b => exact Or.inr rfl
    | endOp p => exact Or.inr rfl
    | crash => exact Or.inr rfl
    | crashInEndOp p k => exact Or.inr rfl

/-- A run of operations within the budget does not panic. -/
theorem budgeted_run (hsize : A.size = LOGSIZE) (hbudget : budget < MAXOPBLOCKS) {M : Machine}
    {es : List FsEvent} (hM : Budgeted A budget M u) (hes : Within A budget u es)
    (message : Panic) : exec (step A) M es ≠ .error (.panic message) := by
  induction es generalizing M u with
  | nil =>
    intro h
    cases h
  | cons e es ih =>
    rw [exec_cons]
    rcases budgeted_step hsize hbudget hM hes.1 hes.2.1 with ⟨N, hstep, hN⟩ | hsleep
    · rw [hstep, ok_bind]
      exact ih hN hes.2.2
    · rw [hsleep]
      intro h
      cases h

def fullRun : List FsEvent :=
  [.boot 1, .beginOp 1, .beginOp 2, .beginOp 3] ++
    (List.range MAXOPBLOCKS).flatMap fun i =>
      [.change 1 (5000 + i) id, .change 2 (5100 + i) id, .change 3 (5200 + i) id]

def stop : Except Stop Machine → Option Stop
  | .ok _ => none
  | .error e => some e

theorem fullRun_panics :
    exec (step mkfsLog) (.down fun _ _ => 0) fullRun = .error (.panic "too big a transaction") := by
  have hstop : stop (exec (step mkfsLog) (.down fun _ _ => 0) fullRun) =
      some (.panic "too big a transaction") := by
    decide +kernel
  cases hrun : exec (step mkfsLog) (.down fun _ _ => 0) fullRun with
  | ok M =>
    rw [hrun] at hstop
    cases hstop
  | error e =>
    rw [hrun] at hstop
    cases hstop
    rfl

/-- With the log of `mkfs` the runs within a budget of blocks for each operation never panic
exactly when the budget is below the `MAXOPBLOCKS` that `begin_op` reserves: three operations
of ten blocks fill a log that has room for 29. -/
theorem log_never_full_iff (budget : ℕ) :
    (∀ disk : ℕ → Block, mkfsLog.Txn (decodeHeader (disk mkfsLog.start)) →
      ∀ es, Within mkfsLog budget (fun _ => none) es →
        ∀ message, exec (step mkfsLog) (.down disk) es ≠ .error (.panic message)) ↔
      budget < MAXOPBLOCKS := by
  constructor
  · intro h
    by_contra hlarge
    have hwithin : Within mkfsLog MAXOPBLOCKS (fun _ => none) fullRun := by decide +kernel
    exact h (fun _ _ => 0) (decodeHeader_zero ▸ mkfsLog.txn_nil) fullRun
      (hwithin.mono (Nat.le_of_not_lt hlarge)) _ fullRun_panics
  · intro hbudget disk hdisk es hes message
    exact budgeted_run rfl hbudget (M := .down disk) ⟨hdisk, rfl⟩ hes message

end Machine

end AdvancedOperatingSystems.FileSystem
