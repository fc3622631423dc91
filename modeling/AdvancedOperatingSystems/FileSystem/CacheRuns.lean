import AdvancedOperatingSystems.FileSystem.CacheView
import AdvancedOperatingSystems.Foundations.Simulation
import AdvancedOperatingSystems.Foundations.Totals

/-!
# Processes that share the buffer cache

The processes run the functions of `bio.c` in any interleaving. What `bcache.lock` protects
is one step; `bread` waits for the sleep lock between the search for a buffer and the read
from disk, and `brelse` lets others run between giving up the lock and dropping the
reference. `pins` counts for each block the calls of `bpin` that were not undone.
-/

namespace AdvancedOperatingSystems.FileSystem

open Foundations Riscv DemandPaging

/-- Where in `bread` or `brelse` a process is, with the buffer and the block of the call. -/
inductive Pc
  | idle
  | waiting (i b : ℕ)
  | reading (i b : ℕ)
  | releasing (i b : ℕ)
  deriving DecidableEq

/-- The buffer cache, the processes and the pins. -/
structure Caching where
  bio : Bio
  pc : ℕ → Pc
  pins : ℕ → ℕ

/-- The steps of process `p`. `i` is the index of a buffer. -/
inductive CacheEvent
  | bget (p b : ℕ)
  | acquiresleep (p : ℕ)
  | fill (p : ℕ)
  | store (p i : ℕ) (data : Block)
  | bwrite (p i : ℕ)
  | bpin (p i : ℕ)
  | bunpin (p i : ℕ)
  | brelse (p i : ℕ)
  | drop (p : ℕ)

/-- What is seen of a block: a `bread` that returns, or a change by the holder. -/
inductive Seen
  | read (b : ℕ) (data : Block)
  | wrote (b : ℕ) (data : Block)

/-- A memory of blocks: a read returns what was last written. -/
inductive Seen.Next : (ℕ → Block) → Seen → (ℕ → Block) → Prop
  | read (mem : ℕ → Block) (b : ℕ) : Next mem (.read b (mem b)) mem
  | wrote (mem : ℕ → Block) (b : ℕ) (data : Block) :
      Next mem (.wrote b data) (Function.update mem b data)

namespace Caching

variable (c : Caching)

def setPc (p : ℕ) (pc : Pc) : Caching := { c with pc := Function.update c.pc p pc }

@[simp] theorem setPc_self (p : ℕ) (pc : Pc) : (c.setPc p pc).pc p = pc := by simp [setPc]

def block (i : ℕ) : ℕ := (c.bio.buf i).blockno

/-- One step of a process. A step that the process is not at, or that has to wait, is not
taken. -/
def step (c : Caching) : CacheEvent → Except Stop Caching
  | .bget p b =>
      if c.pc p = .idle then
        c.bio.bgetLocked ROOTDEV b >>= fun r =>
          .ok (({ c with bio := r.2 } : Caching).setPc p (.waiting r.1 b))
      else .error .sleep
  | .acquiresleep p =>
      match c.pc p with
      | .waiting i b =>
          c.bio.acquiresleep p i >>= fun bio =>
            .ok (({ c with bio := bio } : Caching).setPc p (.reading i b))
      | _ => .error .sleep
  | .fill p =>
      match c.pc p with
      | .reading i _ => .ok (({ c with bio := c.bio.fill i } : Caching).setPc p .idle)
      | _ => .error .sleep
  | .store p i data =>
      if c.pc p = .idle then .ok { c with bio := c.bio.setData i data } else .error .sleep
  | .bwrite p i =>
      if c.pc p = .idle then
        c.bio.bwrite p i >>= fun bio => .ok { c with bio := bio }
      else .error .sleep
  | .bpin p i =>
      if c.pc p = .idle then
        .ok { c with
          bio := c.bio.bpin i
          pins := Function.update c.pins (c.block i) (c.pins (c.block i) + 1) }
      else .error .sleep
  | .bunpin p i =>
      if c.pc p = .idle then
        .ok { c with
          bio := c.bio.bunpin i
          pins := Function.update c.pins (c.block i) (c.pins (c.block i) - 1) }
      else .error .sleep
  | .brelse p i =>
      if c.pc p = .idle then
        if c.bio.holdingsleep p i then
          .ok (({ c with bio := c.bio.releasesleep i } : Caching).setPc p (.releasing i (c.block i)))
        else .error (.panic "brelse")
      else .error .sleep
  | .drop p =>
      match c.pc p with
      | .releasing i _ => .ok (({ c with bio := c.bio.brelseLocked i } : Caching).setPc p .idle)
      | _ => .error .sleep

/-- What is seen of a step. -/
def emit (c : Caching) : CacheEvent → List Seen
  | .fill p =>
      match c.pc p with
      | .reading i b => [.read b ((c.bio.fill i).buf i).data]
      | _ => []
  | .store _ i data => [.wrote (c.block i) data]
  | _ => []

/-- How the kernel uses buffers: the holder of a buffer changes it and pins and unpins it, and
releases it only when it is on disk or pinned. -/
def Disciplined (c : Caching) : CacheEvent → Prop
  | .bget p _ => p < NPROC
  | .store p i _ => i ∈ c.bio.order ∧ c.bio.holdingsleep p i
  | .bwrite _ i => i ∈ c.bio.order
  | .bpin p i => i ∈ c.bio.order ∧ c.bio.holdingsleep p i
  | .bunpin p i => i ∈ c.bio.order ∧ c.bio.holdingsleep p i ∧ 0 < c.pins (c.block i)
  | .brelse p i => p < NPROC ∧ i ∈ c.bio.order ∧
      (c.bio.disk (c.block i) = (c.bio.buf i).data ∨ 0 < c.pins (c.block i))
  | _ => True

/-- Whether a process refers to a block without its lock. -/
def pending (b : ℕ) : Pc → ℕ
  | .waiting _ d => if d = b then 1 else 0
  | .releasing _ d => if d = b then 1 else 0
  | _ => 0

def locked (l : Option ℕ) : ℕ := l.elim 0 fun _ => 1

/-- Who refers to a block: pins, the holder of the lock, and the processes that wait for the
lock or have just given it up. -/
def users (held : ℕ → Option ℕ) (b : ℕ) : ℕ :=
  c.pins b + locked (held b) + total NPROC (pending b) c.pc

/-- What the steps keep. -/
structure Inv (mem : ℕ → Block) (held : ℕ → Option ℕ) : Prop where
  shows : c.bio.Shows mem (c.users held) held
  procs : ∀ p, c.pc p ≠ .idle → p < NPROC
  waiting : ∀ p i b, c.pc p = .waiting i b → c.bio.Has i b
  reading : ∀ p i b, c.pc p = .reading i b → c.bio.Has i b ∧ held b = some p
  releasing : ∀ p i b, c.pc p = .releasing i b → c.bio.Has i b
  loaded : ∀ p i b, c.bio.Has i b → held b = some p → c.pc p = .reading i b ∨ (c.bio.buf i).valid
  saved : ∀ b, held b = none → c.pins b = 0 → c.bio.disk b = mem b

variable {c} {mem : ℕ → Block} {held : ℕ → Option ℕ} {p i b : ℕ}

theorem one_le_pending (h : c.Inv mem held) (hp : c.pc p = .waiting i b ∨ c.pc p = .releasing i b) :
    1 ≤ total NPROC (pending b) c.pc := by
  have hproc : p < NPROC := by
    apply h.procs
    rcases hp with hp | hp <;> rw [hp] <;> exact Pc.noConfusion
  have hle := cost_le_total (pending b) c.pc hproc
  have hone : pending b (c.pc p) = 1 := by
    rcases hp with hp | hp <;> simp [hp, pending]
  omega

theorem users_setPc (hp : p < NPROC) (pc : Pc) (d : ℕ) :
    (c.setPc p pc).users held d + pending d (c.pc p) = c.users held d + pending d pc := by
  have := total_update (pending d) c.pc hp pc
  unfold users setPc
  dsimp only
  omega

theorem users_pos_of_held {q : ℕ} (hb : held b = some q) : 0 < c.users held b := by
  simp [users, hb, locked]

theorem Inv.users_pos_of_pending (h : c.Inv mem held)
    (hp : c.pc p = .waiting i b ∨ c.pc p = .releasing i b) : 0 < c.users held b := by
  have := one_le_pending h hp
  unfold users
  omega

theorem Inv.before (h : c.Inv mem held) {bio : Bio} (hsound : bio.Sound)
    (hkeeps : c.bio.Keeps bio (c.users held)) {q j d : ℕ} (hd : held d = some q)
    (hj : bio.Has j d) : c.bio.Has j d ∧ ((c.bio.buf j).valid → (bio.buf j).valid) := by
  have hpos := users_pos_of_held (c := c) hd
  obtain ⟨k, hk⟩ := h.shows.has_of_refs hpos
  obtain ⟨hk', hvalid⟩ := hkeeps k d hpos hk
  obtain rfl : j = k := hk'.unique hsound hj
  exact ⟨hk, hvalid⟩

/-- What a step of process `p` leaves of the invariant for the others. -/
theorem Inv.advance (h : c.Inv mem held) {t : Caching} {mem' : ℕ → Block} {held' : ℕ → Option ℕ}
    (shows : t.bio.Shows mem' (t.users held') held') (keeps : c.bio.Keeps t.bio (c.users held))
    (hproc : t.pc p ≠ .idle → p < NPROC) (others : ∀ q, q ≠ p → t.pc q = c.pc q)
    (locks : ∀ q b, q ≠ p → (held' b = some q ↔ held b = some q))
    (hwaiting : ∀ i b, t.pc p = .waiting i b → t.bio.Has i b)
    (hreading : ∀ i b, t.pc p = .reading i b → t.bio.Has i b ∧ held' b = some p)
    (hreleasing : ∀ i b, t.pc p = .releasing i b → t.bio.Has i b)
    (hloaded : ∀ i b, t.bio.Has i b → held' b = some p →
      t.pc p = .reading i b ∨ (t.bio.buf i).valid)
    (saved : ∀ b, held' b = none → t.pins b = 0 → t.bio.disk b = mem' b) : t.Inv mem' held' where
  shows := shows
  procs := by
    intro q hq
    by_cases hqp : q = p
    · subst hqp
      exact hproc hq
    · rw [others q hqp] at hq
      exact h.procs q hq
  waiting := by
    intro q i b hq
    by_cases hqp : q = p
    · subst hqp
      exact hwaiting i b hq
    · rw [others q hqp] at hq
      exact (keeps i b (h.users_pos_of_pending (Or.inl hq)) (h.waiting q i b hq)).1
  reading := by
    intro q i b hq
    by_cases hqp : q = p
    · subst hqp
      exact hreading i b hq
    · rw [others q hqp] at hq
      obtain ⟨hhas, hheld⟩ := h.reading q i b hq
      exact ⟨(keeps i b (users_pos_of_held hheld) hhas).1, (locks q b hqp).mpr hheld⟩
  releasing := by
    intro q i b hq
    by_cases hqp : q = p
    · subst hqp
      exact hreleasing i b hq
    · rw [others q hqp] at hq
      exact (keeps i b (h.users_pos_of_pending (Or.inr hq)) (h.releasing q i b hq)).1
  loaded := by
    intro q i b hhas hheld
    by_cases hqp : q = p
    · subst hqp
      exact hloaded i b hhas hheld
    · rw [others q hqp]
      have hold := (locks q b hqp).mp hheld
      obtain ⟨hhas', hvalid⟩ := h.before shows.sound keeps hold hhas
      exact (h.loaded q i b hhas' hold).imp id hvalid
  saved := saved

theorem Inv.holder (h : c.Inv mem held) (hi : i ∈ c.bio.order) (hold : c.bio.holdingsleep p i)
    (hidle : c.pc p = .idle) : c.bio.Loaded i (c.block i) ∧ held (c.block i) = some p := by
  have hlock : (c.bio.buf i).lock = some p := by simpa [Bio.holdingsleep] using hold
  have hdev : (c.bio.buf i).dev = ROOTDEV := by
    by_contra hdev
    rw [(h.shows.unused i hi hdev).2] at hlock
    cases hlock
  have hhas : c.bio.Has i (c.block i) := ⟨hi, hdev, rfl⟩
  have hheld : held (c.block i) = some p := by
    rw [← (h.shows.cached i _ hhas).2.1, hlock]
  refine ⟨⟨hhas, ?_⟩, hheld⟩
  rcases h.loaded p i _ hhas hheld with hreading | hvalid
  · rw [hidle] at hreading
    cases hreading
  · exact hvalid

/-- A step of the holder that leaves the locks and the program counters alone. -/
theorem Inv.update (h : c.Inv mem held) {t : Caching} {mem' : ℕ → Block}
    (hheld : held b = some p) (shows : t.bio.Shows mem' (t.users held) held)
    (keeps : c.bio.Keeps t.bio (c.users held)) (hpc : t.pc = c.pc)
    (hsaved : ∀ d, d ≠ b → t.pins d = c.pins d ∧ t.bio.disk d = c.bio.disk d ∧ mem' d = mem d) :
    t.Inv mem' held where
  shows := shows
  procs := by rw [hpc]; exact h.procs
  waiting := by
    intro q j d hq
    rw [hpc] at hq
    exact (keeps j d (h.users_pos_of_pending (Or.inl hq)) (h.waiting q j d hq)).1
  reading := by
    intro q j d hq
    rw [hpc] at hq
    obtain ⟨hhas, hd⟩ := h.reading q j d hq
    exact ⟨(keeps j d (users_pos_of_held hd) hhas).1, hd⟩
  releasing := by
    intro q j d hq
    rw [hpc] at hq
    exact (keeps j d (h.users_pos_of_pending (Or.inr hq)) (h.releasing q j d hq)).1
  loaded := by
    intro q j d hhas hd
    rw [hpc]
    obtain ⟨hhas', hvalid⟩ := h.before shows.sound keeps hd hhas
    exact (h.loaded q j d hhas' hd).imp id hvalid
  saved := by
    intro d hd hpins
    have hne : d ≠ b := by
      rintro rfl
      rw [hheld] at hd
      cases hd
    obtain ⟨hp, hdisk, hmem⟩ := hsaved d hne
    rw [hdisk, hmem]
    exact h.saved d hd (hp ▸ hpins)

theorem users_eq (held : ℕ → Option ℕ) {t : Caching} {held' : ℕ → Option ℕ} {pc : Pc} {d : ℕ}
    (hp : p < NPROC)
    (hpc : t.pc = Function.update c.pc p pc) {u : ℕ}
    (h : t.pins d + locked (held' d) + pending d pc + c.users held d =
      c.pins d + locked (held d) + pending d (c.pc p) + u) : t.users held' d = u := by
  have := total_update (pending d) c.pc hp pc
  unfold users at h ⊢
  rw [hpc]
  omega

section Steps

variable (h : c.Inv mem held)

include h

theorem inv_bget {r : ℕ × Bio} (hp : p < NPROC) (hidle : c.pc p = .idle)
    (hget : c.bio.bgetLocked ROOTDEV b = .ok r) :
    (({ c with bio := r.2 } : Caching).setPc p (.waiting r.1 b)).Inv mem held := by
  obtain ⟨hu, hhas, hkeeps, hdisk, -⟩ := Bio.bgetLocked_shows h.shows hget
  have hloaded : ∀ i d, c.bio.Has i d → held d = some p → (c.bio.buf i).valid := by
    intro i d hi hd
    rcases h.loaded p i d hi hd with hreading | hvalid
    · rw [hidle] at hreading
      cases hreading
    · exact hvalid
  refine h.advance (p := p) (hu.congr rfl ?_ rfl) hkeeps (fun _ => hp)
    (fun q hq => Function.update_of_ne hq _ _) (fun _ _ _ => Iff.rfl) ?_ ?_ ?_ ?_ ?_
  · funext d
    symm
    apply users_eq (c := c) held hp rfl
    by_cases hd : d = b
    · subst hd
      simp [setPc, pending, hidle]
      omega
    · simp [setPc, pending, hidle, Ne.symm hd, Function.update_of_ne hd]
  · intro i d hq
    rw [setPc_self] at hq
    cases hq
    exact hhas
  · intro i d hq
    rw [setPc_self] at hq
    cases hq
  · intro i d hq
    rw [setPc_self] at hq
    cases hq
  · intro i d hi hd
    obtain ⟨hi', hvalid⟩ := h.before hu.sound hkeeps hd hi
    exact Or.inr (hvalid (hloaded i d hi' hd))
  · intro d hd hpins
    change r.2.disk d = mem d
    rw [hdisk]
    exact h.saved d hd hpins

theorem inv_acquiresleep {bio : Bio} (hpc : c.pc p = .waiting i b)
    (hget : c.bio.acquiresleep p i = .ok bio) :
    (({ c with bio := bio } : Caching).setPc p (.reading i b)).Inv mem
      (Function.update held b (some p)) := by
  have hp : p < NPROC := h.procs p (by rw [hpc]; exact Pc.noConfusion)
  have hhas := h.waiting p i b hpc
  obtain ⟨hfree, hu, hhas', hkeeps, hdisk, -⟩ :=
    Bio.acquiresleep_shows h.shows hhas (h.users_pos_of_pending (Or.inl hpc)) hget
  refine h.advance (p := p) (hu.congr rfl ?_ rfl) hkeeps (fun _ => hp)
    (fun q hq => Function.update_of_ne hq _ _) ?_ ?_ ?_ ?_ ?_ ?_
  · funext d
    symm
    apply users_eq (c := c) held hp rfl
    by_cases hd : d = b
    · subst hd
      simp [setPc, pending, hpc, hfree, locked]
    · simp [setPc, pending, hpc, Ne.symm hd, Function.update_of_ne hd]
  · intro q d hq
    by_cases hd : d = b
    · subst hd
      simp [hfree, Ne.symm hq]
    · rw [Function.update_of_ne hd]
  · intro j d hq
    rw [setPc_self] at hq
    cases hq
  · intro j d hq
    rw [setPc_self] at hq
    cases hq
    exact ⟨hhas', Function.update_self b _ _⟩
  · intro j d hq
    rw [setPc_self] at hq
    cases hq
  · intro j d hj hd
    by_cases hdb : d = b
    · subst hdb
      left
      obtain rfl : j = i := hhas'.unique hu.sound hj
      simp [setPc]
    · rw [Function.update_of_ne hdb] at hd
      obtain ⟨hj', hvalid⟩ := h.before hu.sound hkeeps hd hj
      rcases h.loaded p j d hj' hd with hreading | hvalid'
      · rw [hpc] at hreading
        cases hreading
      · exact Or.inr (hvalid hvalid')
  · intro d hd hpins
    have hdb : d ≠ b := by
      rintro rfl
      simp at hd
    rw [Function.update_of_ne hdb] at hd
    change bio.disk d = mem d
    rw [hdisk]
    exact h.saved d hd hpins

theorem inv_fill (hpc : c.pc p = .reading i b) :
    (({ c with bio := c.bio.fill i } : Caching).setPc p .idle).Inv mem held ∧
      ((c.bio.fill i).buf i).data = mem b := by
  have hp : p < NPROC := h.procs p (by rw [hpc]; exact Pc.noConfusion)
  obtain ⟨hhas, hheld⟩ := h.reading p i b hpc
  obtain ⟨hu, hloaded, hkeeps, hdisk, -⟩ :=
    Bio.fill_shows h.shows hhas (users_pos_of_held hheld)
  refine ⟨h.advance (p := p) (hu.congr rfl ?_ rfl) hkeeps (fun _ => hp)
    (fun q hq => Function.update_of_ne hq _ _) (fun _ _ _ => Iff.rfl) ?_ ?_ ?_ ?_ ?_,
    hu.data_eq hloaded⟩
  · funext d
    symm
    apply users_eq (c := c) held hp rfl
    simp [setPc, pending, hpc]
  · intro j d hq
    rw [setPc_self] at hq
    cases hq
  · intro j d hq
    rw [setPc_self] at hq
    cases hq
  · intro j d hq
    rw [setPc_self] at hq
    cases hq
  · intro j d hj hd
    obtain ⟨hj', hvalid⟩ := h.before hu.sound hkeeps hd hj
    right
    rcases h.loaded p j d hj' hd with hreading | hvalid'
    · rw [hpc] at hreading
      cases hreading
      exact hloaded.valid
    · exact hvalid hvalid'
  · intro d hd hpins
    change (c.bio.fill i).disk d = mem d
    rw [hdisk]
    exact h.saved d hd hpins

theorem inv_store (hidle : c.pc p = .idle) (hi : i ∈ c.bio.order)
    (hold : c.bio.holdingsleep p i) (x : Block) :
    ({ c with bio := c.bio.setData i x } : Caching).Inv
      (Function.update mem (c.block i) x) held := by
  obtain ⟨hloaded, hheld⟩ := h.holder hi hold hidle
  obtain ⟨hu, hkeeps⟩ := Bio.setData_shows h.shows hloaded (users_pos_of_held hheld) x
  exact h.update hheld hu hkeeps rfl fun d hd => ⟨rfl, rfl, Function.update_of_ne hd _ _⟩

theorem inv_bwrite {bio : Bio} (hidle : c.pc p = .idle) (hi : i ∈ c.bio.order)
    (hwrite : c.bio.bwrite p i = .ok bio) : ({ c with bio := bio } : Caching).Inv mem held := by
  have hold : c.bio.holdingsleep p i := by
    by_contra hnot
    rw [Bio.bwrite, if_neg hnot] at hwrite
    cases hwrite
  obtain ⟨hloaded, hheld⟩ := h.holder hi hold hidle
  obtain ⟨bio', hwrite', hu, hkeeps, hdisk, -⟩ := Bio.bwrite_shows h.shows hloaded hheld
  obtain rfl : bio' = bio := Except.ok.inj (hwrite'.symm.trans hwrite)
  refine h.update hheld hu hkeeps rfl fun d hd => ⟨rfl, ?_, rfl⟩
  rw [hdisk, Function.update_of_ne hd]

theorem inv_bpin (hidle : c.pc p = .idle) (hi : i ∈ c.bio.order)
    (hold : c.bio.holdingsleep p i) :
    ({ c with
      bio := c.bio.bpin i
      pins := Function.update c.pins (c.block i) (c.pins (c.block i) + 1) } :
      Caching).Inv mem held := by
  obtain ⟨hloaded, hheld⟩ := h.holder hi hold hidle
  obtain ⟨hu, hkeeps⟩ := Bio.bpin_shows h.shows hloaded.has
  refine h.update hheld (hu.congr rfl ?_ rfl) hkeeps rfl fun d hd =>
    ⟨Function.update_of_ne hd _ _, rfl, rfl⟩
  funext d
  by_cases hd : d = c.block i
  · subst hd
    simp only [users, Function.update_self]
    omega
  · simp only [users, Function.update_of_ne hd]

theorem inv_bunpin (hidle : c.pc p = .idle) (hi : i ∈ c.bio.order)
    (hold : c.bio.holdingsleep p i) (hpins : 0 < c.pins (c.block i)) :
    ({ c with
      bio := c.bio.bunpin i
      pins := Function.update c.pins (c.block i) (c.pins (c.block i) - 1) } :
      Caching).Inv mem held := by
  obtain ⟨hloaded, hheld⟩ := h.holder hi hold hidle
  have hmore : 1 < c.users held (c.block i) := by
    simp only [users, hheld, locked, Option.elim_some]
    omega
  obtain ⟨hu, hkeeps⟩ := Bio.bunpin_shows h.shows hloaded.has hmore
  refine h.update hheld (hu.congr rfl ?_ rfl) hkeeps rfl fun d hd =>
    ⟨Function.update_of_ne hd _ _, rfl, rfl⟩
  funext d
  by_cases hd : d = c.block i
  · subst hd
    simp only [users, Function.update_self]
    omega
  · simp only [users, Function.update_of_ne hd]

theorem inv_brelse (hp : p < NPROC) (hidle : c.pc p = .idle) (hi : i ∈ c.bio.order)
    (hold : c.bio.holdingsleep p i)
    (hsave : c.bio.disk (c.block i) = (c.bio.buf i).data ∨ 0 < c.pins (c.block i)) :
    (({ c with bio := c.bio.releasesleep i } : Caching).setPc p (.releasing i (c.block i))).Inv mem
      (Function.update held (c.block i) none) := by
  obtain ⟨hloaded, hheld⟩ := h.holder hi hold hidle
  set b := c.block i with hb
  obtain ⟨hu, hkeeps⟩ := Bio.releasesleep_shows h.shows hloaded.has (users_pos_of_held hheld)
  have hhas' := (hkeeps i b (users_pos_of_held hheld) hloaded.has).1
  refine h.advance (p := p) (hu.congr rfl ?_ rfl) hkeeps (fun _ => hp)
    (fun q hq => Function.update_of_ne hq _ _) ?_ ?_ ?_ ?_ ?_ ?_
  · funext d
    symm
    apply users_eq (c := c) held hp rfl
    by_cases hd : d = b
    · subst hd
      simp [setPc, pending, hidle, hheld, locked]
    · simp [setPc, pending, hidle, Ne.symm hd, Function.update_of_ne hd]
  · intro q d hq
    by_cases hd : d = b
    · subst hd
      simp [hheld, Ne.symm hq]
    · rw [Function.update_of_ne hd]
  · intro j d hq
    rw [setPc_self] at hq
    cases hq
  · intro j d hq
    rw [setPc_self] at hq
    cases hq
  · intro j d hq
    rw [setPc_self] at hq
    cases hq
    exact hhas'
  · intro j d hj hd
    have hdb : d ≠ b := by
      rintro rfl
      simp at hd
    rw [Function.update_of_ne hdb] at hd
    obtain ⟨hj', hvalid⟩ := h.before hu.sound hkeeps hd hj
    rcases h.loaded p j d hj' hd with hreading | hvalid'
    · rw [hidle] at hreading
      cases hreading
    · exact Or.inr (hvalid hvalid')
  · intro d hd hpins
    by_cases hdb : d = b
    · subst hdb
      rcases hsave with hdisk | hpos
      · exact hdisk.trans (h.shows.data_eq hloaded)
      · exact absurd hpins (by change c.pins _ ≠ 0; omega)
    · rw [Function.update_of_ne hdb] at hd
      exact h.saved d hd hpins

theorem inv_drop (hpc : c.pc p = .releasing i b) :
    (({ c with bio := c.bio.brelseLocked i } : Caching).setPc p .idle).Inv mem held := by
  have hp : p < NPROC := h.procs p (by rw [hpc]; exact Pc.noConfusion)
  have hhas := h.releasing p i b hpc
  have hpending := one_le_pending h (Or.inr hpc)
  obtain ⟨hu, hkeeps, hdisk, -⟩ := Bio.brelseLocked_shows h.shows hhas (by
    intro hle
    unfold users at hle
    have hfree : held b = none := by
      cases hheld : held b with
      | none => rfl
      | some q =>
        rw [hheld] at hle
        simp only [locked, Option.elim_some] at hle
        omega
    exact ⟨hfree, h.saved b hfree (by omega)⟩)
  refine h.advance (p := p) (hu.congr rfl ?_ rfl) hkeeps (fun _ => hp)
    (fun q hq => Function.update_of_ne hq _ _) (fun _ _ _ => Iff.rfl) ?_ ?_ ?_ ?_ ?_
  · funext d
    symm
    apply users_eq (c := c) held hp rfl
    by_cases hd : d = b
    · subst hd
      have hpos := h.users_pos_of_pending (Or.inr hpc)
      simp [setPc, pending, hpc]
      omega
    · simp [setPc, pending, hpc, Ne.symm hd, Function.update_of_ne hd]
  · intro j d hq
    rw [setPc_self] at hq
    cases hq
  · intro j d hq
    rw [setPc_self] at hq
    cases hq
  · intro j d hq
    rw [setPc_self] at hq
    cases hq
  · intro j d hj hd
    obtain ⟨hj', hvalid⟩ := h.before hu.sound hkeeps hd hj
    rcases h.loaded p j d hj' hd with hreading | hvalid'
    · rw [hpc] at hreading
      cases hreading
    · exact Or.inr (hvalid hvalid')
  · intro d hd hpins
    change (c.bio.brelseLocked i).disk d = mem d
    rw [hdisk]
    exact h.saved d hd hpins

end Steps

/-- Each step reads and writes the memory of blocks as it should. -/
theorem inv_step (c t : Caching) (mem : ℕ → Block) (e : CacheEvent)
    (hinv : ∃ held, c.Inv mem held) (hdisc : c.Disciplined e) (hstep : c.step e = .ok t) :
    ∃ mem', Takes Seen.Next mem (c.emit e) mem' ∧ ∃ held, t.Inv mem' held := by
  obtain ⟨held, h⟩ := hinv
  cases e with
  | bget p b =>
    simp only [step] at hstep
    split_ifs at hstep with hidle
    obtain ⟨r, hget, ht⟩ := bind_ok_iff.mp hstep
    cases ht
    exact ⟨mem, rfl, held, inv_bget h hdisc hidle hget⟩
  | acquiresleep p =>
    cases hpc : c.pc p with
    | waiting i b =>
      simp only [step, hpc] at hstep
      obtain ⟨bio, hget, ht⟩ := bind_ok_iff.mp hstep
      cases ht
      exact ⟨mem, rfl, _, inv_acquiresleep h hpc hget⟩
    | idle => simp [step, hpc] at hstep
    | reading i b => simp [step, hpc] at hstep
    | releasing i b => simp [step, hpc] at hstep
  | fill p =>
    cases hpc : c.pc p with
    | reading i b =>
      simp only [step, hpc] at hstep
      cases hstep
      obtain ⟨ht, hdata⟩ := inv_fill h hpc
      refine ⟨mem, ?_, held, ht⟩
      simp only [emit, hpc, takes_singleton, hdata]
      exact .read mem b
    | idle => simp [step, hpc] at hstep
    | waiting i b => simp [step, hpc] at hstep
    | releasing i b => simp [step, hpc] at hstep
  | store p i x =>
    simp only [step] at hstep
    split_ifs at hstep with hidle
    cases hstep
    exact ⟨_, takes_singleton.mpr (.wrote mem _ x), held, inv_store h hidle hdisc.1 hdisc.2 x⟩
  | bwrite p i =>
    simp only [step] at hstep
    split_ifs at hstep with hidle
    obtain ⟨bio, hwrite, ht⟩ := bind_ok_iff.mp hstep
    cases ht
    exact ⟨mem, rfl, held, inv_bwrite h hidle hdisc hwrite⟩
  | bpin p i =>
    simp only [step] at hstep
    split_ifs at hstep with hidle
    cases hstep
    exact ⟨mem, rfl, held, inv_bpin h hidle hdisc.1 hdisc.2⟩
  | bunpin p i =>
    simp only [step] at hstep
    split_ifs at hstep with hidle
    cases hstep
    exact ⟨mem, rfl, held, inv_bunpin h hidle hdisc.1 hdisc.2.1 hdisc.2.2⟩
  | brelse p i =>
    simp only [step] at hstep
    split_ifs at hstep with hidle hold
    cases hstep
    exact ⟨mem, rfl, _, inv_brelse h hdisc.1 hidle hdisc.2.1 hold hdisc.2.2⟩
  | drop p =>
    cases hpc : c.pc p with
    | releasing i b =>
      simp only [step, hpc] at hstep
      cases hstep
      exact ⟨mem, rfl, held, inv_drop h hpc⟩
    | idle => simp [step, hpc] at hstep
    | waiting i b => simp [step, hpc] at hstep
    | reading i b => simp [step, hpc] at hstep

/-- The cache after `binit`, with all processes outside of it. -/
def boot (disk : ℕ → Block) : Caching := ⟨.binit disk, fun _ => .idle, fun _ => 0⟩

theorem boot_inv (disk : ℕ → Block) : (boot disk).Inv disk fun _ => none where
  shows := by
    refine (Bio.binit_shows disk).congr rfl ?_ rfl
    funext b
    have hidle : total NPROC (pending b) (fun _ => Pc.idle) = 0 :=
      total_const (pending b) Pc.idle (by simp [pending])
    simp only [users, boot, locked, Option.elim_none, hidle]
  procs := fun _ hp => absurd rfl hp
  waiting := fun _ _ _ hp => Pc.noConfusion hp
  reading := fun _ _ _ hp => Pc.noConfusion hp
  releasing := fun _ _ _ hp => Pc.noConfusion hp
  loaded := by
    intro p i b _ hb
    cases hb
  saved := fun _ _ _ => rfl

/-- Two processes read a block, and the first one changes it before the second gets it. -/
def sampleRun : List CacheEvent :=
  [.bget 1 5, .bget 2 5, .acquiresleep 1, .fill 1, .store 1 0 (fun _ => 3), .bwrite 1 0,
    .brelse 1 0, .acquiresleep 2, .drop 1, .fill 2]

theorem sampleRun_disciplined : Guarded step Disciplined (boot fun _ _ => 0) sampleRun := by
  refine ⟨show 1 < NPROC by decide, fun c hc => ?_⟩
  obtain rfl := Except.ok.inj hc
  refine ⟨show 2 < NPROC by decide, fun c hc => ?_⟩
  obtain rfl := Except.ok.inj hc
  refine ⟨trivial, fun c hc => ?_⟩
  obtain rfl := Except.ok.inj hc
  refine ⟨trivial, fun c hc => ?_⟩
  obtain rfl := Except.ok.inj hc
  refine ⟨⟨show 0 ∈ (List.range NBUF).reverse by decide, rfl⟩, fun c hc => ?_⟩
  obtain rfl := Except.ok.inj hc
  refine ⟨show 0 ∈ (List.range NBUF).reverse by decide, fun c hc => ?_⟩
  obtain rfl := Except.ok.inj hc
  refine ⟨⟨show 1 < NPROC by decide, show 0 ∈ (List.range NBUF).reverse by decide, Or.inl rfl⟩,
    fun c hc => ?_⟩
  obtain rfl := Except.ok.inj hc
  refine ⟨trivial, fun c hc => ?_⟩
  obtain rfl := Except.ok.inj hc
  refine ⟨trivial, fun c hc => ?_⟩
  obtain rfl := Except.ok.inj hc
  exact ⟨trivial, fun c _ => trivial⟩

/-- In every interleaving each `bread` returns what was last written to the block, whoever
wrote it and however often its buffer was recycled in between. -/
theorem cache_coherent (disk : ℕ → Block) (es : List CacheEvent)
    (hes : Guarded step Disciplined (boot disk) es) :
    ∃ mem, Takes Seen.Next disk (history step emit (boot disk) es) mem := by
  obtain ⟨mem, hmem, -⟩ := takes_history (R := fun c mem => ∃ held, c.Inv mem held)
    _ (fun c mem e t => inv_step c t mem e) (m := disk) ⟨_, boot_inv disk⟩ hes
  exact ⟨mem, hmem⟩

theorem sample_cache_coherent :
    ∃ mem, Takes Seen.Next (fun _ _ => 0) (history step emit (boot fun _ _ => 0) sampleRun) mem :=
  cache_coherent (fun _ _ => 0) sampleRun sampleRun_disciplined

def usersOf (c : Caching) (i : ℕ) : ℕ := c.users (fun _ => (c.bio.buf i).lock) (c.block i)

/-- In every interleaving no two buffers cache the same block, `refcnt` counts the pins of a
block, the holder of its lock and the processes on their way to or from it, and `bget` panics
exactly when a block is not cached and each of the buffers has such a user. -/
theorem cache_refcnt (disk : ℕ → Block) (es : List CacheEvent) (c : Caching)
    (hes : Guarded step Disciplined (boot disk) es) (hrun : exec step (boot disk) es = .ok c) :
    c.bio.Sound ∧
    (∀ i ∈ c.bio.order,
      (c.bio.buf i).refcnt = if (c.bio.buf i).dev = ROOTDEV then c.usersOf i else 0) ∧
    ∀ b, c.bio.bgetLocked ROOTDEV b = .error (.panic "bget: no buffers") ↔
      (∀ i, ¬ c.bio.Has i b) ∧
        ∀ i ∈ c.bio.order, (c.bio.buf i).dev = ROOTDEV ∧ 0 < c.usersOf i := by
  obtain ⟨mem, -, hend⟩ := takes_history (R := fun c mem => ∃ held, c.Inv mem held)
    _ (fun c mem e t => inv_step c t mem e) (m := disk) ⟨_, boot_inv disk⟩ hes
  obtain ⟨held, h⟩ := hend c hrun
  have hcount : ∀ i ∈ c.bio.order,
      (c.bio.buf i).refcnt = if (c.bio.buf i).dev = ROOTDEV then c.usersOf i else 0 := by
    intro i hi
    split_ifs with hdev
    · obtain ⟨hr, hl, -⟩ := h.shows.cached i (c.block i) ⟨hi, hdev, rfl⟩
      rw [hr, usersOf, users, users, hl]
    · exact (h.shows.unused i hi hdev).1
  refine ⟨h.shows.sound, hcount, fun b => ?_⟩
  rw [Bio.bgetLocked_error]
  constructor
  · rintro ⟨-, hnone, hall⟩
    refine ⟨fun i hi => hnone i hi.1 hi.2, fun i hi => ?_⟩
    have hpos := hall i hi
    rw [hcount i hi] at hpos
    split_ifs at hpos with hdev
    · exact ⟨hdev, Nat.pos_of_ne_zero hpos⟩
    · exact absurd rfl hpos
  · rintro ⟨hnone, hall⟩
    refine ⟨rfl, fun i hi hcaches => hnone i ⟨hi, hcaches⟩, fun i hi => ?_⟩
    rw [hcount i hi, if_pos (hall i hi).1]
    exact (hall i hi).2.ne'

theorem sample_cache_refcnt :
    ∃ c, exec step (boot fun _ _ => 0) sampleRun = .ok c ∧ c.bio.Sound ∧ (c.bio.buf 0).refcnt = 1 :=
  ⟨_, rfl, (cache_refcnt (fun _ _ => 0) sampleRun _ sampleRun_disciplined rfl).1, rfl⟩

end Caching

end AdvancedOperatingSystems.FileSystem
