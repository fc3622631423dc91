import Mathlib.Data.List.TakeWhile
import AdvancedOperatingSystems.DemandPaging.Exclusive

/-!
# Kernel writes to shared pages

`copyout` writes to whatever user page an address has, whether or not the process may
write to it. A write is harmless to a family of processes exactly where it meets no page
that another of them reads, or stores there what is there already.
-/

namespace AdvancedOperatingSystems.DemandPaging

open Foundations Riscv Riscv.PageTable

/-- The pages `copyout` writes to: it stops at the first that is not mapped. -/
def written (pt : PageTable ℕ) (dstva len : ℕ) : List ℕ :=
  (bufferPages dstva len).takeWhile fun a => pt.walkaddr a ≠ 0

/-- No two of the user pages of a table have one frame. -/
def UserOnce (pt : PageTable ℕ) : Prop :=
  ∀ v e, pt.leaf v = some e → e.u = true →
    ∀ w e', pt.leaf w = some e' → e'.u = true → e'.pa = e.pa → w = v

section Copyout

variable {pt : PageTable ℕ} {dstva len : ℕ} {src : ℕ → Byte} {m : Memory}

theorem walkaddr_inj (hone : UserOnce pt) {a b : ℕ} (ha : a % PGSIZE = 0) (hb : b % PGSIZE = 0)
    (hpa : pt.walkaddr a ≠ 0) (heq : pt.walkaddr b = pt.walkaddr a) : b = a := by
  obtain ⟨-, e, he, hu, hepa⟩ := walkaddr_spec hpa
  obtain ⟨-, e', he', hu', hepa'⟩ := walkaddr_spec (heq ▸ hpa)
  exact vpn_inj hb ha (hone _ e he hu _ e' he' hu' (by rw [hepa, hepa', heq]))

/-- The loop of `copyout`: whether it gets to the end, and what it leaves in each frame. -/
theorem copyoutLoop_spec (hone : UserOnce pt) {as : List ℕ} (hnodup : as.Nodup)
    (haligned : ∀ a ∈ as, a % PGSIZE = 0) :
    ∃ m', (exec (copyoutPage pt dstva src len) m as =
        if as.all fun a => pt.walkaddr a ≠ 0 then .ok m' else .error m') ∧
      m'.freelist = m.freelist ∧ m'.trampoline = m.trampoline ∧
      (∀ q, (∀ a ∈ as.takeWhile fun a => pt.walkaddr a ≠ 0, pt.walkaddr a ≠ q) →
        m'.page q = m.page q) ∧
      ∀ a ∈ as.takeWhile fun a => pt.walkaddr a ≠ 0, ∀ k, m'.page (pt.walkaddr a) k =
        if dstva ≤ a + k ∧ a + k < dstva + len then src (a + k - dstva)
        else m.page (pt.walkaddr a) k := by
  induction as generalizing m with
  | nil => exact ⟨m, by simp, rfl, rfl, fun _ _ => rfl, by simp⟩
  | cons a as ih =>
    rw [List.nodup_cons] at hnodup
    by_cases hpa : pt.walkaddr a = 0
    · refine ⟨m, ?_, rfl, rfl, fun _ _ => rfl, by simp [hpa]⟩
      simp [exec_cons, copyoutPage, hpa, bind, Except.bind]
    · obtain ⟨m', hrun, hfree, htramp, hother, hpage⟩ :=
        ih (m := m.write (pt.walkaddr a) fun j =>
          if dstva ≤ a + j ∧ a + j < dstva + len then src (a + j - dstva)
          else m.page (pt.walkaddr a) j) hnodup.2 fun b hb => haligned b (List.mem_cons_of_mem _ hb)
      -- the pages that follow have other frames
      have hne : ∀ b ∈ as.takeWhile fun b => pt.walkaddr b ≠ 0,
          pt.walkaddr b ≠ pt.walkaddr a := by
        intro b hb heq
        have hmem := List.takeWhile_subset _ hb
        have hba := walkaddr_inj hone (haligned a List.mem_cons_self)
          (haligned b (List.mem_cons_of_mem _ hmem)) hpa heq
        exact hnodup.1 (hba ▸ hmem)
      refine ⟨m', ?_, hfree, htramp, ?_, ?_⟩
      · rw [exec_cons, copyoutPage]
        simp only [if_neg hpa, ok_bind, hrun, List.all_cons]
        simp [hpa]
      · intro q hq
        simp only [List.takeWhile_cons, ne_eq, hpa, not_false_eq_true, decide_true, ↓reduceIte,
          List.mem_cons, forall_eq_or_imp] at hq
        rw [hother q hq.2, Memory.write_page, Function.update_of_ne (Ne.symm hq.1)]
      · intro b hb k
        simp only [List.takeWhile_cons, ne_eq, hpa, not_false_eq_true, decide_true, ↓reduceIte,
          List.mem_cons] at hb
        rcases hb with rfl | hb
        · rw [hother _ hne, Memory.write_page, Function.update_self]
        · rw [hpage b hb k, Memory.write_page, Function.update_of_ne (hne b hb)]

/-- What `copyout` does. -/
theorem copyout_spec (hone : UserOnce pt) :
    ((copyout pt dstva src len m).1 = true →
      written pt dstva len = bufferPages dstva len) ∧
    (copyout pt dstva src len m).2.freelist = m.freelist ∧
    (copyout pt dstva src len m).2.trampoline = m.trampoline ∧
    (∀ q, (∀ a ∈ written pt dstva len, pt.walkaddr a ≠ q) →
      (copyout pt dstva src len m).2.page q = m.page q) ∧
    ∀ a ∈ written pt dstva len, ∀ k, (copyout pt dstva src len m).2.page (pt.walkaddr a) k =
      if dstva ≤ a + k ∧ a + k < dstva + len then src (a + k - dstva)
      else m.page (pt.walkaddr a) k := by
  obtain ⟨m', hrun, hfree, htramp, hother, hpage⟩ := @copyoutLoop_spec pt dstva len src m hone _
    nodup_bufferPages fun a ha => (mem_bufferPages.mp ha).2.2.2
  have hresult : copyout pt dstva src len m =
      ((bufferPages dstva len).all fun a => pt.walkaddr a ≠ 0, m') := by
    unfold copyout
    rw [hrun]
    split_ifs with hall
    · simp only [hall]
    · simp only [Bool.not_eq_true] at hall
      simp only [hall]
  rw [hresult]
  refine ⟨fun hall => ?_, hfree, htramp, hother, hpage⟩
  unfold written
  rw [List.takeWhile_eq_self_iff]
  intro a ha
  exact List.all_eq_true.mp hall a ha

end Copyout

/-- The trampoline is no user page, and user pages can be read. -/
structure System.FreshUser (s : System) : Prop extends s.Fresh where
  readable : ∀ i v e, s.leaf i v = some e → Readable e
  kernelPage : ∀ i v e, s.leaf i v = some e → e.pa = s.kernel.memory.trampoline → e.u = false

/-- The user pages of every process are readable and have frames of their own. -/
structure System.UserPages (s : System) : Prop extends s.Kept where
  readable : ∀ i v e, s.leaf i v = some e → Readable e
  once : ∀ i v e, s.leaf i v = some e → e.u = true →
    ∀ w e', s.leaf i w = some e' → e'.u = true → e'.pa = e.pa → w = v

section Invariant

variable {s t s₁ : System} {i n : ℕ} {c c' : Cpu} {r : Running} {np : Proc} {pg parent : Pagetable}
  {trapframe : ℕ} {m₀ m : Memory}

theorem System.FreshUser.userPages (h : s.FreshUser) : s.UserPages where
  toKept := h.toFresh.kept
  readable := h.readable
  once := by
    intro i v e he hu w e' he' _ hpa
    refine (h.once i v e he (fun htramp => ?_) i w e' he' hpa).2
    have := h.kernelPage i v e he htramp
    rw [hu] at this
    cases this

theorem System.UserPages.congr (h : s.UserPages) (hleaf : ∀ i v, t.leaf i v = s.leaf i v)
    (hfree : t.kernel.memory.freelist = s.kernel.memory.freelist)
    (htramp : t.kernel.memory.trampoline = s.kernel.memory.trampoline) : t.UserPages where
  toKept := h.toKept.congr hleaf hfree htramp
  readable i v e he := h.readable i v e (hleaf i v ▸ he)
  once i v e he hu w e' he' hu' hpa :=
    h.once i v e (hleaf i v ▸ he) hu w e' (hleaf i w ▸ he') hu' hpa

theorem evolves_user {p p' : Space} (hev : Evolves Readable p p')
    (hread : ∀ v e, p.2.leaf v = some e → Readable e)
    (hfree : ∀ v e, p.2.leaf v = some e → e.u = true → e.pa ∉ p.1.freelist)
    (hone : UserOnce p.2) : (∀ v e, p'.2.leaf v = some e → Readable e) ∧ UserOnce p'.2 := by
  constructor
  · intro v e he
    rcases hev.leaf v e he with hold | ⟨hr, -⟩
    · exact hread v e hold
    · exact hr
  · intro v e he hu w e' he' hu' hpa
    rcases hev.leaf v e he with hold | ⟨-, hmem, -, honly⟩
    · rcases hev.leaf w e' he' with hold' | ⟨-, hmem', -, honly'⟩
      · exact hone v e hold hu w e' hold' hu' hpa
      · exact absurd (hpa ▸ hmem') (hfree v e hold hu)
    · rcases honly w e' he' hpa with hw | hold'
      · exact hw
      · exact absurd (hpa ▸ hmem) (hfree w e' hold' hu')

theorem System.UserPages.setCpu (h : s.UserPages) (hc : s.cpu i = some c)
    (hev : Evolves Readable c.space c'.space) (hp : SameProc c.proc c'.proc) :
    (s.setCpu i c').UserPages := by
  obtain ⟨hkernel, -, hleaf⟩ := cpu_some hc
  have hmem : c.space.1 = s.kernel.memory := by
    rw [← hkernel]
    rfl
  obtain ⟨hread, hone⟩ := evolves_user hev
    (fun v e he => h.readable i v e ((hleaf v).trans he))
    (fun v e he _ => hmem ▸ h.toKept.not_free ((hleaf v).trans he))
    (fun v e he hu w e' he' hu' hpa => h.once i v e ((hleaf v).trans he) hu w e'
      ((hleaf w).trans he') hu' hpa)
  refine ⟨h.toKept.setCpu hc hev hp, fun j v e he => ?_, fun j v e he hu w e' he' hu' hpa => ?_⟩
  · rw [setCpu_leaf hc hp] at he
    split_ifs at he
    · exact hread v e he
    · exact h.readable j v e he
  · rw [setCpu_leaf hc hp] at he he'
    split_ifs at he he'
    · exact hone v e he hu w e' he' hu' hpa
    · exact h.once j v e he hu w e' he' hu' hpa

theorem Allocated.not_user (h : s.Kept) (H : Allocated s r n np pg s₁ trapframe m₀ m) {v : ℕ}
    {e : Pte} (he : pg.table.leaf v = some e) : e.u = false := by
  obtain ⟨-, -, -, hleaf⟩ := H.fresh h.nodup
  exact (hleaf v e he).1

/-- The rows of the table of processes after a fork. -/
theorem forked_user (h : s.UserPages) (hkept : t.Kept) {old new : PageTable ℕ}
    (hrow : ∀ j v, t.leaf j v = if j = n then new.leaf v else if j = i then old.leaf v
      else s.leaf j v)
    (hold : ∀ v e, old.leaf v = some e → ∃ e₀, s.leaf i v = some e₀ ∧ e₀.pa = e.pa ∧
      e₀.u = e.u ∧ e₀.r = e.r)
    (hread : ∀ v e, new.leaf v = some e → Readable e) (hone : UserOnce new) : t.UserPages := by
  refine ⟨hkept, fun j v e he => ?_, fun j v e he hu w e' he' hu' hpa => ?_⟩
  · rw [hrow] at he
    split_ifs at he
    · exact hread v e he
    · obtain ⟨e₀, he₀, -, hu₀, hr₀⟩ := hold v e he
      have := h.readable i v e₀ he₀
      unfold Readable at *
      rw [← hu₀, ← hr₀]
      exact this
    · exact h.readable j v e he
  · rw [hrow] at he he'
    split_ifs at he he'
    · exact hone v e he hu w e' he' hu' hpa
    · obtain ⟨e₀, he₀, hpa₀, hu₀, -⟩ := hold v e he
      obtain ⟨e₁, he₁, hpa₁, hu₁, -⟩ := hold w e' he'
      exact h.once i v e₀ he₀ (hu₀.trans hu) w e₁ he₁ (hu₁.trans hu') (by rw [hpa₀, hpa₁, hpa])
    · exact h.once j v e he hu w e' he' hu' hpa

theorem forkCow_user {copy : CowCopy} {groups : CowGroups} (h : s.UserPages) (hne : n ≠ i)
    (hparent : (s.proc i).pagetable = some parent)
    (H : Allocated s r n np pg s₁ trapframe m₀ m)
    (F : CowForked s₁ t i n np parent pg copy groups) : t.UserPages := by
  obtain ⟨hdraws, -⟩ := H.spec h.toKept
  have hS := uvmcopyCow_shares (by rw [H.memory]; exact hdraws.nodup) F.copied
  have hold : ∀ v e, copy.old.leaf v = some e → ∃ e₀, s.leaf i v = some e₀ ∧ e₀.pa = e.pa ∧
      e₀.u = e.u ∧ e₀.r = e.r := by
    intro v e he
    obtain ⟨e₀, he₀, hpa₀, hu₀, hr₀, -⟩ := hS.entry he
    exact ⟨e₀, by simp [System.leaf, hparent, ← he₀], hpa₀, hu₀, hr₀⟩
  -- a user page of the child is one of the parent, at the same address
  have hshared : ∀ v e, copy.new.leaf v = some e → e.u = true → copy.old.leaf v = some e := by
    intro v e he hu
    rcases hS.new v e he with hchild | ⟨-, hshared⟩
    · rw [H.not_user h.toKept hchild] at hu
      cases hu
    · exact hshared
  refine forked_user h (forkCow_keeps h.toKept hne hparent H F) (F.leaf H) hold
    (fun v e he hu => ?_) (fun v e he hu w e' he' hu' hpa => ?_)
  · obtain ⟨e₀, he₀, -, hu₀, hr₀⟩ := hold v e (hshared v e he hu)
    rw [← hr₀]
    exact h.readable i v e₀ he₀ (hu₀.trans hu)
  · obtain ⟨e₀, he₀, hpa₀, hu₀, -⟩ := hold v e (hshared v e he hu)
    obtain ⟨e₁, he₁, hpa₁, hu₁, -⟩ := hold w e' (hshared w e' he' hu')
    exact h.once i v e₀ he₀ (hu₀.trans hu) w e₁ he₁ (hu₁.trans hu') (by rw [hpa₀, hpa₁, hpa])

theorem forkCopy_user {m' : Memory} {table : PageTable ℕ} (h : s.UserPages)
    (hparent : (s.proc i).pagetable = some parent)
    (H : Allocated s r n np pg s₁ trapframe m₀ m)
    (F : CopyForked s₁ t i n np parent pg m' table) : t.UserPages := by
  obtain ⟨hdraws, -⟩ := H.spec h.toKept
  have hcopied := F.copied
  rw [H.memory] at hcopied
  have hleaf : ∀ v, s.leaf i v = parent.table.leaf v := fun v => by simp [System.leaf, hparent]
  have hev := uvmcopy_evolves (Q := Readable)
    (fun v e he _ => h.readable i v e ((hleaf v).trans he)) hdraws.nodup hcopied
  have hrow : ∀ j v, t.leaf j v = if j = n then table.leaf v
      else if j = i then parent.table.leaf v else s.leaf j v := by
    intro j v
    rw [F.leaf H]
    split_ifs with hj hi
    · rfl
    · rw [hi, hleaf]
    · rfl
  have hnot : ∀ v e, pg.table.leaf v = some e → e.u = true → False := by
    intro v e he hu
    rw [H.not_user h.toKept he] at hu
    cases hu
  obtain ⟨hread, hone⟩ := evolves_user hev (fun v e he hu => (hnot v e he hu).elim)
    (fun v e he hu => (hnot v e he hu).elim) (fun v e he hu => (hnot v e he hu).elim)
  exact forked_user h (forkCopy_keeps h.toKept H F) hrow
    (fun v e he => ⟨e, (hleaf v).trans he, rfl, rfl, rfl⟩) hread hone

theorem fork_user {cow : Bool} (h : s.UserPages) (hlive : (s.proc i).state = .live)
    (hforks : Forks s i cow) (hrun : s.fork i cow = .ok t) : t.UserPages := by
  rcases fork_cases hlive hforks hrun with
    ⟨-, rfl⟩ | ⟨n, np, pg, s₁, trapframe, m₀, m, parent, hne, hparent, H, hcase⟩
  · exact h
  · rcases hcase with ⟨-, copy, groups, F⟩ | ⟨-, m', table, F⟩
    · exact forkCow_user h hne hparent H F
    · exact forkCopy_user h hparent H F

end Invariant

section Runs

variable {s t : System} {e : ℕ × Event} {es : List (ℕ × Event)}

/-- The events of processes that keep their memory, and the writes of the kernel. -/
def Event.Serves (s : System) (i : ℕ) : Event → Prop
  | .write _ _ _ => True
  | e => e.Keeps s i

theorem step_user (h : s.UserPages) (hserves : (s.proc e.1).state = .live → e.2.Serves s e.1)
    (hrun : s.step e = .ok t) : t.UserPages := by
  obtain ⟨i, e⟩ := e
  unfold System.step at hrun
  simp only at hrun hserves
  by_cases hlive : (s.proc i).state = .live
  · rw [if_pos hlive] at hrun
    have hserves := hserves hlive
    cases hc : s.cpu i with
    | none =>
      simp only [hc] at hrun
      cases hrun
    | some c =>
      simp only [hc] at hrun
      have hn : c.kernel.memory.freelist.Nodup := by
        rw [(cpu_some hc).1]
        exact h.nodup
      cases e with
      | access a =>
        obtain ⟨⟨b, c'⟩, haccess, hrun⟩ := bind_ok_iff.mp hrun
        cases hrun
        obtain ⟨c₁, hstep, rfl | ⟨e, data, -, -, rfl⟩⟩ :=
          access_step hn hserves.1 (hserves.2 c hc) haccess
        · exact h.setCpu hc hstep.space hstep.proc
        · refine (h.setCpu hc hstep.space hstep.proc).congr (fun j v => ?_) rfl rfl
          rw [setCpu_leaf hc hstep.proc]
          exact setCpu_leaf hc hstep.proc
      | sbrk bytes =>
        obtain ⟨⟨ok, c'⟩, hgrow, hrun⟩ := bind_ok_iff.mp hrun
        cases hrun
        obtain rfl := hserves.2 c ok c' hc hgrow
        obtain ⟨hev, hp⟩ := growproc_evolves hn hserves.1 hgrow
        exact h.setCpu hc hev hp
      | fork cow => exact fork_user h hlive hserves hrun
      | exec path argv namei => exact hserves.elim
      | exit status => exact hserves.elim
      | wait addr => exact hserves.elim
      | write dstva src len =>
        cases hrun
        have hone : UserOnce c.table := by
          obtain ⟨-, -, hleaf⟩ := cpu_some hc
          intro v e he hu w e' he' hu' hpa
          exact h.once i v e ((hleaf v).trans he) hu w e' ((hleaf w).trans he') hu' hpa
        obtain ⟨-, hfree, htramp, -⟩ := @copyout_spec _ dstva len src
          s.kernel.memory hone
        exact h.congr (fun _ _ => rfl) hfree htramp
  · rw [if_neg hlive] at hrun
    cases hrun
    exact h

/-- The events of the run keep memory, or are writes of the kernel. -/
def ServingRun (s : System) (es : List (ℕ × Event)) : Prop :=
  Guarded System.step (fun s e => (s.proc e.1).state = .live → e.2.Serves s e.1) s es

theorem run_user (h : s.FreshUser) (hes : ServingRun s es)
    (hrun : exec System.step s es = .ok t) : t.UserPages :=
  hes.invariant (fun _ _ _ hI hg hstep => step_user hI hg hstep) h.userPages hrun

end Runs

section Respect

variable (t : System) (i : ℕ) (family : Set ℕ) (dstva : ℕ) (src : ℕ → Byte) (len : ℕ)

/-- The kernel writes to a buffer of the process: the others of its family read what they
read before, and the process reads back what a complete write has stored. -/
def RespectsFamily : Prop :=
  ∀ c t', t.cpu i = some c → t.step (i, .write dstva src len) = .ok t' →
    (∀ j ∈ family, j ≠ i → ∀ va, t'.byte j va = t.byte j va) ∧
    ((copyout c.table dstva src len t.kernel.memory).1 = true →
      ∀ k < len, t'.byte i (dstva + k) = some (src k))

/-- Where the write meets a page that another process of the family can read, it stores
what is there already. -/
def Harmless : Prop :=
  ∀ c, t.cpu i = some c → ∀ a ∈ written c.table dstva len, ∀ j ∈ family, j ≠ i →
    ∀ v e, t.leaf j v = some e → PGSIZE * v < MAXVA → e.u = true → e.r = true →
      e.pa = c.table.walkaddr a → ∀ k < PGSIZE, dstva ≤ a + k → a + k < dstva + len →
        src (a + k - dstva) = t.kernel.memory.page e.pa k

variable {t i family dstva src len} {c : Cpu}

theorem step_write {t' : System} (hlive : (t.proc i).state = .live) (hc : t.cpu i = some c) :
    t.step (i, .write dstva src len) = .ok t' ↔
      t' = t.setMemory (copyout c.table dstva src len t.kernel.memory).2 := by
  unfold System.step
  rw [if_pos hlive]
  simp only [hc]
  constructor
  · intro h
    exact (Except.ok.inj h).symm
  · rintro rfl
    rfl

theorem byte_some {j va : ℕ} {e : Pte} (hva : va < MAXVA) (he : t.leaf j (vpn va) = some e)
    (hu : e.u = true) (hr : e.r = true) :
    t.byte j va = some (t.kernel.memory.page e.pa (va % PGSIZE)) := by
  unfold System.byte
  rw [if_neg (Nat.not_le.mpr hva), he]
  simp [hu, hr]

theorem mul_add_page {v k : ℕ} (hk : k < PGSIZE) :
    vpn (PGSIZE * v + k) = v ∧ (PGSIZE * v + k) % PGSIZE = k := by
  simp only [vpn, PGSIZE] at *
  omega

/-- The others read what they read before exactly where the write is harmless. -/
theorem others_iff_harmless (h : t.UserPages) (hc : t.cpu i = some c) :
    (∀ j ∈ family, j ≠ i → ∀ va,
      (t.setMemory (copyout c.table dstva src len t.kernel.memory).2).byte j va = t.byte j va) ↔
    Harmless t i family dstva src len := by
  obtain ⟨-, -, hleaf⟩ := cpu_some hc
  have hone : UserOnce c.table := by
    intro v e he hu w e' he' hu' hpa
    exact h.once i v e ((hleaf v).trans he) hu w e' ((hleaf w).trans he') hu' hpa
  obtain ⟨-, -, -, hother, hpage⟩ := @copyout_spec _ dstva len src t.kernel.memory
    hone
  generalize copyout c.table dstva src len t.kernel.memory = result at hother hpage
  have hrow : ∀ j v, (t.setMemory result.2).leaf j v = t.leaf j v := fun _ _ => rfl
  constructor
  · intro hsame c' hc' a ha j hj hne v e he hva hu hr hpa k hk hlo hhi
    rw [hc] at hc'
    cases hc'
    obtain ⟨hv, hmod⟩ := mul_add_page (v := v) hk
    have hva' : PGSIZE * v + k < MAXVA := by
      simp only [MAXVA, PGSIZE] at *
      omega
    have hbyte := hsame j hj hne (PGSIZE * v + k)
    rw [byte_some hva' (by rw [hv]; exact (hrow j v).trans he) hu hr,
      byte_some hva' (by rw [hv]; exact he) hu hr, hmod] at hbyte
    have hwritten := hpage a ha k
    rw [if_pos ⟨hlo, hhi⟩, ← hpa] at hwritten
    rw [← hwritten]
    exact Option.some.inj hbyte
  · intro hharm j hj hne va
    by_cases hva : va < MAXVA
    · unfold System.byte
      rw [hrow]
      cases he : t.leaf j (vpn va) with
      | none => rfl
      | some e =>
        by_cases hread : e.u = true ∧ e.r = true
        · simp only [if_pos hread]
          have hk : va % PGSIZE < PGSIZE := Nat.mod_lt _ (by decide)
          have hpage' : result.2.page e.pa (va % PGSIZE) =
              t.kernel.memory.page e.pa (va % PGSIZE) := by
            by_cases hmem : ∃ a ∈ written c.table dstva len, c.table.walkaddr a = e.pa
            · obtain ⟨a, ha, hpa⟩ := hmem
              have hwritten := hpage a ha (va % PGSIZE)
              rw [hpa] at hwritten
              rw [hwritten]
              split_ifs with hin
              · have hmax : PGSIZE * vpn va < MAXVA := by
                  simp only [vpn, PGSIZE, MAXVA] at *
                  omega
                exact hharm c hc a ha j hj hne _ e he hmax hread.1 hread.2 hpa.symm _ hk
                  hin.1 hin.2
              · rfl
            · push Not at hmem
              rw [hother e.pa hmem]
          exact congrArg (fun b => if MAXVA ≤ va then none else some b) hpage'
        · simp only [if_neg hread]
    · simp [System.byte, Nat.not_lt.mp hva]

/-- A process reads back what a complete write has stored in its buffer. -/
theorem reads_back (h : t.UserPages) (hc : t.cpu i = some c)
    (hok : (copyout c.table dstva src len t.kernel.memory).1 = true) {k : ℕ} (hk : k < len) :
    (t.setMemory (copyout c.table dstva src len t.kernel.memory).2).byte i (dstva + k) =
      some (src k) := by
  obtain ⟨-, -, hleaf⟩ := cpu_some hc
  have hone : UserOnce c.table := by
    intro v e he hu w e' he' hu' hpa
    exact h.once i v e ((hleaf v).trans he) hu w e' ((hleaf w).trans he') hu' hpa
  obtain ⟨hall, -, -, -, hpage⟩ := @copyout_spec _ dstva len src t.kernel.memory
    hone
  have hall := hall hok
  generalize copyout c.table dstva src len t.kernel.memory = result at hpage
  have hmem : pgrounddown (dstva + k) ∈ written c.table dstva len := by
    rw [hall]
    exact pgrounddown_mem_bufferPages hk
  have hnonzero : c.table.walkaddr (pgrounddown (dstva + k)) ≠ 0 := by
    have := List.mem_takeWhile_imp hmem
    simpa using this
  obtain ⟨hva, e, he, hu, hpa⟩ := walkaddr_spec hnonzero
  have hvpn : vpn (pgrounddown (dstva + k)) = vpn (dstva + k) := by
    simp only [vpn, pgrounddown, PGSIZE]
    omega
  have hva' : dstva + k < MAXVA := by
    simp only [pgrounddown, MAXVA, PGSIZE] at *
    omega
  rw [hvpn] at he
  have hentry : t.leaf i (vpn (dstva + k)) = some e := (hleaf _).trans he
  have hsplit : pgrounddown (dstva + k) + (dstva + k) % PGSIZE = dstva + k := by
    simp only [pgrounddown, PGSIZE]
    omega
  have hbyte := hpage _ hmem ((dstva + k) % PGSIZE)
  rw [hsplit, if_pos ⟨by omega, by omega⟩, ← hpa] at hbyte
  have hread : e.r = true := h.readable i _ e hentry hu
  rw [byte_some hva' ((setMemory_leaf result.2).trans hentry) hu hread]
  have hsub : dstva + k - dstva = k := by omega
  rw [hsub] at hbyte
  exact congrArg some hbyte

/-- In every state a run reaches, a kernel write leaves what the others of a family read and
is read back if and only if it is harmless to them. -/
theorem kernel_write_respects_iff {s : System} {es : List (ℕ × Event)} (h : s.FreshUser)
    (hes : ServingRun s es) (hrun : exec System.step s es = .ok t)
    (hlive : (t.proc i).state = .live) :
    RespectsFamily t i family dstva src len ↔ Harmless t i family dstva src len := by
  have huser := run_user h hes hrun
  constructor
  · intro hrespects c hc
    have hothers := (hrespects c _ hc ((step_write hlive hc).mpr rfl)).1
    exact (others_iff_harmless huser hc).mp hothers c hc
  · intro hharm c t' hc hstep
    rw [(step_write hlive hc).mp hstep]
    exact ⟨(others_iff_harmless huser hc).mpr hharm, fun hok k hk => reads_back huser hc hok hk⟩

end Respect

section Sample

theorem sampleSystem_freshUser : sampleSystem.FreshUser where
  toFresh := sampleSystem_fresh
  readable := by
    intro i v e h
    have h := (sampleSystem_leaf h).2
    simp only [sampleTable] at h
    split_ifs at h <;>
      · cases h
        exact fun _ => rfl
  kernelPage := by
    intro i v e h hpa
    have h := (sampleSystem_leaf h).2
    simp only [sampleTable] at h
    split_ifs at h <;> cases h
    · rfl
    · cases hpa
    · rfl
    · rfl

theorem sample_forked : ∃ t, exec System.step sampleSystem [(0, .fork true)] = .ok t ∧
    (t.proc 0).state = .live ∧ (t.proc 1).cowGroup = (t.proc 0).cowGroup ∧
    (t.cpu 0).isSome ∧ t.byte 1 PGSIZE = some 5 ∧
    (t.step (0, .write PGSIZE (fun _ => 7) 4)).toOption.map (fun t' => t'.byte 1 PGSIZE) =
      some (some 7) := by
  obtain ⟨t, hrun⟩ := sample_fork_run
  have hall : (exec System.step sampleSystem [(0, .fork true)]).toOption.all (fun t =>
      (t.proc 0).state = .live ∧ (t.proc 1).cowGroup = (t.proc 0).cowGroup ∧
      (t.cpu 0).isSome ∧ t.byte 1 PGSIZE = some 5 ∧
      (t.step (0, .write PGSIZE (fun _ => 7) 4)).toOption.map (fun t' => t'.byte 1 PGSIZE) =
        some (some 7)) = true := by decide +kernel
  rw [hrun] at hall
  exact ⟨t, hrun, of_decide_eq_true hall⟩

theorem sample_serving : ServingRun sampleSystem [(0, .fork true)] :=
  ⟨fun _ => sample_forks, fun _ _ => trivial⟩

/-- The kernel writes to the stack of a process that has forked with copy-on-write. -/
theorem sample_kernel_write_respects_iff :
    ∃ t, exec System.step sampleSystem [(0, .fork true)] = .ok t ∧
      (RespectsFamily t 0 {j | (t.proc j).cowGroup = (t.proc 0).cowGroup} PGSIZE (fun _ => 7) 4 ↔
        Harmless t 0 {j | (t.proc j).cowGroup = (t.proc 0).cowGroup} PGSIZE (fun _ => 7) 4) := by
  obtain ⟨t, hrun, hlive, -⟩ := sample_forked
  exact ⟨t, hrun, kernel_write_respects_iff sampleSystem_freshUser sample_serving hrun hlive⟩

/-- After `fork(1)` the kernel writes four bytes to the stack of the parent, as `wait` does:
the child reads them. -/
theorem kernel_write_reaches_child : ∃ t, ServingRun sampleSystem [(0, .fork true)] ∧
    exec System.step sampleSystem [(0, .fork true)] = .ok t ∧
    ¬ RespectsFamily t 0 {j | (t.proc j).cowGroup = (t.proc 0).cowGroup} PGSIZE (fun _ => 7) 4 := by
  obtain ⟨t, hrun, -, hfamily, hcpu, hbefore, hafter⟩ := sample_forked
  refine ⟨t, sample_serving, hrun, fun h => ?_⟩
  obtain ⟨c, hc⟩ := Option.isSome_iff_exists.mp hcpu
  cases hstep : t.step (0, .write PGSIZE (fun _ => 7) 4) with
  | error e =>
    rw [hstep] at hafter
    cases hafter
  | ok t' =>
    rw [hstep] at hafter
    have hsame := (h c t' hc hstep).1 1 hfamily (by decide) PGSIZE
    have hafter : t'.byte 1 PGSIZE = some 7 := Option.some.inj hafter
    rw [hbefore, hafter] at hsame
    exact absurd hsame (by decide)

end Sample

end AdvancedOperatingSystems.DemandPaging
