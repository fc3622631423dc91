import AdvancedOperatingSystems.Foundations.Sharing
import AdvancedOperatingSystems.DemandPaging.FirstTouch
import AdvancedOperatingSystems.DemandPaging.Forking

/-!
# Writable pages are exclusive

Over any number of processes that fork, load pages on demand, grow and store to shared
pages: a page that one process may write is mapped by no other process and at no other
address.
-/

namespace AdvancedOperatingSystems.DemandPaging

open Foundations Riscv Riscv.PageTable

/-- The pages the processes map, the pages of the allocator, and the trampoline. -/
def System.sharing (s : System) : Sharing ℕ ℕ ℕ where
  grant i v := (s.leaf i v).map fun e => ⟨e.pa, e.w⟩
  free := { q | q ∈ s.kernel.memory.freelist }
  pinned := { q | q = s.kernel.memory.trampoline }

/-- Processes as `exec` leaves them: every page but the trampoline is mapped once and not
free. -/
structure System.Fresh (s : System) : Prop where
  nodup : s.kernel.memory.freelist.Nodup
  once : ∀ i v e, s.leaf i v = some e → e.pa ≠ s.kernel.memory.trampoline →
    ∀ j w e', s.leaf j w = some e' → e'.pa = e.pa → j = i ∧ w = v
  mapped : ∀ i v e, s.leaf i v = some e → e.pa ∉ s.kernel.memory.freelist
  trampoline : ∀ i v e, s.leaf i v = some e → e.pa = s.kernel.memory.trampoline → e.w = false
  kernel : s.kernel.memory.trampoline ∉ s.kernel.memory.freelist

/-- A page that a process may write is mapped by no other and at no other address. -/
def System.WritableExclusive (s : System) : Prop :=
  ∀ i v e, s.leaf i v = some e → e.w = true →
    ∀ j w e', s.leaf j w = some e' → e'.pa = e.pa → j = i ∧ w = v

/-- The byte a process reads at an address. -/
def System.byte (s : System) (i va : ℕ) : Option Byte :=
  if MAXVA ≤ va then none
  else match s.leaf i (vpn va) with
    | none => none
    | some e =>
      if e.u = true ∧ e.r = true then some (s.kernel.memory.page e.pa (va % PGSIZE)) else none

/-- The events of processes that share memory and never give any back. `kalloc` does not
fail where a page is read back from disk, in a `sbrk` or in a `fork`. -/
def Event.Keeps (s : System) (i : ℕ) : Event → Prop
  | .access a => a.va < 2 ^ 64 ∧ ∀ c, s.cpu i = some c → attempt a c = none → SwapInServed a c
  | .sbrk bytes => 0 ≤ bytes ∧ ∀ c ok c', s.cpu i = some c → growproc bytes c = .ok (ok, c') →
      ok = true
  | .fork cow => Forks s i cow
  | _ => False

/-- The invariant: writable pages are exclusive, and no page is free twice. -/
structure System.Kept (s : System) : Prop where
  exclusive : s.sharing.Exclusive
  nodup : s.kernel.memory.freelist.Nodup

section Sharing

variable {s t : System} {i v : ℕ} {e : Pte}

theorem grant_some {g : Grant ℕ} :
    s.sharing.grant i v = some g ↔ ∃ e, s.leaf i v = some e ∧ g = ⟨e.pa, e.w⟩ := by
  simp only [System.sharing, Option.map_eq_some_iff]
  constructor
  · rintro ⟨e, he, rfl⟩
    exact ⟨e, he, rfl⟩
  · rintro ⟨e, he, rfl⟩
    exact ⟨e, he, rfl⟩

theorem grant_of_leaf (h : s.leaf i v = some e) : s.sharing.grant i v = some ⟨e.pa, e.w⟩ :=
  grant_some.mpr ⟨e, h, rfl⟩

theorem System.Kept.not_free (h : s.Kept) (he : s.leaf i v = some e) :
    e.pa ∉ s.kernel.memory.freelist := h.exclusive.not_free i v _ (grant_of_leaf he)

theorem System.Kept.trampoline (h : s.Kept) :
    s.kernel.memory.trampoline ∉ s.kernel.memory.freelist :=
  h.exclusive.pinned_not_free _ rfl

theorem System.Kept.writable (h : s.Kept) : s.WritableExclusive := by
  intro i v e he hw j w e' he' hpa
  exact h.exclusive.unique i v _ (grant_of_leaf he) hw j w _ (grant_of_leaf he') hpa

theorem System.Fresh.kept (h : s.Fresh) : s.Kept where
  nodup := h.nodup
  exclusive := by
    refine ⟨?_, ?_, ?_, ?_⟩
    · intro i v g hg hw j w g' hg' hframe
      obtain ⟨e, he, rfl⟩ := grant_some.mp hg
      obtain ⟨e', he', rfl⟩ := grant_some.mp hg'
      refine h.once i v e he (fun htramp => ?_) j w e' he' hframe
      have := h.trampoline i v e he htramp
      simp only at hw
      rw [hw] at this
      cases this
    · intro i v g hg
      obtain ⟨e, he, rfl⟩ := grant_some.mp hg
      exact h.mapped i v e he
    · intro i v g hg hw htramp
      obtain ⟨e, he, rfl⟩ := grant_some.mp hg
      have := h.trampoline i v e he htramp
      simp only at hw
      rw [hw] at this
      cases this
    · rintro f rfl
      exact h.kernel

theorem System.Kept.congr (h : s.Kept) (hleaf : ∀ i v, t.leaf i v = s.leaf i v)
    (hfree : t.kernel.memory.freelist = s.kernel.memory.freelist)
    (htramp : t.kernel.memory.trampoline = s.kernel.memory.trampoline) : t.Kept where
  nodup := by
    rw [hfree]
    exact h.nodup
  exclusive := by
    have hsame : t.sharing = s.sharing := by
      simp only [System.sharing, hleaf, hfree, htramp]
    rw [hsame]
    exact h.exclusive

theorem System.Kept.step (h : s.Kept) (hdraws : s.kernel.memory.Draws t.kernel.memory)
    (horigin : ∀ i v e, t.leaf i v = some e → Sharing.Origin s.sharing t.sharing i v ⟨e.pa, e.w⟩) :
    t.Kept where
  nodup := hdraws.nodup
  exclusive := by
    refine h.exclusive.step (fun q hq => hdraws.sub q hq) ?_ ?_
    · simp only [System.sharing]
      rw [hdraws.trampoline]
    · intro i v g hg
      obtain ⟨e, he, rfl⟩ := grant_some.mp hg
      exact horigin i v e he

end Sharing

section Process

variable {s t : System} {i : ℕ} {c c' : Cpu} {a : Access}

/-- A process whose table has evolved. -/
theorem System.Kept.setCpu {Q : Pte → Prop} (h : s.Kept) (hc : s.cpu i = some c)
    (hev : Evolves Q c.space c'.space) (hp : SameProc c.proc c'.proc) : (s.setCpu i c').Kept := by
  obtain ⟨hkernel, -, hleaf⟩ := cpu_some hc
  have hmem : s.kernel.memory = c.kernel.memory := by rw [hkernel]
  refine h.step (hmem ▸ hev.draws) fun j v e he => ?_
  have hnot : ∀ k w e', s.leaf k w = some e' → e'.pa ∈ c.kernel.memory.freelist → False := by
    intro k w e' he' hmem'
    rw [← hmem] at hmem'
    exact h.not_free he' hmem'
  rw [setCpu_leaf hc hp] at he
  by_cases hj : j = i
  · subst hj
    rw [if_pos rfl] at he
    rcases hev.leaf v e he with hold | ⟨-, hfree, htaken, honly⟩
    · exact .kept ⟨e.pa, e.w⟩ (grant_of_leaf ((hleaf v).trans hold)) rfl id
    · have hfree' : e.pa ∈ s.kernel.memory.freelist := by
        rw [hmem]
        exact hfree
      refine .fresh hfree' htaken fun k w g hg hframe => ?_
      obtain ⟨e', he', rfl⟩ := grant_some.mp hg
      have hframe' : e'.pa = e.pa := hframe
      rw [setCpu_leaf hc hp] at he'
      by_cases hk : k = j
      · subst hk
        rw [if_pos rfl] at he'
        rcases honly w e' he' hframe' with hw | hold
        · exact ⟨rfl, hw⟩
        · exact (hnot k w e' ((hleaf w).trans hold) (hframe' ▸ hfree)).elim
      · rw [if_neg hk] at he'
        exact (hnot k w e' he' (hframe' ▸ hfree)).elim
  · rw [if_neg hj] at he
    exact .kept ⟨e.pa, e.w⟩ (grant_of_leaf he) rfl id

/-- The handler, or nothing, and then the access. -/
theorem access_step {b : Option Byte} (hn : c.kernel.memory.freelist.Nodup) (hva : a.va < 2 ^ 64)
    (hserved : attempt a c = none → SwapInServed a c) (h : access a c = .ok (b, c')) :
    ∃ c₁, HandlerStep c c₁ ∧ (c' = c₁ ∨ ∃ e data, c₁.table.leaf (vpn a.va) = some e ∧ e.w = true ∧
      c' = { c₁ with kernel := { c₁.kernel with
        memory := c₁.kernel.memory.write e.pa data } }) := by
  obtain ⟨c₁, hfault, hattempt⟩ := access_cases h
  have hstep : HandlerStep c c₁ := by
    rcases hfault with rfl | ⟨hnone, hrun⟩
    · exact .refl hn
    · exact pageFaultHandler_step hva hn (hserved hnone) hrun
  refine ⟨c₁, hstep, ?_⟩
  rcases hattempt with rfl | ⟨b₁, hb⟩
  · exact Or.inl rfl
  · exact attempt_cases hb

theorem access_keeps {b : Option Byte} (h : s.Kept) (hc : s.cpu i = some c) (hva : a.va < 2 ^ 64)
    (hserved : attempt a c = none → SwapInServed a c) (hrun : access a c = .ok (b, c')) :
    (s.setCpu i c').Kept := by
  have hn : c.kernel.memory.freelist.Nodup := by
    rw [(cpu_some hc).1]
    exact h.nodup
  obtain ⟨c₁, hstep, rfl | ⟨e, data, -, -, rfl⟩⟩ := access_step hn hva hserved hrun
  · exact h.setCpu hc hstep.space hstep.proc
  · refine (h.setCpu hc hstep.space hstep.proc).congr (fun j v => ?_) rfl rfl
    rw [setCpu_leaf hc hstep.proc]
    exact setCpu_leaf hc hstep.proc

/-- A store by one process changes no page that another maps. -/
theorem access_frame {b : Option Byte} (h : s.Kept) (hc : s.cpu i = some c) (hva : a.va < 2 ^ 64)
    (hserved : attempt a c = none → SwapInServed a c) (hrun : access a c = .ok (b, c'))
    {j v : ℕ} {e : Pte} (hj : j ≠ i) (he : s.leaf j v = some e) :
    c'.kernel.memory.page e.pa = s.kernel.memory.page e.pa := by
  obtain ⟨hkernel, -, hleaf⟩ := cpu_some hc
  have hn : c.kernel.memory.freelist.Nodup := by
    rw [hkernel]
    exact h.nodup
  have hused : e.pa ∉ c.kernel.memory.freelist := by
    rw [hkernel]
    exact h.not_free he
  obtain ⟨c₁, hstep, hcase⟩ := access_step hn hva hserved hrun
  have hpage : c₁.kernel.memory.page e.pa = s.kernel.memory.page e.pa := by
    rw [← hkernel]
    exact hstep.space.draws.page _ hused
  rcases hcase with rfl | ⟨e₁, data, he₁, hw, rfl⟩
  · exact hpage
  · have hne : e.pa ≠ e₁.pa := by
      intro heq
      have he₂ : (s.setCpu i c₁).leaf i (vpn a.va) = some e₁ := by
        rw [setCpu_leaf hc hstep.proc, if_pos rfl]
        exact he₁
      have he₃ : (s.setCpu i c₁).leaf j v = some e := by
        rw [setCpu_leaf hc hstep.proc, if_neg hj]
        exact he
      have hkept := h.setCpu hc hstep.space hstep.proc
      exact hj (hkept.writable i _ e₁ he₂ hw j v e he₃ heq).1
    simp only [Memory.write_page, Function.update_of_ne hne]
    exact hpage

theorem growproc_evolves {bytes : Int} (hn : c.kernel.memory.freelist.Nodup) (hpos : 0 ≤ bytes)
    (h : growproc bytes c = .ok (true, c')) :
    Evolves Readable c.space c'.space ∧ SameProc c.proc c'.proc := by
  unfold growproc at h
  by_cases hond : c.proc.ondemand = false
  · rw [if_pos hond] at h
    have hround : 0 ≤ (bytes + (PGSIZE - 1)) / PGSIZE * PGSIZE := by
      simp only [PGSIZE]
      omega
    generalize (bytes + ((PGSIZE : ℕ) - 1) : ℤ) / (PGSIZE : ℕ) * (PGSIZE : ℕ) = n at h hround
    simp only at h
    split_ifs at h with h₁ h₂
    · obtain ⟨⟨sz, s⟩, halloc, h⟩ := bind_ok_iff.mp h
      simp only at h
      split_ifs at h with hsz
      · cases h
      · cases h
        exact ⟨uvmalloc_evolves hn halloc hsz, rfl⟩
    · omega
    · cases h
      exact ⟨.refl hn, rfl⟩
  · rw [if_neg hond] at h
    obtain ⟨tracker, -, h⟩ := bind_ok_iff.mp h
    cases h
    exact ⟨.refl hn, rfl⟩

end Process

section Fork

variable {s s₁ t : System} {r : Running} {i n : ℕ} {np : Proc} {pg parent : Pagetable}
  {trapframe : ℕ} {m₀ m : Memory}

theorem Allocated.spec (h : s.Kept) (H : Allocated s r n np pg s₁ trapframe m₀ m) :
    s.kernel.memory.Draws m ∧ trapframe ∈ s.kernel.memory.freelist ∧ trapframe ∉ m.freelist ∧
    ∀ v e, pg.table.leaf v = some e → e.pa = s.kernel.memory.trampoline ∧ e.w = false ∨
      e.pa = trapframe ∧ v = vpn TRAPFRAME := by
  obtain ⟨hdraws, hmem, htaken, hleaf⟩ := H.fresh h.nodup
  exact ⟨hdraws, hmem, htaken, fun v e he => (hleaf v e he).2⟩

theorem Allocated.origin (h : s.Kept) (H : Allocated s r n np pg s₁ trapframe m₀ m)
    (hsub : ∀ q ∈ t.kernel.memory.freelist, q ∈ m.freelist)
    (hback : ∀ k w e, t.leaf k w = some e → e.pa = trapframe → k = n ∧ pg.table.leaf w = some e)
    {v : ℕ} {e : Pte} (he : pg.table.leaf v = some e) :
    Sharing.Origin s.sharing t.sharing n v ⟨e.pa, e.w⟩ := by
  obtain ⟨-, hmem, htaken, hleaf⟩ := H.spec h
  rcases hleaf v e he with ⟨hpa, hw⟩ | ⟨hpa, rfl⟩
  · exact .pinned hpa hw
  · refine .fresh (hpa ▸ hmem) (fun hfree => htaken (hpa ▸ hsub _ hfree)) fun k w g hg hframe => ?_
    obtain ⟨e', he', rfl⟩ := grant_some.mp hg
    have hpa' : e'.pa = trapframe := Eq.trans hframe hpa
    obtain ⟨rfl, hrow⟩ := hback k w e' he' hpa'
    refine ⟨rfl, ?_⟩
    rcases hleaf w e' hrow with ⟨htramp, -⟩ | ⟨-, hw⟩
    · refine absurd ?_ h.trampoline
      rw [← htramp, hpa']
      exact hmem
    · exact hw

/-- `fork(1)` shares the pages of the parent with the child. -/
theorem forkCow_keeps {copy : CowCopy} {groups : CowGroups} (h : s.Kept) (hne : n ≠ i)
    (hparent : (s.proc i).pagetable = some parent)
    (H : Allocated s r n np pg s₁ trapframe m₀ m)
    (F : CowForked s₁ t i n np parent pg copy groups) : t.Kept := by
  obtain ⟨hdraws, hmem, htaken, htwo⟩ := H.spec h
  have hS := uvmcopyCow_shares (by rw [H.memory]; exact hdraws.nodup) F.copied
  have hdraws₂ : m.Draws copy.memory := by
    rw [← H.memory]
    exact hS.draws
  have hrow := F.leaf H
  have hkernel := F.memory
  have hold : ∀ v e, copy.old.leaf v = some e →
      ∃ e₀, s.leaf i v = some e₀ ∧ e₀.pa = e.pa ∧ (e.w = true → e₀.w = true) := by
    intro v e he
    obtain ⟨e₀, he₀, hpa₀, -, -, hw₀⟩ := hS.entry he
    exact ⟨e₀, by simp [System.leaf, hparent, ← he₀], hpa₀, hw₀⟩
  -- no entry but the child's own is for its trapframe
  have hback : ∀ k w e, t.leaf k w = some e → e.pa = trapframe →
      k = n ∧ pg.table.leaf w = some e := by
    intro k w e he hpa
    rw [hrow] at he
    split_ifs at he with hk hk'
    · rcases hS.new w e he with hchild | ⟨-, hshared⟩
      · exact ⟨hk, hchild⟩
      · obtain ⟨e₀, he₀, hpa₀, -⟩ := hold w e hshared
        exact absurd (by rw [hpa₀, hpa]; exact hmem) (h.not_free he₀)
    · obtain ⟨e₀, he₀, hpa₀, -⟩ := hold w e he
      exact absurd (by rw [hpa₀, hpa]; exact hmem) (h.not_free he₀)
    · exact absurd (by rw [hpa]; exact hmem) (h.not_free he)
  refine h.step (hkernel ▸ hdraws.trans hdraws₂) fun j v e he => ?_
  rw [hrow] at he
  split_ifs at he with hj hj'
  · subst hj
    rcases hS.new v e he with hchild | ⟨hw, hshared⟩
    · refine H.origin h (fun q hq => hdraws₂.sub q ?_) hback hchild
      rw [← hkernel]
      exact hq
    · obtain ⟨e₀, he₀, hpa₀, -⟩ := hold v e hshared
      have hnow : t.leaf i v = some e := by
        rw [hrow, if_neg (Ne.symm hne), if_pos rfl]
        exact hshared
      exact .shared i v _ _ (grant_of_leaf he₀) (grant_of_leaf hnow) hpa₀ hw hw
  · subst hj'
    obtain ⟨e₀, he₀, hpa₀, hw₀⟩ := hold v e he
    exact .kept _ (grant_of_leaf he₀) hpa₀ hw₀
  · exact .kept _ (grant_of_leaf he) rfl id

/-- `fork(0)` copies the pages of the parent to free ones. -/
theorem forkCopy_keeps {m' : Memory} {table : PageTable ℕ} (h : s.Kept)
    (H : Allocated s r n np pg s₁ trapframe m₀ m)
    (F : CopyForked s₁ t i n np parent pg m' table) : t.Kept := by
  obtain ⟨hdraws, hmem, htaken, htwo⟩ := H.spec h
  have hcopied := F.copied
  rw [H.memory] at hcopied
  have hev := uvmcopy_evolves (Q := fun _ => True) (fun _ _ _ _ => trivial) hdraws.nodup hcopied
  have hrow := F.leaf H
  have hkernel := F.memory
  have hback : ∀ k w e, t.leaf k w = some e → e.pa = trapframe →
      k = n ∧ pg.table.leaf w = some e := by
    intro k w e he hpa
    rw [hrow] at he
    split_ifs at he with hk
    · rcases hev.leaf w e he with hchild | ⟨-, hfree, -⟩
      · exact ⟨hk, hchild⟩
      · exact absurd (hpa ▸ hfree) htaken
    · exact absurd (by rw [hpa]; exact hmem) (h.not_free he)
  refine h.step (hkernel ▸ hdraws.trans hev.draws) fun j v e he => ?_
  rw [hrow] at he
  split_ifs at he with hj
  · subst hj
    rcases hev.leaf v e he with hchild | ⟨-, hfree, htaken', honly⟩
    · refine H.origin h (fun q hq => hev.draws.sub q ?_) hback hchild
      rw [← hkernel]
      exact hq
    · have hfree' : e.pa ∈ s.kernel.memory.freelist := hdraws.sub _ hfree
      refine .fresh hfree' (by rw [← hkernel] at htaken'; exact htaken') fun k w g hg hframe => ?_
      obtain ⟨e', he', rfl⟩ := grant_some.mp hg
      have hpa : e'.pa = e.pa := hframe
      rw [hrow] at he'
      split_ifs at he' with hk
      · refine ⟨hk, ?_⟩
        rcases honly w e' he' hpa with hw | hold
        · exact hw
        · rcases htwo w e' hold with ⟨htramp, -⟩ | ⟨htrap, -⟩
          · refine absurd ?_ h.trampoline
            rw [← htramp, hpa]
            exact hfree'
          · refine absurd hfree ?_
            show e.pa ∉ m.freelist
            rw [← hpa, htrap]
            exact htaken
      · exact absurd (by rw [hpa]; exact hfree') (h.not_free he')
  · exact .kept _ (grant_of_leaf he) rfl id

theorem fork_keeps {cow : Bool} (h : s.Kept) (hlive : (s.proc i).state = .live)
    (hforks : Forks s i cow) (hrun : s.fork i cow = .ok t) : t.Kept := by
  rcases fork_cases hlive hforks hrun with
    ⟨-, rfl⟩ | ⟨n, np, pg, s₁, trapframe, m₀, m, parent, hne, hparent, H, hcase⟩
  · exact h
  · rcases hcase with ⟨-, copy, groups, F⟩ | ⟨-, m', table, F⟩
    · exact forkCow_keeps h hne hparent H F
    · exact forkCopy_keeps h H F

end Fork

section Runs

variable {s t : System} {e : ℕ × Event} {es : List (ℕ × Event)}

theorem step_keeps (h : s.Kept) (hkeeps : (s.proc e.1).state = .live → e.2.Keeps s e.1)
    (hrun : s.step e = .ok t) : t.Kept := by
  obtain ⟨i, e⟩ := e
  unfold System.step at hrun
  simp only at hrun hkeeps
  by_cases hlive : (s.proc i).state = .live
  · rw [if_pos hlive] at hrun
    have hkeeps := hkeeps hlive
    cases hc : s.cpu i with
    | none =>
      simp only [hc] at hrun
      cases hrun
    | some c =>
      simp only [hc] at hrun
      have hn : c.kernel.memory.freelist.Nodup := by
        rw [(cpu_some hc).1]
        exact h.nodup
      cases e with
      | access a =>
        obtain ⟨⟨b, c'⟩, haccess, hrun⟩ := bind_ok_iff.mp hrun
        cases hrun
        exact access_keeps h hc hkeeps.1 (hkeeps.2 c hc) haccess
      | sbrk bytes =>
        obtain ⟨⟨ok, c'⟩, hgrow, hrun⟩ := bind_ok_iff.mp hrun
        cases hrun
        obtain rfl := hkeeps.2 c ok c' hc hgrow
        obtain ⟨hev, hp⟩ := growproc_evolves hn hkeeps.1 hgrow
        exact h.setCpu hc hev hp
      | fork cow => exact fork_keeps h hlive hkeeps hrun
      | exec path argv namei => exact hkeeps.elim
      | exit status => exact hkeeps.elim
      | wait addr => exact hkeeps.elim
      | write dstva src len => exact hkeeps.elim
  · rw [if_neg hlive] at hrun
    cases hrun
    exact h

/-- The events of the run are those of live processes that keep their memory. -/
def KeepingRun (s : System) (es : List (ℕ × Event)) : Prop :=
  Guarded System.step (fun s e => (s.proc e.1).state = .live → e.2.Keeps s e.1) s es

theorem run_keeps (h : s.Fresh) (hes : KeepingRun s es) (hrun : exec System.step s es = .ok t) :
    t.Kept :=
  hes.invariant (fun _ _ _ hI hg hstep => step_keeps hI hg hstep) h.kept hrun

/-- In every state a run reaches, a page that one process may write is mapped by no other and
at no other address, and no user access, store or not, changes a byte that another process
can read. -/
theorem writable_pages_exclusive (h : s.Fresh) (hes : KeepingRun s es)
    (hrun : exec System.step s es = .ok t) :
    t.WritableExclusive ∧
    ∀ i a t', (t.proc i).state = .live →
      (Event.access a).Keeps t i → t.step (i, .access a) = .ok t' →
      ∀ j, j ≠ i → ∀ va, t'.byte j va = t.byte j va := by
  have hkept := run_keeps h hes hrun
  refine ⟨hkept.writable, fun i a t' hlive hkeeps hstep j hj va => ?_⟩
  unfold System.step at hstep
  rw [if_pos hlive] at hstep
  cases hc : t.cpu i with
  | none =>
    simp only [hc] at hstep
    cases hstep
  | some c =>
    simp only [hc] at hstep
    obtain ⟨⟨b, c'⟩, haccess, hstep⟩ := bind_ok_iff.mp hstep
    cases hstep
    have hleaf : (t.setCpu i c').leaf j (vpn va) = t.leaf j (vpn va) := by
      simp [System.leaf, System.setCpu, hj]
    unfold System.byte
    rw [hleaf]
    cases he : t.leaf j (vpn va) with
    | none => rfl
    | some e =>
      have hpage : (t.setCpu i c').kernel.memory.page e.pa = t.kernel.memory.page e.pa :=
        access_frame hkept hc hkeeps.1 (hkeeps.2 c hc) haccess hj he
      simp only [hpage]

end Runs

section Sample

/-- A slot of the process table that no process has used. -/
def blankProc : Proc where
  state := .unused
  xstate := 0
  pid := 0
  parent := none
  sz := 0
  pagetable := none
  trapframe := none
  name := []
  ondemand := false
  heapTracker := fun _ => .zero
  residentHeapPages := 0
  cowGroup := 0
  cowEnabled := false

/-- One process, which has executed a program without segments. -/
def sampleSystem : System where
  kernel := sampleKernel 20
  proc i := if i = 0 then sampleProc 0 else blankProc
  nextpid := 2
  initproc := 0

theorem sampleSystem_leaf {i v : ℕ} {e : Pte} (h : sampleSystem.leaf i v = some e) :
    i = 0 ∧ (sampleTable 0).leaf v = some e := by
  simp only [System.leaf, sampleSystem] at h
  by_cases hi : i = 0
  · subst hi
    exact ⟨rfl, h⟩
  · rw [if_neg hi] at h
    cases h

theorem sampleSystem_fresh : sampleSystem.Fresh := by
  have hentry : ∀ {i v e}, sampleSystem.leaf i v = some e →
      v = 0 ∧ e.pa = PGSIZE * 524288 ∨ v = 1 ∧ e.pa = PGSIZE * 524289 ∨
      v = trapPage ∧ e.pa = PGSIZE * 524290 ∨ e.pa = PGSIZE * 524291 ∧ e.w = false := by
    intro i v e h
    have h := (sampleSystem_leaf h).2
    simp only [sampleTable] at h
    split_ifs at h with h₀ h₁ h₂ h₃
    · cases h
      exact Or.inl ⟨h₀, rfl⟩
    · cases h
      exact Or.inr (Or.inl ⟨h₁, rfl⟩)
    · cases h
      exact Or.inr (Or.inr (Or.inl ⟨h₂, rfl⟩))
    · cases h
      exact Or.inr (Or.inr (Or.inr ⟨rfl, rfl⟩))
  have htramp : sampleSystem.kernel.memory.trampoline = PGSIZE * 524291 := rfl
  have hfree : ∀ q ∈ sampleSystem.kernel.memory.freelist, PGSIZE * 525200 ≤ q := by
    intro q hq
    obtain ⟨k, -, rfl⟩ := List.mem_map.mp hq
    simp only [PGSIZE]
    omega
  refine ⟨(sampleKernel_supplies 20).nodup, ?_, ?_, ?_, ?_⟩
  · intro i v e h hne j w e' h' hpa
    refine ⟨by rw [(sampleSystem_leaf h).1, (sampleSystem_leaf h').1], ?_⟩
    have h₁ := hentry h
    have h₂ := hentry h'
    rw [htramp] at hne
    simp only [PGSIZE] at *
    omega
  · intro i v e h hmem
    have h₁ := hentry h
    have h₂ := hfree _ hmem
    simp only [PGSIZE] at *
    omega
  · intro i v e h hpa
    rw [htramp] at hpa
    have h₁ := hentry h
    simp only [PGSIZE] at *
    have h₂ : ¬ (v = 0 ∧ e.pa = 4096 * 524288 ∨ v = 1 ∧ e.pa = 4096 * 524289 ∨
        v = trapPage ∧ e.pa = 4096 * 524290) := by omega
    rcases h₁ with h₁ | h₁ | h₁ | h₁
    · exact absurd (Or.inl h₁) h₂
    · exact absurd (Or.inr (Or.inl h₁)) h₂
    · exact absurd (Or.inr (Or.inr h₁)) h₂
    · exact h₁.2
  · intro hmem
    have h₂ := hfree _ hmem
    rw [htramp] at h₂
    simp only [PGSIZE] at h₂
    omega

theorem sample_forks : Forks sampleSystem 0 true := by
  have hstate : (sampleSystem.fork 0 true).toOption.map (fun t => (t.proc 1).state) =
      some .live := by decide +kernel
  have hslot : sampleSystem.freeSlot = some 1 := by decide +kernel
  intro n t hn hrun
  rw [hslot] at hn
  cases hn
  rw [hrun] at hstate
  exact Option.some.inj hstate

theorem sample_fork_run : ∃ t, exec System.step sampleSystem [(0, .fork true)] = .ok t := by
  cases hrun : exec System.step sampleSystem [(0, .fork true)] with
  | error e =>
    have hok : (exec System.step sampleSystem [(0, .fork true)]).toOption.isSome = true := by
      decide +kernel
    rw [hrun] at hok
    cases hok
  | ok t => exact ⟨t, rfl⟩

/-- A process forks with copy-on-write. -/
theorem sample_writable_exclusive : ∃ t, exec System.step sampleSystem [(0, .fork true)] = .ok t ∧
    t.WritableExclusive := by
  obtain ⟨t, hrun⟩ := sample_fork_run
  have hes : KeepingRun sampleSystem [(0, .fork true)] :=
    ⟨fun _ => sample_forks, fun _ _ => trivial⟩
  exact ⟨t, hrun, (writable_pages_exclusive sampleSystem_fresh hes hrun).1⟩

end Sample


end AdvancedOperatingSystems.DemandPaging
