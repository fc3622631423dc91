import AdvancedOperatingSystems.VmExec.Freeing

/-!
# Building an image

What `uvmalloc` takes from the free list. The pages of an image, and those of the memory region
of a VM, start at a boundary of 1 GB, so that each 512 of them take one more level-0 table and
the first one takes a level-1 table.
-/

namespace AdvancedOperatingSystems.VmExec

open Foundations Riscv Riscv.PageTable DemandPaging

/-- The pages and the page-table pages that `k` pages take. -/
def cost (k : ℕ) : ℕ := k + (k + 511) / 512 + (k + 262143) / 262144

theorem cost_mono {k l : ℕ} (h : k ≤ l) : cost k ≤ cost l := by
  unfold cost
  omega

theorem le_cost (k : ℕ) : k ≤ cost k := by
  unfold cost
  omega

/-- The memory and the table consist of pages of the allocator, and the table maps the pages
in `S`. -/
structure Owned (kend : ℕ) (A S : ℕ → Prop) (s : Space) : Prop where
  wf : s.2.Wf
  kend : s.1.kend = kend
  free : ∀ q ∈ s.1.freelist, A q
  mid : ∀ i t, s.2.mid i = some t → A t
  low : ∀ j t, s.2.low j = some t → A t
  leaf : ∀ v, (s.2.leaf v).isSome ↔ S v
  frame : ∀ v e, v < trapPage → s.2.leaf v = some e → A e.pa

def Holds (pt : PageTable ℕ) (q : ℕ) : Prop :=
  (∃ i, pt.mid i = some q) ∨ (∃ j, pt.low j = some q) ∨ ∃ v e, pt.leaf v = some e ∧ e.pa = q

/-- The page numbers from the boundary `c` on. -/
def Block (c k v : ℕ) : Prop := 262144 * c ≤ v ∧ v < 262144 * c + k

/-- The table `pt₀` has got `k` pages from the boundary `c` on, with `N` pages free before. -/
structure Grown (N c k : ℕ) (pt₀ : PageTable ℕ) (s : Space) : Prop where
  nodup : s.1.freelist.Nodup
  unfree : ∀ q, Holds s.2 q → q ∉ s.1.freelist
  count : s.1.freelist.length + cost k = N
  mid : ∀ i, (s.2.mid i).isSome ↔ (pt₀.mid i).isSome ∨ i = c ∧ 0 < k
  low : ∀ j, (s.2.low j).isSome ↔
    (pt₀.low j).isSome ∨ 512 * c ≤ j ∧ 512 * j < 262144 * c + k
  user : ∀ v e, Block c k v → s.2.leaf v = some e → e.u = true ∧ e.r = true
  leaf : ∀ v, ¬ Block c k v → s.2.leaf v = pt₀.leaf v

/-- Nothing is mapped from the boundary on, and there are no tables for it. -/
structure Vacant (c : ℕ) (pt₀ : PageTable ℕ) : Prop where
  mid : pt₀.mid c = none
  low : ∀ j, j / 512 = c → pt₀.low j = none
  leaf : ∀ v, v / 262144 = c → pt₀.leaf v = none

section Walk

variable {m m' : Memory} {pt : PageTable ℕ} {va : ℕ} {kend : ℕ} {A S : ℕ → Prop} {taken : List ℕ}

theorem Takes.mem (h : Takes taken m m') {q : ℕ} (hq : q ∈ taken) : q ∈ m.freelist := by
  rw [h.freelist]
  exact List.mem_append_left _ hq

theorem Takes.sub (h : Takes taken m m') {q : ℕ} (hq : q ∈ m'.freelist) : q ∈ m.freelist := by
  rw [h.freelist]
  exact List.mem_append_right _ hq

theorem Takes.not_free (h : Takes taken m m') (hn : m.freelist.Nodup) {q : ℕ} (hq : q ∈ taken) :
    q ∉ m'.freelist := by
  rw [h.freelist, List.nodup_append] at hn
  intro hfree
  exact hn.2.2 q hq q hfree rfl

theorem Owned.takes (h : Owned kend A S (m, pt)) (ht : Takes taken m m')
    (hkend : m'.kend = m.kend) : Owned kend A S (m', pt) :=
  ⟨h.wf, hkend.trans h.kend, fun _ hq => h.free _ (Takes.sub ht hq), h.mid, h.low, h.leaf, h.frame⟩

theorem Owned.setMid (h : Owned kend A S (m, pt)) {t : ℕ} (ht : A t) (i : ℕ) :
    Owned kend A S (m, { pt with mid := Function.update pt.mid i (some t) }) := by
  refine ⟨wf_setMid h.wf i t, h.kend, h.free, fun i' t' ht' => ?_, h.low, h.leaf, h.frame⟩
  simp only [Function.update_apply] at ht'
  split_ifs at ht'
  · cases ht'
    exact ht
  · exact h.mid i' t' ht'

theorem Owned.setLow (h : Owned kend A S (m, pt)) {t i : ℕ} (ht : A t)
    (hmid : (pt.mid (i / 512)).isSome) :
    Owned kend A S (m, { pt with low := Function.update pt.low i (some t) }) := by
  refine ⟨wf_setLow h.wf t hmid, h.kend, h.free, h.mid, fun i' t' ht' => ?_, h.leaf, h.frame⟩
  simp only [Function.update_apply] at ht'
  split_ifs at ht'
  · cases ht'
    exact ht
  · exact h.low i' t' ht'

/-- A step of the walk finds a table page, or no page is left for it. -/
theorem tablePage_cases (slot : Option ℕ) (m : Memory) :
    (∃ t taken m', tablePage slot m = some (t, m') ∧ Takes taken m m' ∧ m'.kend = m.kend ∧
      taken.length = (if slot.isNone then 1 else 0) ∧ (slot = some t ∨ t ∈ taken)) ∨
    slot = none ∧ m.freelist = [] ∧ tablePage slot m = none := by
  cases hrun : tablePage slot m with
  | none =>
    obtain ⟨hslot, hfree⟩ := tablePage_none.mp hrun
    exact Or.inr ⟨hslot, hfree, rfl⟩
  | some r =>
    obtain ⟨t, m'⟩ := r
    refine Or.inl ⟨t, ?_⟩
    cases slot with
    | some t' =>
      cases hrun
      exact ⟨[], m, rfl, Takes.refl m, rfl, rfl, Or.inl rfl⟩
    | none =>
      obtain ⟨hkend, -⟩ := tablePage_some hrun
      obtain ⟨⟨r, m₁⟩, hk, hrun⟩ := Option.map_eq_some_iff.mp hrun
      cases hrun
      exact ⟨[t], _, rfl, (kalloc_takes_of_some hk).write (List.mem_singleton_self t) _, hkend, rfl,
        Or.inr (List.mem_singleton_self t)⟩

/-- `walk` with `alloc`: it finds a slot, or runs out of pages for the tables. -/
theorem walkAlloc_cases (hva : va < MAXVA) :
    ∃ taken m', Takes taken m m' ∧ m'.kend = m.kend ∧
      ((taken.length = missingTables pt va ∧ ∃ t t', walkAlloc va (m, pt) = .ok (true, m',
          { pt with mid := Function.update pt.mid (midIndex va) (some t)
                    low := Function.update pt.low (lowIndex va) (some t') }) ∧
          (pt.mid (midIndex va) = some t ∨ t ∈ taken) ∧
          (pt.low (lowIndex va) = some t' ∨ t' ∈ taken)) ∨
        m.freelist.length < missingTables pt va ∧ ∃ pt', walkAlloc va (m, pt) = .ok (false, m', pt') ∧
          (pt' = pt ∨ ∃ t, (pt.mid (midIndex va) = some t ∨ t ∈ taken) ∧
            pt' = { pt with mid := Function.update pt.mid (midIndex va) (some t) })) := by
  have hlt := Nat.not_le.mpr hva
  rcases tablePage_cases (pt.mid (midIndex va)) m with
    ⟨t, taken, m₁, hmid, htake, hkend, hlen, ht⟩ | ⟨hslot, hfree, hmid⟩
  · have hlength := htake.length
    rcases tablePage_cases (pt.low (lowIndex va)) m₁ with
      ⟨t', taken', m₂, hlow, htake', hkend', hlen', ht'⟩ | ⟨hslot, hfree, hlow⟩
    · refine ⟨taken ++ taken', m₂, htake.trans htake', hkend'.trans hkend, Or.inl ⟨?_, t, t', ?_,
        ht.imp_right (List.mem_append_left _), ht'.imp_right (List.mem_append_right _)⟩⟩
      · rw [List.length_append, missingTables, hlen, hlen']
      · simp only [walkAlloc, if_neg hlt, hmid, hlow]
    · refine ⟨taken, m₁, htake, hkend, Or.inr ⟨?_, _, ?_, Or.inr ⟨t, ht, rfl⟩⟩⟩
      · rw [hfree, List.length_nil] at hlength
        rw [missingTables, hlength, hlen, hslot]
        simp
      · simp only [walkAlloc, if_neg hlt, hmid, hlow]
  · refine ⟨[], m, Takes.refl m, rfl, Or.inr ⟨?_, pt, ?_, Or.inl rfl⟩⟩
    · rw [missingTables, hfree, hslot]
      simp
    · simp only [walkAlloc, if_neg hlt, hmid]

/-- `mappages` of a page that is not mapped. -/
theorem mappages_cases {e : Pte} (hva : va < MAXVA) (hun : pt.leaf (vpn va) = none) :
    ∃ taken m', Takes taken m m' ∧ m'.kend = m.kend ∧
      ((taken.length = missingTables pt va ∧ ∃ t t', mappages va e (m, pt) = .ok (true, m',
          { mid := Function.update pt.mid (midIndex va) (some t)
            low := Function.update pt.low (lowIndex va) (some t')
            leaf := Function.update pt.leaf (vpn va) (some e) }) ∧
          (pt.mid (midIndex va) = some t ∨ t ∈ taken) ∧
          (pt.low (lowIndex va) = some t' ∨ t' ∈ taken)) ∨
        m.freelist.length < missingTables pt va ∧ ∃ pt', mappages va e (m, pt) = .ok (false, m', pt') ∧
          (pt' = pt ∨ ∃ t, (pt.mid (midIndex va) = some t ∨ t ∈ taken) ∧
            pt' = { pt with mid := Function.update pt.mid (midIndex va) (some t) })) := by
  obtain ⟨taken, m', htake, hkend, hcases⟩ := @walkAlloc_cases m pt va hva
  refine ⟨taken, m', htake, hkend, ?_⟩
  rcases hcases with ⟨hlen, t, t', hrun, ht, ht'⟩ | ⟨hlen, pt', hrun, hpt⟩
  · refine Or.inl ⟨hlen, t, t', ?_, ht, ht'⟩
    unfold mappages
    rw [hrun]
    simp only [ok_bind, hun]
    rfl
  · refine Or.inr ⟨hlen, pt', ?_, hpt⟩
    unfold mappages
    rw [hrun]
    rfl

theorem Owned.walked (h : Owned kend A S (m, pt)) {pt' : PageTable ℕ} (ht : Takes taken m m')
    (hkend : m'.kend = m.kend) (hpt : pt' = pt ∨ ∃ t, (pt.mid (midIndex va) = some t ∨ t ∈ taken) ∧
      pt' = { pt with mid := Function.update pt.mid (midIndex va) (some t) }) :
    Owned kend A S (m', pt') := by
  rcases hpt with rfl | ⟨t, hmid, rfl⟩
  · exact h.takes ht hkend
  · apply (h.takes ht hkend).setMid
    rcases hmid with hmid | hmem
    · exact h.mid _ _ hmid
    · exact h.free _ (Takes.mem ht hmem)

/-- The table with one more page. -/
theorem Owned.mapped (h : Owned kend A S (m, pt)) {e : Pte} {t t' : ℕ} (ht : Takes taken m m')
    (hkend : m'.kend = m.kend) (he : vpn va < trapPage → A e.pa) (hgrants : e.onlyValid = false)
    (hmid : pt.mid (midIndex va) = some t ∨ t ∈ taken)
    (hlow : pt.low (lowIndex va) = some t' ∨ t' ∈ taken) :
    Owned kend A (fun v => S v ∨ v = vpn va) (m',
      { mid := Function.update pt.mid (midIndex va) (some t)
        low := Function.update pt.low (lowIndex va) (some t')
        leaf := Function.update pt.leaf (vpn va) (some e) }) := by
  have hpresent : (Function.update pt.mid (midIndex va) (some t) (lowIndex va / 512)).isSome := by
    simp [midIndex]
  have h₁ : Owned kend A S (m', { pt with mid := Function.update pt.mid (midIndex va) (some t) }) := by
    apply (h.takes ht hkend).setMid
    exact hmid.elim (h.mid _ _) fun hmem => h.free _ (Takes.mem ht hmem)
  have h₂ := h₁.setLow (t := t') (i := lowIndex va)
    (hlow.elim (h.low _ _) fun hmem => h.free _ (Takes.mem ht hmem)) hpresent
  have hslot : (Function.update pt.low (lowIndex va) (some t') (lowIndex va)).isSome := by simp
  refine ⟨@wf_setLeaf _ _ h₂.wf va _ hslot hgrants, h₂.kend, h₂.free, h₂.mid, h₂.low,
    fun v => ?_, fun v e' hv he' => ?_⟩
  · simp only [Function.update_apply]
    split_ifs with hv
    · simp [hv]
    · rw [h.leaf v]
      simp [hv]
  · simp only [Function.update_apply] at he'
    split_ifs at he' with heq
    · cases he'
      exact he (heq ▸ hv)
    · exact h.frame v e' hv he'

end Walk

section Grow

variable {m : Memory} {pt pt₀ : PageTable ℕ} {kend N c k : ℕ} {A S : ℕ → Prop} {perm : Perm}
  {oldsz : ℕ} {as : List ℕ}

/-- The table pages that the next page takes. -/
theorem Grown.next_cost (h : Grown N c k pt₀ (m, pt)) (hv : Vacant c pt₀) (hk : k < 262144) :
    cost (k + 1) = cost k + 1 + missingTables pt (PGSIZE * (262144 * c + k)) := by
  have hlowIndex : lowIndex (PGSIZE * (262144 * c + k)) = 512 * c + k / 512 := by
    rw [lowIndex, vpn_mul]
    omega
  have hmidIndex : midIndex (PGSIZE * (262144 * c + k)) = c := by
    rw [midIndex, hlowIndex]
    omega
  have hmid := h.mid c
  have hlow := h.low (512 * c + k / 512)
  rw [hv.mid] at hmid
  rw [hv.low _ (by omega)] at hlow
  have hmid' : (pt.mid c).isNone = true ↔ k = 0 := by
    rw [Option.isNone_iff_eq_none, ← Option.not_isSome_iff_eq_none, hmid]
    simp
  have hlow' : (pt.low (512 * c + k / 512)).isNone = true ↔ k % 512 = 0 := by
    rw [Option.isNone_iff_eq_none, ← Option.not_isSome_iff_eq_none, hlow]
    simp
    omega
  unfold missingTables cost
  rw [hlowIndex, hmidIndex]
  split_ifs with h₁ h₂ h₂
  · rw [hmid'] at h₁
    rw [hlow'] at h₂
    omega
  · rw [hmid'] at h₁
    rw [hlow'] at h₂
    omega
  · rw [hmid'] at h₁
    rw [hlow'] at h₂
    omega
  · rw [hmid'] at h₁
    rw [hlow'] at h₂
    omega

theorem block_succ {v : ℕ} : Block c (k + 1) v ↔ Block c k v ∨ v = 262144 * c + k := by
  unfold Block
  omega

theorem block_div {v : ℕ} (hk : k ≤ 262144) (h : Block c k v) : v / 262144 = c := by
  unfold Block at h
  omega

theorem Owned.kfree (h : Owned kend A S (m, pt)) (hA : ∀ q, A q → Freeable kend q) {q : ℕ}
    (hq : A q) : ∃ m', m.kfree q = .ok m' ∧ Owned kend A S (m', pt) := by
  have hkend : m.kend = kend := h.kend
  refine ⟨_, kfree_eq (hkend ▸ hA q hq), h.wf, hkend, fun x hx => ?_, h.mid, h.low, h.leaf, h.frame⟩
  rcases List.mem_cons.mp hx with rfl | hx
  · exact hq
  · exact h.free x hx

theorem Owned.congr {S' : ℕ → Prop} {s : Space} (h : Owned kend A S s) (hS : ∀ v, S v ↔ S' v) :
    Owned kend A S' s :=
  ⟨h.wf, h.kend, h.free, h.mid, h.low, fun v => (h.leaf v).trans (hS v), h.frame⟩

/-- The next page of the block has been mapped. -/
theorem Grown.mapped (h : Grown N c k pt₀ (m, pt)) {m' : Memory} {e : Pte} {t t' : ℕ}
    {taken : List ℕ} (ht : Takes taken m m') (he : e.pa ∈ taken) (hu : e.u = true ∧ e.r = true)
    (hcount : cost (k + 1) = cost k + taken.length)
    (hmid : pt.mid c = some t ∨ t ∈ taken)
    (hlow : pt.low (512 * c + k / 512) = some t' ∨ t' ∈ taken) (hk : k < 262144) :
    Grown N c (k + 1) pt₀ (m',
      { mid := Function.update pt.mid c (some t)
        low := Function.update pt.low (512 * c + k / 512) (some t')
        leaf := Function.update pt.leaf (262144 * c + k) (some e) }) := by
  have hlength := ht.length
  have hcount₀ := h.count
  have hkeep : ∀ q, Holds pt q ∨ q ∈ taken → q ∉ m'.freelist := by
    rintro q (hq | hq) hfree
    · exact h.unfree q hq (Takes.sub ht hfree)
    · exact Takes.not_free ht h.nodup hq hfree
  refine ⟨?_, fun q hq => hkeep q ?_, ?_, fun i => ?_, fun j => ?_, fun v e' hv he' => ?_,
    fun v hv => ?_⟩
  · have hn := h.nodup
    rw [ht.freelist] at hn
    exact hn.of_append_right
  · rcases hq with ⟨i, hi⟩ | ⟨j, hj⟩ | ⟨v, e', hv, rfl⟩
    · simp only [Function.update_apply] at hi
      split_ifs at hi with heq
      · cases hi
        exact hmid.imp_left fun h => Or.inl ⟨c, h⟩
      · exact Or.inl (Or.inl ⟨i, hi⟩)
    · simp only [Function.update_apply] at hj
      split_ifs at hj with heq
      · cases hj
        exact hlow.imp_left fun h => Or.inr (Or.inl ⟨_, h⟩)
      · exact Or.inl (Or.inr (Or.inl ⟨j, hj⟩))
    · simp only [Function.update_apply] at hv
      split_ifs at hv with heq
      · cases hv
        exact Or.inr he
      · exact Or.inl (Or.inr (Or.inr ⟨v, e', hv, rfl⟩))
  · simp only at hcount₀ ⊢
    omega
  · have hi := h.mid i
    simp only [Function.update_apply] at hi ⊢
    split_ifs with heq
    · simp [heq]
    · rw [hi]
      simp [heq]
  · have hj := h.low j
    simp only [Function.update_apply] at hj ⊢
    split_ifs with heq
    · simp only [Option.isSome_some, true_iff]
      right
      omega
    · rw [hj]
      apply or_congr_right
      constructor
      · rintro ⟨h₁, h₂⟩
        exact ⟨h₁, by omega⟩
      · rintro ⟨h₁, h₂⟩
        exact ⟨h₁, by omega⟩
  · simp only [Function.update_apply] at he'
    split_ifs at he' with heq
    · cases he'
      exact hu
    · exact h.user v e' ((block_succ.mp hv).resolve_right heq) he'
  · rw [block_succ, not_or] at hv
    simp only [Function.update_apply, if_neg hv.2]
    exact h.leaf v hv.1

/-- One page of the loop of `uvmalloc`: it is mapped, or the pages of the loop are unmapped. -/
theorem uvmallocLoop_step (hO : Owned kend A (fun v => S v ∨ Block c k v) (m, pt))
    (hG : Grown N c k pt₀ (m, pt)) (hv : Vacant c pt₀) (hk : k < 262144) (hc : c < 255)
    (hS : ∀ v, v / 262144 = c → ¬ S v) (hA : ∀ q, A q → Freeable kend q) :
    (cost (k + 1) ≤ N ∧ ∃ s',
      uvmallocLoop perm oldsz (PGSIZE * (262144 * c + k) :: as) (m, pt) =
        uvmallocLoop perm oldsz as s' ∧
      Owned kend A (fun v => S v ∨ Block c (k + 1) v) s' ∧ Grown N c (k + 1) pt₀ s') ∨
    N < cost (k + 1) ∧ ∃ s', Owned kend A (fun v => S v ∨ Block c k v) s' ∧
      uvmallocLoop perm oldsz (PGSIZE * (262144 * c + k) :: as) (m, pt) =
        uvmdealloc (PGSIZE * (262144 * c + k)) oldsz s' >>= fun s => .ok (false, s) := by
  have hcost := hG.next_cost hv hk
  have hcount := hG.count
  simp only at hcount
  cases hfree : m.freelist with
  | nil =>
    rw [hfree, List.length_nil] at hcount
    refine Or.inr ⟨by omega, (m, pt), hO, ?_⟩
    simp only [uvmallocLoop, Memory.kalloc_none.mpr hfree]
    rfl
  | cons mem rest =>
    obtain ⟨m₁, hk₁⟩ : ∃ m₁, m.kalloc = some (mem, m₁) := ⟨_, Memory.kalloc_cons hfree⟩
    have hkend₁ : m₁.kend = m.kend := by
      rw [Memory.kalloc_cons hfree] at hk₁
      cases hk₁
      rfl
    have htake₁ : Takes [mem] m (m₁.memset mem 0) :=
      (kalloc_takes_of_some hk₁).write (List.mem_singleton_self mem) _
    have hmem : A mem := hO.free mem (by simp [hfree])
    have hun : pt.leaf (vpn (PGSIZE * (262144 * c + k))) = none := by
      rw [vpn_mul, ← Option.not_isSome_iff_eq_none]
      intro hsome
      rcases (hO.leaf _).mp hsome with h | h
      · exact hS _ (by omega) h
      · unfold Block at h
        omega
    have hva : PGSIZE * (262144 * c + k) < MAXVA := by
      simp only [PGSIZE, MAXVA]
      omega
    have hlowIndex : lowIndex (PGSIZE * (262144 * c + k)) = 512 * c + k / 512 := by
      rw [lowIndex, vpn_mul]
      omega
    have hmidIndex : midIndex (PGSIZE * (262144 * c + k)) = c := by
      rw [midIndex, hlowIndex]
      omega
    have hlength₁ := htake₁.length
    obtain ⟨taken, m', htake, hkend, hcases⟩ :=
      @mappages_cases (m₁.memset mem 0) pt _ (perm.pte mem) hva hun
    have hO₁ := hO.takes htake₁ hkend₁
    rcases hcases with ⟨hlen, t, t', hrun, hmid, hlow⟩ | ⟨hlen, pt', hrun, hpt⟩
    · have hO₂ := hO₁.mapped htake hkend (fun _ => hmem) (onlyValid_pte perm mem) hmid hlow
      have hlength := (htake₁.trans htake).length
      rw [vpn_mul] at hO₂
      rw [hlowIndex, hmidIndex, vpn_mul] at *
      refine Or.inl ⟨?_, _, ?_, hO₂.congr fun v => ?_, hG.mapped (htake₁.trans htake)
        (List.mem_append_left _ (List.mem_singleton_self mem)) ⟨rfl, rfl⟩ ?_
        (hmid.imp_right (List.mem_append_right _)) (hlow.imp_right (List.mem_append_right _)) hk⟩
      · rw [List.length_append, List.length_singleton] at hlength
        omega
      · simp only [uvmallocLoop, hk₁, hrun, ok_bind, if_true]
      · rw [block_succ]
        exact or_assoc
      · rw [List.length_append, List.length_singleton]
        omega
    · have hO₂ := hO₁.walked htake hkend hpt
      obtain ⟨m₂, hkfree, hO₃⟩ := hO₂.kfree hA hmem
      refine Or.inr ⟨?_, (m₂, pt'), hO₃, ?_⟩
      · rw [List.length_singleton] at hlength₁
        omega
      · simp only [uvmallocLoop, hk₁, hrun, ok_bind, Bool.false_eq_true, if_false, hkfree]
        rfl

theorem mem_pages_block {v a k₀ : ℕ} :
    v ∈ (pages (PGSIZE * (a + k₀)) (PGSIZE * (a + k))).map vpn ↔ a + k₀ ≤ v ∧ v < a + k := by
  simp only [List.mem_map, mem_pages, vpn, PGSIZE]
  constructor
  · rintro ⟨x, hx, rfl⟩
    omega
  · intro h
    exact ⟨4096 * v, by omega, by omega⟩

/-- Unmapping the pages of a failed call. -/
theorem uvmdealloc_block {s : Space} {k₀ : ℕ} (hO : Owned kend A (fun v => S v ∨ Block c k v) s)
    (hle : k₀ ≤ k) (hk : k ≤ 262144) (hc : c < 255) (hS : ∀ v, v / 262144 = c → ¬ S v)
    (hA : ∀ q, A q → Freeable kend q) :
    ∃ s', uvmdealloc (PGSIZE * (262144 * c + k)) (PGSIZE * (262144 * c + k₀)) s = .ok s' ∧
      Owned kend A (fun v => S v ∨ Block c k₀ v) s' := by
  unfold uvmdealloc
  have hround : ∀ i ≤ k, pgroundup64 (PGSIZE * (262144 * c + i)) = PGSIZE * (262144 * c + i) := by
    intro i hi
    apply pgroundup64_of_aligned (mul_aligned _)
    simp only [PGSIZE]
    omega
  rw [hround k le_rfl, hround k₀ hle]
  by_cases heq : k₀ = k
  · subst heq
    exact ⟨s, if_pos le_rfl, hO⟩
  · have hlt : PGSIZE * (262144 * c + k₀) < PGSIZE * (262144 * c + k) := by
      simp only [PGSIZE]
      omega
    have hstop : PGSIZE * (262144 * c + k₀) +
        (PGSIZE * (262144 * c + k) - PGSIZE * (262144 * c + k₀)) / PGSIZE * PGSIZE =
          PGSIZE * (262144 * c + k) := by
      simp only [PGSIZE]
      omega
    have hpage : ∀ a ∈ pages (PGSIZE * (262144 * c + k₀)) (PGSIZE * (262144 * c + k)),
        a % PGSIZE = 0 ∧ a < MAXVA ∧ vpn a < trapPage ∧ Block c k (vpn a) := by
      intro a ha
      rw [mem_pages] at ha
      simp only [Block, vpn, trapPage, TRAPFRAME, TRAMPOLINE, MAXVA, PGSIZE] at *
      omega
    obtain ⟨s', hrun, C⟩ := @unmapPages_mapped true s _ hO.wf
      (fun a ha => ⟨(hpage a ha).1, (hpage a ha).2.1⟩) (nodup_pages _ _)
      (fun a ha => (hO.leaf _).mpr (Or.inr (hpage a ha).2.2.2)) fun _ q hq => by
        obtain ⟨a, ha, e, he, rfl⟩ := mem_frames.mp hq
        rw [hO.kend]
        exact hA _ (hO.frame _ e (hpage a ha).2.2.1 he)
    rw [if_neg (Nat.not_le.mpr hlt), if_pos hlt]
    unfold uvmunmap
    rw [if_neg (not_not.mpr (mul_aligned _)), hstop]
    refine ⟨s', hrun, C.wf, C.kend.trans hO.kend, fun q hq => ?_, fun i t ht => ?_, fun j t ht => ?_,
      fun v => ?_, fun v e hv he => ?_⟩
    · have hmem := C.freelist.mem_iff.mp hq
      rw [if_pos rfl, List.mem_append] at hmem
      rcases hmem with hmem | hmem
      · obtain ⟨a, ha, e, he, rfl⟩ := mem_frames.mp hmem
        exact hO.frame _ e (hpage a ha).2.2.1 he
      · exact hO.free q hmem
    · rw [C.mid] at ht
      exact hO.mid i t ht
    · rw [C.low] at ht
      exact hO.low j t ht
    · rw [C.leaf]
      by_cases hmem : v ∈ (pages (PGSIZE * (262144 * c + k₀)) (PGSIZE * (262144 * c + k))).map vpn
      · rw [if_pos hmem]
        rw [mem_pages_block] at hmem
        simp only [Option.isSome_none, Bool.false_eq_true, false_iff, not_or]
        refine ⟨hS v (by omega), fun hb => ?_⟩
        unfold Block at hb
        omega
      · rw [if_neg hmem, hO.leaf]
        rw [mem_pages_block] at hmem
        apply or_congr_right
        unfold Block
        omega
    · rw [C.leaf] at he
      split_ifs at he
      exact hO.frame v e hv he

/-- The loop of `uvmalloc` maps all of its pages exactly when there are enough free ones. -/
theorem uvmallocLoop_spec {s : Space} {k₀ : ℕ} (n : ℕ)
    (hO : Owned kend A (fun v => S v ∨ Block c k v) s) (hG : Grown N c k pt₀ s)
    (hv : Vacant c pt₀) (hN : N < 262144) (hc : c < 255) (hle : k₀ ≤ k)
    (hS : ∀ v, v / 262144 = c → ¬ S v) (hA : ∀ q, A q → Freeable kend q) :
    if cost (k + n) ≤ N then
      ∃ s', uvmallocLoop perm (PGSIZE * (262144 * c + k₀))
          ((List.range' k n).map fun i => PGSIZE * (262144 * c + i)) s = .ok (true, s') ∧
        Owned kend A (fun v => S v ∨ Block c (k + n) v) s' ∧ Grown N c (k + n) pt₀ s'
    else
      ∃ s', uvmallocLoop perm (PGSIZE * (262144 * c + k₀))
          ((List.range' k n).map fun i => PGSIZE * (262144 * c + i)) s = .ok (false, s') ∧
        Owned kend A (fun v => S v ∨ Block c k₀ v) s' := by
  have hcount := hG.count
  have hk := le_cost k
  induction n generalizing k s with
  | zero =>
    rw [Nat.add_zero, if_pos (by omega)]
    exact ⟨s, rfl, hO, hG⟩
  | succ n ih =>
    obtain ⟨m, pt⟩ := s
    rw [List.range'_succ, List.map_cons]
    rcases @uvmallocLoop_step m pt pt₀ kend N c k A S perm (PGSIZE * (262144 * c + k₀))
        ((List.range' (k + 1) n).map fun i => PGSIZE * (262144 * c + i)) hO hG hv (by omega) hc
        hS hA with
      ⟨-, s', hrun, hO', hG'⟩ | ⟨hfull, s', hO', hrun⟩
    · rw [hrun]
      have hrest := ih hO' hG' (by omega) hG'.count (le_cost _)
      have hsum : k + 1 + n = k + (n + 1) := by omega
      rw [hsum] at hrest
      exact hrest
    · have hmono := @cost_mono (k + 1) (k + (n + 1)) (by omega)
      rw [if_neg (by omega), hrun]
      obtain ⟨s₂, hdealloc, hO₂⟩ := uvmdealloc_block hO' hle (by omega) hc hS hA
      rw [hdealloc]
      exact ⟨s₂, rfl, hO₂⟩

end Grow

end AdvancedOperatingSystems.VmExec
