import AdvancedOperatingSystems.DemandPaging.Mapping

/-!
# What a successful `uvmalloc` has mapped

The converse of `Mapping`: from the fact that the functions returned, what they have
done to the table and which pages they have taken.
-/

namespace AdvancedOperatingSystems.DemandPaging

open Foundations Riscv Riscv.PageTable

theorem kalloc_takes_of_some {m m' : Memory} {r : ℕ} (h : m.kalloc = some (r, m')) :
    Takes [r] m m' := by
  obtain ⟨hfree, hrel, hpage⟩ := Memory.kalloc_some h
  refine ⟨hfree, fun q hq => ?_, hrel⟩
  rw [List.mem_singleton] at hq
  rw [hpage, Function.update_of_ne hq]

theorem tablePage_takes_of_some {slot : Option ℕ} {m m' : Memory} {t : ℕ}
    (h : tablePage slot m = some (t, m')) : ∃ taken, Takes taken m m' := by
  cases slot with
  | some t' =>
    cases h
    exact ⟨[], Takes.refl m⟩
  | none =>
    obtain ⟨⟨r, m₁⟩, hk, h⟩ := Option.map_eq_some_iff.mp h
    cases h
    exact ⟨_, (kalloc_takes_of_some hk).write (List.mem_singleton_self _) _⟩

section Inversion

variable {m m' : Memory} {pt pt' : PageTable ℕ} {va : ℕ} {found : Bool}

theorem walkAlloc_ok (hw : pt.Wf) (h : walkAlloc va (m, pt) = .ok (found, m', pt')) :
    va < MAXVA ∧ (∃ taken, Takes taken m m') ∧ pt'.leaf = pt.leaf ∧ pt'.Wf ∧
      (found = true → (pt'.low (lowIndex va)).isSome) := by
  unfold walkAlloc at h
  by_cases hva : MAXVA ≤ va
  · simp [hva] at h
  · simp only [if_neg hva] at h
    cases h₁ : tablePage (pt.mid (midIndex va)) m with
    | none =>
      rw [h₁] at h
      cases h
      exact ⟨by omega, ⟨[], Takes.refl _⟩, rfl, hw, by simp⟩
    | some r =>
      obtain ⟨t, m₁⟩ := r
      obtain ⟨taken₁, htake₁⟩ := tablePage_takes_of_some h₁
      simp only [h₁] at h
      have hw₁ := wf_setMid hw (midIndex va) t
      cases h₂ : tablePage (pt.low (lowIndex va)) m₁ with
      | none =>
        rw [h₂] at h
        cases h
        exact ⟨by omega, ⟨_, htake₁⟩, rfl, hw₁, by simp⟩
      | some r =>
        obtain ⟨t', m₂⟩ := r
        obtain ⟨taken₂, htake₂⟩ := tablePage_takes_of_some h₂
        rw [h₂] at h
        cases h
        have hmid : (Function.update pt.mid (midIndex va) (some t) (lowIndex va / 512)).isSome := by
          simp [midIndex]
        exact ⟨by omega, ⟨_, htake₁.trans htake₂⟩, rfl, wf_setLow hw₁ t' hmid, by simp⟩

theorem mappages_ok (hw : pt.Wf) {e : Pte} (he : e.onlyValid = false)
    (h : mappages va e (m, pt) = .ok (found, m', pt')) :
    va < MAXVA ∧ (∃ taken, Takes taken m m') ∧ pt'.Wf ∧
      (found = false ∧ pt'.leaf = pt.leaf ∨ found = true ∧ pt.leaf (vpn va) = none ∧
        pt'.leaf = Function.update pt.leaf (vpn va) (some e)) := by
  obtain ⟨⟨found₁, m₁, pt₁⟩, hwalk, h⟩ := bind_ok_iff.mp h
  obtain ⟨hva, htake, hleaf, hwf, hlow⟩ := walkAlloc_ok hw hwalk
  cases hf : found₁ with
  | false =>
    simp only [hf, Bool.not_false, ↓reduceIte] at h
    cases h
    exact ⟨hva, htake, hwf, Or.inl ⟨rfl, hleaf⟩⟩
  | true =>
    simp only [hf, Bool.not_true, Bool.false_eq_true, ↓reduceIte] at h
    by_cases hsome : (pt₁.leaf (vpn va)).isSome
    · simp [hsome] at h
    · rw [if_neg hsome] at h
      cases h
      rw [Option.not_isSome_iff_eq_none, hleaf] at hsome
      exact ⟨hva, htake, wf_setLeaf hwf (hlow hf) he,
        Or.inr ⟨rfl, hsome, by rw [set_leaf, hleaf]⟩⟩

end Inversion

/-- The pages with numbers `vs` have been mapped with zeroed pages off the free list. -/
structure Populates (perm : Perm) (vs : List ℕ) (s s' : Space) : Prop where
  wf : s'.2.Wf
  takes : ∃ taken, Takes taken s.1 s'.1 ∧
    ∀ v ∈ vs, ∀ pa, s'.2.leaf v = some (perm.pte pa) → pa ∈ taken
  unmapped : ∀ v ∈ vs, s.2.leaf v = none
  mapped : ∀ v ∈ vs, ∃ pa, s'.2.leaf v = some (perm.pte pa)
  others : ∀ v, v ∉ vs → s'.2.leaf v = s.2.leaf v
  zero : s.1.freelist.Nodup → ∀ v ∈ vs, ∀ pa, s'.2.leaf v = some (perm.pte pa) →
    s'.1.page pa = fun _ => 0
  inj : s.1.freelist.Nodup → ∀ v ∈ vs, ∀ w ∈ vs, ∀ pa, s'.2.leaf v = some (perm.pte pa) →
    s'.2.leaf w = some (perm.pte pa) → v = w

theorem Perm.pte_inj {perm : Perm} {pa pa' : ℕ} (h : some (perm.pte pa) = some (perm.pte pa')) :
    pa = pa' := congrArg Pte.pa (Option.some.inj h)

theorem populates_nil {perm : Perm} {s : Space} (hw : s.2.Wf) : Populates perm [] s s :=
  ⟨hw, ⟨[], Takes.refl _, by simp⟩, by simp, by simp, by simp, by simp, by simp⟩

theorem uvmallocLoop_ok {r : Running} {perm : Perm} {oldsz : ℕ} {as : List ℕ} {s s' : Space}
    (hw : s.2.Wf) (h : uvmallocLoop r perm oldsz as s = .ok (true, s')) :
    Populates perm (as.map vpn) s s' ∧ ∀ a ∈ as, a < MAXVA := by
  induction as generalizing s with
  | nil =>
    cases h
    exact ⟨populates_nil hw, by simp⟩
  | cons a as ih =>
    obtain ⟨m, pt⟩ := s
    unfold uvmallocLoop at h
    cases hk : m.kalloc with
    | none =>
      simp only [hk] at h
      obtain ⟨⟨sz, s₁⟩, -, h⟩ := bind_ok_iff.mp h
      cases h
    | some q =>
      obtain ⟨mem, m₁⟩ := q
      simp only [hk] at h
      obtain ⟨⟨ok, m₂, pt₁⟩, hmap, h⟩ := bind_ok_iff.mp h
      obtain ⟨hva, ⟨taken₁, htake₁⟩, hw₁, hcase⟩ := mappages_ok hw (onlyValid_pte perm mem) hmap
      rcases hcase with ⟨rfl, _⟩ | ⟨rfl, hun, hleaf⟩
      · simp only [Bool.false_eq_true, ↓reduceIte] at h
        obtain ⟨m₃, -, h⟩ := bind_ok_iff.mp h
        obtain ⟨⟨sz, s₁⟩, -, h⟩ := bind_ok_iff.mp h
        cases h
      · simp only [↓reduceIte] at h
        obtain ⟨P, hlt⟩ := ih hw₁ h
        obtain ⟨taken₂, htake₂, hin₂⟩ := P.takes
        have htake : Takes ([mem] ++ taken₁) m m₂ :=
          ((kalloc_takes_of_some hk).write (List.mem_singleton_self mem) _).trans htake₁
        have htake' := htake.trans htake₂
        -- the page just mapped is none of the later ones
        have hnew : vpn a ∉ as.map vpn := by
          intro hin
          have hnone := P.unmapped _ hin
          rw [hleaf, Function.update_self] at hnone
          cases hnone
        have hself : s'.2.leaf (vpn a) = some (perm.pte mem) := by
          rw [P.others _ hnew, hleaf, Function.update_self]
        have hmem : m.freelist.Nodup → mem ∉ taken₁ ∧ mem ∉ taken₂ := by
          intro hnodup
          rw [htake'.freelist] at hnodup
          simp only [List.append_assoc, List.cons_append, List.nil_append, List.nodup_cons,
            List.mem_append, not_or] at hnodup
          exact ⟨hnodup.1.1, hnodup.1.2.1⟩
        have hnodup₂ : m.freelist.Nodup → m₂.freelist.Nodup := by
          intro hnodup
          rw [htake.freelist] at hnodup
          exact hnodup.of_append_right
        refine ⟨⟨P.wf, ⟨_, htake', fun v hv pa hpa => ?_⟩, fun v hv => ?_, fun v hv => ?_,
          fun v hv => ?_, fun hnodup v hv pa hpa => ?_,
          fun hnodup v hv w hw' pa hv' hw'' => ?_⟩, fun b hb => ?_⟩
        · rcases List.mem_cons.mp hv with rfl | hv
          · rw [hself] at hpa
            rw [← Perm.pte_inj hpa]
            simp
          · exact List.mem_append_right _ (hin₂ v hv pa hpa)
        · rcases List.mem_cons.mp hv with rfl | hv
          · exact hun
          · have hne : v ≠ vpn a := fun heq => hnew (heq ▸ hv)
            have hnone := P.unmapped v hv
            rwa [hleaf, Function.update_of_ne hne] at hnone
        · rcases List.mem_cons.mp hv with rfl | hv
          · exact ⟨mem, hself⟩
          · exact P.mapped v hv
        · rw [List.map_cons, List.mem_cons, not_or] at hv
          rw [P.others v hv.2, hleaf, Function.update_of_ne hv.1]
        · rcases List.mem_cons.mp hv with rfl | hv
          · rw [hself] at hpa
            rw [← Perm.pte_inj hpa, htake₂.page mem (hmem hnodup).2,
              htake₁.page mem (hmem hnodup).1, Memory.memset_page, Function.update_self]
          · exact P.zero (hnodup₂ hnodup) v hv pa hpa
        · rcases List.mem_cons.mp hv with rfl | hv
          · rcases List.mem_cons.mp hw' with rfl | hw'
            · rfl
            · rw [hself] at hv'
              have hin := hin₂ w hw' pa hw''
              rw [← Perm.pte_inj hv'] at hin
              exact absurd hin (hmem hnodup).2
          · rcases List.mem_cons.mp hw' with rfl | hw'
            · rw [hself] at hw''
              have hin := hin₂ v hv pa hv'
              rw [← Perm.pte_inj hw''] at hin
              exact absurd hin (hmem hnodup).2
            · exact P.inj (hnodup₂ hnodup) v hv w hw' pa hv' hw''
        · rcases List.mem_cons.mp hb with rfl | hb
          · exact hva
          · exact hlt b hb

/-- `uvmalloc` succeeds either because there is nothing to do or after it has mapped all
pages from the old size to the new one. -/
theorem uvmalloc_ok {r : Running} {perm : Perm} {oldsz newsz sz : ℕ} {s s' : Space}
    (hw : s.2.Wf) (h : uvmalloc r oldsz newsz perm s = .ok (sz, s')) (hsz : sz ≠ 0) :
    newsz < oldsz ∧ sz = oldsz ∧ s' = s ∨
      oldsz ≤ newsz ∧ sz = newsz ∧
        Populates perm ((pages (pgroundup64 oldsz) newsz).map vpn) s s' ∧
        ∀ a ∈ pages (pgroundup64 oldsz) newsz, a < MAXVA := by
  unfold uvmalloc at h
  by_cases hlt : newsz < oldsz
  · rw [if_pos hlt] at h
    cases h
    exact Or.inl ⟨hlt, rfl, rfl⟩
  · rw [if_neg hlt] at h
    obtain ⟨⟨ok, s₁⟩, hloop, h⟩ := bind_ok_iff.mp h
    cases hok : ok with
    | false =>
      rw [hok] at h
      cases h
      exact absurd rfl hsz
    | true =>
      rw [hok] at h hloop
      cases h
      obtain ⟨P, hva⟩ := uvmallocLoop_ok hw hloop
      exact Or.inr ⟨by omega, rfl, P, hva⟩

end AdvancedOperatingSystems.DemandPaging
