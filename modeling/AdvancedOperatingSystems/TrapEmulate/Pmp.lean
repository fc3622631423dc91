import AdvancedOperatingSystems.TrapEmulate.Outcome

/-!
# The PMP configurations that are emulated

An entry in the mode TOR protects the addresses from the bound of the entry before it
to its own, and an entry that is OFF protects nothing. `handle_mret` does not look at
the mode of an entry, and stops at the first bound that is 0.
-/

namespace AdvancedOperatingSystems.TrapEmulate

open Foundations Riscv Riscv.PageTable

section Entries

variable (s : VmState)

/-- The field `A` of an entry: 0 is OFF and 1 is TOR. -/
def pmpMode (i : Fin 4) : BitVec 64 := (s.val .pmpcfg0 >>> (i.val * 8 + 3)) &&& 3

def torStart (i : Fin 4) : ℕ := if i.val = 0 then 0 else pmpEnd s ⟨i.val - 1, pred_entry_lt i⟩

def Covers (i : Fin 4) (a : ℕ) : Prop := torStart s i ≤ a ∧ a < pmpEnd s i

def Protects (i : Fin 4) (a : ℕ) : Prop := pmpMode s i = 1 ∧ pmpRwx s i ≠ 7 ∧ Covers s i a

/-- The first `k` entries are OFF or TOR with page-aligned, nondecreasing bounds in the
region, and the others are 0. -/
structure PmpContent (k : ℕ) : Prop where
  le : k ≤ 4
  mode : ∀ i : Fin 4, i.val < k → pmpMode s i = 0 ∨ pmpMode s i = 1
  aligned : ∀ i : Fin 4, i.val < k → pmpEnd s i % PGSIZE = 0
  inside : ∀ i : Fin 4, i.val < k →
    i = 0 ∧ s.val (.pmpaddr i) = 0 ∨ vmStart ≤ pmpEnd s i ∧ pmpEnd s i ≤ vmEnd
  mono : ∀ i j : Fin 4, i ≤ j → j.val < k → pmpEnd s i ≤ pmpEnd s j
  rest : ∀ i : Fin 4, k ≤ i.val → s.val (.pmpaddr i) = 0

def RegionPage (a : ℕ) : Prop := a % PGSIZE = 0 ∧ vmStart ≤ a ∧ a < vmEnd

/-- Among the entries that restrict and have a page of the region between their bounds,
those that are TOR are all if the first bound is not 0, and none if it is. -/
def PmpHonest : Prop :=
  ∀ i a, RegionPage a → pmpRwx s i ≠ 7 → Covers s i a →
    (pmpMode s i = 1 ↔ s.val (.pmpaddr 0) ≠ 0)

end Entries

section Withdrawn

variable {s : VmState} {k : ℕ} {a : ℕ} {is : List (Fin 4)}

/-- The loop over the entries stops where all further bounds are 0. -/
def ZerosLast (s : VmState) : Prop :=
  ∀ i j : Fin 4, i ≤ j → s.val (.pmpaddr i) = 0 → s.val (.pmpaddr j) = 0

theorem mem_restrictedBy (hz : ZerosLast s) (hsort : is.Pairwise (· < ·)) :
    a ∈ restrictedBy s is ↔ ∃ i ∈ is, s.val (.pmpaddr i) ≠ 0 ∧ pmpRwx s i ≠ 7 ∧
      a ∈ pages (pmpStart s i) (pmpEnd s i) := by
  induction is with
  | nil => simp [restrictedBy]
  | cons i is ih =>
    rw [List.pairwise_cons] at hsort
    by_cases h₀ : s.val (.pmpaddr i) = 0
    · have hnone : ∀ j ∈ i :: is, s.val (.pmpaddr j) = 0 := by
        intro j hj
        rcases List.mem_cons.mp hj with rfl | hj
        · exact h₀
        · exact hz i j (hsort.1 j hj).le h₀
      simp only [restrictedBy, h₀, ↓reduceIte, List.not_mem_nil, false_iff]
      rintro ⟨j, hj, hne, -⟩
      exact hne (hnone j hj)
    · rw [restrictedBy, if_neg h₀, List.mem_append, ih hsort.2]
      simp only [List.mem_cons, exists_eq_or_imp, h₀, ne_eq, not_false_eq_true, true_and]
      apply or_congr_left
      by_cases h₇ : pmpRwx s i = 7
      · simp [h₇]
      · simp

/-- No page is withdrawn twice if the ranges of the entries are apart. -/
theorem nodup_restrictedBy (hz : ZerosLast s) (hsort : is.Pairwise (· < ·))
    (hapart : ∀ i j : Fin 4, i < j → s.val (.pmpaddr j) ≠ 0 → ∀ a,
      a ∈ pages (pmpStart s i) (pmpEnd s i) → a ∉ pages (pmpStart s j) (pmpEnd s j)) :
    (restrictedBy s is).Nodup := by
  induction is with
  | nil => exact List.nodup_nil
  | cons i is ih =>
    rw [List.pairwise_cons] at hsort
    by_cases h₀ : s.val (.pmpaddr i) = 0
    · rw [restrictedBy, if_pos h₀]
      exact List.nodup_nil
    · rw [restrictedBy, if_neg h₀, List.nodup_append]
      refine ⟨?_, ih hsort.2, fun a ha b hb hab => ?_⟩
      · split_ifs
        · exact nodup_pages _ _
        · exact List.nodup_nil
      · subst hab
        obtain ⟨j, hj, hne, -, hmem⟩ := (mem_restrictedBy hz hsort.2).mp hb
        split_ifs at ha with h₇
        · exact hapart i j (hsort.1 j hj) hne a ha hmem
        · cases ha

namespace PmpContent

theorem nonzero_lt (C : PmpContent s k) {i : Fin 4} (h : s.val (.pmpaddr i) ≠ 0) : i.val < k := by
  by_contra hge
  exact h (C.rest i (by omega))

theorem bound_pos (C : PmpContent s k) (h₀ : s.val (.pmpaddr 0) ≠ 0) {i : Fin 4}
    (hi : i.val < k) : vmStart ≤ pmpEnd s i ∧ pmpEnd s i ≤ vmEnd := by
  rcases C.inside i hi with ⟨rfl, h⟩ | h
  · exact absurd h h₀
  · exact h

theorem addr_ne_zero {i : Fin 4} (h : vmStart ≤ pmpEnd s i) : s.val (.pmpaddr i) ≠ 0 := by
  intro h₀
  simp [pmpEnd, h₀, vmStart] at h

theorem zerosLast (C : PmpContent s k) (h₀ : s.val (.pmpaddr 0) ≠ 0) : ZerosLast s := by
  intro i j hij hi
  apply C.rest
  by_contra hlt
  have hik : i.val < k := by
    have : i.val ≤ j.val := hij
    omega
  exact addr_ne_zero (C.bound_pos h₀ hik).1 hi

/-- The range the loop withdraws for an entry is the part of its TOR range in the region. -/
theorem mem_pages_iff (C : PmpContent s k) (h₀ : s.val (.pmpaddr 0) ≠ 0) {i : Fin 4}
    (hi : i.val < k) :
    a ∈ pages (pmpStart s i) (pmpEnd s i) ↔ RegionPage a ∧ Covers s i a := by
  have hend := (C.bound_pos h₀ hi).2
  have hstart : pmpStart s i % PGSIZE = 0 ∧ vmStart ≤ pmpStart s i ∧
      (pmpStart s i = torStart s i ∨ torStart s i = 0 ∧ pmpStart s i = vmStart) := by
    by_cases hzero : i.val = 0
    · have hdef : pmpStart s i = vmStart := dif_pos hzero
      have htor : torStart s i = 0 := dif_pos hzero
      rw [hdef, htor]
      exact ⟨by decide, le_rfl, Or.inr ⟨rfl, rfl⟩⟩
    · have hpred : i.val - 1 < k := by omega
      have hdef : pmpStart s i = pmpEnd s ⟨i.val - 1, pred_entry_lt i⟩ := by
        simp [pmpStart, pmpEnd, hzero]
      have htor : torStart s i = pmpEnd s ⟨i.val - 1, pred_entry_lt i⟩ := by
        simp [torStart, hzero]
      rw [hdef, htor]
      exact ⟨C.aligned _ hpred, (C.bound_pos h₀ hpred).1, Or.inl rfl⟩
  obtain ⟨hal, hle, hcase⟩ := hstart
  rw [mem_pages]
  unfold RegionPage Covers
  simp only [PGSIZE, vmStart, vmEnd] at *
  omega

/-- Entries do not overlap. -/
theorem covers_unique (C : PmpContent s k) {i j : Fin 4} (hi : Covers s i a)
    (hj : Covers s j a) : i = j := by
  have hlt : ∀ i j : Fin 4, Covers s i a → Covers s j a → ¬ i < j := by
    intro i j hi hj hij
    have hval : i.val < j.val := hij
    have hjk : j.val < k := by
      by_contra hge
      have hzero : s.val (.pmpaddr j) = 0 := C.rest j (by omega)
      have hend : pmpEnd s j = 0 := by simp [pmpEnd, hzero]
      have := hj.2
      omega
    have hstart : torStart s j = pmpEnd s ⟨j.val - 1, by omega⟩ := by
      rw [torStart, if_neg (by omega)]
    have hmono : pmpEnd s i ≤ pmpEnd s ⟨j.val - 1, by omega⟩ :=
      C.mono _ _ (show i.val ≤ j.val - 1 by omega) (by show j.val - 1 < k; omega)
    have h₁ := hi.2
    have h₂ := hj.1
    omega
  rcases lt_trichotomy i j with h | h | h
  · exact absurd h (hlt i j hi hj)
  · exact h
  · exact absurd h (hlt j i hj hi)

theorem mem_restrictedPages (C : PmpContent s k) :
    a ∈ restrictedPages s ↔ s.val (.pmpaddr 0) ≠ 0 ∧ RegionPage a ∧
      ∃ i, pmpRwx s i ≠ 7 ∧ Covers s i a := by
  by_cases h₀ : s.val (.pmpaddr 0) = 0
  · simp [restrictedPages, restrictedBy, h₀]
  · rw [restrictedPages, mem_restrictedBy (C.zerosLast h₀) (by decide)]
    constructor
    · rintro ⟨i, -, hne, h₇, hmem⟩
      obtain ⟨hregion, hcovers⟩ := (C.mem_pages_iff h₀ (C.nonzero_lt hne)).mp hmem
      exact ⟨h₀, hregion, i, h₇, hcovers⟩
    · rintro ⟨-, hregion, i, h₇, hcovers⟩
      have hne : s.val (.pmpaddr i) ≠ 0 := by
        apply addr_ne_zero
        have := hregion.2.1
        have := hcovers.2
        omega
      have hin : ∀ j : Fin 4, j ∈ ([0, 1, 2, 3] : List (Fin 4)) := by decide
      exact ⟨i, hin i, hne, h₇, (C.mem_pages_iff h₀ (C.nonzero_lt hne)).mpr ⟨hregion, hcovers⟩⟩

theorem pmpFits (C : PmpContent s k) (sz : ℕ) : PmpFits s sz := by
  refine ⟨?_, fun a ha => ?_⟩
  · by_cases h₀ : s.val (.pmpaddr 0) = 0
    · simp [restrictedPages, restrictedBy, h₀]
    · refine nodup_restrictedBy (C.zerosLast h₀) (by decide) fun i j hij hne a hi hj => ?_
      have hjk := C.nonzero_lt hne
      have hik : i.val < k := by
        have : i.val < j.val := hij
        omega
      have hi' := ((C.mem_pages_iff h₀ hik).mp hi).2
      have hj' := ((C.mem_pages_iff h₀ hjk).mp hj).2
      exact hij.ne (C.covers_unique hi' hj')
  · obtain ⟨-, hregion, -⟩ := C.mem_restrictedPages.mp ha
    exact ⟨hregion.1, Or.inl (mem_vmPages.mpr ⟨hregion.1, Or.inr hregion.2⟩)⟩

/-- The loop withdraws what the entries protect exactly for the configurations above. -/
theorem withdrawn_iff_honest (C : PmpContent s k) :
    (∀ a, RegionPage a → (a ∈ restrictedPages s ↔ ∃ i, Protects s i a)) ↔ PmpHonest s := by
  constructor
  · intro h i a hregion h₇ hcovers
    have hiff := h a hregion
    rw [C.mem_restrictedPages] at hiff
    constructor
    · intro htor
      exact (hiff.mpr ⟨i, htor, h₇, hcovers⟩).1
    · intro h₀
      obtain ⟨j, htor, -, hj⟩ := hiff.mp ⟨h₀, hregion, i, h₇, hcovers⟩
      rwa [C.covers_unique hcovers hj]
  · intro h a hregion
    rw [C.mem_restrictedPages]
    constructor
    · rintro ⟨h₀, -, i, h₇, hcovers⟩
      exact ⟨i, (h i a hregion h₇ hcovers).mpr h₀, h₇, hcovers⟩
    · rintro ⟨i, htor, h₇, hcovers⟩
      exact ⟨(h i a hregion h₇ hcovers).mp htor, hregion, i, h₇, hcovers⟩

end PmpContent

end Withdrawn

section Recorded

variable {s s' : VmState} {p p' : Proc} {t : TrapInput}

def PmpRecorded (s : VmState) : Prop :=
  s.pmpConfiguration = 1 ∨ ∀ c : Csr, isPmpNumber c.code = true → s.val c = 0

theorem pmpRecorded_init : PmpRecorded trapAndEmulateInit := by
  refine Or.inr fun c hc => ?_
  rcases (isPmpNumber_code c).mp hc with rfl | ⟨i, rfl⟩ <;> rfl

theorem PmpRecorded.congr (h : PmpRecorded s) (hflag : s'.pmpConfiguration = s.pmpConfiguration)
    (hval : ∀ c : Csr, isPmpNumber c.code = true → s'.val c = s.val c) : PmpRecorded s' := by
  rcases h with h | h
  · exact Or.inl (hflag.trans h)
  · exact Or.inr fun c hc => (hval c hc).trans (h c hc)

theorem PmpRecorded.setVal (h : PmpRecorded s) {d : Csr} (hd : isPmpNumber d.code = false)
    (v : BitVec 64) (mode : ℕ) :
    PmpRecorded { s.setVal (.reg d) v with currentMode := mode } := by
  refine h.congr rfl fun c hc => ?_
  have hne : c ≠ d := by
    rintro rfl
    rw [hd] at hc
    cases hc
  simp [VmState.setVal, VmState.val, hne]

theorem Outcome.recorded (h : Outcome t s p s' p') (hrec : PmpRecorded s) : PmpRecorded s' := by
  cases h with
  | ecallUser => exact hrec.setVal (by decide) _ _
  | ecallSupervisor => exact hrec.setVal (by decide) _ _
  | sret => exact hrec.setVal (by decide) _ _
  | mret => exact hrec.setVal (by decide) _ _
  | mretPmp =>
    have hmret : PmpRecorded (mretState s) := hrec.setVal (by decide) _ _
    exact hmret.congr rfl fun _ _ => rfl
  | csrw c funct number permitted =>
    cases hpmp : isPmpNumber c.code with
    | true =>
      refine Or.inl ?_
      simp [csrwState, hpmp]
    | false =>
      refine hrec.congr ?_ fun d hd => csrwState_val_ne s (fun heq => ?_) _
      · simp [csrwState, hpmp, VmState.setVal]
      · subst heq
        rw [hpmp] at hd
        cases hd
  | csrr => exact hrec
  | ignored => exact hrec
  | refused => exact pmpRecorded_init
  | sretRefused => exact pmpRecorded_init

theorem usertrap_recorded {cause : Cause} (hs : s.Ok) (hp : p.Ok) (h : PmpRecorded s)
    (hu : usertrap cause t s p = .ok (s', p')) : PmpRecorded s' := by
  by_cases hemu : Emulated cause p
  · rw [usertrap_emulated hemu] at hu
    obtain ⟨s₁, hsave, hdis⟩ := bind_ok_iff.mp hu
    obtain ⟨hs₁, hold, hreg, -, hflag⟩ := saveOldPtable_spec hs (hp.trapped t) hsave
    have hrec : PmpRecorded s₁ := h.congr hflag fun c _ => by
      rw [VmState.val, hreg]
      rfl
    exact (dispatch_outcome hs₁.intact hold hdis).recorded hrec
  · rcases usertrap_not_emulated hemu t s with ⟨hu', -⟩ | ⟨hu', -⟩
    · obtain ⟨rfl, -⟩ := Prod.mk.inj (Except.ok.inj (hu.symm.trans hu'))
      exact h
    · obtain ⟨rfl, -⟩ := Prod.mk.inj (Except.ok.inj (hu.symm.trans hu'))
      exact pmpRecorded_init

theorem step_recorded {m m' : Machine} {e : Event} (hm : m.Ok) (h : PmpRecorded m.vm)
    (hstep : step m e = .ok m') : PmpRecorded m'.vm := by
  cases e with
  | exec pid img =>
    simp only [step] at hstep
    split at hstep <;>
      · cases hstep
        exact h
  | kill pid =>
    simp only [step] at hstep
    split at hstep <;>
      · cases hstep
        exact h
  | trap pid cause t =>
    simp only [step] at hstep
    split at hstep
    · next p hp =>
      obtain ⟨⟨s', p'⟩, hu, hstep⟩ := bind_ok_iff.mp hstep
      cases hstep
      exact usertrap_recorded hm.vm (hm.procs pid p hp) h hu
    · cases hstep
      exact h

end Recorded

section Unmap

theorem unmapPages_leaf {pt pt' : PageTable Unit} {l : List ℕ} (h : exec unmapPage pt l = .ok pt')
    (i : ℕ) : pt'.leaf i = if i ∈ l.map vpn then none else pt.leaf i := by
  induction l generalizing pt with
  | nil =>
    cases h
    simp
  | cons a l ih =>
    obtain ⟨mid, hmid, h⟩ := bind_ok_iff.mp h
    obtain ⟨_, _, _, rfl⟩ := unmapPage_spec hmid
    rw [ih h, set_leaf]
    by_cases hi : i = vpn a
    · subst hi
      simp
    · simp [hi]

end Unmap

/-- The table maps the pages of the region that no entry protects, as the table of machine
mode does. -/
structure PmpEmulated (s : VmState) (old new : PageTable Unit) : Prop where
  region : ∀ a, RegionPage a → (new.Mapped a ↔ ¬ ∃ i, Protects s i a)
  kept : ∀ a, RegionPage a → new.Mapped a → new.leaf (vpn a) = old.leaf (vpn a)

/-- An `mret` in machine mode returns, and the table it leaves is the one the PMP asks for. -/
def MretEmulates (t : TrapInput) (m : Machine) (p : Proc) : Prop :=
  ∃ s' p' old new, usertrap .illegal t m.vm p = .ok (s', p') ∧ p.pagetable = some old ∧
    p'.pagetable = some new ∧ PmpEmulated m.vm old.table new.table

section Mret

variable {s s' : VmState} {p p' : Proc} {t : TrapInput} {k : ℕ} {r : TableRef}

theorem Full.region {pt : PageTable Unit} {sz a : ℕ} (h : Full pt sz) (ha : RegionPage a) :
    pt.Mapped a := h a (mem_vmPages.mpr ⟨ha.1, Or.inr ha.2⟩)

theorem not_protects (h : ∀ c : Csr, isPmpNumber c.code = true → s.val c = 0) (i : Fin 4)
    (a : ℕ) : ¬ Covers s i a := by
  rintro ⟨-, hlt⟩
  have hzero : s.val (.pmpaddr i) = 0 := h _ ((isPmpNumber_code _).mpr (Or.inr ⟨i, rfl⟩))
  simp [pmpEnd, hzero] at hlt

/-- The table after the PMP block of an `mret`. -/
theorem withdrawn_table (C : PmpContent s k) (hp : p.Ok) (hwf : r.table.Wf)
    {clone new : PageTable Unit} (hclone : cloneTable p r.table = .ok clone)
    (hnew : exec unmapPage clone (restrictedPages s) = .ok new) {a : ℕ} (ha : RegionPage a) :
    (new.Mapped a ↔ a ∉ restrictedPages s) ∧
      (new.Mapped a → new.leaf (vpn a) = r.table.leaf (vpn a)) := by
  obtain ⟨hfull, -, hleaf⟩ := cloneTable_spec hwf hp.sz_le hclone
  have hin : vpn a ∈ (vmPages p.sz).map vpn :=
    List.mem_map_of_mem (mem_vmPages.mpr ⟨ha.1, Or.inr ha.2⟩)
  have hmem : vpn a ∈ (restrictedPages s).map vpn ↔ a ∈ restrictedPages s := by
    constructor
    · intro hmap
      obtain ⟨b, hb, hab⟩ := List.mem_map.mp hmap
      have hbal : b % PGSIZE = 0 := ((C.mem_restrictedPages.mp hb).2.1).1
      exact vpn_inj hbal ha.1 hab ▸ hb
    · exact List.mem_map_of_mem
  have hleaf' : new.leaf (vpn a) =
      if a ∈ restrictedPages s then none else r.table.leaf (vpn a) := by
    rw [unmapPages_leaf hnew, hleaf, if_pos hin]
    simp only [hmem]
  unfold Mapped
  rw [hleaf']
  have hmapped : (r.table.leaf (vpn a)).isSome := hfull.region ha
  by_cases hw : a ∈ restrictedPages s
  · simp [hw]
  · simp [hw, hmapped]

theorem restrictedPages_congr (h : s'.reg = s.reg) : restrictedPages s' = restrictedPages s := by
  have hval : ∀ c, s'.val c = s.val c := fun c => by
    rw [VmState.val, h]
    rfl
  exact restrictedBy_congr (fun i => hval _) (hval _) _

theorem PmpRecorded.restrictedPages_nil (h : PmpRecorded s) (hflag : s.pmpConfiguration ≠ 1) :
    restrictedPages s = [] := by
  have hzero : s.val (.pmpaddr 0) = 0 := (h.resolve_left hflag) _ (by decide)
  simp [restrictedPages, restrictedBy, hzero]

/-- The `mret` returns, and the table it leaves lacks exactly the withdrawn pages. -/
theorem usertrap_mret (C : PmpContent s k) (hs : s.Ok) (hp : p.Ok) (hrec : PmpRecorded s)
    (hmret : IsMret t.instruction) (hmode : s.currentMode = 2) (hr : p.pagetable = some r)
    (hwf : r.table.Wf) (hfull : Full r.table p.sz) :
    ∃ s' p' new, usertrap .illegal t s p = .ok (s', p') ∧ p'.pagetable = some new ∧
      ∀ a, RegionPage a → (new.table.Mapped a ↔ a ∉ restrictedPages s) ∧
        (new.table.Mapped a → new.table.leaf (vpn a) = r.table.leaf (vpn a)) := by
  have hpt := hp.trapped t
  have htable : (p.trapped t).TableFull := by
    intro r' hr'
    obtain rfl := Option.some.inj (hr.symm.trans hr')
    exact hfull
  have hsafe : TrapSafe t s (p.trapped t) := by
    refine ⟨fun _ => htable, ⟨fun hfun => ?_, fun _ _ _ => ⟨htable, C.pmpFits _⟩⟩⟩
    have := hmret.1
    omega
  obtain ⟨⟨s', p'⟩, hu⟩ := (trapAndEmulate_returns_iff hs hpt).mpr hsafe
  have hu' : usertrap .illegal t s p = .ok (s', p') := hu
  obtain ⟨s₁, hsave, hdis⟩ := bind_ok_iff.mp hu
  obtain ⟨hs₁, hold, hreg, hmode₁, hflag₁⟩ := saveOldPtable_spec hs hpt hsave
  have hpages := restrictedPages_congr hreg
  cases dispatch_outcome hs₁.intact hold hdis with
  | ecallUser enters mode => omega
  | ecallSupervisor enters mode => omega
  | sret is_sret mode => omega
  | mret is_mret mode flag =>
    refine ⟨_, _, r, hu', hr, fun a ha => ⟨?_, fun _ => rfl⟩⟩
    rw [hrec.restrictedPages_nil (hflag₁ ▸ flag)]
    simp [hfull.region ha]
  | mretPmp is_mret mode flag r' active clone new copied withdrawn =>
    obtain rfl := Option.some.inj (hr.symm.trans active)
    rw [hpages] at withdrawn
    exact ⟨_, _, ⟨t.newPage, new⟩, hu', rfl,
      fun a ha => withdrawn_table C hpt hwf copied withdrawn ha⟩
  | csrw c funct =>
    have := hmret.1
    omega
  | csrr c funct =>
    have := hmret.1
    omega
  | ignored funct =>
    have := hmret.1
    omega
  | refused q killed sz frame table privilege =>
    obtain ⟨hfun, h302⟩ := hmret
    rcases privilege with ⟨henters, -⟩ | ⟨-, hlt⟩ | ⟨hfunct, -⟩ | ⟨hfunct, -⟩
    · exact absurd h302 henters.2.2
    · omega
    · omega
    · omega
  | sretRefused is_sret =>
    have h₁ := is_sret.2
    have h₂ := hmret.2
    omega

theorem mretEmulates_iff (C : PmpContent s k) (hs : s.Ok) (hp : p.Ok) (hrec : PmpRecorded s)
    (hmret : IsMret t.instruction) (hmode : s.currentMode = 2) (hfull : p.TableFull)
    (procs : ℕ → ProcSlot) : MretEmulates t ⟨s, procs⟩ p ↔ PmpHonest s := by
  obtain ⟨r, hr, hwf⟩ := hp.table
  obtain ⟨s', p', new, hu, hnew, hspec⟩ :=
    usertrap_mret C hs hp hrec hmret hmode hr hwf (hfull r hr)
  rw [← C.withdrawn_iff_honest]
  constructor
  · rintro ⟨s'', p'', old, new', hu', hold, hnew', hemu⟩ a ha
    obtain ⟨-, rfl⟩ := Prod.mk.inj (Except.ok.inj (hu.symm.trans hu'))
    obtain rfl := Option.some.inj (hnew.symm.trans hnew')
    have hmapped := (hspec a ha).1
    have hregion := hemu.region a ha
    rw [hmapped] at hregion
    exact not_iff_not.mp hregion
  · intro h
    refine ⟨s', p', r, new, hu, hr, hnew, ⟨fun a ha => ?_, fun a ha => (hspec a ha).2⟩⟩
    rw [(hspec a ha).1, h a ha]

end Mret

/-- In every state that any number of VMs can reach, an `mret` in machine mode enforces the
PMP entries of the guest exactly if their configuration is one of those above. -/
theorem mret_emulates_pmp_iff {es : List Event} {m : Machine} {pid k : ℕ} {p : Proc}
    {t : TrapInput} (hm : exec step boot es = .ok m) (hp : m.procs pid = .running p)
    (hmret : IsMret t.instruction) (hmode : m.vm.currentMode = 2) (hfull : p.TableFull)
    (C : PmpContent m.vm k) : MretEmulates t m p ↔ PmpHonest m.vm := by
  have hI : m.Ok ∧ PmpRecorded m.vm :=
    exec_invariant (I := fun m => m.Ok ∧ PmpRecorded m.vm)
      (fun _ e _ h hstep => ⟨step_ok h.1 e hstep, step_recorded h.1 h.2 hstep⟩)
      ⟨Machine.ok_boot, pmpRecorded_init⟩ hm
  exact mretEmulates_iff C hI.1.vm (hI.1.procs pid p hp) hI.2 hmret hmode hfull m.procs

theorem isMret_mretTrap : IsMret mretTrap.instruction := ⟨by decide, by decide⟩

/-- `csrw pmpaddr0, a0`. -/
def csrwPmpaddr0 : TrapInput :=
  ⟨0, 0x3b051073, fun _ => 0x20000400, KallocPage.second, KallocPage.third⟩

/-- The state of the monitor once that is executed. -/
theorem pmpContent_csrwPmpaddr0 {s : VmState} (hcfg : s.val .pmpcfg0 = 0)
    (haddr : s.val (.pmpaddr 0) = 0x20000400) (hrest : ∀ i, i ≠ 0 → s.val (.pmpaddr i) = 0) :
    PmpContent s 1 ∧ pmpMode s 0 = 0 ∧ ¬ PmpHonest s := by
  have hzero : ∀ i : Fin 4, i.val < 1 → i = 0 := by decide
  have hend : pmpEnd s 0 = 0x80001000 := by
    rw [pmpEnd, haddr]
    decide
  have hmode : pmpMode s 0 = 0 := by
    rw [pmpMode, hcfg]
    decide
  refine ⟨?_, hmode, fun hhonest => ?_⟩
  · refine ⟨by decide, fun i hi => ?_, fun i hi => ?_, fun i hi => ?_, fun i j hij hj => ?_,
      fun i hi => hrest i ?_⟩
    · obtain rfl := hzero i hi
      exact Or.inl hmode
    · obtain rfl := hzero i hi
      rw [hend]
      decide
    · obtain rfl := hzero i hi
      rw [hend]
      exact Or.inr (by decide)
    · obtain rfl := hzero j hj
      obtain rfl := Fin.le_zero_iff.mp hij
      exact le_rfl
    · rintro rfl
      exact absurd hi (by decide)
  · have hregion : RegionPage vmStart := ⟨by decide, by decide, by decide⟩
    have hrwx : pmpRwx s 0 ≠ 7 := by
      rw [pmpRwx, hcfg]
      decide
    have hcovers : Covers s 0 vmStart := by
      refine ⟨Nat.zero_le _, ?_⟩
      rw [hend]
      decide
    have htor := (hhonest 0 vmStart hregion hrwx hcovers).mpr (by rw [haddr]; decide)
    rw [hmode] at htor
    exact absurd htor (by decide)

/-- A VM sets the bound of an entry that is OFF. -/
theorem exec_csrwPmpaddr0 : ∃ m p, exec step boot [.exec 1 VmImage.onePage,
      .trap 1 .illegal csrwPmpaddr0] = .ok m ∧ m.procs 1 = .running p ∧ p.TableFull ∧
    m.vm.currentMode = 2 ∧ PmpContent m.vm 1 ∧ pmpMode m.vm 0 = 0 ∧
    (MretEmulates mretTrap m p ↔ PmpHonest m.vm) ∧ ¬ PmpHonest m.vm := by
  obtain ⟨new, hwf, heq⟩ := exec_first_trap VmImage.onePage 1 csrwPmpaddr0
  have hsaved : (VmState.saved ⟨csrwPmpaddr0.oldPage, new⟩).Ok :=
    ⟨VmState.intact_saved _, fun t ht => by cases ht; exact hwf⟩
  have hpok := VmImage.onePage.proc_ok.trapped csrwPmpaddr0
  have hdis : dispatch csrwPmpaddr0 (VmState.saved ⟨csrwPmpaddr0.oldPage, new⟩)
      (VmImage.onePage.proc.trapped csrwPmpaddr0) =
      handleCsrw (VmState.saved ⟨csrwPmpaddr0.oldPage, new⟩)
        (VmImage.onePage.proc.trapped csrwPmpaddr0) 10 (Csr.pmpaddr 0).code := rfl
  rw [hdis, handleCsrw_permitted hsaved.intact 10 (Nat.zero_le _),
    Proc.trapped_regWord _ _ (by decide)] at heq
  obtain ⟨C, hoff, hno⟩ := @pmpContent_csrwPmpaddr0
    (csrwState (VmState.saved ⟨csrwPmpaddr0.oldPage, new⟩) (.pmpaddr 0) 0x20000400)
    (csrwState_val_ne _ (by decide) _) (csrwState_val_self _ _ _)
    fun i hi => csrwState_val_ne _ (fun h => hi (Csr.pmpaddr.inj h)) _
  refine ⟨_, (VmImage.onePage.proc.trapped csrwPmpaddr0).setEpc (csrwPmpaddr0.sepc + 4), heq,
    ?_, ?_, rfl, C, hoff, ?_, hno⟩
  · simp only [Proc.trapped_epc, Function.update_self]
    rfl
  · exact VmImage.onePage.tableFull csrwPmpaddr0
  · exact mretEmulates_iff C (hsaved.csrwState _ _) (hpok.setEpc _) (Or.inl rfl) isMret_mretTrap
      rfl (VmImage.onePage.tableFull csrwPmpaddr0) _

theorem sample_mret_emulates_pmp_iff : ∃ m p, exec step boot [.exec 1 VmImage.onePage,
      .trap 1 .illegal csrwPmpaddr0] = .ok m ∧ m.procs 1 = .running p ∧
    (MretEmulates mretTrap m p ↔ PmpHonest m.vm) := by
  obtain ⟨m, p, hrun, hp, hfull, hmode, C, -⟩ := exec_csrwPmpaddr0
  exact ⟨m, p, hrun, hp, mret_emulates_pmp_iff hrun hp isMret_mretTrap hmode hfull C⟩

/-- The `mret` withdraws the page below the bound of the entry that is OFF. -/
theorem off_entry_restricts : ∃ m p, exec step boot [.exec 1 VmImage.onePage,
      .trap 1 .illegal csrwPmpaddr0] = .ok m ∧ m.procs 1 = .running p ∧ p.TableFull ∧
    m.vm.currentMode = 2 ∧ PmpContent m.vm 1 ∧ pmpMode m.vm 0 = 0 ∧
    ¬ MretEmulates mretTrap m p := by
  obtain ⟨m, p, hrun, hp, hfull, hmode, C, hoff, hemulates, hno⟩ := exec_csrwPmpaddr0
  exact ⟨m, p, hrun, hp, hfull, hmode, C, hoff, fun h => hno (hemulates.mp h)⟩

end AdvancedOperatingSystems.TrapEmulate
