import Mathlib.Data.Finset.Card
import Mathlib.Data.Finset.Dedup
import Mathlib.Data.Finset.Insert
import AdvancedOperatingSystems.DemandPaging.Membership

/-!
# The pages that a group records

The table of CoW groups as an object of its own: what any sequence of calls of its functions makes
of the list of a group. `fork` makes such a sequence. A list that is full records nothing more; the
next page goes to the field behind it.
-/

namespace AdvancedOperatingSystems.DemandPaging

open Foundations Riscv Riscv.PageTable

/-- A call of one of the functions that change the table of groups. -/
inductive GroupCall
  | init (groupno : ℕ)
  | incr (group : ℕ)
  | decr (group : ℕ)
  | add (group pa : ℕ)

/-- The group is not the one of an unused slot, and the page is not the end mark of the list. -/
def GroupCall.Proper : GroupCall → Prop
  | .init g => g ≠ 0
  | .incr g => g ≠ 0
  | .decr g => g ≠ 0
  | .add g pa => g ≠ 0 ∧ pa ≠ 0

def CowGroups.call (groups : CowGroups) : GroupCall → Except Panic CowGroups
  | .init g => .ok (groups.cowGroupInit g)
  | .incr g => groups.incrCowGroupCount g
  | .decr g => groups.decrCowGroupCount g
  | .add g pa => groups.addShmem g pa

def noGroups : CowGroups := fun _ => ⟨0, [], 0⟩

/-- The pages that calls have added to a group. -/
def added (g : ℕ) (es : List GroupCall) : List ℕ :=
  es.filterMap fun
    | .add g' pa => if g' = g then some pa else none
    | _ => none

/-- A call of `add_shmem` has changed nothing but the list of its group. -/
def ListOnly (g : ℕ) (s t : CowGroups) : Prop :=
  ∀ j, (t j).group = (s j).group ∧ (t j).count = (s j).count ∧
    (s.getCowGroup g ≠ some j → t j = s j)

/-- What `is_shmem` answers for each group is whether the page has been added to it. -/
def Tells (es : List GroupCall) (groups : CowGroups) : Prop :=
  ∀ g ≠ 0, ∀ i, groups.getCowGroup g = some i → ∀ pa,
    Running.isShmem ⟨groups, g⟩ pa = .ok (decide (pa ∈ added g es))

/-- Every page added along the calls is recorded, and nothing else changes by it. -/
structure Records (es : List GroupCall) (groups : CowGroups) : Prop where
  listOnly : ∀ es₁ g pa es₂, es = es₁ ++ .add g pa :: es₂ → ∀ s t,
    exec CowGroups.call noGroups es₁ = .ok s → s.call (.add g pa) = .ok t → ListOnly g s t
  tells : Tells es groups

section Lookup

variable {groups groups' : CowGroups} {g i : ℕ}

theorem getCowGroup_some (h : groups.getCowGroup g = some i) :
    i < NPROC ∧ (groups i).group = g ∧ ∀ j < i, (groups j).group ≠ g := by
  unfold CowGroups.getCowGroup at h
  rw [List.find?_range_eq_some] at h
  obtain ⟨hg, hi, hbefore⟩ := h
  exact ⟨List.mem_range.mp hi, of_decide_eq_true hg, fun j hj => by simpa using hbefore j hj⟩

theorem getCowGroup_of_first (hi : i < NPROC) (hg : (groups i).group = g)
    (hbefore : ∀ j < i, (groups j).group ≠ g) : groups.getCowGroup g = some i := by
  unfold CowGroups.getCowGroup
  rw [List.find?_range_eq_some]
  exact ⟨decide_eq_true hg, List.mem_range.mpr hi, fun j hj => by simpa using hbefore j hj⟩

theorem getCowGroup_none : groups.getCowGroup g = none ↔ ∀ i < NPROC, (groups i).group ≠ g := by
  unfold CowGroups.getCowGroup
  rw [List.find?_range_eq_none]
  simp

theorem getCowGroup_congr (h : ∀ i, (groups' i).group = (groups i).group) (g : ℕ) :
    groups'.getCowGroup g = groups.getCowGroup g := by
  unfold CowGroups.getCowGroup
  simp only [h]

theorem isShmem_eq {pa : ℕ} (h : groups.getCowGroup g = some i) :
    Running.isShmem ⟨groups, g⟩ pa = .ok (decide (pa ∈ (groups i).shmem)) := by
  simp only [Running.isShmem, h]

theorem modifyGroup_ok {f : CowGroup → CowGroup} (h : groups.modifyGroup g f = .ok groups') :
    ∃ i, groups.getCowGroup g = some i ∧ groups' = Function.update groups i (f (groups i)) := by
  unfold CowGroups.modifyGroup at h
  cases hi : groups.getCowGroup g with
  | none =>
    simp only [hi] at h
    cases h
  | some i =>
    simp only [hi] at h
    cases h
    exact ⟨i, rfl, rfl⟩

end Lookup

section Store

variable {c : CowGroup} {pa : ℕ}

theorem store_room (hpa : pa ≠ 0) (h : pa ∈ c.shmem ∨ c.shmem.length < SHMEM_MAX) :
    c.store pa = { c with shmem := if pa ∈ c.shmem then c.shmem else c.shmem ++ [pa] } := by
  unfold CowGroup.store
  by_cases hmem : pa ∈ c.shmem
  · rw [if_pos hmem, if_pos hmem]
  · rw [if_neg hmem, if_neg hmem, if_neg (Nat.not_le.mpr (h.resolve_left hmem)), if_neg hpa]

theorem store_group (c : CowGroup) (pa : ℕ) : (c.store pa).group = c.group := by
  unfold CowGroup.store
  split_ifs <;> rfl

theorem store_shmem (hpa : pa ≠ 0) : (c.store pa).shmem =
    if pa ∈ c.shmem ∨ SHMEM_MAX ≤ c.shmem.length then c.shmem else c.shmem ++ [pa] := by
  unfold CowGroup.store
  by_cases hmem : pa ∈ c.shmem
  · rw [if_pos hmem, if_pos (Or.inl hmem)]
  · rw [if_neg hmem]
    by_cases hfull : SHMEM_MAX ≤ c.shmem.length
    · rw [if_pos hfull, if_pos (Or.inr hfull)]
    · rw [if_neg hfull, if_neg hpa, if_neg (not_or.mpr ⟨hmem, hfull⟩)]

end Store

/-- The table after calls on the zeroed one. -/
structure Books (es : List GroupCall) (groups : CowGroups) : Prop where
  filled : ∀ i j, i < j → j < NPROC → (groups j).group ≠ 0 → (groups i).group ≠ 0
  unused : ∀ i, (groups i).group = 0 → (groups i).shmem = []
  unknown : ∀ g ≠ 0, groups.getCowGroup g = none → added g es = []
  nodup : ∀ i, (groups i).shmem.Nodup
  fits : ∀ i, (groups i).shmem.length ≤ SHMEM_MAX
  sub : ∀ g ≠ 0, ∀ i, groups.getCowGroup g = some i → ∀ pa ∈ (groups i).shmem, pa ∈ added g es
  all : ∀ g ≠ 0, ∀ i, groups.getCowGroup g = some i → (groups i).shmem.length < SHMEM_MAX →
    ∀ pa ∈ added g es, pa ∈ (groups i).shmem

section Calls

variable {es : List GroupCall} {e : GroupCall} {groups groups' : CowGroups} {g pa : ℕ}

theorem added_append (g : ℕ) (es es' : List GroupCall) :
    added g (es ++ es') = added g es ++ added g es' := List.filterMap_append

theorem books_noGroups : Books [] noGroups where
  filled := fun _ _ _ _ h => absurd rfl h
  unused := fun _ _ => rfl
  unknown := fun _ _ _ => rfl
  nodup := fun _ => List.nodup_nil
  fits := fun _ => Nat.zero_le _
  sub := fun _ _ _ _ _ h => by cases h
  all := fun _ _ _ _ _ _ h => by cases h

/-- The number of a new group is put into the first unused slot. -/
theorem Books.init (h : Books es groups) (hg : g ≠ 0) :
    Books (es ++ [.init g]) (groups.cowGroupInit g) := by
  have hadded : ∀ g', added g' (es ++ [.init g]) = added g' es := by
    intro g'
    rw [added_append]
    exact List.append_nil _
  unfold CowGroups.cowGroupInit
  cases hfree : groups.getCowGroup 0 with
  | none =>
    refine ⟨h.filled, h.unused, fun g' hg' hn => ?_, h.nodup, h.fits, fun g' hg' i hi pa hpa => ?_,
      fun g' hg' i hi hlen pa hpa => ?_⟩
    · rw [hadded]
      exact h.unknown g' hg' hn
    · rw [hadded]
      exact h.sub g' hg' i hi pa hpa
    · rw [hadded] at hpa
      exact h.all g' hg' i hi hlen pa hpa
  | some k =>
    obtain ⟨hk, hzero, hbefore⟩ := getCowGroup_some hfree
    simp only
    have hgroup : ∀ i, (Function.update groups k { groups k with group := g } i).group =
        if i = k then g else (groups i).group := by
      intro i
      by_cases hi : i = k
      · rw [hi, Function.update_self, if_pos rfl]
      · rw [Function.update_of_ne hi, if_neg hi]
    have hshmem : ∀ i, (Function.update groups k { groups k with group := g } i).shmem =
        (groups i).shmem := by
      intro i
      by_cases hi : i = k
      · rw [hi, Function.update_self]
      · rw [Function.update_of_ne hi]
    -- the slots before the first unused one are in use, and those after it are not
    have hafter : ∀ j, k < j → j < NPROC → (groups j).group = 0 := by
      intro j hkj hj
      by_contra hne
      exact h.filled k j hkj hj hne hzero
    have hlookup : ∀ g' ≠ 0, ∀ i,
        CowGroups.getCowGroup (Function.update groups k { groups k with group := g }) g' = some i →
          groups.getCowGroup g' = some i ∨ i = k ∧ g' = g ∧ groups.getCowGroup g' = none := by
      intro g' hg' i hi
      obtain ⟨hlt, hnum, hfirst⟩ := getCowGroup_some hi
      rw [hgroup] at hnum
      by_cases hik : i = k
      · rw [if_pos hik] at hnum
        refine Or.inr ⟨hik, hnum.symm, getCowGroup_none.mpr fun j hj => ?_⟩
        rcases Nat.lt_trichotomy j k with hjk | rfl | hjk
        · have hne := hfirst j (hik ▸ hjk)
          rwa [hgroup, if_neg (Nat.ne_of_lt hjk)] at hne
        · rw [hzero]
          exact Ne.symm hg'
        · rw [hafter j hjk hj]
          exact Ne.symm hg'
      · rw [if_neg hik] at hnum
        left
        refine getCowGroup_of_first hlt hnum fun j hj => ?_
        have hne := hfirst j hj
        rw [hgroup] at hne
        by_cases hjk : j = k
        · rw [hjk, hzero]
          exact Ne.symm hg'
        · rwa [if_neg hjk] at hne
    refine ⟨fun i j hij hj hne => ?_, fun i hi => ?_, fun g' hg' hn => ?_, fun i => ?_, fun i => ?_,
      fun g' hg' i hi pa hpa => ?_, fun g' hg' i hi hlen pa hpa => ?_⟩
    · rw [hgroup] at hne ⊢
      by_cases hik : i = k
      · rw [if_pos hik]
        exact hg
      · rw [if_neg hik]
        by_cases hjk : j = k
        · exact hbefore i (hjk ▸ hij)
        · rw [if_neg hjk] at hne
          exact h.filled i j hij hj hne
    · rw [hgroup] at hi
      rw [hshmem]
      split_ifs at hi with hik
      · exact absurd hi hg
      · exact h.unused i hi
    · rw [hadded]
      rw [getCowGroup_none] at hn
      apply h.unknown g' hg'
      rw [getCowGroup_none]
      intro i hi
      have hne := hn i hi
      rw [hgroup] at hne
      by_cases hik : i = k
      · rw [hik, hzero]
        exact Ne.symm hg'
      · rwa [if_neg hik] at hne
    · rw [hshmem]
      exact h.nodup i
    · rw [hshmem]
      exact h.fits i
    · rw [hadded]
      rw [hshmem] at hpa
      rcases hlookup g' hg' i hi with hold | ⟨rfl, -, -⟩
      · exact h.sub g' hg' i hold pa hpa
      · rw [h.unused i hzero] at hpa
        cases hpa
    · rw [hadded] at hpa
      rw [hshmem] at hlen ⊢
      rcases hlookup g' hg' i hi with hold | ⟨-, -, hnone⟩
      · exact h.all g' hg' i hold hlen pa hpa
      · rw [h.unknown g' hg' hnone] at hpa
        cases hpa

/-- The counts of the groups do not matter. -/
theorem Books.congr (h : Books es groups) (hgroup : ∀ i, (groups' i).group = (groups i).group)
    (hshmem : ∀ i, (groups' i).shmem = (groups i).shmem) {es' : List GroupCall}
    (hadded : ∀ g, added g es' = added g es) : Books es' groups' := by
  have hlookup := getCowGroup_congr hgroup
  refine ⟨fun i j hij hj hne => ?_, fun i hi => ?_, fun g hg hn => ?_, fun i => ?_, fun i => ?_,
    fun g hg i hi pa hpa => ?_, fun g hg i hi hlen pa hpa => ?_⟩
  · rw [hgroup] at hne ⊢
    exact h.filled i j hij hj hne
  · rw [hgroup] at hi
    rw [hshmem]
    exact h.unused i hi
  · rw [hlookup] at hn
    rw [hadded]
    exact h.unknown g hg hn
  · rw [hshmem]
    exact h.nodup i
  · rw [hshmem]
    exact h.fits i
  · rw [hlookup] at hi
    rw [hshmem] at hpa
    rw [hadded]
    exact h.sub g hg i hi pa hpa
  · rw [hlookup] at hi
    rw [hshmem] at hlen ⊢
    rw [hadded] at hpa
    exact h.all g hg i hi hlen pa hpa

theorem Books.count (h : Books es groups) {f : CowGroup → Int} {c : GroupCall}
    (hc : ∀ g', added g' [c] = [])
    (hrun : groups.modifyGroup g (fun c => { c with count := f c }) = .ok groups') :
    Books (es ++ [c]) groups' := by
  obtain ⟨k, -, rfl⟩ := modifyGroup_ok hrun
  refine h.congr (fun i => ?_) (fun i => ?_) fun g' => ?_
  · by_cases hi : i = k
    · rw [hi, Function.update_self]
    · rw [Function.update_of_ne hi]
  · by_cases hi : i = k
    · rw [hi, Function.update_self]
    · rw [Function.update_of_ne hi]
  · rw [added_append, hc, List.append_nil]

/-- A page is put at the end of the list of its group, if there is room. -/
theorem Books.add (h : Books es groups) (hg : g ≠ 0) (hpa : pa ≠ 0)
    (hrun : groups.addShmem g pa = .ok groups') : Books (es ++ [.add g pa]) groups' := by
  obtain ⟨k, hk, rfl⟩ := modifyGroup_ok hrun
  obtain ⟨-, hnum, -⟩ := getCowGroup_some hk
  have hadded : ∀ g',
      added g' (es ++ [.add g pa]) = added g' es ++ if g = g' then [pa] else [] := by
    intro g'
    rw [added_append]
    by_cases heq : g = g' <;> simp [added, heq]
  have hgroup : ∀ i,
      (Function.update groups k ((groups k).store pa) i).group = (groups i).group := by
    intro i
    by_cases hi : i = k
    · rw [hi, Function.update_self, store_group]
    · rw [Function.update_of_ne hi]
  have hself := store_shmem (c := groups k) hpa
  have hother : ∀ i, i ≠ k → Function.update groups k ((groups k).store pa) i = groups i :=
    fun i hi => Function.update_of_ne hi _ _
  have hlookup := getCowGroup_congr hgroup
  -- a group that is found elsewhere is another one
  have hne : ∀ g', ∀ i, groups.getCowGroup g' = some i → i ≠ k → g ≠ g' := by
    rintro g' i hi hik rfl
    rw [hk] at hi
    exact hik (Option.some.inj hi).symm
  have heq : ∀ g', groups.getCowGroup g' = some k → g = g' := fun g' hi =>
    hnum.symm.trans (getCowGroup_some hi).2.1
  refine ⟨fun i j hij hj hne => ?_, fun i hi => ?_, fun g' hg' hn => ?_, fun i => ?_, fun i => ?_,
    fun g' hg' i hi x hx => ?_, fun g' hg' i hi hlen x hx => ?_⟩
  · rw [hgroup] at hne ⊢
    exact h.filled i j hij hj hne
  · rw [hgroup] at hi
    have hik : i ≠ k := by
      rintro rfl
      exact hg (hnum.symm.trans hi)
    rw [hother i hik]
    exact h.unused i hi
  · rw [hlookup] at hn
    have hgg : g ≠ g' := by
      rintro rfl
      rw [hk] at hn
      cases hn
    rw [hadded, if_neg hgg, List.append_nil]
    exact h.unknown g' hg' hn
  · by_cases hi : i = k
    · rw [hi, Function.update_self, hself]
      split_ifs with hcond
      · exact h.nodup k
      · rw [not_or] at hcond
        exact List.nodup_append.mpr ⟨h.nodup k, List.nodup_singleton pa, fun x hx y hy hxy =>
          hcond.1 (List.mem_singleton.mp hy ▸ hxy ▸ hx)⟩
    · rw [hother i hi]
      exact h.nodup i
  · by_cases hi : i = k
    · rw [hi, Function.update_self, hself]
      split_ifs with hcond
      · exact h.fits k
      · rw [not_or] at hcond
        rw [List.length_append, List.length_singleton]
        omega
    · rw [hother i hi]
      exact h.fits i
  · rw [hlookup] at hi
    rw [hadded, List.mem_append]
    by_cases hik : i = k
    · subst hik
      rw [if_pos (heq g' hi)]
      rw [Function.update_self, hself] at hx
      split_ifs at hx
      · exact Or.inl (h.sub g' hg' i hi x hx)
      · rw [List.mem_append] at hx
        exact hx.imp_left (h.sub g' hg' i hi x)
    · rw [hother i hik] at hx
      exact Or.inl (h.sub g' hg' i hi x hx)
  · rw [hlookup] at hi
    rw [hadded, List.mem_append] at hx
    by_cases hik : i = k
    · subst hik
      rw [if_pos (heq g' hi), List.mem_singleton] at hx
      rw [Function.update_self, hself] at hlen ⊢
      split_ifs at hlen ⊢ with hcond
      · rcases hx with hx | rfl
        · exact h.all g' hg' i hi hlen x hx
        · exact hcond.resolve_right (Nat.not_le.mpr hlen)
      · rw [not_or] at hcond
        rw [List.mem_append, List.mem_singleton]
        exact hx.imp_left (h.all g' hg' i hi (Nat.not_le.mp hcond.2) x)
    · rw [if_neg (hne g' i hi hik)] at hx
      rw [hother i hik] at hlen ⊢
      exact h.all g' hg' i hi hlen x (hx.resolve_right (List.not_mem_nil))

theorem Books.call (h : Books es groups) (he : e.Proper) (hrun : groups.call e = .ok groups') :
    Books (es ++ [e]) groups' := by
  cases e with
  | init g =>
    cases hrun
    exact h.init he
  | incr g => exact @Books.count es groups groups' g h (fun c => c.count + 1) _ (fun _ => rfl) hrun
  | decr g => exact @Books.count es groups groups' g h (fun c => c.count - 1) _ (fun _ => rfl) hrun
  | add g pa => exact h.add he.1 he.2 hrun

theorem Books.run {es' : List GroupCall} (h : Books es groups) (hes : ∀ e ∈ es', e.Proper)
    (hrun : exec CowGroups.call groups es' = .ok groups') : Books (es ++ es') groups' := by
  induction es' generalizing es groups with
  | nil =>
    cases hrun
    rw [List.append_nil]
    exact h
  | cons e es' ih =>
    obtain ⟨groups₁, hstep, hrun⟩ := bind_ok_iff.mp hrun
    rw [List.forall_mem_cons] at hes
    have hrest := ih (h.call hes.1 hstep) hes.2 hrun
    rwa [List.append_assoc, List.singleton_append] at hrest

end Calls

section Forks

variable {L : Layout} {groups groups' groups'' : CowGroups} {group : ℕ} {e : Pte} {c c' : CowCopy}

def CallsTo (groups groups' : CowGroups) : Prop :=
  ∃ es, (∀ e ∈ es, GroupCall.Proper e) ∧ exec CowGroups.call groups es = .ok groups'

theorem CallsTo.refl : CallsTo groups groups := ⟨[], (fun _ he => by cases he), rfl⟩

theorem CallsTo.single {e : GroupCall} (he : e.Proper) (h : groups.call e = .ok groups') :
    CallsTo groups groups' := by
  refine ⟨[e], fun e' he' => ?_, ?_⟩
  · rw [List.mem_singleton.mp he']
    exact he
  · rw [exec_cons, h]
    rfl

theorem CallsTo.trans (h : CallsTo groups groups') (h' : CallsTo groups' groups'') :
    CallsTo groups groups'' := by
  obtain ⟨es, hes, hrun⟩ := h
  obtain ⟨es', hes', hrun'⟩ := h'
  refine ⟨es ++ es', fun e he => ?_, ?_⟩
  · rcases List.mem_append.mp he with he | he
    · exact hes e he
    · exact hes' e he
  · rw [exec_append, hrun]
    exact hrun'

theorem Layout.Entry.pa_ne_zero (he : L.Entry e) (hkend : 0 < L.kend) (htramp : 0 < L.trampoline) :
    e.pa ≠ 0 := by
  rcases he.2 with hframe | hpa
  · exact (hkend.trans_le hframe.2.1).ne'
  · rw [hpa]
    exact htramp.ne'

theorem addShmem_callsTo (hkend : 0 < L.kend) (htramp : 0 < L.trampoline) (hgroup : group ≠ 0)
    (he : L.Entry e) (h : groups.addShmem group e.pa = .ok groups') : CallsTo groups groups' :=
  CallsTo.single (e := .add group e.pa) ⟨hgroup, he.pa_ne_zero hkend htramp⟩ h

theorem uvmcopyCowLoop_callsTo {is : List ℕ} {stop : Option ℕ} (hkend : 0 < L.kend)
    (htramp : 0 < L.trampoline) (hgroup : group ≠ 0) (h : FramedCopy L c)
    (hrun : uvmcopyCowLoop group is c = .ok (stop, c')) : CallsTo c.groups c'.groups := by
  induction is generalizing c with
  | nil =>
    cases hrun
    exact .refl
  | cons i is ih =>
    unfold uvmcopyCowLoop at hrun
    obtain ⟨slot, hwalk, hrun⟩ := bind_ok_iff.mp hrun
    rcases slot with _ | _ | e
    · cases hrun
    · exact ih h hrun
    · obtain ⟨-, hleaf⟩ := walk_ok hwalk
      have hslot := (hleaf _ rfl).symm
      have he := h.old.leaf _ e hslot
      obtain ⟨⟨ok, m₁, new₁⟩, hmap, hrun⟩ := bind_ok_iff.mp hrun
      have hspace : FramedSpace L (c.memory, c.new) := ⟨h.memory, h.new⟩
      have h₁ := mappages_framed hspace he.readOnly hmap
      cases ok with
      | false =>
        cases hrun
        exact .refl
      | true =>
        simp only [Bool.not_true, Bool.false_eq_true, ↓reduceIte] at hrun
        obtain ⟨groups, hadd, hrun⟩ := bind_ok_iff.mp hrun
        have hlow : (c.old.low (lowIndex i)).isSome :=
          h.old.wf.low_of_leaf _ (by rw [hslot]; rfl)
        exact (addShmem_callsTo hkend htramp hgroup he hadd).trans
          (ih ⟨h₁.memory, h.old.map he.readOnly hlow, h₁.table⟩ hrun)

theorem uvmcopyCow_callsTo {sz : ℕ} {ok : Bool} (hkend : 0 < L.kend) (htramp : 0 < L.trampoline)
    (hgroup : group ≠ 0) (h : FramedCopy L c) (hrun : uvmcopyCow group sz c = .ok (ok, c')) :
    CallsTo c.groups c'.groups := by
  obtain ⟨⟨stop, c₁⟩, hloop, hrun⟩ := bind_ok_iff.mp hrun
  have h₁ := uvmcopyCowLoop_callsTo hkend htramp hgroup h hloop
  cases stop with
  | none =>
    cases hrun
    exact h₁
  | some i =>
    obtain ⟨⟨m, new⟩, -, hrun⟩ := bind_ok_iff.mp hrun
    cases hrun
    exact h₁

theorem sharePages_callsTo {pt : PageTable ℕ} {is : List ℕ} (hkend : 0 < L.kend)
    (htramp : 0 < L.trampoline) (hgroup : group ≠ 0) (ht : FramedTable L pt)
    (h : exec (sharePage group pt) groups is = .ok groups') : CallsTo groups groups' := by
  refine exec_invariant (I := fun g => CallsTo groups g) (fun g va g' hg hstep => ?_) .refl h
  obtain ⟨slot, hwalk, hstep⟩ := bind_ok_iff.mp hstep
  rcases slot with _ | _ | e
  · cases hstep
    exact hg
  · cases hstep
    exact hg
  · obtain ⟨-, hleaf⟩ := walk_ok hwalk
    exact hg.trans (addShmem_callsTo hkend htramp hgroup (ht.leaf _ e (hleaf _ rfl).symm) hstep)

theorem joinGroup_callsTo {p : Proc} (hpid : p.pid ≠ 0) :
    (joinGroup p groups).1.cowGroup ≠ 0 ∧ CallsTo groups (joinGroup p groups).2 := by
  unfold joinGroup
  by_cases hzero : p.cowGroup = 0
  · rw [if_pos hzero]
    exact ⟨hpid, CallsTo.single (e := .init p.pid) hpid rfl⟩
  · rw [if_neg hzero]
    exact ⟨hzero, .refl⟩

/-- What `fork(1)` does to the table of groups, whether it succeeds or not, are calls of its
functions. -/
theorem forkCow_callsTo {s s' : System} {i n : ℕ} {np : Proc} {parent child : Pagetable}
    (hkend : 0 < L.kend) (htramp : 0 < L.trampoline) (hpid : (s.proc i).pid ≠ 0)
    (hmemory : s.kernel.memory.Framed L) (hparent : FramedTable L parent.table)
    (hchild : FramedTable L child.table) (h : s.forkCow i n np parent child = .ok s') :
    CallsTo s.kernel.groups s'.kernel.groups := by
  unfold System.forkCow at h
  obtain ⟨hgroup, hjoined⟩ := @joinGroup_callsTo s.kernel.groups (s.proc i) hpid
  obtain ⟨⟨ok, copy⟩, hcopy, h⟩ := bind_ok_iff.mp h
  have hframed : FramedCopy L ⟨(joinGroup (s.proc i) s.kernel.groups).2, s.kernel.memory,
      parent.table, child.table⟩ := ⟨hmemory, hparent, hchild⟩
  have hcopied := hjoined.trans (uvmcopyCow_callsTo hkend htramp hgroup hframed hcopy)
  cases ok with
  | false =>
    simp only [Bool.not_false, ↓reduceIte] at h
    obtain ⟨⟨np', m⟩, -, h⟩ := bind_ok_iff.mp h
    cases h
    exact hcopied
  | true =>
    simp only [Bool.not_true, Bool.false_eq_true, ↓reduceIte] at h
    obtain ⟨groups, hshare, h⟩ := bind_ok_iff.mp h
    obtain ⟨groups', hincr, h⟩ := bind_ok_iff.mp h
    cases h
    have hshared := hcopied.trans
      (sharePages_callsTo hkend htramp hgroup (uvmcopyCow_framed hframed hcopy).old hshare)
    exact hshared.trans (CallsTo.single (e := .incr _) hgroup hincr)

end Forks

section Capacity

variable {es : List GroupCall} {groups : CowGroups} {g : ℕ}

theorem books_of_run (hes : ∀ e ∈ es, e.Proper)
    (hrun : exec CowGroups.call noGroups es = .ok groups) : Books es groups :=
  books_noGroups.run hes hrun

theorem toFinset_card_le_length {l : List ℕ} {s : Finset ℕ} (h : ∀ x ∈ s, x ∈ l) :
    s.card ≤ l.length :=
  (Finset.card_le_card fun x hx => List.mem_toFinset.mpr (h x hx)).trans l.toFinset_card_le

theorem Books.card_le (h : Books es groups) (htells : Tells es groups) (hg : g ≠ 0) :
    (added g es).toFinset.card ≤ SHMEM_MAX := by
  cases hi : groups.getCowGroup g with
  | none =>
    rw [h.unknown g hg hi]
    exact Nat.zero_le _
  | some i =>
    refine (toFinset_card_le_length fun x hx => ?_).trans (h.fits i)
    have htold := htells g hg i hi x
    rw [isShmem_eq hi, decide_eq_true (List.mem_toFinset.mp hx)] at htold
    exact of_decide_eq_true (Except.ok.inj htold)

theorem Books.mem_shmem (h : Books es groups) (hg : g ≠ 0) {i : ℕ}
    (hi : groups.getCowGroup g = some i) (hcard : (added g es).toFinset.card ≤ SHMEM_MAX) {pa : ℕ} :
    pa ∈ (groups i).shmem ↔ pa ∈ added g es := by
  refine ⟨h.sub g hg i hi pa, fun hpa => ?_⟩
  by_cases hroom : (groups i).shmem.length < SHMEM_MAX
  · exact h.all g hg i hi hroom pa hpa
  · -- a full list without repetitions has as many pages as its group
    have hsub : (groups i).shmem.toFinset ⊆ (added g es).toFinset := by
      intro x hx
      rw [List.mem_toFinset] at hx ⊢
      exact h.sub g hg i hi x hx
    have hfull : (added g es).toFinset.card ≤ (groups i).shmem.toFinset.card := by
      rw [List.toFinset_card_of_nodup (h.nodup i)]
      omega
    have heq := Finset.eq_of_subset_of_card_le hsub hfull
    rw [← List.mem_toFinset, heq, List.mem_toFinset]
    exact hpa

/-- A call of `add_shmem` with room for the page changes only the list. -/
theorem Books.listOnly (h : Books es groups) {groups' : CowGroups} {pa : ℕ} (hg : g ≠ 0)
    (hpa : pa ≠ 0) (hcard : (added g (es ++ [.add g pa])).toFinset.card ≤ SHMEM_MAX)
    (hrun : groups.addShmem g pa = .ok groups') : ListOnly g groups groups' := by
  obtain ⟨k, hk, rfl⟩ := modifyGroup_ok hrun
  have hadded : added g (es ++ [.add g pa]) = added g es ++ [pa] := by
    rw [added_append]
    simp [added]
  rw [hadded] at hcard
  have hroom : pa ∈ (groups k).shmem ∨ (groups k).shmem.length < SHMEM_MAX := by
    by_contra hfull
    rw [not_or] at hfull
    -- the list and the page would be one page too many
    have hsub : insert pa (groups k).shmem.toFinset ⊆ (added g es ++ [pa]).toFinset := by
      intro x hx
      rw [Finset.mem_insert, List.mem_toFinset] at hx
      rw [List.mem_toFinset, List.mem_append, List.mem_singleton]
      exact hx.symm.imp_left (h.sub g hg k hk x)
    have hle := (Finset.card_le_card hsub).trans hcard
    rw [Finset.card_insert_of_notMem (fun hx => hfull.1 (List.mem_toFinset.mp hx)),
      List.toFinset_card_of_nodup (h.nodup k)] at hle
    omega
  intro j
  by_cases hj : j = k
  · rw [hj, Function.update_self, store_room hpa hroom]
    exact ⟨rfl, rfl, fun hne => absurd hk hne⟩
  · rw [Function.update_of_ne hj]
    exact ⟨rfl, rfl, fun _ => rfl⟩

/-- Along any calls of the functions on groups, `add_shmem` changes only the list and `is_shmem`
tells the pages that have been added, exactly when no group has got more than 100 of them. -/
theorem shared_pages_recorded_iff (hes : ∀ e ∈ es, e.Proper)
    (hrun : exec CowGroups.call noGroups es = .ok groups) :
    Records es groups ↔ ∀ g ≠ 0, (added g es).toFinset.card ≤ SHMEM_MAX := by
  have hbooks := books_of_run hes hrun
  constructor
  · intro hrecords g hg
    exact hbooks.card_le hrecords.tells hg
  · intro hcard
    refine ⟨fun es₁ g pa es₂ hsplit s t hs ht => ?_, fun g hg i hi pa => ?_⟩
    · have hproper : (GroupCall.add g pa).Proper := hes _ (by rw [hsplit]; simp)
      have hbefore : Books es₁ s := books_of_run (fun e he => hes e (by rw [hsplit]; simp [he])) hs
      refine hbefore.listOnly hproper.1 hproper.2 ?_ ht
      refine (Finset.card_le_card fun x hx => ?_).trans (hcard g hproper.1)
      rw [List.mem_toFinset] at hx ⊢
      have happend : es = (es₁ ++ [.add g pa]) ++ es₂ := by
        rw [hsplit]
        simp
      rw [happend, added_append]
      exact List.mem_append_left _ hx
    · rw [isShmem_eq hi]
      congr 1
      exact decide_eq_decide.mpr (hbooks.mem_shmem hg hi (hcard g hg))

theorem adds_return {i : ℕ} (h : groups.getCowGroup g = some i) (pas : List ℕ) :
    ∃ groups', exec CowGroups.call groups (pas.map (GroupCall.add g)) = .ok groups' := by
  induction pas generalizing groups with
  | nil => exact ⟨groups, rfl⟩
  | cons pa pas ih =>
    have hstep : groups.call (.add g pa) =
        .ok (Function.update groups i ((groups i).store pa)) := by
      simp only [CowGroups.call, CowGroups.addShmem, CowGroups.modifyGroup, h]
    have hgroup : ∀ j, (Function.update groups i ((groups i).store pa) j).group =
        (groups j).group := by
      intro j
      by_cases hj : j = i
      · rw [hj, Function.update_self, store_group]
      · rw [Function.update_of_ne hj]
    obtain ⟨groups', hrest⟩ := ih (by rw [getCowGroup_congr hgroup, h])
    refine ⟨groups', ?_⟩
    rw [List.map_cons, exec_cons, hstep]
    exact hrest

theorem init_adds_return (pas : List ℕ) : ∃ groups,
    exec CowGroups.call noGroups (.init 1 :: pas.map (GroupCall.add 1)) = .ok groups := by
  have hnew : (noGroups.cowGroupInit 1).getCowGroup 1 = some 0 := by decide
  obtain ⟨groups, hrun⟩ := adds_return hnew pas
  refine ⟨groups, ?_⟩
  rw [exec_cons]
  exact hrun

theorem added_map_add (g : ℕ) (pas : List ℕ) : added g (pas.map (GroupCall.add g)) = pas := by
  induction pas with
  | nil => rfl
  | cons pa pas ih => simp [added]

end Capacity

def manyPages (n : ℕ) : List ℕ := (List.range n).map fun k => KERNBASE + PGSIZE * k

def manyAdds (n : ℕ) : List GroupCall := .init 1 :: (manyPages n).map (GroupCall.add 1)

theorem manyAdds_proper (n : ℕ) : ∀ e ∈ manyAdds n, e.Proper := by
  intro e he
  rcases List.mem_cons.mp he with rfl | he
  · exact Nat.one_ne_zero
  · obtain ⟨pa, hpa, rfl⟩ := List.mem_map.mp he
    obtain ⟨k, -, rfl⟩ := List.mem_map.mp hpa
    exact ⟨Nat.one_ne_zero, by simp only [KERNBASE]; omega⟩

/-- A group with as many pages as it has room for. -/
theorem sample_shared_pages_recorded_iff : ∃ groups,
    exec CowGroups.call noGroups (manyAdds SHMEM_MAX) = .ok groups ∧
      (Records (manyAdds SHMEM_MAX) groups ↔
        ∀ g ≠ 0, (added g (manyAdds SHMEM_MAX)).toFinset.card ≤ SHMEM_MAX) := by
  obtain ⟨groups, hrun⟩ := init_adds_return (manyPages SHMEM_MAX)
  exact ⟨groups, hrun, shared_pages_recorded_iff (manyAdds_proper SHMEM_MAX) hrun⟩

/-- The first `fork(1)` of a process of 101 pages overwrites the count of its group and forgets a
page. -/
theorem many_pages_not_recorded : ∃ groups,
    exec CowGroups.call noGroups (manyAdds 101) = .ok groups ∧
      ¬ Records (manyAdds 101) groups := by
  obtain ⟨groups, hrun⟩ := init_adds_return (manyPages 101)
  refine ⟨groups, hrun, fun hrecords => ?_⟩
  have hadded : added 1 (manyAdds 101) = manyPages 101 := added_map_add 1 (manyPages 101)
  have hle := (books_of_run (manyAdds_proper 101) hrun).card_le hrecords.tells Nat.one_ne_zero
  have hnodup : (manyPages 101).Nodup := by
    refine List.nodup_range.map fun a b hab => ?_
    simp only [PGSIZE] at hab
    omega
  rw [hadded, List.toFinset_card_of_nodup hnodup] at hle
  revert hle
  decide

end AdvancedOperatingSystems.DemandPaging
