import Mathlib.Data.List.Range
import Mathlib.Order.Lattice
import Mathlib.Tactic.Common

/-!
# Loops that scan an array

Three kinds of scans: a search for the least key among the eligible entries, a
search for the entry that meets a condition only one entry meets, and a loop
whose body changes the state at one index only.
-/

namespace AdvancedOperatingSystems.Foundations

variable {α β σ : Type*}

section LeastKey

variable [LinearOrder β] (eligible : α → Bool) (key : α → β)

/-- Keep the eligible entry with the least key, the earlier one of equals. -/
def minStep (best : Option α) (a : α) : Option α :=
  if eligible a then
    match best with
    | none => some a
    | some b => if key a < key b then some a else some b
  else best

/-- What the scan has found: an entry of the list or the best one so far, with no
greater key than any eligible entry seen. -/
structure LeastSoFar (best : Option α) (as : List α) (v : α) : Prop where
  found : best = some v ∨ v ∈ as ∧ eligible v = true
  least_best : ∀ b, best = some b → key v ≤ key b
  least : ∀ a ∈ as, eligible a = true → key v ≤ key a

theorem foldl_minStep_some (b : α) (as : List α) :
    ∃ v, as.foldl (minStep eligible key) (some b) = some v ∧
      LeastSoFar eligible key (some b) as v := by
  induction as generalizing b with
  | nil => exact ⟨b, rfl, Or.inl rfl, fun c hc => by cases hc; exact le_rfl, by simp⟩
  | cons a as ih =>
    by_cases ha : eligible a = true
    · by_cases hlt : key a < key b
      · obtain ⟨v, hv, hs⟩ := ih a
        refine ⟨v, by simpa [minStep, ha, hlt] using hv, ?_, fun c hc => ?_, fun c hc hel => ?_⟩
        · rcases hs.found with h | h
          · cases h
            exact Or.inr ⟨List.mem_cons_self, ha⟩
          · exact Or.inr ⟨List.mem_cons_of_mem _ h.1, h.2⟩
        · cases hc
          exact (hs.least_best a rfl).trans hlt.le
        · rcases List.mem_cons.mp hc with rfl | hc
          · exact hs.least_best c rfl
          · exact hs.least c hc hel
      · obtain ⟨v, hv, hs⟩ := ih b
        refine ⟨v, by simpa [minStep, ha, hlt] using hv, ?_, hs.least_best, fun c hc hel => ?_⟩
        · exact hs.found.imp_right fun h => ⟨List.mem_cons_of_mem _ h.1, h.2⟩
        · rcases List.mem_cons.mp hc with rfl | hc
          · exact (hs.least_best b rfl).trans (not_lt.mp hlt)
          · exact hs.least c hc hel
    · obtain ⟨v, hv, hs⟩ := ih b
      refine ⟨v, by simpa [minStep, ha] using hv, ?_, hs.least_best, fun c hc hel => ?_⟩
      · exact hs.found.imp_right fun h => ⟨List.mem_cons_of_mem _ h.1, h.2⟩
      · rcases List.mem_cons.mp hc with rfl | hc
        · exact absurd hel ha
        · exact hs.least c hc hel

/-- If an entry of the list is eligible, the scan finds one with the least key. -/
theorem foldl_minStep_none {as : List α} {a : α} (ha : a ∈ as) (hel : eligible a = true) :
    ∃ v ∈ as, as.foldl (minStep eligible key) none = some v ∧ eligible v = true ∧
      ∀ b ∈ as, eligible b = true → key v ≤ key b := by
  induction as with
  | nil => cases ha
  | cons c as ih =>
    by_cases hc : eligible c = true
    · obtain ⟨v, hv, hs⟩ := foldl_minStep_some eligible key c as
      have hleast : ∀ b ∈ c :: as, eligible b = true → key v ≤ key b := by
        intro b hb hb'
        rcases List.mem_cons.mp hb with rfl | hb
        · exact hs.least_best b rfl
        · exact hs.least b hb hb'
      have hfold : (c :: as).foldl (minStep eligible key) none = some v := by
        simpa [minStep, hc] using hv
      rcases hs.found with h | h
      · cases h
        exact ⟨c, List.mem_cons_self, hfold, hc, hleast⟩
      · exact ⟨v, List.mem_cons_of_mem _ h.1, hfold, h.2, hleast⟩
    · have ha' : a ∈ as := by
        rcases List.mem_cons.mp ha with rfl | h
        · exact absurd hel hc
        · exact h
      obtain ⟨v, hvmem, hv, hel', hleast⟩ := ih ha'
      refine ⟨v, List.mem_cons_of_mem _ hvmem, by simpa [minStep, hc] using hv, hel', ?_⟩
      intro b hb hb'
      rcases List.mem_cons.mp hb with rfl | hb
      · exact absurd hb' hc
      · exact hleast b hb hb'

/-- Where the scan leaves the entry it started with, it goes to the first of those with the
least key. -/
theorem foldl_minStep_first [LinearOrder α] {as : List α} {b v : α}
    (hsorted : as.Pairwise (· < ·))
    (h : as.foldl (minStep eligible key) (some b) = some v) (hne : v ≠ b) :
    key v < key b ∧ ∀ a ∈ as, eligible a = true → key a ≤ key v → v ≤ a := by
  induction as generalizing b with
  | nil =>
    cases h
    contradiction
  | cons a as ih =>
    obtain ⟨hbefore, hsorted⟩ := List.pairwise_cons.mp hsorted
    by_cases hmoves : eligible a = true ∧ key a < key b
    · have hfold : as.foldl (minStep eligible key) (some a) = some v := by
        simpa [minStep, hmoves.1, hmoves.2] using h
      by_cases hva : v = a
      · subst hva
        refine ⟨hmoves.2, fun c hc _ _ => ?_⟩
        rcases List.mem_cons.mp hc with rfl | hc
        · exact le_rfl
        · exact (hbefore c hc).le
      · obtain ⟨hlt, hfirst⟩ := ih hsorted hfold hva
        refine ⟨hlt.trans hmoves.2, fun c hc hel hle => ?_⟩
        rcases List.mem_cons.mp hc with rfl | hc
        · exact absurd hlt (not_lt.mpr hle)
        · exact hfirst c hc hel hle
    · have hfold : as.foldl (minStep eligible key) (some b) = some v := by
        have hstep : minStep eligible key (some b) a = some b := by
          unfold minStep
          by_cases hel : eligible a = true
          · simp [hel, not_lt.mp fun hlt => hmoves ⟨hel, hlt⟩]
          · simp [hel]
        rwa [List.foldl_cons, hstep] at h
      obtain ⟨hlt, hfirst⟩ := ih hsorted hfold hne
      refine ⟨hlt, fun c hc hel hle => ?_⟩
      rcases List.mem_cons.mp hc with rfl | hc
      · exact absurd ⟨hel, hle.trans_lt hlt⟩ hmoves
      · exact hfirst c hc hel hle

/-- A scan that starts with nothing goes to the first of the eligible entries with the
least key. -/
theorem foldl_minStep_none_first [LinearOrder α] {as : List α} {v : α}
    (hsorted : as.Pairwise (· < ·)) (h : as.foldl (minStep eligible key) none = some v) :
    v ∈ as ∧ eligible v = true ∧ ∀ a ∈ as, eligible a = true → key a ≤ key v → v ≤ a := by
  induction as with
  | nil => cases h
  | cons c as ih =>
    obtain ⟨hbefore, hsorted⟩ := List.pairwise_cons.mp hsorted
    by_cases hc : eligible c = true
    · have hfold : as.foldl (minStep eligible key) (some c) = some v := by
        simpa [minStep, hc] using h
      by_cases hvc : v = c
      · subst hvc
        refine ⟨List.mem_cons_self, hc, fun a ha _ _ => ?_⟩
        rcases List.mem_cons.mp ha with rfl | ha
        · exact le_rfl
        · exact (hbefore a ha).le
      · obtain ⟨hlt, hfirst⟩ := foldl_minStep_first eligible key hsorted hfold hvc
        obtain ⟨w, hw, hfound⟩ := foldl_minStep_some eligible key c as
        obtain rfl := Option.some.inj (hfold.symm.trans hw)
        rcases hfound.found with heq | ⟨hmem, hel⟩
        · exact absurd (Option.some.inj heq).symm hvc
        · refine ⟨List.mem_cons_of_mem _ hmem, hel, fun a ha hela hle => ?_⟩
          rcases List.mem_cons.mp ha with rfl | ha
          · exact absurd hlt (not_lt.mpr hle)
          · exact hfirst a ha hela hle
    · have hfold : as.foldl (minStep eligible key) none = some v := by
        simpa [minStep, hc] using h
      obtain ⟨hmem, hel, hfirst⟩ := ih hsorted hfold
      refine ⟨List.mem_cons_of_mem _ hmem, hel, fun a ha hela hle => ?_⟩
      rcases List.mem_cons.mp ha with rfl | ha
      · exact absurd hela hc
      · exact hfirst a ha hela hle

/-- What a scan finds: the eligible entry with the least key, the first one of equals. -/
theorem foldl_minStep_iff [LinearOrder α] {as : List α} {v : α} (hsorted : as.Pairwise (· < ·)) :
    as.foldl (minStep eligible key) none = some v ↔ v ∈ as ∧ eligible v = true ∧
      ∀ a ∈ as, eligible a = true → key v < key a ∨ key v = key a ∧ v ≤ a := by
  constructor
  · intro h
    obtain ⟨hmem, hel, hfirst⟩ := foldl_minStep_none_first eligible key hsorted h
    obtain ⟨w, -, hw, -, hleast⟩ := foldl_minStep_none eligible key hmem hel
    obtain rfl := Option.some.inj (h.symm.trans hw)
    refine ⟨hmem, hel, fun a ha hela => ?_⟩
    rcases (hleast a ha hela).lt_or_eq with hlt | heq
    · exact Or.inl hlt
    · exact Or.inr ⟨heq, hfirst a ha hela heq.ge⟩
  · rintro ⟨hmem, hel, hleast⟩
    obtain ⟨w, hw, hfold, helw, hleast'⟩ := foldl_minStep_none eligible key hmem hel
    obtain ⟨-, -, hfirst⟩ := foldl_minStep_none_first eligible key hsorted hfold
    rcases hleast w hw helw with hlt | ⟨heq, hle⟩
    · exact absurd (hleast' v hmem hel) (not_le.mpr hlt)
    · rw [hfold, le_antisymm hle (hfirst v hmem hel heq.le)]

end LeastKey

/-- A fold that starts at `c` and stays there or moves to where `P` holds ends where `P`
holds, if `P` is kept and some element of the list moves it. -/
theorem foldl_reaches {P : α → Prop} {f : α → β → α} {c : α} (keep : ∀ a b, P a → P (f a b))
    (stay : ∀ b, f c b = c ∨ P (f c b)) {l : List β} {b : β} (hb : b ∈ l) (move : P (f c b)) :
    P (l.foldl f c) := by
  have hkeep : ∀ (l : List β) (a : α), P a → P (l.foldl f a) := by
    intro l
    induction l with
    | nil => exact fun _ ha => ha
    | cons d l ih => exact fun a ha => ih (f a d) (keep a d ha)
  induction l with
  | nil => cases hb
  | cons d l ih =>
    rw [List.foldl_cons]
    rcases stay d with hd | hd
    · rw [hd]
      rcases List.mem_cons.mp hb with rfl | hb
      · rw [hd] at move
        exact hkeep l c move
      · exact ih hb
    · exact hkeep l _ hd

theorem foldl_keeps {P : α → Prop} {f : α → β → α} (keep : ∀ a b, P a → P (f a b)) (l : List β)
    {a : α} (ha : P a) : P (l.foldl f a) := by
  induction l generalizing a with
  | nil => exact ha
  | cons b l ih => exact ih (keep a b ha)

theorem find?_range_unique {n i : ℕ} {p : ℕ → Bool} (hi : i < n) (hp : p i = true)
    (huniq : ∀ j < n, p j = true → j = i) : (List.range n).find? p = some i := by
  cases h : (List.range n).find? p with
  | none =>
    rw [List.find?_eq_none] at h
    exact absurd hp (by simpa using h i (List.mem_range.mpr hi))
  | some j =>
    have hj := List.mem_range.mp (List.mem_of_find?_eq_some h)
    rw [huniq j hj (List.find?_some h)]

theorem find?_range_first {n i : ℕ} {p : ℕ → Bool} (h : (List.range n).find? p = some i) :
    i < n ∧ p i = true ∧ ∀ j < i, p j = false := by
  refine ⟨List.mem_range.mp (List.mem_of_find?_eq_some h), List.find?_some h, fun j hj => ?_⟩
  obtain ⟨-, k, hk, hki, hbefore⟩ := List.find?_eq_some_iff_getElem.mp h
  simp only [List.getElem_range] at hki hbefore
  subst hki
  simpa using hbefore j hj

/-- A loop whose body changes the state at one index only. -/
theorem foldl_range_single {n i : ℕ} {f : σ → ℕ → σ} {s : σ} (hi : i < n)
    (before : ∀ j, j ≠ i → f s j = s) (after : ∀ j, j ≠ i → f (f s i) j = f s i) :
    (List.range n).foldl f s = f s i := by
  have hkeep : ∀ (js : List ℕ) (t : σ), (∀ j ∈ js, f t j = t) → js.foldl f t = t := by
    intro js
    induction js with
    | nil => intro t _; rfl
    | cons j js ih =>
      intro t ht
      rw [List.foldl_cons, ht j List.mem_cons_self]
      exact ih t fun k hk => ht k (List.mem_cons_of_mem _ hk)
  have hsplit : List.range n = List.range i ++ i :: List.range' (i + 1) (n - (i + 1)) := by
    have hlen : n = i + (1 + (n - (i + 1))) := by omega
    conv_lhs => rw [hlen]
    rw [List.range_eq_range', ← List.range'_append_1, ← List.range'_append_1,
      List.range_eq_range', Nat.zero_add]
    rfl
  rw [hsplit, List.foldl_append, hkeep _ s, List.foldl_cons, hkeep]
  · intro j hj
    rw [List.mem_range'_1] at hj
    exact after j (by omega)
  · intro j hj
    exact before j (by rw [List.mem_range] at hj; omega)

end AdvancedOperatingSystems.Foundations
