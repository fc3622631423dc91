import Mathlib.Data.List.Induction
import Mathlib.Logic.Function.Basic
import Mathlib.Tactic.Common

/-!
# Redo logs on a store that writes one cell at a time

A store keeps a value in each cell and writes single cells atomically. A redo log reserves a
header cell and some slots. A transaction first puts its new values into the slots, then
names their home cells in the header, then copies them home, and last clears the header.
`recovered` is what a reboot finds: the store after the copies that the header asks for.
A commit that stops after any number of its writes leaves either all of the transaction or
none of it, and a recovery that stops after any number of its writes changes nothing.
-/

namespace AdvancedOperatingSystems.Foundations

variable {κ β : Type*}

section Writes

variable [DecidableEq κ]

def applyWrites (d : κ → β) : List (κ × β) → κ → β
  | [] => d
  | w :: ws => applyWrites (Function.update d w.1 w.2) ws

variable {d e : κ → β} {us ws : List (κ × β)} {k : κ}

@[simp] theorem applyWrites_nil : applyWrites d ([] : List (κ × β)) = d := rfl

theorem applyWrites_cons (w : κ × β) :
    applyWrites d (w :: ws) = applyWrites (Function.update d w.1 w.2) ws := rfl

theorem applyWrites_append : applyWrites d (us ++ ws) = applyWrites (applyWrites d us) ws := by
  induction us generalizing d with
  | nil => rfl
  | cons u us ih => exact ih

theorem applyWrites_of_notMem (hk : k ∉ ws.map Prod.fst) : applyWrites d ws k = d k := by
  induction ws generalizing d with
  | nil => rfl
  | cons w ws ih =>
    rw [List.map_cons, List.mem_cons, not_or] at hk
    rw [applyWrites_cons, ih hk.2, Function.update_of_ne hk.1]

theorem applyWrites_congr (hk : k ∈ ws.map Prod.fst ∨ d k = e k) :
    applyWrites d ws k = applyWrites e ws k := by
  induction ws generalizing d e with
  | nil =>
    rcases hk with hk | hk
    · cases hk
    · exact hk
  | cons w ws ih =>
    apply ih
    by_cases hw : k = w.1
    · subst hw
      exact Or.inr (by simp)
    · rcases hk with hk | hk
      · exact Or.inl ((List.mem_cons.mp hk).resolve_left hw)
      · exact Or.inr (by simp [Function.update_of_ne hw, hk])

theorem applyWrites_cases (d : κ → β) (ws : List (κ × β)) (k : κ) :
    applyWrites d ws k = d k ∨ (k, applyWrites d ws k) ∈ ws := by
  induction ws generalizing d with
  | nil => exact Or.inl rfl
  | cons w ws ih =>
    rw [applyWrites_cons]
    rcases ih (Function.update d w.1 w.2) with h | h
    · by_cases hk : k = w.1
      · subst hk
        rw [h, Function.update_self]
        exact Or.inr List.mem_cons_self
      · rw [h, Function.update_of_ne hk]
        exact Or.inl rfl
    · exact Or.inr (List.mem_cons_of_mem w h)

/-- Writing a second time, after any of the writes, changes nothing. -/
theorem applyWrites_again (h : ∀ c ∈ us.map Prod.fst, c ∈ ws.map Prod.fst) :
    applyWrites (applyWrites d us) ws = applyWrites d ws := by
  funext k
  by_cases hk : k ∈ ws.map Prod.fst
  · exact applyWrites_congr (Or.inl hk)
  · exact applyWrites_congr (Or.inr (applyWrites_of_notMem fun hu => hk (h k hu)))

theorem applyWrites_map (bs : List κ) (f : κ → β) :
    applyWrites d (bs.map fun b => (b, f b)) k = if k ∈ bs then f k else d k := by
  induction bs generalizing d with
  | nil => simp
  | cons b bs ih =>
    rw [List.map_cons, applyWrites_cons, ih]
    by_cases hk : k ∈ bs
    · simp [hk]
    · by_cases hb : k = b
      · simp [hb]
      · simp [hk, hb]

end Writes

/-- A header cell, the slots of a log and what a header value names. -/
structure RedoLog (κ β : Type*) where
  header : κ
  slot : ℕ → κ
  capacity : ℕ
  decode : β → List κ

namespace RedoLog

variable (L : RedoLog κ β)

def Reserved (k : κ) : Prop := k = L.header ∨ ∃ i < L.capacity, k = L.slot i

/-- The slots are different cells, and none of them is the header. -/
structure Laid : Prop where
  slot_inj : ∀ i < L.capacity, ∀ j < L.capacity, L.slot i = L.slot j → i = j
  slot_ne_header : ∀ i < L.capacity, L.slot i ≠ L.header

/-- The cells a transaction changes: not too many, and none of the log. -/
structure Fits (bs : List κ) : Prop where
  length_le : bs.length ≤ L.capacity
  home : ∀ b ∈ bs, ¬ L.Reserved b

def logWrites (f : κ → β) (bs : List κ) : List (κ × β) :=
  bs.zipIdx.map fun p => (L.slot p.2, f p.1)

def installs (d : κ → β) (bs : List κ) : List (κ × β) :=
  bs.zipIdx.map fun p => (p.1, d (L.slot p.2))

/-- The writes of a whole commit: `h` is the header that names the cells, `h0` the empty one. -/
def commitWrites (f : κ → β) (bs : List κ) (h h0 : β) : List (κ × β) :=
  L.logWrites f bs ++ (L.header, h) :: (bs.map (fun b => (b, f b)) ++ [(L.header, h0)])

def recoveryWrites (d : κ → β) (h0 : β) : List (κ × β) :=
  L.installs d (L.decode (d L.header)) ++ [(L.header, h0)]

variable {L} {d : κ → β} {f : κ → β} {bs : List κ} {h h0 : β}

@[simp] theorem map_fst_installs : (L.installs d bs).map Prod.fst = bs := by
  simp [installs, Function.comp_def]

theorem length_logWrites : (L.logWrites f bs).length = bs.length := by
  simp [logWrites]

theorem Fits.header_notMem (hbs : L.Fits bs) : L.header ∉ bs := fun hb =>
  hbs.home _ hb (Or.inl rfl)

theorem Fits.slot_notMem (hbs : L.Fits bs) {i : ℕ} (hi : i < L.capacity) : L.slot i ∉ bs :=
  fun hb => hbs.home _ hb (Or.inr ⟨i, hi, rfl⟩)

theorem installs_congr (hbs : L.Fits bs) {e : κ → β}
    (he : ∀ i < L.capacity, e (L.slot i) = d (L.slot i)) : L.installs e bs = L.installs d bs := by
  apply List.map_congr_left
  rintro ⟨b, i⟩ hp
  have hi := (List.mem_zipIdx hp).2.1
  simp only [Prod.mk.injEq, true_and]
  exact he i (by have := hbs.length_le; omega)

theorem mem_logWrites {k : κ} (hk : k ∈ (L.logWrites f bs).map Prod.fst) :
    ∃ i < bs.length, k = L.slot i := by
  simp only [logWrites, List.map_map, List.mem_map, Function.comp_apply] at hk
  obtain ⟨⟨b, i⟩, hp, rfl⟩ := hk
  exact ⟨i, by have := (List.mem_zipIdx hp).2.1; omega, rfl⟩

theorem installs_of_logged {e : κ → β}
    (he : ∀ i, ∀ hi : i < bs.length, e (L.slot i) = f bs[i]) :
    L.installs e bs = bs.map fun b => (b, f b) := by
  apply List.ext_getElem
  · simp [installs]
  · intro i hi hi'
    simp only [installs, List.length_map, List.length_zipIdx] at hi
    simp [installs, he i hi]

theorem fits_nil : L.Fits [] := ⟨Nat.zero_le _, fun _ hb => absurd hb (List.not_mem_nil)⟩

variable [DecidableEq κ]

variable (L) in
def recovered (d : κ → β) : κ → β := applyWrites d (L.installs d (L.decode (d L.header)))

theorem recovered_of_empty (hd : L.decode (d L.header) = []) : L.recovered d = d := by
  rw [recovered, hd]
  rfl

theorem logWrites_home (hbs : L.Fits bs) {n : ℕ} {k : κ} (hk : ¬ L.Reserved k) :
    applyWrites d ((L.logWrites f bs).take n) k = d k := by
  apply applyWrites_of_notMem
  intro hmem
  obtain ⟨w, hw, rfl⟩ := List.mem_map.mp hmem
  obtain ⟨i, hi, heq⟩ := mem_logWrites (List.mem_map_of_mem (List.mem_of_mem_take hw))
  exact hk (Or.inr ⟨i, Nat.lt_of_lt_of_le hi hbs.length_le, heq⟩)

theorem logWrites_header (hL : L.Laid) (hbs : L.Fits bs) {n : ℕ} :
    applyWrites d ((L.logWrites f bs).take n) L.header = d L.header := by
  apply applyWrites_of_notMem
  intro hmem
  obtain ⟨w, hw, heq⟩ := List.mem_map.mp hmem
  obtain ⟨i, hi, hslot⟩ := mem_logWrites (List.mem_map_of_mem (List.mem_of_mem_take hw))
  exact hL.slot_ne_header i (Nat.lt_of_lt_of_le hi hbs.length_le) (hslot.symm.trans heq)

/-- After the writes to the log each slot in use holds its value. -/
theorem logWrites_slot (hL : L.Laid) (hbs : L.Fits bs) {i : ℕ} (hi : i < bs.length) :
    applyWrites d (L.logWrites f bs) (L.slot i) = f bs[i] := by
  induction bs using List.reverseRecOn with
  | nil => cases hi
  | append_singleton bs b ih =>
    have hfits : L.Fits bs :=
      ⟨Nat.le_trans (by simp) hbs.length_le, fun c hc => hbs.home c (by simp [hc])⟩
    have hlen : bs.length < L.capacity := by
      have := hbs.length_le
      rw [List.length_append, List.length_singleton] at this
      omega
    have happend : L.logWrites f (bs ++ [b]) = L.logWrites f bs ++ [(L.slot bs.length, f b)] := by
      simp [logWrites, List.zipIdx_append]
    rw [happend, applyWrites_append, applyWrites_cons, applyWrites_nil]
    rw [List.length_append, List.length_singleton] at hi
    rcases Nat.lt_succ_iff_lt_or_eq.mp hi with hlt | rfl
    · have hne : L.slot i ≠ L.slot bs.length := fun heq =>
        (Nat.ne_of_lt hlt) (hL.slot_inj i (by omega) _ hlen heq)
      rw [Function.update_of_ne hne, ih hfits hlt, List.getElem_append_left]
    · simp

/-- The new contents of the cells once the transaction has happened. -/
def committed (d f : κ → β) (bs : List κ) : κ → β := fun k => if k ∈ bs then f k else d k

theorem recovered_of_logged {e : κ → β} (hhead : L.decode (e L.header) = bs)
    (he : ∀ i, ∀ hi : i < bs.length, e (L.slot i) = f bs[i]) {k : κ}
    (hk : k ∈ bs ∨ e k = d k) : L.recovered e k = committed d f bs k := by
  rw [recovered, hhead, installs_of_logged he, applyWrites_map, committed]
  split_ifs with hmem
  · rfl
  · exact hk.resolve_left hmem

/-- A commit that stops after any number of its writes: a recovery finds all of the
transaction or none of it. -/
theorem crash_commit (hL : L.Laid) (hbs : L.Fits bs) (hd : L.decode (d L.header) = [])
    (hh : L.decode h = bs) (hh0 : L.decode h0 = []) (n : ℕ) :
    (∀ k, ¬ L.Reserved k →
      L.recovered (applyWrites d ((L.commitWrites f bs h h0).take n)) k = d k) ∨
    (∀ k, ¬ L.Reserved k →
      L.recovered (applyWrites d ((L.commitWrites f bs h h0).take n)) k = committed d f bs k) := by
  unfold commitWrites
  rcases Nat.lt_or_ge bs.length n with hn | hn
  · -- the header is on the store
    right
    obtain ⟨m, rfl⟩ : ∃ m, n = (L.logWrites f bs).length + (m + 1) :=
      ⟨n - bs.length - 1, by rw [length_logWrites]; omega⟩
    rw [List.take_length_add_append, applyWrites_append, List.take_succ_cons, applyWrites_cons]
    set logged := applyWrites d (L.logWrites f bs) with hlogged
    have hslot : ∀ i, ∀ hi : i < bs.length, logged (L.slot i) = f bs[i] := fun i hi =>
      logWrites_slot hL hbs hi
    have hhome : ∀ k, ¬ L.Reserved k → logged k = d k := by
      intro k hk
      rw [hlogged, ← List.take_length (l := L.logWrites f bs)]
      exact logWrites_home hbs hk
    rcases Nat.lt_or_ge bs.length m with hm | hm
    · -- the header is empty again
      have htake : (bs.map (fun b => (b, f b)) ++ [(L.header, h0)]).take m =
          bs.map (fun b => (b, f b)) ++ [(L.header, h0)] := by
        rw [List.take_of_length_le]
        simp
        omega
      intro k hk
      have hne : k ≠ L.header := fun heq => hk (Or.inl heq)
      rw [htake, applyWrites_append, recovered_of_empty]
      · rw [applyWrites_cons, applyWrites_nil, Function.update_of_ne hne, applyWrites_map, committed,
          Function.update_of_ne hne, hhome k hk]
      · rw [applyWrites_cons, applyWrites_nil, Function.update_self, hh0]
    · -- some of the values are home
      have htake : (bs.map (fun b => (b, f b)) ++ [(L.header, h0)]).take m =
          (bs.take m).map fun b => (b, f b) := by
        rw [List.take_append_of_le_length (by simpa using hm), ← List.map_take]
      rw [htake]
      have hcell : ∀ c, applyWrites (Function.update logged L.header h)
          ((bs.take m).map fun b => (b, f b)) c =
          if c ∈ bs.take m then f c else Function.update logged L.header h c := fun c =>
        applyWrites_map _ _
      have hnot : ∀ c, c ∉ bs → c ∉ bs.take m := fun c hc hmem => hc (List.mem_of_mem_take hmem)
      intro k hk
      apply recovered_of_logged
      · rw [hcell, if_neg (hnot _ hbs.header_notMem), Function.update_self, hh]
      · intro i hi
        have hi' : i < L.capacity := Nat.lt_of_lt_of_le hi hbs.length_le
        rw [hcell, if_neg (hnot _ (hbs.slot_notMem hi')),
          Function.update_of_ne (hL.slot_ne_header i hi'), hslot i hi]
      · by_cases hmem : k ∈ bs
        · exact Or.inl hmem
        · right
          rw [hcell, if_neg (hnot k hmem), Function.update_of_ne fun heq => hk (Or.inl heq),
            hhome k hk]
  · -- the header is still the old one
    left
    intro k hk
    rw [List.take_append_of_le_length (by rw [length_logWrites]; exact hn), recovered_of_empty]
    · exact logWrites_home hbs hk
    · rw [logWrites_header hL hbs, hd]

/-- A recovery that stops after any number of its writes has changed nothing that a later
one finds. -/
theorem crash_recovery (hbs : L.Fits (L.decode (d L.header)))
    (hh0 : L.decode h0 = []) (n : ℕ) {k : κ} (hk : ¬ L.Reserved k) :
    L.recovered (applyWrites d ((L.recoveryWrites d h0).take n)) k = L.recovered d k := by
  unfold recoveryWrites
  set bs := L.decode (d L.header) with hbsdef
  have hlen : (L.installs d bs).length = bs.length := by simp [installs]
  have hne : k ≠ L.header := fun heq => hk (Or.inl heq)
  rcases Nat.lt_or_ge bs.length n with hn | hn
  · rw [List.take_of_length_le (by rw [List.length_append, hlen]; exact hn), applyWrites_append,
      recovered_of_empty]
    · rw [applyWrites_cons, applyWrites_nil, Function.update_of_ne hne]
      rfl
    · rw [applyWrites_cons, applyWrites_nil, Function.update_self, hh0]
  · rw [List.take_append_of_le_length (by omega)]
    set e := applyWrites d ((L.installs d bs).take n) with he
    have hkeep : ∀ c, c ∉ bs → e c = d c := by
      intro c hc
      apply applyWrites_of_notMem
      intro hmem
      rw [List.map_take, map_fst_installs] at hmem
      exact hc (List.mem_of_mem_take hmem)
    have hslots : L.installs e bs = L.installs d bs :=
      installs_congr hbs fun i hi => hkeep _ (hbs.slot_notMem hi)
    rw [recovered, hkeep _ hbs.header_notMem, ← hbsdef, hslots, he, applyWrites_again]
    · rfl
    · intro c hc
      rw [List.map_take] at hc
      exact List.mem_of_mem_take hc

/-- The header of a commit that stops names no cell or those of the transaction. -/
theorem crash_commit_header (hL : L.Laid) (hbs : L.Fits bs) (hd : L.decode (d L.header) = [])
    (hh : L.decode h = bs) (hh0 : L.decode h0 = []) (n : ℕ) :
    L.decode (applyWrites d ((L.commitWrites f bs h h0).take n) L.header) = [] ∨
      L.decode (applyWrites d ((L.commitWrites f bs h h0).take n) L.header) = bs := by
  rcases applyWrites_cases d ((L.commitWrites f bs h h0).take n) L.header with hold | hnew
  · rw [hold]
    exact Or.inl hd
  · have hmem := List.mem_of_mem_take hnew
    generalize applyWrites d ((L.commitWrites f bs h h0).take n) L.header = x at hmem ⊢
    rw [commitWrites, List.mem_append, List.mem_cons, List.mem_append, List.mem_singleton] at hmem
    rcases hmem with hlog | hhead | hhome | hhead
    · obtain ⟨i, hi, heq⟩ := mem_logWrites (List.mem_map_of_mem hlog)
      exact absurd heq.symm (hL.slot_ne_header i (Nat.lt_of_lt_of_le hi hbs.length_le))
    · cases hhead
      exact Or.inr hh
    · obtain ⟨b, hb, heq⟩ := List.mem_map.mp hhome
      cases heq
      exact absurd hb hbs.header_notMem
    · cases hhead
      exact Or.inl hh0

theorem crash_recovery_header (hbs : L.Fits (L.decode (d L.header))) (hh0 : L.decode h0 = [])
    (n : ℕ) :
    L.decode (applyWrites d ((L.recoveryWrites d h0).take n) L.header) = [] ∨
      applyWrites d ((L.recoveryWrites d h0).take n) L.header = d L.header := by
  rcases applyWrites_cases d ((L.recoveryWrites d h0).take n) L.header with hold | hnew
  · exact Or.inr hold
  · have hmem := List.mem_of_mem_take hnew
    generalize applyWrites d ((L.recoveryWrites d h0).take n) L.header = x at hmem ⊢
    rw [recoveryWrites, List.mem_append, List.mem_singleton] at hmem
    rcases hmem with hinst | hhead
    · have hcell := List.mem_map_of_mem (f := Prod.fst) hinst
      rw [map_fst_installs] at hcell
      exact absurd hcell hbs.header_notMem
    · cases hhead
      exact Or.inl hh0

theorem commitWrites_header : applyWrites d (L.commitWrites f bs h h0) L.header = h0 := by
  rw [commitWrites, applyWrites_append, applyWrites_cons, applyWrites_append, applyWrites_cons,
    applyWrites_nil, Function.update_self]

theorem recoveryWrites_header : applyWrites d (L.recoveryWrites d h0) L.header = h0 := by
  rw [recoveryWrites, applyWrites_append, applyWrites_cons, applyWrites_nil, Function.update_self]

theorem recoveryWrites_home {k : κ} (hk : ¬ L.Reserved k) :
    applyWrites d (L.recoveryWrites d h0) k = L.recovered d k := by
  have hne : k ≠ L.header := fun heq => hk (Or.inl heq)
  rw [recoveryWrites, applyWrites_append, applyWrites_cons, applyWrites_nil,
    Function.update_of_ne hne]
  rfl

end RedoLog

end AdvancedOperatingSystems.Foundations
