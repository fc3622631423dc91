import Mathlib.Data.List.Basic
import Mathlib.Tactic.Common

/-!
# Streaming a function of blocks

A block function takes a state and a block of `B` bytes. A stream collects the bytes one at
a time and applies the function whenever a block is full. What it has computed is the fold
of the function over the full blocks, and what it has collected is the rest.
-/

namespace AdvancedOperatingSystems.Foundations

variable {σ β : Type*} (B : ℕ) (f : σ → List β → σ)

/-- The fold over the full blocks of a list. -/
def foldBlocks (s : σ) (l : List β) : σ :=
  if _h : 0 < B ∧ B ≤ l.length then foldBlocks (f s (l.take B)) (l.drop B) else s
termination_by l.length
decreasing_by
  rw [List.length_drop]
  omega

/-- One byte more: the state and the bytes collected. -/
def feed (x : σ × List β) (b : β) : σ × List β :=
  if x.2.length + 1 = B then (f x.1 (x.2 ++ [b]), []) else (x.1, x.2 ++ [b])

variable {B f} {s : σ} {buf l : List β}

theorem foldBlocks_of_lt (h : l.length < B) : foldBlocks B f s l = s := by
  rw [foldBlocks, dif_neg]
  omega

theorem foldBlocks_of_le (hB : 0 < B) (h : B ≤ l.length) :
    foldBlocks B f s l = foldBlocks B f (f s (l.take B)) (l.drop B) := by
  rw [foldBlocks, dif_pos ⟨hB, h⟩]

theorem foldBlocks_block (hB : 0 < B) (h : l.length = B) : foldBlocks B f s l = f s l := by
  rw [foldBlocks_of_le hB (Nat.le_of_eq h.symm), foldBlocks_of_lt (by rw [List.length_drop]; omega),
    List.take_of_length_le (Nat.le_of_eq h)]

theorem feed_of_ne {b : β} (h : buf.length + 1 ≠ B) : feed B f (s, buf) b = (s, buf ++ [b]) :=
  if_neg h

theorem feed_of_eq {b : β} (h : buf.length + 1 = B) :
    feed B f (s, buf) b = (f s (buf ++ [b]), []) := if_pos h

theorem foldl_feed_of_lt (h : buf.length + l.length < B) :
    l.foldl (feed B f) (s, buf) = (s, buf ++ l) := by
  induction l generalizing buf with
  | nil => simp
  | cons b l ih =>
    rw [List.length_cons] at h
    rw [List.foldl_cons, feed_of_ne (by omega),
      ih (by rw [List.length_append, List.length_singleton]; omega), List.append_assoc]
    rfl

theorem foldl_feed_of_eq (hne : l ≠ []) (h : buf.length + l.length = B) :
    l.foldl (feed B f) (s, buf) = (f s (buf ++ l), []) := by
  obtain ⟨init, b, rfl⟩ := List.eq_nil_or_concat l |>.resolve_left hne
  rw [List.concat_eq_append] at h ⊢
  rw [List.length_append, List.length_singleton] at h
  have hinit : init.foldl (feed B f) (s, buf) = (s, buf ++ init) := foldl_feed_of_lt (by omega)
  rw [List.foldl_append, hinit, List.foldl_cons, List.foldl_nil,
    feed_of_eq (by rw [List.length_append]; omega), List.append_assoc]

/-- The stream has folded the full blocks and collected the rest. -/
theorem foldl_feed (hB : 0 < B) (s : σ) (l : List β) :
    l.foldl (feed B f) (s, []) = (foldBlocks B f s l, l.drop (B * (l.length / B))) := by
  induction hn : l.length using Nat.strongRecOn generalizing s l with
  | ind n ih =>
    subst hn
    by_cases hlt : l.length < B
    · rw [foldl_feed_of_lt (by simpa using hlt), foldBlocks_of_lt hlt, Nat.div_eq_of_lt hlt]
      simp
    · have hle : B ≤ l.length := Nat.le_of_not_lt hlt
      have htake : (l.take B).length = B := by rw [List.length_take]; omega
      have hdrop : (l.drop B).length = l.length - B := List.length_drop
      have hne : l.take B ≠ [] := by
        intro hnil
        rw [hnil] at htake
        simp at htake
        omega
      have hdiv : l.length / B = (l.length - B) / B + 1 := by
        rw [← Nat.add_div_right _ hB, Nat.sub_add_cancel hle]
      conv_lhs => rw [← List.take_append_drop B l]
      rw [List.foldl_append, foldl_feed_of_eq hne (by simpa using htake), List.nil_append,
        ih _ (by omega) _ _ rfl, foldBlocks_of_le hB hle, hdrop, List.drop_drop, hdiv, Nat.mul_succ,
        Nat.add_comm]

theorem foldBlocks_append (hB : 0 < B) (s : σ) (l l' : List β) :
    foldBlocks B f s (l ++ l') = (l'.foldl (feed B f) (l.foldl (feed B f) (s, []))).1 := by
  rw [← List.foldl_append, foldl_feed hB]

end AdvancedOperatingSystems.Foundations
