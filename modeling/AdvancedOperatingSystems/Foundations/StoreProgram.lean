import Mathlib.Data.List.Basic
import Mathlib.Data.List.Nodup
import Mathlib.Data.List.Perm.Subperm
import Mathlib.Logic.Function.Basic
import Mathlib.Tactic.Common

/-!
# Programs over a store

A program reads and changes the cells of a store one at a time, and may stop with a fault.
The store notes which cells were changed. `Ends` is total correctness: the program ends and
its result and the store meet the postcondition.
-/

namespace AdvancedOperatingSystems.Foundations

/-- A program over cells `κ` with contents `β`, faults `φ` and results `α`. `scribble` changes a
cell without a note. -/
inductive StoreProgram (κ β φ : Type) (α : Type) : Type
  | ret (a : α)
  | look (b : κ) (next : β → StoreProgram κ β φ α)
  | change (b : κ) (f : β → β) (next : StoreProgram κ β φ α)
  | scribble (b : κ) (f : β → β) (next : StoreProgram κ β φ α)
  | stop (e : φ)

/-- A store and the cells that were changed, with and without a note. -/
structure Noted (κ β : Type) where
  mem : κ → β
  notes : List κ
  scribbles : List κ

namespace StoreProgram

variable {κ β φ α γ : Type}

def andThen : StoreProgram κ β φ α → (α → StoreProgram κ β φ γ) → StoreProgram κ β φ γ
  | ret a, g => g a
  | look b next, g => look b fun d => (next d).andThen g
  | change b f next, g => change b f (next.andThen g)
  | scribble b f next, g => scribble b f (next.andThen g)
  | stop e, _ => stop e

instance : Monad (StoreProgram κ β φ) where
  pure := ret
  bind := andThen

def get (b : κ) : StoreProgram κ β φ β := look b ret

def modify (b : κ) (f : β → β) : StoreProgram κ β φ Unit := change b f (ret ())

def modifySilently (b : κ) (f : β → β) : StoreProgram κ β φ Unit := scribble b f (ret ())

variable [DecidableEq κ]

/-- The result of a program. -/
def run : StoreProgram κ β φ α → Noted κ β → Except φ (α × Noted κ β)
  | ret a, s => .ok (a, s)
  | look b next, s => (next (s.mem b)).run s
  | change b f next, s =>
      next.run { s with mem := Function.update s.mem b (f (s.mem b)), notes := s.notes.insert b }
  | scribble b f next, s =>
      next.run
        { s with mem := Function.update s.mem b (f (s.mem b)), scribbles := b :: s.scribbles }
  | stop e, _ => .error e

def Ends (p : StoreProgram κ β φ α) (s : Noted κ β) (post : α → Noted κ β → Prop) : Prop :=
  ∃ a t, p.run s = .ok (a, t) ∧ post a t

section Rules

variable {p : StoreProgram κ β φ α} {g : α → StoreProgram κ β φ γ} {s : Noted κ β}
  {post post' : α → Noted κ β → Prop} {b : κ} {f : β → β}

theorem run_andThen (p : StoreProgram κ β φ α) (g : α → StoreProgram κ β φ γ) (s : Noted κ β) :
    (p >>= g).run s = p.run s >>= fun r => (g r.1).run r.2 := by
  change (p.andThen g).run s = _
  induction p generalizing s with
  | ret a => rfl
  | look b next ih => exact ih (s.mem b) s
  | change b f next ih => exact ih _
  | scribble b f next ih => exact ih _
  | stop e => rfl

@[simp] theorem ends_pure {a : α} : Ends (pure a : StoreProgram κ β φ α) s post ↔ post a s := by
  constructor
  · rintro ⟨a', t, hrun, hpost⟩
    cases hrun
    exact hpost
  · intro hpost
    exact ⟨a, s, rfl, hpost⟩

theorem ends_bind {post : γ → Noted κ β → Prop} :
    Ends (p >>= g) s post ↔ Ends p s fun a t => Ends (g a) t post := by
  constructor
  · rintro ⟨c, u, hrun, hpost⟩
    rw [run_andThen] at hrun
    cases hp : p.run s with
    | error e =>
      rw [hp] at hrun
      cases hrun
    | ok r =>
      rw [hp] at hrun
      exact ⟨r.1, r.2, hp, c, u, hrun, hpost⟩
  · rintro ⟨a, t, hp, c, u, hg, hpost⟩
    refine ⟨c, u, ?_, hpost⟩
    rw [run_andThen, hp]
    exact hg

@[simp] theorem ends_get {post : β → Noted κ β → Prop} :
    Ends (get b : StoreProgram κ β φ β) s post ↔ post (s.mem b) s := by
  constructor
  · rintro ⟨a, t, hrun, hpost⟩
    cases hrun
    exact hpost
  · intro hpost
    exact ⟨_, _, rfl, hpost⟩

@[simp] theorem ends_modify {post : Unit → Noted κ β → Prop} :
    Ends (modify b f : StoreProgram κ β φ Unit) s post ↔
      post ()
        { s with mem := Function.update s.mem b (f (s.mem b)), notes := s.notes.insert b } := by
  constructor
  · rintro ⟨a, t, hrun, hpost⟩
    cases hrun
    exact hpost
  · intro hpost
    exact ⟨_, _, rfl, hpost⟩

@[simp] theorem ends_modifySilently {post : Unit → Noted κ β → Prop} :
    Ends (modifySilently b f : StoreProgram κ β φ Unit) s post ↔
      post ()
        { s with mem := Function.update s.mem b (f (s.mem b)), scribbles := b :: s.scribbles } := by
  constructor
  · rintro ⟨a, t, hrun, hpost⟩
    cases hrun
    exact hpost
  · intro hpost
    exact ⟨_, _, rfl, hpost⟩

theorem Ends.mono (h : Ends p s post) (himp : ∀ a t, post a t → post' a t) : Ends p s post' := by
  obtain ⟨a, t, hrun, hpost⟩ := h
  exact ⟨a, t, hrun, himp a t hpost⟩

/-- A sequence, from what its first part leaves. -/
theorem Ends.bind {post' : γ → Noted κ β → Prop} (h : Ends p s post)
    (hg : ∀ a t, post a t → Ends (g a) t post') : Ends (p >>= g) s post' :=
  ends_bind.mpr (h.mono hg)

theorem run_nodup {a : α} {t : Noted κ β} (hs : s.notes.Nodup) (h : p.run s = .ok (a, t)) :
    t.notes.Nodup := by
  induction p generalizing s with
  | ret b =>
    cases h
    exact hs
  | look b next ih => exact ih _ hs h
  | change b f next ih => exact ih hs.insert h
  | scribble b f next ih =>
    refine ih ?_ h
    exact hs
  | stop e => cases h

/-- Notes are not taken back. -/
theorem length_notes_le {a : α} {t : Noted κ β} (h : p.run s = .ok (a, t)) :
    s.notes.length ≤ t.notes.length ∧ s.scribbles.length ≤ t.scribbles.length := by
  induction p generalizing s with
  | ret b =>
    cases h
    exact ⟨Nat.le_refl _, Nat.le_refl _⟩
  | look b next ih => exact ih _ h
  | change b f next ih =>
    obtain ⟨hnotes, hscribbles⟩ := ih h
    exact ⟨Nat.le_trans List.length_le_length_insert hnotes, hscribbles⟩
  | scribble b f next ih =>
    obtain ⟨hnotes, hscribbles⟩ := ih h
    exact ⟨hnotes, Nat.le_of_succ_le hscribbles⟩
  | stop e => cases h

theorem Ends.length_notes (h : Ends p s post) (hs : s.notes.Nodup) {n : ℕ}
    (hbound : ∀ a t, post a t → ∃ l : List κ, l.length ≤ n ∧ ∀ b ∈ t.notes, b ∈ l) :
    Ends p s fun a t => post a t ∧ t.notes.length ≤ n := by
  obtain ⟨a, t, hrun, hpost⟩ := h
  obtain ⟨l, hl, hmem⟩ := hbound a t hpost
  exact ⟨a, t, hrun, hpost, Nat.le_trans ((run_nodup hs hrun).subperm hmem).length_le hl⟩

end Rules

end StoreProgram

end AdvancedOperatingSystems.Foundations
