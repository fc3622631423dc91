import Mathlib.Data.Set.Basic
import Mathlib.Tactic.Common

/-!
# Frames shared between agents

Agents map addresses to frames, with or without the right to write. `Exclusive` says that
a writable frame is mapped once, and `Exclusive.step` that this is kept by every change
after which each grant is an old one, is of a frame that was free, is shared without the
right to write, or is of a frame that nobody ever writes.
-/

namespace AdvancedOperatingSystems.Foundations

variable {ι α φ : Type*}

/-- What an agent finds at an address: a frame, and whether it may write to it. -/
structure Grant (φ : Type*) where
  frame : φ
  writable : Bool

/-- The grants of all agents, the free frames, and the frames that nobody may write. -/
structure Sharing (ι α φ : Type*) where
  grant : ι → α → Option (Grant φ)
  free : Set φ
  pinned : Set φ

namespace Sharing

/-- A writable frame is mapped by one agent at one address. -/
structure Exclusive (S : Sharing ι α φ) : Prop where
  unique : ∀ i a g, S.grant i a = some g → g.writable = true →
    ∀ j b h, S.grant j b = some h → h.frame = g.frame → j = i ∧ b = a
  not_free : ∀ i a g, S.grant i a = some g → g.frame ∉ S.free
  not_pinned : ∀ i a g, S.grant i a = some g → g.writable = true → g.frame ∉ S.pinned
  pinned_not_free : ∀ f ∈ S.pinned, f ∉ S.free

/-- Where a grant comes from when the grants `S` become the grants `T`. -/
inductive Origin (S T : Sharing ι α φ) (i : ι) (a : α) (g : Grant φ) : Prop
  | kept (h : Grant φ) (old : S.grant i a = some h) (frame : h.frame = g.frame)
      (writable : g.writable = true → h.writable = true)
  | fresh (free : g.frame ∈ S.free) (taken : g.frame ∉ T.free)
      (only : ∀ j b h, T.grant j b = some h → h.frame = g.frame → j = i ∧ b = a)
  | shared (j : ι) (b : α) (h h' : Grant φ) (old : S.grant j b = some h)
      (now : T.grant j b = some h') (frame : h.frame = g.frame)
      (owner : h'.writable = false) (writable : g.writable = false)
  | pinned (frame : g.frame ∈ S.pinned) (writable : g.writable = false)

variable {S T : Sharing ι α φ}

theorem Origin.not_free {i : ι} {a : α} {g : Grant φ} (hS : S.Exclusive)
    (hfree : T.free ⊆ S.free) (h : Origin S T i a g) : g.frame ∉ T.free := by
  cases h with
  | kept h old frame _ => exact fun hmem => hS.not_free i a h old (frame ▸ hfree hmem)
  | fresh _ taken _ => exact taken
  | shared j b h _ old _ frame _ _ => exact fun hmem => hS.not_free j b h old (frame ▸ hfree hmem)
  | pinned frame _ => exact fun hmem => hS.pinned_not_free _ frame (hfree hmem)

/-- A writable grant was writable before or is of a free frame. -/
theorem Origin.of_writable {i : ι} {a : α} {g : Grant φ} (h : Origin S T i a g)
    (hw : g.writable = true) :
    (∃ h, S.grant i a = some h ∧ h.frame = g.frame ∧ h.writable = true) ∨
      g.frame ∈ S.free ∧ ∀ j b h, T.grant j b = some h → h.frame = g.frame → j = i ∧ b = a := by
  cases h with
  | kept h old frame writable => exact Or.inl ⟨h, old, frame, writable hw⟩
  | fresh free _ only => exact Or.inr ⟨free, only⟩
  | shared _ _ _ _ _ _ _ _ writable =>
    rw [writable] at hw
    cases hw
  | pinned _ writable =>
    rw [writable] at hw
    cases hw

/-- Every change whose grants have an origin keeps writable frames exclusive. -/
theorem Exclusive.step (hS : S.Exclusive) (hfree : T.free ⊆ S.free) (hpinned : T.pinned = S.pinned)
    (horigin : ∀ i a g, T.grant i a = some g → Origin S T i a g) : T.Exclusive where
  unique := by
    intro i a g hg hw j b h hh hframe
    rcases (horigin i a g hg).of_writable hw with ⟨g₀, hg₀, hframe₀, hw₀⟩ | ⟨-, only⟩
    · cases horigin j b h hh with
      | kept h₀ old frame _ => exact hS.unique i a g₀ hg₀ hw₀ j b h₀ old (by rw [frame, hframe, hframe₀])
      | fresh free _ _ =>
        rw [hframe, ← hframe₀] at free
        exact absurd free (hS.not_free i a g₀ hg₀)
      | shared k c h₀ h₁ old now frame owner _ =>
        obtain ⟨rfl, rfl⟩ := hS.unique i a g₀ hg₀ hw₀ k c h₀ old (by rw [frame, hframe, hframe₀])
        rw [hg] at now
        cases now
        rw [owner] at hw
        cases hw
      | pinned frame _ =>
        rw [hframe, ← hframe₀] at frame
        exact absurd frame (hS.not_pinned i a g₀ hg₀ hw₀)
    · exact only j b h hh hframe
  not_free := by
    intro i a g hg
    exact (horigin i a g hg).not_free hS hfree
  not_pinned := by
    intro i a g hg hw
    rw [hpinned]
    rcases (horigin i a g hg).of_writable hw with ⟨g₀, hg₀, hframe₀, hw₀⟩ | ⟨hmem, -⟩
    · exact hframe₀ ▸ hS.not_pinned i a g₀ hg₀ hw₀
    · exact fun h => hS.pinned_not_free _ h hmem
  pinned_not_free := by
    intro f hf hmem
    rw [hpinned] at hf
    exact hS.pinned_not_free f hf (hfree hmem)

end Sharing

end AdvancedOperatingSystems.Foundations
