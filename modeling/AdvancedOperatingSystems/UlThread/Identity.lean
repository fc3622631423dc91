import AdvancedOperatingSystems.UlThread.Bookkeeping

/-!
# The identity of threads

A thread is told by its tid when it destroys itself, and tids are taken from the number
of threads there are. They stay apart as long as no create takes the tid of a thread that
still exists; then every thread keeps its slot until it destroys itself.
-/

namespace AdvancedOperatingSystems.UlThread

open Foundations Library

/-- A create finds a free slot, and a dispatch a thread to prefer to one that is gone; the
tid of the new thread is not in use. -/
def Identifiable (w : Watched) : Event → Prop
  | .create .. => w.sys.lib.freeSlot.isSome ∧
      ∀ i, w.sys.lib.Live i → (w.sys.lib.slot i).tid ≠ w.sys.lib.threadCount
  | .dispatch _ => w.sys.lib.Preferable
  | _ => True

instance decidableIdentifiable (w : Watched) : ∀ e, Decidable (Identifiable w e)
  | .create .. => inferInstanceAs (Decidable (w.sys.lib.freeSlot.isSome = true ∧
      ∀ i, w.sys.lib.Live i → (w.sys.lib.slot i).tid ≠ w.sys.lib.threadCount))
  | .dispatch _ => inferInstanceAs (Decidable w.sys.lib.Preferable)
  | .schedule => isTrue trivial
  | .finish => isTrue trivial
  | .yield .. => isTrue trivial
  | .destroy _ => isTrue trivial

def Library.TidsDistinct (l : Library) : Prop :=
  ∀ i j, l.Live i → l.Live j → (l.slot i).tid = (l.slot j).tid → i = j

/-- A step keeps the tids apart; a destroy frees the slot of its caller and no other, every
other step leaves the threads their slots, and what is dispatched is a thread that has
not destroyed itself. -/
structure KeepsIdentity (w : Watched) (e : Event) (w' : Watched) : Prop where
  before : w.sys.lib.TidsDistinct
  after : w'.sys.lib.TidsDistinct
  destroys : ∀ regs, e = .destroy regs → ∃ i, w.sys.lib.currentThread = some i ∧
    w.sys.lib.Live i ∧ w.owner i = w.running ∧ w'.owner = w.owner ∧
    ∀ j, w'.sys.lib.Live j ↔ w.sys.lib.Live j ∧ j ≠ i
  keeps : (∀ regs, e ≠ .destroy regs) → ∀ j, w.sys.lib.Live j →
    w'.sys.lib.Live j ∧ w'.owner j = w.owner j
  dispatches : ∀ regs, e = .dispatch regs → ∃ i k, w'.sys.lib.currentThread = some i ∧
    w.sys.lib.Live i ∧ w.owner i = some k ∧ w'.running = some k ∧ k ∉ w.destroyed

section Steps

variable {w w' : Watched} {text : ℤ} {e : Event}

/-- With distinct tids a destroy finds the slot of its caller. -/
theorem bookable_of_identifiable (A : Accounted w) (D : w.sys.lib.TidsDistinct)
    (hid : Identifiable w e) (h : watch text w e = .ok w') : Bookable w e := by
  cases e with
  | create start stack args priority ctime => exact hid.1
  | dispatch regs => exact hid
  | schedule => trivial
  | finish => trivial
  | yield ctime regs => trivial
  | destroy regs =>
    obtain ⟨s, hs, -⟩ := bind_ok_iff.mp h
    simp only [step] at hs
    split at hs
    · next i hcontrol hcur =>
      intro i' j hi' htid
      obtain rfl := Option.some.inj (hcur.symm.trans hi')
      obtain ⟨i'', -, hi'', hilive, -⟩ := A.running hcontrol
      obtain rfl := Option.some.inj (hcur.symm.trans hi'')
      have hpos := (A.slots i).resolve_right fun h => hilive h.1
      have hjlive : w.sys.lib.Live j := by
        rcases A.slots j with hj | hj
        · exact A.live_iff.mpr hj.1
        · have := hj.2.1
          omega
      exact (D j i hjlive hilive htid).ge
    · cases hs

theorem TidsDistinct.congr {l l' : Library} (D : l.TidsDistinct)
    (hstate : ∀ j, (l'.slot j).state = (l.slot j).state)
    (htid : ∀ j, (l'.slot j).tid = (l.slot j).tid) :
    l'.TidsDistinct ∧ ∀ j, l.Live j → l'.Live j := by
  have hlive : ∀ j, l'.Live j ↔ l.Live j := by
    intro j
    unfold Library.Live
    rw [hstate]
  refine ⟨fun i j hi hj h => D i j ((hlive i).mp hi) ((hlive j).mp hj) ?_,
    fun j hj => (hlive j).mpr hj⟩
  rwa [htid, htid] at h

theorem keepsIdentity_of_slots {s : System} (D : w.sys.lib.TidsDistinct)
    (hstate : ∀ j, (s.lib.slot j).state = (w.sys.lib.slot j).state)
    (htid : ∀ j, (s.lib.slot j).tid = (w.sys.lib.slot j).tid)
    (hdestroy : ∀ regs, e ≠ .destroy regs) (howner : (record w e s).owner = w.owner)
    (hsys : (record w e s).sys = s)
    (hdispatch : ∀ regs, e = .dispatch regs → ∃ i k, s.lib.currentThread = some i ∧
      w.sys.lib.Live i ∧ w.owner i = some k ∧ (record w e s).running = some k ∧
      k ∉ w.destroyed) : KeepsIdentity w e (record w e s) := by
  obtain ⟨D', hlive⟩ := TidsDistinct.congr D hstate htid
  refine ⟨D, by rwa [hsys], fun regs h => absurd h (hdestroy regs), fun _ j hj => ?_,
    fun regs h => by rw [hsys]; exact hdispatch regs h⟩
  rw [hsys, howner]
  exact ⟨hlive j hj, rfl⟩

theorem keepsIdentity_create (D : w.sys.lib.TidsDistinct) {i : Slot}
    (hi : w.sys.lib.freeSlot = some i)
    (hfresh : ∀ i, w.sys.lib.Live i → (w.sys.lib.slot i).tid ≠ w.sys.lib.threadCount)
    (start stack : BitVec 64) (args : Fin 6 → BitVec 64) (priority : ℤ) (ctime : BitVec 64)
    (control : Control) (regs : Context) :
    KeepsIdentity w (.create start stack args priority ctime)
      (record w (.create start stack args priority ctime)
        ⟨w.sys.lib.ulthreadCreate start stack args priority ctime, control, regs⟩) := by
  have hfree : ¬ w.sys.lib.Live i := fun h => h (freeSlot_spec hi)
  have hslot := ulthreadCreate_slot hi start stack args priority ctime
  have hne : ∀ j, w.sys.lib.Live j → j ≠ i := by
    intro j hj h
    rw [h] at hj
    exact hfree hj
  have hold : ∀ j, j ≠ i →
      (w.sys.lib.ulthreadCreate start stack args priority ctime).slot j = w.sys.lib.slot j := by
    intro j hj
    rw [hslot, if_neg hj]
  have hnew : ((w.sys.lib.ulthreadCreate start stack args priority ctime).slot i).tid =
      w.sys.lib.threadCount := by
    rw [hslot, if_pos rfl]
  refine ⟨D, ?_, fun _ h => (by cases h), fun _ j hj => ?_, fun _ h => (by cases h)⟩
  · simp only [record, hi]
    intro j j' hj hj' htid
    unfold Library.Live at hj hj'
    by_cases h : j = i
    · by_cases h' : j' = i
      · exact h.trans h'.symm
      · rw [h, hnew, hold j' h'] at htid
        rw [hold j' h'] at hj'
        exact absurd htid.symm (hfresh j' hj')
    · by_cases h' : j' = i
      · rw [h', hnew, hold j h] at htid
        rw [hold j h] at hj
        exact absurd htid (hfresh j hj)
      · rw [hold j h] at htid hj
        rw [hold j' h'] at htid hj'
        exact D j j' hj hj' htid
  · simp only [record, hi]
    unfold Library.Live
    rw [hold j (hne j hj), Function.update_of_ne (hne j hj)]
    exact ⟨hj, rfl⟩

theorem keepsIdentity_destroy (A : Accounted w) (D : w.sys.lib.TidsDistinct) {i : Slot}
    (hcontrol : w.sys.control = .thread) (hcur : w.sys.lib.currentThread = some i)
    (hfirst : ∀ j, (w.sys.lib.slot j).tid = (w.sys.lib.slot i).tid → i ≤ j) (regs : Context) :
    KeepsIdentity w (.destroy regs)
      (record w (.destroy regs) (switchToMain (w.sys.lib.ulthreadDestroy i) i regs)) := by
  obtain ⟨i', k, hi', hilive, hown, hrun⟩ := A.running hcontrol
  obtain rfl := Option.some.inj (hcur.symm.trans hi')
  have hslot := destroy_slot hfirst regs
  have hlive : ∀ j, (switchToMain (w.sys.lib.ulthreadDestroy i) i regs).lib.Live j ↔
      w.sys.lib.Live j ∧ j ≠ i := by
    intro j
    unfold Library.Live
    rw [hslot]
    by_cases hj : j = i <;> simp [hj, Uthread.cleared]
  refine ⟨D, fun j j' hj hj' htid => ?_,
    fun _ _ => ⟨i, hcur, hilive, hown.trans hrun.symm, rfl, hlive⟩,
    fun h => absurd rfl (h regs), fun _ h => (by cases h)⟩
  obtain ⟨hj, hne⟩ := (hlive j).mp hj
  obtain ⟨hj', hne'⟩ := (hlive j').mp hj'
  have hold : ∀ j, j ≠ i → ((switchToMain (w.sys.lib.ulthreadDestroy i) i regs).lib.slot j).tid =
      (w.sys.lib.slot j).tid := by
    intro j hj
    rw [hslot, if_neg hj]
  exact D j j' hj hj' ((hold j hne).symm.trans (htid.trans (hold j' hne')))

theorem keepsIdentity_step (A : Accounted w) (D : w.sys.lib.TidsDistinct)
    (hid : Identifiable w e) (h : watch text w e = .ok w') : KeepsIdentity w e w' := by
  have hbook := bookable_of_identifiable A D hid h
  obtain ⟨s, hs, h⟩ := bind_ok_iff.mp h
  cases h
  cases e with
  | create start stack args priority ctime =>
    simp only [step] at hs
    split_ifs at hs
    cases hs
    obtain ⟨i, hi⟩ := Option.isSome_iff_exists.mp hbook
    exact keepsIdentity_create D hi hid.2 start stack args priority ctime _ _
  | schedule =>
    simp only [step] at hs
    split_ifs at hs
    cases hs
    exact keepsIdentity_of_slots D (fun _ => rfl) (fun _ => rfl) (fun _ h => by cases h) rfl rfl
      (fun _ h => by cases h)
  | dispatch regs =>
    obtain ⟨-, -, j, hlive, hcur, -, -, hslot⟩ := dispatch_eq A hs
    obtain ⟨k, -, hown, hnot⟩ := A.owned j (hlive hid)
    have hrun : (record w (.dispatch regs) s).running = some k := by
      simp [record, hcur, hown]
    exact keepsIdentity_of_slots D (fun k => by rw [hslot k]) (fun k => by rw [hslot k])
      (fun _ h => by cases h) rfl rfl (fun _ _ => ⟨j, k, hcur, hlive hid, hown, hrun, hnot⟩)
  | finish =>
    simp only [step] at hs
    split_ifs at hs
    cases hs
    exact keepsIdentity_of_slots D (fun _ => rfl) (fun _ => rfl) (fun _ h => by cases h) rfl rfl
      (fun _ h => by cases h)
  | yield ctime regs =>
    simp only [step] at hs
    split at hs
    · next i hcontrol hcur =>
      cases hs
      exact keepsIdentity_of_slots D (fun j => (yield_slot w.sys.lib i ctime regs j).1)
        (fun j => (yield_slot w.sys.lib i ctime regs j).2.1) (fun _ h => by cases h) rfl rfl
        (fun _ h => by cases h)
    · cases hs
  | destroy regs =>
    simp only [step] at hs
    split at hs
    · next i hcontrol hcur =>
      cases hs
      exact keepsIdentity_destroy A D hcontrol hcur (fun j hj => hbook i j hcur hj) regs
    · cases hs

end Steps

theorem tidsDistinct_boot (schedalgo : Schedalgo) :
    (Watched.boot schedalgo).sys.lib.TidsDistinct := fun _ _ hi => absurd rfl hi

/-- In a run in which every create finds a free slot and a tid that is not in use, and every
dispatch a thread to prefer to one that is gone, the threads keep their identity. -/
theorem threads_keep_identity (text : ℤ) (schedalgo : Schedalgo) {es : List Event}
    (h : Guarded (watch text) Identifiable (Watched.boot schedalgo) es) :
    (Watched.boot schedalgo).sys.lib.TidsDistinct ∧
      Guarded (watch text) (fun w e => ∀ w', watch text w e = .ok w' → KeepsIdentity w e w')
        (Watched.boot schedalgo) es := by
  refine ⟨tidsDistinct_boot schedalgo, ?_⟩
  refine h.imp (I := fun w => Accounted w ∧ w.sys.lib.TidsDistinct) ?_ ?_
    ⟨accounted_boot schedalgo, tidsDistinct_boot schedalgo⟩
  · intro w e w' ⟨A, D⟩ hid hw
    exact ⟨accounted_step A (bookable_of_identifiable A D hid hw) hw,
      (keepsIdentity_step A D hid hw).after⟩
  · intro w e ⟨A, D⟩ hid w' hw
    exact keepsIdentity_step A D hid hw

/-- Of two threads the first yields and the second destroys itself; the first creates a third one,
which gets the tid that has become free. -/
def threeThreads : List Event :=
  [.create 0 0 (fun _ => 0) 0 1, .create 0 0 (fun _ => 0) 0 2, .schedule, .dispatch fun _ => 0,
    .yield 3 fun _ => 0, .dispatch fun _ => 0, .destroy fun _ => 0, .dispatch fun _ => 0,
    .create 0 0 (fun _ => 0) 0 4]

theorem sample_threads_keep_identity : (Watched.boot .roundrobin).sys.lib.TidsDistinct ∧
    Guarded (watch 0) (fun w e => ∀ w', watch 0 w e = .ok w' → KeepsIdentity w e w')
      (Watched.boot .roundrobin) threeThreads := by
  apply threads_keep_identity
  decide +kernel

/-- The first of two threads ends, and the second creates a third. -/
def reusedTid : List Event :=
  [.create 0 0 (fun _ => 0) 0 1, .create 0 0 (fun _ => 0) 0 2, .schedule, .dispatch fun _ => 0,
    .destroy fun _ => 0, .dispatch fun _ => 0, .create 0 0 (fun _ => 0) 0 3]

/-- The third thread gets the tid of the second. -/
theorem tid_taken_twice : ∃ w, exec (watch 0) (Watched.boot .fcfs) reusedTid = .ok w ∧
    w.sys.lib.Live 0 ∧ w.sys.lib.Live 1 ∧ w.owner 0 = some 2 ∧ w.owner 1 = some 1 ∧
    (w.sys.lib.slot 0).tid = 2 ∧ (w.sys.lib.slot 1).tid = 2 := by
  have hrun : (exec (watch 0) (Watched.boot .fcfs) reusedTid).toOption.map
      (fun w => (decide (w.sys.lib.Live 0), decide (w.sys.lib.Live 1), w.owner 0, w.owner 1)) =
      some (true, true, some 2, some 1) := by
    decide +kernel
  have htids : (exec (watch 0) (Watched.boot .fcfs) reusedTid).toOption.map
      (fun w => ((w.sys.lib.slot 0).tid, (w.sys.lib.slot 1).tid)) = some (2, 2) := by
    decide +kernel
  cases hexec : exec (watch 0) (Watched.boot .fcfs) reusedTid with
  | error e =>
    rw [hexec] at hrun
    cases hrun
  | ok w =>
    rw [hexec] at hrun htids
    simp only [Except.toOption, Option.map_some, Option.some.injEq, Prod.mk.injEq,
      decide_eq_true_eq] at hrun htids
    exact ⟨w, rfl, hrun.1, hrun.2.1, hrun.2.2.1, hrun.2.2.2, htids⟩

end AdvancedOperatingSystems.UlThread
