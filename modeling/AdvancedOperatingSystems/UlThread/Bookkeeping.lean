import AdvancedOperatingSystems.Foundations.Scan
import AdvancedOperatingSystems.UlThread.Library

/-!
# What the scheduler keeps account of

`thread_count` is kept apart from the states of the slots, and `ulthread_schedule` goes by
it alone. `Watched` numbers the threads in the order of their creation and records which
thread each slot was given to, which one is running, and which have called
`ulthread_destroy`.
-/

namespace AdvancedOperatingSystems.UlThread

open Foundations Library

/-- A system with the history of its threads. -/
structure Watched where
  sys : System
  owner : Slot → Option ℕ
  running : Option ℕ
  created : ℕ
  destroyed : List ℕ

def Watched.boot (schedalgo : Schedalgo) : Watched :=
  ⟨System.boot schedalgo, fun _ => none, none, 0, []⟩

def Library.Live (l : Library) (i : Slot) : Prop := (l.slot i).state ≠ .free

instance (l : Library) (i : Slot) : Decidable (l.Live i) := inferInstanceAs (Decidable (_ ≠ _))

/-- The slot that `ulthread_create` takes. -/
def Library.freeSlot (l : Library) : Option Slot := first fun i => (l.slot i).state = .free

section Watch

variable (text : ℤ)

/-- A step with its entry in the history. -/
def record (w : Watched) (e : Event) (s : System) : Watched :=
  match e with
  | .create .. =>
      match w.sys.lib.freeSlot with
      | some i => { w with sys := s, owner := Function.update w.owner i (some w.created),
                           created := w.created + 1 }
      | none => { w with sys := s }
  | .dispatch _ => { w with sys := s, running := s.lib.currentThread.bind w.owner }
  | .destroy _ => { w with sys := s, destroyed := w.running.toList ++ w.destroyed }
  | _ => { w with sys := s }

def watch (w : Watched) (e : Event) : Except String Watched :=
  step text w.sys e >>= fun s => .ok (record w e s)

end Watch

/-- An iteration of `ulthread_schedule` finds a thread that is to be preferred to the slot
of a thread that is gone, whose time is the greatest there is. -/
def Library.Preferable (l : Library) : Prop :=
  l.mainThread.schedalgo ≠ .priority → ∀ i, l.currentThread = some i → ¬ l.Live i →
    ∃ j, l.Live j ∧ (l.slot j).time ≠ -1

instance (l : Library) : Decidable l.Preferable :=
  inferInstanceAs (Decidable (_ → ∀ i, l.currentThread = some i → ¬ l.Live i →
    ∃ j, l.Live j ∧ (l.slot j).time ≠ -1))

/-- A create finds a free slot, a destroy finds the slot of the thread that calls it, and a
dispatch finds a thread to prefer to one that is gone. -/
def Bookable (w : Watched) : Event → Prop
  | .create .. => w.sys.lib.freeSlot.isSome
  | .destroy _ => ∀ i j, w.sys.lib.currentThread = some i →
      (w.sys.lib.slot j).tid = (w.sys.lib.slot i).tid → i ≤ j
  | .dispatch _ => w.sys.lib.Preferable
  | _ => True

instance decidableBookable (w : Watched) : ∀ e, Decidable (Bookable w e)
  | .create .. => inferInstanceAs (Decidable (w.sys.lib.freeSlot.isSome = true))
  | .destroy _ => inferInstanceAs (Decidable (∀ i j, w.sys.lib.currentThread = some i →
      (w.sys.lib.slot j).tid = (w.sys.lib.slot i).tid → i ≤ j))
  | .dispatch _ => inferInstanceAs (Decidable w.sys.lib.Preferable)
  | .schedule => isTrue trivial
  | .finish => isTrue trivial
  | .yield _ _ => isTrue trivial

def Library.live (l : Library) : Finset Slot := Finset.univ.filter l.Live

/-- What the library keeps account of, and what it can rely on. -/
structure Accounted (w : Watched) : Prop where
  count : w.sys.lib.threadCount = 1 + w.sys.lib.live.card
  slots : ∀ i, (w.sys.lib.slot i).state = .runnable ∧ 1 ≤ (w.sys.lib.slot i).tid ∨
    (w.sys.lib.slot i).state = .free ∧ (w.sys.lib.slot i).tid = -1 ∧ (w.sys.lib.slot i).time = -1
  last : w.sys.control ≠ .thread → w.sys.lib.lastYieldedThread = w.sys.lib.currentThread
  running : w.sys.control = .thread → ∃ i k, w.sys.lib.currentThread = some i ∧
    w.sys.lib.Live i ∧ w.owner i = some k ∧ w.running = some k
  past : ∀ k ∈ w.destroyed, k < w.created
  owned : ∀ i, w.sys.lib.Live i → ∃ k < w.created, w.owner i = some k ∧ k ∉ w.destroyed
  apart : ∀ i j, w.sys.lib.Live i → w.sys.lib.Live j → w.owner i = w.owner j → i = j
  present : ∀ k < w.created, k ∉ w.destroyed → ∃ i, w.sys.lib.Live i ∧ w.owner i = some k

section Slots

variable {l : Library} {i j : Slot} {u : Uthread}

@[simp] theorem slot_setSlot : (l.setSlot i u).slot j = if j = i then u else l.slot j := by
  simp [Library.setSlot, Library.slot, Function.update_apply]

@[simp] theorem setSlot_currentThread : (l.setSlot i u).currentThread = l.currentThread := rfl

@[simp] theorem setSlot_lastYieldedThread :
    (l.setSlot i u).lastYieldedThread = l.lastYieldedThread := rfl

@[simp] theorem setSlot_threadCount : (l.setSlot i u).threadCount = l.threadCount := rfl

@[simp] theorem setSlot_schedalgo :
    (l.setSlot i u).mainThread.schedalgo = l.mainThread.schedalgo := rfl

theorem mem_live : i ∈ l.live ↔ l.Live i := by simp [Library.live]

/-- A slot found by a scan meets the condition, and no slot before it does. -/
theorem first_eq_some {p : Slot → Bool} (h : first p = some i) :
    p i = true ∧ ∀ j < i, p j = false := by
  refine ⟨List.find?_some h, fun j hj => ?_⟩
  obtain ⟨-, k, hk, hki, hbefore⟩ := List.find?_eq_some_iff_getElem.mp h
  simp only [List.getElem_finRange] at hki hbefore
  have hjk : j.val < k := by
    have := congrArg Fin.val hki
    have hlt : j.val < i.val := hj
    simp only [Fin.val_cast] at this
    omega
  simpa using hbefore j.val hjk

theorem first_isSome {p : Slot → Bool} (h : p i = true) : (first p).isSome := by
  unfold first
  rw [List.find?_isSome]
  exact ⟨i, List.mem_finRange i, h⟩

theorem first_eq {p : Slot → Bool} (h : p i = true) (hfirst : ∀ j, p j = true → i ≤ j) :
    first p = some i := by
  obtain ⟨j, hj⟩ := Option.isSome_iff_exists.mp (first_isSome h)
  obtain ⟨hp, hbefore⟩ := first_eq_some hj
  rcases (hfirst j hp).lt_or_eq with hlt | rfl
  · rw [hbefore i hlt] at h
    cases h
  · exact hj

theorem freeSlot_spec (h : l.freeSlot = some i) : (l.slot i).state = .free := by
  have := (first_eq_some h).1
  simpa using this

end Slots

section Calls

variable {l : Library} {i j : Slot}

theorem ulthreadCreate_some (h : l.freeSlot = some i) (start stack : BitVec 64)
    (args : Fin 6 → BitVec 64) (priority : ℤ) (ctime : BitVec 64) :
    l.ulthreadCreate start stack args priority ctime =
      { l.setSlot i ⟨l.threadCount, priority, ctime, start, stack, .runnable,
        startContext start stack args⟩ with threadCount := l.threadCount + 1 } := by
  have h' : (first fun i => (l.slot i).state = .free) = some i := h
  simp [ulthreadCreate, h']

theorem ulthreadCreate_slot (h : l.freeSlot = some i) (start stack : BitVec 64)
    (args : Fin 6 → BitVec 64) (priority : ℤ) (ctime : BitVec 64) (j : Slot) :
    (l.ulthreadCreate start stack args priority ctime).slot j =
      if j = i then ⟨l.threadCount, priority, ctime, start, stack, .runnable,
        startContext start stack args⟩
      else l.slot j := by
  rw [ulthreadCreate_some h]
  exact slot_setSlot

theorem ulthreadDestroy_own (h : ∀ j, (l.slot j).tid = (l.slot i).tid → i ≤ j) :
    l.ulthreadDestroy i =
      { l.setSlot i (l.slot i).cleared with
        lastYieldedThread := some i
        threadCount := l.threadCount - 1 } := by
  have hfirst : (first fun j => (l.slot j).tid = (l.slot i).tid) = some i :=
    first_eq (by simp) fun j hj => h j (by simpa using hj)
  have hslot : ∀ j, ({ l with lastYieldedThread := some i } : Library).slot j = l.slot j :=
    fun _ => rfl
  simp only [ulthreadDestroy, hslot, hfirst]
  rfl

theorem destroy_slot (h : ∀ j, (l.slot j).tid = (l.slot i).tid → i ≤ j) (regs : Context)
    (j : Slot) : (switchToMain (l.ulthreadDestroy i) i regs).lib.slot j =
      if j = i then { (l.slot i).cleared with context := regs } else l.slot j := by
  rw [switchToMain, ulthreadDestroy_own h]
  by_cases hj : j = i <;> simp [saveContext, Library.slot, Library.setSlot, hj]

theorem yield_slot (l : Library) (i : Slot) (ctime : BitVec 64) (regs : Context) (j : Slot) :
    ((switchToMain (l.ulthreadYield i ctime) i regs).lib.slot j).state = (l.slot j).state ∧
      ((switchToMain (l.ulthreadYield i ctime) i regs).lib.slot j).tid = (l.slot j).tid ∧
      (j ≠ i → ((switchToMain (l.ulthreadYield i ctime) i regs).lib.slot j).time =
        (l.slot j).time) := by
  unfold switchToMain ulthreadYield
  by_cases hj : j = i
  · subst hj
    split_ifs <;> simp [saveContext, Library.slot, Library.setSlot]
  · split_ifs <;> simp [saveContext, Library.slot, Library.setSlot, hj]

theorem preferred_cases (l : Library) (text : ℤ) (c j : Slot) :
    l.preferred text c j = c ∨ l.preferred text c j = j ∧ l.Live j := by
  have hrun : ¬ (l.slot j).state ≠ .runnable → l.Live j := by
    intro h
    rw [not_not] at h
    simp [Library.Live, h]
  unfold preferred
  split
  all_goals
    first | unfold earlier | unfold prior
    split_ifs with h
  all_goals simp [*]

theorem preferred_live {text : ℤ} (c j : Slot) (h : l.Live c) : l.Live (l.preferred text c j) := by
  rcases preferred_cases l text c j with hcase | ⟨hcase, hj⟩
  · rwa [hcase]
  · rwa [hcase]

theorem pick_live {text : ℤ} (h : l.Live i) : l.Live (l.pick text i) :=
  foldl_keeps preferred_live _ h

theorem pick_live_of_preferred {text : ℤ} (hj : l.Live j) (h : l.preferred text i j = j) :
    l.Live (l.pick text i) := by
  refine foldl_reaches preferred_live (fun k => ?_) (List.mem_finRange j) (by rwa [h])
  rcases preferred_cases l text i k with hk | ⟨hk, hlive⟩
  · exact Or.inl hk
  · exact Or.inr (by rwa [hk])

end Calls

section Dispatch

variable {w : Watched} {text : ℤ} {i : Slot}

theorem Accounted.live_iff (A : Accounted w) : w.sys.lib.Live i ↔
    (w.sys.lib.slot i).state = .runnable := by
  unfold Library.Live
  rcases A.slots i with h | h <;> simp [h.1]

theorem Accounted.exists_live (A : Accounted w) (h : 1 < w.sys.lib.threadCount) :
    ∃ j, w.sys.lib.Live j := by
  have hcard : 0 < w.sys.lib.live.card := by
    have := A.count
    omega
  obtain ⟨j, hj⟩ := Finset.card_pos.mp hcard
  exact ⟨j, mem_live.mp hj⟩

/-- The slot of a thread that is gone is given up for one that is preferred to it. -/
theorem Accounted.pick_gone (A : Accounted w) (hlast : w.sys.lib.lastYieldedThread =
      w.sys.lib.currentThread) (hcur : w.sys.lib.currentThread = some i)
    (hgone : ¬ w.sys.lib.Live i) (hpref : w.sys.lib.Preferable)
    (hlive : ∃ j, w.sys.lib.Live j) : w.sys.lib.Live (w.sys.lib.pick text i) := by
  have hfree := (A.slots i).resolve_left fun h => hgone (A.live_iff.mpr h.1)
  by_cases halgo : w.sys.lib.mainThread.schedalgo = .priority
  · obtain ⟨j, hj⟩ := hlive
    have hpos := (A.slots j).resolve_right fun h => hj h.1
    have hne : (w.sys.lib.slot j).tid ≠ -1 := by omega
    apply pick_live_of_preferred hj
    simp [preferred, halgo, prior, lastTid, hlast, hcur, hpos.1, hfree.2.1, hne]
  · obtain ⟨j, hj, hne⟩ := hpref halgo i hcur hgone
    have hlt : (w.sys.lib.slot j).time < (w.sys.lib.slot i).time := by
      rw [hfree.2.2]
      bv_omega
    have hearlier : w.sys.lib.earlier i j = j := by
      simp [earlier, A.live_iff.mp hj, hlt]
    apply pick_live_of_preferred hj
    unfold preferred
    split
    · exact hearlier
    · exact hearlier
    · contradiction

theorem Accounted.dispatch (A : Accounted w) (hcontrol : w.sys.control = .scheduler)
    (hcount : 1 < w.sys.lib.threadCount) : ∃ i, w.sys.lib.candidate = some i ∧
      (w.sys.lib.Preferable → w.sys.lib.Live (w.sys.lib.pick text i)) := by
  obtain ⟨j, hj⟩ := A.exists_live hcount
  unfold candidate
  cases hcur : w.sys.lib.currentThread with
  | none =>
    have hsome := first_isSome (p := fun i => (w.sys.lib.slot i).state = .runnable) (i := j)
      (by simpa using A.live_iff.mp hj)
    obtain ⟨i, hi⟩ := Option.isSome_iff_exists.mp hsome
    have hrun := (first_eq_some hi).1
    refine ⟨i, hi, fun _ => pick_live (A.live_iff.mpr (by simpa using hrun))⟩
  | some i =>
    refine ⟨i, rfl, fun hpref => ?_⟩
    by_cases hi : w.sys.lib.Live i
    · exact pick_live hi
    · exact A.pick_gone (A.last (by rw [hcontrol]; decide)) hcur hi hpref ⟨j, hj⟩

end Dispatch

section Invariant

variable {w w' : Watched} {text : ℤ}

theorem accounted_boot (schedalgo : Schedalgo) : Accounted (Watched.boot schedalgo) := by
  have hfree : ∀ i, ¬ (Watched.boot schedalgo).sys.lib.Live i := fun i h => h rfl
  have hempty : (Watched.boot schedalgo).sys.lib.live = ∅ :=
    Finset.eq_empty_of_forall_notMem fun i hi => hfree i (mem_live.mp hi)
  refine ⟨?_, fun i => Or.inr ⟨rfl, rfl, rfl⟩, fun _ => rfl, fun h => (by cases h),
    fun _ h => (by cases h), fun i h => absurd h (hfree i), fun i _ h => absurd h (hfree i),
    fun k hk => absurd hk (Nat.not_lt_zero k)⟩
  rw [hempty]
  rfl

theorem Accounted.owner_lt (A : Accounted w) {i : Slot} {k : ℕ} (hi : w.sys.lib.Live i)
    (hk : w.owner i = some k) : k < w.created ∧ k ∉ w.destroyed := by
  obtain ⟨k', hlt, hk', hnot⟩ := A.owned i hi
  obtain rfl := Option.some.inj (hk'.symm.trans hk)
  exact ⟨hlt, hnot⟩

theorem Accounted.create (A : Accounted w) {i : Slot} (hi : w.sys.lib.freeSlot = some i)
    (start stack : BitVec 64) (args : Fin 6 → BitVec 64) (priority : ℤ) (ctime : BitVec 64) :
    Accounted ⟨⟨w.sys.lib.ulthreadCreate start stack args priority ctime, w.sys.control,
      w.sys.regs⟩, Function.update w.owner i (some w.created), w.running, w.created + 1,
      w.destroyed⟩ := by
  have hfree : ¬ w.sys.lib.Live i := fun h => h (freeSlot_spec hi)
  have hslot := ulthreadCreate_slot hi start stack args priority ctime
  have heq := ulthreadCreate_some hi start stack args priority ctime
  generalize w.sys.lib.ulthreadCreate start stack args priority ctime = l at hslot heq
  have hlive : ∀ j, l.Live j ↔ j = i ∨ w.sys.lib.Live j := by
    intro j
    unfold Library.Live
    rw [hslot]
    by_cases hj : j = i <;> simp [hj]
  have hself : Function.update w.owner i (some w.created) i = some w.created :=
    Function.update_self ..
  have howner : ∀ j, w.sys.lib.Live j →
      Function.update w.owner i (some w.created) j = w.owner j := by
    intro j hj
    refine Function.update_of_ne (fun h => hfree ?_) _ _
    rwa [h] at hj
  have hset : l.live = insert i w.sys.lib.live := by
    ext j
    simp [mem_live, hlive]
  have hcount : l.threadCount = w.sys.lib.threadCount + 1 := by rw [heq]
  have hcur : l.currentThread = w.sys.lib.currentThread := by
    rw [heq]
    rfl
  have hlast : l.lastYieldedThread = w.sys.lib.lastYieldedThread := by
    rw [heq]
    rfl
  refine ⟨?_, fun j => ?_, fun h => ?_, fun h => ?_, fun k hk => ?_, fun j hj => ?_,
    fun j j' hj hj' heq => ?_, fun k hk hnot => ?_⟩
  · rw [hset, Finset.card_insert_of_notMem (fun h => hfree (mem_live.mp h)), hcount, A.count]
    push_cast
    omega
  · rw [hslot]
    by_cases hj : j = i
    · have := A.count
      simp only [hj, ↓reduceIte]
      exact Or.inl ⟨trivial, by omega⟩
    · simp only [hj, ↓reduceIte]
      exact A.slots j
  · rw [hcur, hlast]
    exact A.last h
  · obtain ⟨j, k, hj, hjlive, hown, hrun⟩ := A.running h
    exact ⟨j, k, by rw [hcur, hj], (hlive j).mpr (Or.inr hjlive),
      (howner j hjlive).trans hown, hrun⟩
  · exact Nat.lt_succ_of_lt (A.past k hk)
  · rcases (hlive j).mp hj with rfl | hj
    · exact ⟨w.created, Nat.lt_succ_self _, Function.update_self ..,
        fun h => Nat.lt_irrefl _ (A.past _ h)⟩
    · obtain ⟨k, hk, hown, hnot⟩ := A.owned j hj
      exact ⟨k, Nat.lt_succ_of_lt hk, (howner j hj).trans hown, hnot⟩
  · have hnew : ∀ j, w.sys.lib.Live j → w.owner j ≠ some w.created := by
      intro j hj h
      exact Nat.lt_irrefl _ (A.owner_lt hj h).1
    rcases (hlive j).mp hj with hji | hjlive
    · rcases (hlive j').mp hj' with hji' | hjlive'
      · exact hji.trans hji'.symm
      · rw [hji] at heq
        exact absurd ((howner j' hjlive').symm.trans (heq.symm.trans hself)) (hnew j' hjlive')
    · rcases (hlive j').mp hj' with hji' | hjlive'
      · rw [hji'] at heq
        exact absurd ((howner j hjlive).symm.trans (heq.trans hself)) (hnew j hjlive)
      · exact A.apart j j' hjlive hjlive'
          ((howner j hjlive).symm.trans (heq.trans (howner j' hjlive')))
  · rcases Nat.lt_succ_iff_lt_or_eq.mp hk with hlt | rfl
    · obtain ⟨j, hj, hown⟩ := A.present k hlt hnot
      exact ⟨j, (hlive j).mpr (Or.inr hj), (howner j hj).trans hown⟩
    · exact ⟨i, (hlive i).mpr (Or.inl rfl), Function.update_self ..⟩

/-- A change of the library that leaves the states and the tids of the slots, and the times
of those that are free. -/
theorem Accounted.congr (A : Accounted w) {l : Library} {control : Control} {regs : Context}
    {running : Option ℕ} (hcount : l.threadCount = w.sys.lib.threadCount)
    (hstate : ∀ j, (l.slot j).state = (w.sys.lib.slot j).state ∧
      (l.slot j).tid = (w.sys.lib.slot j).tid ∧
      ((w.sys.lib.slot j).state = .free → (l.slot j).time = (w.sys.lib.slot j).time))
    (hlast : control ≠ .thread → l.lastYieldedThread = l.currentThread)
    (hrun : control = .thread → ∃ i, l.currentThread = some i ∧ w.sys.lib.Live i ∧
      running = w.owner i) :
    Accounted ⟨⟨l, control, regs⟩, w.owner, running, w.created, w.destroyed⟩ := by
  have hlive : ∀ j, l.Live j ↔ w.sys.lib.Live j := by
    intro j
    unfold Library.Live
    rw [(hstate j).1]
  have hset : l.live = w.sys.lib.live := by
    ext j
    simp [mem_live, hlive]
  refine ⟨?_, fun j => ?_, hlast, fun h => ?_, A.past, fun j hj => A.owned j ((hlive j).mp hj),
    fun j j' hj hj' => A.apart j j' ((hlive j).mp hj) ((hlive j').mp hj'), fun k hk hnot => ?_⟩
  · rw [hset, hcount]
    exact A.count
  · obtain ⟨h₁, h₂, h₃⟩ := hstate j
    rw [h₁, h₂]
    rcases A.slots j with h | h
    · exact Or.inl h
    · exact Or.inr ⟨h.1, h.2.1, (h₃ h.1).trans h.2.2⟩
  · obtain ⟨i, hi, hilive, hrunning⟩ := hrun h
    obtain ⟨k, -, hown, -⟩ := A.owned i hilive
    exact ⟨i, k, hi, (hlive i).mpr hilive, hown, hrunning.trans hown⟩
  · obtain ⟨j, hj, hown⟩ := A.present k hk hnot
    exact ⟨j, (hlive j).mpr hj, hown⟩

/-- A destroy that clears the slot of its caller. -/
theorem Accounted.destroy (A : Accounted w) {i : Slot} (hcontrol : w.sys.control = .thread)
    (hcur : w.sys.lib.currentThread = some i)
    (hfirst : ∀ j, (w.sys.lib.slot j).tid = (w.sys.lib.slot i).tid → i ≤ j) (regs : Context) :
    Accounted ⟨switchToMain (w.sys.lib.ulthreadDestroy i) i regs, w.owner, w.running, w.created,
      w.running.toList ++ w.destroyed⟩ := by
  obtain ⟨i', k, hi', hilive, hown, hrun⟩ := A.running hcontrol
  obtain rfl := Option.some.inj (hcur.symm.trans hi')
  obtain ⟨hklt, hknot⟩ := A.owner_lt hilive hown
  have hslot := destroy_slot hfirst regs
  have heq : (switchToMain (w.sys.lib.ulthreadDestroy i) i regs).lib.threadCount =
      w.sys.lib.threadCount - 1 ∧
      (switchToMain (w.sys.lib.ulthreadDestroy i) i regs).lib.lastYieldedThread =
        (switchToMain (w.sys.lib.ulthreadDestroy i) i regs).lib.currentThread := by
    rw [switchToMain, ulthreadDestroy_own hfirst]
    exact ⟨rfl, hcur.symm⟩
  have hcontrol' : (switchToMain (w.sys.lib.ulthreadDestroy i) i regs).control = .scheduler := rfl
  generalize switchToMain (w.sys.lib.ulthreadDestroy i) i regs = s at hslot heq hcontrol'
  obtain ⟨l, control, regs'⟩ := s
  simp only at hslot heq hcontrol'
  rw [hrun]
  have hlive : ∀ j, l.Live j ↔ j ≠ i ∧ w.sys.lib.Live j := by
    intro j
    unfold Library.Live
    rw [hslot]
    by_cases hj : j = i <;> simp [hj, Uthread.cleared]
  have hset : l.live = w.sys.lib.live.erase i := by
    ext j
    simp [mem_live, hlive]
  refine ⟨?_, fun j => ?_, fun h => ?_, fun h => ?_, fun k' hk' => ?_, fun j hj => ?_,
    fun j j' hj hj' heq => ?_, fun k' hk' hnot => ?_⟩
  · have hpos : 0 < w.sys.lib.live.card := Finset.card_pos.mpr ⟨i, mem_live.mpr hilive⟩
    rw [hset, Finset.card_erase_of_mem (mem_live.mpr hilive), heq.1, A.count]
    omega
  · rw [hslot]
    by_cases hj : j = i
    · simp only [hj, ↓reduceIte]
      exact Or.inr ⟨rfl, rfl, rfl⟩
    · simp only [hj, ↓reduceIte]
      exact A.slots j
  · exact heq.2
  · rw [hcontrol'] at h
    cases h
  · rcases List.mem_append.mp hk' with h | h
    · obtain rfl : k' = k := by simpa using h
      exact hklt
    · exact A.past k' h
  · obtain ⟨hne, hjlive⟩ := (hlive j).mp hj
    obtain ⟨k', hk', hown', hnot⟩ := A.owned j hjlive
    refine ⟨k', hk', hown', fun h => ?_⟩
    rcases List.mem_append.mp h with h | h
    · have hk : k' = k := by simpa using h
      rw [hk] at hown'
      exact hne (A.apart j i hjlive hilive (hown'.trans hown.symm))
    · exact hnot h
  · exact A.apart j j' ((hlive j).mp hj).2 ((hlive j').mp hj').2 heq
  · rw [List.mem_append, not_or] at hnot
    obtain ⟨j, hj, hown'⟩ := A.present k' hk' hnot.2
    refine ⟨j, (hlive j).mpr ⟨fun h => ?_, hj⟩, hown'⟩
    subst h
    obtain rfl := Option.some.inj (hown.symm.trans hown')
    exact hnot.1 (by simp)

theorem dispatch_eq (A : Accounted w) {regs : Context} {s : System}
    (h : step text w.sys (.dispatch regs) = .ok s) :
    w.sys.control = .scheduler ∧ 1 < w.sys.lib.threadCount ∧ ∃ j,
      (w.sys.lib.Preferable → w.sys.lib.Live j) ∧ s.lib.currentThread = some j ∧
      s.lib.threadCount = w.sys.lib.threadCount ∧ s.control = .thread ∧
      ∀ k, s.lib.slot k = w.sys.lib.slot k := by
  simp only [step] at h
  split_ifs at h with hcond
  obtain ⟨i, hi, hlive⟩ := @Accounted.dispatch w text A hcond.1 hcond.2
  rw [hi] at h
  cases h
  exact ⟨hcond.1, hcond.2, w.sys.lib.pick text i, hlive, rfl, rfl, rfl, fun k => rfl⟩

theorem accounted_step (A : Accounted w) {e : Event} (hbook : Bookable w e)
    (h : watch text w e = .ok w') : Accounted w' := by
  obtain ⟨s, hs, h⟩ := bind_ok_iff.mp h
  cases h
  cases e with
  | create start stack args priority ctime =>
    simp only [step] at hs
    split_ifs at hs
    cases hs
    obtain ⟨i, hi⟩ := Option.isSome_iff_exists.mp hbook
    simp only [record, hi]
    exact A.create hi start stack args priority ctime
  | schedule =>
    simp only [step] at hs
    split_ifs at hs with hmain
    cases hs
    exact A.congr rfl (fun _ => ⟨rfl, rfl, fun _ => rfl⟩)
      (fun _ => A.last (by rw [hmain]; decide)) (fun h => by cases h)
  | dispatch regs =>
    obtain ⟨-, -, j, hlive, hcur, hcount, hcontrol, hslot⟩ := dispatch_eq A hs
    have hstate : ∀ k, (s.lib.slot k).state = (w.sys.lib.slot k).state ∧
        (s.lib.slot k).tid = (w.sys.lib.slot k).tid ∧
        ((w.sys.lib.slot k).state = .free → (s.lib.slot k).time = (w.sys.lib.slot k).time) := by
      intro k
      rw [hslot k]
      exact ⟨rfl, rfl, fun _ => rfl⟩
    refine @Accounted.congr w A s.lib s.control s.regs _ hcount hstate
      (fun h => absurd hcontrol h) fun _ => ⟨j, hcur, hlive hbook, ?_⟩
    simp [hcur]
  | finish =>
    simp only [step] at hs
    split_ifs at hs with hcond
    cases hs
    exact A.congr rfl (fun _ => ⟨rfl, rfl, fun _ => rfl⟩)
      (fun _ => A.last (by rw [hcond.1]; decide)) (fun h => by cases h)
  | yield ctime regs =>
    simp only [step] at hs
    split at hs
    · next i hcontrol hcur =>
      cases hs
      obtain ⟨i', k, hi', hilive, -, -⟩ := A.running hcontrol
      obtain rfl := Option.some.inj (hcur.symm.trans hi')
      refine A.congr ?_ (fun j => ?_) (fun _ => ?_) (fun h => by cases h)
      · unfold ulthreadYield saveContext
        split_ifs <;> rfl
      · obtain ⟨hstate, htid, htime⟩ := yield_slot w.sys.lib i ctime regs j
        refine ⟨hstate, htid, fun hfree => htime fun h => ?_⟩
        subst h
        exact hilive hfree
      · unfold ulthreadYield saveContext
        split_ifs <;> exact hcur.symm
    · cases hs
  | destroy regs =>
    simp only [step] at hs
    split at hs
    · next i hcontrol hcur =>
      cases hs
      exact A.destroy hcontrol hcur (fun j hj => hbook i j hcur hj) regs
    · cases hs

end Invariant

/-- `thread_count` counts the runnable slots and `main`, and `ulthread_schedule` returns
exactly when every thread that was created has called `ulthread_destroy`. -/
structure InAccount (text : ℤ) (w : Watched) : Prop where
  count : w.sys.lib.threadCount - 1 =
    (Finset.univ.filter fun i => (w.sys.lib.slot i).state = .runnable).card
  returns : w.sys.control = .scheduler →
    (Returns (step text w.sys .finish) ↔ ∀ k < w.created, k ∈ w.destroyed)
  continues : w.sys.control = .scheduler → ∀ regs,
    (Returns (step text w.sys (.dispatch regs)) ↔ ∃ k < w.created, k ∉ w.destroyed)

/-- A create that finds no free slot changes nothing, and what is dispatched is runnable. -/
structure KeepsAccount (text : ℤ) (w : Watched) (e : Event) (w' : Watched) : Prop where
  before : InAccount text w
  after : InAccount text w'
  full : ∀ start stack args priority ctime, e = .create start stack args priority ctime →
    w.sys.lib.freeSlot = none → w'.sys.lib = w.sys.lib
  target : ∀ regs, e = .dispatch regs → ∃ i, w'.sys.lib.currentThread = some i ∧
    (w.sys.lib.slot i).state = .runnable

section Account

variable {w w' : Watched} {text : ℤ} {e : Event}

theorem Accounted.all_destroyed_iff (A : Accounted w) :
    ¬ 1 < w.sys.lib.threadCount ↔ ∀ k < w.created, k ∈ w.destroyed := by
  have hcard : ¬ 1 < w.sys.lib.threadCount ↔ w.sys.lib.live = ∅ := by
    rw [← Finset.card_eq_zero]
    have := A.count
    omega
  rw [hcard]
  constructor
  · intro hempty k hk
    by_contra hnot
    obtain ⟨i, hi, -⟩ := A.present k hk hnot
    have := mem_live.mpr hi
    rw [hempty] at this
    cases this
  · intro hall
    refine Finset.eq_empty_of_forall_notMem fun i hi => ?_
    obtain ⟨k, hk, -, hnot⟩ := A.owned i (mem_live.mp hi)
    exact hnot (hall k hk)

theorem Accounted.inAccount (A : Accounted w) : InAccount text w := by
  have hiff := A.all_destroyed_iff
  refine ⟨?_, fun hcontrol => ?_, fun hcontrol regs => ?_⟩
  · have hset : (Finset.univ.filter fun i => (w.sys.lib.slot i).state = .runnable) =
        w.sys.lib.live := by
      ext i
      simp [mem_live, A.live_iff]
    rw [hset, A.count]
    omega
  · rw [← hiff]
    by_cases hcount : 1 < w.sys.lib.threadCount <;> simp [step, hcontrol, hcount]
  · have hex : (∃ k < w.created, k ∉ w.destroyed) ↔ 1 < w.sys.lib.threadCount := by
      rw [← not_iff_not, hiff]
      push Not
      exact Iff.rfl
    rw [hex]
    by_cases hcount : 1 < w.sys.lib.threadCount
    · obtain ⟨i, hi, -⟩ := @Accounted.dispatch w text A hcontrol hcount
      simp [step, hcontrol, hcount, hi]
    · simp [step, hcount]

theorem Accounted.keepsAccount (A : Accounted w) (hbook : Bookable w e)
    (h : watch text w e = .ok w') : KeepsAccount text w e w' := by
  have A' := accounted_step A hbook h
  refine ⟨A.inAccount, A'.inAccount, fun start stack args priority ctime he hnone => ?_,
    fun regs he => ?_⟩
  · subst he
    have hsome : w.sys.lib.freeSlot.isSome := hbook
    rw [hnone] at hsome
    cases hsome
  · subst he
    obtain ⟨s, hs, h⟩ := bind_ok_iff.mp h
    cases h
    obtain ⟨-, -, j, hlive, hcur, -⟩ := dispatch_eq A hs
    exact ⟨j, hcur, A.live_iff.mp (hlive hbook)⟩

end Account

/-- Under each of the algorithms, a run keeps the account as long as every create finds a
free slot, every destroy the slot of its caller, and every dispatch a thread to prefer to
one that is gone. -/
theorem runs_keep_account (text : ℤ) (schedalgo : Schedalgo) {es : List Event}
    (h : Guarded (watch text) Bookable (Watched.boot schedalgo) es) :
    InAccount text (Watched.boot schedalgo) ∧
      Guarded (watch text) (fun w e => ∀ w', watch text w e = .ok w' → KeepsAccount text w e w')
        (Watched.boot schedalgo) es := by
  refine ⟨(accounted_boot schedalgo).inAccount, ?_⟩
  exact h.imp (I := Accounted) (fun _ _ _ A hbook hw => accounted_step A hbook hw)
    (fun _ _ A hbook _ hw => A.keepsAccount hbook hw) (accounted_boot schedalgo)

def startThread : List Event :=
  [.create 0 0 (fun _ => 0) 0 0, .schedule, .dispatch fun _ => 0]

/-- The only thread of a run destroys itself. -/
theorem sample_runs_keep_account : InAccount 0 (Watched.boot .fcfs) ∧
    Guarded (watch 0) (fun w e => ∀ w', watch 0 w e = .ok w' → KeepsAccount 0 w e w')
      (Watched.boot .fcfs) (startThread ++ [.destroy fun _ => 0]) := by
  have hcur : (exec (watch 0) (Watched.boot .fcfs) startThread).toOption.map
      (fun w => w.sys.lib.currentThread) = some (some 0) := by
    decide +kernel
  apply runs_keep_account
  rw [Guarded.append]
  constructor
  · have hfree : (Watched.boot .fcfs).sys.lib.freeSlot.isSome := by decide +kernel
    refine ⟨hfree, fun w₁ h₁ => ⟨trivial, fun w₂ h₂ => ⟨?_, fun _ _ => trivial⟩⟩⟩
    cases h₁
    cases h₂
    intro _ i hi
    cases hi
  · intro w hw
    rw [hw] at hcur
    have hzero : w.sys.lib.currentThread = some 0 := Option.some.inj hcur
    refine ⟨fun i j hi _ => ?_, fun _ _ => trivial⟩
    obtain rfl := Option.some.inj (hi.symm.trans hzero)
    exact Fin.zero_le j

/-- A create of a hundred and first thread is counted. -/
theorem full_create_counts : ∃ s s',
    exec (step 0) (System.boot .roundrobin)
      (List.replicate 100 (.create 0 0 (fun _ => 0) 0 0)) = .ok s ∧
    s.lib.freeSlot = none ∧ step 0 s (.create 0 0 (fun _ => 0) 0 0) = .ok s' ∧
    s'.lib.threadCount = s.lib.threadCount + 1 ∧ s'.lib ≠ s.lib := by
  have hrun : (exec (step 0) (System.boot .roundrobin)
      (List.replicate 100 (.create 0 0 (fun _ => 0) 0 0))).toOption.map
        (fun s => (s.lib.freeSlot, s.control)) = some (none, .main) := by
    decide +kernel
  cases hexec : exec (step 0) (System.boot .roundrobin)
      (List.replicate 100 (.create 0 0 (fun _ => 0) 0 0)) with
  | error e =>
    rw [hexec] at hrun
    cases hrun
  | ok s =>
    rw [hexec] at hrun
    obtain ⟨hfull, hmain⟩ := Prod.mk.inj (Option.some.inj hrun)
    have hcount : (s.lib.ulthreadCreate 0 0 (fun _ => 0) 0 0).threadCount =
        s.lib.threadCount + 1 := by
      have hnone : (first fun i => (s.lib.slot i).state = .free) = none := hfull
      simp [ulthreadCreate, hnone]
    refine ⟨s, { s with lib := s.lib.ulthreadCreate 0 0 (fun _ => 0) 0 0 }, rfl, hfull, ?_,
      hcount, fun heq => ?_⟩
    · rw [step, if_neg (by rw [hmain]; decide)]
    · have hlib : s.lib.ulthreadCreate 0 0 (fun _ => 0) 0 0 = s.lib := heq
      rw [hlib] at hcount
      omega

end AdvancedOperatingSystems.UlThread
