import AdvancedOperatingSystems.UlThread.Bookkeeping

/-!
# The turns of the threads

The history that the scheduling algorithms are judged by: the value of the clock, whether a
dispatch follows a yield, which threads have been runnable since the last dispatch of a
thread without a dispatch of their own, and what was dispatched last.
-/

namespace AdvancedOperatingSystems.UlThread

open Foundations Library

def Watched.threads (w : Watched) : List ℕ :=
  (List.finRange MAXULTHREADS).filterMap fun i => if w.sys.lib.Live i then w.owner i else none

/-- A system with the history of its dispatches. -/
structure Turns where
  watched : Watched
  now : BitVec 64
  yielded : Bool
  waiting : ℕ → List ℕ
  dispatched : Option (ℕ × BitVec 64)
  ended : Bool

def Turns.boot (schedalgo : Schedalgo) : Turns :=
  ⟨Watched.boot schedalgo, 0, false, fun _ => [], none, false⟩

namespace Turns

variable (r : Turns)

def lib : Library := r.watched.sys.lib

/-- The time that is recorded for the current thread. -/
def currentTime : BitVec 64 :=
  match r.lib.currentThread with
  | some i => (r.lib.slot i).time
  | none => 0

/-- The threads that wait once `k` has been dispatched: for `k` all the others, for another
thread those that were not dispatched now. -/
def dispatchWaiting (k : ℕ) : ℕ → List ℕ := fun m =>
  if m = k then r.watched.threads.filter (· ≠ k) else (r.waiting m).filter (· ≠ k)

/-- A step with its entry in the history. -/
def note (e : Event) (w : Watched) : Turns :=
  match e with
  | .create _ _ _ _ ctime => { r with watched := w, now := ctime, yielded := false }
  | .yield ctime _ => { r with watched := w, now := ctime, yielded := true }
  | .destroy _ =>
      { r with
        watched := w
        yielded := false
        ended := true
        waiting := fun m => (r.waiting m).filter (· ∈ w.threads) }
  | .dispatch _ =>
      match w.running with
      | some k =>
          { watched := w
            now := r.now
            yielded := false
            waiting := r.dispatchWaiting k
            dispatched := some (k, { r with watched := w }.currentTime)
            ended := false }
      | none => { r with watched := w, yielded := false, dispatched := none, ended := false }
  | _ => { r with watched := w, yielded := false }

end Turns

/-- A step of the system, of its account and of its history. -/
def observe (text : ℤ) (r : Turns) (e : Event) : Except String Turns :=
  watch text r.watched e >>= fun w => .ok (r.note e w)

/-- The clock does not go back, and a create finds a free slot. -/
def Clocked (r : Turns) : Event → Prop
  | .create _ _ _ _ ctime => r.now ≤ ctime ∧ r.lib.freeSlot.isSome
  | .yield ctime _ => r.now ≤ ctime
  | _ => True

/-- The value of `ctime` that a call reads. -/
def Event.clock : Event → Option (BitVec 64)
  | .create _ _ _ _ ctime => some ctime
  | .yield ctime _ => some ctime
  | _ => none

instance decidableClocked (r : Turns) : ∀ e, Decidable (Clocked r e)
  | .create _ _ _ _ ctime =>
      inferInstanceAs (Decidable (r.now ≤ ctime ∧ r.lib.freeSlot.isSome = true))
  | .yield ctime _ => inferInstanceAs (Decidable (r.now ≤ ctime))
  | .schedule => isTrue trivial
  | .dispatch _ => isTrue trivial
  | .finish => isTrue trivial
  | .destroy _ => isTrue trivial

section Selection

variable {l : Library}

/-- The loops for FCFS and ROUNDROBIN are scans for the least time. -/
theorem foldl_preferred (halgo : l.mainThread.schedalgo ≠ .priority) (text : ℤ) (is : List Slot)
    (c : Slot) :
    is.foldl (minStep (fun i => (l.slot i).state = .runnable) fun i => (l.slot i).time.toNat)
      (some c) = some (is.foldl (l.preferred text) c) := by
  induction is generalizing c with
  | nil => rfl
  | cons i is ih =>
    have hstep : minStep (fun i => (l.slot i).state = .runnable) (fun i => (l.slot i).time.toNat)
        (some c) i = some (l.preferred text c i) := by
      have hpref : l.preferred text c i = l.earlier c i := by
        unfold preferred
        split
        · rfl
        · rfl
        · contradiction
      rw [hpref]
      unfold minStep earlier
      by_cases hrun : (l.slot i).state = .runnable
      · by_cases hlt : (l.slot i).time < (l.slot c).time <;> simp [hrun, hlt, ← BitVec.lt_def]
      · simp [hrun]
    rw [List.foldl_cons, List.foldl_cons, hstep, ih]

/-- A slot that FCFS and ROUNDROBIN pick: the one they started with, or the first of the
runnable ones with the least time. -/
structure Library.Picked (l : Library) (c p : Slot) : Prop where
  found : p = c ∨ (l.slot p).state = .runnable
  least : ∀ j, (l.slot j).state = .runnable → (l.slot p).time ≤ (l.slot j).time
  moved : p ≠ c → (l.slot p).time < (l.slot c).time ∧
    ∀ j, (l.slot j).state = .runnable → (l.slot j).time ≤ (l.slot p).time → p ≤ j

theorem picked (halgo : l.mainThread.schedalgo ≠ .priority) (text : ℤ) (c : Slot) :
    l.Picked c (l.pick text c) := by
  have hfold := foldl_preferred halgo text (List.finRange MAXULTHREADS) c
  obtain ⟨p, hp, hleast⟩ := foldl_minStep_some (fun i => (l.slot i).state = .runnable)
    (fun i => (l.slot i).time.toNat) c (List.finRange MAXULTHREADS)
  have hpick : p = l.pick text c := Option.some.inj (hp.symm.trans hfold)
  subst hpick
  refine ⟨?_, fun j hj => ?_, fun hne => ?_⟩
  · rcases hleast.found with h | h
    · exact Or.inl (Option.some.inj h).symm
    · exact Or.inr (by simpa using h.2)
  · exact BitVec.le_def.mpr (hleast.least j (List.mem_finRange j) (by simpa using hj))
  · obtain ⟨hlt, hfirst⟩ := foldl_minStep_first _ _ (List.pairwise_lt_finRange _) hp hne
    exact ⟨BitVec.lt_def.mpr hlt, fun j hj hle =>
      hfirst j (List.mem_finRange j) (by simpa using hj) (BitVec.le_def.mp hle)⟩

end Selection

section Effects

variable {l : Library} {text : ℤ}

theorem candidate_current {i : Slot} (h : l.currentThread = some i) : l.candidate = some i := by
  simp only [candidate, h]

theorem dispatch_picks {s s' : System} {regs : Context}
    (h : step text s (.dispatch regs) = .ok s') : ∃ c, s.lib.candidate = some c ∧
      s'.lib.currentThread = some (s.lib.pick text c) ∧
      s'.lib.mainThread.schedalgo = s.lib.mainThread.schedalgo := by
  simp only [step] at h
  split_ifs at h
  split at h
  · cases h
  · next c hc =>
    cases h
    exact ⟨c, hc, rfl, rfl⟩

theorem dispatch_control {s s' : System} {regs : Context}
    (h : step text s (.dispatch regs) = .ok s') : s.control ≠ .thread := by
  simp only [step] at h
  split_ifs at h with hcond
  rw [hcond.1]
  decide

theorem dispatch_keeps {s s' : System} {regs : Context}
    (h : step text s (.dispatch regs) = .ok s') : 1 < s.lib.threadCount ∧
      s'.lib.threadCount = s.lib.threadCount ∧ ∀ j, s'.lib.slot j = s.lib.slot j := by
  simp only [step] at h
  split_ifs at h with hcond
  split at h
  · cases h
  · cases h
    exact ⟨hcond.2, rfl, fun _ => rfl⟩

theorem ulthreadYield_fields (l : Library) (i : Slot) (ctime : BitVec 64) :
    (l.ulthreadYield i ctime).currentThread = l.currentThread ∧
      (l.ulthreadYield i ctime).mainThread.schedalgo = l.mainThread.schedalgo ∧
      (l.ulthreadYield i ctime).lastYieldedThread = some i ∧
      (l.ulthreadYield i ctime).threadCount = l.threadCount := by
  unfold ulthreadYield
  split_ifs <;> exact ⟨rfl, rfl, rfl, rfl⟩

theorem ulthreadDestroy_fields (l : Library) (i : Slot) :
    (l.ulthreadDestroy i).lastYieldedThread = some i ∧
      (l.ulthreadDestroy i).currentThread = l.currentThread ∧
      (l.ulthreadDestroy i).threadCount = l.threadCount - 1 ∧
      (l.ulthreadDestroy i).mainThread.schedalgo = l.mainThread.schedalgo := by
  simp only [ulthreadDestroy]
  split <;> exact ⟨rfl, rfl, rfl, rfl⟩

theorem yield_time (h : l.mainThread.schedalgo ≠ .fcfs) (i : Slot) (ctime : BitVec 64)
    (regs : Context) (j : Slot) :
    ((switchToMain (l.ulthreadYield i ctime) i regs).lib.slot j).time =
      if j = i then ctime else (l.slot j).time := by
  unfold switchToMain ulthreadYield
  rw [if_pos h]
  by_cases hj : j = i <;> simp [saveContext, Library.slot, Library.setSlot, hj]

theorem saveContext_slot (l : Library) (i : Slot) (regs : Context) (j : Slot) :
    ∃ context, (l.saveContext i regs).slot j = { l.slot j with context := context } := by
  unfold saveContext
  rw [slot_setSlot]
  by_cases hj : j = i
  · exact ⟨regs, by rw [if_pos hj, hj]⟩
  · exact ⟨(l.slot j).context, by rw [if_neg hj]⟩

theorem yield_time_fcfs (h : l.mainThread.schedalgo = .fcfs) (i : Slot) (ctime : BitVec 64)
    (regs : Context) (j : Slot) :
    ((switchToMain (l.ulthreadYield i ctime) i regs).lib.slot j).time = (l.slot j).time := by
  obtain ⟨context, hslot⟩ := saveContext_slot (l.ulthreadYield i ctime) i regs j
  simp only [switchToMain, hslot]
  unfold ulthreadYield
  rw [if_neg (not_not.mpr h)]
  rfl

/-- A destroy clears the first slot with the tid of its caller, and leaves the others but for
the context that is saved. -/
theorem destroy_clears (l : Library) (i : Slot) (regs : Context) :
    ∃ d, (l.slot d).tid = (l.slot i).tid ∧ ∀ j, ∃ context,
      (switchToMain (l.ulthreadDestroy i) i regs).lib.slot j =
        { (if j = d then (l.slot j).cleared else l.slot j) with context := context } := by
  have hsome := first_isSome (p := fun j => (l.slot j).tid = (l.slot i).tid) (i := i) (by simp)
  obtain ⟨d, hd⟩ := Option.isSome_iff_exists.mp hsome
  have htid := (first_eq_some hd).1
  have hslot : ∀ j, ({ l with lastYieldedThread := some i } : Library).slot j = l.slot j :=
    fun _ => rfl
  have hcleared : ∀ j, (l.ulthreadDestroy i).slot j =
      if j = d then (l.slot j).cleared else l.slot j := by
    intro j
    have hset := @slot_setSlot { l with lastYieldedThread := some i } d j (l.slot d).cleared
    simp only [ulthreadDestroy, hslot, hd]
    by_cases hj : j = d
    · rw [if_pos hj] at hset ⊢
      rw [hj] at hset ⊢
      exact hset
    · rw [if_neg hj] at hset ⊢
      exact hset
  refine ⟨d, by simpa using htid, fun j => ?_⟩
  rw [← hcleared]
  exact saveContext_slot _ i regs j

end Effects

/-- What holds of the table whichever slot a destroy clears, and with creates that find no
free slot. -/
structure Tabled (s : System) : Prop where
  count : 1 + s.lib.live.card ≤ s.lib.threadCount
  slots : ∀ i, (s.lib.slot i).state = .runnable ∧ 1 ≤ (s.lib.slot i).tid ∨
    (s.lib.slot i).state = .free ∧ (s.lib.slot i).tid = -1
  last : s.control ≠ .thread → s.lib.lastYieldedThread = s.lib.currentThread
  running : s.control = .thread → ∃ i, s.lib.currentThread = some i ∧
    (s.lib.Live i ∨ 2 + s.lib.live.card ≤ s.lib.threadCount)

section Table

variable {s s' : System} {text : ℤ} {e : Event}

theorem tabled_boot (schedalgo : Schedalgo) : Tabled (System.boot schedalgo) := by
  have hempty : (System.boot schedalgo).lib.live = ∅ :=
    Finset.eq_empty_of_forall_notMem fun i hi => mem_live.mp hi rfl
  refine ⟨?_, fun i => Or.inr ⟨rfl, rfl⟩, fun _ => rfl, fun h => by cases h⟩
  rw [hempty]
  exact le_rfl

theorem Tabled.live_iff (T : Tabled s) {i : Slot} :
    s.lib.Live i ↔ (s.lib.slot i).state = .runnable := by
  unfold Library.Live
  rcases T.slots i with h | h <;> simp [h.1]

theorem Tabled.free (T : Tabled s) {i : Slot} (h : ¬ s.lib.Live i) :
    (s.lib.slot i).state = .free ∧ (s.lib.slot i).tid = -1 :=
  (T.slots i).resolve_left fun hrun => h (T.live_iff.mpr hrun.1)

theorem Tabled.tid_pos (T : Tabled s) {i : Slot} (h : s.lib.Live i) :
    1 ≤ (s.lib.slot i).tid :=
  ((T.slots i).resolve_right fun hfree => h hfree.1).2

/-- A step that leaves the states and the tids of the slots. -/
theorem Tabled.congr (T : Tabled s) {l : Library} {control : Control} {regs : Context}
    (hcount : l.threadCount = s.lib.threadCount)
    (hstate : ∀ j, (l.slot j).state = (s.lib.slot j).state ∧
      (l.slot j).tid = (s.lib.slot j).tid)
    (hlast : control ≠ .thread → l.lastYieldedThread = l.currentThread)
    (hrun : control = .thread → ∃ i, l.currentThread = some i ∧
      (s.lib.Live i ∨ 2 + s.lib.live.card ≤ s.lib.threadCount)) :
    Tabled ⟨l, control, regs⟩ := by
  have hlive : ∀ j, l.Live j ↔ s.lib.Live j := by
    intro j
    unfold Library.Live
    rw [(hstate j).1]
  have hset : l.live = s.lib.live := by
    ext j
    simp [mem_live, hlive]
  refine ⟨?_, fun j => ?_, hlast, fun h => ?_⟩
  · rw [hset, hcount]
    exact T.count
  · obtain ⟨h₁, h₂⟩ := hstate j
    rw [h₁, h₂]
    exact T.slots j
  · obtain ⟨i, hi, hlive'⟩ := hrun h
    refine ⟨i, hi, ?_⟩
    rw [hset, hcount, hlive]
    exact hlive'

theorem Tabled.create (T : Tabled s) (start stack : BitVec 64) (args : Fin 6 → BitVec 64)
    (priority : ℤ) (ctime : BitVec 64) :
    Tabled { s with lib := s.lib.ulthreadCreate start stack args priority ctime } := by
  cases hi : s.lib.freeSlot with
  | none =>
    have hnone : (first fun i => (s.lib.slot i).state = .free) = none := hi
    have hslot : ∀ j, (s.lib.ulthreadCreate start stack args priority ctime).slot j =
        s.lib.slot j := by
      intro j
      simp only [ulthreadCreate, hnone]
      rfl
    have hset : (s.lib.ulthreadCreate start stack args priority ctime).live = s.lib.live := by
      ext j
      rw [mem_live, mem_live]
      unfold Library.Live
      rw [hslot]
    have hcount : (s.lib.ulthreadCreate start stack args priority ctime).threadCount =
        s.lib.threadCount + 1 := by simp [ulthreadCreate, hnone]
    refine ⟨?_, fun j => ?_, fun h => ?_, fun h => ?_⟩
    · have := T.count
      simp only [hset, hcount]
      omega
    · simp only [hslot]
      exact T.slots j
    · have hlast := T.last h
      simp only [ulthreadCreate, hnone]
      exact hlast
    · obtain ⟨i, hi, hor⟩ := T.running h
      refine ⟨i, ?_, Or.inr ?_⟩
      · simp only [ulthreadCreate, hnone]
        exact hi
      · have := T.count
        simp only [hset, hcount]
        omega
  | some i =>
    have hfree : ¬ s.lib.Live i := fun h => h (freeSlot_spec hi)
    have hslot := ulthreadCreate_slot hi start stack args priority ctime
    have heq := ulthreadCreate_some hi start stack args priority ctime
    generalize s.lib.ulthreadCreate start stack args priority ctime = l at hslot heq
    have hlive : ∀ j, l.Live j ↔ j = i ∨ s.lib.Live j := by
      intro j
      unfold Library.Live
      rw [hslot]
      by_cases hj : j = i <;> simp [hj]
    have hset : l.live = insert i s.lib.live := by
      ext j
      simp [mem_live, hlive]
    have hcard : l.live.card = s.lib.live.card + 1 := by
      rw [hset, Finset.card_insert_of_notMem fun h => hfree (mem_live.mp h)]
    have hcount : l.threadCount = s.lib.threadCount + 1 := by rw [heq]
    have hpos := T.count
    refine ⟨?_, fun j => ?_, fun h => ?_, fun h => ?_⟩
    · simp only [hcard, hcount]
      push_cast
      omega
    · simp only [hslot]
      by_cases hj : j = i
      · simp only [hj, ↓reduceIte]
        exact Or.inl ⟨trivial, by omega⟩
      · simp only [hj, ↓reduceIte]
        exact T.slots j
    · rw [heq]
      exact T.last h
    · obtain ⟨j, hj, hor⟩ := T.running h
      refine ⟨j, by rw [heq]; exact hj, ?_⟩
      rcases hor with hj | hcount'
      · exact Or.inl ((hlive j).mpr (Or.inr hj))
      · right
        simp only [hcard, hcount]
        push_cast
        omega

theorem Tabled.destroy (T : Tabled s) {i : Slot} (hcontrol : s.control = .thread)
    (hi : s.lib.currentThread = some i) (regs : Context) :
    Tabled (switchToMain (s.lib.ulthreadDestroy i) i regs) ∧ ∃ d,
      (s.lib.Live i → s.lib.Live d) ∧
      (∀ j, (switchToMain (s.lib.ulthreadDestroy i) i regs).lib.Live j ↔ s.lib.Live j ∧ j ≠ d) ∧
      (∀ j, j ≠ d → ((switchToMain (s.lib.ulthreadDestroy i) i regs).lib.slot j).time =
        (s.lib.slot j).time) ∧
      ((switchToMain (s.lib.ulthreadDestroy i) i regs).lib.slot d).time = -1 := by
  obtain ⟨d, htid, hslot⟩ := destroy_clears s.lib i regs
  have hfields := ulthreadDestroy_fields s.lib i
  have hlast : (switchToMain (s.lib.ulthreadDestroy i) i regs).lib.lastYieldedThread =
      (switchToMain (s.lib.ulthreadDestroy i) i regs).lib.currentThread :=
    hfields.1.trans (hi.symm.trans hfields.2.1.symm)
  have hcount : (switchToMain (s.lib.ulthreadDestroy i) i regs).lib.threadCount =
      s.lib.threadCount - 1 := hfields.2.2.1
  have hback : (switchToMain (s.lib.ulthreadDestroy i) i regs).control ≠ .thread := by
    simp [switchToMain]
  generalize switchToMain (s.lib.ulthreadDestroy i) i regs = s' at *
  have hlive : ∀ j, s'.lib.Live j ↔ s.lib.Live j ∧ j ≠ d := by
    intro j
    obtain ⟨c, hc⟩ := hslot j
    unfold Library.Live
    rw [hc]
    by_cases hj : j = d <;> simp [hj, Uthread.cleared]
  have hset : s'.lib.live = s.lib.live.erase d := by
    ext j
    simp [mem_live, hlive, and_comm]
  have hclears : s.lib.Live i → s.lib.Live d := by
    intro hlive
    by_contra hdead
    have := (T.free hdead).2
    have := T.tid_pos hlive
    omega
  obtain ⟨i', hi', hor⟩ := T.running hcontrol
  obtain rfl := Option.some.inj (hi.symm.trans hi')
  refine ⟨⟨?_, fun j => ?_, fun _ => hlast, fun h => absurd h hback⟩, d, hclears, hlive,
    fun j hj => ?_, ?_⟩
  · rw [hset, hcount]
    have hpos := T.count
    by_cases hd : s.lib.Live d
    · have hcard := Finset.card_erase_of_mem (mem_live.mpr hd)
      have : 0 < s.lib.live.card := Finset.card_pos.mpr ⟨d, mem_live.mpr hd⟩
      omega
    · rw [Finset.erase_eq_of_notMem fun h => hd (mem_live.mp h)]
      have := hor.resolve_left fun h => hd (hclears h)
      omega
  · obtain ⟨c, hc⟩ := hslot j
    rw [hc]
    by_cases hj : j = d
    · simp only [hj, ↓reduceIte]
      exact Or.inr ⟨rfl, rfl⟩
    · simp only [hj, ↓reduceIte]
      exact T.slots j
  · obtain ⟨c, hc⟩ := hslot j
    rw [hc, if_neg hj]
  · obtain ⟨c, hc⟩ := hslot d
    rw [hc, if_pos rfl]
    rfl

/-- A step keeps the table, if a dispatch takes a live thread where there is one. -/
theorem tabled_step (T : Tabled s) (h : step text s e = .ok s')
    (hdispatch : ∀ regs, e = .dispatch regs → ∀ i, s'.lib.currentThread = some i →
      (∃ j, s.lib.Live j) → s.lib.Live i) : Tabled s' := by
  cases e with
  | create start stack args priority ctime =>
    simp only [step] at h
    split_ifs at h
    cases h
    exact T.create start stack args priority ctime
  | schedule =>
    simp only [step] at h
    split_ifs at h with hmain
    cases h
    exact T.congr rfl (fun _ => ⟨rfl, rfl⟩)
      (fun _ => T.last (by rw [hmain]; decide)) (fun h => by cases h)
  | dispatch regs =>
    have hlive := hdispatch regs rfl
    simp only [step] at h
    split_ifs at h with hcond
    split at h
    · cases h
    · next c hc =>
      cases h
      refine @Tabled.congr s T _ _ _ rfl (fun _ => ⟨rfl, rfl⟩) (fun h => absurd rfl h)
        fun _ => ⟨_, rfl, ?_⟩
      by_cases hsome : ∃ j, s.lib.Live j
      · exact Or.inl (hlive _ rfl hsome)
      · have hempty : s.lib.live = ∅ :=
          Finset.eq_empty_of_forall_notMem fun i hi => hsome ⟨i, mem_live.mp hi⟩
        rw [hempty]
        have := hcond.2
        exact Or.inr (by simp only [Finset.card_empty]; omega)
  | finish =>
    simp only [step] at h
    split_ifs at h with hcond
    cases h
    exact T.congr rfl (fun _ => ⟨rfl, rfl⟩)
      (fun _ => T.last (by rw [hcond.1]; decide)) (fun h => by cases h)
  | yield ctime regs =>
    simp only [step] at h
    split at h
    · next i hcontrol hi =>
      cases h
      have hfields := ulthreadYield_fields s.lib i ctime
      exact T.congr hfields.2.2.2 (fun j => ⟨(yield_slot s.lib i ctime regs j).1,
        (yield_slot s.lib i ctime regs j).2.1⟩)
        (fun _ => hfields.2.2.1.trans (hi.symm.trans hfields.1.symm)) (fun h => by cases h)
    · cases h
  | destroy regs =>
    simp only [step] at h
    split at h
    · next i hcontrol hi =>
      cases h
      exact (T.destroy hcontrol hi regs).1
    · cases h

theorem observe_step {r r' : Turns} (h : observe text r e = .ok r') :
    step text r.watched.sys e = .ok r'.watched.sys := by
  obtain ⟨w, hw, h⟩ := bind_ok_iff.mp h
  obtain ⟨s, hs, hw⟩ := bind_ok_iff.mp hw
  cases hw
  cases h
  have hsys : (r.note e (record r.watched e s)).watched = record r.watched e s := by
    unfold Turns.note
    split
    all_goals try rfl
    split <;> rfl
  have hrecord : (record r.watched e s).sys = s := by
    unfold record
    split
    all_goals try rfl
    split <;> rfl
  rw [hsys, hrecord]
  exact hs

/-- The algorithm is chosen by `ulthread_init` only. -/
theorem step_schedalgo (h : step text s e = .ok s') :
    s'.lib.mainThread.schedalgo = s.lib.mainThread.schedalgo := by
  cases e with
  | create start stack args priority ctime =>
    simp only [step] at h
    split_ifs at h
    cases h
    simp only [ulthreadCreate]
    split <;> rfl
  | schedule =>
    simp only [step] at h
    split_ifs at h
    cases h
    rfl
  | dispatch regs =>
    obtain ⟨-, -, -, halgo⟩ := dispatch_picks h
    exact halgo
  | finish =>
    simp only [step] at h
    split_ifs at h
    cases h
    rfl
  | yield ctime regs =>
    simp only [step] at h
    split at h
    · next i _ _ =>
      cases h
      exact (ulthreadYield_fields s.lib i ctime).2.1
    · cases h
  | destroy regs =>
    simp only [step] at h
    split at h
    · next i _ _ =>
      cases h
      exact (ulthreadDestroy_fields s.lib i).2.2.2
    · cases h

end Table

end AdvancedOperatingSystems.UlThread
