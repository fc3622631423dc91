import AdvancedOperatingSystems.UlThread.Turns

/-!
# First come, first served

FCFS goes by the times at which the threads were created. A yield does not refresh them, so
the running thread stays the first until its slot is cleared, whichever slots the threads
that are created meanwhile get.
-/

namespace AdvancedOperatingSystems.UlThread

open Foundations Library

/-- A dispatch takes the thread of the dispatch before until that thread has called
`ulthread_destroy`, and the times that are recorded for what is dispatched do not go back. -/
def Queued (r : Turns) (e : Event) (r' : Turns) : Prop :=
  ∀ regs, e = .dispatch regs → ∃ k t, r'.watched.running = some k ∧ r'.dispatched = some (k, t) ∧
    t = r'.currentTime ∧ ∀ k' t', r.dispatched = some (k', t') →
      t' ≤ t ∧ (r.ended = false → k = k')

/-- The thread that was dispatched last is the first of those there are. -/
structure InOrder (r : Turns) : Prop where
  table : Tabled r.watched.sys
  full : r.lib.threadCount ≤ 1 + r.lib.live.card
  algo : r.lib.mainThread.schedalgo = .fcfs
  owned : ∀ i, r.lib.Live i → (r.watched.owner i).isSome
  past : ∀ i, r.lib.Live i → (r.lib.slot i).time ≤ r.now
  timed : ∀ i, (r.lib.Live i ↔ (r.lib.slot i).time ≠ -1)
  first : ∀ k t, r.dispatched = some (k, t) → t ≤ r.now ∧
    ∀ i, r.lib.Live i → t ≤ (r.lib.slot i).time
  holds : ∀ k t, r.dispatched = some (k, t) → r.ended = false → ∃ i,
    r.lib.currentThread = some i ∧ r.lib.Live i ∧ r.watched.owner i = some k ∧
      (r.lib.slot i).time = t

section Steps

variable {r r' : Turns} {text : ℤ} {e : Event}

theorem inOrder_boot : InOrder (Turns.boot .fcfs) := by
  have hfree : ∀ i, ¬ (Turns.boot .fcfs).lib.Live i := fun i h => h rfl
  refine ⟨tabled_boot .fcfs, ?_, rfl, fun i h => absurd h (hfree i),
    fun i h => absurd h (hfree i), fun i => ?_, fun _ _ h => (by cases h), fun _ _ h => by cases h⟩
  · have hcount : (Turns.boot .fcfs).lib.threadCount = 1 := rfl
    rw [hcount]
    omega
  · exact iff_of_false (hfree i) (fun h => h rfl)

theorem InOrder.running (T : InOrder r) (hcontrol : r.watched.sys.control = .thread) :
    ∃ i, r.lib.currentThread = some i ∧ r.lib.Live i := by
  obtain ⟨i, hi, hor⟩ := T.table.running hcontrol
  refine ⟨i, hi, hor.resolve_right fun h => ?_⟩
  have := T.full
  unfold Turns.lib at this
  omega

/-- What FCFS picks is live and the first, and it stays with a thread that is the first. -/
theorem InOrder.pick (T : InOrder r) (hcount : 1 < r.lib.threadCount) {c p : Slot}
    (hc : r.lib.candidate = some c) (hpick : r.lib.Picked c p) :
    r.lib.Live p ∧ (∀ j, r.lib.Live j → (r.lib.slot p).time ≤ (r.lib.slot j).time) ∧
      ∀ k t, r.dispatched = some (k, t) → r.ended = false → r.watched.owner p = some k := by
  have hrun : ∀ j, r.lib.Live j → (r.lib.slot j).state = .runnable :=
    fun j hj => T.table.live_iff.mp hj
  have hleast : ∀ j, r.lib.Live j → (r.lib.slot p).time ≤ (r.lib.slot j).time :=
    fun j hj => hpick.least j (hrun j hj)
  obtain ⟨j, hj⟩ : ∃ j, r.lib.Live j := by
    have hcard : 0 < r.lib.live.card := by
      have := T.full
      omega
    obtain ⟨j, hj⟩ := Finset.card_pos.mp hcard
    exact ⟨j, mem_live.mp hj⟩
  refine ⟨?_, hleast, fun k t hk hend => ?_⟩
  · rw [T.timed]
    intro hmax
    have hle := hleast j hj
    have hne := (T.timed j).mp hj
    rw [hmax] at hle
    bv_omega
  · obtain ⟨i, hi, hlive, hown, htime⟩ := T.holds k t hk hend
    have hci : c = i := Option.some.inj (hc.symm.trans (candidate_current hi))
    by_cases hpc : p = c
    · rw [hpc, hci]
      exact hown
    · have hlt := (hpick.moved hpc).1
      have hp := hpick.found.resolve_left hpc
      have hle := ((T.first k t hk).2 p (T.table.live_iff.mpr hp))
      rw [hci, htime] at hlt
      exact absurd hlt (BitVec.not_lt.mpr hle)

theorem InOrder.create (T : InOrder r) {i : Slot} (hi : r.lib.freeSlot = some i)
    {start stack : BitVec 64} {args : Fin 6 → BitVec 64} {priority : ℤ} {ctime : BitVec 64}
    (hclock : r.now ≤ ctime) (hmax : ctime ≠ -1) {w : Watched} (hlib : w.sys.lib =
      r.lib.ulthreadCreate start stack args priority ctime)
    (howner : w.owner = Function.update r.watched.owner i (some r.watched.created))
    (T' : Tabled w.sys) : InOrder { r with watched := w, now := ctime, yielded := false } := by
  have hfree : ¬ r.lib.Live i := fun h => h (freeSlot_spec hi)
  have hslot := ulthreadCreate_slot hi start stack args priority ctime
  have heq := ulthreadCreate_some hi start stack args priority ctime
  rw [← hlib] at hslot heq
  have hlive : ∀ j, w.sys.lib.Live j ↔ j = i ∨ r.lib.Live j := by
    intro j
    unfold Library.Live
    rw [hslot]
    by_cases hj : j = i <;> simp [hj]
  have hold : ∀ j, j ≠ i → w.sys.lib.slot j = r.lib.slot j ∧ w.owner j = r.watched.owner j := by
    intro j hj
    rw [hslot, if_neg hj, howner, Function.update_of_ne hj]
    exact ⟨rfl, rfl⟩
  have hnew : (w.sys.lib.slot i).time = ctime := by rw [hslot, if_pos rfl]
  have hne : ∀ j, r.lib.Live j → j ≠ i := fun j hj h => hfree (h ▸ hj)
  constructor
  · exact T'
  · change w.sys.lib.threadCount ≤ 1 + w.sys.lib.live.card
    have hset : w.sys.lib.live = insert i r.lib.live := by
      ext j
      simp [mem_live, hlive]
    have hcount : w.sys.lib.threadCount = r.lib.threadCount + 1 := by rw [heq]
    have := T.full
    rw [hset, Finset.card_insert_of_notMem (fun h => hfree (mem_live.mp h)), hcount]
    push_cast
    omega
  · change w.sys.lib.mainThread.schedalgo = _
    rw [heq]
    exact T.algo
  · intro j hj
    change (w.owner j).isSome
    rcases (hlive j).mp hj with rfl | hj
    · rw [howner, Function.update_self]
      rfl
    · rw [(hold j (hne j hj)).2]
      exact T.owned j hj
  · intro j hj
    change (w.sys.lib.slot j).time ≤ ctime
    rcases (hlive j).mp hj with rfl | hj
    · rw [hnew]
      exact BitVec.le_refl ctime
    · rw [(hold j (hne j hj)).1]
      exact BitVec.le_trans (T.past j hj) hclock
  · intro j
    change w.sys.lib.Live j ↔ (w.sys.lib.slot j).time ≠ -1
    by_cases hj : j = i
    · rw [hj, hnew]
      exact iff_of_true ((hlive i).mpr (Or.inl rfl)) hmax
    · rw [hlive, (hold j hj).1, ← T.timed]
      exact or_iff_right hj
  · intro k t hk
    obtain ⟨hle, hfirst⟩ := T.first k t hk
    refine ⟨BitVec.le_trans hle hclock, fun j hj => ?_⟩
    change t ≤ (w.sys.lib.slot j).time
    rcases (hlive j).mp hj with rfl | hj
    · rw [hnew]
      exact BitVec.le_trans hle hclock
    · rw [(hold j (hne j hj)).1]
      exact hfirst j hj
  · intro k t hk hend
    obtain ⟨j, hj, hjlive, hown, htime⟩ := T.holds k t hk hend
    have hji := hne j hjlive
    refine ⟨j, ?_, (hlive j).mpr (Or.inr hjlive), (hold j hji).2.trans hown, ?_⟩
    · change w.sys.lib.currentThread = some j
      rw [heq]
      exact hj
    · change (w.sys.lib.slot j).time = t
      rw [(hold j hji).1, htime]

/-- A step that leaves the threads and their times, and does not dispatch. -/
theorem InOrder.congr (T : InOrder r) {w : Watched} {now : BitVec 64} {yielded : Bool}
    (hnow : r.now ≤ now) (hslot : ∀ j, (w.sys.lib.slot j).state = (r.lib.slot j).state ∧
      (w.sys.lib.slot j).time = (r.lib.slot j).time)
    (hcount : w.sys.lib.threadCount = r.lib.threadCount)
    (hcur : w.sys.lib.currentThread = r.lib.currentThread)
    (halgo : w.sys.lib.mainThread.schedalgo = r.lib.mainThread.schedalgo)
    (howner : w.owner = r.watched.owner) (T' : Tabled w.sys) :
    InOrder { r with watched := w, now := now, yielded := yielded } := by
  have hlive : ∀ j, w.sys.lib.Live j ↔ r.lib.Live j := by
    intro j
    unfold Library.Live
    rw [(hslot j).1]
  constructor
  · exact T'
  · change w.sys.lib.threadCount ≤ 1 + w.sys.lib.live.card
    have hset : w.sys.lib.live = r.lib.live := by
      ext j
      simp [mem_live, hlive]
    rw [hset, hcount]
    exact T.full
  · exact halgo.trans T.algo
  · intro j hj
    change (w.owner j).isSome
    rw [howner]
    exact T.owned j ((hlive j).mp hj)
  · intro j hj
    change (w.sys.lib.slot j).time ≤ now
    rw [(hslot j).2]
    exact BitVec.le_trans (T.past j ((hlive j).mp hj)) hnow
  · intro j
    change w.sys.lib.Live j ↔ (w.sys.lib.slot j).time ≠ -1
    rw [hlive, (hslot j).2]
    exact T.timed j
  · intro k t hk
    obtain ⟨hle, hfirst⟩ := T.first k t hk
    refine ⟨BitVec.le_trans hle hnow, fun j hj => ?_⟩
    change t ≤ (w.sys.lib.slot j).time
    rw [(hslot j).2]
    exact hfirst j ((hlive j).mp hj)
  · intro k t hk hend
    obtain ⟨j, hj, hjlive, hown, htime⟩ := T.holds k t hk hend
    refine ⟨j, hcur.trans hj, (hlive j).mpr hjlive, ?_, (hslot j).2.trans htime⟩
    change w.owner j = some k
    rw [howner]
    exact hown

theorem InOrder.dispatch (T : InOrder r) {p : Slot} {k : ℕ} {w : Watched}
    (hk : r.watched.owner p = some k) (hp : r.lib.Live p)
    (hleast : ∀ j, r.lib.Live j → (r.lib.slot p).time ≤ (r.lib.slot j).time)
    (hcur : w.sys.lib.currentThread = some p) (hslot : ∀ j, w.sys.lib.slot j = r.lib.slot j)
    (hcount : w.sys.lib.threadCount = r.lib.threadCount)
    (halgo : w.sys.lib.mainThread.schedalgo = r.lib.mainThread.schedalgo)
    (howner : w.owner = r.watched.owner) (T' : Tabled w.sys) (waiting : ℕ → List ℕ) :
    InOrder ⟨w, r.now, false, waiting, some (k, (r.lib.slot p).time), false⟩ := by
  have hlive : ∀ j, w.sys.lib.Live j ↔ r.lib.Live j := by
    intro j
    unfold Library.Live
    rw [hslot]
  constructor
  · exact T'
  · change w.sys.lib.threadCount ≤ 1 + w.sys.lib.live.card
    have hset : w.sys.lib.live = r.lib.live := by
      ext j
      simp [mem_live, hlive]
    rw [hset, hcount]
    exact T.full
  · exact halgo.trans T.algo
  · intro j hj
    change (w.owner j).isSome
    rw [howner]
    exact T.owned j ((hlive j).mp hj)
  · intro j hj
    change (w.sys.lib.slot j).time ≤ r.now
    rw [hslot]
    exact T.past j ((hlive j).mp hj)
  · intro j
    change w.sys.lib.Live j ↔ (w.sys.lib.slot j).time ≠ -1
    rw [hlive, hslot]
    exact T.timed j
  · intro k' t h
    simp only [Option.some.injEq, Prod.mk.injEq] at h
    rw [← h.2]
    refine ⟨T.past p hp, fun j hj => ?_⟩
    change _ ≤ (w.sys.lib.slot j).time
    rw [hslot]
    exact hleast j ((hlive j).mp hj)
  · intro k' t h _
    simp only [Option.some.injEq, Prod.mk.injEq] at h
    refine ⟨p, hcur, (hlive p).mpr hp, ?_, ?_⟩
    · change w.owner p = some k'
      rw [howner, hk, h.1]
    · change (w.sys.lib.slot p).time = t
      rw [hslot, h.2]

theorem InOrder.destroy (T : InOrder r) {i : Slot}
    (hcontrol : r.watched.sys.control = .thread) (hi : r.lib.currentThread = some i)
    {w : Watched} {regs : Context}
    (hsys : w.sys = switchToMain (r.watched.sys.lib.ulthreadDestroy i) i regs)
    (howner : w.owner = r.watched.owner) (waiting : ℕ → List ℕ) :
    InOrder { r with watched := w, yielded := false, ended := true, waiting := waiting } := by
  obtain ⟨j, hj, hlive⟩ := T.running hcontrol
  obtain rfl := Option.some.inj (hi.symm.trans hj)
  obtain ⟨T', d, hclears, hlive', htime, hcleared⟩ := T.table.destroy hcontrol hi regs
  have hfields := ulthreadDestroy_fields r.lib i
  have hd : r.lib.Live d := hclears hlive
  constructor
  · exact hsys ▸ T'
  · change w.sys.lib.threadCount ≤ 1 + w.sys.lib.live.card
    rw [hsys]
    have hset : (switchToMain (r.watched.sys.lib.ulthreadDestroy i) i regs).lib.live =
        r.lib.live.erase d := by
      ext j
      rw [mem_live, Finset.mem_erase, mem_live, and_comm]
      exact hlive' j
    have hcount : (switchToMain (r.watched.sys.lib.ulthreadDestroy i) i regs).lib.threadCount =
        r.lib.threadCount - 1 := hfields.2.2.1
    have hcard := Finset.card_erase_of_mem (mem_live.mpr hd)
    have : 0 < r.lib.live.card := Finset.card_pos.mpr ⟨d, mem_live.mpr hd⟩
    have := T.full
    rw [hset, hcount]
    omega
  · change w.sys.lib.mainThread.schedalgo = _
    rw [hsys]
    exact hfields.2.2.2.trans T.algo
  · intro j hj
    change (w.owner j).isSome
    rw [howner]
    change w.sys.lib.Live j at hj
    rw [hsys] at hj
    exact T.owned j ((hlive' j).mp hj).1
  · intro j hj
    change (w.sys.lib.slot j).time ≤ r.now
    change w.sys.lib.Live j at hj
    rw [hsys] at hj ⊢
    obtain ⟨hj, hne⟩ := (hlive' j).mp hj
    rw [htime j hne]
    exact T.past j hj
  · intro j
    change w.sys.lib.Live j ↔ (w.sys.lib.slot j).time ≠ -1
    rw [hsys, hlive']
    by_cases hj : j = d
    · rw [hj, hcleared]
      exact iff_of_false (fun h => h.2 rfl) (fun h => h rfl)
    · rw [htime j hj]
      exact (and_iff_left hj).trans (T.timed j)
  · intro k t hk
    obtain ⟨hle, hfirst⟩ := T.first k t hk
    refine ⟨hle, fun j hj => ?_⟩
    change t ≤ (w.sys.lib.slot j).time
    change w.sys.lib.Live j at hj
    rw [hsys] at hj ⊢
    obtain ⟨hj, hne⟩ := (hlive' j).mp hj
    rw [htime j hne]
    exact hfirst j hj
  · intro _ _ _ h
    cases h

theorem queued_of_not_dispatch (h : ∀ regs, e ≠ .dispatch regs) : Queued r e r' :=
  fun regs he => absurd he (h regs)

theorem inOrder_step (T : InOrder r) (hclock : Clocked r e) (hmax : e.clock ≠ some (-1))
    (h : observe text r e = .ok r') : InOrder r' ∧ Queued r e r' := by
  obtain ⟨w, hw, h⟩ := bind_ok_iff.mp h
  cases h
  obtain ⟨s, hs, h⟩ := bind_ok_iff.mp hw
  cases h
  cases e with
  | create start stack args priority ctime =>
    refine ⟨?_, queued_of_not_dispatch fun _ h => by cases h⟩
    have T' := tabled_step T.table hs fun _ h => by cases h
    simp only [step] at hs
    split_ifs at hs
    cases hs
    obtain ⟨i, hi⟩ := Option.isSome_iff_exists.mp hclock.2
    have hi' : r.watched.sys.lib.freeSlot = some i := hi
    simp only [record, hi']
    exact T.create hi hclock.1 (fun h => hmax (congrArg some h)) rfl rfl T'
  | schedule =>
    refine ⟨?_, queued_of_not_dispatch fun _ h => by cases h⟩
    have T' := tabled_step T.table hs fun _ h => by cases h
    simp only [step] at hs
    split_ifs at hs
    cases hs
    exact T.congr (BitVec.le_refl _) (fun _ => ⟨rfl, rfl⟩) rfl rfl rfl rfl T'
  | dispatch regs =>
    obtain ⟨c, hc, hcur, halgo⟩ := dispatch_picks hs
    obtain ⟨hcount, hcount', hslot⟩ := dispatch_keeps hs
    have hpicked := @picked r.lib (by rw [T.algo]; decide) text c
    obtain ⟨hp, hleast, hsame⟩ := T.pick hcount hc hpicked
    obtain ⟨k, hk⟩ := Option.isSome_iff_exists.mp (T.owned _ hp)
    have T' := tabled_step T.table hs fun _ _ i hi _ => by
      obtain rfl := Option.some.inj (hcur.symm.trans hi)
      exact hp
    have hrun : (record r.watched (.dispatch regs) s).running = some k := by
      simp only [record, hcur, Option.bind_some]
      exact hk
    have htime : { r with watched := record r.watched (.dispatch regs) s }.currentTime =
        (r.lib.slot (r.lib.pick text c)).time := by
      have hcur' : (record r.watched (.dispatch regs) s).sys.lib.currentThread =
          some (r.lib.pick text c) := hcur
      simp only [Turns.currentTime, Turns.lib, hcur']
      exact congrArg Uthread.time (hslot _)
    constructor
    · simp only [Turns.note, hrun, htime]
      exact T.dispatch (w := record r.watched (.dispatch regs) s) hk hp hleast hcur hslot hcount'
        halgo rfl T' _
    · intro _ _
      simp only [Turns.note, hrun]
      refine ⟨k, _, rfl, rfl, rfl, fun k' t' hlast => ?_⟩
      rw [htime]
      refine ⟨(T.first k' t' hlast).2 _ hp, fun hend => ?_⟩
      exact Option.some.inj (hk.symm.trans (hsame k' t' hlast hend))
  | finish =>
    refine ⟨?_, queued_of_not_dispatch fun _ h => by cases h⟩
    have T' := tabled_step T.table hs fun _ h => by cases h
    simp only [step] at hs
    split_ifs at hs
    cases hs
    exact T.congr (BitVec.le_refl _) (fun _ => ⟨rfl, rfl⟩) rfl rfl rfl rfl T'
  | yield ctime regs =>
    refine ⟨?_, queued_of_not_dispatch fun _ h => by cases h⟩
    have T' := tabled_step T.table hs fun _ h => by cases h
    simp only [step] at hs
    split at hs
    · next i hcontrol hi =>
      cases hs
      have hfields := ulthreadYield_fields r.lib i ctime
      exact T.congr hclock (fun j => ⟨(yield_slot r.lib i ctime regs j).1,
        yield_time_fcfs T.algo i ctime regs j⟩) hfields.2.2.2 hfields.1 hfields.2.1 rfl T'
    · cases hs
  | destroy regs =>
    refine ⟨?_, queued_of_not_dispatch fun _ h => by cases h⟩
    simp only [step] at hs
    split at hs
    · next i hcontrol hi =>
      cases hs
      exact T.destroy (w := record r.watched (.destroy regs) (switchToMain _ i regs)) hcontrol hi
        rfl rfl _
    · cases hs

end Steps

/-- FCFS keeps to the order in which the threads were created, in every run with a clock
that does not go back and stays below the time of a free slot. -/
theorem fcfs_in_order (text : ℤ) {es : List Event}
    (hclock : Guarded (observe text) Clocked (Turns.boot .fcfs) es)
    (hmax : ∀ e ∈ es, e.clock ≠ some (-1)) :
    Guarded (observe text) (fun r e => ∀ r', observe text r e = .ok r' → Queued r e r')
      (Turns.boot .fcfs) es := by
  apply (hclock.and (guarded_of_forall hmax)).imp (I := InOrder)
  · intro r e r' T hguard hr
    exact (inOrder_step T hguard.1 hguard.2 hr).1
  · intro r e T hguard r' hr
    exact (inOrder_step T hguard.1 hguard.2 hr).2
  · exact inOrder_boot

/-- The running thread creates another one in its own tick and yields. -/
def createWhileRunning : List Event :=
  [.create 0 0 (fun _ => 0) 0 1, .schedule, .dispatch fun _ => 0, .create 0 0 (fun _ => 0) 0 1,
    .yield 2 fun _ => 0, .dispatch fun _ => 0]

theorem sample_fcfs_in_order :
    Guarded (observe 0) (fun r e => ∀ r', observe 0 r e = .ok r' → Queued r e r')
      (Turns.boot .fcfs) createWhileRunning :=
  fcfs_in_order 0 (by decide +kernel) (by decide +kernel)

end AdvancedOperatingSystems.UlThread
