import AdvancedOperatingSystems.UlThread.Turns

/-!
# Taking turns

ROUNDROBIN goes by the times at which the threads yielded. Threads that yield at the same
time are told apart by their slots, and the thread that yields last wins a tie: the order
is fair as long as a yield comes later than the turns of the threads that wait.
-/

namespace AdvancedOperatingSystems.UlThread

open Foundations Library

/-- A dispatch does not return to a thread that has just yielded, if there is another one,
and no thread has been waiting since the last dispatch of the thread that is taken. -/
structure Fair (r : Turns) (e : Event) (r' : Turns) : Prop where
  changes : ∀ regs, e = .dispatch regs → r.yielded → ∀ i, r.lib.currentThread = some i →
    (∃ j ≠ i, r.lib.Live j) → r'.lib.currentThread ≠ some i
  waits : ∀ regs, e = .dispatch regs → ∃ k, r'.watched.running = some k ∧ r.waiting k = []

/-- The account is kept. A yield comes later than the time of another thread, if there is
one, and later than the times of the threads that wait for their turn since the caller was
dispatched; with the same time, their slots come before the caller's. -/
def Separated (r : Turns) (e : Event) : Prop :=
  Bookable r.watched e ∧
    match e with
    | .yield ctime _ => ∀ i ∈ r.lib.currentThread, ∀ k ∈ r.watched.owner i,
        ((∃ j ≠ i, r.lib.Live j) → ∃ j ≠ i, r.lib.Live j ∧ (r.lib.slot j).time < ctime) ∧
        ∀ j, r.lib.Live j → ∀ m ∈ r.watched.owner j, m ∈ r.waiting k →
          (r.lib.slot j).time < ctime ∨ (r.lib.slot j).time = ctime ∧ j < i
    | _ => True

instance decidableSeparated (r : Turns) (e : Event) : Decidable (Separated r e) := by
  unfold Separated
  cases e <;> infer_instance

/-- The slot `j` comes before the slot `i` when the scheduler has left both. -/
def Library.Precedes (l : Library) (j i : Slot) : Prop :=
  (l.slot j).time < (l.slot i).time ∨ (l.slot j).time = (l.slot i).time ∧ j < i

/-- The threads that wait come before those they wait for. -/
structure TakesTurns (r : Turns) : Prop where
  account : Accounted r.watched
  algo : r.lib.mainThread.schedalgo = .roundrobin
  past : ∀ i, r.lib.Live i → (r.lib.slot i).time ≤ r.now
  fresh : ∀ k, r.watched.created ≤ k → r.waiting k = []
  start : r.lib.currentThread = none → ∀ k, r.waiting k = []
  served : r.watched.sys.control = .thread → ∀ i k m, r.lib.currentThread = some i →
    r.watched.owner i = some k → k ∉ r.waiting m
  waits : ∀ i k m, r.lib.Live i → r.watched.owner i = some k → m ∈ r.waiting k →
    ∃ j, r.lib.Live j ∧ j ≠ i ∧ r.watched.owner j = some m ∧
      (r.watched.sys.control = .thread ∧ r.lib.currentThread = some i ∨ r.lib.Precedes j i)
  returned : r.watched.sys.control ≠ .thread → ∀ i k, r.lib.currentThread = some i →
    r.lib.Live i → r.watched.owner i = some k → r.waiting k ≠ [] →
    ∃ j, r.lib.Live j ∧ (r.lib.slot j).time < (r.lib.slot i).time
  yielded : r.yielded → r.watched.sys.control ≠ .thread ∧ ∀ i, r.lib.currentThread = some i →
    (∃ j ≠ i, r.lib.Live j) → ∃ j, r.lib.Live j ∧ (r.lib.slot j).time < (r.lib.slot i).time

section Steps

variable {r r' : Turns} {text : ℤ} {e : Event}

theorem takesTurns_boot : TakesTurns (Turns.boot .roundrobin) := by
  have hfree : ∀ i, ¬ (Turns.boot .roundrobin).lib.Live i := fun i h => h rfl
  exact ⟨accounted_boot .roundrobin, rfl, fun i h => absurd h (hfree i), fun _ _ => rfl,
    fun _ _ => rfl, fun h => (by cases h), fun i _ _ h => absurd h (hfree i),
    fun _ i _ _ h => absurd h (hfree i), fun h => by cases h⟩

theorem mem_threads {w : Watched} {k : ℕ} :
    k ∈ w.threads ↔ ∃ i, w.sys.lib.Live i ∧ w.owner i = some k := by
  unfold Watched.threads
  rw [List.mem_filterMap]
  constructor
  · rintro ⟨i, -, hi⟩
    split_ifs at hi with hlive
    exact ⟨i, hlive, hi⟩
  · rintro ⟨i, hlive, hi⟩
    exact ⟨i, List.mem_finRange i, by rw [if_pos hlive, hi]⟩

theorem observe_account (A : Accounted r.watched) (hbook : Bookable r.watched e)
    (h : observe text r e = .ok r') : Accounted r'.watched := by
  obtain ⟨w, hw, h⟩ := bind_ok_iff.mp h
  cases h
  have A' := accounted_step A hbook hw
  unfold Turns.note
  split
  all_goals try exact A'
  split <;> exact A'

theorem TakesTurns.create (T : TakesTurns r) {i : Slot} (hi : r.lib.freeSlot = some i)
    {start stack : BitVec 64} {args : Fin 6 → BitVec 64} {priority : ℤ} {ctime : BitVec 64}
    (hclock : r.now ≤ ctime) {w : Watched} (hlib : w.sys.lib =
      r.lib.ulthreadCreate start stack args priority ctime)
    (hcontrol : w.sys.control = r.watched.sys.control) (hcreated : w.created =
      r.watched.created + 1)
    (howner : w.owner = Function.update r.watched.owner i (some r.watched.created))
    (A' : Accounted w) :
    TakesTurns { r with watched := w, now := ctime, yielded := false } := by
  have hfree : ¬ r.lib.Live i := fun h => h (freeSlot_spec hi)
  have hslot := ulthreadCreate_slot hi start stack args priority ctime
  have heq := ulthreadCreate_some hi start stack args priority ctime
  rw [← hlib] at hslot heq
  have hcur : w.sys.lib.currentThread = r.lib.currentThread := by
    rw [heq]
    rfl
  have hold : ∀ j, r.lib.Live j → w.sys.lib.Live j ∧
      (w.sys.lib.slot j).time = (r.lib.slot j).time ∧ w.owner j = r.watched.owner j := by
    intro j hj
    have hne : j ≠ i := fun h => hfree (h ▸ hj)
    unfold Library.Live
    rw [hslot, if_neg hne, howner, Function.update_of_ne hne]
    exact ⟨hj, rfl, rfl⟩
  have hnew : ∀ j, w.sys.lib.Live j → j = i ∨ r.lib.Live j := by
    intro j hj
    by_cases hne : j = i
    · exact Or.inl hne
    · unfold Library.Live at hj
      rw [hslot, if_neg hne] at hj
      exact Or.inr hj
  have howned : ∀ j k m, w.sys.lib.Live j → w.owner j = some k → m ∈ r.waiting k →
      r.lib.Live j ∧ r.watched.owner j = some k := by
    intro j k m hj hk hm
    rcases hnew j hj with rfl | hjlive
    · rw [howner, Function.update_self] at hk
      cases hk
      rw [T.fresh _ le_rfl] at hm
      cases hm
    · exact ⟨hjlive, (hold j hjlive).2.2 ▸ hk⟩
  constructor
  · exact A'
  · change w.sys.lib.mainThread.schedalgo = _
    rw [heq]
    exact T.algo
  · intro j hj
    rcases hnew j hj with rfl | hjlive
    · change (w.sys.lib.slot j).time ≤ ctime
      rw [hslot, if_pos rfl]
      exact BitVec.le_refl ctime
    · change (w.sys.lib.slot j).time ≤ ctime
      rw [(hold j hjlive).2.1]
      exact BitVec.le_trans (T.past j hjlive) hclock
  · intro k hk
    change w.created ≤ k at hk
    exact T.fresh k (by omega)
  · intro hnone
    exact T.start (hcur.symm.trans hnone)
  · intro hthread j k m hj hk
    obtain ⟨j', k', hj', hjlive, -⟩ := T.account.running (hcontrol.symm.trans hthread)
    have hcur' := hcur.symm.trans hj
    obtain rfl := Option.some.inj (hcur'.symm.trans hj')
    exact T.served (hcontrol.symm.trans hthread) j k m hcur' ((hold j hjlive).2.2 ▸ hk)
  · intro j k m hj hk hm
    obtain ⟨hjlive, hk'⟩ := howned j k m hj hk hm
    obtain ⟨j', hlive', hne, hm', hbefore⟩ := T.waits j k m hjlive hk' hm
    refine ⟨j', (hold j' hlive').1, hne, (hold j' hlive').2.2.trans hm', ?_⟩
    change w.sys.control = _ ∧ w.sys.lib.currentThread = _ ∨ w.sys.lib.Precedes j' j
    unfold Library.Precedes
    rw [(hold j' hlive').2.1, (hold j hjlive).2.1, hcontrol, hcur]
    exact hbefore
  · intro hmain j k hj hjlive hk hne
    obtain ⟨m, hm⟩ := List.exists_mem_of_ne_nil _ hne
    obtain ⟨hjlive, hk'⟩ := howned j k m hjlive hk hm
    obtain ⟨j', hlive', hlt⟩ :=
      T.returned (hcontrol ▸ hmain) j k (hcur.symm.trans hj) hjlive hk' hne
    refine ⟨j', (hold j' hlive').1, ?_⟩
    change (w.sys.lib.slot j').time < (w.sys.lib.slot j).time
    rw [(hold j' hlive').2.1, (hold j hjlive).2.1]
    exact hlt
  · intro h
    cases h

/-- What is dispatched is not the thread that has just yielded, and nobody waits on it. -/
theorem TakesTurns.fair_pick (T : TakesTurns r) (hcontrol : r.watched.sys.control ≠ .thread)
    {c p : Slot} (hc : r.lib.candidate = some c) (hpick : r.lib.Picked c p)
    (hp : r.lib.Live p) :
    (r.yielded → ∀ i, r.lib.currentThread = some i → (∃ j ≠ i, r.lib.Live j) → p ≠ i) ∧
      ∀ k, r.watched.owner p = some k → r.waiting k = [] := by
  have hrun : ∀ j, r.lib.Live j → (r.lib.slot j).state = .runnable :=
    fun j hj => T.account.live_iff.mp hj
  have hleast : ∀ j, r.lib.Live j → ¬ (r.lib.slot j).time < (r.lib.slot p).time :=
    fun j hj hlt => BitVec.not_lt.mpr (hpick.least j (hrun j hj)) hlt
  constructor
  · rintro hy i hi hother rfl
    obtain ⟨j, hj, hlt⟩ := (T.yielded hy).2 p hi hother
    exact hleast j hj hlt
  · intro k hk
    by_contra hne
    obtain ⟨m, hm⟩ := List.exists_mem_of_ne_nil _ hne
    obtain ⟨j, hj, hjp, -, hbefore⟩ := T.waits p k m hp hk hm
    rcases hbefore with ⟨hthread, -⟩ | hlt | ⟨heq, hlt⟩
    · exact hcontrol hthread
    · exact hleast j hj hlt
    · by_cases hpc : p = c
      · subst hpc
        cases hcur : r.lib.currentThread with
        | none =>
          rw [T.start hcur k] at hm
          cases hm
        | some i =>
          have hci : p = i := Option.some.inj (hc.symm.trans (candidate_current hcur))
          obtain ⟨j', hj', hlt'⟩ := T.returned hcontrol p k (hcur.trans (by rw [hci])) hp hk hne
          exact hleast j' hj' hlt'
      · have hle := (hpick.moved hpc).2 j (hrun j hj) (BitVec.le_of_eq heq)
        exact absurd hlt (not_lt.mpr hle)

theorem TakesTurns.dispatch (T : TakesTurns r) (hcontrol : r.watched.sys.control = .scheduler)
    {p : Slot} {k : ℕ} {w : Watched} (hk : r.watched.owner p = some k)
    (hcur : w.sys.lib.currentThread = some p) (hthread : w.sys.control = .thread)
    (hslot : ∀ j, w.sys.lib.slot j = r.lib.slot j)
    (halgo : w.sys.lib.mainThread.schedalgo = r.lib.mainThread.schedalgo)
    (howner : w.owner = r.watched.owner) (hcreated : w.created = r.watched.created)
    (A' : Accounted w) (t : Option (ℕ × BitVec 64)) (hp : r.lib.Live p) :
    TakesTurns ⟨w, r.now, false, r.dispatchWaiting k, t, false⟩ := by
  have hlive : ∀ j, w.sys.lib.Live j ↔ r.lib.Live j := by
    intro j
    unfold Library.Live
    rw [hslot]
  have hother : ∀ i m, r.lib.Live i → r.watched.owner i = some m → (m = k ↔ i = p) := by
    intro i m hi hm
    constructor
    · rintro rfl
      exact T.account.apart i p hi hp (hm.trans hk.symm)
    · rintro rfl
      exact Option.some.inj (hm.symm.trans hk)
  constructor
  · exact A'
  · exact halgo.trans T.algo
  · intro j hj
    change (w.sys.lib.slot j).time ≤ r.now
    rw [hslot]
    exact T.past j ((hlive j).mp hj)
  · intro m hm
    change w.created ≤ m at hm
    rw [hcreated] at hm
    have hne : m ≠ k := by
      have := (T.account.owner_lt hp hk).1
      omega
    change r.dispatchWaiting k m = []
    rw [Turns.dispatchWaiting, if_neg hne, T.fresh m hm]
    rfl
  · intro hnone
    cases hcur.symm.trans hnone
  · intro _ i m m' hi hm
    obtain rfl := Option.some.inj (hcur.symm.trans hi)
    change w.owner p = some m at hm
    rw [howner, hk] at hm
    obtain rfl := Option.some.inj hm
    change k ∉ r.dispatchWaiting k m'
    unfold Turns.dispatchWaiting
    split_ifs <;> simp
  · intro i m m' hi hm hm'
    change w.owner i = some m at hm
    rw [howner] at hm
    replace hi := (hlive i).mp hi
    change m' ∈ r.dispatchWaiting k m at hm'
    unfold Turns.dispatchWaiting at hm'
    split_ifs at hm' with hmk
    · obtain ⟨hmem, hne⟩ := List.mem_filter.mp hm'
      obtain ⟨j, hj, hown⟩ := mem_threads.mp hmem
      have hip := (hother i m hi hm).mp hmk
      refine ⟨j, (hlive j).mpr hj, fun hji => ?_, howner ▸ hown, Or.inl ⟨hthread, hip ▸ hcur⟩⟩
      have := (hother j m' hj hown).mpr (hji.trans hip)
      simp [this] at hne
    · obtain ⟨j, hj, hne, hown, hbefore⟩ := T.waits i m m' hi hm (List.mem_filter.mp hm').1
      refine ⟨j, (hlive j).mpr hj, hne, howner ▸ hown, Or.inr ?_⟩
      change w.sys.lib.Precedes j i
      unfold Library.Precedes
      rw [hslot, hslot]
      exact hbefore.resolve_left fun h => by rw [hcontrol] at h; cases h.1
  · intro h
    exact absurd hthread h
  · intro h
    cases h

theorem TakesTurns.yield (T : TakesTurns r) {i : Slot} {k : ℕ} {ctime : BitVec 64}
    (hcontrol : r.watched.sys.control = .thread) (hi : r.lib.currentThread = some i)
    (hk : r.watched.owner i = some k) (hclock : r.now ≤ ctime)
    (hlater : (∃ j ≠ i, r.lib.Live j) → ∃ j ≠ i, r.lib.Live j ∧ (r.lib.slot j).time < ctime)
    (hbehind : ∀ j m, r.lib.Live j → r.watched.owner j = some m → m ∈ r.waiting k →
      (r.lib.slot j).time < ctime ∨ (r.lib.slot j).time = ctime ∧ j < i)
    {w : Watched} (hcur : w.sys.lib.currentThread = some i)
    (hback : w.sys.control = .scheduler)
    (hlive : ∀ j, w.sys.lib.Live j ↔ r.lib.Live j)
    (htime : ∀ j, (w.sys.lib.slot j).time = if j = i then ctime else (r.lib.slot j).time)
    (halgo : w.sys.lib.mainThread.schedalgo = r.lib.mainThread.schedalgo)
    (howner : w.owner = r.watched.owner) (hcreated : w.created = r.watched.created)
    (A' : Accounted w) : TakesTurns { r with watched := w, now := ctime, yielded := true } := by
  have hlater' : (∃ j ≠ i, r.lib.Live j) →
      ∃ j, w.sys.lib.Live j ∧ (w.sys.lib.slot j).time < (w.sys.lib.slot i).time := by
    intro hother
    obtain ⟨j, hne, hj, hlt⟩ := hlater hother
    refine ⟨j, (hlive j).mpr hj, ?_⟩
    rw [htime, htime, if_neg hne, if_pos rfl]
    exact hlt
  have hwaiter : ∀ j m m', r.lib.Live j → r.watched.owner j = some m' → m' ∈ r.waiting m →
      j ≠ i := by
    rintro j m m' hj hown hm rfl
    exact T.served hcontrol j m' m hi hown hm
  have hback' : w.sys.control ≠ .thread := by
    rw [hback]
    decide
  constructor
  · exact A'
  · exact halgo.trans T.algo
  · intro j hj
    change (w.sys.lib.slot j).time ≤ ctime
    rw [htime]
    split_ifs
    · exact BitVec.le_refl ctime
    · exact BitVec.le_trans (T.past j ((hlive j).mp hj)) hclock
  · intro m hm
    exact T.fresh m (hcreated ▸ hm)
  · intro hnone
    cases hcur.symm.trans hnone
  · intro hthread
    exact absurd hthread hback'
  · intro j m m' hj hm hm'
    change w.owner j = some m at hm
    rw [howner] at hm
    replace hj := (hlive j).mp hj
    obtain ⟨j', hj', hne, hown, hbefore⟩ := T.waits j m m' hj hm hm'
    have hj'i := hwaiter j' m m' hj' hown hm'
    refine ⟨j', (hlive j').mpr hj', hne, howner ▸ hown, Or.inr ?_⟩
    change w.sys.lib.Precedes j' j
    unfold Library.Precedes
    rw [htime, htime, if_neg hj'i]
    by_cases hji : j = i
    · rw [if_pos hji, hji]
      apply hbehind j' m' hj' hown
      rw [hji, hk] at hm
      exact Option.some.inj hm ▸ hm'
    · rw [if_neg hji]
      exact hbefore.resolve_left fun h => hji (Option.some.inj (h.2.symm.trans hi))
  · intro _ j m hj hjlive hm hne
    obtain rfl := Option.some.inj (hcur.symm.trans hj)
    obtain ⟨m', hm'⟩ := List.exists_mem_of_ne_nil _ hne
    obtain ⟨j', hj', hne', -⟩ := T.waits i m m' ((hlive i).mp hjlive) (howner ▸ hm) hm'
    exact hlater' ⟨j', hne', hj'⟩
  · intro _
    refine ⟨hback', fun j hj hother => ?_⟩
    obtain rfl := Option.some.inj (hcur.symm.trans hj)
    obtain ⟨j', hne, hj'⟩ := hother
    exact hlater' ⟨j', hne, (hlive j').mp hj'⟩

theorem TakesTurns.destroy (T : TakesTurns r) {i : Slot}
    (hcontrol : r.watched.sys.control = .thread) (hi : r.lib.currentThread = some i)
    {w : Watched} (hcur : w.sys.lib.currentThread = some i)
    (hback : w.sys.control = .scheduler)
    (hlive : ∀ j, w.sys.lib.Live j ↔ r.lib.Live j ∧ j ≠ i)
    (htime : ∀ j, j ≠ i → (w.sys.lib.slot j).time = (r.lib.slot j).time)
    (halgo : w.sys.lib.mainThread.schedalgo = r.lib.mainThread.schedalgo)
    (howner : w.owner = r.watched.owner) (hcreated : w.created = r.watched.created)
    (A' : Accounted w) :
    TakesTurns { r with
      watched := w
      yielded := false
      ended := true
      waiting := fun m => (r.waiting m).filter (· ∈ w.threads) } := by
  have hback' : w.sys.control ≠ .thread := by
    rw [hback]
    decide
  constructor
  · exact A'
  · exact halgo.trans T.algo
  · intro j hj
    change (w.sys.lib.slot j).time ≤ r.now
    obtain ⟨hj, hne⟩ := (hlive j).mp hj
    rw [htime j hne]
    exact T.past j hj
  · intro m hm
    change (r.waiting m).filter (· ∈ w.threads) = []
    rw [T.fresh m (hcreated ▸ hm)]
    rfl
  · intro hnone
    cases hcur.symm.trans hnone
  · intro hthread
    exact absurd hthread hback'
  · intro j m m' hj hm hm'
    obtain ⟨hjlive, hji⟩ := (hlive j).mp hj
    change w.owner j = some m at hm
    rw [howner] at hm
    obtain ⟨j', hj', hne, hown, hbefore⟩ := T.waits j m m' hjlive hm (List.mem_filter.mp hm').1
    have hj'i : j' ≠ i := by
      rintro rfl
      exact T.served hcontrol j' m' m hi hown (List.mem_filter.mp hm').1
    refine ⟨j', (hlive j').mpr ⟨hj', hj'i⟩, hne, howner ▸ hown, Or.inr ?_⟩
    change w.sys.lib.Precedes j' j
    unfold Library.Precedes
    rw [htime j' hj'i, htime j hji]
    exact hbefore.resolve_left fun h => hji (Option.some.inj (h.2.symm.trans hi))
  · intro _ j m hj hjlive
    obtain rfl := Option.some.inj (hcur.symm.trans hj)
    exact absurd rfl ((hlive i).mp hjlive).2
  · intro h
    cases h

/-- `schedule` and the return of `ulthread_schedule` leave the library as it is. -/
theorem TakesTurns.enter (T : TakesTurns r) (hcontrol : r.watched.sys.control ≠ .thread)
    {control : Control} {regs : Context} (hcontrol' : control ≠ .thread)
    (A' : Accounted { r.watched with sys := ⟨r.lib, control, regs⟩ }) :
    TakesTurns { r with watched := { r.watched with sys := ⟨r.lib, control, regs⟩ },
                        yielded := false } := by
  constructor
  · exact A'
  · exact T.algo
  · exact T.past
  · exact T.fresh
  · exact T.start
  · intro hthread
    exact absurd hthread hcontrol'
  · intro i k m hi hk hm
    obtain ⟨j, hj, hne, hown, hbefore⟩ := T.waits i k m hi hk hm
    exact ⟨j, hj, hne, hown, Or.inr (hbefore.resolve_left fun h => hcontrol h.1)⟩
  · intro _
    exact T.returned hcontrol
  · intro h
    cases h

theorem fair_of_not_dispatch (h : ∀ regs, e ≠ .dispatch regs) : Fair r e r' :=
  ⟨fun regs he => absurd he (h regs), fun regs he => absurd he (h regs)⟩

theorem takesTurns_step (T : TakesTurns r) (hclock : Clocked r e) (hsep : Separated r e)
    (h : observe text r e = .ok r') : TakesTurns r' ∧ Fair r e r' := by
  obtain ⟨w, hw, h⟩ := bind_ok_iff.mp h
  cases h
  have A' := accounted_step T.account hsep.1 hw
  obtain ⟨s, hs, h⟩ := bind_ok_iff.mp hw
  cases h
  cases e with
  | create start stack args priority ctime =>
    refine ⟨?_, fair_of_not_dispatch fun _ h => by cases h⟩
    simp only [step] at hs
    split_ifs at hs
    cases hs
    obtain ⟨i, hi⟩ := Option.isSome_iff_exists.mp hsep.1
    simp only [record, hi] at A' ⊢
    exact T.create hi hclock.1 rfl rfl rfl rfl A'
  | schedule =>
    refine ⟨?_, fair_of_not_dispatch fun _ h => by cases h⟩
    simp only [step] at hs
    split_ifs at hs with hmain
    cases hs
    exact T.enter (by rw [hmain]; decide) (by decide) A'
  | dispatch regs =>
    obtain ⟨hcontrol, -, p, hlive, hcur, -, hthread, hslot⟩ := dispatch_eq T.account hs
    obtain ⟨c, hc, hpick, halgo⟩ := dispatch_picks hs
    have hp := hlive hsep.1
    obtain ⟨k, -, hk, -⟩ := T.account.owned p hp
    obtain rfl := Option.some.inj (hcur.symm.trans hpick)
    have hpicked := @picked r.lib (by rw [T.algo]; decide) text c
    obtain ⟨hchanges, hwaits⟩ := T.fair_pick (by rw [hcontrol]; decide) hc hpicked hp
    have hrun : (record r.watched (.dispatch regs) s).running = some k := by
      simp [record, hcur, hk]
    constructor
    · simp only [Turns.note, hrun]
      exact T.dispatch (w := record r.watched (.dispatch regs) s) hcontrol hk hcur hthread hslot
        halgo rfl rfl A' _ hp
    · constructor
      · intro _ _ hy i hi hother
        simp only [Turns.note, hrun]
        intro heq
        exact hchanges hy i hi hother (Option.some.inj (hcur.symm.trans heq))
      · intro _ _
        simp only [Turns.note, hrun]
        exact ⟨k, rfl, hwaits k hk⟩
  | finish =>
    refine ⟨?_, fair_of_not_dispatch fun _ h => by cases h⟩
    simp only [step] at hs
    split_ifs at hs with hcond
    cases hs
    exact T.enter (by rw [hcond.1]; decide) (by decide) A'
  | yield ctime regs =>
    refine ⟨?_, fair_of_not_dispatch fun _ h => by cases h⟩
    simp only [step] at hs
    split at hs
    · next i hcontrol hi =>
      cases hs
      obtain ⟨j, k, hj, -, hk, -⟩ := T.account.running hcontrol
      obtain rfl := Option.some.inj (hi.symm.trans hj)
      obtain ⟨hlater, hbehind⟩ := hsep.2 i hi k hk
      have hfcfs : r.lib.mainThread.schedalgo ≠ .fcfs := by
        rw [T.algo]
        decide
      refine T.yield hcontrol hi hk hclock hlater (fun j m hj => hbehind j hj m) ?_ rfl (fun j => ?_)
        (yield_time hfcfs i ctime regs) ?_ rfl rfl A'
      · exact (ulthreadYield_fields r.lib i ctime).1.trans hi
      · unfold Library.Live
        exact iff_of_eq (congrArg (· ≠ _) (yield_slot r.lib i ctime regs j).1)
      · exact (ulthreadYield_fields r.lib i ctime).2.1
    · cases hs
  | destroy regs =>
    refine ⟨?_, fair_of_not_dispatch fun _ h => by cases h⟩
    simp only [step] at hs
    split at hs
    · next i hcontrol hi =>
      cases hs
      have hfirst := fun j hj => hsep.1 i j hi hj
      have hslot := destroy_slot hfirst regs
      refine T.destroy hcontrol hi ?_ rfl (fun j => ?_) (fun j hj => ?_) ?_ rfl rfl A'
      · simp only [record, switchToMain, ulthreadDestroy_own hfirst]
        exact hi
      · unfold Library.Live
        simp only [record, hslot]
        by_cases hj : j = i <;> simp [hj, Uthread.cleared, Turns.lib]
      · simp only [record, hslot, if_neg hj]
        rfl
      · simp only [record, switchToMain, ulthreadDestroy_own hfirst]
        rfl
    · cases hs

end Steps

/-- ROUNDROBIN is fair in every run, with a clock that does not go back, in which every
yield is separated from the turns of the threads that wait. -/
theorem round_robin_fair (text : ℤ) {es : List Event}
    (hclock : Guarded (observe text) Clocked (Turns.boot .roundrobin) es)
    (h : Guarded (observe text) Separated (Turns.boot .roundrobin) es) :
    Guarded (observe text) (fun r e => ∀ r', observe text r e = .ok r' → Fair r e r')
      (Turns.boot .roundrobin) es := by
  apply (hclock.and h).imp (I := TakesTurns)
  · intro r e r' T hguard hr
    exact (takesTurns_step T hguard.1 hguard.2 hr).1
  · intro r e T hguard r' hr
    exact (takesTurns_step T hguard.1 hguard.2 hr).2
  · exact takesTurns_boot

/-- Two threads, the first of which yields at a given time. -/
def firstYields (ctime : BitVec 64) : List Event :=
  [.create 0 0 (fun _ => 0) 0 1, .create 0 0 (fun _ => 0) 0 1, .schedule, .dispatch fun _ => 0,
    .yield ctime fun _ => 0]

/-- The thread yields in the next tick, and the other one is dispatched. -/
theorem sample_round_robin_fair :
    Guarded (observe 0) (fun r e => ∀ r', observe 0 r e = .ok r' → Fair r e r')
      (Turns.boot .roundrobin) (firstYields 2 ++ [.dispatch fun _ => 0]) :=
  round_robin_fair 0 (by decide +kernel) (by decide +kernel)

/-- The thread yields in the tick in which both were created, and is dispatched again. -/
theorem same_tick_keeps_turn :
    Guarded (observe 0) Clocked (Turns.boot .roundrobin)
      (firstYields 1 ++ [.dispatch fun _ => 0]) ∧
    ¬ Guarded (observe 0) (fun r e => ∀ r', observe 0 r e = .ok r' → Fair r e r')
      (Turns.boot .roundrobin) (firstYields 1 ++ [.dispatch fun _ => 0]) := by
  constructor
  · decide +kernel
  · intro h
    have hrun : (exec (observe 0) (Turns.boot .roundrobin) (firstYields 1)).toOption.map
        (fun r => (r.yielded, r.lib.currentThread, decide (r.lib.Live 1),
          (observe 0 r (.dispatch fun _ => 0)).toOption.map fun r' => r'.lib.currentThread)) =
        some (true, some 0, true, some (some 0)) := by
      decide +kernel
    cases hexec : exec (observe 0) (Turns.boot .roundrobin) (firstYields 1) with
    | error e =>
      rw [hexec] at hrun
      cases hrun
    | ok r =>
      rw [hexec] at hrun
      simp only [Except.toOption, Option.map_some, Option.some.injEq, Prod.mk.injEq,
        decide_eq_true_eq] at hrun
      obtain ⟨hy, hcur, hlive, hnext⟩ := hrun
      cases hdispatch : observe 0 r (.dispatch fun _ => 0) with
      | error e =>
        rw [hdispatch] at hnext
        cases hnext
      | ok r' =>
        rw [hdispatch] at hnext
        have hfair := (h.last hexec) r' hdispatch
        exact hfair.changes _ rfl hy 0 hcur ⟨1, by decide, hlive⟩ (Option.some.inj hnext)

end AdvancedOperatingSystems.UlThread
