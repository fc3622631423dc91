import AdvancedOperatingSystems.UlThread.Turns

/-!
# The highest priority

PRIORITY tells the thread that has just yielded by its tid. It finds the highest priority
among the runnable threads with another tid than that of `last_yielded_thread`, a pointer
that is NULL until the first thread has been switched to.
-/

namespace AdvancedOperatingSystems.UlThread

open Foundations Library

/-- A runnable thread other than the one whose yield led to the scheduler. -/
def Turns.Others (r : Turns) (j : Slot) : Prop :=
  r.lib.Live j ∧ ¬ (r.yielded = true ∧ r.lib.currentThread = some j)

/-- A dispatch takes a runnable thread, of those with the highest priority among all but the
one that has just yielded, if there are others. -/
def Highest (r : Turns) (e : Event) (r' : Turns) : Prop :=
  ∀ regs, e = .dispatch regs → ∃ p, r'.lib.currentThread = some p ∧
    (r.lib.slot p).state = .runnable ∧ ((∃ j, r.Others j) →
      r.Others p ∧ ∀ j, r.Others j → (r.lib.slot j).priority ≤ (r.lib.slot p).priority)

/-- A dispatch reads `last_yielded_thread->tid` for each runnable thread. -/
def ReadsNull (r : Turns) (e : Event) : Prop :=
  (∃ regs, e = .dispatch regs) ∧ r.lib.lastYieldedThread = none ∧
    ∃ i, (r.lib.slot i).state = .runnable

/-- A runnable thread with another tid than the last one that left. -/
def Library.Told (l : Library) (text : ℤ) (i : Slot) : Prop :=
  (l.slot i).state = .runnable ∧ (l.slot i).tid ≠ l.lastTid text

/-- There is a runnable thread, and a thread with the tid of the last one that left has no
higher priority than some thread with another tid, or else, if there is none, than the
current thread, and that one has not just yielded. -/
def Distinguished (text : ℤ) (r : Turns) (e : Event) : Prop :=
  ∀ regs, e = .dispatch regs → (∃ j, r.lib.Live j) ∧ ∀ j, r.Others j →
    (r.lib.slot j).tid = r.lib.lastTid text →
      (∃ k, r.lib.Told text k ∧ (r.lib.slot j).priority ≤ (r.lib.slot k).priority) ∨
      (∀ k, ¬ r.lib.Told text k) ∧ ∃ c, r.lib.candidate = some c ∧ r.Others c ∧
        (r.lib.slot j).priority ≤ (r.lib.slot c).priority

section Selection

variable {l : Library} {text : ℤ}

/-- From a thread that is told apart the loop goes to the highest priority. -/
theorem foldl_prior_told (is : List Slot) {c : Slot} (hc : l.Told text c) :
    l.Told text (is.foldl (l.prior (l.lastTid text)) c) ∧
      (l.slot c).priority ≤ (l.slot (is.foldl (l.prior (l.lastTid text)) c)).priority ∧
      ∀ i ∈ is, l.Told text i → (l.slot i).priority ≤
        (l.slot (is.foldl (l.prior (l.lastTid text)) c)).priority := by
  induction is generalizing c with
  | nil => exact ⟨hc, le_rfl, fun i hi => by cases hi⟩
  | cons i is ih =>
    rw [List.foldl_cons]
    by_cases hmoves : l.Told text i ∧ (l.slot c).priority ≤ (l.slot i).priority
    · have hstep : l.prior (l.lastTid text) c i = i := by
        simp [prior, hmoves.1.1, hmoves.1.2, hmoves.2, hc.2]
      rw [hstep]
      obtain ⟨htold, hle, hall⟩ := ih hmoves.1
      refine ⟨htold, hmoves.2.trans hle, fun j hj hjtold => ?_⟩
      rcases List.mem_cons.mp hj with rfl | hj
      · exact hle
      · exact hall j hj hjtold
    · have hstep : l.prior (l.lastTid text) c i = c := by
        unfold prior
        split_ifs with hrun htid hpref
        · rfl
        · exact absurd htid.1 hc.2
        · exact absurd ⟨⟨not_not.mp hrun, hpref.1⟩, hpref.2⟩ hmoves
        · rfl
      rw [hstep]
      obtain ⟨htold, hle, hall⟩ := ih hc
      refine ⟨htold, hle, fun j hj hjtold => ?_⟩
      rcases List.mem_cons.mp hj with rfl | hj
      · have hlt := not_le.mp fun h => hmoves ⟨hjtold, h⟩
        exact hlt.le.trans hle
      · exact hall j hj hjtold

/-- From the thread that left last the loop goes to the highest priority of the others, or
stays where it is if there are none. -/
theorem foldl_prior_left (is : List Slot) {c : Slot} (hc : (l.slot c).tid = l.lastTid text) :
    (∀ i ∈ is, ¬ l.Told text i) ∧ is.foldl (l.prior (l.lastTid text)) c = c ∨
      l.Told text (is.foldl (l.prior (l.lastTid text)) c) ∧
        ∀ i ∈ is, l.Told text i → (l.slot i).priority ≤
          (l.slot (is.foldl (l.prior (l.lastTid text)) c)).priority := by
  induction is with
  | nil => exact Or.inl ⟨fun i hi => (by cases hi), rfl⟩
  | cons i is ih =>
    rw [List.foldl_cons]
    by_cases htold : l.Told text i
    · have hstep : l.prior (l.lastTid text) c i = i := by
        simp [prior, htold.1, htold.2, hc]
      rw [hstep]
      obtain ⟨htold', hle, hall⟩ := foldl_prior_told is htold
      refine Or.inr ⟨htold', fun j hj hjtold => ?_⟩
      rcases List.mem_cons.mp hj with rfl | hj
      · exact hle
      · exact hall j hj hjtold
    · have hstep : l.prior (l.lastTid text) c i = c := by
        unfold prior
        split_ifs with hrun htid hpref
        · rfl
        · exact absurd ⟨not_not.mp hrun, htid.2⟩ htold
        · exact absurd ⟨not_not.mp hrun, hpref.1⟩ htold
        · rfl
      rw [hstep]
      rcases ih with ⟨hnone, hstay⟩ | ⟨htold', hall⟩
      · refine Or.inl ⟨fun j hj => ?_, hstay⟩
        rcases List.mem_cons.mp hj with rfl | hj
        · exact htold
        · exact hnone j hj
      · refine Or.inr ⟨htold', fun j hj hjtold => ?_⟩
        rcases List.mem_cons.mp hj with rfl | hj
        · exact absurd hjtold htold
        · exact hall j hj hjtold

end Selection

section Steps

variable {r r' : Turns} {text : ℤ} {e : Event}

theorem Tabled.candidate {s : System} (T : Tabled s) (hcontrol : s.control ≠ .thread) {c : Slot}
    (hc : s.lib.candidate = some c) :
    s.lib.currentThread = some c ∧ (s.lib.slot c).tid = s.lib.lastTid text ∨
      s.lib.currentThread = none ∧ s.lib.lastYieldedThread = none ∧
        (s.lib.slot c).state = .runnable := by
  have hlast := T.last hcontrol
  unfold Library.candidate at hc
  split at hc
  · next i hi =>
    obtain rfl := Option.some.inj hc
    refine Or.inl ⟨hi, ?_⟩
    simp [lastTid, hlast, hi]
  · next hnone =>
    refine Or.inr ⟨hnone, hlast.trans hnone, ?_⟩
    have := (first_eq_some hc).1
    simpa using this

/-- What the loop for PRIORITY ends on. -/
theorem Tabled.pick_priority {s : System} (T : Tabled s) (hcontrol : s.control ≠ .thread)
    (halgo : s.lib.mainThread.schedalgo = .priority) {c : Slot}
    (hc : s.lib.candidate = some c) :
    (∀ i, ¬ s.lib.Told text i) ∧ s.lib.pick text c = c ∨
      s.lib.Told text (s.lib.pick text c) ∧ ∀ i, s.lib.Told text i →
        (s.lib.slot i).priority ≤ (s.lib.slot (s.lib.pick text c)).priority := by
  have hpick : s.lib.pick text c =
      (List.finRange MAXULTHREADS).foldl (s.lib.prior (s.lib.lastTid text)) c := by
    have hpref : s.lib.preferred text = s.lib.prior (s.lib.lastTid text) := by
      funext a i
      simp [preferred, halgo]
    rw [pick, hpref]
  rw [hpick]
  by_cases htid : (s.lib.slot c).tid = s.lib.lastTid text
  · rcases foldl_prior_left (List.finRange MAXULTHREADS) htid with ⟨hnone, hstay⟩ | ⟨htold, hall⟩
    · exact Or.inl ⟨fun i => hnone i (List.mem_finRange i), hstay⟩
    · exact Or.inr ⟨htold, fun i => hall i (List.mem_finRange i)⟩
  · rcases @Tabled.candidate text s T hcontrol c hc with ⟨-, h⟩ | ⟨-, -, hrun⟩
    · exact absurd h htid
    · obtain ⟨htold, -, hall⟩ := foldl_prior_told (List.finRange MAXULTHREADS) ⟨hrun, htid⟩
      exact Or.inr ⟨htold, fun i => hall i (List.mem_finRange i)⟩

theorem Tabled.pick_live {s : System} (T : Tabled s) (hcontrol : s.control ≠ .thread)
    (halgo : s.lib.mainThread.schedalgo = .priority) {c : Slot}
    (hc : s.lib.candidate = some c) (hlive : ∃ j, s.lib.Live j) :
    s.lib.Live (s.lib.pick text c) := by
  rcases @Tabled.pick_priority text s T hcontrol halgo c hc with ⟨hnone, hstay⟩ | ⟨htold, -⟩
  · rw [hstay]
    by_contra hdead
    obtain ⟨j, hj⟩ := hlive
    have hsame := not_not.mp fun h => hnone j ⟨T.live_iff.mp hj, h⟩
    have hpos := T.tid_pos hj
    rcases @Tabled.candidate text s T hcontrol c hc with ⟨-, htid⟩ | ⟨-, -, hrun⟩
    · have := (T.free hdead).2
      omega
    · exact hdead (T.live_iff.mpr hrun)
  · exact T.live_iff.mpr htold.1

/-- The table and the algorithm, which every step keeps. -/
structure Prioritised (r : Turns) : Prop where
  table : Tabled r.watched.sys
  algo : r.lib.mainThread.schedalgo = .priority

theorem prioritised_boot : Prioritised (Turns.boot .priority) := ⟨tabled_boot .priority, rfl⟩

theorem prioritised_step (P : Prioritised r) (h : observe text r e = .ok r') :
    Prioritised r' := by
  have hs := observe_step h
  refine ⟨tabled_step P.table hs fun regs he i hi hlive => ?_, (step_schedalgo hs).trans P.algo⟩
  subst he
  obtain ⟨c, hc, hcur, -⟩ := dispatch_picks hs
  obtain rfl := Option.some.inj (hcur.symm.trans hi)
  exact P.table.pick_live (dispatch_control hs) P.algo hc hlive

theorem Prioritised.others (P : Prioritised r) (hcontrol : r.watched.sys.control ≠ .thread)
    {c j : Slot} (hc : r.lib.candidate = some c) (hj : r.lib.Told text j) : r.Others j := by
  refine ⟨P.table.live_iff.mpr hj.1, fun hy => ?_⟩
  rcases @Tabled.candidate text _ P.table hcontrol c hc with ⟨hcur, htid⟩ | ⟨hcur, -⟩
  · obtain rfl := Option.some.inj (hcur.symm.trans hy.2)
    exact hj.2 htid
  · cases hcur.symm.trans hy.2

/-- The exact condition for one dispatch. -/
theorem highest_iff (P : Prioritised r) (h : observe text r e = .ok r') :
    Highest r e r' ↔ Distinguished text r e := by
  have hs := observe_step h
  apply forall_congr'
  intro regs
  apply imp_congr_right
  intro he
  subst he
  have hcontrol := dispatch_control hs
  obtain ⟨c, hc, hcur, -⟩ := dispatch_picks hs
  have hrun : ∀ j, r.lib.Live j ↔ (r.lib.slot j).state = .runnable := fun j => P.table.live_iff
  rcases @Tabled.pick_priority text _ P.table hcontrol P.algo c hc with
    ⟨hnone, hstay⟩ | ⟨htold, hall⟩
  · have hsame : ∀ j, r.lib.Live j → (r.lib.slot j).tid = r.lib.lastTid text := fun j hj =>
      not_not.mp fun h => hnone j ⟨(hrun j).mp hj, h⟩
    have hcur' : r'.lib.currentThread = some c := hcur.trans (congrArg some hstay)
    constructor
    · rintro ⟨p, hp, hprun, hbest⟩
      obtain rfl := Option.some.inj (hcur'.symm.trans hp)
      refine ⟨⟨c, (hrun c).mpr hprun⟩, fun j hj _ => Or.inr ⟨hnone, c, hc, ?_⟩⟩
      exact ⟨(hbest ⟨j, hj⟩).1, (hbest ⟨j, hj⟩).2 j hj⟩
    · rintro ⟨⟨j, hj⟩, hcond⟩
      have hothers : ∀ j, r.Others j → r.Others c ∧
          (r.lib.slot j).priority ≤ (r.lib.slot c).priority := by
        intro j hj
        rcases hcond j hj (hsame j hj.1) with ⟨k, hk, -⟩ | ⟨-, c', hc', hle⟩
        · exact absurd hk (hnone k)
        · obtain rfl := Option.some.inj (hc.symm.trans hc')
          exact hle
      refine ⟨c, hcur', ?_, fun ⟨k, hk⟩ => ⟨(hothers k hk).1, fun k hk => (hothers k hk).2⟩⟩
      by_cases hother : r.Others j
      · exact (hrun c).mp (hothers j hother).1.1
      · have hyielder := not_not.mp fun h => hother ⟨hj, h⟩
        have hcj : c = j := Option.some.inj (hc.symm.trans (candidate_current hyielder.2))
        rw [hcj]
        exact (hrun j).mp hj
  · have hothers := fun j hj => @Prioritised.others r text P hcontrol c j hc hj
    constructor
    · rintro ⟨p, hp, hprun, hbest⟩
      obtain rfl := Option.some.inj (hcur.symm.trans hp)
      refine ⟨⟨_, (hrun _).mpr hprun⟩, fun j hj _ => Or.inl ⟨_, htold, ?_⟩⟩
      exact (hbest ⟨j, hj⟩).2 j hj
    · rintro ⟨-, hcond⟩
      refine ⟨_, hcur, htold.1, fun _ => ⟨hothers _ htold, fun j hj => ?_⟩⟩
      by_cases htid : (r.lib.slot j).tid = r.lib.lastTid text
      · rcases hcond j hj htid with ⟨k, hk, hle⟩ | ⟨hnone, -⟩
        · exact hle.trans (hall k hk)
        · exact absurd htold (hnone _)
      · exact hall j ⟨(hrun j).mp hj.1, htid⟩

theorem reads_null_iff (P : Prioritised r) (hstart : r.lib.currentThread = none)
    (h : observe text r e = .ok r') : ReadsNull r e ↔ ∃ regs, e = .dispatch regs := by
  refine ⟨fun hnull => hnull.1, ?_⟩
  rintro ⟨regs, rfl⟩
  have hs := observe_step h
  obtain ⟨c, hc, -⟩ := dispatch_picks hs
  rcases @Tabled.candidate text _ P.table (dispatch_control hs) c hc with ⟨hcur, -⟩ | hfirst
  · cases hcur.symm.trans hstart
  · exact ⟨⟨regs, rfl⟩, hfirst.2.1, c, hfirst.2.2⟩

/-- Without a dispatch no thread becomes the current one. -/
theorem start_kept (hstart : r.lib.currentThread = none)
    (h : observe text r e = .ok r') (hne : ∀ regs, e ≠ .dispatch regs) :
    r'.lib.currentThread = none := by
  have hs := observe_step h
  change r'.watched.sys.lib.currentThread = none
  cases e with
  | create start stack args priority ctime =>
    simp only [step] at hs
    split_ifs at hs
    rw [← Except.ok.inj hs]
    simp only [ulthreadCreate]
    split <;> exact hstart
  | schedule =>
    simp only [step] at hs
    split_ifs at hs
    rw [← Except.ok.inj hs]
    exact hstart
  | dispatch regs => exact absurd rfl (hne regs)
  | finish =>
    simp only [step] at hs
    split_ifs at hs
    rw [← Except.ok.inj hs]
    exact hstart
  | yield ctime regs =>
    simp only [step] at hs
    split at hs
    · next hcur => cases hcur.symm.trans hstart
    · cases hs
  | destroy regs =>
    simp only [step] at hs
    split at hs
    · next hcur => cases hcur.symm.trans hstart
    · cases hs

end Steps

/-- A run under PRIORITY takes the highest priority at every dispatch and never reads
through NULL exactly when nothing is dispatched. A wrong thread is taken exactly at the
dispatches at which a thread with the tid of the last one that left is not distinguished. -/
theorem priority_selects_iff (text : ℤ) (es : List Event) :
    (Guarded (observe text)
        (fun r e => ∀ r', observe text r e = .ok r' → Highest r e r' ∧ ¬ ReadsNull r e)
        (Turns.boot .priority) es ↔
      Guarded (observe text)
        (fun r e => ∀ r', observe text r e = .ok r' → ∀ regs, e ≠ .dispatch regs)
        (Turns.boot .priority) es) ∧
    (Guarded (observe text) (fun r e => ∀ r', observe text r e = .ok r' → Highest r e r')
        (Turns.boot .priority) es ↔
      Guarded (observe text)
        (fun r e => ∀ r', observe text r e = .ok r' → Distinguished text r e)
        (Turns.boot .priority) es) := by
  constructor
  · apply guarded_congr (I := fun r => Prioritised r ∧ r.lib.currentThread = none)
      (D := fun _ _ => True)
    · intro r e ⟨P, hstart⟩ _
      apply forall_congr'
      intro r'
      apply imp_congr_right
      intro h
      constructor
      · rintro ⟨-, hnull⟩ regs rfl
        exact hnull ((reads_null_iff P hstart h).mpr ⟨regs, rfl⟩)
      · intro hne
        exact ⟨fun regs he => absurd he (hne regs), fun hnull =>
          hnull.1.elim fun regs he => hne regs he⟩
    · intro r e r' ⟨P, hstart⟩ _ hne h
      exact ⟨prioritised_step P h, start_kept hstart h (hne r' h)⟩
    · exact ⟨prioritised_boot, rfl⟩
    · exact guarded_of_forall fun _ _ => trivial
  · apply guarded_congr (I := Prioritised) (D := fun _ _ => True)
    · intro r e P _
      apply forall_congr'
      intro r'
      apply imp_congr_right
      intro h
      exact highest_iff P h
    · intro r e r' P _ _ h
      exact prioritised_step P h
    · exact prioritised_boot
    · exact guarded_of_forall fun _ _ => trivial

/-- The first dispatch reads through NULL. -/
theorem first_dispatch_reads_null :
    ¬ Guarded (observe 0)
      (fun r e => ∀ r', observe 0 r e = .ok r' → Highest r e r' ∧ ¬ ReadsNull r e)
      (Turns.boot .priority) startThread := by
  intro h
  have hok : (exec (observe 0) (Turns.boot .priority) (startThread.take 2)).toOption.map
      (fun r => (r.lib.lastYieldedThread, (r.lib.slot 0).state,
        (observe 0 r (.dispatch fun _ => 0)).toOption.isSome)) =
      some (none, .runnable, true) := by
    decide +kernel
  cases hexec : exec (observe 0) (Turns.boot .priority) (startThread.take 2) with
  | error e =>
    rw [hexec] at hok
    cases hok
  | ok r =>
    rw [hexec] at hok
    simp only [Except.toOption, Option.map_some, Option.some.injEq, Prod.mk.injEq] at hok
    obtain ⟨hlast, hrun, hdispatch⟩ := hok
    cases hok : observe 0 r (.dispatch fun _ => 0) with
    | error e =>
      rw [hok] at hdispatch
      cases hdispatch
    | ok r' =>
      have hsplit : startThread = startThread.take 2 ++ [.dispatch fun _ => 0] := rfl
      rw [hsplit] at h
      exact (h.last hexec r' hok).2 ⟨⟨_, rfl⟩, hlast, 0, hrun⟩

end AdvancedOperatingSystems.UlThread
