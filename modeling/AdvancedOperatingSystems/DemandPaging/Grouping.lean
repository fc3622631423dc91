import Mathlib.Data.Finset.Card
import Mathlib.Logic.Relation
import AdvancedOperatingSystems.DemandPaging.Exclusive
import AdvancedOperatingSystems.DemandPaging.Recording

/-!
# The account of CoW groups

The count of a group leaves its founder out, so that no group is booked as its members are. A
run keeps the books only as long as no `fork(1)` gets past `allocproc`.
-/

namespace AdvancedOperatingSystems.DemandPaging

open Foundations Riscv Riscv.PageTable

section Framed

variable {L : Layout} {s : System} {i : ℕ} {p p' : Proc} {m : Memory} {c c' : Cpu}

theorem FramedProc.of_pages (h : FramedProc L p) (hpg : p'.pagetable = p.pagetable)
    (ht : p'.trapframe = p.trapframe) : FramedProc L p' where
  table := by
    rw [hpg]
    exact h.table
  trapframe := by
    rw [ht]
    exact h.trapframe
  owns := by
    rw [hpg, ht]
    exact h.owns

theorem System.Framed.setProc (h : s.Framed L) (hp : FramedProc L p) : (s.setProc i p).Framed L where
  memory := h.memory
  proc := by
    intro j
    by_cases hj : j = i
    · subst hj
      simp only [System.setProc, Function.update_self]
      exact hp
    · simp only [System.setProc, Function.update_of_ne hj]
      exact h.proc j

theorem System.Framed.setMemory (h : s.Framed L) (hm : m.Framed L) : (s.setMemory m).Framed L :=
  ⟨hm, h.proc⟩

theorem System.Framed.setGroups (h : s.Framed L) (groups : CowGroups) :
    (s.setGroups groups).Framed L := ⟨h.memory, h.proc⟩

theorem System.Framed.cpu (h : s.Framed L) (hc : s.cpu i = some c) : FramedSpace L c.space := by
  obtain ⟨pg, hpg, rfl⟩ := Option.map_eq_some_iff.mp hc
  exact ⟨h.memory, ((h.proc i).table pg hpg).2⟩

theorem System.Framed.setCpu (h : s.Framed L) (hc : s.cpu i = some c) (H : Served L c c') :
    (s.setCpu i c').Framed L := by
  obtain ⟨pg, hpg, rfl⟩ := Option.map_eq_some_iff.mp hc
  have hproc := H.proc
  unfold SameProc at hproc
  have hpg' : c'.proc.pagetable = some pg := by
    rw [hproc]
    exact hpg
  have ht' : c'.proc.trapframe = (s.proc i).trapframe := by rw [hproc]
  constructor
  · exact H.space.memory
  · intro j
    by_cases hj : j = i
    · subst hj
      simp only [System.setCpu, Function.update_self, hpg', Option.map_some]
      refine ⟨fun pg' h' => ?_, fun t h' => ?_, fun _ => ?_⟩
      · cases h'
        exact ⟨((h.proc j).table pg hpg).1, H.space.table⟩
      · exact (h.proc j).trapframe t (ht'.symm.trans h')
      · rw [ht']
        exact (h.proc j).owns (by rw [hpg]; rfl)
    · simp only [System.setCpu, Function.update_of_ne hj]
      exact h.proc j

end Framed

section Fork

variable {L : Layout} {s s₁ t : System} {r : Running} {i n : ℕ} {np : Proc} {pg parent : Pagetable}
  {trapframe : ℕ} {m₀ m : Memory}

theorem Book.set_again {b : Book} {x y z : Member} {groups : CowGroups} :
    (((b.set n x).withGroups groups).set i y).set n z = ((b.withGroups groups).set i y).set n z := by
  unfold Book.set Book.withGroups
  congr 1
  funext j
  by_cases hn : j = n
  · simp [hn]
  · by_cases hi : j = i
    · subst hi
      simp only [Function.update_of_ne hn, Function.update_self]
    · simp only [Function.update_of_ne hn, Function.update_of_ne hi]

theorem Book.set_set {b : Book} {x z : Member} : (b.set n x).set n z = b.set n z := by
  unfold Book.set
  simp only [Function.update_idem]

/-- What `allocproc` makes of the books. -/
theorem allocproc_book {result : Option (ℕ × Proc × Pagetable)} (h : s.Framed L)
    (hrun : s.allocproc r = .ok (result, s₁)) : s₁.Framed L ∧
      ((result = none ∧ s.freeSlot = none ∧ s₁ = s) ∨
      (result = none ∧ s.kernel.memory.freelist.length < 4 ∧ ∃ n, s.freeSlot = some n ∧
        s₁.book = s.book.counted.set n (s.proc n).member.freed) ∨
      4 ≤ s.kernel.memory.freelist.length ∧ ∃ n np pg trapframe m₀ m,
        result = some (n, np, pg) ∧ Allocated s r n np pg s₁ trapframe m₀ m) := by
  have hcounted : ({ s with nextpid := s.nextpid + 1 } : System).Framed L := ⟨h.memory, h.proc⟩
  unfold System.allocproc at hrun
  cases hslot : s.freeSlot with
  | none =>
    simp only [hslot] at hrun
    cases hrun
    exact ⟨h, Or.inl ⟨rfl, rfl, rfl⟩⟩
  | some n =>
    simp only [hslot] at hrun
    cases hk : s.kernel.memory.kalloc with
    | none =>
      simp only [hk] at hrun
      obtain ⟨⟨np, m⟩, hfree, hrun⟩ := bind_ok_iff.mp hrun
      cases hrun
      have hempty := Memory.kalloc_none.mp hk
      obtain ⟨hm, hnp⟩ := freeproc_framed h.memory (by
        intro pg hpg
        exact ((h.proc n).table pg hpg).2) hfree
      refine ⟨(hcounted.setMemory hm).setProc hnp, Or.inr (Or.inl ⟨rfl, ?_, n, rfl, ?_⟩)⟩
      · rw [hempty]
        decide
      · rw [setProc_book, freeproc_member hfree]
        rfl
    | some q =>
      obtain ⟨trapframe, m₀⟩ := q
      obtain ⟨htrap, hm₀⟩ := h.memory.kalloc hk
      have hlen : s.kernel.memory.freelist.length = m₀.freelist.length + 1 := by
        rw [(Memory.kalloc_some hk).1]
        rfl
      simp only [hk] at hrun
      obtain ⟨⟨pg, m⟩, htable, hrun⟩ := bind_ok_iff.mp hrun
      obtain ⟨hm, hnew⟩ := procPagetable_framed hm₀ htrap htable
      have hpages := procPagetable_result htable
      cases pg with
      | none =>
        simp only at hrun
        obtain ⟨⟨np, m'⟩, hfree, hrun⟩ := bind_ok_iff.mp hrun
        cases hrun
        obtain ⟨hm', hnp⟩ := freeproc_framed hm (by
          intro pg hpg
          cases hpg) hfree
        refine ⟨(hcounted.setMemory hm').setProc hnp, Or.inr (Or.inl ⟨rfl, ?_, n, rfl, ?_⟩)⟩
        · simp only [Option.isSome_none, Bool.false_eq_true, false_iff] at hpages
          omega
        · rw [setProc_book, freeproc_member hfree]
          rfl
      | some pg =>
        cases hrun
        have hnp : FramedProc L { s.proc n with
            pid := s.nextpid, state := .used, trapframe := some trapframe, pagetable := some pg } := by
          refine ⟨fun pg' h' => ?_, fun t h' => ?_, fun _ => rfl⟩
          · cases h'
            exact hnew pg rfl
          · cases h'
            exact htrap
        refine ⟨(hcounted.setMemory hm).setProc hnp, Or.inr (Or.inr ⟨?_, n, _, pg, trapframe, m₀, m,
          rfl, hslot, hk, htable, rfl, rfl⟩)⟩
        simp only [Option.isSome_some, true_iff] at hpages
        omega

theorem Allocated.book (H : Allocated s r n np pg s₁ trapframe m₀ m) :
    s₁.book = s.book.counted.set n np.member := by
  rw [H.system, setProc_book]
  rfl

theorem Allocated.other (H : Allocated s r n np pg s₁ trapframe m₀ m) (hne : i ≠ n) :
    s₁.proc i = s.proc i := by
  rw [H.system]
  simp only [System.setProc, Function.update_of_ne hne]
  rfl

theorem Allocated.groups (H : Allocated s r n np pg s₁ trapframe m₀ m) :
    s₁.kernel.groups = s.kernel.groups := by
  rw [H.system]
  rfl

theorem Allocated.freed (H : Allocated s r n np pg s₁ trapframe m₀ m) :
    np.member.freed = (s.proc n).member.freed := by
  rw [H.child]
  rfl

theorem joinGroup_framed {p : Proc} {groups : CowGroups} (h : FramedProc L p) :
    FramedProc L (joinGroup p groups).1 := by
  unfold joinGroup
  split_ifs
  · exact h.of_pages rfl rfl
  · exact h

theorem FramedProc.withTable {p : Proc} {pt : PageTable ℕ} (h : FramedProc L p)
    (hpg : p.pagetable = some pg) (ht : FramedTable L pt) :
    FramedProc L { p with pagetable := some { pg with table := pt } } where
  table := by
    intro pg' h'
    cases h'
    exact ⟨(h.table pg hpg).1, ht⟩
  trapframe := h.trapframe
  owns := fun _ => h.owns (by rw [hpg]; rfl)

/-- `fork(1)` of a process that has found a slot. -/
theorem forkCow_book (h : s.Framed L) (h₁ : s₁.Framed L) (hne : n ≠ i)
    (hparent : (s.proc i).pagetable = some parent)
    (henough : 4 ≤ s.kernel.memory.freelist.length)
    (H : Allocated s r n np pg s₁ trapframe m₀ m)
    (hrun : s₁.forkCow i n np parent pg = .ok t) :
    BookStep L s i (.fork true) t.book ∧ t.Framed L := by
  have hproc : s₁.proc i = s.proc i := H.other (Ne.symm hne)
  have hnp : FramedProc L np ∧ np.pagetable = some pg := by
    have hn := h₁.proc n
    rw [H.system] at hn
    simp only [System.setProc, Function.update_self] at hn
    exact ⟨hn, by rw [H.child]⟩
  have hchild := (hnp.1.table pg hnp.2).2
  unfold System.forkCow at hrun
  rw [hproc, H.groups] at hrun
  have hjoined : FramedProc L (joinGroup (s.proc i) s.kernel.groups).1 := joinGroup_framed (h.proc i)
  have hjoin : (joinGroup (s.proc i) s.kernel.groups).1.member = (s.proc i).member.joined :=
    joinGroup_member
  have hpagetable : (joinGroup (s.proc i) s.kernel.groups).1.pagetable = some parent := by
    rw [← hparent]
    unfold joinGroup
    split_ifs <;> rfl
  obtain ⟨⟨ok, copy⟩, hcopy, hrun⟩ := bind_ok_iff.mp hrun
  have hstart : FramedCopy L ⟨(joinGroup (s.proc i) s.kernel.groups).2, s₁.kernel.memory,
      parent.table, pg.table⟩ := ⟨h₁.memory, ((h.proc i).table parent hparent).2, hchild⟩
  have hframed := uvmcopyCow_framed hstart hcopy
  have hstored : SlotsStored L (s.book.joinedGroups i) copy.groups := by
    have hstored := uvmcopyCow_stored hstart hcopy
    rw [joinGroup_groups] at hstored
    exact hstored
  have hp := hjoined.withTable hpagetable hframed.old
  cases ok with
  | false =>
    simp only [Bool.not_false, ↓reduceIte] at hrun
    obtain ⟨⟨np', m'⟩, hfree, hrun⟩ := bind_ok_iff.mp hrun
    cases hrun
    obtain ⟨hm', hnp'⟩ := freeproc_framed hframed.memory
      (fun pg' h' => by cases h'; exact hframed.new) hfree
    refine ⟨?_, (((h₁.setMemory hm').setGroups _).setProc hp).setProc hnp'⟩
    have hmember : np'.member = (s.proc n).member.freed := by
      rw [freeproc_member hfree, ← H.freed]
      rfl
    have hbook := BookStep.failed (L := L) H.slot hne henough hstored
    rw [setProc_book, setProc_book, setGroups_book, setMemory_book, H.book, Book.set_again, hmember]
    rw [← hjoin] at hbook
    exact hbook
  | true =>
    simp only [Bool.not_true, Bool.false_eq_true, ↓reduceIte] at hrun
    obtain ⟨groups, hshare, hrun⟩ := bind_ok_iff.mp hrun
    obtain ⟨groups', hincr, hrun⟩ := bind_ok_iff.mp hrun
    cases hrun
    have hall := hstored.trans (sharePages_stored hframed.old hshare)
    have hincr : groups.incrCowGroupCount (joinGroup (s.proc i) s.kernel.groups).1.cowGroup =
        .ok groups' := hincr
    rw [joinGroup_cowGroup] at hincr
    have hbook := BookStep.shared (L := L) H.slot hne henough hall hincr
    constructor
    · rw [System.startChild, setProc_book, setProc_book, setGroups_book, setMemory_book, H.book,
        Book.set_again]
      rw [← hjoin] at hbook
      have hpid : np.pid = s.nextpid := by rw [H.child]
      rw [← hpid] at hbook
      exact hbook
    · refine (((h₁.setMemory hframed.memory).setGroups _).setProc hp).setProc ?_
      have hnew := hnp.1.withTable hnp.2 hframed.new
      exact hnew.of_pages rfl rfl

/-- `fork(0)` of a process that has found a slot. -/
theorem forkCopy_book (h : s.Framed L) (h₁ : s₁.Framed L) (hne : n ≠ i)
    (hparent : (s.proc i).pagetable = some parent)
    (H : Allocated s r n np pg s₁ trapframe m₀ m)
    (hrun : s₁.forkCopy i n np parent pg = .ok t) :
    BookStep L s i (.fork false) t.book ∧ t.Framed L := by
  have hnp : FramedProc L np ∧ np.pagetable = some pg := by
    have hn := h₁.proc n
    rw [H.system] at hn
    simp only [System.setProc, Function.update_self] at hn
    exact ⟨hn, by rw [H.child]⟩
  unfold System.forkCopy at hrun
  obtain ⟨⟨ok, m', table⟩, hcopy, hrun⟩ := bind_ok_iff.mp hrun
  have hstart : FramedSpace L (s₁.kernel.memory, pg.table) :=
    ⟨h₁.memory, (hnp.1.table pg hnp.2).2⟩
  have hframed := uvmcopy_framed ((h.proc i).table parent hparent).2 hstart hcopy
  cases ok with
  | false =>
    simp only [Bool.not_false, ↓reduceIte] at hrun
    obtain ⟨⟨np', m''⟩, hfree, hrun⟩ := bind_ok_iff.mp hrun
    cases hrun
    obtain ⟨hm', hnp'⟩ := freeproc_framed hframed.memory
      (fun pg' h' => by cases h'; exact hframed.table) hfree
    refine ⟨?_, (h₁.setMemory hm').setProc hnp'⟩
    have hbook := @BookStep.spent L s i false n H.slot (fun h => by cases h)
    have hmember : np'.member = (s.proc n).member.freed := by
      rw [freeproc_member hfree, ← H.freed]
      rfl
    rw [setProc_book, setMemory_book, H.book, Book.set_set, hmember]
    exact hbook
  | true =>
    simp only [Bool.not_true, Bool.false_eq_true, ↓reduceIte] at hrun
    cases hrun
    have hbook := @BookStep.copied L s i n H.slot hne
    constructor
    · rw [System.startChild, setProc_book, setMemory_book, H.book, Book.set_set]
      have hchild := H.child
      subst hchild
      exact hbook
    · refine (h₁.setMemory hframed.memory).setProc ?_
      exact (hnp.1.withTable hnp.2 hframed.table).of_pages rfl rfl

theorem fork_book {cow : Bool} (h : s.Framed L) (hlive : (s.proc i).state = .live)
    (hrun : s.fork i cow = .ok t) : BookStep L s i (.fork cow) t.book ∧ t.Framed L := by
  unfold System.fork at hrun
  cases hparent : (s.proc i).pagetable with
  | none =>
    simp only [hparent] at hrun
    cases hrun
  | some parent =>
    simp only [hparent] at hrun
    obtain ⟨⟨result, s₁⟩, halloc, hrest⟩ := bind_ok_iff.mp hrun
    obtain ⟨h₁, ⟨rfl, hslot, rfl⟩ | ⟨rfl, hfew, n, hslot, hbook⟩ |
      ⟨henough, n, np, pg, trapframe, m₀, m, rfl, H⟩⟩ := allocproc_book h halloc
    · cases hrest
      exact ⟨.idle (fun _ _ => hslot) (fun _ h => by cases h), h⟩
    · cases hrest
      rw [hbook]
      exact ⟨.spent hslot fun _ => hfew, h₁⟩
    · have hne : n ≠ i := by
        rintro rfl
        rw [(freeSlot_unused H.slot).2] at hlive
        cases hlive
      cases cow with
      | true => exact forkCow_book h h₁ hne hparent henough H hrest
      | false => exact forkCopy_book h h₁ hne hparent H hrest

end Fork

section Step

variable {L : Layout} {s t : System} {i : ℕ} {c c' : Cpu} {e : Event}

theorem Served.book (h : s.Framed L) (hc : s.cpu i = some c) (H : Served L c c')
    (hfork : ∀ cow, e ≠ .fork cow) (hexit : ∀ status, e ≠ .exit status) :
    BookStep L s i e (s.setCpu i c').book ∧ (s.setCpu i c').Framed L := by
  rw [setCpu_book hc H.proc H.groups]
  exact ⟨.idle (fun cow he => absurd he (hfork cow)) hexit, h.setCpu hc H⟩

theorem SameOwner.member {p p' : Proc} (h : SameOwner p p') : p'.member = p.member := by
  unfold SameOwner at h
  rw [h]
  rfl

theorem Book.set_self {b : Book} {m : Member} (h : m = b.member i) : b.set i m = b := by
  subst h
  unfold Book.set
  rw [Function.update_eq_self]

theorem reparent_book (s : System) (i : ℕ) : (s.reparent i).book = s.book := by
  unfold System.book System.reparent
  congr 1
  funext j
  simp only
  split_ifs <;> rfl

theorem reparent_framed (h : s.Framed L) (i : ℕ) : (s.reparent i).Framed L where
  memory := h.memory
  proc := by
    intro j
    unfold System.reparent
    simp only
    split_ifs
    · exact (h.proc j).of_pages rfl rfl
    · exact h.proc j

theorem reparent_member (s : System) (i j : ℕ) :
    ((s.reparent i).proc j).member = (s.proc j).member :=
  congrFun (congrArg Book.member (reparent_book s i)) j

theorem exec_book {path : Path} {argv : List (List Byte)} {namei : Path → Option File}
    (h : s.Framed L) (hc : s.cpu i = some c) (hrun : s.run i c (.exec path argv namei) = .ok t) :
    BookStep L s i (.exec path argv namei) t.book ∧ t.Framed L := by
  obtain ⟨pg, hpg, -⟩ := Option.map_eq_some_iff.mp hc
  obtain ⟨⟨argc, k, p⟩, hexec, hrun⟩ := bind_ok_iff.mp hrun
  cases hrun
  obtain ⟨hm, hp, hgroups, howner⟩ :=
    exec_framed h.memory (h.proc i) (by rw [hpg]; rfl) hexec
  have hkernel : ({ s with kernel := k } : System).Framed L := ⟨hm, h.proc⟩
  have hbook : (({ s with kernel := k } : System).setProc i p).book = s.book := by
    rw [setProc_book, howner.member]
    have hsame : ({ s with kernel := k } : System).book = s.book := by
      unfold System.book
      rw [hgroups]
    rw [hsame]
    exact Book.set_self rfl
  refine ⟨?_, hkernel.setProc hp⟩
  have hstep : BookStep L s i (.exec path argv namei) s.book :=
    .idle (fun _ he => by cases he) (fun _ he => by cases he)
  rw [← hbook] at hstep
  exact hstep

theorem exit_book {status : BitVec 32} (h : s.Framed L) (hrun : s.exit i status = .ok t) :
    BookStep L s i (.exit status) t.book ∧ t.Framed L := by
  unfold System.exit at hrun
  obtain ⟨groups, hdecr, hrun⟩ := bind_ok_iff.mp hrun
  simp only at hrun
  split_ifs at hrun
  cases hrun
  have hleft : (if (s.proc i).cowEnabled
      then s.kernel.groups.decrCowGroupCount (s.proc i).cowGroup = .ok groups
      else groups = s.kernel.groups) := by
    split_ifs at hdecr ⊢
    · exact hdecr
    · exact (Except.ok.inj hdecr).symm
  have hwiped : (({ s with kernel := { s.kernel with
      psaTracker := initPsaRegions s.kernel.psaTracker } } : System).setGroups groups).Framed L :=
    ⟨h.memory, h.proc⟩
  have hframed := reparent_framed hwiped i
  constructor
  · rw [setProc_book, reparent_book, setGroups_book]
    have hmember := reparent_member (({ s with kernel := { s.kernel with
      psaTracker := initPsaRegions s.kernel.psaTracker } } : System).setGroups groups) i i
    have hstep : BookStep L s i (.exit status) _ := .exited hleft
    have hzombie : Proc.member { ((({ s with kernel := { s.kernel with
        psaTracker := initPsaRegions s.kernel.psaTracker } } : System).setGroups groups).reparent
          i).proc i with xstate := status, state := .zombie } =
        { (s.proc i).member with state := .zombie } := by
      calc _ = { Proc.member (((({ s with kernel := { s.kernel with
            psaTracker := initPsaRegions s.kernel.psaTracker } } : System).setGroups
            groups).reparent i).proc i) with state := .zombie } := rfl
        _ = _ := by
          rw [hmember]
          rfl
    rw [hzombie]
    exact hstep
  · exact hframed.setProc ((hframed.proc i).of_pages rfl rfl)

theorem wait_book {addr : ℕ} (h : s.Framed L) (hrun : s.wait i addr = .ok t) :
    BookStep L s i (.wait addr) t.book ∧ t.Framed L := by
  have hidle : BookStep L s i (.wait addr) s.book :=
    .idle (fun _ he => by cases he) (fun _ he => by cases he)
  unfold System.wait at hrun
  cases hfind : (List.range NPROC).find? fun j =>
      (s.proc j).parent = some i ∧ (s.proc j).state = .zombie with
  | none =>
    simp only [hfind] at hrun
    cases hrun
    exact ⟨hidle, h⟩
  | some j =>
    have hzombie := List.find?_some hfind
    simp only [decide_eq_true_eq] at hzombie
    simp only [hfind] at hrun
    cases hpg : (s.proc i).pagetable with
    | none =>
      simp only [hpg] at hrun
      cases hrun
    | some pg =>
      simp only [hpg] at hrun
      generalize hcopied : (if addr ≠ 0 then
        copyout pg.table addr (statusByte (s.proc j).xstate) 4 s.kernel.memory
        else (true, s.kernel.memory)) = copied at hrun
      have hm : copied.2.Framed L := by
        rw [← hcopied]
        split_ifs
        · exact copyout_framed h.memory
        · exact h.memory
      obtain ⟨ok, m⟩ := copied
      cases ok with
      | false =>
        cases hrun
        exact ⟨hidle, h.setMemory hm⟩
      | true =>
        simp only [Bool.not_true, Bool.false_eq_true, ↓reduceIte] at hrun
        obtain ⟨⟨p, m'⟩, hfree, hrun⟩ := bind_ok_iff.mp hrun
        cases hrun
        obtain ⟨hm', hp⟩ := freeproc_framed hm (by
          intro pg' hpg'
          exact ((h.proc j).table pg' hpg').2) hfree
        refine ⟨?_, (h.setMemory hm').setProc hp⟩
        rw [setProc_book, setMemory_book, freeproc_member hfree]
        exact .reaped hzombie.2

/-- An event of a live process. -/
theorem run_book (h : s.Framed L) (hlive : (s.proc i).state = .live) (hc : s.cpu i = some c)
    (hrun : s.run i c e = .ok t) : BookStep L s i e t.book ∧ t.Framed L := by
  cases e with
  | access a =>
    obtain ⟨⟨b, c'⟩, haccess, hrun⟩ := bind_ok_iff.mp hrun
    cases hrun
    exact (access_served (h.cpu hc) haccess).book h hc (fun _ he => by cases he)
      (fun _ he => by cases he)
  | sbrk bytes =>
    obtain ⟨⟨ok, c'⟩, hgrow, hrun⟩ := bind_ok_iff.mp hrun
    cases hrun
    exact (growproc_served (h.cpu hc) hgrow).book h hc (fun _ he => by cases he)
      (fun _ he => by cases he)
  | fork cow => exact fork_book h hlive hrun
  | exec path argv namei => exact exec_book h hc hrun
  | exit status => exact exit_book h hrun
  | wait addr => exact wait_book h hrun
  | write dstva src len =>
    cases hrun
    exact ⟨.idle (fun _ he => by cases he) (fun _ he => by cases he),
      h.setMemory (copyout_framed h.memory)⟩

theorem step_book {e : ℕ × Event} (h : s.Framed L) (hrun : s.step e = .ok t) : t.Framed L ∧
    ((s.proc e.1).state = .live ∧ BookStep L s e.1 e.2 t.book ∨
      (s.proc e.1).state ≠ .live ∧ t = s) := by
  unfold System.step at hrun
  split_ifs at hrun with hlive
  · cases hc : s.cpu e.1 with
    | none =>
      simp only [hc] at hrun
      cases hrun
    | some c =>
      simp only [hc] at hrun
      obtain ⟨hbook, hframed⟩ := run_book h hlive hc hrun
      exact ⟨hframed, Or.inl ⟨hlive, hbook⟩⟩
  · cases hrun
    exact ⟨h, Or.inr ⟨hlive, rfl⟩⟩

end Step

def Book.members (b : Book) (group : ℕ) : Finset ℕ :=
  (Finset.range NPROC).filter fun i =>
    (b.member i).state = .live ∧ (b.member i).cowEnabled = true ∧ (b.member i).cowGroup = group

/-- The books are right. `links` are the pairs of parent and child of the `fork(1)`s so far. -/
structure Book.Accurate (b : Book) (links : List (ℕ × ℕ)) : Prop where
  registered : ∀ i, (b.member i).state = .live → (b.member i).cowEnabled = true →
    (b.groups.getCowGroup (b.member i).cowGroup).isSome
  related : ∀ i j, (b.member i).state ≠ .unused → (b.member j).state ≠ .unused →
    (b.member i).cowEnabled = true → (b.member j).cowEnabled = true →
    (b.member i).cowGroup = (b.member j).cowGroup →
      Relation.EqvGen (fun parent child => (parent, child) ∈ links) (b.member i).pid (b.member j).pid
  counted : ∀ group k, group ≠ 0 → b.groups.getCowGroup group = some k →
    (b.groups k).count = (b.members group).card

/-- A process that a `fork(0)` has made is in no group. -/
def StartsOutside (s : System) (e : ℕ × Event) (t : System) : Prop :=
  ∀ n, e.2 = .fork false → s.freeSlot = some n → (t.proc n).state = .live →
    (t.proc n).cowGroup = 0 ∧ (t.proc n).cowEnabled = false

/-- The pair of processes of a `fork(1)` that has made a child. -/
def linked (s : System) (e : ℕ × Event) (t : System) : List (ℕ × ℕ) :=
  match e.2, s.freeSlot with
  | .fork true, some n =>
    if (t.proc n).state = .live then [((s.proc e.1).pid, (t.proc n).pid)] else []
  | _, _ => []

/-- A step of the system with the pairs of its `fork(1)`s. -/
def account (r : System × List (ℕ × ℕ)) (e : ℕ × Event) :
    Except Panic (System × List (ℕ × ℕ)) := do
  let t ← r.1.step e
  return (t, linked r.1 e t ++ r.2)

/-- A live process calls `fork(1)`, and it gets past `allocproc`. -/
def CowAllocates (s : System) (e : ℕ × Event) : Prop :=
  (s.proc e.1).state = .live ∧ e.2 = .fork true ∧ Allocates s

/-- The books before any `fork(1)`. -/
structure Book.Ungrouped (b : Book) : Prop where
  groups : ∀ k < NPROC, (b.groups k).group = 0 ∧ (b.groups k).count = 0
  member : ∀ i, (b.member i).cowGroup = 0 ∧ (b.member i).cowEnabled = false
  pid : ∀ i, (b.member i).state = .live → i < NPROC ∧ (b.member i).pid ≠ 0
  nextpid : b.nextpid ≠ 0

section Account

variable {L : Layout} {b : Book} {s t : System} {i n : ℕ} {m : Member} {e : ℕ × Event}
  {groups groups' : CowGroups} {links : List (ℕ × ℕ)}

theorem Book.Ungrouped.accurate (h : b.Ungrouped) (links : List (ℕ × ℕ)) : b.Accurate links where
  registered := by
    intro i _ henabled
    rw [(h.member i).2] at henabled
    cases henabled
  related := by
    intro i j _ _ henabled
    rw [(h.member i).2] at henabled
    cases henabled
  counted := by
    intro group k hgroup hk
    obtain ⟨hlt, hgk, -⟩ := getCowGroup_some hk
    exact absurd (hgk.symm.trans (h.groups k hlt).1) hgroup

theorem Book.Ungrouped.set (h : b.Ungrouped) (hm : m.cowGroup = 0 ∧ m.cowEnabled = false)
    (hpid : m.state = .live → i < NPROC ∧ m.pid ≠ 0) : (b.set i m).Ungrouped where
  groups := h.groups
  nextpid := h.nextpid
  member := by
    intro j
    by_cases hj : j = i
    · subst hj
      simp only [Book.set, Function.update_self]
      exact hm
    · simp only [Book.set, Function.update_of_ne hj]
      exact h.member j
  pid := by
    intro j
    by_cases hj : j = i
    · subst hj
      simp only [Book.set, Function.update_self]
      exact hpid
    · simp only [Book.set, Function.update_of_ne hj]
      exact h.pid j

theorem Book.Ungrouped.counted (h : b.Ungrouped) : b.counted.Ungrouped :=
  ⟨h.groups, h.member, h.pid, Nat.succ_ne_zero _⟩

/-- Without a `fork(1)` that gets past `allocproc` no process is in a group. -/
theorem Book.Ungrouped.step {e : Event} {b : Book} (h : s.book.Ungrouped)
    (hstep : BookStep L s i e b) (hno : ¬ (e = .fork true ∧ Allocates s)) : b.Ungrouped := by
  cases hstep with
  | idle => exact h
  | @spent cow n =>
    exact h.counted.set (h.member n) fun hlive => by cases hlive
  | failed slot ne enough => exact absurd ⟨rfl, by rw [slot]; rfl, enough⟩ hno
  | shared slot ne enough => exact absurd ⟨rfl, by rw [slot]; rfl, enough⟩ hno
  | @copied n slot =>
    exact h.counted.set (h.member n) fun _ => ⟨(freeSlot_unused slot).1, h.nextpid⟩
  | @exited status groups decr =>
    have hdisabled : (s.proc i).cowEnabled = false := (h.member i).2
    rw [hdisabled] at decr
    simp only [Bool.false_eq_true, ↓reduceIte] at decr
    subst decr
    have hsame : (s.book.withGroups s.kernel.groups).Ungrouped := h
    exact hsame.set (h.member i) fun hlive => by cases hlive
  | @reaped addr j =>
    exact h.set (h.member j) fun hlive => by cases hlive

theorem toInt_of_aligned {pa : ℕ} (h : pa % PGSIZE = 0) : (BitVec.ofNat 32 pa).toInt % 4096 = 0 := by
  simp only [PGSIZE] at h
  rw [BitVec.toInt_eq_toNat_bmod, BitVec.toNat_ofNat]
  simp only [Int.bmod]
  split_ifs <;> omega

/-- What becomes of the count of a new group until the fork counts the child. -/
theorem SlotsStored.founded (h : s.book.Ungrouped) (htramp : L.trampoline % PGSIZE = 0)
    (hstored : SlotsStored L (s.book.joinedGroups i) groups) :
    groups.getCowGroup (s.proc i).pid = some 0 ∧ (groups 0).count % 4096 = 0 := by
  have hfirst : s.kernel.groups.getCowGroup 0 = some 0 :=
    getCowGroup_of_first (by decide) (h.groups 0 (by decide)).1 fun j hj => absurd hj (Nat.not_lt_zero j)
  have hjoined : s.book.joinedGroups i = Function.update s.kernel.groups 0
      { s.kernel.groups 0 with group := (s.proc i).pid } := by
    have hnone : (s.book.member i).cowGroup = 0 := (h.member i).1
    have hfirst : s.book.groups.getCowGroup 0 = some 0 := hfirst
    unfold Book.joinedGroups CowGroups.cowGroupInit
    rw [if_pos hnone, hfirst]
    rfl
  have hgroup := hstored.group 0
  have hcount := hstored.count 0
  rw [hjoined, Function.update_self] at hgroup hcount
  refine ⟨getCowGroup_of_first (by decide) hgroup fun j hj => absurd hj (Nat.not_lt_zero j), ?_⟩
  rcases hcount with heq | ⟨e, he, hword⟩
  · rw [heq]
    have hzero : (s.kernel.groups 0).count = 0 := (h.groups 0 (by decide)).2
    simp only [hzero]
    rfl
  · rw [hword]
    apply toInt_of_aligned
    rcases he.2 with hframe | heq
    · exact hframe.1
    · rw [heq]
      exact htramp

theorem Book.Ungrouped.joined (h : s.book.Ungrouped) : (s.proc i).member.joined =
    { (s.proc i).member with cowGroup := (s.proc i).pid, cowEnabled := true } := by
  have hnone : (s.proc i).member.cowGroup = 0 := (h.member i).1
  unfold Member.joined
  rw [if_pos hnone]
  rfl

theorem Book.set_member {b : Book} {j : ℕ} :
    (b.set i m).member j = if j = i then m else b.member j := Function.update_apply ..

theorem mem_members {j group : ℕ} : j ∈ b.members group ↔ j < NPROC ∧
    (b.member j).state = .live ∧ (b.member j).cowEnabled = true ∧ (b.member j).cowGroup = group := by
  unfold Book.members
  rw [Finset.mem_filter, Finset.mem_range]

/-- The members of the new group: the process, and its child where there is one. -/
theorem Book.Ungrouped.members (h : s.book.Ungrouped) (hlive : (s.proc i).state = .live) (hne : n ≠ i)
    (hslot : n < NPROC) (child : Member) (hchild : child.state = .live → child.cowEnabled = true ∧
      child.cowGroup = (s.proc i).pid) :
    (((s.book.counted.withGroups groups).set i (s.proc i).member.joined).set n child).members
      (s.proc i).pid = if child.state = .live then {i, n} else {i} := by
  have hi : i < NPROC := (h.pid i hlive).1
  ext j
  rw [mem_members, Book.set_member, Book.set_member]
  by_cases hn : j = n
  · subst hn
    rw [if_pos rfl]
    split_ifs with hc
    · simp [hc, hchild hc, hslot]
    · simp [hc, hne]
  · rw [if_neg hn]
    by_cases hj : j = i
    · subst hj
      have hstate : (s.proc j).member.state = .live := hlive
      rw [if_pos rfl, h.joined]
      split_ifs <;> simp [hi, hstate]
    · have hno : ((s.book.counted.withGroups groups).member j).cowEnabled = false := (h.member j).2
      rw [if_neg hj, hno]
      split_ifs <;> simp [hj, hn]

/-- After a `fork(1)` that gets past `allocproc` the books are wrong. -/
theorem Book.Ungrouped.not_accurate {b : Book} (h : s.book.Ungrouped)
    (htramp : L.trampoline % PGSIZE = 0) (hlive : (s.proc i).state = .live) (hallocates : Allocates s)
    (hstep : BookStep L s i (.fork true) b) (links : List (ℕ × ℕ)) : ¬ b.Accurate links := by
  intro A
  have hpid : (s.proc i).pid ≠ 0 := (h.pid i hlive).2
  cases hstep with
  | idle hnone =>
    have hslot := hallocates.1
    rw [hnone true rfl] at hslot
    cases hslot
  | spent slot few => exact absurd hallocates.2 (Nat.not_le.mpr (few rfl))
  | @failed n groups slot ne enough stored =>
    obtain ⟨hget, hcount⟩ := stored.founded h htramp
    have hcounted := A.counted (s.proc i).pid 0 hpid hget
    rw [h.members hlive ne (freeSlot_unused slot).1 _ (fun hc => by cases hc)] at hcounted
    have hcard : (groups 0).count = 1 := hcounted
    omega
  | @shared n groups groups' slot ne enough stored incr =>
    obtain ⟨hget, hcount⟩ := stored.founded h htramp
    have hgroup : (s.proc i).member.joined.cowGroup = (s.proc i).pid := by rw [h.joined]
    rw [hgroup] at incr
    obtain ⟨k, hk, hgroups'⟩ := modifyGroup_ok incr
    rw [hget] at hk
    cases hk
    have hget' : groups'.getCowGroup (s.proc i).pid = some 0 := by
      rw [getCowGroup_congr _ (s.proc i).pid, hget]
      intro k
      rw [hgroups']
      by_cases hk : k = 0
      · rw [hk, Function.update_self]
      · rw [Function.update_of_ne hk]
    have hcounted := A.counted (s.proc i).pid 0 hpid hget'
    rw [h.members hlive ne (freeSlot_unused slot).1
      ⟨.live, s.nextpid, (s.proc i).member.joined.cowGroup, true⟩ (fun _ => ⟨rfl, hgroup⟩)] at hcounted
    have hcard : (groups' 0).count = 2 := by
      rw [if_pos rfl, Finset.card_pair (Ne.symm ne)] at hcounted
      exact hcounted
    rw [hgroups', Function.update_self] at hcard
    simp only at hcard
    omega

/-- In every state of a run the books are right, and no child of a `fork(0)` is in a group, if
and only if no `fork(1)` of the run gets past `allocproc`. -/
theorem groups_accurate_iff {es : List (ℕ × Event)} {r : System × List (ℕ × ℕ)}
    (hframed : s.Framed L) (htramp : L.trampoline % PGSIZE = 0) (h : s.book.Ungrouped)
    (hrun : exec account (s, []) es = .ok r) :
    Guarded account (fun r e => ∀ r', account r e = .ok r' →
        r'.1.book.Accurate r'.2 ∧ StartsOutside r.1 e r'.1) (s, []) es ↔
      Guarded account (fun r e => ¬ CowAllocates r.1 e) (s, []) es := by
  have hreturns : Guarded account (fun r e => Returns (account r e)) (s, []) es :=
    (exec_returns_iff_guarded (I := fun _ => True) (fun _ _ _ _ _ => trivial)
      (fun _ _ _ => Iff.rfl) trivial es).mp ⟨r, hrun⟩
  have hkept : ∀ r e r', r.1.Framed L ∧ r.1.book.Ungrouped → ¬ CowAllocates r.1 e →
      account r e = .ok r' → r'.1.Framed L ∧ r'.1.book.Ungrouped := by
    rintro ⟨s, links⟩ e r' ⟨hF, hU⟩ hno haccount
    obtain ⟨t, hstep, hr'⟩ := bind_ok_iff.mp haccount
    cases hr'
    obtain ⟨hFt, ⟨hlive, hbook⟩ | ⟨-, hsame⟩⟩ := step_book hF hstep
    · exact ⟨hFt, hU.step hbook fun hcow => hno ⟨hlive, hcow⟩⟩
    · cases hsame
      exact ⟨hF, hU⟩
  apply guarded_congr (I := fun r => r.1.Framed L ∧ r.1.book.Ungrouped) _ _ ⟨hframed, h⟩ hreturns
  · rintro ⟨s, links⟩ e ⟨hF, hU⟩ ⟨r', hr'⟩
    constructor
    · rintro haccurate ⟨hlive, hfork, hallocates⟩
      obtain ⟨i, e⟩ := e
      simp only at hfork
      subst hfork
      have hright := (haccurate r' hr').1
      obtain ⟨t, hstep, ht⟩ := bind_ok_iff.mp hr'
      cases ht
      obtain ⟨-, ⟨-, hbook⟩ | ⟨hdead, -⟩⟩ := step_book hF hstep
      · exact hU.not_accurate htramp hlive hallocates hbook _ hright
      · exact hdead hlive
    · intro hno r' hr'
      have hU' := (hkept _ e r' ⟨hF, hU⟩ hno hr').2
      exact ⟨hU'.accurate _, fun n _ _ _ => hU'.member n⟩
  · intro r e r' hI _ hno hstep
    exact hkept r e r' hI hno hstep

end Account

section Sample

def sampleLayout : Layout := ⟨PGSIZE * 524288, PGSIZE * 524291⟩

theorem sampleLayout_frame {k : ℕ} (hlow : 524288 ≤ k) (hhigh : k < 557056) :
    sampleLayout.Frame (PGSIZE * k) := by
  simp only [Layout.Frame, sampleLayout, PGSIZE, PHYSTOP, KERNBASE]
  omega

theorem sampleTable_framed : FramedTable sampleLayout (sampleTable 0) where
  wf := sampleTable_wf (by decide)
  leaf := by
    intro v e he
    simp only [sampleTable] at he
    split_ifs at he
    · cases he
      exact ⟨rfl, Or.inl (sampleLayout_frame (by decide) (by decide))⟩
    · cases he
      exact ⟨rfl, Or.inl (sampleLayout_frame (by decide) (by decide))⟩
    · cases he
      exact ⟨rfl, Or.inl (sampleLayout_frame (by decide) (by decide))⟩
    · cases he
      exact ⟨rfl, Or.inr rfl⟩
  mid := by
    intro i t ht
    simp only [sampleTable] at ht
    split_ifs at ht with hi
    cases ht
    exact sampleLayout_frame (by omega) (by omega)
  low := by
    intro i t ht
    simp only [sampleTable] at ht
    split_ifs at ht with hi
    cases ht
    exact sampleLayout_frame (by omega) (by omega)

theorem sampleSystem_framed : sampleSystem.Framed sampleLayout where
  memory := by
    refine ⟨rfl, rfl, fun q hq => ?_⟩
    obtain ⟨k, hk, rfl⟩ := List.mem_map.mp hq
    have hk := List.mem_range.mp hk
    exact sampleLayout_frame (by omega) (by omega)
  proc := by
    intro i
    simp only [sampleSystem]
    split_ifs
    · refine ⟨fun pg hpg => ?_, fun t ht => ?_, fun _ => rfl⟩
      · cases hpg
        exact ⟨sampleLayout_frame (by decide) (by decide), sampleTable_framed⟩
      · cases ht
        exact sampleLayout_frame (by decide) (by decide)
    · refine ⟨fun pg hpg => ?_, fun t ht => ?_, fun hpg => ?_⟩
      · cases hpg
      · cases ht
      · cases hpg

theorem sampleSystem_ungrouped : sampleSystem.book.Ungrouped where
  groups := fun _ _ => ⟨rfl, rfl⟩
  nextpid := by decide
  member := by
    intro i
    by_cases hi : i = 0
    · subst hi
      exact ⟨rfl, rfl⟩
    · simp [System.book, sampleSystem, hi, Proc.member, blankProc]
  pid := by
    intro i hlive
    by_cases hi : i = 0
    · subst hi
      exact ⟨by decide, by decide⟩
    · simp [System.book, sampleSystem, hi, Proc.member, blankProc] at hlive

/-- A process forks without copy-on-write: the books stay right. -/
theorem sample_groups_accurate : ∃ r, exec account (sampleSystem, []) [(0, .fork false)] = .ok r ∧
    Guarded account (fun r e => ∀ r', account r e = .ok r' →
      r'.1.book.Accurate r'.2 ∧ StartsOutside r.1 e r'.1) (sampleSystem, []) [(0, .fork false)] := by
  have hok : (exec account (sampleSystem, []) [(0, .fork false)]).toOption.isSome = true := by
    decide +kernel
  cases hrun : exec account (sampleSystem, []) [(0, .fork false)] with
  | error e =>
    rw [hrun] at hok
    cases hok
  | ok r =>
    refine ⟨r, rfl, (groups_accurate_iff sampleSystem_framed (by decide) sampleSystem_ungrouped
      hrun).mpr ⟨?_, fun _ _ => trivial⟩⟩
    rintro ⟨-, hcow, -⟩
    cases hcow

/-- After one `fork(1)` the group of two processes counts one. -/
theorem founder_not_counted : ∃ r, exec account (sampleSystem, []) [(0, .fork true)] = .ok r ∧
    r.1.book.groups.getCowGroup 1 = some 0 ∧ (r.1.book.groups 0).count = 1 ∧
    (r.1.book.members 1).card = 2 ∧ ¬ r.1.book.Accurate r.2 := by
  have hbooks : (exec account (sampleSystem, []) [(0, .fork true)]).toOption.map (fun r =>
      (r.1.book.groups.getCowGroup 1, (r.1.book.groups 0).count, (r.1.book.members 1).card)) =
      some (some 0, 1, 2) := by
    decide +kernel
  cases hrun : exec account (sampleSystem, []) [(0, .fork true)] with
  | error e =>
    rw [hrun] at hbooks
    cases hbooks
  | ok r =>
    rw [hrun] at hbooks
    simp only [Except.toOption, Option.map_some, Option.some.injEq, Prod.mk.injEq] at hbooks
    obtain ⟨hget, hcount, hcard⟩ := hbooks
    refine ⟨r, rfl, hget, hcount, hcard, fun A => ?_⟩
    have hcounted := A.counted 1 0 one_ne_zero hget
    rw [hcount, hcard] at hcounted
    cases hcounted

end Sample

end AdvancedOperatingSystems.DemandPaging
