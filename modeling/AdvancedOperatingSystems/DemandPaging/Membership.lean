import AdvancedOperatingSystems.DemandPaging.Frames
import AdvancedOperatingSystems.DemandPaging.OnePage

/-!
# The members of CoW groups

What the steps of the system do to the table of groups and to the fields of the processes that
say which group they are in.
-/

namespace AdvancedOperatingSystems.DemandPaging

open Foundations Riscv Riscv.PageTable

/-- What a process slot says about its group. -/
structure Member where
  state : ProcState
  pid : ℕ
  cowGroup : ℕ
  cowEnabled : Bool

def Proc.member (p : Proc) : Member := ⟨p.state, p.pid, p.cowGroup, p.cowEnabled⟩

/-- The groups, the slots and the next process id. -/
structure Book where
  groups : CowGroups
  member : ℕ → Member
  nextpid : ℕ

def System.book (s : System) : Book := ⟨s.kernel.groups, fun i => (s.proc i).member, s.nextpid⟩

/-- A slot as `freeproc` leaves it. -/
def Member.freed (m : Member) : Member := { m with state := .unused, pid := 0 }

/-- A process that has made itself a group, if it was in none. -/
def Member.joined (m : Member) : Member :=
  if m.cowGroup = 0 then { m with cowGroup := m.pid, cowEnabled := true } else m

namespace Book

variable (b : Book)

def set (i : ℕ) (m : Member) : Book := { b with member := Function.update b.member i m }

def withGroups (groups : CowGroups) : Book := { b with groups := groups }

def counted : Book := { b with nextpid := b.nextpid + 1 }

/-- The groups once process `i` is in one. -/
def joinedGroups (i : ℕ) : CowGroups :=
  if (b.member i).cowGroup = 0 then b.groups.cowGroupInit (b.member i).pid else b.groups

end Book

/-- Pages have been added to the lists of groups. A full list overwrites the count. -/
structure SlotsStored (L : Layout) (groups groups' : CowGroups) : Prop where
  group : ∀ a, (groups' a).group = (groups a).group
  count : ∀ a, (groups' a).count = (groups a).count ∨
    ∃ e, L.Entry e ∧ (groups' a).count = (BitVec.ofNat 32 e.pa).toInt

/-- A fork gets past `allocproc`. -/
def Allocates (s : System) : Prop := s.freeSlot.isSome ∧ 4 ≤ s.kernel.memory.freelist.length

/-- What the event of a live process does to the groups. -/
inductive BookStep (L : Layout) (s : System) (i : ℕ) : Event → Book → Prop
  | idle {e : Event} (h : ∀ cow, e = .fork cow → s.freeSlot = none)
      (h' : ∀ status, e ≠ .exit status) : BookStep L s i e s.book
  | spent {cow : Bool} {n : ℕ} (slot : s.freeSlot = some n)
      (few : cow = true → s.kernel.memory.freelist.length < 4) :
      BookStep L s i (.fork cow) (s.book.counted.set n (s.proc n).member.freed)
  | failed {n : ℕ} {groups : CowGroups} (slot : s.freeSlot = some n) (ne : n ≠ i)
      (enough : 4 ≤ s.kernel.memory.freelist.length)
      (stored : SlotsStored L (s.book.joinedGroups i) groups) :
      BookStep L s i (.fork true) (((s.book.counted.withGroups groups).set i
        (s.proc i).member.joined).set n (s.proc n).member.freed)
  | shared {n : ℕ} {groups groups' : CowGroups} (slot : s.freeSlot = some n) (ne : n ≠ i)
      (enough : 4 ≤ s.kernel.memory.freelist.length)
      (stored : SlotsStored L (s.book.joinedGroups i) groups)
      (incr : groups.incrCowGroupCount (s.proc i).member.joined.cowGroup = .ok groups') :
      BookStep L s i (.fork true) (((s.book.counted.withGroups groups').set i
        (s.proc i).member.joined).set n
          ⟨.live, s.nextpid, (s.proc i).member.joined.cowGroup, true⟩)
  | copied {n : ℕ} (slot : s.freeSlot = some n) (ne : n ≠ i) :
      BookStep L s i (.fork false) (s.book.counted.set n
        ⟨.live, s.nextpid, (s.proc n).cowGroup, (s.proc n).cowEnabled⟩)
  | exited {status : BitVec 32} {groups : CowGroups}
      (decr : if (s.proc i).cowEnabled
        then s.kernel.groups.decrCowGroupCount (s.proc i).cowGroup = .ok groups
        else groups = s.kernel.groups) :
      BookStep L s i (.exit status) ((s.book.withGroups groups).set i
        { (s.proc i).member with state := .zombie })
  | reaped {addr j : ℕ} (zombie : (s.proc j).state = .zombie) :
      BookStep L s i (.wait addr) (s.book.set j (s.proc j).member.freed)

section Rows

variable {s : System} {i : ℕ} {p p' : Proc} {m m' : Memory} {groups : CowGroups} {r : Running}

@[simp] theorem setMemory_book : (s.setMemory m).book = s.book := rfl

@[simp] theorem setGroups_book : (s.setGroups groups).book = s.book.withGroups groups := rfl

theorem setProc_book : (s.setProc i p).book = s.book.set i p.member := by
  unfold System.book System.setProc Book.set
  congr 1
  funext j
  by_cases h : j = i
  · subst h
    simp
  · simp [h]

theorem setCpu_book {c c' : Cpu} (hc : s.cpu i = some c) (hp : SameProc c.proc c'.proc)
    (hg : c'.kernel.groups = c.kernel.groups) : (s.setCpu i c').book = s.book := by
  obtain ⟨hkernel, hproc, -⟩ := cpu_some hc
  unfold System.book System.setCpu
  congr 1
  · show c'.kernel.groups = s.kernel.groups
    rw [hg, hkernel]
  · funext j
    by_cases h : j = i
    · subst h
      simp only [Function.update_self]
      unfold SameProc at hp
      rw [hp, hproc]
      rfl
    · simp only [Function.update_of_ne h]

theorem freeproc_member (h : freeproc r p m = .ok (p', m')) : p'.member = p.member.freed := by
  obtain ⟨m₁, -, h⟩ := bind_ok_iff.mp h
  obtain ⟨m₂, -, h⟩ := bind_ok_iff.mp h
  cases h
  rfl

theorem joinGroup_member : (joinGroup p groups).1.member = p.member.joined := by
  unfold joinGroup Member.joined Proc.member
  by_cases h : p.cowGroup = 0
  · simp only [h, ↓reduceIte]
  · simp only [h, ↓reduceIte]

theorem joinGroup_groups : (joinGroup p groups).2 =
    if p.cowGroup = 0 then groups.cowGroupInit p.pid else groups := by
  unfold joinGroup
  split_ifs <;> rfl

theorem joinGroup_cowGroup : (joinGroup p groups).1.cowGroup = p.member.joined.cowGroup :=
  congrArg Member.cowGroup joinGroup_member

end Rows

section Groups

variable {L : Layout} {groups groups' groups'' : CowGroups} {group : ℕ} {e : Pte} {c c' : CowCopy}

theorem SlotsStored.refl : SlotsStored L groups groups := ⟨fun _ => rfl, fun _ => Or.inl rfl⟩

theorem SlotsStored.trans (h : SlotsStored L groups groups') (h' : SlotsStored L groups' groups'') :
    SlotsStored L groups groups'' where
  group := fun a => (h'.group a).trans (h.group a)
  count := by
    intro a
    rcases h'.count a with heq | hword
    · rw [heq]
      exact h.count a
    · exact Or.inr hword

theorem addShmem_stored (he : L.Entry e) (h : groups.addShmem group e.pa = .ok groups') :
    SlotsStored L groups groups' := by
  unfold CowGroups.addShmem CowGroups.modifyGroup at h
  cases hget : groups.getCowGroup group with
  | none =>
    simp only [hget] at h
    cases h
  | some a =>
    simp only [hget] at h
    cases h
    have hstore : ((groups a).store e.pa).group = (groups a).group ∧
        (((groups a).store e.pa).count = (groups a).count ∨
          ((groups a).store e.pa).count = (BitVec.ofNat 32 e.pa).toInt) := by
      unfold CowGroup.store
      split_ifs
      · exact ⟨rfl, Or.inl rfl⟩
      · exact ⟨rfl, Or.inr rfl⟩
      · exact ⟨rfl, Or.inl rfl⟩
      · exact ⟨rfl, Or.inl rfl⟩
    constructor
    · intro j
      by_cases hj : j = a
      · rw [hj, Function.update_self]
        exact hstore.1
      · rw [Function.update_of_ne hj]
    · intro j
      by_cases hj : j = a
      · rw [hj, Function.update_self]
        exact hstore.2.imp_right fun hword => ⟨e, he, hword⟩
      · rw [Function.update_of_ne hj]
        exact Or.inl rfl

theorem uvmcopyCowLoop_stored {is : List ℕ} {stop : Option ℕ} (h : FramedCopy L c)
    (hrun : uvmcopyCowLoop group is c = .ok (stop, c')) : SlotsStored L c.groups c'.groups := by
  induction is generalizing c with
  | nil =>
    cases hrun
    exact .refl
  | cons i is ih =>
    unfold uvmcopyCowLoop at hrun
    obtain ⟨slot, hwalk, hrun⟩ := bind_ok_iff.mp hrun
    rcases slot with _ | _ | e
    · cases hrun
    · exact ih h hrun
    · obtain ⟨-, hleaf⟩ := walk_ok hwalk
      have hslot := (hleaf _ rfl).symm
      have he := h.old.leaf _ e hslot
      obtain ⟨⟨ok, m₁, new₁⟩, hmap, hrun⟩ := bind_ok_iff.mp hrun
      have hspace : FramedSpace L (c.memory, c.new) := ⟨h.memory, h.new⟩
      have h₁ := mappages_framed hspace he.readOnly hmap
      cases ok with
      | false =>
        cases hrun
        exact .refl
      | true =>
        simp only [Bool.not_true, Bool.false_eq_true, ↓reduceIte] at hrun
        obtain ⟨groups, hadd, hrun⟩ := bind_ok_iff.mp hrun
        have hlow : (c.old.low (lowIndex i)).isSome :=
          h.old.wf.low_of_leaf _ (by rw [hslot]; rfl)
        exact (addShmem_stored he hadd).trans
          (ih ⟨h₁.memory, h.old.map he.readOnly hlow, h₁.table⟩ hrun)

theorem uvmcopyCow_stored {sz : ℕ} {ok : Bool} (h : FramedCopy L c)
    (hrun : uvmcopyCow group sz c = .ok (ok, c')) : SlotsStored L c.groups c'.groups := by
  obtain ⟨⟨stop, c₁⟩, hloop, hrun⟩ := bind_ok_iff.mp hrun
  have h₁ := uvmcopyCowLoop_stored h hloop
  cases stop with
  | none =>
    cases hrun
    exact h₁
  | some i =>
    obtain ⟨⟨m, new⟩, -, hrun⟩ := bind_ok_iff.mp hrun
    cases hrun
    exact h₁

theorem sharePages_stored {pt : PageTable ℕ} (ht : FramedTable L pt) {is : List ℕ}
    (h : exec (sharePage group pt) groups is = .ok groups') : SlotsStored L groups groups' := by
  refine exec_invariant (I := fun g => SlotsStored L groups g) (fun g va g' hg hstep => ?_) .refl h
  obtain ⟨slot, hwalk, hstep⟩ := bind_ok_iff.mp hstep
  rcases slot with _ | _ | e
  · cases hstep
    exact hg
  · cases hstep
    exact hg
  · obtain ⟨-, hleaf⟩ := walk_ok hwalk
    exact hg.trans (addShmem_stored (ht.leaf _ e (hleaf _ rfl).symm) hstep)

end Groups

section Allocate

variable {L : Layout} {r : Running} {s s₁ : System} {m m' : Memory}

/-- A new table takes three pages. -/
theorem procPagetable_result {trapframe : ℕ} {result : Option Pagetable}
    (h : procPagetable r trapframe m = .ok (result, m')) :
    result.isSome ↔ 3 ≤ m.freelist.length := by
  unfold procPagetable at h
  cases hc : uvmcreate m with
  | none =>
    simp only [hc] at h
    cases h
    have hk : m.kalloc = none := by simpa [uvmcreate] using hc
    rw [Memory.kalloc_none] at hk
    simp [hk]
  | some q =>
    obtain ⟨pg₀, m₀⟩ := q
    simp only [hc] at h
    obtain ⟨⟨root, m₁⟩, hk, hroot⟩ := Option.map_eq_some_iff.mp hc
    cases hroot
    have hlen : m.freelist.length = m₁.freelist.length + 1 := by
      rw [(Memory.kalloc_some hk).1]
      rfl
    obtain ⟨found, m₂, pt₂, taken, hwalk, hfound, -, -, -, hw₂, hlow⟩ :=
      @walkAlloc_total (m₁.memset root 0) PageTable.empty TRAMPOLINE wf_empty (by decide)
    have hmissing : missingTables PageTable.empty TRAMPOLINE = 2 := rfl
    rw [hmissing, Memory.memset_freelist] at hfound
    obtain ⟨⟨ok₁, m₃, pt₃⟩, hmap₁, h⟩ := bind_ok_iff.mp h
    obtain ⟨⟨found', m₂', pt₂'⟩, hwalk', hmap₁⟩ := bind_ok_iff.mp hmap₁
    obtain ⟨rfl, rfl, rfl⟩ : found = found' ∧ m₂ = m₂' ∧ pt₂ = pt₂' := by
      have heq := hwalk.symm.trans hwalk'
      simp only [Except.ok.injEq, Prod.mk.injEq] at heq
      exact heq
    cases found with
    | false =>
      cases hmap₁
      simp only [Bool.not_false, ↓reduceIte] at h
      obtain ⟨m₄, -, h⟩ := bind_ok_iff.mp h
      cases h
      simp only [Bool.false_eq_true, false_iff] at hfound
      simp only [Option.isSome_none, Bool.false_eq_true, false_iff]
      omega
    | true =>
      simp only [Bool.not_true, Bool.false_eq_true, ↓reduceIte] at hmap₁
      split_ifs at hmap₁
      cases hmap₁
      simp only [Bool.not_true, Bool.false_eq_true, ↓reduceIte] at h
      obtain ⟨⟨ok₂, m₄, pt₄⟩, hmap₂, h⟩ := bind_ok_iff.mp h
      have hsame : lowIndex TRAPFRAME = lowIndex TRAMPOLINE := by decide
      have hlow' : (pt₂.low (lowIndex TRAPFRAME)).isSome := by
        rw [hsame]
        exact hlow rfl
      have hmid' : (pt₂.mid (midIndex TRAPFRAME)).isSome := hw₂.mid_of_low _ hlow'
      have hnone : missingTables (pt₂.set TRAMPOLINE (some (trampolinePte (m₁.memset root 0))))
          TRAPFRAME = 0 := by
        unfold missingTables
        simp [PageTable.set, Option.isNone_eq_false_iff.mpr hlow',
          Option.isNone_eq_false_iff.mpr hmid']
      have hok : ok₂ = true := mappages_found hmap₂ (by rw [hnone]; exact Nat.zero_le _)
      subst hok
      simp only [Bool.not_true, Bool.false_eq_true, ↓reduceIte] at h
      cases h
      simp only [true_iff] at hfound
      simp only [Option.isSome_some, true_iff]
      omega

end Allocate

end AdvancedOperatingSystems.DemandPaging
