import AdvancedOperatingSystems.UlThread.Bookkeeping
import AdvancedOperatingSystems.UlThread.ContextSwitch

/-!
# Contexts along a run

The library with the memory of its contexts: every switch is a run of `ulthread_swtch.S` on bytes.
The memory holds the contexts of the table all the time, so that whoever resumes finds the registers
that the switch away from it has saved.
-/

namespace AdvancedOperatingSystems.UlThread

open Foundations Riscv

/-- The registers that a function keeps for its caller, and its return address. -/
def savedRegs : List Reg :=
  [.ra, .sp, .s0, .s1, .s2, .s3, .s4, .s5, .s6, .s7, .s8, .s9, .s10, .s11]

/-- The registers as a `struct context`. -/
def pack (regs : Reg → BitVec 64) : Context := fun k => regs (contextField k)

/-- The registers when `ulthread_context_switch(old, new)` is entered. -/
def atSwitch (regs : Reg → BitVec 64) (old new : BitVec 64) : Reg → BitVec 64 :=
  Function.update (Function.update regs .a0 old) .a1 new

/-- `ulthread_context_switch(old, new)`. -/
@[irreducible] def callSwitch (regs : Reg → BitVec 64) (mem : ByteMemory)
    (old new : BitVec 64) : Cpu :=
  Cpu.run ⟨atSwitch regs old new, 0, mem, []⟩ ulthreadContextSwitch

/-- `sizeof(struct scheduler_thread)`. -/
abbrev tableSize : ℕ := 8 + 200 * MAXULTHREADS + contextSize + 8

/-- Memory after the threads have written what they please outside of `main_thread`. -/
def written (table : BitVec 64) (mem user : ByteMemory) : ByteMemory := fun a =>
  if InRegion table tableSize a then mem a else user a

/-- The library, memory, and the registers with which control was resumed last. -/
structure Machine where
  sys : System
  mem : ByteMemory
  regs : Reg → BitVec 64

/-- The events of the library. At a switch `regs` are the registers of whoever calls it, and
`user` is what memory holds then outside of `main_thread`. -/
inductive Action
  | create (start stack : BitVec 64) (args : Fin 6 → BitVec 64) (priority : ℤ)
      (ctime : BitVec 64)
  | schedule
  | dispatch (regs : Reg → BitVec 64) (user : ByteMemory)
  | finish
  | yield (ctime : BitVec 64) (regs : Reg → BitVec 64) (user : ByteMemory)
  | destroy (regs : Reg → BitVec 64) (user : ByteMemory)

namespace Machine

/-- A program after its call of `ulthread_init`; `main_thread` is zero at the start. -/
def boot (table : BitVec 64) (schedalgo : Schedalgo) (user : ByteMemory)
    (regs : Reg → BitVec 64) : Machine :=
  ⟨System.boot schedalgo, written table (fun _ => 0) user, regs⟩

/-- One event. A thread is created only while a slot is free. -/
def step (table : BitVec 64) (text : ℤ) (m : Machine) : Action → Except String Machine
  | .create start stack args priority ctime =>
      match m.sys.lib.freeSlot with
      | none => .error "no free slot"
      | some i => do
          let sys ← UlThread.step text m.sys (.create start stack args priority ctime)
          return ⟨sys, createContext m.mem (threadContext table i) start stack args, m.regs⟩
  | .schedule => do
      let sys ← UlThread.step text m.sys .schedule
      return { m with sys := sys }
  | .dispatch regs user =>
      match m.sys.lib.candidate with
      | none => .error "NULL"
      | some i => do
          let old := mainContext table
          let new := threadContext table (m.sys.lib.pick text i)
          let sys ← UlThread.step text m.sys (.dispatch (pack (atSwitch regs old new)))
          let c := callSwitch regs (written table m.mem user) old new
          return ⟨sys, c.mem, c.regs⟩
  | .finish => do
      let sys ← UlThread.step text m.sys .finish
      return { m with sys := sys }
  | .yield ctime regs user =>
      match m.sys.lib.currentThread with
      | none => .error "NULL"
      | some i => do
          let old := threadContext table i
          let new := mainContext table
          let sys ← UlThread.step text m.sys (.yield ctime (pack (atSwitch regs old new)))
          let c := callSwitch regs (written table m.mem user) old new
          return ⟨sys, c.mem, c.regs⟩
  | .destroy regs user =>
      match m.sys.lib.currentThread with
      | none => .error "NULL"
      | some i => do
          let old := threadContext table i
          let new := mainContext table
          let sys ← UlThread.step text m.sys (.destroy (pack (atSwitch regs old new)))
          let c := callSwitch regs (written table m.mem user) old new
          return ⟨sys, c.mem, c.regs⟩

end Machine

structure History where
  /-- The registers of the thread of a slot when it entered the switch in `ulthread_yield`, until it
  resumes or `ulthread_create` puts another thread into the slot, which only a free slot can get. -/
  yielded : Slot → Option (Reg → BitVec 64)
  /-- The registers of the scheduler when it entered the switch last. -/
  scheduler : Option (Reg → BitVec 64)

def History.empty : History := ⟨fun _ => none, none⟩

/-- The history after an event that leads from one machine to another. -/
def History.record (h : History) (m m' : Machine) : Action → History
  | .create _ _ _ _ _ =>
      match m.sys.lib.freeSlot with
      | none => h
      | some i => { h with yielded := Function.update h.yielded i none }
  | .schedule => h
  | .dispatch regs _ =>
      match m'.sys.lib.currentThread with
      | none => h
      | some j => ⟨Function.update h.yielded j none, some regs⟩
  | .finish => h
  | .yield _ regs _ =>
      match m.sys.lib.currentThread with
      | none => h
      | some i => { h with yielded := Function.update h.yielded i (some regs) }
  | .destroy _ _ =>
      match m.sys.lib.currentThread with
      | none => h
      | some i => { h with yielded := Function.update h.yielded i none }

/-- A step of the machine, with the history. -/
def recorded (table : BitVec 64) (text : ℤ) (r : Machine × History) (e : Action) :
    Except String (Machine × History) := do
  let m ← r.1.step table text e
  return (m, r.2.record r.1 m e)

/-- The registers are the saved ones, as far as a function keeps them. -/
def Restores (saved regs : Reg → BitVec 64) : Prop := ∀ r ∈ savedRegs, regs r = saved r

/-- An event that resumes a thread which has yielded, or the scheduler, restores its registers. -/
structure Survives (h : History) (e : Action) (m' : Machine) : Prop where
  thread : ∀ regs user, e = .dispatch regs user → ∀ j, m'.sys.lib.currentThread = some j →
    ∀ saved, h.yielded j = some saved → Restores saved m'.regs
  afterYield : ∀ ctime regs user, e = .yield ctime regs user →
    ∃ saved, h.scheduler = some saved ∧ Restores saved m'.regs
  afterDestroy : ∀ regs user, e = .destroy regs user →
    ∃ saved, h.scheduler = some saved ∧ Restores saved m'.regs

section Bytes

variable {table : BitVec 64} {mem mem' : ByteMemory} {p q : BitVec 64} {ctx : Context}

/-- The memory holds the context at `p`. -/
def Holds (mem : ByteMemory) (p : BitVec 64) (ctx : Context) : Prop :=
  ∀ a, InRegion p contextSize a → ∀ h : (a - p).toNat / 8 < 20,
    mem a = byteOf (ctx ⟨(a - p).toNat / 8, h⟩) ((a - p).toNat % 8)

theorem Holds.congr (h : Holds mem p ctx)
    (heq : ∀ a, InRegion p contextSize a → mem' a = mem a) : Holds mem' p ctx := by
  intro a ha hlt
  rw [heq a ha]
  exact h a ha hlt

theorem Holds.load (h : Holds mem p ctx) (k : Fin 20) :
    mem.load (p + BitVec.ofNat 64 (8 * k)) 8 = ctx k := by
  apply load_eq_iff.2
  intro j hj
  have hk := k.isLt
  have hoff : (p + BitVec.ofNat 64 (8 * k + j) - p).toNat = 8 * k + j := by
    rw [BitVec.add_comm, BitVec.add_sub_cancel, BitVec.toNat_ofNat]
    omega
  have hin : InRegion p contextSize (p + BitVec.ofNat 64 (8 * k + j)) :=
    inRegion_add (by decide) (by simp only [contextSize]; omega)
  have hdiv : (8 * k.val + j) / 8 = k := by omega
  have hmod : (8 * k.val + j) % 8 = j := by omega
  rw [add_ofNat_add, h _ hin (by rw [hoff]; omega)]
  simp only [hoff, hdiv, hmod]

theorem inRegion_threadContext (table : BitVec 64) (i : Slot) {a : BitVec 64} :
    InRegion (threadContext table i) contextSize a ↔
      48 + 200 * i.val ≤ (a - table).toNat ∧
        (a - table).toNat < 48 + 200 * i.val + contextSize := by
  have hi := i.isLt
  have hoff : 8 + 200 * i.val + 40 = 48 + 200 * i.val := by omega
  rw [threadContext, hoff]
  exact inRegion_offset_iff (by simp only [contextSize, MAXULTHREADS] at *; omega) (by decide)

theorem inRegion_mainContext (table : BitVec 64) {a : BitVec 64} :
    InRegion (mainContext table) contextSize a ↔
      20008 ≤ (a - table).toNat ∧ (a - table).toNat < 20008 + contextSize :=
  inRegion_offset_iff (by decide) (by decide)

theorem threadContexts_disjoint (table : BitVec 64) {i j : Slot} (hij : i ≠ j) {a : BitVec 64}
    (h : InRegion (threadContext table i) contextSize a) :
    ¬ InRegion (threadContext table j) contextSize a := by
  have hne : i.val ≠ j.val := fun heq => hij (Fin.ext heq)
  rw [inRegion_threadContext] at h ⊢
  simp only [contextSize] at *
  omega

theorem threadContext_inTable (table : BitVec 64) (i : Slot) {a : BitVec 64}
    (h : InRegion (threadContext table i) contextSize a) : InRegion table tableSize a := by
  have hi := i.isLt
  rw [inRegion_threadContext] at h
  rw [inRegion_iff]
  simp only [contextSize, MAXULTHREADS, tableSize] at *
  omega

theorem mainContext_inTable (table : BitVec 64) {a : BitVec 64}
    (h : InRegion (mainContext table) contextSize a) : InRegion table tableSize a := by
  rw [inRegion_mainContext] at h
  rw [inRegion_iff]
  simp only [contextSize, MAXULTHREADS, tableSize] at *
  omega

theorem createContext_holds (mem : ByteMemory) (p start stack : BitVec 64)
    (args : Fin 6 → BitVec 64) :
    Holds (createContext mem p start stack args) p (Library.startContext start stack args) :=
  fun _ ha hlt => createContext_apply mem p start stack args ha hlt

theorem createContext_frame {mem : ByteMemory} {p start stack : BitVec 64}
    {args : Fin 6 → BitVec 64} {a : BitVec 64} (h : ¬ InRegion p contextSize a) :
    createContext mem p start stack args a = mem a := by
  have hword : ∀ (m : ByteMemory) (j : ℕ) (v : BitVec 64), j < 20 →
      m.store (p + BitVec.ofNat 64 (8 * j)) 8 v a = m a := by
    intro m j v hj
    rw [store_word v (by decide : 8 * 20 ≤ 2 ^ 64) hj, if_neg]
    rw [inRegion_iff] at h
    simp only [contextSize] at h
    omega
  unfold createContext
  rw [hword _ 19 _ (by decide), hword _ 18 _ (by decide), hword _ 17 _ (by decide),
    hword _ 16 _ (by decide), hword _ 15 _ (by decide), hword _ 14 _ (by decide),
    hword _ 1 _ (by decide), hword _ 0 _ (by decide)]
  exact if_neg h

end Bytes

section Switch

variable {table : BitVec 64} {regs : Reg → BitVec 64} {mem user : ByteMemory} {old new : BitVec 64}
  {ctx : Context}

theorem callSwitch_mem (regs : Reg → BitVec 64) (mem : ByteMemory) (old new : BitVec 64)
    (a : BitVec 64) : (callSwitch regs mem old new).mem a =
      if InRegion old contextSize a then
        byteOf (atSwitch regs old new (contextField ((a - old).toNat / 8))) ((a - old).toNat % 8)
      else mem a := by
  have hold : atSwitch regs old new .a0 = old := by
    rw [atSwitch, Function.update_of_ne (by decide), Function.update_self]
  have hmem : (callSwitch regs mem old new).mem =
      mem.storeRow (atSwitch regs old new .a0)
        (fun k => atSwitch regs old new (contextField k)) 20 := by
    rw [callSwitch, ulthreadContextSwitch, List.append_assoc, Cpu.run_append, run_switchSaves]
    rfl
  rw [hmem, storeRow_apply _ _ _ _ (by decide), hold]

theorem callSwitch_saves : Holds (callSwitch regs mem old new).mem old
    (pack (atSwitch regs old new)) := by
  intro a ha hlt
  rw [callSwitch_mem, if_pos ha]
  rfl

theorem run_loads (c : Cpu) {k : ℕ} (hk : k < 14) :
    (c.run (switchLoads ++ [.ret])).regs (contextField k) =
      c.mem.load (c.regs .a1 + BitVec.ofNat 64 (8 * k)) 8 := by
  interval_cases k <;> rfl

theorem callSwitch_loads (hnew : Holds mem new ctx)
    (happart : ∀ a, InRegion new contextSize a → ¬ InRegion old contextSize a) (k : Fin 20)
    (hk : k.val < 14) : (callSwitch regs mem old new).regs (contextField k) = ctx k := by
  have hnew₁ : atSwitch regs old new .a1 = new := by
    rw [atSwitch, Function.update_self]
  have hheld : Holds (callSwitch regs mem old new).mem new ctx :=
    hnew.congr fun a ha => by rw [callSwitch_mem, if_neg (happart a ha)]
  have hload := hheld.load k
  rw [callSwitch, ulthreadContextSwitch, List.append_assoc, Cpu.run_append] at hload ⊢
  rw [run_loads _ hk]
  have hsaves := run_switchSaves (⟨atSwitch regs old new, 0, mem, []⟩ : Cpu)
  rw [hsaves] at hload ⊢
  rw [← hload]
  show ByteMemory.load _ (atSwitch regs old new .a1 + _) 8 = _
  rw [hnew₁]
  rfl

theorem mem_savedRegs {r : Reg} (hr : r ∈ savedRegs) :
    ∃ k : Fin 20, k.val < 14 ∧ contextField k = r := by
  revert r
  decide

theorem contextField_saved {k : Fin 20} (hk : k.val < 14) :
    contextField k ≠ .a0 ∧ contextField k ≠ .a1 := by
  revert k
  decide

theorem pack_atSwitch {k : Fin 20} (hk : k.val < 14) :
    pack (atSwitch regs old new) k = regs (contextField k) := by
  obtain ⟨h0, h1⟩ := contextField_saved hk
  rw [pack, atSwitch, Function.update_of_ne h1, Function.update_of_ne h0]

def Keeps (ctx : Context) (regs : Reg → BitVec 64) : Prop :=
  ∀ k : Fin 20, k.val < 14 → ctx k = regs (contextField k)

theorem keeps_pack : Keeps (pack (atSwitch regs old new)) regs := fun _ hk => pack_atSwitch hk

theorem callSwitch_restores {saved : Reg → BitVec 64} (hnew : Holds mem new ctx)
    (happart : ∀ a, InRegion new contextSize a → ¬ InRegion old contextSize a)
    (hkeeps : Keeps ctx saved) : Restores saved (callSwitch regs mem old new).regs := by
  intro r hr
  obtain ⟨k, hk, rfl⟩ := mem_savedRegs hr
  rw [callSwitch_loads hnew happart k hk]
  exact hkeeps k hk

end Switch

section Contexts

variable {l : Library} {i j : Slot} {regs : Context}

theorem saveContext_context : ((l.saveContext i regs).slot j).context =
    if j = i then regs else (l.slot j).context := by
  unfold Library.saveContext
  rw [slot_setSlot]
  split_ifs <;> rfl

theorem ulthreadYield_context {ctime : BitVec 64} :
    ((l.ulthreadYield i ctime).slot j).context = (l.slot j).context := by
  unfold Library.ulthreadYield
  by_cases hj : j = i
  · subst hj
    split_ifs <;> simp [Library.slot, Library.setSlot]
  · split_ifs <;> simp [Library.slot, Library.setSlot, hj]

theorem ulthreadYield_main {ctime : BitVec 64} :
    (l.ulthreadYield i ctime).mainThread.context = l.mainThread.context := by
  unfold Library.ulthreadYield
  split_ifs <;> rfl

theorem ulthreadDestroy_context :
    ((l.ulthreadDestroy i).slot j).context = (l.slot j).context := by
  unfold Library.ulthreadDestroy
  dsimp only
  split
  · next d hd =>
    by_cases hj : j = d
    · subst hj
      simp [Library.slot, Library.setSlot, Uthread.cleared]
    · simp [Library.slot, Library.setSlot, hj]
  · rfl

theorem ulthreadDestroy_main : (l.ulthreadDestroy i).mainThread.context = l.mainThread.context := by
  unfold Library.ulthreadDestroy
  dsimp only
  split <;> rfl

end Contexts

/-- Registers and memory after `ulthread_context_switch(old, new)`. -/
structure Switched (table : BitVec 64) (m m' : Machine) (regs : Reg → BitVec 64) (user : ByteMemory)
    (old new : BitVec 64) : Prop where
  mem : m'.mem = (callSwitch regs (written table m.mem user) old new).mem
  regs : m'.regs = (callSwitch regs (written table m.mem user) old new).regs

/-- The thread of slot `i` has left for the scheduler. -/
structure Left (table : BitVec 64) (m m' : Machine) (regs : Reg → BitVec 64) (user : ByteMemory)
    (i : Slot) : Prop where
  switched : Switched table m m' regs user (threadContext table i) (mainContext table)
  before : m.sys.control = .thread
  after : m'.sys.control = .scheduler
  slots : ∀ j, (m'.sys.lib.slot j).context =
    if j = i then pack (atSwitch regs (threadContext table i) (mainContext table))
    else (m.sys.lib.slot j).context
  main : m'.sys.lib.mainThread.context = m.sys.lib.mainThread.context

/-- The scheduler has left for the thread of slot `j`. -/
structure Dispatched (table : BitVec 64) (m m' : Machine) (regs : Reg → BitVec 64)
    (user : ByteMemory) (j : Slot) : Prop where
  switched : Switched table m m' regs user (mainContext table) (threadContext table j)
  current : m'.sys.lib.currentThread = some j
  slots : ∀ k, (m'.sys.lib.slot k).context = (m.sys.lib.slot k).context
  main : m'.sys.lib.mainThread.context =
    pack (atSwitch regs (mainContext table) (threadContext table j))

/-- A thread has been put into slot `i`. -/
structure Created (table : BitVec 64) (m m' : Machine) (start stack : BitVec 64)
    (args : Fin 6 → BitVec 64) (i : Slot) : Prop where
  free : m.sys.lib.freeSlot = some i
  mem : m'.mem = createContext m.mem (threadContext table i) start stack args
  control : m'.sys.control = m.sys.control
  slots : ∀ j, (m'.sys.lib.slot j).context =
    if j = i then Library.startContext start stack args else (m.sys.lib.slot j).context
  main : m'.sys.lib.mainThread.context = m.sys.lib.mainThread.context

section Steps

variable {table : BitVec 64} {text : ℤ} {m m' : Machine} {regs : Reg → BitVec 64}
  {user : ByteMemory} {ctime : BitVec 64}

theorem step_create {start stack : BitVec 64} {args : Fin 6 → BitVec 64} {priority : ℤ}
    (h : m.step table text (.create start stack args priority ctime) = .ok m') :
    ∃ i, Created table m m' start stack args i := by
  simp only [Machine.step] at h
  cases hfree : m.sys.lib.freeSlot with
  | none =>
    simp only [hfree] at h
    cases h
  | some i =>
    simp only [hfree] at h
    obtain ⟨sys, hsys, h⟩ := bind_ok_iff.mp h
    cases h
    simp only [step] at hsys
    split_ifs at hsys
    cases hsys
    refine ⟨i, hfree, rfl, rfl, fun j => ?_, ?_⟩
    · dsimp only
      rw [ulthreadCreate_slot hfree]
      split_ifs <;> rfl
    · dsimp only
      rw [ulthreadCreate_some hfree]
      rfl

theorem step_dispatch (h : m.step table text (.dispatch regs user) = .ok m') :
    ∃ j, Dispatched table m m' regs user j := by
  simp only [Machine.step] at h
  cases hcandidate : m.sys.lib.candidate with
  | none =>
    simp only [hcandidate] at h
    cases h
  | some i =>
    simp only [hcandidate] at h
    obtain ⟨sys, hsys, h⟩ := bind_ok_iff.mp h
    cases h
    simp only [step, hcandidate] at hsys
    split_ifs at hsys
    cases hsys
    exact ⟨m.sys.lib.pick text i, ⟨rfl, rfl⟩, rfl, fun _ => rfl, rfl⟩

theorem step_yield (h : m.step table text (.yield ctime regs user) = .ok m') :
    ∃ i, m.sys.lib.currentThread = some i ∧ Left table m m' regs user i := by
  simp only [Machine.step] at h
  cases hcurrent : m.sys.lib.currentThread with
  | none =>
    simp only [hcurrent] at h
    cases h
  | some i =>
    simp only [hcurrent] at h
    obtain ⟨sys, hsys, h⟩ := bind_ok_iff.mp h
    cases h
    simp only [step, hcurrent] at hsys
    split at hsys
    · next k hcontrol hk =>
      cases hk
      cases hsys
      refine ⟨i, rfl, ⟨rfl, rfl⟩, hcontrol, rfl, fun j => ?_, ulthreadYield_main⟩
      unfold switchToMain
      dsimp only
      rw [saveContext_context, ulthreadYield_context]
    · cases hsys

theorem step_destroy (h : m.step table text (.destroy regs user) = .ok m') :
    ∃ i, m.sys.lib.currentThread = some i ∧ Left table m m' regs user i := by
  simp only [Machine.step] at h
  cases hcurrent : m.sys.lib.currentThread with
  | none =>
    simp only [hcurrent] at h
    cases h
  | some i =>
    simp only [hcurrent] at h
    obtain ⟨sys, hsys, h⟩ := bind_ok_iff.mp h
    cases h
    simp only [step, hcurrent] at hsys
    split at hsys
    · next k hcontrol hk =>
      cases hk
      cases hsys
      refine ⟨i, rfl, ⟨rfl, rfl⟩, hcontrol, rfl, fun j => ?_, ulthreadDestroy_main⟩
      unfold switchToMain
      dsimp only
      rw [saveContext_context, ulthreadDestroy_context]
    · cases hsys

end Steps

/-- The memory holds the contexts of the table. Those of the threads that have yielded, and that of
the scheduler while a thread runs, are the registers the history tells. -/
structure Kept (table : BitVec 64) (r : Machine × History) : Prop where
  slots : ∀ i, Holds r.1.mem (threadContext table i) (r.1.sys.lib.slot i).context
  main : Holds r.1.mem (mainContext table) r.1.sys.lib.mainThread.context
  yielded : ∀ i saved, r.2.yielded i = some saved → Keeps (r.1.sys.lib.slot i).context saved
  scheduler : r.1.sys.control = .thread →
    ∃ saved, r.2.scheduler = some saved ∧ Keeps r.1.sys.lib.mainThread.context saved

section Runs

variable {table : BitVec 64} {text : ℤ} {mem user : ByteMemory} {p q : BitVec 64} {ctx : Context}
  {regs : Reg → BitVec 64} {r r' : Machine × History} {e : Action} {es : List Action} {i : Slot}

theorem Holds.written (h : Holds mem p ctx)
    (hin : ∀ a, InRegion p contextSize a → InRegion table tableSize a) :
    Holds (written table mem user) p ctx :=
  h.congr fun a ha => if_pos (hin a ha)

theorem Holds.callSwitch {new : BitVec 64} (h : Holds mem q ctx)
    (happart : ∀ a, InRegion q contextSize a → ¬ InRegion p contextSize a) :
    Holds (callSwitch regs mem p new).mem q ctx :=
  h.congr fun a ha => by rw [callSwitch_mem, if_neg (happart a ha)]

theorem mainContext_apart (i : Slot) (a : BitVec 64)
    (h : InRegion (mainContext table) contextSize a) :
    ¬ InRegion (threadContext table i) contextSize a :=
  fun hi => contexts_disjoint table i hi h

theorem Kept.others (K : Kept table r) (lib : Library) (saved? : Option (Reg → BitVec 64))
    (hother : ∀ j ≠ i, (lib.slot j).context = (r.1.sys.lib.slot j).context)
    (hself : ∀ saved, saved? = some saved → Keeps (lib.slot i).context saved) :
    ∀ j saved, Function.update r.2.yielded i saved? j = some saved →
      Keeps (lib.slot j).context saved := by
  intro j saved h
  by_cases hj : j = i
  · subst hj
    rw [Function.update_self] at h
    exact hself saved h
  · rw [Function.update_of_ne hj] at h
    rw [hother j hj]
    exact K.yielded j saved h

theorem Kept.create (K : Kept table r) {m : Machine} {start stack : BitVec 64}
    {args : Fin 6 → BitVec 64} (C : Created table r.1 m start stack args i) :
    Kept table (m, { r.2 with yielded := Function.update r.2.yielded i none }) := by
  have hframe : ∀ a, ¬ InRegion (threadContext table i) contextSize a → m.mem a = r.1.mem a := by
    intro a ha
    rw [C.mem]
    exact createContext_frame ha
  constructor
  · intro j
    dsimp only
    rw [C.slots]
    by_cases hj : j = i
    · rw [if_pos hj, hj, C.mem]
      exact createContext_holds _ _ _ _ _
    · rw [if_neg hj]
      exact (K.slots j).congr fun a ha => hframe a (threadContexts_disjoint table hj ha)
  · dsimp only
    rw [C.main]
    exact K.main.congr fun a ha => hframe a (mainContext_apart i a ha)
  · refine K.others m.sys.lib none (fun j hj => ?_) (fun _ h => by cases h)
    rw [C.slots, if_neg hj]
  · dsimp only
    rw [C.main, C.control]
    exact K.scheduler

theorem Kept.dispatch (K : Kept table r) {m : Machine} (D : Dispatched table r.1 m regs user i) :
    Kept table (m, ⟨Function.update r.2.yielded i none, some regs⟩) ∧
      ∀ saved, r.2.yielded i = some saved → Restores saved m.regs := by
  have hheld : ∀ j, Holds (written table r.1.mem user) (threadContext table j)
      (r.1.sys.lib.slot j).context :=
    fun j => (K.slots j).written fun a => threadContext_inTable table j
  constructor
  · constructor
    · intro j
      dsimp only
      rw [D.switched.mem, D.slots]
      exact (hheld j).callSwitch fun a => contexts_disjoint table j
    · dsimp only
      rw [D.switched.mem, D.main]
      exact callSwitch_saves
    · exact K.others m.sys.lib none (fun j _ => D.slots j) (fun _ h => by cases h)
    · intro _
      dsimp only
      rw [D.main]
      exact ⟨regs, rfl, keeps_pack⟩
  · intro saved hsaved
    rw [D.switched.regs]
    exact callSwitch_restores (hheld i) (fun a => contexts_disjoint table i)
      (K.yielded i saved hsaved)

/-- A thread of slot `i` leaves: its context is saved and the scheduler resumes. -/
theorem Kept.leave (K : Kept table r) {m : Machine} (E : Left table r.1 m regs user i)
    (saved? : Option (Reg → BitVec 64)) (hsaved? : ∀ saved, saved? = some saved → saved = regs) :
    Kept table (m, { r.2 with yielded := Function.update r.2.yielded i saved? }) ∧
      ∃ saved, r.2.scheduler = some saved ∧ Restores saved m.regs := by
  have hheld : Holds (written table r.1.mem user) (mainContext table)
      r.1.sys.lib.mainThread.context := K.main.written fun a => mainContext_inTable table
  obtain ⟨saved, hscheduler, hsaved⟩ := K.scheduler E.before
  constructor
  · constructor
    · intro j
      dsimp only
      rw [E.switched.mem, E.slots]
      by_cases hj : j = i
      · rw [if_pos hj, hj]
        exact callSwitch_saves
      · rw [if_neg hj]
        exact ((K.slots j).written fun a => threadContext_inTable table j).callSwitch
          fun a => threadContexts_disjoint table hj
    · dsimp only
      rw [E.switched.mem, E.main]
      exact hheld.callSwitch (mainContext_apart i)
    · refine K.others m.sys.lib saved? (fun j hj => ?_) (fun saved h => ?_)
      · rw [E.slots, if_neg hj]
      · rw [E.slots, if_pos rfl, hsaved? saved h]
        exact keeps_pack
    · intro hcontrol
      rw [E.after] at hcontrol
      cases hcontrol
  · refine ⟨saved, hscheduler, ?_⟩
    rw [E.switched.regs]
    exact callSwitch_restores hheld (mainContext_apart i) hsaved

/-- The invariant is kept by every event, and what resumes has its registers back. -/
theorem Kept.step (K : Kept table r) (h : recorded table text r e = .ok r') :
    Kept table r' ∧ Survives r.2 e r'.1 := by
  obtain ⟨m, hstep, h⟩ := bind_ok_iff.mp h
  cases h
  cases e with
  | create start stack args priority ctime =>
    obtain ⟨i, C⟩ := step_create hstep
    have hkept := K.create C
    simp only [History.record, C.free]
    exact ⟨hkept, (fun _ _ h => by cases h), (fun _ _ _ h => by cases h), fun _ _ h => by cases h⟩
  | schedule =>
    obtain ⟨sys, hsys, hstep⟩ := bind_ok_iff.mp hstep
    cases hstep
    simp only [UlThread.step] at hsys
    split_ifs at hsys
    cases hsys
    exact ⟨⟨K.slots, K.main, K.yielded, fun h => by cases h⟩, (fun _ _ h => by cases h),
      (fun _ _ _ h => by cases h), fun _ _ h => by cases h⟩
  | dispatch regs user =>
    obtain ⟨j, D⟩ := step_dispatch hstep
    obtain ⟨hkept, hrestores⟩ := K.dispatch D
    simp only [History.record, D.current]
    refine ⟨hkept, fun _ _ _ j' hj' => ?_, (fun _ _ _ h => by cases h), fun _ _ h => by cases h⟩
    rw [D.current, Option.some.injEq] at hj'
    subst hj'
    exact hrestores
  | finish =>
    obtain ⟨sys, hsys, hstep⟩ := bind_ok_iff.mp hstep
    cases hstep
    simp only [UlThread.step] at hsys
    split_ifs at hsys
    cases hsys
    exact ⟨⟨K.slots, K.main, K.yielded, fun h => by cases h⟩, (fun _ _ h => by cases h),
      (fun _ _ _ h => by cases h), fun _ _ h => by cases h⟩
  | yield ctime regs user =>
    obtain ⟨i, hcurrent, E⟩ := step_yield hstep
    obtain ⟨hkept, hrestores⟩ := K.leave E (some regs) fun saved h => (Option.some.inj h).symm
    simp only [History.record, hcurrent]
    exact ⟨hkept, (fun _ _ h => by cases h), (fun _ _ _ _ => hrestores), fun _ _ h => by cases h⟩
  | destroy regs user =>
    obtain ⟨i, hcurrent, E⟩ := step_destroy hstep
    obtain ⟨hkept, hrestores⟩ := K.leave E none fun saved h => by cases h
    simp only [History.record, hcurrent]
    exact ⟨hkept, (fun _ _ h => by cases h), (fun _ _ _ h => by cases h), fun _ _ _ => hrestores⟩

theorem kept_boot (schedalgo : Schedalgo) (user : ByteMemory) (regs : Reg → BitVec 64) :
    Kept table (Machine.boot table schedalgo user regs, History.empty) := by
  have hzero : ∀ p, (∀ a, InRegion p contextSize a → InRegion table tableSize a) →
      Holds (Machine.boot table schedalgo user regs).mem p fun _ => 0 := by
    intro p hin
    refine Holds.written (fun a _ _ => ?_) hin
    simp [byteOf]
  constructor
  · intro i
    exact hzero _ fun a => threadContext_inTable table i
  · exact hzero _ fun a => mainContext_inTable table
  · intro i saved h
    cases h
  · intro h
    cases h

/-- The invariant holds along every run. -/
theorem kept_run {schedalgo : Schedalgo}
    (hrun : exec (recorded table text) (Machine.boot table schedalgo user regs, History.empty) es =
      .ok r) : Kept table r :=
  exec_invariant (fun _ _ _ K h => (Kept.step K h).1) (kept_boot schedalgo user regs) hrun

/-- In every run, a thread that resumes from `ulthread_yield` has the registers back with which it
entered the switch, and so has the scheduler after every yield and destroy. -/
theorem contexts_survive {schedalgo : Schedalgo}
    (hrun : exec (recorded table text) (Machine.boot table schedalgo user regs, History.empty) es =
      .ok r) (hstep : recorded table text r e = .ok r') : Survives r.2 e r'.1 :=
  ((kept_run hrun).step hstep).2

end Runs

/-- A thread that has been created, has run and has yielded with `ra = 7`. -/
def sampleActions : List Action :=
  [.create 0x1000 0x2000 (fun _ => 0) 0 1, .schedule, .dispatch (fun _ => 5) (fun _ => 0),
   .yield 2 (fun _ => 7) (fun _ => 0)]

theorem second_dispatch_survives : ∃ r r',
    exec (recorded 0x3000 0)
      (Machine.boot 0x3000 .roundrobin (fun _ => 0) (fun _ => 0), History.empty) sampleActions =
      .ok r ∧
    recorded 0x3000 0 r (.dispatch (fun _ => 5) (fun _ => 0)) = .ok r' ∧
    Survives r.2 (.dispatch (fun _ => 5) (fun _ => 0)) r'.1 := by
  have hok : (exec (recorded 0x3000 0)
      (Machine.boot 0x3000 .roundrobin (fun _ => 0) (fun _ => 0), History.empty)
      (sampleActions ++ [.dispatch (fun _ => 5) (fun _ => 0)])).isOk = true := by
    decide +kernel
  cases hrun : exec (recorded 0x3000 0)
      (Machine.boot 0x3000 .roundrobin (fun _ => 0) (fun _ => 0), History.empty)
      (sampleActions ++ [.dispatch (fun _ => 5) (fun _ => 0)]) with
  | error message =>
    rw [hrun] at hok
    cases hok
  | ok r' =>
    obtain ⟨r, hfirst, hlast⟩ := (exec_snoc _).mp hrun
    exact ⟨r, r', hfirst, hlast, contexts_survive hfirst hlast⟩

end AdvancedOperatingSystems.UlThread
