import AdvancedOperatingSystems.Foundations.Runs
import Mathlib.Data.Fintype.Basic
import Mathlib.Data.Finset.Card
import Mathlib.Logic.Function.Basic
import Mathlib.Tactic.Ring

/-!
# The user-level threading library

`ulthread.c`: the table of threads, the three scheduling loops, and the switches between
`main`, the scheduler and the threads. A pointer to a `struct uthread` is a slot of the
table or NULL. The values of the clock and the registers at a switch are inputs.
-/

namespace AdvancedOperatingSystems.UlThread

open Foundations

abbrev MAXULTHREADS : ℕ := 100

theorem neZero_args : NeZero 6 := ⟨by decide⟩

attribute [instance] neZero_args

/-- An index of `main_thread.uthreads`. -/
abbrev Slot := Fin MAXULTHREADS

inductive UlthreadState
  | free
  | runnable
  | yield
  deriving DecidableEq, Repr

/-- `enum ulthread_scheduling_algorithm`. -/
inductive Schedalgo
  | roundrobin
  | priority
  | fcfs
  deriving DecidableEq, Repr

/-- `struct context`: `ra`, `sp`, `s0` to `s11` and `a0` to `a5`. -/
abbrev Context := Fin 20 → BitVec 64

structure Uthread where
  tid : ℤ
  priority : ℤ
  time : BitVec 64
  startFunc : BitVec 64
  stackPointer : BitVec 64
  state : UlthreadState
  context : Context

structure SchedulerThread where
  tid : ℤ
  threadCount : ℤ
  uthreads : Slot → Uthread
  context : Context
  schedalgo : Schedalgo

structure Library where
  mainThread : SchedulerThread
  currentThread : Option Slot
  lastYieldedThread : Option Slot
  threadCount : ℤ

/-- A slot that `ulthread_init` or `ulthread_destroy` has cleared. -/
def Uthread.cleared (u : Uthread) : Uthread :=
  { u with tid := -1, priority := -1, time := -1, startFunc := -1, stackPointer := -1,
           state := .free }

/-- The variables of a program that has just been started. -/
def Library.loaded : Library where
  mainThread := ⟨0, 0, fun _ => ⟨0, 0, 0, 0, 0, .free, fun _ => 0⟩, fun _ => 0, .roundrobin⟩
  currentThread := none
  lastYieldedThread := none
  threadCount := 1

namespace Library

variable (l : Library)

/-- The slot with index `i`. -/
def slot (i : Slot) : Uthread := l.mainThread.uthreads i

def setSlot (i : Slot) (u : Uthread) : Library :=
  { l with mainThread :=
    { l.mainThread with uthreads := Function.update l.mainThread.uthreads i u } }

def first (p : Slot → Bool) : Option Slot := (List.finRange MAXULTHREADS).find? p

def ulthreadInit (schedalgo : Schedalgo) : Library :=
  { l with mainThread :=
    { l.mainThread with
      uthreads := fun i => (l.slot i).cleared
      tid := 0
      threadCount := 0
      schedalgo := schedalgo } }

/-- The context of a new thread: cleared, then the entry point, the stack and the arguments. -/
def startContext (start stack : BitVec 64) (args : Fin 6 → BitVec 64) : Context := fun i =>
  if i = 0 then start
  else if i = 1 then stack
  else if h : 14 ≤ i.val then args ⟨i.val - 14, by omega⟩
  else 0

/-- `ulthread_create`. Without a free slot the index stays -1: the context is written in
front of the table, its last word over `main_thread.tid` and `main_thread.thread_count`.
The words before those are taken to hold nothing of the library. The count is not bounded. -/
def ulthreadCreate (start stack : BitVec 64) (args : Fin 6 → BitVec 64) (priority : ℤ)
    (ctime : BitVec 64) : Library :=
  let l := match first fun i => (l.slot i).state = .free with
    | some i => l.setSlot i ⟨l.threadCount, priority, ctime, start, stack, .runnable,
        startContext start stack args⟩
    | none => { l with mainThread :=
        { l.mainThread with
          tid := ((args 5).truncate 32).toInt
          threadCount := ((args 5 >>> 32).truncate 32).toInt } }
  { l with threadCount := l.threadCount + 1 }

/-- One iteration of the loops for FCFS and ROUNDROBIN. -/
def earlier (current i : Slot) : Slot :=
  if (l.slot i).state ≠ .runnable then current
  else if (l.slot i).time < (l.slot current).time then i
  else current

def prior (lastTid : ℤ) (current i : Slot) : Slot :=
  if (l.slot i).state ≠ .runnable then current
  else if (l.slot current).tid = lastTid ∧ (l.slot i).tid ≠ lastTid then i
  else if (l.slot i).tid ≠ lastTid ∧ (l.slot current).priority ≤ (l.slot i).priority then i
  else current

/-- `last_yielded_thread->tid`. Through NULL this reads the first word of the program text. -/
def lastTid (text : ℤ) : ℤ :=
  match l.lastYieldedThread with
  | some i => (l.slot i).tid
  | none => text

/-- One iteration of the loop of the scheduling algorithm. -/
def preferred (text : ℤ) (current i : Slot) : Slot :=
  match l.mainThread.schedalgo with
  | .fcfs => l.earlier current i
  | .roundrobin => l.earlier current i
  | .priority => l.prior (l.lastTid text) current i

def pick (text : ℤ) (current : Slot) : Slot :=
  (List.finRange MAXULTHREADS).foldl (l.preferred text) current

/-- `current_thread`, or the first runnable slot if it is NULL. -/
def candidate : Option Slot :=
  match l.currentThread with
  | some i => some i
  | none => first fun i => (l.slot i).state = .runnable

/-- `ulthread_context_switch` saves the registers in the context of a thread. -/
def saveContext (i : Slot) (regs : Context) : Library :=
  l.setSlot i { l.slot i with context := regs }

/-- `ulthread_yield` up to the switch. -/
def ulthreadYield (current : Slot) (ctime : BitVec 64) : Library :=
  let l := if l.mainThread.schedalgo ≠ .fcfs then
      l.setSlot current { l.slot current with time := ctime }
    else l
  { l with lastYieldedThread := some current }

/-- `ulthread_destroy` up to the switch: the first slot with the tid of the current
thread is cleared. -/
def ulthreadDestroy (current : Slot) : Library :=
  let l := { l with lastYieldedThread := some current }
  let l := match first fun i => (l.slot i).tid = (l.slot current).tid with
    | some i => l.setSlot i (l.slot i).cleared
    | none => l
  { l with threadCount := l.threadCount - 1 }

end Library

/-- Whose code is running: `main`, the loop of `ulthread_schedule`, or the current thread. -/
inductive Control
  | main
  | scheduler
  | thread
  deriving DecidableEq, Repr

/-- The library, who is in control, and the context that control was resumed from. -/
structure System where
  lib : Library
  control : Control
  regs : Context

/-- A call of the library, or one iteration of the loop of `ulthread_schedule`, or its end. -/
inductive Event
  | create (start stack : BitVec 64) (args : Fin 6 → BitVec 64) (priority : ℤ)
      (ctime : BitVec 64)
  | schedule
  | dispatch (regs : Context)
  | finish
  | yield (ctime : BitVec 64) (regs : Context)
  | destroy (regs : Context)

/-- A program after its call of `ulthread_init`. -/
def System.boot (schedalgo : Schedalgo) : System :=
  ⟨Library.loaded.ulthreadInit schedalgo, .main, fun _ => 0⟩

section Step

variable (text : ℤ)

def switchToMain (l : Library) (current : Slot) (regs : Context) : System :=
  ⟨l.saveContext current regs, .scheduler, l.mainThread.context⟩

/-- One step. A call that whoever is in control cannot make does not happen, and a run in
which NULL is dispatched ends there. -/
def step (s : System) (e : Event) : Except String System :=
  match e with
  | .create start stack args priority ctime =>
      if s.control = .scheduler then .error "not in control"
      else .ok { s with lib := s.lib.ulthreadCreate start stack args priority ctime }
  | .schedule =>
      if s.control = .main then .ok { s with control := .scheduler }
      else .error "not in control"
  | .dispatch regs =>
      if s.control = .scheduler ∧ 1 < s.lib.threadCount then
        match s.lib.candidate with
        | none => .error "NULL"
        | some i =>
            let j := s.lib.pick text i
            .ok { lib :=
                    { s.lib with
                      currentThread := some j
                      mainThread := { s.lib.mainThread with context := regs } }
                  control := .thread
                  regs := (s.lib.slot j).context }
      else .error "not in control"
  | .finish =>
      if s.control = .scheduler ∧ ¬ 1 < s.lib.threadCount then .ok { s with control := .main }
      else .error "not in control"
  | .yield ctime regs =>
      match s.control, s.lib.currentThread with
      | .thread, some i => .ok (switchToMain (s.lib.ulthreadYield i ctime) i regs)
      | _, _ => .error "not in control"
  | .destroy regs =>
      match s.control, s.lib.currentThread with
      | .thread, some i => .ok (switchToMain (s.lib.ulthreadDestroy i) i regs)
      | _, _ => .error "not in control"

end Step

end AdvancedOperatingSystems.UlThread
