import AdvancedOperatingSystems.DemandPaging.Memory
import AdvancedOperatingSystems.Foundations.Ring
import AdvancedOperatingSystems.Foundations.Simulation

/-!
# Pipes

`pipe.c`. A process runs in `pipewrite` or `piperead` under `pi->lock` until it returns or
sleeps; such a section is one step, and the processes take their steps in any order. What
`copyin` and `copyout` do for the bytes of a call comes with the step, and so does the round
of the loop from which on the process finds itself killed by another CPU.
-/

namespace AdvancedOperatingSystems.FileSystem

open Foundations Riscv DemandPaging

abbrev PIPESIZE : ℕ := 512

structure Pipe extends Ring 32 Byte where
  readopen : Bool
  writeopen : Bool

/-- The channels that processes sleep on: `&pi->nread` and `&pi->nwrite`. -/
inductive Chan
  | nread
  | nwrite
  deriving DecidableEq

/-- How a section ends: asleep on a channel after `i` bytes, or with a return value. -/
inductive SectionEnd
  | sleep (chan : Chan) (i : ℕ)
  | ret (r : ℤ)
  deriving DecidableEq

/-- What is seen of the pipe: a byte goes in or comes out. -/
inductive Moved
  | put (ch : Byte)
  | take (ch : Byte)

/-- What a section does: the pipe after it, the bytes it puts in or takes out, the channels it
wakes up and how it ends. -/
structure Section where
  pipe : Pipe
  moved : List Moved
  woken : List Chan
  result : SectionEnd

namespace Pipe

/-- `pipealloc` leaves the bytes of the page as they are. -/
def alloc (data : ℕ → Byte) : Pipe := ⟨⟨data, 0, 0⟩, true, true⟩

variable (pi : Pipe)

/-- `pi->data[pi->nwrite++ % PIPESIZE] = ch`. -/
def putByte (ch : Byte) : Pipe := { pi with toRing := pi.toRing.put PIPESIZE ch }

/-- `pi->nread++`. -/
def takeByte : Pipe := { pi with toRing := pi.toRing.take }

/-- The loop of `pipewrite` with `rest` bytes to go, from byte `i` on. -/
def writeLoop (killed : ℕ → Bool) (src : ℕ → Option Byte) : ℕ → ℕ → Pipe → Section
  | 0, i, pi => ⟨pi, [], [.nread], .ret i⟩
  | rest + 1, i, pi =>
      if pi.readopen = false ∨ killed i then ⟨pi, [], [], .ret (-1)⟩
      else if pi.nwrite = pi.nread + BitVec.ofNat 32 PIPESIZE then
        ⟨pi, [], [.nread], .sleep .nwrite i⟩
      else
        match src i with
        | none => ⟨pi, [], [.nread], .ret i⟩
        | some ch =>
            let s := writeLoop killed src rest (i + 1) (pi.putByte ch)
            { s with moved := .put ch :: s.moved }

/-- The loop of `piperead` that copies, with `rest` bytes to go. A byte that cannot be copied
out is gone from the pipe. -/
def readLoop (dst : ℕ → Bool) : ℕ → ℕ → Pipe → Section
  | 0, i, pi => ⟨pi, [], [.nwrite], .ret i⟩
  | rest + 1, i, pi =>
      if pi.nread = pi.nwrite then ⟨pi, [], [.nwrite], .ret i⟩
      else if dst i then
        let s := readLoop dst rest (i + 1) pi.takeByte
        { s with moved := .take (pi.front PIPESIZE) :: s.moved }
      else ⟨pi.takeByte, [.take (pi.front PIPESIZE)], [.nwrite], .ret i⟩

/-- `piperead` from the test of the loop that waits. -/
def read (killed : Bool) (dst : ℕ → Bool) (n : ℕ) : Section :=
  if pi.nread = pi.nwrite ∧ pi.writeopen then
    if killed then ⟨pi, [], [], .ret (-1)⟩ else ⟨pi, [], [], .sleep .nread 0⟩
  else readLoop dst n 0 pi

/-- `pipeclose` but for the memory. -/
def close (writable : Bool) : Pipe :=
  if writable then { pi with writeopen := false } else { pi with readopen := false }

end Pipe

/-- What a process does with the pipe. `n` is the number of bytes of the call, `i` how many a
writer has put in. -/
inductive Call
  | none
  | writing (n i : ℕ) (asleep : Bool)
  | reading (n : ℕ) (asleep : Bool)
  deriving DecidableEq

structure PipeSystem where
  pipe : Pipe
  call : ℕ → Call
  killed : ℕ → Bool

/-- The steps of the processes. `src` and `dst` are what `copyin` and `copyout` do, and `k` is
the round of the loop before which another CPU kills the process. -/
inductive PipeEvent
  | write (p : ℕ) (n : ℤ) (src : ℕ → Option Byte) (k : Option ℕ)
  | read (p : ℕ) (n : ℤ) (dst : ℕ → Bool) (k : Option ℕ)
  | resume (p : ℕ) (src : ℕ → Option Byte) (dst : ℕ → Bool) (k : Option ℕ)
  | kill (p : ℕ)
  | close (writable : Bool)

/-- A queue of at most `PIPESIZE` bytes. -/
inductive Moved.Next : List Byte → Moved → List Byte → Prop
  | put (q : List Byte) (ch : Byte) (h : q.length < PIPESIZE) : Next q (.put ch) (q ++ [ch])
  | take (q : List Byte) (ch : Byte) : Next (ch :: q) (.take ch) q

namespace PipeSystem

variable (s : PipeSystem)

/-- `wakeup`. -/
def wake (chan : Chan) : Call → Call
  | .writing n i asleep => .writing n i (if chan = .nwrite then false else asleep)
  | .reading n asleep => .reading n (if chan = .nread then false else asleep)
  | .none => .none

/-- What a process finds of `killed(pr)` in round `i` of its loop. -/
def sees (p : ℕ) (k : Option ℕ) (i : ℕ) : Bool := s.killed p || k.any (· ≤ i)

/-- The processes after a section of process `p`. `asleep` is its call if it sleeps. -/
def finish (p : ℕ) (k : Option ℕ) (asleep : ℕ → Call) (sec : Section) : PipeSystem where
  pipe := sec.pipe
  call := Function.update (fun q => sec.woken.foldr wake (s.call q)) p
    (match sec.result with
      | .sleep _ i => asleep i
      | .ret _ => .none)
  killed := Function.update s.killed p (s.killed p || k.isSome)

/-- The section that a step is, with its process and the call it may sleep in. -/
def run : PipeEvent → Option (ℕ × Option ℕ × (ℕ → Call) × Section)
  | .write p n src k =>
      if s.call p = .none then
        some (p, k, fun i => .writing n.toNat i true, s.pipe.writeLoop (s.sees p k) src n.toNat 0)
      else none
  | .read p n dst k =>
      if s.call p = .none then
        some (p, k, fun _ => .reading n.toNat true, s.pipe.read (s.sees p k 0) dst n.toNat)
      else none
  | .resume p src dst k =>
      match s.call p with
      | .writing n i false =>
          some (p, k, fun j => .writing n j true, s.pipe.writeLoop (s.sees p k) src (n - i) i)
      | .reading n false =>
          some (p, k, fun _ => .reading n true, s.pipe.read (s.sees p k 0) dst n)
      | _ => none
  | _ => none

/-- One step. After both ends are closed the pipe is freed, and nobody uses it. -/
def step (s : PipeSystem) (e : PipeEvent) : Except Unit PipeSystem :=
  if s.pipe.readopen = false ∧ s.pipe.writeopen = false then .error ()
  else
    match e with
    | .kill p =>
        .ok { s with
          call := Function.update s.call p (wake .nread (wake .nwrite (s.call p)))
          killed := Function.update s.killed p true }
    | .close writable =>
        .ok { s with
          pipe := s.pipe.close writable
          call := fun q => wake (if writable then .nread else .nwrite) (s.call q) }
    | e =>
        match s.run e with
        | some (p, k, asleep, sec) => .ok (s.finish p k asleep sec)
        | none => .error ()

def emit (s : PipeSystem) (e : PipeEvent) : List Moved :=
  match s.run e with
  | some (_, _, _, sec) => sec.moved
  | none => []

end PipeSystem

namespace Pipe

variable {pi : Pipe} {q : List Byte} {killed : ℕ → Bool} {src : ℕ → Option Byte} {dst : ℕ → Bool}

abbrev Queue (pi : Pipe) (q : List Byte) : Prop := pi.toRing.Holds PIPESIZE q

theorem pipesize_dvd : PIPESIZE ∣ 2 ^ 32 := ⟨2 ^ 23, by norm_num⟩

theorem pipesize_lt : PIPESIZE < 2 ^ 32 := by decide

theorem Queue.putByte (h : pi.Queue q) (ch : Byte) (hlen : q.length < PIPESIZE) :
    (pi.putByte ch).Queue (q ++ [ch]) := Ring.Holds.put pipesize_dvd h hlen

theorem Queue.takeByte {ch : Byte} (h : pi.Queue (ch :: q)) :
    pi.front PIPESIZE = ch ∧ pi.takeByte.Queue q :=
  ⟨h.front_eq, Ring.Holds.take pipesize_dvd h⟩

/-- How the loop of `pipewrite` ends: asleep on a full pipe that is still read, after waking
the readers; with a count, after waking them; or with -1, without waking anybody. -/
structure WriteEnd (pi : Pipe) (sec : Section) : Prop where
  ends : sec.pipe.readopen = pi.readopen ∧ sec.pipe.writeopen = pi.writeopen
  cases : sec.woken = [.nread] ∧
        (∀ chan i, sec.result = .sleep chan i → chan = .nwrite ∧ pi.readopen = true ∧
          sec.pipe.nwrite = sec.pipe.nread + BitVec.ofNat 32 PIPESIZE) ∨
      sec.woken = [] ∧ sec.result = .ret (-1)
  unmoved : sec.moved = [] → sec.pipe = pi
  full : pi.nwrite = pi.nread + BitVec.ofNat 32 PIPESIZE → sec.moved = []

/-- The loop of `pipewrite` puts bytes behind the queue. -/
theorem writeLoop_queue (killed : ℕ → Bool) (src : ℕ → Option Byte) (rest i : ℕ) (h : pi.Queue q) :
    (∃ q', Takes Moved.Next q (writeLoop killed src rest i pi).moved q' ∧
      (writeLoop killed src rest i pi).pipe.Queue q' ∧ q.length ≤ q'.length ∧
      ((writeLoop killed src rest i pi).moved ≠ [] → q' ≠ [])) ∧
      WriteEnd pi (writeLoop killed src rest i pi) := by
  induction rest generalizing i pi q with
  | zero =>
    refine ⟨⟨q, rfl, h, le_rfl, fun hne => absurd rfl hne⟩, ⟨rfl, rfl⟩, Or.inl ⟨rfl, ?_⟩, fun _ => rfl,
      fun _ => rfl⟩
    intro chan j hj
    cases hj
  | succ rest ih =>
    rw [writeLoop]
    split_ifs with hstop hfull
    · exact ⟨⟨q, rfl, h, le_rfl, fun hne => absurd rfl hne⟩, ⟨rfl, rfl⟩, Or.inr ⟨rfl, rfl⟩,
        fun _ => rfl, fun _ => rfl⟩
    · refine ⟨⟨q, rfl, h, le_rfl, fun hne => absurd rfl hne⟩, ⟨rfl, rfl⟩, Or.inl ⟨rfl, ?_⟩,
        fun _ => rfl, fun _ => rfl⟩
      intro chan j hj
      cases hj
      exact ⟨rfl, by simpa using (not_or.mp hstop).1, hfull⟩
    · cases hsrc : src i with
      | none =>
        refine ⟨⟨q, rfl, h, le_rfl, fun hne => absurd rfl hne⟩, ⟨rfl, rfl⟩, Or.inl ⟨rfl, ?_⟩,
          fun _ => rfl, fun _ => rfl⟩
        intro chan j hj
        cases hj
      | some ch =>
        have hlen : q.length < PIPESIZE := by
          have hne : q.length ≠ PIPESIZE := fun heq => hfull ((h.full_iff pipesize_lt).mpr heq)
          have hle := h.length_le
          omega
        obtain ⟨⟨q', htakes, hq', hle, -⟩, hend⟩ := ih (i + 1) (h.putByte ch hlen)
        rw [List.length_append, List.length_singleton] at hle
        have hpos : q' ≠ [] := by
          rintro rfl
          simp at hle
        refine ⟨⟨q', ⟨q ++ [ch], .put q ch hlen, htakes⟩, hq', by omega, fun _ => hpos⟩, hend.ends,
          hend.cases, ?_, fun hf => absurd hf hfull⟩
        intro hnil
        cases hnil

/-- How `piperead` ends. -/
theorem readLoop_queue (dst : ℕ → Bool) (rest i : ℕ) (h : pi.Queue q) :
    (∃ q', Takes Moved.Next q (readLoop dst rest i pi).moved q' ∧
      (readLoop dst rest i pi).pipe.Queue q') ∧
      (readLoop dst rest i pi).woken = [.nwrite] ∧
      ∃ r, (readLoop dst rest i pi).result = .ret r := by
  induction rest generalizing i pi q with
  | zero => exact ⟨⟨q, rfl, h⟩, rfl, _, rfl⟩
  | succ rest ih =>
    rw [readLoop]
    split_ifs with hempty hdst
    · exact ⟨⟨q, rfl, h⟩, rfl, _, rfl⟩
    · cases q with
      | nil => exact absurd ((h.empty_iff pipesize_lt).mpr rfl) hempty
      | cons ch q =>
        obtain ⟨hfront, hq⟩ := h.takeByte
        obtain ⟨⟨q', htakes, hq'⟩, hwoken, hresult⟩ := ih (i + 1) hq
        refine ⟨⟨q', ⟨q, ?_, htakes⟩, hq'⟩, hwoken, hresult⟩
        rw [hfront]
        exact .take q ch
    · cases q with
      | nil => exact absurd ((h.empty_iff pipesize_lt).mpr rfl) hempty
      | cons ch q =>
        obtain ⟨hfront, hq⟩ := h.takeByte
        refine ⟨⟨q, takes_singleton.mpr ?_, hq⟩, rfl, _, rfl⟩
        rw [hfront]
        exact .take q ch

end Pipe

namespace PipeSystem

open Pipe

variable {s t : PipeSystem} {q : List Byte} {e : PipeEvent}

/-- A step is that of a section, or it leaves the bytes and the counters alone. -/
theorem step_cases (h : s.step e = .ok t) :
    (∃ p k asleep sec, s.run e = some (p, k, asleep, sec) ∧ t = s.finish p k asleep sec) ∨
    s.run e = none ∧ t.pipe.toRing = s.pipe.toRing := by
  unfold step at h
  split_ifs at h with hfreed
  cases e with
  | kill p =>
    cases h
    exact Or.inr ⟨rfl, rfl⟩
  | close writable =>
    cases h
    refine Or.inr ⟨rfl, ?_⟩
    cases writable <;> rfl
  | write p n src k =>
    left
    cases hrun : s.run (.write p n src k) with
    | none =>
      simp only [hrun] at h
      cases h
    | some r =>
      simp only [hrun] at h
      cases h
      exact ⟨r.1, r.2.1, r.2.2.1, r.2.2.2, rfl, rfl⟩
  | read p n dst k =>
    left
    cases hrun : s.run (.read p n dst k) with
    | none =>
      simp only [hrun] at h
      cases h
    | some r =>
      simp only [hrun] at h
      cases h
      exact ⟨r.1, r.2.1, r.2.2.1, r.2.2.2, rfl, rfl⟩
  | resume p src dst k =>
    left
    cases hrun : s.run (.resume p src dst k) with
    | none =>
      simp only [hrun] at h
      cases h
    | some r =>
      simp only [hrun] at h
      cases h
      exact ⟨r.1, r.2.1, r.2.2.1, r.2.2.2, rfl, rfl⟩

/-- A section is one of `pipewrite` or one of `piperead`. -/
inductive RunCases (s : PipeSystem) (p : ℕ) (k : Option ℕ) (asleep : ℕ → Call) : Section → Prop
  | write (n rest i : ℕ) (src : ℕ → Option Byte) (h : asleep = fun j => .writing n j true) :
      RunCases s p k asleep (writeLoop (s.sees p k) src rest i s.pipe)
  | read (n : ℕ) (dst : ℕ → Bool) (h : asleep = fun _ => .reading n true) :
      RunCases s p k asleep (s.pipe.read (s.sees p k 0) dst n)

theorem run_cases {p : ℕ} {k : Option ℕ} {asleep : ℕ → Call} {sec : Section}
    (h : s.run e = some (p, k, asleep, sec)) :
    (∀ n, s.call p ≠ .reading n true) ∧ (∀ n i, s.call p ≠ .writing n i true) ∧
      RunCases s p k asleep sec := by
  cases e with
  | write q n src l =>
    simp only [run] at h
    split_ifs at h with hnone
    cases h
    exact ⟨by simp [hnone], by simp [hnone], .write _ _ _ src rfl⟩
  | read q n dst l =>
    simp only [run] at h
    split_ifs at h with hnone
    cases h
    exact ⟨by simp [hnone], by simp [hnone], .read _ dst rfl⟩
  | resume q src dst l =>
    simp only [run] at h
    cases hcall : s.call q with
    | none =>
      rw [hcall] at h
      cases h
    | writing n i asleep' =>
      rw [hcall] at h
      cases asleep' with
      | true => cases h
      | false =>
        cases h
        exact ⟨by simp [hcall], by simp [hcall], .write _ _ _ src rfl⟩
    | reading n asleep' =>
      rw [hcall] at h
      cases asleep' with
      | true => cases h
      | false =>
        cases h
        exact ⟨by simp [hcall], by simp [hcall], .read _ dst rfl⟩
  | kill q => cases h
  | close writable => cases h

/-- Each step is one of the queue. -/
theorem queue_step (s t : PipeSystem) (q : List Byte) (e : PipeEvent) (hq : s.pipe.Queue q)
    (hstep : s.step e = .ok t) :
    ∃ q', Takes Moved.Next q (s.emit e) q' ∧ t.pipe.Queue q' := by
  rcases step_cases hstep with ⟨p, k, asleep, sec, hrun, rfl⟩ | ⟨hrun, hring⟩
  · obtain ⟨-, -, hcases⟩ := run_cases hrun
    have hemit : s.emit e = sec.moved := by rw [emit, hrun]
    rw [hemit]
    cases hcases with
    | write n rest i src =>
      obtain ⟨⟨q', htakes, hq', -⟩, -⟩ := writeLoop_queue _ _ rest i hq
      exact ⟨q', htakes, hq'⟩
    | read n dst =>
      unfold Pipe.read
      split_ifs
      · exact ⟨q, rfl, hq⟩
      · exact ⟨q, rfl, hq⟩
      · exact (readLoop_queue _ n 0 hq).1
  · refine ⟨q, ?_, ?_⟩
    · rw [emit, hrun]
      rfl
    · unfold Pipe.Queue
      rw [hring]
      exact hq

/-- A pipe that `pipealloc` has made. -/
def alloc (data : ℕ → Byte) : PipeSystem := ⟨.alloc data, fun _ => .none, fun _ => false⟩

/-- Whatever the processes do and wherever they are interrupted, killed or find a bad
address, a pipe is a queue of at most `PIPESIZE` bytes: what comes out is what went in, in
order, also after the counters have wrapped. -/
theorem pipe_fifo (data : ℕ → Byte) (es : List PipeEvent) :
    ∃ q, Takes Moved.Next [] (history step emit (alloc data) es) q ∧
      ∀ t, exec step (alloc data) es = .ok t → t.pipe.Queue q :=
  takes_history (R := fun s q => s.pipe.Queue q) (fun _ _ => True)
    (fun s q e t hq _ hstep => queue_step s t q e hq hstep) (Ring.holds_nil rfl)
    (guarded_of_forall fun _ _ => trivial)

/-- Nobody sleeps without a reason: a reader sleeps on an empty pipe that may still be
written, a writer on a full one that may still be read. -/
def Awaited (s : PipeSystem) : Prop :=
  ∀ p, (∀ n, s.call p = .reading n true → s.pipe.nread = s.pipe.nwrite ∧ s.pipe.writeopen = true) ∧
    ∀ n i, s.call p = .writing n i true →
      s.pipe.nwrite = s.pipe.nread + BitVec.ofNat 32 PIPESIZE ∧ s.pipe.readopen = true

def ReaderAsleep (s : PipeSystem) : Prop := ∃ p n, s.call p = .reading n true

/-- A `pipewrite` that is killed after it has put bytes in, while a reader sleeps. It returns
without a call of `wakeup`. -/
def Deserts (s : PipeSystem) (e : PipeEvent) : Prop :=
  ∃ p k asleep sec, s.run e = some (p, k, asleep, sec) ∧ sec.moved ≠ [] ∧ sec.woken = [] ∧
    s.ReaderAsleep

theorem wake_reading {chan : Chan} {c : Call} {n : ℕ} (h : wake chan c = .reading n true) :
    chan ≠ .nread ∧ c = .reading n true := by
  cases c with
  | none => cases h
  | writing m i asleep => cases h
  | reading m asleep =>
    simp only [wake] at h
    split_ifs at h with hchan
    · cases h
    · cases h
      exact ⟨hchan, rfl⟩

theorem wake_writing {chan : Chan} {c : Call} {n i : ℕ} (h : wake chan c = .writing n i true) :
    chan ≠ .nwrite ∧ c = .writing n i true := by
  cases c with
  | none => cases h
  | reading m asleep => cases h
  | writing m j asleep =>
    simp only [wake] at h
    split_ifs at h with hchan
    · cases h
    · cases h
      exact ⟨hchan, rfl⟩

theorem finish_call_of_ne {p r : ℕ} {k : Option ℕ} {asleep : ℕ → Call} {sec : Section} (hr : r ≠ p) :
    (s.finish p k asleep sec).call r = sec.woken.foldr wake (s.call r) := by
  simp [finish, hr]

theorem finish_call_self (p : ℕ) (k : Option ℕ) (asleep : ℕ → Call) (sec : Section) :
    (∃ chan i, sec.result = .sleep chan i ∧ (s.finish p k asleep sec).call p = asleep i) ∨
    (∃ r, sec.result = .ret r) ∧ (s.finish p k asleep sec).call p = .none := by
  cases hres : sec.result with
  | sleep chan i => exact Or.inl ⟨chan, i, rfl, by simp [finish, hres]⟩
  | ret r => exact Or.inr ⟨⟨r, rfl⟩, by simp [finish, hres]⟩

/-- A section of `pipewrite` leaves nobody asleep without a reason, unless it deserts a
reader. -/
theorem awaited_write {p n rest i : ℕ} {k : Option ℕ} {src : ℕ → Option Byte}
    (hq : s.pipe.Queue q) (hs : s.Awaited) (hp : ∀ n, s.call p ≠ .reading n true) :
    (s.finish p k (fun j => .writing n j true)
        (writeLoop (s.sees p k) src rest i s.pipe)).Awaited ↔
      ¬ ((writeLoop (s.sees p k) src rest i s.pipe).moved ≠ [] ∧
        (writeLoop (s.sees p k) src rest i s.pipe).woken = [] ∧ s.ReaderAsleep) := by
  obtain ⟨⟨q', -, hq', -, hpos⟩, hend⟩ :=
    writeLoop_queue (s.sees p k) src rest i hq
  set sec := writeLoop (s.sees p k) src rest i s.pipe
  constructor
  · rintro hawaited ⟨hmoved, hwoken, r, m, hr⟩
    -- the reader sleeps on
    have hrp : r ≠ p := by
      rintro rfl
      exact hp m hr
    have hcall : (s.finish p k (fun j => .writing n j true) sec).call r = .reading m true := by
      rw [finish_call_of_ne hrp, hwoken]
      exact hr
    have hempty := ((hawaited r).1 m hcall).1
    exact hpos hmoved ((hq'.empty_iff pipesize_lt).mp hempty)
  · intro hnot r
    by_cases hrp : r = p
    · subst hrp
      rcases finish_call_self (s := s) r k (fun j => Call.writing n j true) sec with ⟨chan, j, hres, hcall⟩ | ⟨-, hcall⟩
      · rw [hcall]
        refine ⟨fun m hm => (by cases hm), fun m l _ => ?_⟩
        rcases hend.cases with ⟨-, hsleep⟩ | ⟨-, hret⟩
        · obtain ⟨-, hopen, hfull⟩ := hsleep chan j hres
          exact ⟨hfull, hend.ends.1.trans hopen⟩
        · rw [hres] at hret
          cases hret
      · rw [hcall]
        exact ⟨fun m hm => (by cases hm), fun m l hm => (by cases hm)⟩
    · rw [finish_call_of_ne hrp]
      constructor
      · intro m hm
        rcases hend.cases with ⟨hwoken, -⟩ | ⟨hwoken, -⟩
        · rw [hwoken] at hm
          exact absurd rfl (wake_reading hm).1
        · rw [hwoken] at hm
          have hm : s.call r = .reading m true := hm
          have hunmoved : sec.moved = [] := by
            by_contra hmoved
            exact hnot ⟨hmoved, hwoken, r, m, hm⟩
          rw [finish, hend.unmoved hunmoved]
          exact (hs r).1 m hm
      · intro m l hm
        have hold : s.call r = .writing m l true := by
          rcases hend.cases with ⟨hwoken, -⟩ | ⟨hwoken, -⟩
          · rw [hwoken] at hm
            exact (wake_writing hm).2
          · rw [hwoken] at hm
            exact hm
        have hbefore := (hs r).2 m l hold
        rw [finish, hend.unmoved (hend.full hbefore.1)]
        exact hbefore

/-- A section of `piperead` leaves nobody asleep without a reason. -/
theorem awaited_read {p n : ℕ} {k : Option ℕ} {killed : Bool} {dst : ℕ → Bool}
    (hq : s.pipe.Queue q) (hs : s.Awaited) (hp : ∀ n, s.call p ≠ .reading n true) :
    (s.finish p k (fun _ => .reading n true) (s.pipe.read killed dst n)).Awaited := by
  intro r
  unfold Pipe.read
  split_ifs with hwait hkilled
  · -- killed
    by_cases hrp : r = p
    · subst hrp
      simp [finish]
    · rw [finish_call_of_ne hrp]
      exact hs r
  · -- asleep
    by_cases hrp : r = p
    · subst hrp
      simp only [finish, Function.update_self]
      exact ⟨fun _ _ => hwait, fun m l hm => (by cases hm)⟩
    · rw [finish_call_of_ne hrp]
      exact hs r
  · obtain ⟨-, hwoken, c, hres⟩ := readLoop_queue dst n 0 hq
    by_cases hrp : r = p
    · subst hrp
      simp [finish, hres]
    · rw [finish_call_of_ne hrp, hwoken]
      constructor
      · intro m hm
        exact absurd ((hs r).1 m (wake_reading hm).2) hwait
      · intro m l hm
        exact absurd rfl (wake_writing hm).1

/-- The exact condition for one step. -/
theorem awaited_step (hq : s.pipe.Queue q) (hs : s.Awaited) (hstep : s.step e = .ok t) :
    t.Awaited ↔ ¬ s.Deserts e := by
  rcases step_cases hstep with ⟨p, k, asleep, sec, hrun, rfl⟩ | ⟨hrun, hring⟩
  · have hdeserts : s.Deserts e ↔ sec.moved ≠ [] ∧ sec.woken = [] ∧ s.ReaderAsleep := by
      constructor
      · rintro ⟨p', k', asleep', sec', hrun', h⟩
        rw [hrun] at hrun'
        cases hrun'
        exact h
      · intro h
        exact ⟨p, k, asleep, sec, hrun, h⟩
    rw [hdeserts]
    obtain ⟨hreading, hwriting, hcases⟩ := run_cases hrun
    cases hcases with
    | write n rest i src h =>
      subst h
      exact awaited_write hq hs hreading
    | read n dst h =>
      subst h
      refine iff_of_true (awaited_read hq hs hreading) ?_
      rintro ⟨hmoved, hwoken, -⟩
      unfold Pipe.read at hmoved hwoken
      split_ifs at hmoved hwoken
      · exact hmoved rfl
      · exact hmoved rfl
      · rw [(readLoop_queue _ n 0 hq).2.1] at hwoken
        cases hwoken
  · have hnot : ¬ s.Deserts e := by
      rintro ⟨p, k, asleep, sec, hsome, -⟩
      rw [hrun] at hsome
      cases hsome
    refine iff_of_true ?_ hnot
    unfold step at hstep
    split_ifs at hstep
    cases e with
    | kill p =>
      cases hstep
      intro r
      by_cases hrp : r = p
      · subst hrp
        simp only [Function.update_self]
        refine ⟨fun n hn => absurd rfl (wake_reading hn).1, fun n i hn => ?_⟩
        exact absurd rfl (wake_writing (wake_writing hn).2).1
      · simp only [Function.update_of_ne hrp]
        exact hs r
    | close writable =>
      cases hstep
      intro r
      cases writable with
      | true =>
        refine ⟨fun n hn => absurd rfl (wake_reading hn).1, fun n i hn => ?_⟩
        exact (hs r).2 n i (wake_writing hn).2
      | false =>
        refine ⟨fun n hn => ?_, fun n i hn => absurd rfl (wake_writing hn).1⟩
        exact (hs r).1 n (wake_reading hn).2
    | write p n src k =>
      simp only [hrun] at hstep
      cases hstep
    | read p n dst k =>
      simp only [hrun] at hstep
      cases hstep
    | resume p src dst k =>
      simp only [hrun] at hstep
      cases hstep

/-- Sleeping and waking up: as long as no writer is killed between the bytes of a call while
a reader sleeps, nobody sleeps without a reason in any interleaving, and the first such call
leaves a reader asleep in front of bytes. -/
theorem pipe_no_lost_wakeup (data : ℕ → Byte) (es : List PipeEvent) (t : PipeSystem)
    (hes : Guarded step (fun s e => ¬ s.Deserts e) (alloc data) es)
    (ht : exec step (alloc data) es = .ok t) :
    t.Awaited ∧ ∀ e u, t.step e = .ok u → (u.Awaited ↔ ¬ t.Deserts e) := by
  have hinv : t.Awaited ∧ ∃ q, t.pipe.Queue q := by
    refine Guarded.invariant (I := fun s => s.Awaited ∧ ∃ q, s.pipe.Queue q) ?_ ?_ hes ht
    · rintro s e u ⟨hs, q, hq⟩ hguard hstep
      obtain ⟨q', -, hq'⟩ := queue_step s u q e hq hstep
      exact ⟨(awaited_step hq hs hstep).mpr hguard, q', hq'⟩
    · exact ⟨fun p => ⟨fun n hn => (by cases hn), fun n i hn => (by cases hn)⟩, [], Ring.holds_nil rfl⟩
  obtain ⟨hs, q, hq⟩ := hinv
  exact ⟨hs, fun e u hstep => awaited_step hq hs hstep⟩

/-- A reader sleeps, and a writer is killed after its first byte. -/
theorem sample_pipe_no_lost_wakeup :
    ∃ t, exec step (alloc fun _ => 0) [.read 1 5 (fun _ => true) none] = .ok t ∧ t.Awaited ∧
      ∃ u, t.step (.write 2 2 (fun _ => some 7) (some 1)) = .ok u ∧ ¬ u.Awaited := by
  have hguard : Guarded step (fun s e => ¬ s.Deserts e) (alloc fun _ => 0)
      [.read 1 5 (fun _ => true) none] := by
    refine ⟨?_, fun _ _ => trivial⟩
    rintro ⟨p, k, asleep, sec, hrun, hmoved, -⟩
    cases hrun
    exact hmoved rfl
  obtain ⟨hawaited, hexact⟩ := pipe_no_lost_wakeup (fun _ => 0) [.read 1 5 (fun _ => true) none] _
    hguard rfl
  refine ⟨_, rfl, hawaited, _, rfl, fun hu => ?_⟩
  refine (hexact (.write 2 2 (fun _ => some 7) (some 1)) _ rfl).mp hu ?_
  exact ⟨2, some 1, _, _, rfl, by decide, rfl, 1, 5, rfl⟩

end PipeSystem

end AdvancedOperatingSystems.FileSystem
