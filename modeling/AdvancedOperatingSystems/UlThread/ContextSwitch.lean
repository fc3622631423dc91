import AdvancedOperatingSystems.Riscv.ByteMemory
import AdvancedOperatingSystems.UlThread.Library
import Mathlib.Data.Fin.VecNotation
import Mathlib.Tactic.IntervalCases

/-!
# The start of a thread

`ulthread_swtch.S` as a program over registers and memory, the layout of `main_thread`, and
the context that `ulthread_create` leaves for the first dispatch. The switch loads its base
register `a1` before its last four loads.
-/

namespace AdvancedOperatingSystems.UlThread

open Riscv

/-- The registers of `struct context`, which the switch saves and restores. -/
inductive Reg
  | ra | sp
  | s0 | s1 | s2 | s3 | s4 | s5 | s6 | s7 | s8 | s9 | s10 | s11
  | a0 | a1 | a2 | a3 | a4 | a5
  deriving DecidableEq, Repr

/-- The fields of `struct context` in their order. -/
def contextFields : List Reg :=
  [.ra, .sp, .s0, .s1, .s2, .s3, .s4, .s5, .s6, .s7, .s8, .s9, .s10, .s11,
   .a0, .a1, .a2, .a3, .a4, .a5]

/-- The field with index `k`. -/
def contextField (k : ℕ) : Reg := contextFields.getD k .ra

def argReg (k : Fin 6) : Reg := contextField (14 + k)

inductive Instr
  | sd (src : Reg) (offset : ℕ) (base : Reg)
  | ld (dst : Reg) (offset : ℕ) (base : Reg)
  | ret

/-- Registers, program counter and memory, and the doublewords read so far. -/
structure Cpu where
  regs : Reg → BitVec 64
  pc : BitVec 64
  mem : ByteMemory
  reads : List (BitVec 64)

namespace Cpu

/-- One instruction. The target of a jump loses its lowest bit. -/
def exec (c : Cpu) : Instr → Cpu
  | .sd src offset base =>
      { c with mem := c.mem.store (c.regs base + BitVec.ofNat 64 offset) 8 (c.regs src) }
  | .ld dst offset base =>
      let a := c.regs base + BitVec.ofNat 64 offset
      { c with regs := Function.update c.regs dst (c.mem.load a 8), reads := c.reads ++ [a] }
  | .ret => { c with pc := c.regs .ra &&& ~~~1#64 }

def run (c : Cpu) (p : List Instr) : Cpu := p.foldl exec c

theorem run_sd (c : Cpu) (base : Reg) (l : List (Reg × ℕ)) :
    c.run (l.map fun x => .sd x.1 x.2 base) =
      { c with
        mem := l.foldl (fun m x =>
          m.store (c.regs base + BitVec.ofNat 64 x.2) 8 (c.regs x.1)) c.mem } := by
  induction l generalizing c with
  | nil => rfl
  | cons x l ih => exact ih (c.exec (.sd x.1 x.2 base))

theorem run_ld (c : Cpu) (base : Reg) (l : List (Reg × ℕ)) (hbase : ∀ x ∈ l, x.1 ≠ base) :
    (c.run (l.map fun x => .ld x.1 x.2 base)).mem = c.mem ∧
      (c.run (l.map fun x => .ld x.1 x.2 base)).regs base = c.regs base ∧
      (c.run (l.map fun x => .ld x.1 x.2 base)).reads =
        c.reads ++ l.map fun x => c.regs base + BitVec.ofNat 64 x.2 := by
  induction l generalizing c with
  | nil => simp [run]
  | cons x l ih =>
    have hx : x.1 ≠ base := hbase x List.mem_cons_self
    have hkeep : (c.exec (.ld x.1 x.2 base)).regs base = c.regs base :=
      Function.update_of_ne hx.symm _ _
    obtain ⟨hmem, hregs, hreads⟩ := ih (c.exec (.ld x.1 x.2 base))
      (fun y hy => hbase y (List.mem_cons_of_mem _ hy))
    rw [hkeep] at hregs hreads
    refine ⟨hmem, hregs, hreads.trans ?_⟩
    simp [exec]

theorem run_append (c : Cpu) (p q : List Instr) : c.run (p ++ q) = (c.run p).run q :=
  List.foldl_append

end Cpu

/-- The stores of `ulthread_context_switch`. -/
def switchSaves : List Instr :=
  [.sd .ra 0 .a0, .sd .sp 8 .a0, .sd .s0 16 .a0, .sd .s1 24 .a0, .sd .s2 32 .a0,
   .sd .s3 40 .a0, .sd .s4 48 .a0, .sd .s5 56 .a0, .sd .s6 64 .a0, .sd .s7 72 .a0,
   .sd .s8 80 .a0, .sd .s9 88 .a0, .sd .s10 96 .a0, .sd .s11 104 .a0, .sd .a0 112 .a0,
   .sd .a1 120 .a0, .sd .a2 128 .a0, .sd .a3 136 .a0, .sd .a4 144 .a0, .sd .a5 152 .a0]

/-- The loads of `ulthread_context_switch`. -/
def switchLoads : List Instr :=
  [.ld .ra 0 .a1, .ld .sp 8 .a1, .ld .s0 16 .a1, .ld .s1 24 .a1, .ld .s2 32 .a1,
   .ld .s3 40 .a1, .ld .s4 48 .a1, .ld .s5 56 .a1, .ld .s6 64 .a1, .ld .s7 72 .a1,
   .ld .s8 80 .a1, .ld .s9 88 .a1, .ld .s10 96 .a1, .ld .s11 104 .a1, .ld .a0 112 .a1,
   .ld .a1 120 .a1, .ld .a2 128 .a1, .ld .a3 136 .a1, .ld .a4 144 .a1, .ld .a5 152 .a1]

def ulthreadContextSwitch : List Instr := switchSaves ++ switchLoads ++ [.ret]

/-- `sizeof(struct context)`. -/
abbrev contextSize : ℕ := 8 * 20

/-- `&main_thread.uthreads[i].context`, from the address of `main_thread`: the two counters,
`i` slots of 200 bytes, and the 40 bytes of the fields in front of the context. -/
def threadContext (table : BitVec 64) (i : Slot) : BitVec 64 :=
  table + BitVec.ofNat 64 (8 + 200 * i + 40)

/-- `&main_thread.context`. -/
def mainContext (table : BitVec 64) : BitVec 64 :=
  table + BitVec.ofNat 64 (8 + 200 * MAXULTHREADS)

/-- The writes of `ulthread_create` to the context of the slot it has found. -/
def createContext (m : ByteMemory) (p start stack : BitVec 64) (args : Fin 6 → BitVec 64) :
    ByteMemory :=
  let m := m.zero p contextSize
  let m := m.store (p + BitVec.ofNat 64 (8 * 0)) 8 start
  let m := m.store (p + BitVec.ofNat 64 (8 * 1)) 8 stack
  let m := m.store (p + BitVec.ofNat 64 (8 * 14)) 8 (args 0)
  let m := m.store (p + BitVec.ofNat 64 (8 * 15)) 8 (args 1)
  let m := m.store (p + BitVec.ofNat 64 (8 * 16)) 8 (args 2)
  let m := m.store (p + BitVec.ofNat 64 (8 * 17)) 8 (args 3)
  let m := m.store (p + BitVec.ofNat 64 (8 * 18)) 8 (args 4)
  m.store (p + BitVec.ofNat 64 (8 * 19)) 8 (args 5)

section Layout

theorem contexts_disjoint (table : BitVec 64) (i : Slot) {a : BitVec 64}
    (h : InRegion (threadContext table i) contextSize a) :
    ¬ InRegion (mainContext table) contextSize a := by
  have hle : 8 + 200 * i.val + 40 + contextSize ≤ 8 + 200 * MAXULTHREADS := by
    have hi := i.isLt
    simp only [contextSize, MAXULTHREADS] at *
    omega
  rw [inRegion_iff, threadContext, sub_offset] at h
  rw [inRegion_iff, mainContext, sub_offset]
  generalize 8 + 200 * i.val + 40 = n at h hle
  simp only [contextSize, MAXULTHREADS] at *
  omega

theorem createContext_apply (m : ByteMemory) (p start stack : BitVec 64)
    (args : Fin 6 → BitVec 64) {a : BitVec 64} (h : InRegion p contextSize a)
    (hlt : (a - p).toNat / 8 < 20) :
    createContext m p start stack args a =
      byteOf (Library.startContext start stack args ⟨(a - p).toNat / 8, hlt⟩)
        ((a - p).toNat % 8) := by
  have hzero : m.zero p contextSize a = 0 := if_pos h
  have hword (m' : ByteMemory) {j : ℕ} (hj : j < 20) (v : BitVec 64) :
      m'.store (p + BitVec.ofNat 64 (8 * j)) 8 v a =
        if (a - p).toNat / 8 = j then byteOf v ((a - p).toNat % 8) else m' a :=
    store_word v (by norm_num : 8 * 20 ≤ 2 ^ 64) hj
  have hbyte (n : ℕ) : byteOf (0 : BitVec 64) n = 0 := by
    simp [byteOf]
  unfold createContext
  simp only [hword, hzero, Nat.reduceLT]
  generalize (a - p).toNat % 8 = r
  generalize (a - p).toNat / 8 = k at hlt
  interval_cases k <;> first | rfl | exact (hbyte r).symm

end Layout

section Switch

variable (table : BitVec 64) (i : Slot) (start stack : BitVec 64) (args : Fin 6 → BitVec 64)

/-- The byte that the two contexts hold at an address when the loads start: the new context
of the thread and the registers of the scheduler. -/
def contextByte (regs : Reg → BitVec 64) (a : BitVec 64) : Option (BitVec 8) :=
  let k := (a - threadContext table i).toNat
  let j := (a - mainContext table).toNat
  if h : k < contextSize then
    some (byteOf (Library.startContext start stack args ⟨k / 8, Nat.div_lt_of_lt_mul h⟩) (k % 8))
  else if j < contextSize then some (byteOf (regs (contextField (j / 8))) (j % 8))
  else none

/-- The 32 bytes from `args[1] + 128` on lie in the two contexts and are those of `args[2]` to
`args[5]`. -/
def ArgumentsCovered (regs : Reg → BitVec 64) : Prop :=
  ∀ b < 32, contextByte table i start stack args regs (args 1 + BitVec.ofNat 64 (128 + b)) =
    some (byteOf (args ⟨b / 8 % 4 + 2, by omega⟩) (b % 8))

/-- The scheduler calls the switch for a thread whose context is as `ulthread_create` left it;
the rest of the memory and the other registers are arbitrary. -/
structure FirstDispatch (m : ByteMemory) (c : Cpu) : Prop where
  context : ∀ a, InRegion (threadContext table i) contextSize a →
    c.mem a = createContext m (threadContext table i) start stack args a
  a0 : c.regs .a0 = mainContext table
  a1 : c.regs .a1 = threadContext table i
  reads : c.reads = []

/-- `start` is entered with its stack and its arguments, and only the contexts were read. -/
structure Starts (c : Cpu) : Prop where
  pc : c.pc = start
  sp : c.regs .sp = stack
  args : ∀ k, c.regs (argReg k) = args k
  reads : ∀ a ∈ c.reads, ∀ k < 8,
    InRegion (threadContext table i) contextSize (a + BitVec.ofNat 64 k) ∨
      InRegion (mainContext table) contextSize (a + BitVec.ofNat 64 k)

variable {table i start stack args} {m : ByteMemory} {c : Cpu}

theorem run_switchSaves (c : Cpu) : c.run switchSaves =
    { c with mem := c.mem.storeRow (c.regs .a0) (fun k => c.regs (contextField k)) 20 } :=
  c.run_sd .a0 (contextFields.zip ((List.range 20).map (8 * ·)))

theorem FirstDispatch.contextByte_eq (h : FirstDispatch table i start stack args m c)
    {a : BitVec 64} {b : BitVec 8}
    (hb : contextByte table i start stack args c.regs a = some b) :
    (c.run switchSaves).mem a = b := by
  rw [run_switchSaves, h.a0]
  dsimp only
  rw [storeRow_apply (n := 20) _ _ _ _ (by norm_num)]
  simp only [contextByte] at hb
  split_ifs at hb with hthread hmain
  · rw [if_neg (contexts_disjoint table i hthread), h.context a hthread,
      createContext_apply _ _ _ _ _ hthread]
    · exact Option.some.inj hb
    · exact Nat.div_lt_of_lt_mul hthread
  · rw [if_pos (inRegion_iff.2 hmain)]
    exact Option.some.inj hb

theorem contextByte_isSome {regs : Reg → BitVec 64} {a : BitVec 64}
    (h : InRegion (threadContext table i) contextSize a ∨
      InRegion (mainContext table) contextSize a) :
    ∃ b, contextByte table i start stack args regs a = some b := by
  simp only [contextByte]
  split_ifs with hthread hmain
  · exact ⟨_, rfl⟩
  · exact ⟨_, rfl⟩
  · exact absurd h (by rw [not_or]; exact ⟨hthread, hmain⟩)

theorem inRegion_of_contextByte {regs : Reg → BitVec 64} {a : BitVec 64} {b : BitVec 8}
    (h : contextByte table i start stack args regs a = some b) :
    InRegion (threadContext table i) contextSize a ∨
      InRegion (mainContext table) contextSize a := by
  simp only [contextByte] at h
  split_ifs at h with hthread hmain
  · exact Or.inl hthread
  · exact Or.inr hmain

theorem FirstDispatch.load_context (h : FirstDispatch table i start stack args m c) {k : ℕ}
    (hk : k < 20) :
    (c.run switchSaves).mem.load (threadContext table i + BitVec.ofNat 64 (8 * k)) 8 =
      Library.startContext start stack args ⟨k, hk⟩ := by
  apply load_eq_iff.2
  intro j hj
  apply h.contextByte_eq
  rw [add_ofNat_add]
  have hoff : (threadContext table i + BitVec.ofNat 64 (8 * k + j) -
      threadContext table i).toNat = 8 * k + j := by
    rw [BitVec.add_comm, BitVec.add_sub_cancel, BitVec.toNat_ofNat]
    omega
  have hdiv : (8 * k + j) / 8 = k := by omega
  have hmod : (8 * k + j) % 8 = j := by omega
  have hin : 8 * k + j < contextSize := by
    simp only [contextSize]
    omega
  simp only [contextByte, hoff, hin, dif_pos, hdiv, hmod]

theorem FirstDispatch.load_base (h : FirstDispatch table i start stack args m c) {k : ℕ}
    (hk : k < 20) : (c.run switchSaves).mem.load
      ((c.run switchSaves).regs .a1 + BitVec.ofNat 64 (8 * k)) 8 =
        Library.startContext start stack args ⟨k, hk⟩ := by
  have hbase : (c.run switchSaves).regs .a1 = threadContext table i := h.a1
  rw [hbase]
  exact h.load_context hk

theorem FirstDispatch.run_head (h : FirstDispatch table i start stack args m c) :
    (c.run ulthreadContextSwitch).pc = start &&& ~~~1#64 ∧
      (c.run ulthreadContextSwitch).regs .sp = stack ∧
      (c.run ulthreadContextSwitch).regs .a0 = args 0 ∧
      (c.run ulthreadContextSwitch).regs .a1 = args 1 := by
  have hload := @h.load_base
  rw [ulthreadContextSwitch, Cpu.run_append, Cpu.run_append]
  generalize c.run switchSaves = d at hload
  refine ⟨?_, ?_, ?_, ?_⟩
  · exact congrArg (fun v => v &&& ~~~1#64) (hload (by norm_num : 0 < 20))
  · exact hload (by norm_num : 1 < 20)
  · exact hload (by norm_num : 14 < 20)
  · exact hload (by norm_num : 15 < 20)

theorem FirstDispatch.run_tail (h : FirstDispatch table i start stack args m c) {k : ℕ}
    (hk : k < 4) :
    (c.run ulthreadContextSwitch).regs (argReg ⟨k + 2, by omega⟩) =
      (c.run switchSaves).mem.load (args 1 + BitVec.ofNat 64 (128 + 8 * k)) 8 := by
  have hbase : (c.run switchSaves).mem.load
      ((c.run switchSaves).regs .a1 + BitVec.ofNat 64 (8 * 15)) 8 = args 1 :=
    h.load_base (by norm_num : 15 < 20)
  rw [ulthreadContextSwitch, Cpu.run_append, Cpu.run_append]
  generalize c.run switchSaves = d at hbase
  rw [← hbase]
  interval_cases k <;> rfl

theorem switchLoads_eq : switchLoads =
    [(.ra, 0), (.sp, 8), (.s0, 16), (.s1, 24), (.s2, 32), (.s3, 40), (.s4, 48), (.s5, 56),
      (.s6, 64), (.s7, 72), (.s8, 80), (.s9, 88), (.s10, 96), (.s11, 104), (.a0, 112)].map
        (fun x : Reg × ℕ => .ld x.1 x.2 .a1) ++ [.ld .a1 120 .a1] ++
      [(.a2, 128), (.a3, 136), (.a4, 144), (.a5, 152)].map
        (fun x : Reg × ℕ => .ld x.1 x.2 .a1) := rfl

theorem FirstDispatch.run_reads (h : FirstDispatch table i start stack args m c) :
    (c.run ulthreadContextSwitch).reads =
      (List.range 16).map (fun k => threadContext table i + BitVec.ofNat 64 (8 * k)) ++
        (List.range 4).map fun k => args 1 + BitVec.ofNat 64 (128 + 8 * k) := by
  have hbase : (c.run switchSaves).mem.load
      ((c.run switchSaves).regs .a1 + BitVec.ofNat 64 (8 * 15)) 8 = args 1 :=
    h.load_base (by norm_num : 15 < 20)
  have ha1 : (c.run switchSaves).regs .a1 = threadContext table i := h.a1
  have hreads : (c.run switchSaves).reads = [] := by
    rw [run_switchSaves]
    exact h.reads
  rw [ulthreadContextSwitch, switchLoads_eq, Cpu.run_append, Cpu.run_append, Cpu.run_append,
    Cpu.run_append]
  generalize c.run switchSaves = d at hbase ha1 hreads
  obtain ⟨hmem, hregs, hfirst⟩ := d.run_ld .a1
    [(.ra, 0), (.sp, 8), (.s0, 16), (.s1, 24), (.s2, 32), (.s3, 40), (.s4, 48), (.s5, 56),
      (.s6, 64), (.s7, 72), (.s8, 80), (.s9, 88), (.s10, 96), (.s11, 104), (.a0, 112)] (by decide)
  generalize d.run _ = e at hmem hregs hfirst ⊢
  have hlast := ((e.exec (.ld .a1 120 .a1)).run_ld .a1
    [(.a2, 128), (.a3, 136), (.a4, 144), (.a5, 152)] (by decide)).2.2
  change ((e.exec (.ld .a1 120 .a1)).run _).reads = _
  rw [hlast]
  have hnew : (e.exec (.ld .a1 120 .a1)).regs .a1 = args 1 := by
    change e.mem.load (e.regs .a1 + BitVec.ofNat 64 120) 8 = args 1
    rw [hmem, hregs]
    exact hbase
  have hread : (e.exec (.ld .a1 120 .a1)).reads =
      e.reads ++ [threadContext table i + BitVec.ofNat 64 120] := by
    rw [← ha1, ← hregs]
    rfl
  rw [hnew, hread, hfirst, hreads, ha1]
  rfl

theorem even_iff {v : BitVec 64} : v &&& ~~~1#64 = v ↔ v.getLsbD 0 = false := by
  constructor
  · intro h
    rw [← h]
    simp
  · intro h
    apply BitVec.eq_of_getLsbD_eq
    intro j hj
    rw [BitVec.getLsbD_and, BitVec.getLsbD_not, BitVec.getLsbD_one]
    by_cases hzero : j = 0
    · rw [hzero, h, Bool.false_and]
    · simp only [hj, hzero, decide_true, decide_false, Bool.and_false, Bool.not_false,
        Bool.and_true]

/-- A thread starts with its arguments exactly when its entry point is an even address and
the four words behind its second argument are its other arguments. -/
theorem thread_starts_iff (h : FirstDispatch table i start stack args m c) :
    Starts table i start stack args (c.run ulthreadContextSwitch) ↔
      start.getLsbD 0 = false ∧ ArgumentsCovered table i start stack args c.regs := by
  obtain ⟨hpc, hsp, h0, h1⟩ := h.run_head
  have hcut (k r : ℕ) : args 1 + BitVec.ofNat 64 (128 + 8 * k) + BitVec.ofNat 64 r =
      args 1 + BitVec.ofNat 64 (128 + (8 * k + r)) := by
    rw [add_ofNat_add, Nat.add_assoc]
  constructor
  · intro hstart
    refine ⟨even_iff.1 (hpc.symm.trans hstart.pc), fun b hb => ?_⟩
    have hk : b / 8 < 4 := by omega
    have hr : b % 8 < 8 := by omega
    have hsplit : 8 * (b / 8) + b % 8 = b := by omega
    have hmem : args 1 + BitVec.ofNat 64 (128 + 8 * (b / 8)) ∈
        (c.run ulthreadContextSwitch).reads := by
      rw [h.run_reads]
      apply List.mem_append_right
      exact List.mem_map_of_mem (List.mem_range.2 hk)
    have hin := hstart.reads _ hmem (b % 8) hr
    have hload := (h.run_tail hk).symm.trans (hstart.args ⟨b / 8 + 2, by omega⟩)
    have hbyte := load_eq_iff.1 hload (b % 8) hr
    rw [hcut, hsplit] at hin hbyte
    obtain ⟨v, hv⟩ : ∃ v, contextByte table i start stack args c.regs _ = some v :=
      contextByte_isSome hin
    rw [hv, ← h.contextByte_eq hv, hbyte]
    simp only [Nat.mod_eq_of_lt hk]
  · rintro ⟨heven, hcovered⟩
    have hword {k : ℕ} (hk : k < 4) {r : ℕ} (hr : r < 8) :
        contextByte table i start stack args c.regs
          (args 1 + BitVec.ofNat 64 (128 + 8 * k) + BitVec.ofNat 64 r) =
            some (byteOf (args ⟨k + 2, by omega⟩) r) := by
      have hdiv : (8 * k + r) / 8 % 4 = k := by omega
      have hmod : (8 * k + r) % 8 = r := by omega
      rw [hcut, hcovered (8 * k + r) (by omega)]
      simp only [hdiv, hmod]
    have htail {k : ℕ} (hk : k < 4) :
        (c.run ulthreadContextSwitch).regs (argReg ⟨k + 2, by omega⟩) =
          args ⟨k + 2, by omega⟩ := by
      rw [h.run_tail hk]
      apply load_eq_iff.2
      intro r hr
      exact h.contextByte_eq (hword hk hr)
    refine ⟨hpc.trans (even_iff.2 heven), hsp, ?_, ?_⟩
    · rintro ⟨_ | _ | k, hk⟩
      · exact h0
      · exact h1
      · exact htail (by omega : k < 4)
    · intro a ha r hr
      rw [h.run_reads] at ha
      rcases List.mem_append.1 ha with hfirst | hlast
      · obtain ⟨k, hk, rfl⟩ := List.mem_map.1 hfirst
        have hlt := List.mem_range.1 hk
        rw [add_ofNat_add]
        exact Or.inl (inRegion_add (by norm_num) (by simp only [contextSize]; omega))
      · obtain ⟨k, hk, rfl⟩ := List.mem_map.1 hlast
        exact inRegion_of_contextByte (hword (List.mem_range.1 hk) hr)

end Switch

/-- A scheduler with nothing in its registers but the two arguments of the switch, right after
`ulthread_create` in a memory of zeros. -/
def firstCall (start stack : BitVec 64) (args : Fin 6 → BitVec 64) : Cpu where
  regs := fun r => if r = .a0 then mainContext 0x3000 else
    if r = .a1 then threadContext 0x3000 0 else 0
  pc := 0
  mem := createContext (fun _ => 0) (threadContext 0x3000 0) start stack args
  reads := []

theorem firstCall_dispatch (start stack : BitVec 64) (args : Fin 6 → BitVec 64) :
    FirstDispatch 0x3000 0 start stack args (fun _ => 0) (firstCall start stack args) :=
  ⟨fun _ _ => rfl, rfl, rfl, rfl⟩

/-- Arguments of which the second points to the context of the thread itself. -/
def ownContextArgs : Fin 6 → BitVec 64 := ![7, threadContext 0x3000 0, 1, 2, 3, 4]

theorem own_context_starts :
    ((0x1000#64).getLsbD 0 = false ∧ ArgumentsCovered 0x3000 0 0x1000 0x2000 ownContextArgs
        (firstCall 0x1000 0x2000 ownContextArgs).regs) ∧
      Starts 0x3000 0 0x1000 0x2000 ownContextArgs
        ((firstCall 0x1000 0x2000 ownContextArgs).run ulthreadContextSwitch) := by
  have hcovered : (0x1000#64).getLsbD 0 = false ∧
      ArgumentsCovered 0x3000 0 0x1000 0x2000 ownContextArgs
        (firstCall 0x1000 0x2000 ownContextArgs).regs := by
    unfold ArgumentsCovered
    decide
  exact ⟨hcovered, (thread_starts_iff (firstCall_dispatch _ _ _)).2 hcovered⟩

/-- The arguments of `test3.c`. -/
def testArgs : Fin 6 → BitVec 64 := ![1, 1, 1, 1, 0, 0]

/-- With 1 in `a1` the third argument is loaded from the address 129. -/
theorem test_args_read_outside :
    ¬ Starts 0x3000 0 0x1000 0x2000 testArgs
      ((firstCall 0x1000 0x2000 testArgs).run ulthreadContextSwitch) := by
  intro h
  have hread : testArgs 1 + BitVec.ofNat 64 (128 + 8 * 0) ∈
      ((firstCall 0x1000 0x2000 testArgs).run ulthreadContextSwitch).reads := by
    rw [(firstCall_dispatch _ _ _).run_reads]
    apply List.mem_append_right
    exact List.mem_map_of_mem (List.mem_range.2 (by norm_num))
  have hin := h.reads _ hread 0 (by norm_num)
  revert hin
  decide

end AdvancedOperatingSystems.UlThread
