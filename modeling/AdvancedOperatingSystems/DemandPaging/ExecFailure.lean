import AdvancedOperatingSystems.DemandPaging.FirstTouch
import AdvancedOperatingSystems.DemandPaging.Frames

/-!
# Failing calls of exec

`exec` with the registers of the trapframe that it sets. Each exit with -1 is compared with the
fields of the process that have been written before it.
-/

namespace AdvancedOperatingSystems.DemandPaging

open Foundations Riscv Riscv.PageTable

/-- The registers of the trapframe that `exec` sets. -/
structure Trapframe where
  epc : ℕ
  sp : ℕ
  a1 : ℕ
  deriving DecidableEq

/-- The field `entry` of the ELF header. -/
def elfEntry (buf : ℕ → Byte) : ℕ := field buf 24 8

def pushPointer (sp : ℕ) (arg : List Byte) : ℕ :=
  let sp := sub64 sp (arg.length + 1)
  sp - sp % 16

/-- The stack pointer below the strings and the array `ustack`. -/
def stackPointer (sz : ℕ) (argv : List (List Byte)) : ℕ :=
  let sp := sub64 (argv.foldl pushPointer sz) ((argv.length + 1) * 8)
  sp - sp % 16

/-- `exec` with the trapframe: `argc`, or `none` for -1. -/
def execCall (path : Path) (argv : List (List Byte)) (namei : Path → Option File)
    (k : Kernel) (p : Proc) (tf : Trapframe) :
    Except Panic (Option ℕ × Kernel × Proc × Trapframe) :=
  let p := { p with ondemand := isOndemand path }
  let r : Running := ⟨k.groups, p.cowGroup⟩
  match namei path with
  | none => .ok (none, k, p, tf)
  | some f =>
    let (got, buf) := readi f 0 sizeofElfhdr fun _ => 0
    let elf := Elfhdr.ofBytes buf
    if got ≠ sizeofElfhdr then .ok (none, k, p, tf)
    else if elf.magic ≠ ELF_MAGIC then .ok (none, k, p, tf)
    else do
      let (pg, m) ← procPagetable r (p.trapframe.getD 0) k.memory
      match pg with
      | none => return (none, { k with memory := m }, p, tf)
      | some pg =>
        let (argc, sz, m, pt) ← buildImage r f elf p.ondemand argv (m, pg.table)
        let new := { pg with table := pt }
        match argc with
        | none =>
          let m ← procFreepagetable r new sz m
          return (none, { k with memory := m }, p, tf)
        | some argc =>
          let sp := stackPointer sz argv
          let tf := { tf with a1 := sp }
          let p := { p with name := progName path }
          match p.pagetable with
          | none => .error kerneltrap
          | some old =>
            let oldsz := p.sz
            let p := { p with pagetable := some new, sz := sz }
            let tf := { tf with epc := elfEntry buf, sp := sp }
            let m ← procFreepagetable r old oldsz m
            let p := { p with heapTracker := fun _ => .clear, residentHeapPages := 0 }
            return (some argc, { k with memory := m }, p, tf)

/-- What a call of `exec` that fails is to leave alone. -/
structure ExecKeeps (p p' : Proc) (tf tf' : Trapframe) : Prop where
  pagetable : p'.pagetable = p.pagetable
  sz : p'.sz = p.sz
  trapframe : p'.trapframe = p.trapframe ∧ tf' = tf
  name : p'.name = p.name
  ondemand : p'.ondemand = p.ondemand
  heapTracker : p'.heapTracker = p.heapTracker
  residentHeapPages : p'.residentHeapPages = p.residentHeapPages

section Exec

variable {path : Path} {argv : List (List Byte)} {namei : Path → Option File} {k k' : Kernel}
  {p p' : Proc} {tf tf' : Trapframe} {argc : Option ℕ}

/-- The stack pointer that the loop over the argument strings ends with. -/
theorem pushStringsWith_pointer {copy : ℕ → (ℕ → Byte) → ℕ → Memory → Bool × Memory}
    {stackbase sp sp' : ℕ} {ustack ustack' : List ℕ} {m m' : Memory}
    (h : pushStringsWith copy stackbase argv sp ustack m = (m', some (sp', ustack'))) :
    sp' = argv.foldl pushPointer sp ∧ ustack'.length = ustack.length + argv.length := by
  induction argv generalizing sp ustack m with
  | nil =>
    cases h
    exact ⟨rfl, rfl⟩
  | cons arg args ih =>
    unfold pushStringsWith at h
    simp only at h
    split_ifs at h
    · cases h
    · cases h
    · generalize copy _ _ (arg.length + 1) m = copied at h
      obtain ⟨ok, m₁⟩ := copied
      cases ok with
      | false => cases h
      | true =>
        obtain ⟨hsp, hlen⟩ := ih h
        refine ⟨hsp, ?_⟩
        simp only [List.length_append, List.length_cons, List.length_nil] at hlen ⊢
        omega

theorem pushStrings_pointer {pt : PageTable ℕ} {sz stackbase sp : ℕ} {ustack : List ℕ}
    {m m' : Memory} (h : pushStrings pt stackbase argv sz [] m = (m', some (sp, ustack))) :
    sp = argv.foldl pushPointer sz ∧ ustack.length = argv.length := by
  rw [pushStrings_eq] at h
  obtain ⟨hsp, hlen⟩ := pushStringsWith_pointer h
  exact ⟨hsp, by simpa using hlen⟩

/-- `exec` does what it does without the registers. -/
theorem execCall_exec : (do
      let (argc, k, p, _) ← execCall path argv namei k p tf
      return (argc, k, p)) = p.exec path argv namei k := by
  unfold execCall Proc.exec
  cases namei path with
  | none => rfl
  | some f =>
    simp only
    split_ifs
    · rfl
    · rfl
    · generalize procPagetable _ _ k.memory = new
      cases new with
      | error e => rfl
      | ok q =>
        obtain ⟨pg, m⟩ := q
        cases pg with
        | none => rfl
        | some pg =>
          simp only [bind, Except.bind]
          generalize buildImage _ f _ (isOndemand path) argv (m, pg.table) = image
          cases image with
          | error e => rfl
          | ok q =>
            obtain ⟨argc, sz, m, pt⟩ := q
            cases argc with
            | none =>
              simp only
              generalize procFreepagetable _ _ sz m = freed
              cases freed <;> rfl
            | some argc =>
              cases p.pagetable with
              | none => rfl
              | some old =>
                simp only
                generalize procFreepagetable _ old p.sz m = freed
                cases freed <;> rfl

/-- A call that fails has set the flag `ondemand` and no other field. -/
theorem execCall_fails (h : execCall path argv namei k p tf = .ok (none, k', p', tf')) :
    p' = { p with ondemand := isOndemand path } ∧ tf' = tf := by
  unfold execCall at h
  cases hf : namei path with
  | none =>
    simp only [hf] at h
    cases h
    exact ⟨rfl, rfl⟩
  | some f =>
    simp only [hf] at h
    split_ifs at h
    · cases h
      exact ⟨rfl, rfl⟩
    · cases h
      exact ⟨rfl, rfl⟩
    · obtain ⟨⟨pg, m⟩, -, h⟩ := bind_ok_iff.mp h
      cases pg with
      | none =>
        cases h
        exact ⟨rfl, rfl⟩
      | some pg =>
        obtain ⟨⟨argc, sz, m, pt⟩, -, h⟩ := bind_ok_iff.mp h
        cases argc with
        | none =>
          obtain ⟨m, -, h⟩ := bind_ok_iff.mp h
          cases h
          exact ⟨rfl, rfl⟩
        | some argc =>
          cases hold : p.pagetable with
          | none =>
            simp only [hold] at h
            cases h
          | some old =>
            simp only [hold] at h
            obtain ⟨m, -, h⟩ := bind_ok_iff.mp h
            cases h

/-- A call that fails changes nothing if and only if the flag `ondemand` was already that of
the path. -/
theorem failed_exec_keeps_iff (h : execCall path argv namei k p tf = .ok (none, k', p', tf')) :
    ExecKeeps p p' tf tf' ↔ isOndemand path = p.ondemand := by
  obtain ⟨rfl, rfl⟩ := execCall_fails h
  constructor
  · intro hkeeps
    exact hkeeps.ondemand
  · intro hflag
    exact ⟨rfl, rfl, ⟨rfl, rfl⟩, rfl, hflag, rfl, rfl⟩

end Exec

section Sample

/-- A process that was loaded at once, as the shell is. -/
def shellProc : Proc := { sampleProc 0 with ondemand := false }

def missingPath : Path := ['l', 's']

theorem missing_exec_fails (p : Proc) (tf : Trapframe) :
    execCall missingPath [] (fun _ => none) (sampleKernel 0) p tf =
      .ok (none, sampleKernel 0, { p with ondemand := true }, tf) := rfl

/-- An on-demand process executes a file that is not there. -/
theorem sample_failed_exec_keeps_iff :
    ExecKeeps (sampleProc 0) { sampleProc 0 with ondemand := true } ⟨0, 0, 0⟩ ⟨0, 0, 0⟩ ↔
      isOndemand missingPath = (sampleProc 0).ondemand :=
  failed_exec_keeps_iff (missing_exec_fails (sampleProc 0) ⟨0, 0, 0⟩)

/-- A process that was loaded at once executes a file that is not there. -/
theorem missing_exec_sets_ondemand :
    execCall missingPath [] (fun _ => none) (sampleKernel 0) shellProc ⟨0, 0, 0⟩ =
      .ok (none, sampleKernel 0, { shellProc with ondemand := true }, ⟨0, 0, 0⟩) ∧
    ¬ ExecKeeps shellProc { shellProc with ondemand := true } ⟨0, 0, 0⟩ ⟨0, 0, 0⟩ := by
  refine ⟨missing_exec_fails shellProc _, fun hkeeps => ?_⟩
  have hflag := hkeeps.ondemand
  simp [shellProc] at hflag

end Sample

end AdvancedOperatingSystems.DemandPaging
