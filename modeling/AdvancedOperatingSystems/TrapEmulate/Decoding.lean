import AdvancedOperatingSystems.TrapEmulate.Outcome

/-!
# The words that are taken for instructions

`trap_and_emulate` looks at `funct3` and at the upper twelve bits only. The five
instructions it emulates are compared with the words that it hands to their handlers, and
a word that it hands to none leaves the VM where it was.
-/

namespace AdvancedOperatingSystems.TrapEmulate

open Foundations Riscv Riscv.PageTable

/-- The handlers of `trap_and_emulate`. -/
inductive Handler
  | sret
  | mret
  | ecall
  | csrw
  | csrr
  deriving DecidableEq, Repr

/-- The handler that the `switch` of `trap_and_emulate` chooses. -/
def handlerOf (instruction : BitVec 32) : Option Handler :=
  match funct3 instruction with
  | 0 =>
      if uimm instruction = 0x102 then some .sret
      else if uimm instruction = 0x302 then some .mret
      else some .ecall
  | 1 => some .csrw
  | 2 => some .csrr
  | _ => none

def Handler.call (t : TrapInput) (s : VmState) (p : Proc) : Handler → Except Panic (VmState × Proc)
  | .sret => handleSret s p
  | .mret => handleMret s p t.newPage
  | .ecall => handleEcall s p
  | .csrw => handleCsrw s p (rs1 t.instruction) (uimm t.instruction)
  | .csrr => handleCsrr s p (rd t.instruction) (uimm t.instruction)

def opcode (instruction : BitVec 32) : ℕ := (instruction.extractLsb' 0 7).toNat

/-- The words that encode an instruction: three of them are single words, and the accesses to
the CSRs are told by their opcode and `funct3`. -/
def Handler.Encodes : Handler → BitVec 32 → Prop
  | .sret, w => w = 0x10200073
  | .mret, w => w = 0x30200073
  | .ecall, w => w = 0x00000073
  | .csrw, w => opcode w = 0x73 ∧ funct3 w = 1
  | .csrr, w => opcode w = 0x73 ∧ funct3 w = 2

/-- A word is taken for an instruction only if it encodes it, and the VM is killed at any word
that encodes none. -/
structure Decodes (t : TrapInput) (s : VmState) (p : Proc) : Prop where
  only : ∀ h, handlerOf t.instruction = some h → h.Encodes t.instruction
  killed : (∀ h : Handler, ¬ h.Encodes t.instruction) →
    ∃ s' p', trapAndEmulate t s p = .ok (s', p') ∧ p'.killed = true

section Dispatch

variable {t : TrapInput} {s : VmState} {p : Proc}

theorem dispatch_handler {h : Handler} (hh : handlerOf t.instruction = some h) :
    dispatch t s p = h.call t s p := by
  unfold handlerOf at hh
  split at hh
  · next hfun =>
    unfold dispatch
    simp only [hfun]
    split_ifs at hh ⊢ with h102 h302
    · cases hh
      rfl
    · cases hh
      rfl
    · cases hh
      rfl
  · next hfun =>
    cases hh
    unfold dispatch
    simp only [hfun]
    rfl
  · next hfun =>
    cases hh
    unfold dispatch
    simp only [hfun]
    rfl
  · cases hh

theorem dispatch_no_handler (h : handlerOf t.instruction = none) : dispatch t s p = .ok (s, p) := by
  unfold handlerOf at h
  split at h
  · split_ifs at h
  · cases h
  · cases h
  · next h₀ h₁ h₂ =>
    unfold dispatch
    split
    · exact absurd ‹_› h₀
    · exact absurd ‹_› h₁
    · exact absurd ‹_› h₂
    · rfl

theorem Handler.Encodes.handlerOf {h : Handler} {w : BitVec 32} (hw : h.Encodes w) :
    handlerOf w = some h := by
  cases h with
  | sret =>
    cases hw
    decide
  | mret =>
    cases hw
    decide
  | ecall =>
    cases hw
    decide
  | csrw => simp only [TrapEmulate.handlerOf, hw.2]
  | csrr => simp only [TrapEmulate.handlerOf, hw.2]

/-- The decoder is right exactly about the words that encode one of its instructions. -/
theorem decodes_iff (hp : p.killed = false) :
    Decodes t s p ↔ ∃ h : Handler, h.Encodes t.instruction := by
  constructor
  · intro D
    by_contra hnone
    have hnot (h : Handler) : ¬ h.Encodes t.instruction := fun hw => hnone ⟨h, hw⟩
    cases hh : handlerOf t.instruction with
    | some h => exact hnot h (D.only h hh)
    | none =>
      obtain ⟨s', p', hresult, hkilled⟩ := D.killed hnot
      obtain ⟨s₁, -, hdispatch⟩ := bind_ok_iff.mp hresult
      rw [dispatch_no_handler hh] at hdispatch
      cases hdispatch
      rw [hp] at hkilled
      cases hkilled
  · rintro ⟨h, hw⟩
    refine ⟨fun h' hh' => ?_, fun hnot => absurd hw (hnot h)⟩
    have heq : h = h' := Option.some.inj (hw.handlerOf.symm.trans hh')
    exact heq ▸ hw

/-- At a word without a handler the VM traps again, with nothing changed, as often as it is
resumed. -/
theorem traps_forever {m : Machine} {pid : ℕ} (hold : m.vm.oldPtable.isSome)
    (hproc : m.procs pid = .running p) (hp : p.killed = false)
    (hh : handlerOf t.instruction = none) (htrapped : p.trapped t = p) (n : ℕ) :
    exec step m (List.replicate n (.trap pid .illegal t)) = .ok m := by
  have hstep : step m (.trap pid .illegal t) = .ok m := by
    have htrap : usertrap .illegal t m.vm p = .ok (m.vm, p) := by
      change trapAndEmulate t m.vm (p.trapped t) = _
      rw [htrapped, trapAndEmulate, saveOldPtable_some hold, ok_bind, dispatch_no_handler hh]
    have hleave : leave p = .running p := by
      rw [leave, hp]
      rfl
    have hsame : Function.update m.procs pid (.running p) = m.procs := by
      rw [← hproc, Function.update_eq_self]
    simp only [step, hproc, htrap, ok_bind, hleave, hsame]
  induction n with
  | zero => rfl
  | succ n ih =>
    rw [List.replicate_succ, exec_cons, hstep, ok_bind]
    exact ih

end Dispatch

/-- `csrr a0, mstatus`. -/
def csrrMstatus : TrapInput :=
  ⟨0, 0x30002573, fun _ => 0, KallocPage.second, KallocPage.third⟩

theorem decodes_csrrMstatus :
    Decodes csrrMstatus trapAndEmulateInit (VmImage.onePage.proc.trapped csrrMstatus) ↔
      ∃ h : Handler, h.Encodes csrrMstatus.instruction :=
  decodes_iff rfl

/-- `csrrc x0, mstatus, a0`. -/
def csrrcMstatus : TrapInput :=
  ⟨0, 0x30053073, fun _ => 0, KallocPage.second, KallocPage.third⟩

/-- The VM is still alive after an instruction that the decoder does not know. -/
theorem csrrc_ignored :
    ¬ Decodes csrrcMstatus trapAndEmulateInit (VmImage.onePage.proc.trapped csrrcMstatus) := by
  intro D
  have hnot (h : Handler) : ¬ h.Encodes csrrcMstatus.instruction := by
    intro hw
    have hsome := hw.handlerOf
    have hnone : handlerOf csrrcMstatus.instruction = none := by decide
    rw [hnone] at hsome
    cases hsome
  obtain ⟨s', p', hresult, hkilled⟩ := D.killed hnot
  obtain ⟨s₁, -, hdispatch⟩ := bind_ok_iff.mp hresult
  rw [dispatch_no_handler (by decide)] at hdispatch
  cases hdispatch
  cases hkilled

end AdvancedOperatingSystems.TrapEmulate
