import AdvancedOperatingSystems.TrapEmulate.Handlers
import AdvancedOperatingSystems.Riscv.ByteMemory

/-!
# The fetch of the emulated instruction

`trap_and_emulate` translates the first byte of the instruction and reads the whole word
from there. The physical memory is a memory of bytes, which the kernel maps one to one.
-/

namespace AdvancedOperatingSystems.TrapEmulate

open Foundations Riscv Riscv.PageTable

/-- The leaves of a process's table are whole pages of the memory. -/
def InRam (pt : PageTable Unit) : Prop :=
  ∀ i e, pt.leaf i = some e → KERNBASE ≤ e.pa ∧ e.pa + PGSIZE ≤ PHYSTOP ∧ e.pa % PGSIZE = 0

def guestByte (m : ByteMemory) (pt : PageTable Unit) (va : ℕ) : Option (BitVec 8) :=
  if pt.walkaddr va = 0 then none
  else some (m (BitVec.ofNat 64 (pt.walkaddr va + va % PGSIZE)))

/-- `*((uint32*)paddr)` with the `paddr` of `trap_and_emulate`. -/
def fetch (m : ByteMemory) (pt : PageTable Unit) (addr : ℕ) : Except Panic (BitVec 32) :=
  let paddr := pt.walkaddr addr ||| (addr &&& 0xFFF)
  if KERNBASE ≤ paddr ∧ paddr + 4 ≤ PHYSTOP then .ok (m.load (BitVec.ofNat 64 paddr) 4)
  else .error "kerneltrap"

/-- `trap_and_emulate` on the memory. -/
def fetchAndEmulate (m : ByteMemory) (t : TrapInput) (s : VmState) (p : Proc) :
    Except Panic (VmState × Proc) :=
  saveOldPtable t.oldPage s p >>= fun s =>
    derefTable p.pagetable >>= fun pt =>
      fetch m pt t.sepc.toNat >>= fun w => dispatch { t with instruction := w } s p

theorem fetchAndEmulate_eq {m : ByteMemory} {t : TrapInput} {s : VmState} {p : Proc}
    {r : TableRef} (hr : p.pagetable = some r) {w : BitVec 32}
    (hw : fetch m r.table t.sepc.toNat = .ok w) :
    fetchAndEmulate m t s p = trapAndEmulate { t with instruction := w } s p := by
  unfold fetchAndEmulate trapAndEmulate
  congr 1
  funext s
  simp [hr, derefTable, hw, bind, Except.bind]

section Translation

variable {pt : PageTable Unit}

theorem InRam.walkaddr (h : InRam pt) {va : ℕ} (hva : pt.walkaddr va ≠ 0) :
    KERNBASE ≤ pt.walkaddr va ∧ pt.walkaddr va + PGSIZE ≤ PHYSTOP ∧
      pt.walkaddr va % PGSIZE = 0 := by
  obtain ⟨-, e, hleaf, -, heq⟩ := walkaddr_spec hva
  rw [← heq]
  exact h _ e hleaf

theorem or_offset {f : ℕ} (h : f % PGSIZE = 0) (a : ℕ) :
    f ||| (a &&& 0xFFF) = f + a % PGSIZE := by
  have hmask : a &&& 0xFFF = a % PGSIZE := Nat.and_two_pow_sub_one_eq_mod a 12
  have hf : f = 2 ^ 12 * (f / PGSIZE) := by
    simp only [PGSIZE] at *
    omega
  have hlt : a % PGSIZE < 2 ^ 12 := Nat.mod_lt a (by norm_num)
  rw [hmask]
  calc f ||| a % PGSIZE = 2 ^ 12 * (f / PGSIZE) ||| a % PGSIZE := by rw [← hf]
    _ = 2 ^ 12 * (f / PGSIZE) + a % PGSIZE := (Nat.two_pow_add_eq_or_of_lt hlt _).symm
    _ = f + a % PGSIZE := by rw [← hf]

end Translation

section Fetch

variable {m : ByteMemory} {pt : PageTable Unit} {pc : ℕ}

theorem fetch_eq (hram : InRam pt) (h : pt.walkaddr pc ≠ 0) :
    fetch m pt pc =
      if pt.walkaddr pc + pc % PGSIZE + 4 ≤ PHYSTOP then
        .ok (m.load (BitVec.ofNat 64 (pt.walkaddr pc + pc % PGSIZE)) 4)
      else .error "kerneltrap" := by
  obtain ⟨hlo, -, haligned⟩ := hram.walkaddr h
  have hge : KERNBASE ≤ pt.walkaddr pc + pc % PGSIZE := Nat.le_add_right_of_le hlo
  simp only [fetch, or_offset haligned, hge, true_and]

theorem fetch_inside (hram : InRam pt) (h : pt.walkaddr pc ≠ 0)
    (hoff : pc % PGSIZE + 4 ≤ PGSIZE) :
    ∃ w, fetch m pt pc = .ok w ∧ ∀ k < 4, guestByte m pt (pc + k) = some (byteOf w k) := by
  obtain ⟨-, hhi, -⟩ := hram.walkaddr h
  rw [fetch_eq hram h, if_pos (by omega)]
  refine ⟨_, rfl, fun k hk => ?_⟩
  have hpage : vpn (pc + k) = vpn pc := by
    simp only [vpn, PGSIZE] at *
    omega
  have hmod : (pc + k) % PGSIZE = pc % PGSIZE + k := by
    simp only [PGSIZE] at *
    omega
  rw [guestByte, walkaddr_congr hpage, if_neg h, byteOf_load m _ hk, ← BitVec.ofNat_add, hmod,
    Nat.add_assoc]

theorem guestByte_across (hlast : pc % PGSIZE = PGSIZE - 2) (hfirst : pt.walkaddr pc ≠ 0)
    (hsecond : pt.walkaddr (pc + 2) ≠ 0) {k : ℕ} (hk : k < 2) :
    guestByte m pt (pc + k) =
        some (m (BitVec.ofNat 64 (pt.walkaddr pc + pc % PGSIZE + k))) ∧
      guestByte m pt (pc + (k + 2)) =
        some (m (BitVec.ofNat 64 (pt.walkaddr (pc + 2) + k))) := by
  have hpage : vpn (pc + k) = vpn pc ∧ vpn (pc + (k + 2)) = vpn (pc + 2) := by
    simp only [vpn, PGSIZE] at *
    omega
  have hmod : (pc + k) % PGSIZE = pc % PGSIZE + k ∧ (pc + (k + 2)) % PGSIZE = k := by
    simp only [PGSIZE] at *
    omega
  constructor
  · rw [guestByte, walkaddr_congr hpage.1, if_neg hfirst, hmod.1, Nat.add_assoc]
  · rw [guestByte, walkaddr_congr hpage.2, if_neg hsecond, hmod.2]

/-- Across a page boundary the last two bytes are taken from behind the physical page. -/
theorem fetch_across_iff (hram : InRam pt) (hlast : pc % PGSIZE = PGSIZE - 2)
    (hfirst : pt.walkaddr pc ≠ 0) (hsecond : pt.walkaddr (pc + 2) ≠ 0) :
    (∃ w, fetch m pt pc = .ok w ∧ ∀ k < 4, guestByte m pt (pc + k) = some (byteOf w k)) ↔
      pt.walkaddr pc + PGSIZE < PHYSTOP ∧
        ∀ k < 2, m (BitVec.ofNat 64 (pt.walkaddr pc + PGSIZE + k)) =
          m (BitVec.ofNat 64 (pt.walkaddr (pc + 2) + k)) := by
  obtain ⟨-, hhi, haligned⟩ := hram.walkaddr hfirst
  have hbound : pt.walkaddr pc + pc % PGSIZE + 4 ≤ PHYSTOP ↔
      pt.walkaddr pc + PGSIZE < PHYSTOP := by
    simp only [PGSIZE, PHYSTOP, KERNBASE] at *
    omega
  have hbehind (k : ℕ) : BitVec.ofNat 64 (pt.walkaddr pc + pc % PGSIZE) +
      BitVec.ofNat 64 (k + 2) = BitVec.ofNat 64 (pt.walkaddr pc + PGSIZE + k) := by
    have hsum : pt.walkaddr pc + pc % PGSIZE + (k + 2) = pt.walkaddr pc + PGSIZE + k := by
      simp only [PGSIZE] at *
      omega
    rw [← BitVec.ofNat_add, hsum]
  rw [fetch_eq hram hfirst]
  constructor
  · rintro ⟨w, hw, hbytes⟩
    split_ifs at hw with hle
    cases hw
    refine ⟨hbound.1 hle, fun k hk => ?_⟩
    have hbyte := hbytes (k + 2) (by omega)
    rw [(guestByte_across hlast hfirst hsecond hk).2, byteOf_load m _ (by omega),
      hbehind] at hbyte
    exact (Option.some.inj hbyte).symm
  · rintro ⟨hlt, hbytes⟩
    rw [if_pos (hbound.2 hlt)]
    refine ⟨_, rfl, fun k hk => ?_⟩
    rw [byteOf_load m _ hk]
    by_cases hhead : k < 2
    · rw [(guestByte_across hlast hfirst hsecond hhead).1, ← BitVec.ofNat_add]
    · obtain ⟨j, rfl⟩ : ∃ j, k = j + 2 := ⟨k - 2, by omega⟩
      have hj : j < 2 := by omega
      rw [(guestByte_across hlast hfirst hsecond hj).2, hbehind, hbytes j hj]

/-- The word decoded is the guest's instruction exactly when it lies in one page, or the bytes
behind the physical page happen to be those of the next virtual page. -/
theorem fetch_guest_iff (hram : InRam pt) (heven : pc % 2 = 0)
    (hmapped : ∀ k < 4, guestByte m pt (pc + k) ≠ none) :
    (∃ w, fetch m pt pc = .ok w ∧ ∀ k < 4, guestByte m pt (pc + k) = some (byteOf w k)) ↔
      (pc % PGSIZE = PGSIZE - 2 → pt.walkaddr pc + PGSIZE < PHYSTOP ∧
        ∀ k < 2, m (BitVec.ofNat 64 (pt.walkaddr pc + PGSIZE + k)) =
          m (BitVec.ofNat 64 (pt.walkaddr (pc + 2) + k))) := by
  have hwalk {k : ℕ} (hk : k < 4) : pt.walkaddr (pc + k) ≠ 0 := by
    intro hzero
    exact hmapped k hk (if_pos hzero)
  have hfirst : pt.walkaddr pc ≠ 0 := hwalk (by omega : 0 < 4)
  by_cases hlast : pc % PGSIZE = PGSIZE - 2
  · rw [fetch_across_iff hram hlast hfirst (hwalk (by omega : 2 < 4))]
    exact ⟨fun h _ => h, fun h => h hlast⟩
  · have hoff : pc % PGSIZE + 4 ≤ PGSIZE := by
      simp only [PGSIZE] at *
      omega
    exact iff_of_true (fetch_inside hram hfirst hoff) (fun h => absurd h hlast)

end Fetch

/-- Two pages of code, in frames that do not follow each other. -/
def splitCode : PageTable Unit where
  mid := fun i => if i = 0 then some () else none
  low := fun i => if i = 0 then some () else none
  leaf := fun i =>
    if i = 0 then some ⟨0x80200000, true, false, true, true⟩
    else if i = 1 then some ⟨0x80300000, true, false, true, true⟩
    else none

theorem splitCode_inRam : InRam splitCode := by
  intro i e he
  simp only [splitCode] at he
  split_ifs at he
  · cases he
    decide
  · cases he
    decide

/-- A memory that holds an `ecall` across the boundary between the two pages, and a byte of
something else at the start of the second. -/
def splitMemory : ByteMemory := fun a =>
  if a = 0x80200ffe then 0x73 else if a = 0x80300000 then 0x20 else 0

/-- An instruction inside the first page. -/
theorem splitCode_fetch_guest :
    (∃ w, fetch splitMemory splitCode 0x10 = .ok w ∧
        ∀ k < 4, guestByte splitMemory splitCode (0x10 + k) = some (byteOf w k)) ↔
      (0x10 % PGSIZE = PGSIZE - 2 → splitCode.walkaddr 0x10 + PGSIZE < PHYSTOP ∧
        ∀ k < 2, splitMemory (BitVec.ofNat 64 (splitCode.walkaddr 0x10 + PGSIZE + k)) =
          splitMemory (BitVec.ofNat 64 (splitCode.walkaddr (0x10 + 2) + k))) :=
  fetch_guest_iff splitCode_inRam (by decide) (by decide)

/-- The frame behind the first page has nothing of the second. -/
theorem fetch_across_pages :
    ¬ ∃ w, fetch splitMemory splitCode 0xffe = .ok w ∧
      ∀ k < 4, guestByte splitMemory splitCode (0xffe + k) = some (byteOf w k) := by
  rintro ⟨w, hw, hbytes⟩
  have hfetch : fetch splitMemory splitCode 0xffe = .ok 0x73 := by rfl
  have hword : w = 0x73 := (Except.ok.inj (hfetch.symm.trans hw)).symm
  have hbyte := hbytes 2 (by omega : 2 < 4)
  rw [hword] at hbyte
  revert hbyte
  decide

end AdvancedOperatingSystems.TrapEmulate
