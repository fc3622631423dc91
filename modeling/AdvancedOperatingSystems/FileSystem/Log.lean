import AdvancedOperatingSystems.DemandPaging.Elf
import AdvancedOperatingSystems.FileSystem.Bio
import AdvancedOperatingSystems.Foundations.RedoLog

/-!
# The log

`log.c`. The sections under `log.lock` are single steps; a process that would sleep on the
log does not take the step. `log.lh` is the list `lh.block[0 .. n - 1]`. The on-disk header
has `n` in its first four bytes and `block[i]` in the four bytes from `4 + 4 * i` on.
-/

namespace AdvancedOperatingSystems.FileSystem

open Foundations Riscv DemandPaging

/-- `struct log` but for its spin lock. -/
structure Log where
  start : ℕ
  size : ℕ
  outstanding : ℤ
  committing : Bool
  dev : ℕ
  lh : List ℕ

/-- Store an `int` in four bytes of a block. -/
def putWord (data : Block) (off w : ℕ) : Block := fun k =>
  if off ≤ k ∧ k < off + 4 then BitVec.ofNat 8 (w / 256 ^ (k - off)) else data k

/-- The loop of `write_head` over the header block, after `hb->n`. -/
def putBlocks (data : Block) : List ℕ → ℕ → Block
  | [], _ => data
  | b :: bs, i => putBlocks (putWord data (4 + 4 * i) b) bs (i + 1)

/-- What `write_head` makes of the header block. -/
def encodeHeader (data : Block) (lh : List ℕ) : Block :=
  putBlocks (putWord data 0 lh.length) lh 0

/-- What `read_head` makes of the header block. `n` is signed. -/
def decodeHeader (data : Block) : List ℕ :=
  if field data 0 4 < 2 ^ 31 then
    (List.range (field data 0 4)).map fun i => field data (4 + 4 * i) 4
  else []

/-- The buffer cache and the log. -/
structure Fs where
  bio : Bio
  log : Log

namespace Fs

variable (pid : ℕ) (s : Fs)

/-- The body of the loop of `install_trans`. -/
def installBody (log : Log) (recovering : Bool) (s : Bio) (tail : ℕ) : Except Stop Bio := do
  let (lbuf, s) ← s.bread pid log.dev (log.start + tail + 1)
  let (dbuf, s) ← s.bread pid log.dev (log.lh.getD tail 0)
  let s := s.setData dbuf (s.buf lbuf).data
  let s ← s.bwrite pid dbuf
  let s := if recovering then s else s.bunpin dbuf
  let s ← s.brelse pid lbuf
  s.brelse pid dbuf

def installTrans (recovering : Bool) : Except Stop Fs := do
  let bio ← exec (installBody pid s.log recovering) s.bio (List.range s.log.lh.length)
  return { s with bio := bio }

def readHead : Except Stop Fs := do
  let (buf, bio) ← s.bio.bread pid s.log.dev s.log.start
  let lh := decodeHeader (bio.buf buf).data
  let bio ← bio.brelse pid buf
  return { bio := bio, log := { s.log with lh := lh } }

def writeHead : Except Stop Fs := do
  let (buf, bio) ← s.bio.bread pid s.log.dev s.log.start
  let bio := bio.setData buf (encodeHeader (bio.buf buf).data s.log.lh)
  let bio ← bio.bwrite pid buf
  let bio ← bio.brelse pid buf
  return { s with bio := bio }

/-- `log.lh.n = 0`. -/
def clear : Fs := { s with log := { s.log with lh := [] } }

def recoverFromLog : Except Stop Fs := do
  let s ← s.readHead pid
  let s ← s.installTrans pid true
  s.clear.writeHead pid

/-- `initlog` with the log of the superblock. -/
def initlog (dev logstart nlog : ℕ) : Except Stop Fs :=
  if 4 + 4 * LOGSIZE ≥ BSIZE then .error (.panic "initlog: too big logheader")
  else ({ s with log := { s.log with start := logstart, size := nlog, dev := dev } } :
    Fs).recoverFromLog pid

def beginOp : Except Stop Fs :=
  if s.log.committing then .error .sleep
  else if s.log.lh.length + (s.log.outstanding + 1) * MAXOPBLOCKS > LOGSIZE then .error .sleep
  else .ok { s with log := { s.log with outstanding := s.log.outstanding + 1 } }

/-- The body of the loop of `write_log`. -/
def writeLogBody (log : Log) (s : Bio) (tail : ℕ) : Except Stop Bio := do
  let (toBuf, s) ← s.bread pid log.dev (log.start + tail + 1)
  let (fromBuf, s) ← s.bread pid log.dev (log.lh.getD tail 0)
  let s := s.setData toBuf (s.buf fromBuf).data
  let s ← s.bwrite pid toBuf
  let s ← s.brelse pid fromBuf
  s.brelse pid toBuf

def writeLog : Except Stop Fs := do
  let bio ← exec (writeLogBody pid s.log) s.bio (List.range s.log.lh.length)
  return { s with bio := bio }

def commit : Except Stop Fs :=
  if 0 < s.log.lh.length then do
    let s ← s.writeLog pid
    let s ← s.writeHead pid
    let s ← s.installTrans pid false
    s.clear.writeHead pid
  else .ok s

def endOp : Except Stop Fs :=
  let log := { s.log with outstanding := s.log.outstanding - 1 }
  if log.committing then .error (.panic "log.committing")
  else if log.outstanding = 0 then do
    let s ← ({ s with log := { log with committing := true } } : Fs).commit pid
    return { s with log := { s.log with committing := false } }
  else .ok { s with log := log }

/-- `log_write` of a buffer. A block that the log has already is stored in its place again. -/
def logWrite (i : ℕ) : Except Stop Fs :=
  if s.log.lh.length ≥ LOGSIZE ∨ (s.log.lh.length : ℤ) ≥ s.log.size - 1 then
    .error (.panic "too big a transaction")
  else if s.log.outstanding < 1 then .error (.panic "log_write outside of trans")
  else if (s.bio.buf i).blockno ∈ s.log.lh then .ok s
  else .ok
    { bio := s.bio.bpin i, log := { s.log with lh := s.log.lh ++ [(s.bio.buf i).blockno] } }

end Fs

section Header

theorem field_putWord (data : Block) (off w : ℕ) (hw : w < 2 ^ 32) :
    field (putWord data off w) off 4 = w := by
  have hbyte : ∀ k < 4, (putWord data off w (off + k)).toNat = w / 256 ^ k % 256 := by
    intro k hk
    have hin : off ≤ off + k ∧ off + k < off + 4 := ⟨Nat.le_add_right _ _, by omega⟩
    rw [putWord, if_pos hin, BitVec.toNat_ofNat, Nat.add_sub_cancel_left]
  have h0 := hbyte 0 (by omega)
  have h1 := hbyte 1 (by omega)
  have h2 := hbyte 2 (by omega)
  have h3 := hbyte 3 (by omega)
  simp only [field, Nat.add_assoc, Nat.add_zero] at h0 h1 h2 h3 ⊢
  norm_num at h0 h1 h2 h3 ⊢
  omega

theorem field_putWord_of_disjoint (data : Block) {off off' : ℕ} (w : ℕ)
    (h : off + 4 ≤ off' ∨ off' + 4 ≤ off) :
    field (putWord data off w) off' 4 = field data off' 4 := by
  apply field_congr
  intro k hlow hhigh
  rw [putWord, if_neg]
  omega

theorem field_putBlocks_of_lt (bs : List ℕ) (data : Block) (i off : ℕ) (h : off + 4 ≤ 4 + 4 * i) :
    field (putBlocks data bs i) off 4 = field data off 4 := by
  induction bs generalizing data i with
  | nil => rfl
  | cons b bs ih =>
    rw [putBlocks, ih _ _ (by omega), field_putWord_of_disjoint _ _ (Or.inr (by omega))]

theorem field_putBlocks (bs : List ℕ) (hbs : ∀ b ∈ bs, b < 2 ^ 32) (data : Block) (i j : ℕ)
    (hj : j < bs.length) : field (putBlocks data bs i) (4 + 4 * (i + j)) 4 = bs[j] := by
  induction bs generalizing data i j with
  | nil => cases hj
  | cons b bs ih =>
    rw [List.forall_mem_cons] at hbs
    rw [putBlocks]
    cases j with
    | zero =>
      rw [field_putBlocks_of_lt _ _ _ _ (by omega)]
      exact field_putWord data _ b hbs.1
    | succ j =>
      have := ih hbs.2 (putWord data (4 + 4 * i) b) (i + 1) j (by simpa using hj)
      rw [show i + (j + 1) = i + 1 + j by omega, this]
      rfl

theorem decode_encodeHeader (data : Block) (lh : List ℕ) (hlen : lh.length < 2 ^ 31)
    (hlh : ∀ b ∈ lh, b < 2 ^ 32) : decodeHeader (encodeHeader data lh) = lh := by
  have hn : field (encodeHeader data lh) 0 4 = lh.length := by
    rw [encodeHeader, field_putBlocks_of_lt _ _ _ _ (by omega), field_putWord _ _ _ (by omega)]
  rw [decodeHeader, hn, if_pos hlen]
  apply List.ext_getElem
  · simp
  · intro j hj hj'
    have := field_putBlocks lh hlh (putWord data 0 lh.length) 0 j hj'
    rw [Nat.zero_add] at this
    simpa [encodeHeader] using this

theorem decodeHeader_zero : decodeHeader (fun _ => 0) = [] := by decide

-- from here on the header is known through the round trip
attribute [irreducible] encodeHeader decodeHeader

end Header

end AdvancedOperatingSystems.FileSystem
