import AdvancedOperatingSystems.Foundations.Streaming
import AdvancedOperatingSystems.SecureBoot.Measured
import Mathlib.Data.List.GetD
import Mathlib.Data.List.Induction

/-!
# The digest as a function of the message

SHA-256 pads the message with a one bit, zeros and its length in bits to whole blocks of 64
bytes, and folds the compression function over the blocks. `sha256_update` and
`sha256_final` compute the same digest byte by byte with one buffer, also where the padding
takes a block of its own.
-/

namespace AdvancedOperatingSystems.SecureBoot

open Foundations

/-- The word at an index of the block that starts with the bytes `4 * t`. -/
def blockWord (block : List Byte) (t : ℕ) : Word :=
  let byte := fun j => (block.getD j 0).setWidth 32
  (byte (4 * t) <<< 24) ||| (byte (4 * t + 1) <<< 16) ||| (byte (4 * t + 2) <<< 8) |||
    byte (4 * t + 3)

def messageWord (block : List Byte) (t : ℕ) : Word :=
  if t < 16 then blockWord block t
  else
    sig1 (messageWord block (t - 2)) + messageWord block (t - 7) +
      sig0 (messageWord block (t - 15)) + messageWord block (t - 16)

/-- The working variables after `t` rounds. -/
def rounds (block : List Byte) (H : Working) : ℕ → Working
  | 0 => H
  | t + 1 =>
      let w := rounds block H t
      let t1 := w.h + ep1 w.e + ch w.e w.f w.g + k.getD t 0 + messageWord block t
      let t2 := ep0 w.a + maj w.a w.b w.c
      ⟨t1 + t2, w.a, w.b, w.c, w.d + t1, w.e, w.f, w.g⟩

def compress (H : Working) (block : List Byte) : Working :=
  let w := rounds block H 64
  ⟨H.a + w.a, H.b + w.b, H.c + w.c, H.d + w.d, H.e + w.e, H.f + w.f, H.g + w.g, H.h + w.h⟩

def initialHash : Working :=
  ⟨0x6a09e667, 0xbb67ae85, 0x3c6ef372, 0xa54ff53a, 0x510e527f, 0x9b05688c, 0x1f83d9ab, 0x5be0cd19⟩

/-- The length of a message of `n` bytes in bits, in eight bytes. -/
def lengthBytes (n : ℕ) : List Byte :=
  (List.range 8).map fun i => (BitVec.ofNat 64 (8 * n) >>> (8 * (7 - i))).setWidth 8

/-- What follows a message of `n` bytes. -/
def padding (n : ℕ) : List Byte :=
  0x80 :: (List.replicate ((119 - n % 64) % 64) 0 ++ lengthBytes n)

/-- The hash value as bytes, the most significant byte of each word first. -/
def hashBytes (H : Working) : List Byte :=
  [H.a, H.b, H.c, H.d, H.e, H.f, H.g, H.h].flatMap fun w : Word =>
    (List.range 4).map fun i => ((w >>> (24 - i * 8)) &&& 0xff).setWidth 8

def sha256 (message : List Byte) : List Byte :=
  hashBytes (foldBlocks 64 compress initialHash (message ++ padding message.length))

def Working.words (H : Working) : Array Word := #[H.a, H.b, H.c, H.d, H.e, H.f, H.g, H.h]

section Transform

/-- Each word that is pushed is the next one of the message schedule. -/
theorem schedule_loop (block : List Byte) (c n : ℕ) (m : Array Word) (hn : 16 ≤ n)
    (hsize : m.size = n) (hm : ∀ t < n, m.getD t 0 = messageWord block t) :
    ∀ t < n + c, ((List.range' n c).foldl (fun m i =>
      m.push (sig1 (m.getD (i - 2) 0) + m.getD (i - 7) 0 + sig0 (m.getD (i - 15) 0) +
        m.getD (i - 16) 0)) m).getD t 0 = messageWord block t := by
  induction c generalizing n m with
  | zero => simpa using hm
  | succ c ih =>
    intro t ht
    rw [List.range'_succ, List.foldl_cons]
    apply ih (n + 1) _ (by omega)
    · rw [Array.size_push, hsize]
    · intro u hu
      rw [hm _ (by omega), hm _ (by omega), hm _ (by omega), hm _ (by omega)]
      rcases Nat.lt_succ_iff_lt_or_eq.mp hu with hlt | rfl
      · rw [← hm u hlt]
        simp [Array.getD_eq_getD_getElem?, Array.getElem?_push, hsize, hlt.ne]
      · have hlate : ¬ u < 16 := by omega
        subst hsize
        rw [messageWord.eq_1 block m.size, if_neg hlate]
        simp [Array.getD_eq_getD_getElem?]
    · omega

theorem schedule_getD (data : Array Byte) {t : ℕ} (ht : t < 64) :
    (schedule data).getD t 0 = messageWord data.toList t := by
  unfold schedule
  apply schedule_loop data.toList 48 16 _ le_rfl
  · simp
  · intro u hu
    rw [messageWord.eq_1, if_pos hu]
    simp [Array.getD_eq_getD_getElem?, hu, blockWord, List.getD_eq_getElem?_getD]
  · exact ht

theorem foldl_round (data : Array Byte) (H : Working) {n : ℕ} (hn : n ≤ 64) :
    (List.range n).foldl (round (schedule data)) H = rounds data.toList H n := by
  induction n with
  | zero => rfl
  | succ n ih =>
    rw [List.range_succ, List.foldl_append, ih (by omega), List.foldl_cons, List.foldl_nil, rounds,
      round, schedule_getD data (by omega)]

theorem sha256Transform_state {ctx : Sha256Ctx} {H : Working} (h : ctx.state = H.words) :
    sha256Transform ctx = { ctx with state := (compress H ctx.data.toList).words } := by
  unfold sha256Transform
  rw [h]
  have hstart : (⟨H.words.getD 0 0, H.words.getD 1 0, H.words.getD 2 0, H.words.getD 3 0,
      H.words.getD 4 0, H.words.getD 5 0, H.words.getD 6 0, H.words.getD 7 0⟩ : Working) = H := rfl
  simp only [hstart, foldl_round ctx.data H le_rfl]
  rfl

end Transform

section Stream

/-- The context stands for a stream: the hash value of the full blocks and the bytes in the
buffer. `n` bytes were absorbed. -/
structure Streams (ctx : Sha256Ctx) (x : Working × List Byte) (n : ℕ) : Prop where
  state : ctx.state = x.1.words
  size : ctx.data.size = 64
  room : x.2.length < 64
  datalen : ctx.datalen = BitVec.ofNat 32 x.2.length
  buffer : ctx.data.toList.take x.2.length = x.2
  bitlen : ctx.bitlen + BitVec.ofNat 64 (8 * x.2.length) = BitVec.ofNat 64 (8 * n)

theorem sha256Init_streams : Streams sha256Init (initialHash, []) 0 :=
  ⟨rfl, by simp [sha256Init], by simp, rfl, rfl, rfl⟩

variable {ctx : Sha256Ctx} {x : Working × List Byte} {n : ℕ}

theorem Streams.datalen_toNat (h : Streams ctx x n) : ctx.datalen.toNat = x.2.length := by
  have hroom := h.room
  rw [h.datalen, BitVec.toNat_ofNat, Nat.mod_eq_of_lt (by omega)]

theorem take_set (h : Streams ctx x n) (b : Byte) :
    (ctx.data.setIfInBounds ctx.datalen.toNat b).toList.take (x.2.length + 1) = x.2 ++ [b] := by
  have hroom := h.room
  have hlen : ctx.data.toList.length = 64 := by rw [Array.length_toList, h.size]
  rw [Array.toList_setIfInBounds, h.datalen_toNat, List.take_add_one, List.take_set_of_le le_rfl,
    h.buffer, List.getElem?_set_self (by omega)]
  rfl

/-- Absorbing a byte feeds it to the stream. -/
theorem Streams.absorb (h : Streams ctx x n) (b : Byte) :
    Streams (absorb ctx b) (feed 64 compress x b) (n + 1) := by
  obtain ⟨H, buf⟩ := x
  have hroom : buf.length < 64 := h.room
  have htake := take_set h b
  have hsize : (ctx.data.setIfInBounds ctx.datalen.toNat b).size = 64 := by
    rw [Array.size_setIfInBounds, h.size]
  have hnext : ctx.datalen + 1 = BitVec.ofNat 32 (buf.length + 1) := by
    rw [h.datalen, BitVec.ofNat_add]
    rfl
  have hbits : ctx.bitlen + BitVec.ofNat 64 (8 * (buf.length + 1)) = BitVec.ofNat 64 (8 * (n + 1)) := by
    have hsum := h.bitlen
    rw [Nat.mul_succ, Nat.mul_succ, BitVec.ofNat_add, ← BitVec.add_assoc, hsum, ← BitVec.ofNat_add]
  by_cases hfull : buf.length + 1 = 64
  · rw [feed_of_eq hfull]
    have hword : ctx.datalen + 1 = 64 := by
      rw [hnext, hfull]
      rfl
    have hblock : (ctx.data.setIfInBounds ctx.datalen.toNat b).toList = buf ++ [b] := by
      rw [← htake, List.take_of_length_le]
      rw [Array.length_toList, hsize]
      exact hfull.ge
    unfold SecureBoot.absorb
    simp only [if_pos hword]
    have htransform := @sha256Transform_state
      { ctx with
        data := ctx.data.setIfInBounds ctx.datalen.toNat b
        datalen := ctx.datalen + 1 } H h.state
    rw [htransform]
    refine ⟨?_, hsize, by simp, rfl, rfl, ?_⟩
    · simp only [hblock]
    · rw [hfull] at hbits
      simpa using hbits
  · rw [feed_of_ne hfull]
    have hword : ¬ ctx.datalen + 1 = 64 := by
      rw [hnext]
      intro heq
      have := congrArg BitVec.toNat heq
      rw [BitVec.toNat_ofNat, Nat.mod_eq_of_lt (by omega)] at this
      exact hfull this
    unfold SecureBoot.absorb
    simp only [if_neg hword]
    have hlen : (buf ++ [b]).length = buf.length + 1 := by simp
    refine ⟨h.state, hsize, ?_, ?_, ?_, ?_⟩
    · rw [hlen]
      omega
    · rw [hlen]
      exact hnext
    · rw [hlen]
      exact htake
    · rw [hlen]
      exact hbits

theorem foldl_absorb_streams (message : List Byte) :
    Streams (message.foldl SecureBoot.absorb sha256Init)
      (message.foldl (feed 64 compress) (initialHash, [])) message.length := by
  induction message using List.reverseRecOn with
  | nil => exact sha256Init_streams
  | append_singleton message b ih =>
    rw [List.foldl_append, List.foldl_append, List.length_append]
    exact ih.absorb b

end Stream

section Final

theorem getD_foldl_set (g : ℕ → Byte) (is : List ℕ) (d : Array Byte) (j : ℕ) :
    (is.foldl (fun d i => d.setIfInBounds i (g i)) d).getD j 0 =
      if j ∈ is ∧ j < d.size then g j else d.getD j 0 := by
  induction is generalizing d with
  | nil => simp
  | cons i is ih =>
    rw [List.foldl_cons, ih, Array.size_setIfInBounds]
    by_cases hj : j < d.size
    · by_cases hi : j = i
      · subst hi
        simp [hj, Array.getD_eq_getD_getElem?]
      · by_cases hmem : j ∈ is
        · simp [hmem, hj]
        · simp [hmem, hi, hj, Array.getD_eq_getD_getElem?, Ne.symm hi]
    · simp [hj, Array.getD_eq_getD_getElem?]

theorem size_foldl_set (g : ℕ → Byte) (is : List ℕ) (d : Array Byte) :
    (is.foldl (fun d i => d.setIfInBounds i (g i)) d).size = d.size := by
  induction is generalizing d with
  | nil => rfl
  | cons i is ih => rw [List.foldl_cons, ih, Array.size_setIfInBounds]

theorem toList_eq_of_getD {d : Array Byte} {l : List Byte} (hsize : d.size = l.length)
    (h : ∀ j < l.length, d.getD j 0 = l.getD j 0) : d.toList = l := by
  apply List.ext_getElem
  · rw [Array.length_toList, hsize]
  · intro j hj hj'
    have := h j hj'
    rw [Array.length_toList] at hj
    simpa [Array.getD_eq_getD_getElem?, List.getD_eq_getElem?_getD, hj, hj'] using this

/-- The stores of the length at the end of the buffer. -/
def putLength (d : Array Byte) (bitlen : BitVec 64) : Array Byte :=
  (List.range 8).foldl (fun d i => d.setIfInBounds (63 - i) ((bitlen >>> (8 * i)).setWidth 8)) d

theorem size_putLength (d : Array Byte) (bitlen : BitVec 64) : (putLength d bitlen).size = d.size := by
  have hloop : putLength d bitlen =
      [63, 62, 61, 60, 59, 58, 57, 56].foldl
        (fun d i => d.setIfInBounds i ((bitlen >>> (8 * (63 - i))).setWidth 8)) d := rfl
  rw [hloop, size_foldl_set fun i => (bitlen >>> (8 * (63 - i))).setWidth 8]

theorem getD_putLength {d : Array Byte} (hd : d.size = 64) (bitlen : BitVec 64) {j : ℕ} (hj : j < 64) :
    (putLength d bitlen).getD j 0 =
      if 56 ≤ j then (bitlen >>> (8 * (63 - j))).setWidth 8 else d.getD j 0 := by
  have hloop : putLength d bitlen =
      [63, 62, 61, 60, 59, 58, 57, 56].foldl
        (fun d i => d.setIfInBounds i ((bitlen >>> (8 * (63 - i))).setWidth 8)) d := rfl
  rw [hloop, getD_foldl_set fun i => (bitlen >>> (8 * (63 - i))).setWidth 8]
  apply if_congr _ rfl rfl
  simp only [List.mem_cons, List.not_mem_nil, or_false, hd]
  omega

theorem length_lengthBytes (n : ℕ) : (lengthBytes n).length = 8 := by simp [lengthBytes]

theorem getD_lengthBytes (n : ℕ) {i : ℕ} (hi : i < 8) :
    (lengthBytes n).getD i 0 = (BitVec.ofNat 64 (8 * n) >>> (8 * (7 - i))).setWidth 8 := by
  simp [lengthBytes, List.getD_eq_getElem?_getD, hi]

variable {ctx : Sha256Ctx} {H : Working} {buf : List Byte} {n : ℕ}

theorem Streams.getD_buffer (h : Streams ctx (H, buf) n) {j : ℕ} (hj : j < buf.length) :
    ctx.data.getD j 0 = buf.getD j 0 := by
  have hroom : buf.length < 64 := h.room
  have htake : ctx.data.toList.take buf.length = buf := h.buffer
  have hget := congrArg (fun l => l.getD j 0) htake
  simp only [List.getD_eq_getElem?_getD, List.getElem?_take_of_lt hj] at hget
  rw [List.getD_eq_getElem?_getD, ← hget]
  simp [Array.getD_eq_getD_getElem?]

/-- The buffer after the one bit and the zeros. -/
theorem getD_padTo (h : Streams ctx (H, buf) n) {stop j : ℕ} (hj : j < 64) :
    (padTo ctx stop).data.getD j 0 =
      if buf.length + 1 ≤ j ∧ j < stop then 0 else if j = buf.length then 0x80
      else ctx.data.getD j 0 := by
  have hroom : buf.length < 64 := h.room
  have hlen : ctx.datalen.toNat = buf.length := h.datalen_toNat
  unfold padTo
  simp only [hlen]
  rw [getD_foldl_set fun _ => 0]
  have hmem : (j ∈ List.range' (buf.length + 1) (stop - (buf.length + 1)) ∧
      j < (ctx.data.setIfInBounds buf.length 0x80).size) ↔ buf.length + 1 ≤ j ∧ j < stop := by
    rw [List.mem_range'_1, Array.size_setIfInBounds, h.size]
    omega
  apply if_congr hmem rfl
  have hsize := h.size
  by_cases hjn : j = buf.length
  · subst hjn
    simp [Array.getD_eq_getD_getElem?, hsize, hj]
  · simp [Array.getD_eq_getD_getElem?, hjn, Ne.symm hjn]

theorem size_padTo (h : Streams ctx (H, buf) n) (stop : ℕ) : (padTo ctx stop).data.size = 64 := by
  unfold padTo
  simp only
  rw [size_foldl_set fun _ => 0, Array.size_setIfInBounds, h.size]

theorem getD_padded (buf tail : List Byte) (z j : ℕ) :
    (buf ++ 0x80 :: (List.replicate z 0 ++ tail)).getD j 0 =
      if j < buf.length then buf.getD j 0 else if j = buf.length then 0x80
      else if j < buf.length + 1 + z then 0 else tail.getD (j - (buf.length + 1 + z)) 0 := by
  by_cases hbuf : j < buf.length
  · rw [if_pos hbuf, List.getD_append _ _ _ _ hbuf]
  · rw [if_neg hbuf, List.getD_append_right _ _ _ _ (by omega)]
    by_cases hbit : j = buf.length
    · rw [if_pos hbit, hbit, Nat.sub_self, List.getD_cons_zero]
    · obtain ⟨i, hi⟩ : ∃ i, j - buf.length = i + 1 := ⟨j - buf.length - 1, by omega⟩
      rw [if_neg hbit, hi, List.getD_cons_succ]
      by_cases hz : i < z
      · rw [if_pos (by omega), List.getD_append _ _ _ _ (by simpa using hz),
          List.getD_replicate _ hz]
      · rw [if_neg (by omega), List.getD_append_right _ _ _ _ (by simpa using Nat.le_of_not_lt hz),
          List.length_replicate]
        congr 1
        omega

theorem Streams.total (h : Streams ctx (H, buf) n) :
    ctx.bitlen + ctx.datalen.setWidth 64 * 8 = BitVec.ofNat 64 (8 * n) := by
  have hroom : buf.length < 64 := h.room
  have hword : ctx.datalen.setWidth 64 * 8 = BitVec.ofNat 64 (8 * buf.length) := by
    rw [h.datalen]
    apply BitVec.eq_of_toNat_eq
    have height : (8 : BitVec 64).toNat = 8 := rfl
    simp only [BitVec.toNat_mul, BitVec.toNat_setWidth, BitVec.toNat_ofNat, height]
    omega
  rw [hword]
  exact h.bitlen

/-- The last block of a message whose tail leaves room for its length. -/
theorem Streams.lastBlock (h : Streams ctx (H, buf) n) (hmod : n % 64 = buf.length)
    (hshort : buf.length < 56) :
    (putLength (padTo ctx 56).data (BitVec.ofNat 64 (8 * n))).toList = buf ++ padding n := by
  have hzeros : (119 - n % 64) % 64 = 55 - buf.length := by omega
  have hlen : (buf ++ padding n).length = 64 := by
    simp only [padding, hzeros, List.length_append, List.length_cons, List.length_replicate,
      length_lengthBytes]
    omega
  apply toList_eq_of_getD
  · rw [size_putLength, size_padTo h, hlen]
  · intro j hj
    rw [hlen] at hj
    rw [getD_putLength (size_padTo h 56) _ hj, getD_padTo h hj, padding, hzeros,
      getD_padded]
    by_cases hbuf : j < buf.length
    · rw [if_neg (by omega), if_neg (by omega), if_neg (by omega), if_pos hbuf, h.getD_buffer hbuf]
    · rw [if_neg hbuf]
      by_cases hbit : j = buf.length
      · rw [if_neg (by omega), if_neg (by omega), if_pos hbit, if_pos hbit]
      · rw [if_neg hbit, if_neg hbit]
        by_cases hzero : j < 56
        · rw [if_neg (by omega), if_pos (by omega), if_pos (by omega)]
        · have hbase : buf.length + 1 + (55 - buf.length) = 56 := by omega
          have hshift : 63 - j = 7 - (j - 56) := by omega
          rw [if_pos (by omega), hbase, if_neg hzero, getD_lengthBytes n (by omega), hshift]

theorem Streams.fullBlock (h : Streams ctx (H, buf) n) :
    (padTo ctx 64).data.toList = buf ++ 0x80 :: List.replicate (63 - buf.length) 0 := by
  have hroom : buf.length < 64 := h.room
  apply toList_eq_of_getD
  · rw [size_padTo h]
    simp only [List.length_append, List.length_cons, List.length_replicate]
    omega
  · intro j hj
    simp only [List.length_append, List.length_cons, List.length_replicate] at hj
    have hget := getD_padded buf [] (63 - buf.length) j
    rw [List.append_nil] at hget
    rw [getD_padTo h (by omega), hget]
    by_cases hbuf : j < buf.length
    · rw [if_neg (by omega), if_neg (by omega), if_pos hbuf, h.getD_buffer hbuf]
    · rw [if_neg hbuf]
      by_cases hbit : j = buf.length
      · rw [if_neg (by omega), if_pos hbit, if_pos hbit]
      · rw [if_neg hbit, if_neg hbit, if_pos (by omega), if_pos (by omega)]

theorem lengthBlock {d : Array Byte} (hd : d.size = 64) (n : ℕ) :
    (putLength ((List.range 56).foldl (fun d i => d.setIfInBounds i 0) d)
      (BitVec.ofNat 64 (8 * n))).toList = List.replicate 56 0 ++ lengthBytes n := by
  have hsize : ((List.range 56).foldl (fun d i => d.setIfInBounds i 0) d).size = 64 := by
    rw [size_foldl_set fun _ => 0, hd]
  have hlen : (List.replicate 56 (0 : Byte) ++ lengthBytes n).length = 64 := by
    rw [List.length_append, List.length_replicate, length_lengthBytes]
  apply toList_eq_of_getD
  · rw [size_putLength, hsize, hlen]
  · intro j hj
    rw [hlen] at hj
    rw [getD_putLength hsize _ hj, getD_foldl_set fun _ => 0]
    by_cases hzero : j < 56
    · rw [if_neg (by omega), if_pos ⟨List.mem_range.mpr hzero, by omega⟩,
        List.getD_append _ _ _ _ (by simpa using hzero), List.getD_replicate _ hzero]
    · have hshift : 63 - j = 7 - (j - 56) := by omega
      rw [if_pos (by omega), List.getD_append_right _ _ _ _ (by simpa using Nat.le_of_not_lt hzero),
        List.length_replicate, getD_lengthBytes n (by omega), hshift]

theorem hashBytes_words {state : Array Word} (h : state = H.words) :
    (List.range 8).flatMap (fun w => (List.range 4).map fun i =>
      ((state.getD w 0 >>> (24 - i * 8)) &&& 0xff).setWidth 8) = hashBytes H := by
  subst h
  rfl

/-- `sha256_final` feeds the padding to the stream. -/
theorem Streams.final (h : Streams ctx (H, buf) n) (hmod : n % 64 = buf.length) :
    sha256Final ctx = hashBytes ((padding n).foldl (feed 64 compress) (H, buf)).1 := by
  have hroom : buf.length < 64 := h.room
  have hlen : ctx.datalen.toNat = buf.length := h.datalen_toNat
  unfold sha256Final
  by_cases hshort : buf.length < 56
  · have hword : ctx.datalen < 56 := by
      rw [BitVec.lt_def, hlen]
      exact hshort
    simp only [if_pos hword]
    have hbits : (padTo ctx 56).bitlen + (padTo ctx 56).datalen.setWidth 64 * 8 =
        BitVec.ofNat 64 (8 * n) := h.total
    rw [hbits]
    have hlast := h.lastBlock hmod hshort
    have hblock : buf.length + (padding n).length = 64 := by
      rw [← List.length_append, ← hlast, Array.length_toList, size_putLength, size_padTo h]
    rw [foldl_feed_of_eq (by simp [padding]) hblock, ← hlast]
    apply hashBytes_words
    exact congrArg Sha256Ctx.state (@sha256Transform_state
      { padTo ctx 56 with
        bitlen := BitVec.ofNat 64 (8 * n)
        data := putLength (padTo ctx 56).data (BitVec.ofNat 64 (8 * n)) } H h.state)
  · have hword : ¬ ctx.datalen < 56 := by
      rw [BitVec.lt_def, hlen]
      exact hshort
    simp only [if_neg hword]
    have hfirst := @sha256Transform_state (padTo ctx 64) H h.state
    rw [hfirst, h.fullBlock]
    simp only
    have hbits : (padTo ctx 64).bitlen + (padTo ctx 64).datalen.setWidth 64 * 8 =
        BitVec.ofNat 64 (8 * n) := h.total
    rw [hbits]
    have hzeros : (119 - n % 64) % 64 = 63 - buf.length + 56 := by omega
    have hsplit : padding n = (0x80 :: List.replicate (63 - buf.length) 0) ++
        (List.replicate 56 0 ++ lengthBytes n) := by
      rw [padding, hzeros, List.replicate_add]
      simp
    have hone : buf.length + (0x80 :: List.replicate (63 - buf.length) (0 : Byte)).length = 64 := by
      rw [List.length_cons, List.length_replicate]
      omega
    have htwo : ([] : List Byte).length + (List.replicate 56 (0 : Byte) ++ lengthBytes n).length =
        64 := by
      rw [List.length_append, List.length_replicate, length_lengthBytes]
      rfl
    rw [hsplit, List.foldl_append, foldl_feed_of_eq (by simp) hone, foldl_feed_of_eq (by simp) htwo,
      List.nil_append, ← lengthBlock (size_padTo h 64) n]
    apply hashBytes_words
    exact congrArg Sha256Ctx.state (@sha256Transform_state
      { padTo ctx 64 with
        state := (compress H (buf ++ 0x80 :: List.replicate (63 - buf.length) 0)).words
        bitlen := BitVec.ofNat 64 (8 * n)
        data := putLength ((List.range 56).foldl (fun d i => d.setIfInBounds i 0)
          (padTo ctx 64).data) (BitVec.ofNat 64 (8 * n)) } _ rfl)

theorem sha256Final_absorb (message : List Byte) :
    sha256Final (message.foldl SecureBoot.absorb sha256Init) = sha256 message := by
  have hstreams := foldl_absorb_streams message
  rw [foldl_feed (by omega)] at hstreams
  have hmod : message.length % 64 = (message.drop (64 * (message.length / 64))).length := by
    rw [List.length_drop]
    omega
  rw [hstreams.final hmod, sha256, foldBlocks_append (by omega), foldl_feed (by omega)
    initialHash message]

end Final

/-- The three functions together are SHA-256 of the bytes in memory for every length the 32-bit
counter can reach, given fuel. From `2^32` bytes on there is no digest. -/
theorem sha256_digest (mem : Memory) (data : Addr) (len : BitVec 64) (fuel : ℕ) :
    (sha256Update mem data len fuel 0 sha256Init).value.map sha256Final =
      if len.toNat < fuel ∧ len.toNat < 2 ^ 32 then some (sha256 (bytesFrom mem data 0 len.toNat))
      else none := by
  by_cases hlen : len.toNat < 2 ^ 32
  · have hvalue := @sha256Update_value mem data len fuel 0 sha256Init hlen (Nat.zero_le _)
    have hzero : len.toNat - (0 : Word).toNat = len.toNat := Nat.sub_zero _
    rw [hzero] at hvalue
    rw [hvalue, apply_ite (Option.map sha256Final), Option.map_some, Option.map_none,
      sha256Final_absorb]
    exact if_congr (iff_self_and.mpr fun _ => hlen) rfl rfl
  · rw [sha256Update_diverges (Nat.le_of_not_lt hlen), if_neg fun h => hlen h.2]
    rfl

theorem start_measures {L : Loader} {trusted : List Byte} {fuel : ℕ} {mem : Memory} {boot : Boot}
    (h : (start L trusted fuel mem).value = some boot) :
    boot.observedKernelMeasurement = sha256 (bytesFrom mem RAMDISK 0 (measuredSize mem)) := by
  obtain ⟨⟨found, observed⟩, hmeasure, -⟩ := Traced.bind_value_eq_some.mp h
  obtain ⟨-, -, rfl⟩ := measure_eq_some hmeasure
  rw [start_measured hmeasure] at h
  obtain ⟨_, -, rfl⟩ := Option.map_eq_some_iff.mp h
  rw [← sha256Final_absorb]
  rfl

end AdvancedOperatingSystems.SecureBoot
