import AdvancedOperatingSystems.FileSystem.Bio
import Mathlib.Data.List.Perm.Subperm
import Mathlib.Data.List.Nodup

/-!
# The buffer cache as a memory of blocks

Through the cache the root device looks like a memory of blocks, some of which are referred
to and some of which are locked. `Shows` says which memory the buffers and the disk stand
for; each function of `bio.c` then is an operation on that memory. A block nobody refers to
is the same in the memory and on disk, so that its buffer may be recycled.
-/

namespace AdvancedOperatingSystems.FileSystem

open Foundations Riscv DemandPaging

namespace Bio

/-- The list has every buffer once, and no two buffers cache the same block. Device 0 is
that of the buffers that were never used. -/
structure Sound (s : Bio) : Prop where
  perm : s.order.Perm (List.range NBUF)
  unique : ∀ i ∈ s.order, ∀ j ∈ s.order, (s.buf i).dev ≠ 0 →
    s.Caches j (s.buf i).dev (s.buf i).blockno → j = i

/-- A buffer of the list that caches a block of the root device. -/
def Has (s : Bio) (i b : ℕ) : Prop := i ∈ s.order ∧ s.Caches i ROOTDEV b

/-- The contents of the block of a buffer, which is still on disk if it was not read. -/
def content (s : Bio) (i : ℕ) : Block :=
  if (s.buf i).valid then (s.buf i).data else s.disk (s.buf i).blockno

/-- The memory that the cache stands for, how often each block is referred to, and which
process has it locked. -/
structure Shows (s : Bio) (mem : ℕ → Block) (refs : ℕ → ℕ) (held : ℕ → Option ℕ) : Prop where
  sound : s.Sound
  cached : ∀ i b, s.Has i b →
    (s.buf i).refcnt = refs b ∧ (s.buf i).lock = held b ∧ s.content i = mem b
  uncached : ∀ b, (∀ i, ¬ s.Has i b) → refs b = 0
  clean : ∀ b, refs b = 0 → held b = none ∧ s.disk b = mem b
  unused : ∀ i ∈ s.order, (s.buf i).dev ≠ ROOTDEV → (s.buf i).refcnt = 0 ∧ (s.buf i).lock = none

/-- The buffers of the blocks referred to are kept, and what was read of them. -/
def Keeps (s t : Bio) (refs : ℕ → ℕ) : Prop :=
  ∀ j c, 0 < refs c → s.Has j c → t.Has j c ∧ ((s.buf j).valid → (t.buf j).valid)

theorem Keeps.refl (s : Bio) (refs : ℕ → ℕ) : s.Keeps s refs := fun _ _ _ hj => ⟨hj, id⟩

theorem Keeps.trans {s t u : Bio} {refs refs' : ℕ → ℕ} (h : s.Keeps t refs)
    (h' : t.Keeps u refs') (hle : ∀ b, 0 < refs b → 0 < refs' b) : s.Keeps u refs := by
  intro j c hc hj
  obtain ⟨hj', hvalid⟩ := h j c hc hj
  obtain ⟨hj'', hvalid'⟩ := h' j c (hle c hc) hj'
  exact ⟨hj'', fun hv => hvalid' (hvalid hv)⟩

variable {s t : Bio} {mem : ℕ → Block} {refs : ℕ → ℕ} {held : ℕ → Option ℕ} {i b p : ℕ}

theorem Sound.nodup (h : s.Sound) : s.order.Nodup := h.perm.nodup_iff.mpr List.nodup_range

theorem Has.unique (h : s.Sound) {i j b : ℕ} (hi : s.Has i b) (hj : s.Has j b) : j = i := by
  apply h.unique i hi.1 j hj.1
  · rw [hi.2.1]
    decide
  · rw [hi.2.1, hi.2.2]
    exact hj.2

theorem Has.block {i b c : ℕ} (hi : s.Has i b) (hi' : s.Has i c) : c = b :=
  hi'.2.2.symm.trans hi.2.2

theorem Shows.has_of_refs (h : s.Shows mem refs held) (hb : 0 < refs b) : ∃ i, s.Has i b := by
  by_contra hnone
  push Not at hnone
  rw [h.uncached b hnone] at hb
  cases hb

section SetBuf

variable {f : Buf → Buf} (hf : ∀ b, (f b).dev = b.dev ∧ (f b).blockno = b.blockno)

include hf

theorem setBuf_key (j : ℕ) :
    ((s.setBuf i f).buf j).dev = (s.buf j).dev ∧ ((s.setBuf i f).buf j).blockno = (s.buf j).blockno := by
  by_cases hj : j = i
  · subst hj
    simpa using hf (s.buf j)
  · rw [s.setBuf_ne i f hj]
    exact ⟨rfl, rfl⟩

theorem setBuf_caches {j dev c : ℕ} : (s.setBuf i f).Caches j dev c ↔ s.Caches j dev c := by
  unfold Caches
  rw [(setBuf_key hf j).1, (setBuf_key hf j).2]

theorem setBuf_has {j c : ℕ} : (s.setBuf i f).Has j c ↔ s.Has j c := by
  unfold Has
  rw [setBuf_caches hf, setBuf_order]

theorem Sound.setBuf (h : s.Sound) : (s.setBuf i f).Sound where
  perm := h.perm
  unique := by
    intro j hj k hk hdev hkey
    rw [(setBuf_key hf j).1] at hdev
    rw [setBuf_caches hf, (setBuf_key hf j).1, (setBuf_key hf j).2] at hkey
    exact h.unique j hj k hk hdev hkey

/-- Changing the buffer of a block changes that block in the memory. -/
theorem Shows.setBuf (h : s.Shows mem refs held) (hi : s.Has i b) {x : Block} {r : ℕ}
    {l : Option ℕ} (hr : (f (s.buf i)).refcnt = r) (hl : (f (s.buf i)).lock = l)
    (hx : (s.setBuf i f).content i = x) (hclean : r = 0 → l = none ∧ s.disk b = x) :
    (s.setBuf i f).Shows (Function.update mem b x) (Function.update refs b r)
      (Function.update held b l) where
  sound := h.sound.setBuf hf
  cached := by
    intro j c hj
    rw [setBuf_has hf] at hj
    by_cases hjb : c = b
    · subst hjb
      obtain rfl := hi.unique h.sound hj
      simp only [Function.update_self, setBuf_self]
      exact ⟨hr, hl, hx⟩
    · have hne : j ≠ i := by
        rintro rfl
        exact hjb (hi.block hj)
      simp only [Function.update_of_ne hjb, content, s.setBuf_ne i f hne, setBuf_disk]
      exact h.cached j c hj
  uncached := by
    intro c hc
    have hcb : c ≠ b := by
      rintro rfl
      exact hc i ((setBuf_has hf).mpr hi)
    rw [Function.update_of_ne hcb]
    exact h.uncached c fun j hj => hc j ((setBuf_has hf).mpr hj)
  clean := by
    intro c hc
    by_cases hcb : c = b
    · subst hcb
      simp only [Function.update_self, setBuf_disk] at hc ⊢
      exact hclean hc
    · simp only [Function.update_of_ne hcb, setBuf_disk] at hc ⊢
      exact h.clean c hc
  unused := by
    intro j hj hdev
    rw [(setBuf_key hf j).1] at hdev
    have hne : j ≠ i := by
      rintro rfl
      exact hdev hi.2.1
    rw [s.setBuf_ne i f hne]
    exact h.unused j hj hdev

theorem keeps_setBuf (hvalid : (s.buf i).valid → (f (s.buf i)).valid) :
    s.Keeps (s.setBuf i f) refs := by
  intro j c _ hj
  refine ⟨(setBuf_has hf).mpr hj, fun hv => ?_⟩
  by_cases hji : j = i
  · subst hji
    simpa using hvalid hv
  · rwa [s.setBuf_ne i f hji]

end SetBuf

theorem binit_shows (disk : ℕ → Block) : (binit disk).Shows disk (fun _ => 0) fun _ => none where
  sound := ⟨List.reverse_perm _, by intro i _ j _ hdev; exact absurd rfl hdev⟩
  cached := by
    intro i b hi
    exact absurd hi.2.1 (by simp [binit, emptyBuf])
  uncached := fun _ _ => rfl
  clean := fun _ _ => ⟨rfl, rfl⟩
  unused := fun _ _ _ => ⟨rfl, rfl⟩

theorem Shows.congr {mem' : ℕ → Block} {refs' : ℕ → ℕ} {held' : ℕ → Option ℕ}
    (h : s.Shows mem refs held) (hmem : mem = mem') (hrefs : refs = refs') (hheld : held = held') :
    s.Shows mem' refs' held' := by
  subst hmem hrefs hheld
  exact h

section Bget

theorem mem_find {i : ℕ} {P : ℕ → Bool} {l : List ℕ} (h : l.find? P = some i) :
    i ∈ l ∧ P i = true := ⟨List.mem_of_find?_eq_some h, List.find?_some h⟩

/-- What the locked section of `bget` does when it returns. -/
theorem bgetLocked_cases {dev c : ℕ} (h : s.bgetLocked dev c = .ok (i, t)) :
    (i ∈ s.order ∧ s.Caches i dev c ∧ t = s.setBuf i fun b => { b with refcnt := b.refcnt + 1 }) ∨
    ((∀ j ∈ s.order, ¬ s.Caches j dev c) ∧ i ∈ s.order ∧ (s.buf i).refcnt = 0 ∧
      t = s.setBuf i fun b => { b with dev := dev, blockno := c, valid := false, refcnt := 1 }) := by
  unfold bgetLocked at h
  cases hfind : s.order.find? fun i => s.Caches i dev c with
  | some j =>
    rw [hfind] at h
    obtain ⟨hmem, hcaches⟩ := mem_find hfind
    cases h
    exact Or.inl ⟨hmem, by simpa using hcaches, rfl⟩
  | none =>
    rw [hfind] at h
    simp only [List.find?_eq_none, decide_eq_true_eq] at hfind
    cases hfree : s.order.reverse.find? fun i => (s.buf i).refcnt = 0 with
    | none =>
      rw [hfree] at h
      cases h
    | some j =>
      rw [hfree] at h
      obtain ⟨hmem, hzero⟩ := mem_find hfree
      cases h
      exact Or.inr ⟨hfind, List.mem_reverse.mp hmem, by simpa using hzero, rfl⟩

/-- `bget` panics exactly when the block is not cached and every buffer is referred to. -/
theorem bgetLocked_error {dev c : ℕ} {e : Stop} :
    s.bgetLocked dev c = .error e ↔
      e = .panic "bget: no buffers" ∧ (∀ j ∈ s.order, ¬ s.Caches j dev c) ∧
        ∀ j ∈ s.order, (s.buf j).refcnt ≠ 0 := by
  unfold bgetLocked
  cases hfind : s.order.find? fun i => s.Caches i dev c with
  | some j =>
    obtain ⟨hmem, hcaches⟩ := mem_find hfind
    constructor
    · intro h
      cases h
    · rintro ⟨-, hnone, -⟩
      exact absurd (by simpa using hcaches) (hnone j hmem)
  | none =>
    simp only [List.find?_eq_none, decide_eq_true_eq] at hfind
    cases hfree : s.order.reverse.find? fun i => (s.buf i).refcnt = 0 with
    | some j =>
      obtain ⟨hmem, hzero⟩ := mem_find hfree
      constructor
      · intro h
        cases h
      · rintro ⟨-, -, hall⟩
        exact absurd (by simpa using hzero) (hall j (List.mem_reverse.mp hmem))
    | none =>
      simp only [List.find?_eq_none, decide_eq_true_eq, List.mem_reverse] at hfree
      constructor
      · intro h
        cases h
        exact ⟨rfl, hfind, hfree⟩
      · rintro ⟨rfl, -, -⟩
        rfl

/-- Taking over a buffer that nobody refers to for a block that is not cached. -/
theorem Shows.recycle (h : s.Shows mem refs held) (hnone : ∀ j ∈ s.order, ¬ s.Caches j ROOTDEV b)
    (hi : i ∈ s.order) (hzero : (s.buf i).refcnt = 0) :
    (s.setBuf i fun c => { c with dev := ROOTDEV, blockno := b, valid := false, refcnt := 1 }).Shows
      mem (Function.update refs b 1) held ∧
    s.Keeps (s.setBuf i fun c =>
      { c with dev := ROOTDEV, blockno := b, valid := false, refcnt := 1 }) refs := by
  set t := s.setBuf i fun c =>
    { c with dev := ROOTDEV, blockno := b, valid := false, refcnt := 1 } with ht
  have hrefs : refs b = 0 := h.uncached b fun j hj => hnone j hj.1 hj.2
  have hother : ∀ j, j ≠ i → t.buf j = s.buf j := fun j hj => s.setBuf_ne i _ hj
  have hself : t.buf i = { s.buf i with dev := ROOTDEV, blockno := b, valid := false, refcnt := 1 } :=
    s.setBuf_self i _
  have hhas : ∀ j c, j ≠ i → (t.Has j c ↔ s.Has j c) := by
    intro j c hj
    unfold Has Caches
    rw [hother j hj]
    rfl
  have hi' : t.Has i b := ⟨hi, by rw [hself], by rw [hself]⟩
  -- the old block of the buffer is on disk
  have hold : ∀ c, s.Has i c → refs c = 0 := fun c hc => (h.cached i c hc).1.symm.trans hzero
  have hlock : (s.buf i).lock = none := by
    by_cases hdev : (s.buf i).dev = ROOTDEV
    · have hc : s.Has i (s.buf i).blockno := ⟨hi, hdev, rfl⟩
      rw [(h.cached i _ hc).2.1]
      exact (h.clean _ (hold _ hc)).1
    · exact (h.unused i hi hdev).2
  refine ⟨⟨⟨h.sound.perm, ?_⟩, ?_, ?_, ?_, ?_⟩, ?_⟩
  · intro j hj k hk hdev hkey
    by_cases hji : j = i
    · subst hji
      rw [hself] at hkey
      by_contra hkj
      have hk' : s.Caches k ROOTDEV b := by
        unfold Caches at hkey ⊢
        rwa [hother k hkj] at hkey
      exact hnone k hk hk'
    · rw [hother j hji] at hdev hkey
      by_cases hki : k = i
      · subst hki
        unfold Caches at hkey
        rw [hself] at hkey
        exact absurd ⟨hkey.1.symm, hkey.2.symm⟩ (hnone j hj)
      · unfold Caches at hkey
        rw [hother k hki] at hkey
        exact h.sound.unique j hj k hk hdev hkey
  · intro j c hj
    by_cases hji : j = i
    · subst hji
      obtain rfl : c = b := hi'.block hj
      obtain ⟨hheld, hdisk⟩ := h.clean c hrefs
      refine ⟨by rw [hself]; simp, by rw [hself, hheld]; exact hlock, ?_⟩
      unfold content
      rw [hself]
      exact hdisk
    · have hj' := (hhas j c hji).mp hj
      have hcb : c ≠ b := by
        rintro rfl
        exact hnone j hj'.1 hj'.2
      rw [Function.update_of_ne hcb, content, hother j hji]
      exact h.cached j c hj'
  · intro c hc
    have hcb : c ≠ b := by
      rintro rfl
      exact hc i hi'
    rw [Function.update_of_ne hcb]
    by_cases hci : s.Has i c
    · exact hold c hci
    · apply h.uncached
      intro j hj
      by_cases hji : j = i
      · subst hji
        exact hci hj
      · exact hc j ((hhas j c hji).mpr hj)
  · intro c hc
    have hcb : c ≠ b := by
      rintro rfl
      simp at hc
    rw [Function.update_of_ne hcb] at hc
    exact h.clean c hc
  · intro j hj hdev
    have hji : j ≠ i := by
      rintro rfl
      rw [hself] at hdev
      exact hdev rfl
    rw [hother j hji] at hdev ⊢
    exact h.unused j hj hdev
  · intro j c hc hj
    have hji : j ≠ i := by
      rintro rfl
      rw [hold c hj] at hc
      cases hc
    exact ⟨(hhas j c hji).mpr hj, fun hv => by rwa [hother j hji]⟩

/-- The locked section of `bget` adds a reference to the block. -/
theorem bgetLocked_shows (h : s.Shows mem refs held)
    (hget : s.bgetLocked ROOTDEV b = .ok (i, t)) :
    t.Shows mem (Function.update refs b (refs b + 1)) held ∧ t.Has i b ∧ s.Keeps t refs ∧
      t.disk = s.disk ∧ t.written = s.written := by
  rcases bgetLocked_cases hget with ⟨hi, hcaches, rfl⟩ | ⟨hnone, hi, hzero, rfl⟩
  · have hhas : s.Has i b := ⟨hi, hcaches⟩
    have hkey : ∀ c : Buf, ({ c with refcnt := c.refcnt + 1 } : Buf).dev = c.dev ∧
        ({ c with refcnt := c.refcnt + 1 } : Buf).blockno = c.blockno := fun c => ⟨rfl, rfl⟩
    obtain ⟨hr, hl, hx⟩ := h.cached i b hhas
    refine ⟨?_, (setBuf_has hkey).mpr hhas, keeps_setBuf hkey id, rfl, rfl⟩
    refine (h.setBuf hkey hhas (x := mem b) (r := refs b + 1) (l := held b) ?_ hl ?_ ?_).congr
      (by simp) rfl (by simp)
    · simp [hr]
    · simpa [content] using hx
    · simp
  · have hrefs : refs b = 0 := h.uncached b fun j hj => hnone j hj.1 hj.2
    obtain ⟨hshows, hkeeps⟩ := h.recycle hnone hi hzero
    refine ⟨hshows.congr rfl (by rw [hrefs]) rfl, ⟨hi, ?_⟩, hkeeps, rfl, rfl⟩
    unfold Caches
    simp

/-- A block that is referred to has a buffer, and so has every other block as long as
fewer than `NBUF` blocks are referred to. -/
theorem Shows.bgetLocked_ok (h : s.Shows mem refs held) {S : List ℕ}
    (hS : ∀ c, 0 < refs c → c ∈ S) (hroom : 0 < refs b ∨ S.length < NBUF) :
    ∃ i t, s.bgetLocked ROOTDEV b = .ok (i, t) := by
  cases hget : s.bgetLocked ROOTDEV b with
  | ok r => exact ⟨r.1, r.2, rfl⟩
  | error e =>
    obtain ⟨-, hnone, hall⟩ := bgetLocked_error.mp hget
    rcases hroom with hb | hlen
    · obtain ⟨j, hj⟩ := h.has_of_refs hb
      exact absurd hj.2 (hnone j hj.1)
    · -- every buffer holds another block that is referred to
      exfalso
      have hdev : ∀ j ∈ s.order, (s.buf j).dev = ROOTDEV := by
        intro j hj
        by_contra hdev
        exact hall j hj (h.unused j hj hdev).1
      have hsub : s.order.map (fun j => (s.buf j).blockno) ⊆ S := by
        intro c hc
        obtain ⟨j, hj, rfl⟩ := List.mem_map.mp hc
        have hcached := (h.cached j _ ⟨hj, hdev j hj, rfl⟩).1
        exact hS _ (by rw [← hcached]; exact Nat.pos_of_ne_zero (hall j hj))
      have hnodup : (s.order.map fun j => (s.buf j).blockno).Nodup := by
        refine h.sound.nodup.map_on fun j hj k hk heq => ?_
        exact Has.unique h.sound ⟨hk, hdev k hk, heq.symm⟩ ⟨hj, hdev j hj, rfl⟩
      have hle := (hnodup.subperm hsub).length_le
      rw [List.length_map, h.sound.perm.length_eq, List.length_range] at hle
      omega

end Bget

section Locked

/-- A buffer whose block was read and that is referred to, as a caller of `bread` has it. -/
structure Loaded (s : Bio) (i b : ℕ) : Prop where
  has : s.Has i b
  valid : (s.buf i).valid

theorem Loaded.of_keeps (hi : s.Loaded i b) (hkeeps : s.Keeps t refs) (hb : 0 < refs b) :
    t.Loaded i b :=
  ⟨(hkeeps i b hb hi.has).1, (hkeeps i b hb hi.has).2 hi.valid⟩

theorem Shows.data_eq (h : s.Shows mem refs held) (hi : s.Loaded i b) : (s.buf i).data = mem b := by
  have := (h.cached i b hi.has).2.2
  rwa [content, if_pos hi.valid] at this

theorem acquiresleep_shows (h : s.Shows mem refs held) (hi : s.Has i b) (hb : 0 < refs b)
    (hget : s.acquiresleep p i = .ok t) :
    held b = none ∧ t.Shows mem refs (Function.update held b (some p)) ∧ t.Has i b ∧
      s.Keeps t refs ∧ t.disk = s.disk ∧ t.written = s.written := by
  obtain ⟨hr, hl, hx⟩ := h.cached i b hi
  unfold acquiresleep at hget
  cases hlock : (s.buf i).lock with
  | some q =>
    rw [hlock] at hget
    cases hget
  | none =>
    rw [hlock] at hget
    cases hget
    have hkey : ∀ c : Buf, ({ c with lock := some p } : Buf).dev = c.dev ∧
        ({ c with lock := some p } : Buf).blockno = c.blockno := fun c => ⟨rfl, rfl⟩
    refine ⟨by rw [← hl, hlock], ?_, (setBuf_has hkey).mpr hi, keeps_setBuf hkey id, rfl, rfl⟩
    refine (h.setBuf hkey hi (x := mem b) (r := refs b) (l := some p) hr rfl ?_ ?_).congr
      (by simp) (by simp) rfl
    · simpa [content] using hx
    · omega

theorem acquiresleep_ok (h : s.Shows mem refs held) (hi : s.Has i b) (hfree : held b = none) :
    ∃ t, s.acquiresleep p i = .ok t := by
  have hlock := (h.cached i b hi).2.1
  rw [hfree] at hlock
  exact ⟨_, by rw [acquiresleep, hlock]⟩

/-- Reading the block from disk shows the same memory. -/
theorem fill_shows (h : s.Shows mem refs held) (hi : s.Has i b) (hb : 0 < refs b) :
    (s.fill i).Shows mem refs held ∧ (s.fill i).Loaded i b ∧ s.Keeps (s.fill i) refs ∧
      (s.fill i).disk = s.disk ∧ (s.fill i).written = s.written := by
  obtain ⟨hr, hl, hx⟩ := h.cached i b hi
  unfold fill
  split_ifs with hvalid
  · exact ⟨h, ⟨hi, hvalid⟩, Keeps.refl s refs, rfl, rfl⟩
  · have hfill : (s.diskRead i).setBuf i (fun c => { c with valid := true }) =
        s.setBuf i fun c => { c with data := s.disk c.blockno, valid := true } := by
      unfold diskRead setBuf
      simp
    rw [hfill]
    have hkey : ∀ c : Buf, ({ c with data := s.disk c.blockno, valid := true } : Buf).dev = c.dev ∧
        ({ c with data := s.disk c.blockno, valid := true } : Buf).blockno = c.blockno :=
      fun c => ⟨rfl, rfl⟩
    rw [content, if_neg hvalid] at hx
    refine ⟨?_, ⟨(setBuf_has hkey).mpr hi, by simp⟩, keeps_setBuf hkey fun _ => rfl, rfl, rfl⟩
    refine (h.setBuf hkey hi (x := mem b) (r := refs b) (l := held b) hr hl ?_ ?_).congr
      (by simp) (by simp) (by simp)
    · simpa [content] using hx
    · omega

/-- `bread` returns the block of the memory, locked and with one more reference. -/
theorem bread_shows (h : s.Shows mem refs held) {S : List ℕ} (hS : ∀ c, 0 < refs c → c ∈ S)
    (hroom : 0 < refs b ∨ S.length < NBUF) (hfree : held b = none) :
    ∃ i t, s.bread p ROOTDEV b = .ok (i, t) ∧
      t.Shows mem (Function.update refs b (refs b + 1)) (Function.update held b (some p)) ∧
      t.Loaded i b ∧ s.Keeps t refs ∧ t.disk = s.disk ∧ t.written = s.written := by
  obtain ⟨i, u, hget⟩ := h.bgetLocked_ok hS hroom
  obtain ⟨hu, hhas, hkeep, hdisk, hwritten⟩ := bgetLocked_shows h hget
  obtain ⟨v, hlock⟩ := acquiresleep_ok (p := p) hu hhas hfree
  have hpos : 0 < Function.update refs b (refs b + 1) b := by simp
  obtain ⟨-, hv, hhas', hkeep', hdisk', hwritten'⟩ := acquiresleep_shows hu hhas hpos hlock
  obtain ⟨hw, hloaded, hkeep'', hdisk'', hwritten''⟩ := fill_shows hv hhas' hpos
  have hmore : ∀ c, 0 < refs c → 0 < Function.update refs b (refs b + 1) c := by
    intro c hc
    by_cases hcb : c = b
    · subst hcb
      exact hpos
    · rwa [Function.update_of_ne hcb]
  refine ⟨i, v.fill i, ?_, hw, hloaded, ?_, ?_, ?_⟩
  · simp only [bread, bget, hget, ok_bind, hlock]
    rfl
  · exact hkeep.trans (hkeep'.trans hkeep'' fun _ hc => hc) hmore
  · rw [hdisk'', hdisk', hdisk]
  · rw [hwritten'', hwritten', hwritten]

theorem setData_shows (h : s.Shows mem refs held) (hi : s.Loaded i b) (hb : 0 < refs b)
    (x : Block) :
    (s.setData i x).Shows (Function.update mem b x) refs held ∧ s.Keeps (s.setData i x) refs := by
  obtain ⟨hr, hl, -⟩ := h.cached i b hi.has
  have hkey : ∀ c : Buf, ({ c with data := x } : Buf).dev = c.dev ∧
      ({ c with data := x } : Buf).blockno = c.blockno := fun c => ⟨rfl, rfl⟩
  refine ⟨?_, keeps_setBuf hkey id⟩
  refine (h.setBuf hkey hi.has (x := x) (r := refs b) (l := held b) hr hl ?_ ?_).congr
    rfl (by simp) (by simp)
  · simp [content, hi.valid]
  · omega

/-- `bwrite` makes the disk agree with the memory on the block. -/
theorem bwrite_shows (h : s.Shows mem refs held) (hi : s.Loaded i b) (hheld : held b = some p) :
    ∃ t, s.bwrite p i = .ok t ∧ t.Shows mem refs held ∧ s.Keeps t refs ∧
      t.disk = Function.update s.disk b (mem b) ∧ t.written = s.written ++ [(b, mem b)] := by
  have hlock := (h.cached i b hi.has).2.1
  have hdata := h.data_eq hi
  have hblock : (s.buf i).blockno = b := hi.has.2.2
  have hdisk : (s.diskWrite i).disk = Function.update s.disk b (mem b) := by
    rw [diskWrite, hdata, hblock]
  refine ⟨s.diskWrite i, ?_, ?_, fun j c _ hj => ⟨hj, id⟩, hdisk, by rw [diskWrite, hdata, hblock]⟩
  · rw [bwrite, holdingsleep, hlock, hheld]
    simp
  · refine ⟨⟨h.sound.perm, h.sound.unique⟩, ?_, h.uncached, ?_, h.unused⟩
    · intro j c hj
      have hj : s.Has j c := hj
      obtain ⟨hr, hl, hx⟩ := h.cached j c hj
      refine ⟨hr, hl, ?_⟩
      unfold content at hx ⊢
      rw [diskWrite_buf, hdisk]
      by_cases hcb : c = b
      · subst hcb
        obtain rfl := hi.has.unique h.sound hj
        rwa [if_pos hi.valid] at hx ⊢
      · have hjb : (s.buf j).blockno ≠ b := by
          rw [hj.2.2]
          exact hcb
        rwa [Function.update_of_ne hjb]
    · intro c hc
      rw [hdisk]
      by_cases hcb : c = b
      · subst hcb
        exact ⟨(h.clean c hc).1, Function.update_self c _ _⟩
      · rw [Function.update_of_ne hcb]
        exact h.clean c hc

theorem Shows.reorder (h : s.Shows mem refs held) {l : List ℕ} (hl : l.Perm s.order) :
    ({ s with order := l } : Bio).Shows mem refs held where
  sound := ⟨hl.trans h.sound.perm, fun j hj k hk =>
    h.sound.unique j (hl.mem_iff.mp hj) k (hl.mem_iff.mp hk)⟩
  cached := fun j c hj => h.cached j c ⟨hl.mem_iff.mp hj.1, hj.2⟩
  uncached := fun c hc => h.uncached c fun j hj => hc j ⟨hl.mem_iff.mpr hj.1, hj.2⟩
  clean := h.clean
  unused := fun j hj => h.unused j (hl.mem_iff.mp hj)

/-- The locked section of `brelse` drops a reference. -/
theorem brelseLocked_shows (h : s.Shows mem refs held) (hi : s.Has i b)
    (hlast : refs b ≤ 1 → held b = none ∧ s.disk b = mem b) :
    (s.brelseLocked i).Shows mem (Function.update refs b (refs b - 1)) held ∧
      s.Keeps (s.brelseLocked i) refs ∧ (s.brelseLocked i).disk = s.disk ∧
      (s.brelseLocked i).written = s.written := by
  obtain ⟨hr, hl, hx⟩ := h.cached i b hi
  have hkey : ∀ c : Buf, ({ c with refcnt := c.refcnt - 1 } : Buf).dev = c.dev ∧
      ({ c with refcnt := c.refcnt - 1 } : Buf).blockno = c.blockno := fun c => ⟨rfl, rfl⟩
  have hdrop : (s.setBuf i fun c => { c with refcnt := c.refcnt - 1 }).Shows mem
      (Function.update refs b (refs b - 1)) held := by
    refine (h.setBuf hkey hi (x := mem b) (r := refs b - 1) (l := held b) ?_ hl ?_ ?_).congr
      (by simp) rfl (by simp)
    · simp [hr]
    · simpa [content] using hx
    · intro hzero
      exact hlast (by omega)
  have hkeeps : s.Keeps (s.setBuf i fun c => { c with refcnt := c.refcnt - 1 }) refs :=
    keeps_setBuf hkey id
  have hperm : (i :: s.order.erase i).Perm s.order := (List.perm_cons_erase hi.1).symm
  unfold brelseLocked
  simp only
  split_ifs with hzero
  · refine ⟨hdrop.reorder hperm, ?_, rfl, rfl⟩
    intro j c hc hj
    obtain ⟨hj', hvalid⟩ := hkeeps j c hc hj
    exact ⟨⟨hperm.mem_iff.mpr hj'.1, hj'.2⟩, hvalid⟩
  · exact ⟨hdrop, hkeeps, rfl, rfl⟩

theorem releasesleep_shows (h : s.Shows mem refs held) (hi : s.Has i b) (hb : 0 < refs b) :
    (s.releasesleep i).Shows mem refs (Function.update held b none) ∧
      s.Keeps (s.releasesleep i) refs := by
  obtain ⟨hr, -, hx⟩ := h.cached i b hi
  have hkey : ∀ c : Buf, ({ c with lock := none } : Buf).dev = c.dev ∧
      ({ c with lock := none } : Buf).blockno = c.blockno := fun c => ⟨rfl, rfl⟩
  refine ⟨?_, keeps_setBuf hkey id⟩
  refine (h.setBuf hkey hi (x := mem b) (r := refs b) (l := none) hr rfl ?_ ?_).congr
    (by simp) (by simp) rfl
  · simpa [content] using hx
  · omega

/-- `brelse` unlocks a block and drops a reference to it. The last reference is dropped
only to a block that is on disk. -/
theorem brelse_shows (h : s.Shows mem refs held) (hi : s.Has i b) (hheld : held b = some p)
    (hb : 0 < refs b) (hlast : refs b = 1 → s.disk b = mem b) :
    ∃ t, s.brelse p i = .ok t ∧
      t.Shows mem (Function.update refs b (refs b - 1)) (Function.update held b none) ∧
      s.Keeps t refs ∧ t.disk = s.disk ∧ t.written = s.written := by
  have hlock := (h.cached i b hi).2.1
  obtain ⟨hu, hkeep⟩ := releasesleep_shows h hi hb
  have hhas := (hkeep i b hb hi).1
  obtain ⟨hv, hkeep', hdisk, hwritten⟩ := brelseLocked_shows hu hhas fun hle =>
    ⟨by simp, hlast (by omega)⟩
  refine ⟨_, ?_, hv, hkeep.trans hkeep' fun _ hc => hc, hdisk, hwritten⟩
  rw [brelse, holdingsleep, hlock, hheld]
  simp

theorem bpin_shows (h : s.Shows mem refs held) (hi : s.Has i b) :
    (s.bpin i).Shows mem (Function.update refs b (refs b + 1)) held ∧ s.Keeps (s.bpin i) refs := by
  obtain ⟨hr, hl, hx⟩ := h.cached i b hi
  have hkey : ∀ c : Buf, ({ c with refcnt := c.refcnt + 1 } : Buf).dev = c.dev ∧
      ({ c with refcnt := c.refcnt + 1 } : Buf).blockno = c.blockno := fun c => ⟨rfl, rfl⟩
  refine ⟨?_, keeps_setBuf hkey id⟩
  refine (h.setBuf hkey hi (x := mem b) (r := refs b + 1) (l := held b) ?_ hl ?_ ?_).congr
    (by simp) rfl (by simp)
  · simp [hr]
  · simpa [content] using hx
  · omega

theorem bunpin_shows (h : s.Shows mem refs held) (hi : s.Has i b) (hb : 1 < refs b) :
    (s.bunpin i).Shows mem (Function.update refs b (refs b - 1)) held ∧
      s.Keeps (s.bunpin i) refs := by
  obtain ⟨hr, hl, hx⟩ := h.cached i b hi
  have hkey : ∀ c : Buf, ({ c with refcnt := c.refcnt - 1 } : Buf).dev = c.dev ∧
      ({ c with refcnt := c.refcnt - 1 } : Buf).blockno = c.blockno := fun c => ⟨rfl, rfl⟩
  refine ⟨?_, keeps_setBuf hkey id⟩
  refine (h.setBuf hkey hi (x := mem b) (r := refs b - 1) (l := held b) ?_ hl ?_ ?_).congr
    (by simp) rfl (by simp)
  · simp [hr]
  · simpa [content] using hx
  · omega

end Locked

end Bio

end AdvancedOperatingSystems.FileSystem
