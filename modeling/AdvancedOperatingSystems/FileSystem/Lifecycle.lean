import AdvancedOperatingSystems.FileSystem.Consistency

/-!
# Taking and freeing inodes

`itrunc` gives back every block of a file and nothing else, `iput` frees the inode of a file
without links, and `ialloc` takes a free one. The volume stays consistent.
-/

namespace AdvancedOperatingSystems.FileSystem

open Foundations Riscv DemandPaging StoreProgram

/-- The blocks that are gone have lost their marks in the bitmap, and nothing else has changed. -/
structure Cleared (sb : Superblock) (s t : Noted ℕ Block) (gone : ℕ → Prop) : Prop where
  used : ∀ c, gone c → sb.used t.mem c = false
  kept : ∀ c, ¬ gone c → sb.used t.mem c = sb.used s.mem c
  mem : ∀ x, x < sb.bmapstart ∨ sb.firstData ≤ x → t.mem x = s.mem x
  noted : ∀ b ∈ t.notes, b ∈ s.notes ∨ ∃ c < sb.size, b = sb.bblock c
  scribbles : t.scribbles = s.scribbles

section Clearing

variable {sb : Superblock} {s t u : Noted ℕ Block} {gone gone' : ℕ → Prop} {b : ℕ} {bs : List ℕ}

theorem Cleared.refl (h : ∀ c, ¬ gone c) : Cleared sb s s gone :=
  ⟨fun c hc => absurd hc (h c), fun _ _ => rfl, fun _ _ => rfl, fun _ hb => Or.inl hb, rfl⟩

theorem Cleared.trans (h : Cleared sb s t gone) (h' : Cleared sb t u gone') {all : ℕ → Prop}
    (hall : ∀ c, all c ↔ gone c ∨ gone' c) : Cleared sb s u all where
  used c hc := by
    by_cases hc' : gone' c
    · exact h'.used c hc'
    · rw [h'.kept c hc']
      exact h.used c (((hall c).mp hc).resolve_right hc')
  kept c hc := by
    rw [hall, not_or] at hc
    rw [h'.kept c hc.2, h.kept c hc.1]
  mem x hx := (h'.mem x hx).trans (h.mem x hx)
  noted b hb := by
    rcases h'.noted b hb with hb | hb
    · exact h.noted b hb
    · exact Or.inr hb
  scribbles := h'.scribbles.trans h.scribbles

theorem bfree_cleared (hb : b < sb.size) (hused : sb.used s.mem b = true) :
    Ends (bfree sb b) s fun _ t => Cleared sb s t (· = b) := by
  apply bfree_ends hused
  have hlow := sb.le_bblock (b := b)
  have hhigh := Superblock.bblock_lt hb
  refine ⟨fun c hc => ?_, fun c hc => ?_, fun x hx => ?_, fun c hc => ?_, rfl⟩
  · rw [sb.used_clear, hc, Function.update_self]
  · rw [sb.used_clear, Function.update_of_ne hc]
  · exact Function.update_of_ne (by omega) _ _
  · rcases List.mem_insert_iff.mp hc with rfl | hc
    · exact Or.inr ⟨b, hb, rfl⟩
    · exact Or.inl hc

/-- Blocks that are in use and apart can be freed one after the other. -/
theorem freeBlocks_ends
    (hused : ∀ b ∈ bs, b ≠ 0 → b < sb.size ∧ sb.used s.mem b = true)
    (hapart : bs.Pairwise fun b c => b ≠ 0 → b ≠ c) :
    Ends (freeBlocks sb bs) s fun _ t => Cleared sb s t fun c => c ∈ bs ∧ c ≠ 0 := by
  induction bs generalizing s with
  | nil =>
    rw [freeBlocks, ends_pure]
    exact .refl fun c hc => List.not_mem_nil hc.1
  | cons b bs ih =>
    rw [List.pairwise_cons] at hapart
    rw [List.forall_mem_cons] at hused
    rw [freeBlocks]
    by_cases hzero : b = 0
    · rw [if_pos hzero]
      apply (ih hused.2 hapart.2).mono
      intro _ t h
      refine (Cleared.refl fun _ => id).trans h fun c => ?_
      rw [List.mem_cons, false_or]
      exact ⟨fun hc => ⟨hc.1.resolve_left fun heq => hc.2 (heq.trans hzero), hc.2⟩,
        fun hc => ⟨Or.inr hc.1, hc.2⟩⟩
    · obtain ⟨hsize, hmark⟩ := hused.1 hzero
      rw [if_neg hzero]
      refine (bfree_cleared hsize hmark).bind fun _ t h => ?_
      apply (ih (fun c hc hne => ?_) hapart.2).mono
      · intro _ u h'
        refine h.trans h' fun c => ?_
        rw [List.mem_cons]
        constructor
        · rintro ⟨rfl | hc, hne⟩
          · exact Or.inl rfl
          · exact Or.inr ⟨hc, hne⟩
        · rintro (rfl | ⟨hc, hne⟩)
          · exact ⟨Or.inl rfl, hzero⟩
          · exact ⟨Or.inr hc, hne⟩
      · have hother := hused.2 c hc hne
        rw [h.kept c fun heq => hapart.1 c hc hzero heq.symm]
        exact hother

end Clearing

section Truncate

variable {sb : Superblock} {i : ℕ} {s t : Noted ℕ Block} {ip : Dinode}

/-- The blocks in the places from `l` up to `m`. -/
def heldIn (mem : ℕ → Block) (ip : Dinode) (l m c : ℕ) : Prop :=
  c ≠ 0 ∧ ∃ u, l ≤ u ∧ u < m ∧ entry mem ip u = c

/-- Blocks in a range of places can be freed. -/
theorem Open.freeBlocks_ends (h : Open sb i s.mem ip) {l m : ℕ} (hm : l + m ≤ NSLOTS)
    (hused : ∀ u, l ≤ u → u < l + m → entry s.mem ip u ≠ 0 →
      sb.used t.mem (entry s.mem ip u) = true) {f : ℕ → ℕ}
    (hf : ∀ k < m, f k = entry s.mem ip (l + k)) :
    Ends (freeBlocks sb ((List.range m).map f)) t fun _ u =>
      Cleared sb t u (heldIn s.mem ip l (l + m)) := by
  refine (FileSystem.freeBlocks_ends (fun b hb hne => ?_) ?_).mono fun _ u hcleared => ?_
  · obtain ⟨k, hk, rfl⟩ := List.mem_map.mp hb
    have hk := List.mem_range.mp hk
    rw [hf k hk] at hne ⊢
    exact ⟨(h.inside (by omega) hne).1.2, hused _ (by omega) (by omega) hne⟩
  · rw [List.pairwise_map]
    apply List.pairwise_lt_range.imp_of_mem
    intro j k hj hk hjk hne heq
    have hj := List.mem_range.mp hj
    have hk := List.mem_range.mp hk
    rw [hf j hj] at hne heq
    rw [hf k hk] at heq
    have := h.inj (by omega) (by omega) hne heq
    omega
  · refine (Cleared.refl fun _ => id).trans hcleared fun c => ?_
    rw [false_or, List.mem_map]
    constructor
    · rintro ⟨hne, v, hl, hv, hc⟩
      refine ⟨⟨v - l, List.mem_range.mpr (by omega), ?_⟩, hne⟩
      rw [hf _ (by omega), ← hc]
      congr 1
      omega
    · rintro ⟨⟨k, hk, hc⟩, hne⟩
      have hk := List.mem_range.mp hk
      exact ⟨hne, l + k, by omega, by omega, by rw [← hf k hk, hc]⟩

/-- The blocks of the indirect block, and the indirect block itself. -/
theorem Open.freeIndirect_ends (h : Open sb i s.mem ip)
    (hcleared : Cleared sb s t (heldIn s.mem ip 0 NDIRECT)) :
    Ends (freeIndirect sb ip) t fun _ u => Cleared sb s u (heldIn s.mem ip 0 NSLOTS) := by
  -- what is held behind the direct places is still marked
  have hmarked : ∀ u, NDIRECT ≤ u → u < NSLOTS → entry s.mem ip u ≠ 0 →
      sb.used t.mem (entry s.mem ip u) = true := by
    intro u hlow hu hne
    rw [hcleared.kept]
    · exact (h.inside hu hne).2
    · rintro ⟨-, v, -, hv, heq⟩
      have := h.inj (by omega) hu (heq ▸ hne) heq
      omega
  unfold freeIndirect
  by_cases hzero : ip.addrs NDIRECT = 0
  · rw [if_pos hzero, ends_pure]
    have hnone : ∀ u, NDIRECT ≤ u → entry s.mem ip u = 0 := by
      intro u hu
      unfold entry
      rw [if_pos hzero]
      split_ifs with hle
      · rw [Nat.le_antisymm hle hu, hzero]
      · rfl
    refine hcleared.trans (Cleared.refl fun _ => id) fun c => ?_
    rw [or_false]
    constructor
    · rintro ⟨hne, u, -, hu, hc⟩
      refine ⟨hne, u, Nat.zero_le u, ?_, hc⟩
      by_contra hge
      exact hne (hc ▸ hnone u (Nat.le_of_not_lt hge))
    · rintro ⟨hne, u, -, hu, hc⟩
      exact ⟨hne, u, Nat.zero_le u, by simp only [NSLOTS]; omega, hc⟩
  · have hind := Open.indirect_eq s.mem ip
    obtain ⟨hdata, -⟩ := h.inside (s := NDIRECT) (by decide) (by rwa [hind])
    rw [hind] at hdata
    have hblock : t.mem (ip.addrs NDIRECT) = s.mem (ip.addrs NDIRECT) :=
      hcleared.mem _ (Or.inr hdata.1)
    rw [if_neg hzero, ends_bind, ends_get, hblock]
    have hentry : ∀ k < NINDIRECT, field (s.mem (ip.addrs NDIRECT)) (4 * k) 4 =
        entry s.mem ip (NDIRECT + 1 + k) := by
      intro k _
      rw [entry, if_neg (by omega), if_neg hzero, Nat.add_sub_cancel_left]
    refine (h.freeBlocks_ends le_rfl (fun u hl hu hne => hmarked u (by omega) hu hne)
      hentry).bind fun _ u hentries => ?_
    have hlast : sb.used u.mem (ip.addrs NDIRECT) = true := by
      rw [hentries.kept]
      · have := hmarked NDIRECT le_rfl (by decide)
        rw [hind] at this
        exact this hzero
      · rintro ⟨-, v, hl, hv, heq⟩
        rw [← hind] at heq
        have := h.inj (by simpa only [NSLOTS] using hv) (by decide) (by rwa [heq, hind]) heq
        omega
    apply (bfree_cleared hdata.2 hlast).mono
    intro _ v hself
    refine (hcleared.trans hentries fun _ => Iff.rfl).trans hself fun c => ?_
    constructor
    · rintro ⟨hne, w, -, hw, hc⟩
      rcases Nat.lt_trichotomy w NDIRECT with hlt | heq | hgt
      · exact Or.inl (Or.inl ⟨hne, w, Nat.zero_le w, hlt, hc⟩)
      · exact Or.inr (by rw [← hc, heq, hind])
      · exact Or.inl (Or.inr ⟨hne, w, hgt, hw, hc⟩)
    · rintro ((⟨hne, w, -, hw, hc⟩ | ⟨hne, w, -, hw, hc⟩) | hc)
      · exact ⟨hne, w, Nat.zero_le w, by simp only [NSLOTS]; omega, hc⟩
      · exact ⟨hne, w, Nat.zero_le w, hw, hc⟩
      · exact ⟨by rwa [hc], NDIRECT, Nat.zero_le _, by decide, by rw [hind, hc]⟩

/-- A file that has given back all its blocks. -/
theorem Open.emptied (h : Open sb i s.mem ip)
    (hcleared : Cleared sb s t (heldIn s.mem ip 0 NSLOTS)) :
    Open sb i t.mem { ip with addrs := fun _ => 0, size := 0 } ∧ Others sb i s.mem t.mem := by
  have hino : ∀ j < sb.ninodes, sb.inode t.mem j = sb.inode s.mem j := fun j hj =>
    sb.inode_congr (fun x hx => hcleared.mem x (Or.inl hx)) hj
  have hI : ∀ j, j ≠ i → ∀ ip', Function.update (sb.inode s.mem) i ip' j = sb.inode s.mem j :=
    fun j hji ip' => Function.update_of_ne hji _ _
  have hother : ∀ j < sb.ninodes, j ≠ i → (∀ u, entry t.mem (sb.inode s.mem j) u =
      entry s.mem (sb.inode s.mem j) u) ∧
      (sb.inode s.mem j).bytes t.mem = (sb.inode s.mem j).bytes s.mem := by
    intro j hj hji
    have hsame := h.consistent.same_file hj t.mem
    have hinside := fun u => h.consistent.inside (s := u) hj
    rw [hI j hji] at hsame hinside
    exact hsame fun u hu hne => hcleared.mem _ (Or.inr (hinside u hu hne).1.1)
  have hnil : ∀ u, entry t.mem { ip with addrs := fun _ => 0, size := 0 } u = 0 := by
    intro u
    unfold entry
    rw [if_pos rfl, ite_self]
  have hlater : ∀ j < sb.ninodes, j ≠ i → ∀ ip',
      Function.update (sb.inode t.mem) i ip' j = sb.inode s.mem j := by
    intro j hj hji ip'
    rw [Function.update_of_ne hji, hino j hj]
  refine ⟨⟨h.lt, h.live, ⟨h.fits.type, h.fits.major, h.fits.minor, h.fits.nlink,
    Nat.two_pow_pos 32, fun _ => Nat.two_pow_pos 32, fun _ _ => rfl⟩, ?_, ?_, fun j hj => ?_,
    fun j hj bn hbn => ?_,
    fun j hj hzero => ?_⟩, fun j hj hji => ⟨hino j hj, (hother j hj hji).2⟩⟩
  · intro b hb hdata
    rw [hcleared.kept]
    · exact h.consistent.reserved b hb hdata
    · rintro ⟨hne, u, -, hu, rfl⟩
      exact hdata (h.inside hu hne).1
  · apply h.consistent.alloc.release (fun x => x.1 = i)
    · rintro ⟨j, u⟩ rfl
      unfold owner
      dsimp only
      rw [Function.update_self, hnil, ite_self]
    · rintro ⟨j, u⟩ hji
      by_cases hin : j < sb.ninodes ∧ u < NSLOTS
      · rw [Consistent.owner_eq hin.1 hin.2, Consistent.owner_eq hin.1 hin.2,
          hlater j hin.1 hji, hI j hji]
        exact (hother j hin.1 hji).1 u
      · exact (if_neg hin).trans (if_neg hin).symm
    · rintro ⟨j, u⟩ rfl hne
      by_cases hin : j < sb.ninodes ∧ u < NSLOTS
      · rw [Consistent.owner_eq hin.1 hin.2, Function.update_self] at hne ⊢
        exact hcleared.used _ ⟨hne, u, Nat.zero_le u, hin.2, rfl⟩
      · exact absurd (if_neg hin) hne
    · intro b hb hfree
      rw [hcleared.kept]
      rintro ⟨hne, u, -, hu, heq⟩
      apply hfree (i, u) rfl
      rw [Consistent.owner_eq h.lt hu, Function.update_self, heq]
  · by_cases hji : j = i
    · rw [hji, Function.update_self]
      exact Nat.zero_le _
    · rw [hlater j hj hji, ← hI j hji ip]
      exact h.consistent.bounded j hj
  · by_cases hji : j = i
    · rw [hji, Function.update_self] at hbn
      exact absurd hbn (Nat.not_lt_zero _)
    · have hwhole := h.consistent.whole j hj bn
      rw [hI j hji] at hwhole
      rw [hlater j hj hji] at hbn ⊢
      rw [(hother j hj hji).1]
      exact hwhole hbn
  · by_cases hji : j = i
    · rw [hji, Function.update_self] at hzero
      exact absurd hzero h.live
    · have hvacant := h.consistent.vacant j hj
      rw [hI j hji] at hvacant
      rw [hlater j hj hji] at hzero ⊢
      refine ⟨(hvacant hzero).1, fun u hu => ?_⟩
      rw [(hother j hj hji).1]
      exact (hvacant hzero).2 u hu

def NotedInode (sb : Superblock) (i : ℕ) (s t : Noted ℕ Block) : Prop :=
  ∀ b ∈ t.notes, b ∈ s.notes ∨ b = sb.iblock i ∨ ∃ c < sb.size, b = sb.bblock c

/-- `itrunc` leaves an empty file. -/
theorem itrunc_ends (h : Open sb i s.mem ip) :
    Ends (itrunc sb i ip) s fun ip' t => ip' = { ip with addrs := fun _ => 0, size := 0 } ∧
      Open sb i t.mem ip' ∧ Volume sb t.mem ∧ sb.inode t.mem i = ip' ∧ Others sb i s.mem t.mem ∧
      NotedInode sb i s t ∧ t.scribbles = s.scribbles := by
  unfold itrunc
  have hdirect := h.freeBlocks_ends (t := s) (l := 0) (m := NDIRECT) (by decide)
    (fun u _ hu hne => (h.inside (by simp only [NSLOTS]; omega) hne).2) (f := ip.addrs)
    fun k hk => by rw [Nat.zero_add, entry_le (Nat.le_of_lt hk)]
  rw [Nat.zero_add] at hdirect
  refine hdirect.bind fun _ t hcleared => ?_
  refine (h.freeIndirect_ends hcleared).bind fun _ u hall => ?_
  obtain ⟨hopen, hothers⟩ := h.emptied hall
  obtain ⟨hvolume, hothers', hentry, hused, -⟩ := hopen.close
  have hino : sb.inode (sb.stored u.mem i _) = Function.update (sb.inode u.mem) i _ :=
    sb.inode_stored hopen.fits
  rw [ends_bind]
  apply iupdate_ends
  rw [ends_pure]
  refine ⟨rfl, ⟨h.lt, h.live, hopen.fits, ?_⟩, hvolume, ?_, hothers.trans hothers', fun b hb => ?_,
    hall.scribbles⟩
  · have := hvolume
    unfold Volume at this
    rw [hino] at this
    rw [hino, Function.update_idem]
    exact this
  · rw [hino, Function.update_self]
  · rcases List.mem_insert_iff.mp hb with rfl | hb
    · exact Or.inr (Or.inl rfl)
    · rcases hall.noted b hb with hb | hb
      · exact Or.inl hb
      · exact Or.inr (Or.inr hb)

end Truncate

section Places

variable {sb : Superblock} {i : ℕ} {s t : Noted ℕ Block} {mem : ℕ → Block} {ip : Dinode}

theorem Volume.locked (h : Volume sb mem) (hi : i < sb.ninodes)
    (htype : (sb.inode mem i).type ≠ 0) : Open sb i mem (sb.inode mem i) := by
  refine ⟨hi, htype, Dinode.fits_decode _ _, ?_⟩
  rw [Function.update_eq_self]
  exact h

/-- An inode without blocks can be stored over another one. -/
theorem Volume.replace (h : Volume sb mem) (hi : i < sb.ninodes)
    (hnil : ∀ u < NSLOTS, entry mem (sb.inode mem i) u = 0) (hfits : ip.Fits) (hsize : ip.size = 0)
    (haddrs : ∀ k, ip.addrs k = 0) :
    Volume sb (sb.stored mem i ip) ∧ Others sb i mem (sb.stored mem i ip) := by
  have hc : Consistent sb mem (sb.inode mem) := h
  have hino : sb.inode (sb.stored mem i ip) = Function.update (sb.inode mem) i ip :=
    sb.inode_stored hfits
  have hblock := Superblock.iblock_lt hi
  have hkeep : ∀ x, sb.bmapstart ≤ x → sb.stored mem i ip x = mem x := fun x hx =>
    Function.update_of_ne (by omega) _ _
  have hused : ∀ c < sb.size, sb.used (sb.stored mem i ip) c = sb.used mem c := fun c hc =>
    sb.used_congr (fun x hx _ => hkeep x hx) hc
  have hsame : ∀ j < sb.ninodes,
      (∀ u, entry (sb.stored mem i ip) (sb.inode mem j) u = entry mem (sb.inode mem j) u) ∧
      (sb.inode mem j).bytes (sb.stored mem i ip) = (sb.inode mem j).bytes mem := fun j hj =>
    hc.same_file hj _ fun u hu hne =>
      hkeep _ (Nat.le_trans (Nat.le_of_lt sb.bmapstart_lt) (hc.inside hj hu hne).1.1)
  have hempty : ∀ u, entry (sb.stored mem i ip) ip u = 0 := by
    intro u
    unfold entry
    rw [if_pos (haddrs NDIRECT), haddrs, ite_self]
  constructor
  · unfold Volume
    rw [hino]
    refine ⟨fun b hb hdata => ?_, ?_, fun j hj => ?_, fun j hj bn hbn => ?_, fun j hj hzero => ?_⟩
    · rw [hused b hb]
      exact hc.reserved b hb hdata
    · apply hc.alloc.congr _ fun b hb => hused b hb.2
      rintro ⟨j, u⟩
      by_cases hin : j < sb.ninodes ∧ u < NSLOTS
      · rw [Consistent.owner_eq hin.1 hin.2, Consistent.owner_eq hin.1 hin.2]
        by_cases hji : j = i
        · rw [hji, Function.update_self, hempty, hnil u hin.2]
        · rw [Function.update_of_ne hji]
          exact (hsame j hin.1).1 u
      · exact (if_neg hin).trans (if_neg hin).symm
    · by_cases hji : j = i
      · rw [hji, Function.update_self, hsize]
        exact Nat.zero_le _
      · rw [Function.update_of_ne hji]
        exact hc.bounded j hj
    · by_cases hji : j = i
      · rw [hji, Function.update_self, hsize] at hbn
        exact absurd hbn (Nat.not_lt_zero _)
      · rw [Function.update_of_ne hji] at hbn ⊢
        rw [(hsame j hj).1]
        exact hc.whole j hj bn hbn
    · by_cases hji : j = i
      · rw [hji, Function.update_self]
        exact ⟨hsize, fun u _ => hempty u⟩
      · rw [Function.update_of_ne hji] at hzero ⊢
        obtain ⟨hnone, hall⟩ := hc.vacant j hj hzero
        exact ⟨hnone, fun u hu => ((hsame j hj).1 u).trans (hall u hu)⟩
  · intro j hj hji
    rw [hino, Function.update_of_ne hji]
    exact ⟨rfl, (hsame j hj).2⟩

theorem iputFree_ends (h : Open sb i s.mem ip) :
    Ends (iputFree sb i ip) s fun _ t => Volume sb t.mem ∧
      sb.inode t.mem i = { ip with type := 0, addrs := fun _ => 0, size := 0 } ∧
      Others sb i s.mem t.mem ∧ NotedInode sb i s t ∧ t.scribbles = s.scribbles := by
  unfold iputFree
  refine (itrunc_ends h).bind ?_
  rintro _ t ⟨rfl, -, hvolume, hino, hothers, hnoted, hscribbles⟩
  have hfits : ({ ip with type := 0, addrs := fun _ => 0, size := 0 } : Dinode).Fits :=
    ⟨Nat.two_pow_pos 16, h.fits.major, h.fits.minor, h.fits.nlink, Nat.two_pow_pos 32,
      fun _ => Nat.two_pow_pos 32, fun _ _ => rfl⟩
  obtain ⟨hvolume', hothers'⟩ := hvolume.replace h.lt
    (fun u _ => by rw [hino, entry, if_pos rfl, ite_self]) hfits rfl fun _ => rfl
  apply iupdate_ends
  refine ⟨hvolume', ?_, hothers.trans hothers', fun b hb => ?_, hscribbles⟩
  · rw [sb.inode_stored hfits, Function.update_self]
  · rcases List.mem_insert_iff.mp hb with rfl | hb
    · exact Or.inr (Or.inl rfl)
    · exact hnoted b hb

/-- What `ialloc` leaves: it has taken the first free inode, or it returns 0 since there is
none. -/
inductive Ialloced (sb : Superblock) (type : ℕ) (s : Noted ℕ Block) : ℕ → Noted ℕ Block → Prop
  | inode (i : ℕ) (hpos : i ≠ 0) (hi : i < sb.ninodes) (hfree : (sb.inode s.mem i).type = 0)
      (hfirst : ∀ j, j ≠ 0 → j < i → (sb.inode s.mem j).type ≠ 0) :
      Ialloced sb type s i
        { s with
          mem := sb.stored s.mem i { Dinode.zero with type := type }
          notes := s.notes.insert (sb.iblock i) }
  | none (hnone : ∀ j, j ≠ 0 → j < sb.ninodes → (sb.inode s.mem j).type ≠ 0) :
      Ialloced sb type s 0 s

theorem ialloc_ends (sb : Superblock) (type : ℕ) (s : Noted ℕ Block) :
    Ends (ialloc sb type) s (Ialloced sb type s) := by
  -- the inodes before the ones that are looked at are in use
  have hloop : ∀ n k, k ≠ 0 → sb.ninodes ≤ k + n → (n = 0 ∨ k + n ≤ sb.ninodes) →
      (∀ j, j ≠ 0 → j < k → (sb.inode s.mem j).type ≠ 0) →
      Ends (iallocLoop sb type (List.range' k n)) s (Ialloced sb type s) := by
    intro n
    induction n with
    | zero =>
      intro k _ hk _ hprev
      rw [List.range'_zero, iallocLoop, ends_pure]
      exact .none fun j hj hlt => hprev j hj (by omega)
    | succ n ih =>
      intro k hpos hlow hhigh hprev
      rw [List.range'_succ, iallocLoop, ends_bind, ends_get]
      have hlt : k < sb.ninodes := by omega
      by_cases hfree : (Dinode.decode (s.mem (sb.iblock k)) (k % IPB)).type = 0
      · rw [if_pos hfree, ends_bind]
        apply iupdate_ends
        rw [ends_pure]
        exact .inode k hpos hlt hfree hprev
      · rw [if_neg hfree]
        apply ih (k + 1) (by omega) (by omega) (by omega)
        intro j hj hjk
        rcases Nat.lt_succ_iff_lt_or_eq.mp hjk with hjk | rfl
        · exact hprev j hj hjk
        · exact hfree
  unfold ialloc
  exact hloop _ 1 one_ne_zero (by omega) (by omega) fun j hj hlt => by omega

end Places

end AdvancedOperatingSystems.FileSystem
