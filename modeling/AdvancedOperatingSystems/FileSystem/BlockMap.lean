import AdvancedOperatingSystems.FileSystem.Consistency

/-!
# The block map of a file

`bmap` gives the block of a file at a position, and allocates it where there is none. Whatever
it allocates, the volume stays consistent and no file changes.
-/

namespace AdvancedOperatingSystems.FileSystem

open Foundations Riscv DemandPaging StoreProgram

/-- What allocation for an inode keeps. -/
structure Grows (sb : Superblock) (i : ℕ) (mem : ℕ → Block) (ip : Dinode) (mem' : ℕ → Block)
    (ip' : Dinode) : Prop where
  isOpen : Open sb i mem' ip'
  others : Others sb i mem mem'
  blocks : SameBlocks mem ip mem' ip'
  same : ip' = { ip with addrs := ip'.addrs }
  kept : ∀ s < NSLOTS, entry mem ip s ≠ 0 → entry mem' ip' s = entry mem ip s

def Full (sb : Superblock) (mem : ℕ → Block) : Prop := ∀ b < sb.size, sb.used mem b = true

section Allocated

variable {sb : Superblock} {s t : Noted ℕ Block} {I : ℕ → Dinode} {b : ℕ}

/-- A new block is a data block. It is marked and zero, and nothing else changes. -/
theorem Consistent.alloced (h : Consistent sb s.mem I) (hb : b < sb.size)
    (hfree : sb.used s.mem b = false) {mem' : ℕ → Block}
    (hmem' : mem' = Function.update
      (Function.update s.mem (sb.bblock b) (setBit (b % BPB) (s.mem (sb.bblock b)))) b fun _ => 0) :
    sb.Data b ∧
      (∀ c < sb.size, sb.used mem' c = Function.update (sb.used s.mem) b true c) ∧
      (∀ j < sb.ninodes, sb.inode mem' j = sb.inode s.mem j) ∧
      (∀ x, sb.Data x → x ≠ b → mem' x = s.mem x) ∧ mem' b = fun _ => 0 := by
  have hdata : sb.Data b := by
    by_contra hdata
    rw [h.reserved b hb hdata] at hfree
    cases hfree
  have hbit := Superblock.bblock_lt hb
  have hlow := sb.le_bblock (b := b)
  refine ⟨hdata, fun c hc => ?_, fun j hj => ?_, fun x hx hxb => ?_, ?_⟩
  · rw [hmem', ← sb.used_mark]
    apply sb.used_congr _ hc
    intro x _ hx
    have := hdata.1
    rw [Function.update_of_ne]
    omega
  · rw [hmem']
    apply sb.inode_congr _ hj
    intro x hx
    have hfirst := sb.bmapstart_lt
    have := hdata.1
    rw [Function.update_of_ne (by omega), Function.update_of_ne (by omega)]
  · have := hx.1
    rw [hmem', Function.update_of_ne hxb, Function.update_of_ne (by omega)]
  · rw [hmem', Function.update_self]

end Allocated

section Bmap

variable {sb : Superblock} {i : ℕ} {s : Noted ℕ Block} {ip : Dinode}

theorem Grows.refl {mem : ℕ → Block} (h : Open sb i mem ip) : Grows sb i mem ip mem ip :=
  ⟨h, .refl, .refl, rfl, fun _ _ _ => rfl⟩

theorem Grows.trans {mem mem' mem'' : ℕ → Block} {ip' ip'' : Dinode}
    (h : Grows sb i mem ip mem' ip') (h' : Grows sb i mem' ip' mem'' ip'') :
    Grows sb i mem ip mem'' ip'' where
  isOpen := h'.isOpen
  others := h.others.trans h'.others
  blocks := h.blocks.trans h'.blocks
  same := by
    have h₁ := h.same
    have h₂ := h'.same
    rw [h₁] at h₂
    exact h₂
  kept t ht hne := by
    have hkept := h.kept t ht hne
    rw [h'.kept t ht (by rw [hkept]; exact hne), hkept]

/-- Setting an address that was 0. -/
theorem entry_setAddr {mem mem' : ℕ → Block} {k b : ℕ} (hk : k ≤ NDIRECT)
    (hzero : ip.addrs k = 0) (hb : mem' b = fun _ => 0)
    (hmem : ip.addrs NDIRECT ≠ 0 → mem' (ip.addrs NDIRECT) = mem (ip.addrs NDIRECT)) (t : ℕ) :
    entry mem' (ip.setAddr k b) t = Function.update (entry mem ip) k b t := by
  have haddr : ∀ u, (ip.setAddr k b).addrs u = Function.update ip.addrs k b u := fun _ => rfl
  by_cases htk : t = k
  · rw [htk, Function.update_self, entry_le hk, haddr, Function.update_self]
  · rw [Function.update_of_ne htk]
    by_cases ht : t ≤ NDIRECT
    · rw [entry_le ht, entry_le ht, haddr, Function.update_of_ne htk]
    · unfold entry
      rw [if_neg ht, if_neg ht, haddr]
      by_cases hind : NDIRECT = k
      · -- the new indirect block is zero
        rw [← hind] at hzero
        rw [hind, Function.update_self, hb, ← hind, if_pos hzero]
        have hfield : field (fun _ => (0 : Byte)) (4 * (t - (NDIRECT + 1))) 4 = 0 := rfl
        rw [hfield]
        split_ifs <;> rfl
      · rw [Function.update_of_ne hind]
        by_cases hnil : ip.addrs NDIRECT = 0
        · rw [if_pos hnil, if_pos hnil]
        · rw [if_neg hnil, if_neg hnil, hmem hnil]

/-- What was noted belongs to the bitmap or is one of the blocks named. -/
def NotedFor (sb : Superblock) (s t : Noted ℕ Block) (named : ℕ → Prop) : Prop :=
  ∀ b ∈ t.notes, b ∈ s.notes ∨ (∃ c < sb.size, b = sb.bblock c) ∨ named b ∧ b ≠ 0

theorem NotedFor.refl {named : ℕ → Prop} : NotedFor sb s s named := fun _ hb => Or.inl hb

theorem NotedFor.trans {t u : Noted ℕ Block} {named named' : ℕ → Prop}
    (h : NotedFor sb s t named) (h' : NotedFor sb t u named')
    (himp : ∀ b, b ≠ 0 → named b → named' b) : NotedFor sb s u named' := by
  intro b hb
  rcases h' b hb with hb | hb | hb
  · rcases h b hb with hb | hb | ⟨hb, hne⟩
    · exact Or.inl hb
    · exact Or.inr (Or.inl hb)
    · exact Or.inr (Or.inr ⟨himp b hne hb, hne⟩)
  · exact Or.inr (Or.inl hb)
  · exact Or.inr (Or.inr hb)

/-- The block of an address: it is there, or it has been allocated, or the volume is full. -/
theorem addrOf_ends (h : Open sb i s.mem ip) {k : ℕ} (hk : k ≤ NDIRECT) :
    Ends (addrOf sb ip k) s fun r t =>
      Grows sb i s.mem ip t.mem r.2 ∧ r.1 = entry t.mem r.2 k ∧ (r.1 = 0 → Full sb t.mem) ∧
        NotedFor sb s t (· = r.1) ∧ t.scribbles = s.scribbles ∧
        (ip.addrs k ≠ 0 → t = s ∧ r.2 = ip) := by
  have hslot : k < NSLOTS := by
    simp only [NSLOTS]
    omega
  unfold addrOf
  by_cases hzero : ip.addrs k = 0
  · rw [if_pos hzero, ends_bind]
    apply (balloc_ends sb s).mono
    intro addr t hballoc
    cases hballoc with
    | block addr hb hfree =>
      obtain ⟨hdata, hused, hino, hmem, hnew⟩ := h.consistent.alloced hb hfree rfl
      have hpos := h.consistent.alloc.ne_zero hdata
      rw [if_neg hpos, ends_pure]
      have hind : ip.addrs NDIRECT ≠ 0 → sb.Data (ip.addrs NDIRECT) ∧ ip.addrs NDIRECT ≠ addr := by
        intro hne
        obtain ⟨hin, hmark⟩ := h.inside (s := NDIRECT) (by decide) (by rwa [Open.indirect_eq])
        rw [Open.indirect_eq] at hin hmark
        refine ⟨hin, ?_⟩
        rintro rfl
        rw [hmark] at hfree
        cases hfree
      have hentry := entry_setAddr hk hzero hnew fun hne =>
        hmem _ (hind hne).1 (hind hne).2
      have hfits : (ip.setAddr k addr).Fits := by
        refine ⟨h.fits.type, h.fits.major, h.fits.minor, h.fits.nlink, h.fits.size, ?_, ?_⟩
        · intro u
          have hlt := sb.size_lt
          change Function.update ip.addrs k addr u < 2 ^ 32
          by_cases huk : u = k
          · rw [huk, Function.update_self]
            omega
          · rw [Function.update_of_ne huk]
            exact h.fits.addrs u
        · intro u hu
          change Function.update ip.addrs k addr u = 0
          rw [Function.update_of_ne (by omega)]
          exact h.fits.bounded u hu
      obtain ⟨hopen, hothers, hblocks⟩ := h.claim hslot ((entry_le hk).trans hzero) hdata hfree
        hused hino (fun x hx hxb _ => hmem x hx hxb) (fun t _ => hentry t) rfl rfl hfits
      refine ⟨⟨hopen, hothers, hblocks, rfl, fun t ht hne => ?_⟩, ?_, fun h0 => absurd h0 hpos,
        ?_, rfl, fun hne => absurd hzero hne⟩
      · rw [hentry, Function.update_of_ne]
        rintro rfl
        exact hne ((entry_le hk).trans hzero)
      · rw [hentry, Function.update_self]
      · intro b' hb'
        rcases List.mem_insert_iff.mp hb' with rfl | hb'
        · exact Or.inr (Or.inr ⟨rfl, hpos⟩)
        · rcases List.mem_insert_iff.mp hb' with rfl | hb'
          · exact Or.inr (Or.inl ⟨addr, hb, rfl⟩)
          · exact Or.inl hb'
    | none hfull =>
      rw [if_pos rfl, ends_pure]
      exact ⟨.refl h, ((entry_le hk).trans hzero).symm, fun _ => hfull, .refl, rfl,
        fun hne => absurd hzero hne⟩
  · rw [if_neg hzero, ends_pure]
    exact ⟨.refl h, (entry_le hk).symm, fun h0 => absurd h0 hzero, .refl, rfl, fun _ => ⟨rfl, rfl⟩⟩

/-- A new block takes an entry of the indirect block that was 0. -/
theorem enter (h : Open sb i s.mem ip) {j b : ℕ} (hind : ip.addrs NDIRECT ≠ 0) (hj : j < NINDIRECT)
    (hempty : entry s.mem ip (NDIRECT + 1 + j) = 0) (hb : b < sb.size)
    (hfree : sb.used s.mem b = false) {mem' : ℕ → Block}
    (hmem' : mem' = Function.update
      (Function.update s.mem (sb.bblock b) (setBit (b % BPB) (s.mem (sb.bblock b)))) b fun _ => 0) :
    Grows sb i s.mem ip
        (Function.update mem' (ip.addrs NDIRECT) (putField (mem' (ip.addrs NDIRECT)) (4 * j) 4 b))
        ip ∧
      entry
        (Function.update mem' (ip.addrs NDIRECT) (putField (mem' (ip.addrs NDIRECT)) (4 * j) 4 b))
        ip (NDIRECT + 1 + j) = b := by
  obtain ⟨hdata, hused, hino, hmem, -⟩ := h.consistent.alloced hb hfree hmem'
  have hslot : NDIRECT + 1 + j < NSLOTS := by
    simp only [NSLOTS]
    omega
  obtain ⟨hin, hmark⟩ := h.inside (s := NDIRECT) (by decide) (by rwa [Open.indirect_eq])
  rw [Open.indirect_eq] at hin hmark
  have hne : ip.addrs NDIRECT ≠ b := by
    intro heq
    rw [heq, hfree] at hmark
    cases hmark
  have hsame : mem' (ip.addrs NDIRECT) = s.mem (ip.addrs NDIRECT) := hmem _ hin hne
  set mem'' := Function.update mem' (ip.addrs NDIRECT)
    (putField (mem' (ip.addrs NDIRECT)) (4 * j) 4 b) with hmem''
  have hkeep : ∀ x, x ≠ ip.addrs NDIRECT → mem'' x = mem' x := fun x hx =>
    Function.update_of_ne hx _ _
  have hlow := hin.1
  have hfirst := sb.bmapstart_lt
  have hlt := sb.size_lt
  have hentry : ∀ u, u < NSLOTS → entry mem'' ip u =
      Function.update (entry s.mem ip) (NDIRECT + 1 + j) b u := by
    intro u hu
    unfold entry
    by_cases hule : u ≤ NDIRECT
    · rw [if_pos hule, Function.update_of_ne (by omega), if_pos hule]
    · rw [if_neg hule, if_neg hind, hmem'', Function.update_self, hsame]
      by_cases huj : u = NDIRECT + 1 + j
      · rw [huj, Function.update_self, Nat.add_sub_cancel_left, field_putField _ (by omega)]
      · rw [Function.update_of_ne huj, if_neg hule, if_neg hind,
          field_putField_of_disjoint _ _ (by omega)]
  obtain ⟨hopen, hothers, hblocks⟩ := h.claim hslot hempty hdata hfree
    (fun c hc => by
      rw [← hused c hc]
      exact sb.used_congr (fun x _ hx => hkeep x (by omega)) hc)
    (fun u hu => by
      rw [← hino u hu]
      exact sb.inode_congr (fun x hx => hkeep x (by omega)) hu)
    (fun x hx hxb hxi => (hkeep x hxi).trans (hmem x hx hxb)) hentry rfl rfl h.fits
  refine ⟨⟨hopen, hothers, hblocks, rfl, fun u hu hune => ?_⟩, ?_⟩
  · rw [hentry u hu, Function.update_of_ne]
    rintro rfl
    exact hune hempty
  · rw [hentry _ hslot, Function.update_self]

/-- `bmap` gives the block that the file has at a position in the end, or 0 if the volume is
full. -/
theorem bmap_ends (h : Open sb i s.mem ip) {bn : ℕ} (hbn : bn < MAXFILE) :
    Ends (bmap sb ip bn) s fun r t =>
      Grows sb i s.mem ip t.mem r.2 ∧ r.1 = entry t.mem r.2 (slotOf bn) ∧
        (r.1 = 0 → Full sb t.mem) ∧
        NotedFor sb s t
          (fun b => b = entry t.mem r.2 NDIRECT ∨ b = entry t.mem r.2 (slotOf bn)) ∧
        t.scribbles = s.scribbles ∧
        (entry s.mem ip (slotOf bn) ≠ 0 → t = s ∧ r.2 = ip) := by
  unfold bmap
  by_cases hdirect : bn < NDIRECT
  · have hslot : slotOf bn = bn := if_pos hdirect
    rw [if_pos hdirect, hslot]
    apply (addrOf_ends h (Nat.le_of_lt hdirect)).mono
    rintro r t ⟨hgrows, haddr, hfull, hnoted, hscribbles, hsame⟩
    refine ⟨hgrows, haddr, hfull, ?_, hscribbles, fun hne => hsame ?_⟩
    · exact hnoted.trans .refl fun b _ hb => Or.inr (hb.trans haddr)
    · rwa [entry_le (Nat.le_of_lt hdirect)] at hne
  · have hslot : slotOf bn = NDIRECT + 1 + (bn - NDIRECT) := by
      rw [slotOf, if_neg hdirect]
      omega
    have hj : bn - NDIRECT < NINDIRECT := by
      simp only [MAXFILE] at hbn
      omega
    rw [if_neg hdirect, if_pos hj, hslot, ends_bind]
    generalize bn - NDIRECT = j at hj
    have hentry : ∀ (mem : ℕ → Block) (ip : Dinode), entry mem ip (NDIRECT + 1 + j) =
        if ip.addrs NDIRECT = 0 then 0 else field (mem (ip.addrs NDIRECT)) (4 * j) 4 := by
      intro mem ip
      rw [entry, if_neg (by omega), Nat.add_sub_cancel_left]
    apply (addrOf_ends h le_rfl).mono
    rintro ⟨addr, ip₁⟩ t ⟨hgrows, haddr, hfull, hnoted, hscribbles, hsame⟩
    dsimp only at hgrows haddr hfull hnoted hsame ⊢
    rw [entry_le le_rfl] at haddr
    -- a block at the position was there only if the indirect block was
    have hthere : entry s.mem ip (NDIRECT + 1 + j) ≠ 0 → t = s ∧ ip₁ = ip := by
      intro hne
      apply hsame
      intro hzero
      rw [hentry, if_pos hzero] at hne
      exact hne rfl
    by_cases hzero : addr = 0
    · rw [if_pos hzero, ends_pure]
      have hnil : ip₁.addrs NDIRECT = 0 := haddr.symm.trans hzero
      refine ⟨hgrows, ?_, fun _ => hfull hzero, ?_, hscribbles, hthere⟩
      · rw [hentry, if_pos hnil]
      · exact hnoted.trans .refl fun b hb heq => absurd (heq.trans hzero) hb
    · have hind : ip₁.addrs NDIRECT ≠ 0 := haddr ▸ hzero
      rw [if_neg hzero, ends_bind, ends_get, haddr]
      have hfield := hentry t.mem ip₁
      rw [if_neg hind] at hfield
      rw [← hfield]
      have hnoted' : ∀ u (ip₂ : Dinode), ip₂.addrs NDIRECT = ip₁.addrs NDIRECT →
          NotedFor sb s t fun b => b = entry u ip₂ NDIRECT ∨
            b = entry u ip₂ (NDIRECT + 1 + j) := by
        intro u ip₂ hip
        apply hnoted.trans .refl
        intro b _ hb
        left
        rw [entry_le le_rfl, hip, hb, haddr]
      by_cases hempty : entry t.mem ip₁ (NDIRECT + 1 + j) = 0
      · rw [if_pos hempty, ends_bind]
        apply (balloc_ends sb t).mono
        intro new u hballoc
        cases hballoc with
        | block new hb hfree =>
          have hpos := hgrows.isOpen.consistent.alloc.ne_zero
            (hgrows.isOpen.consistent.alloced hb hfree rfl).1
          obtain ⟨hgrows', hnew⟩ := enter hgrows.isOpen hind hj hempty hb hfree rfl
          rw [if_neg hpos, ends_bind, ends_modify, ends_pure]
          refine ⟨hgrows.trans hgrows', hnew.symm, fun h0 => absurd h0 hpos, ?_, hscribbles,
            fun hne => ?_⟩
          · refine (hnoted' _ ip₁ rfl).trans ?_ fun b _ hb => hb
            intro b hbm
            rcases List.mem_insert_iff.mp hbm with rfl | hbm
            · exact Or.inr (Or.inr ⟨Or.inl (entry_le le_rfl).symm, hind⟩)
            · rcases List.mem_insert_iff.mp hbm with rfl | hbm
              · exact Or.inr (Or.inr ⟨Or.inr hnew.symm, hpos⟩)
              · rcases List.mem_insert_iff.mp hbm with rfl | hbm
                · exact Or.inr (Or.inl ⟨new, hb, rfl⟩)
                · exact Or.inl hbm
          · obtain ⟨rfl, rfl⟩ := hthere hne
            exact absurd hempty hne
        | none hnone =>
          rw [if_pos rfl, ends_pure]
          exact ⟨hgrows, hempty.symm, fun _ => hnone, hnoted' _ ip₁ rfl, hscribbles,
            hthere⟩
      · rw [if_neg hempty, ends_pure]
        exact ⟨hgrows, rfl, fun h0 => absurd h0 hempty, hnoted' _ ip₁ rfl, hscribbles, hthere⟩

end Bmap

end AdvancedOperatingSystems.FileSystem
