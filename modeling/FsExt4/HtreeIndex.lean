import FsExt4.DirTransaction
import FsExt4.HtreeSplit

namespace FsExt4.Htree

open Lib

section Seal

variable {block out out' : Bytes} {off : Nat} {new : DxEntry}

theorem dxEntries_congr (h : AgreeOn out' out 0 (off + (countLimitAt out off).count * dxEntrySize))
    (hpos : 0 < (countLimitAt out off).count) :
    countLimitAt out' off = countLimitAt out off ∧ dxEntries out' off = dxEntries out off := by
  have hcl : countLimitAt out' off = countLimitAt out off := by
    have hroom : off + 4 ≤ off + (countLimitAt out off).count * dxEntrySize := by
      simp only [dxEntrySize]
      omega
    unfold countLimitAt
    rw [h.u16leAt off (Nat.zero_le _) (by omega), h.u16leAt (off + 2) (Nat.zero_le _) (by omega)]
  refine ⟨hcl, ?_⟩
  unfold dxEntries entriesAt
  rw [hcl]
  congr 1
  apply List.map_congr_left
  intro i hi
  have hlt := List.mem_range.mp hi
  apply entryAt_congr h (Nat.zero_le _)
  have hmul := Nat.mul_le_mul_right dxEntrySize (Nat.succ_le_of_lt hlt)
  rw [Nat.succ_mul] at hmul
  omega

theorem InsertsEntry.congr (h : InsertsEntry block off new out) (hlen : out'.length = out.length)
    (hagree : AgreeOn out' out 0 (off + (countLimitAt out off).count * dxEntrySize)) :
    InsertsEntry block off new out' := by
  have hpos := h.nodeAt.nonempty
  obtain ⟨hcl, hentries⟩ := dxEntries_congr hagree hpos
  refine ⟨hlen.trans h.length, hcl.trans h.countLimit, h.room, h.fits, ?_, ?_⟩
  · rw [hentries]
    exact h.entries
  · refine (hagree.mono (Nat.le_refl _) ?_).trans h.before
    simp only [dxEntrySize]
    omega

theorem InsertsEntry.patched (h : InsertsEntry block off new out) (crc : Jbd2.Crc)
    (csum : Checksummer) (ino generation : UInt32) :
    InsertsEntry block off new ((csum.patchDxTail crc ino generation out off).getD out) := by
  cases hpatch : csum.patchDxTail crc ino generation out off with
  | none => exact h
  | some out' =>
    rw [Option.getD_some]
    have hle := h.nodeAt.le_limit
    unfold Checksummer.patchDxTail at hpatch
    split at hpatch
    · cases hpatch
    dsimp only at hpatch
    split at hpatch
    · cases hpatch
    rename_i hroom
    obtain ⟨-, hfits⟩ := not_or.mp hroom
    obtain rfl := Option.some.inj hpatch
    have hlimit : (u16leAt out off).toNat = (countLimitAt out off).limit := rfl
    rw [hlimit] at hfits ⊢
    apply h.congr
    · rw [length_copyAt _ _ _ (by rw [length_u32le]; omega)]
    · apply agreeOn_copyAt _ _ _ _ _ (by omega)
      refine Or.inl ?_
      have hmul := Nat.mul_le_mul_right 8 hle
      simp only [dxEntrySize]
      omega

end Seal

end FsExt4.Htree

namespace FsExt4

open Lib Jbd2 Dir Hash Htree

def blockAt (blocks : List Bytes) (l : UInt32) : Bytes := blocks.getD l.toNat []

theorem blockAt_of_getElem? {blocks : List Bytes} {l : UInt32} {block : Bytes}
    (h : blocks[l.toNat]? = some block) :
    blockAt blocks l = block := by
  unfold blockAt
  rw [List.getD_eq_getElem?_getD, h, Option.getD_some]

theorem blockAt_set_self {blocks : List Bytes} {l : UInt32} {block : Bytes}
    (h : l.toNat < blocks.length) :
    blockAt (blocks.set l.toNat block) l = block :=
  blockAt_of_getElem? (List.getElem?_set_self h)

theorem blockAt_set_ne {blocks : List Bytes} {l k : UInt32} {block : Bytes} (h : k ≠ l) :
    blockAt (blocks.set l.toNat block) k = blockAt blocks k := by
  unfold blockAt
  rw [List.getD_eq_getElem?_getD, List.getD_eq_getElem?_getD,
    List.getElem?_set_ne (fun he => h (UInt32.toNat_inj.mp he.symm))]

theorem blockAt_append {blocks more : List Bytes} {l : UInt32} (h : l.toNat < blocks.length) :
    blockAt (blocks ++ more) l = blockAt blocks l := by
  unfold blockAt
  rw [List.getD_eq_getElem?_getD, List.getD_eq_getElem?_getD, List.getElem?_append_left h]

namespace Mount

section Indexed

variable {crc : Crc} {m : Mount} {hash : HashParams} {ino : UInt32} {dir : Inode}
  {blocks : List Bytes} {info : DxRootInfo} {leaves : List UInt32} {items : UInt32 → List DirEntry}

def indexKey (hash : HashParams) (info : DxRootInfo) (name : Bytes) : UInt32 :=
  (nameHash name (effectiveVersion info.hashVersion hash.unsignedHash) hash.hashSeed).major

/-- A directory of these blocks with an index over its leaves: every entry is in the leaf that the
index leads its name to. -/
structure IndexedDir (crc : Crc) (m : Mount) (hash : HashParams) (ino : UInt32) (dir : Inode)
    (blocks : List Bytes)
    (info : DxRootInfo) (leaves : List UInt32) (items : UInt32 → List DirEntry) : Prop where
  indexed : dir.isIndexed = true
  index : DxIndex (blockAt blocks) blocks.length info leaves
  leaf : ∀ l ∈ leaves, EntryBlock crc m ino dir.generation (items l) (blockAt blocks l)
  routed : Buckets (leafOf (blockAt blocks) info.indirectLevels)
    (fun e : DirEntry => indexKey hash info e.name) leaves items

theorem IndexedDir.of_inode {dir' : Inode}
    (h : IndexedDir crc m hash ino dir blocks info leaves items)
    (hindexed : dir'.isIndexed = dir.isIndexed) (hgeneration : dir'.generation = dir.generation) :
    IndexedDir crc m hash ino dir' blocks info leaves items := by
  refine ⟨hindexed.trans h.indexed, h.index, ?_, h.routed⟩
  rw [hgeneration]
  exact h.leaf

theorem IndexedDir.mem_leaves (h : IndexedDir crc m hash ino dir blocks info leaves items)
    (a : UInt32) :
    leafOf (blockAt blocks) info.indirectLevels a ∈ leaves :=
      (h.index.index.mem_leaves _).mpr ⟨a, rfl⟩

theorem IndexedDir.leaf_lt (h : IndexedDir crc m hash ino dir blocks info leaves items) {l : UInt32}
    (hl : l ∈ leaves) : l.toNat < blocks.length := by
  obtain ⟨a, rfl⟩ := (h.index.index.mem_leaves l).mp hl
  exact (h.index.index.way_lt a).2

theorem IndexedDir.inserted (h : IndexedDir crc m hash ino dir blocks info leaves items)
    {e : DirEntry} {new : Bytes}
    {es : List DirEntry} (hblock : EntryBlock crc m ino dir.generation es new)
    (hperm : es.Perm (e :: items (leafOf (blockAt blocks) info.indirectLevels
      (indexKey hash info e.name)))) :
    ∃ items', IndexedDir crc m hash ino dir
        (blocks.set (leafOf (blockAt blocks) info.indirectLevels (indexKey hash info e.name)).toNat
          new) info leaves
        items' ∧ (leaves.flatMap items').Perm (e :: leaves.flatMap items) := by
  generalize hl : leafOf (blockAt blocks) info.indirectLevels (indexKey hash info e.name) = l at *
  have hmem : l ∈ leaves := hl ▸ h.mem_leaves _
  have hnode : ∀ a, ∀ p ∈ path (blockAt blocks) info.indirectLevels a,
      blockAt (blocks.set l.toNat new) p = blockAt blocks p := by
    intro a p hp
    apply blockAt_set_ne
    rintro rfl
    rw [← hl] at hp
    exact h.index.index.apart _ a hp
  obtain ⟨hplaced, hall⟩ := @Buckets.insert _ _ _ _ _ _ items
    (Function.update items l es) h.routed e (by rw [hl, Function.update_self]; exact hperm)
    (fun j _ hj => Function.update_of_ne (by rw [hl] at hj; exact hj) _ _)
  refine ⟨Function.update items l es, ⟨h.indexed, ⟨?_, h.index.infoLength, ?_⟩, ?_, ?_⟩, hall⟩
  · rw [hnode 0 0 List.mem_cons_self]
    exact h.index.parsed
  · rw [List.length_set]
    exact h.index.index.congr hnode
  · intro k hk
    by_cases heq : k = l
    · subst heq
      rw [Function.update_self, blockAt_set_self (h.leaf_lt hk)]
      exact hblock
    · rw [Function.update_of_ne heq, blockAt_set_ne heq]
      exact h.leaf k hk
  · refine ⟨hplaced.distinct, ?_, ?_⟩
    · intro k
      rw [(ways_congr hnode k).2]
      exact h.routed.routed k
    · intro i hi x hx
      rw [(ways_congr hnode _).2]
      exact hplaced.placed i hi x hx

theorem IndexedDir.split (h : IndexedDir crc m hash ino dir blocks info leaves items)
    (hlevels : info.indirectLevels ≤ 1) {e : DirEntry} {l p bound new : UInt32}
      {left right parent : Bytes}
    {low high : List DirEntry}
    (hl : leafOf (blockAt blocks) info.indirectLevels (indexKey hash info e.name) = l)
    (hp : parentOf (blockAt blocks) info.indirectLevels (indexKey hash info e.name) = p)
    (hleft : EntryBlock crc m ino dir.generation low left)
      (hright : EntryBlock crc m ino dir.generation high right)
    (hperm : (low ++ high).Perm (e :: items l))
      (hlow : ∀ x ∈ low, ¬ bound ≤ indexKey hash info x.name)
    (hhigh : ∀ x ∈ high, bound ≤ indexKey hash info x.name)
    (hkeep : ∃ x ∈ items l, ¬ bound ≤ indexKey hash info x.name)
    (hbound : ∃ x ∈ items l, indexKey hash info x.name = bound)
    (hins : InsertsEntry (blockAt blocks p) (dxOffset p) ⟨bound, new⟩ parent)
      (hnew : new.toNat = blocks.length) :
    ∃ items', IndexedDir crc m hash ino dir
      (((blocks ++ [right]).set l.toNat left).set p.toNat parent) info
        (leaves ++ [new]) items' ∧ ((leaves ++ [new]).flatMap items').Perm
          (e :: leaves.flatMap items) := by
  have hmem : l ∈ leaves := hl ▸ h.mem_leaves _
  have hlt := h.leaf_lt hmem
  have hindex := h.index.index
  have hat : ∀ {x}, x ∈ items l → leafOf (blockAt blocks) info.indirectLevels
      (indexKey hash info x.name) = l :=
    fun {x} hx => h.routed.placed l hmem x hx
  obtain ⟨xb, hxb, rfl⟩ := hbound
  obtain ⟨xk, hxk, hbelow⟩ := hkeep
  have hboundLeaf := hat hxb
  generalize indexKey hash info xb.name = bound at *
  -- the bound is a hash of the leaf, so it is led there along the same index blocks
  have hparents : p = parentOf (blockAt blocks) info.indirectLevels bound := by
    have hways := hindex.once _ bound (hl.trans hboundLeaf.symm)
    rw [(hindex.ways hlevels _).1, (hindex.ways hlevels bound).1, hp] at hways
    unfold parentOf at hp ⊢
    by_cases hzero : info.indirectLevels = 0
    · rw [if_pos hzero] at hp ⊢
      exact hp.symm
    · rw [if_neg hzero, if_neg hzero] at hways
      exact (List.cons.inj (List.cons.inj hways).2).1
  have hpmem : p ∈ path (blockAt blocks) info.indirectLevels bound :=
    hparents ▸ (hindex.ways hlevels bound).2.1
  have hplt := (hindex.way_lt bound).1 p hpmem
  have hne : l ≠ p := by
    rintro rfl
    rw [← hboundLeaf] at hpmem
    exact hindex.apart bound bound hpmem
  have hnewNe : ∀ {k : UInt32}, k.toNat < blocks.length → k ≠ new := by
    rintro k hk rfl
    omega
  have hsame : ∀ k : UInt32, k.toNat < blocks.length → k ≠ l → k ≠ p →
      blockAt (((blocks ++ [right]).set l.toNat left).set p.toNat parent) k = blockAt blocks k := by
    intro k hk hkl hkp
    rw [blockAt_set_ne hkp, blockAt_set_ne hkl, blockAt_append hk]
  have hparent : blockAt (((blocks ++ [right]).set l.toNat left).set p.toNat parent) p =
      parent := by
    apply blockAt_set_self
    rw [List.length_set, List.length_append]
    omega
  have hleftAt : blockAt (((blocks ++ [right]).set l.toNat left).set p.toNat parent) l = left := by
    rw [blockAt_set_ne hne]
    apply blockAt_set_self
    rw [List.length_append]
    omega
  have hrightAt : blockAt (((blocks ++ [right]).set l.toNat left).set p.toNat parent)
      new = right := by
    rw [blockAt_set_ne (hnewNe hplt).symm, blockAt_set_ne (hnewNe hlt).symm]
    apply blockAt_of_getElem?
    rw [hnew, List.getElem?_append_right (Nat.le_refl _), Nat.sub_self]
    rfl
  have hlength : (((blocks ++ [right]).set l.toNat left).set p.toNat parent).length =
      blocks.length + 1 := by
    rw [List.length_set, List.length_set, List.length_append, List.length_singleton]
  generalize ((blocks ++ [right]).set l.toNat left).set p.toNat parent = blocks' at *
  rw [← hparent] at hins
  have hother : ∀ a, ∀ q ∈ path (blockAt blocks) info.indirectLevels a, q ≠ p →
      blockAt blocks' q = blockAt blocks q := by
    intro a q hq hqp
    refine hsame q ((hindex.way_lt a).1 q hq) ?_ hqp
    rintro rfl
    rw [← hboundLeaf] at hq
    exact hindex.apart bound a hq
  have hways := hindex.split_ways hlevels hparents hins hother
  -- first the entry, in the leaf as it was, and then the cut
  obtain ⟨hone, hmore⟩ := @Buckets.insert _ _ _ _ _ _ items
    (Function.update items l (e :: items l)) h.routed e (by rw [hl, Function.update_self])
    (fun j _ hj => Function.update_of_ne (by rw [hl] at hj; exact hj) _ _)
  have hnotLeaf : new ∉ leaves := fun hin => hnewNe (h.leaf_lt hin) rfl
  have hln : l ≠ new := hnewNe hlt
  obtain ⟨htwo, hsplit⟩ := @Buckets.split _ _ _ _ (leafOf (blockAt blocks') info.indirectLevels) _ _
    _ (Function.update (Function.update items l low) new high) _ _ _ hone l new bound hmem
      hnotLeaf (by
      intro k
      rw [(hways k).2, hboundLeaf])
    (by
      rw [Function.update_of_ne hln, Function.update_self, Function.update_self,
        Function.update_self]
      exact hperm)
    (by
      intro x hx
      rw [Function.update_of_ne hln, Function.update_self] at hx
      exact hlow x hx)
    (by
      intro x hx
      rw [Function.update_self] at hx
      exact hhigh x hx)
    (by
      intro j hj hjl
      have hjn : j ≠ new := by
        rintro rfl
        exact hnotLeaf hj
      rw [Function.update_of_ne hjn, Function.update_of_ne hjl, Function.update_of_ne hjl])
  refine ⟨Function.update (Function.update items l low) new high,
    ⟨h.indexed, ⟨?_, h.index.infoLength, ?_⟩, ?_, htwo⟩, hsplit.trans hmore⟩
  · by_cases hzero : p = 0
    · subst hzero
      rw [← h.index.parsed]
      exact parseRootInfo_congr hins.before hins.length
    · rw [hother bound 0 List.mem_cons_self (Ne.symm hzero)]
      exact h.index.parsed
  · rw [hlength]
    exact hindex.split hlevels hparents hins hother hnew
      ⟨_, hbelow, (hat hxk).trans hboundLeaf.symm⟩
  · intro k hk
    by_cases hkn : k = new
    · subst hkn
      rw [Function.update_self, hrightAt]
      exact hright
    · have hin : k ∈ leaves := (List.mem_append.mp hk).resolve_right
        (fun hs => hkn (List.mem_singleton.mp hs))
      rw [Function.update_of_ne hkn]
      by_cases hkl : k = l
      · subst hkl
        rw [Function.update_self, hleftAt]
        exact hleft
      · have hkp : k ≠ p := by
          rintro rfl
          obtain ⟨a, ha⟩ := (hindex.mem_leaves k).mp hin
          rw [← ha] at hpmem
          exact hindex.apart a bound hpmem
        rw [Function.update_of_ne hkl, hsame k (h.leaf_lt hin) hkl hkp]
        exact h.leaf k hin

end Indexed

end Mount

end FsExt4
