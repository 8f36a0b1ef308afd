import Ucore.Lemmas.MksfsMount

/-!
# The maps of the image builder and of the kernel

`append_block` puts a block behind the direct ones and the table into tables of a double table, for files of up to
`SFS_LN_NBLKS` blocks. The kernel has no double table: `sfs_bmap_get_nolock` panics at the first block that is in one. The two agree
on a file exactly when it has no such block (`mksfs_maps_agree`), and an image with another file can be built
(`mksfs_maps_differ`).
-/

namespace Ucore

open Checked MksfsAux SfsAux

namespace MksfsMapAux

open Mksfs

/-- Blocks can be packed into a file while there is room in the file and in the image. -/
theorem built_blocks (n : Nat) {s : Mksfs} {r : Record} {c : Nat} (h : Built s r) (hc : c ∈ r.inos) (ht : (s.ci c).inode.type ≠ .dir)
    (hro : s.nextIno + 3 * n ≤ s.ninos) (hlen : (r.blocks c).length + n ≤ sfsLnNblks) :
    ∃ s' r', Built s' r' ∧ c ∈ r'.inos ∧ (r'.blocks c).length = (r.blocks c).length + n ∧ s'.ninos = s.ninos := by
  induction n generalizing s r with
  | zero => exact ⟨s, r, h, hc, rfl, rfl⟩
  | succ n ih =>
    rcases packBlock_spec (fun _ => 0) (built_spec h).1 hc le_rfl with ⟨hbig, -⟩ | ⟨hf, -⟩ | ⟨u, hr, -, hp⟩
    · omega
    · omega
    · have hbo := hp.bound
      have hni := hp.ninos
      have hg : ((r.append c s.nextIno).blocks c).length = (r.blocks c).length + 1 := by
        rw [blocks_append, if_pos rfl, List.length_append]
        rfl
      obtain ⟨s', r', hb, hm, hl, hn⟩ := ih (.block h hc ht le_rfl hr) hc (by rw [hp.sameMeta.type]; exact ht) (by omega) (by omega)
      exact ⟨s', r', hb, hm, by omega, by omega⟩

/-- An image of 8192 blocks with a file that reaches one block into the double table. -/
theorem built_long : ∃ s r c, Built s r ∧ c ∈ r.inos ∧ (r.blocks c).length = sfsNdirect + sfsBlkNentry + 1 ∧ s.ninos = 8192 := by
  obtain ⟨s0, hs0⟩ : ∃ s0, s0 = newImage 8192 (fun _ => 0) (fun _ _ => 0) := ⟨_, rfl⟩
  have hf : firstBlock 8192 = 3 := rfl
  have hc : createSfs (8192 * 4096) (fun _ => 0) (fun _ _ => 0) = .ok s0 := by
    rw [createSfs_eq, show imageBlocks (8192 * 4096) = 8192 from rfl, if_neg (by omega), hs0]
  have hni : s0.ninos = 8192 := by rw [hs0]; rfl
  have hne : s0.nextIno = 3 := by rw [hs0]; exact hf
  have h0 : Built s0 .root := .create hc
  rcases allocCacheInode_spec 1 .file (built_spec h0).1 (built_spec h0).2 with ⟨hfu, -⟩ | ⟨hr, -⟩
  · omega
  have h1 := Built.inode h0 hr
  have hbl : ((Record.root.insertIno s0.nextIno).blocks s0.nextIno).length = 0 := rfl
  have hnext1 : (s0.newInode 1 .file).nextIno = s0.nextIno + 1 := rfl
  have hninos1 : (s0.newInode 1 .file).ninos = s0.ninos := rfl
  have ht : ((s0.newInode 1 .file).ci s0.nextIno).inode.type ≠ .dir := by simp [newInode, freshInode]
  have h12 : sfsNdirect = 12 := rfl
  have hN : sfsBlkNentry = 1024 := rfl
  have hM : sfsLnNblks = 32768 := rfl
  obtain ⟨s, r, hb, hm, hl, hn⟩ := built_blocks (sfsNdirect + sfsBlkNentry + 1) h1 (Finset.mem_insert_self _ _) ht (by omega) (by omega)
  exact ⟨s, r, s0.nextIno, hb, hm, by omega, by omega⟩

end MksfsMapAux

open MksfsMapAux

/-- An image that was built is closed and mounted. The kernel reads the blocks of a file that `append_block` recorded, without a
panic, exactly when all of them fit the direct blocks and the table. -/
theorem mksfs_maps_agree {s : Mksfs} {r : Record} {blocks : Nat} (h : Built s r) (hb : s.ninos ≤ blocks) :
    ∃ s' vol, closeSfs s = .ok s' ∧ sfsDoMount (device s' blocks) = .ok (0, some vol) ∧ ∀ c ∈ r.inos,
      ((∀ i < (r.blocks c).length, sfsBmapGet c i false vol = .ok (0, (r.blocks c).getD i 0, vol)) ↔
        (r.blocks c).length ≤ sfsNdirect + sfsBlkNentry) := by
  obtain ⟨htr, hl⟩ := built_spec h
  obtain ⟨s', hclose, hf⟩ := closeSfs_spec htr.sound hl
  refine ⟨s', volume s s' blocks, hclose, sfsDoMount_spec htr.sound hl hf hb, ?_⟩
  intro c hc
  constructor
  · intro hall
    by_contra hlong
    have hread := hall (sfsNdirect + sfsBlkNentry) (not_le.mp hlong)
    nomatch hread
  · intro hshort i hi
    exact sfsBmapGet_volume blocks htr hl hf hc (hi.trans_le hshort)

/-- The hypotheses hold of an image with a file of 1037 blocks. -/
theorem mksfs_maps_agree_long : ∃ s r, (Built s r ∧ s.ninos ≤ 8192) ∧
    ∃ s' vol, closeSfs s = .ok s' ∧ sfsDoMount (device s' 8192) = .ok (0, some vol) ∧ ∀ c ∈ r.inos,
      ((∀ i < (r.blocks c).length, sfsBmapGet c i false vol = .ok (0, (r.blocks c).getD i 0, vol)) ↔
        (r.blocks c).length ≤ sfsNdirect + sfsBlkNentry) := by
  obtain ⟨s, r, c, hb, -, -, hn⟩ := built_long
  exact ⟨s, r, ⟨hb, hn.le⟩, mksfs_maps_agree hb hn.le⟩

/-- `mksfs` accepts a file of 1037 blocks, and the kernel panics at the last of them. -/
theorem mksfs_maps_differ : ∃ s r c s' vol, Built s r ∧ c ∈ r.inos ∧ (r.blocks c).length = 1037 ∧ closeSfs s = .ok s' ∧
    sfsDoMount (device s' 8192) = .ok (0, some vol) ∧ sfsBmapGet c 1036 false vol = .error .indexRange := by
  obtain ⟨s, r, c, hb, hc, hlen, hn⟩ := built_long
  obtain ⟨htr, hl⟩ := built_spec hb
  obtain ⟨s', hclose, hf⟩ := closeSfs_spec htr.sound hl
  exact ⟨s, r, c, s', volume s s' 8192, hb, hc, hlen, hclose, sfsDoMount_spec htr.sound hl hf hn.le,
    sfsBmapGet_out le_rfl⟩

end Ucore
