import Ucore.Lemmas.MksfsImage

/-!
# The image of a tree of the host

For every tree of the host, `mksfs` either refuses it with a message or writes a well-formed image (`mksfs_image`), in which every
block behind the bitmap and before `next_ino` has one owner that can be reached from the root.
-/

namespace Ucore

open Checked Bytes MksfsAux MksfsWalkAux MksfsImageAux

/-- `super.blocks` -/
def imageSuperBlocks (image : Nat → Nat → UInt8) : Nat := word (image sfsBlknSuper) 4

/-- `super.unused_blocks` -/
def imageUnusedBlocks (image : Nat → Nat → UInt8) : Nat := word (image sfsBlknSuper) 8

/-- The bits of the bitmap. -/
def imageBits (image : Nat → Nat → UInt8) : Nat := (imageSuperBlocks image + sfsBlkbits - 1) / sfsBlkbits * sfsBlkbits

/-- The bit of a block in the bitmap. -/
def imageFree (image : Nat → Nat → UInt8) (i : Nat) : Bool := (deviceWord ⟨0, sfsBlksize, image⟩ (i / 32)).getLsbD (i % 32)

/-- The image of a state is well formed. -/
structure Mksfs.WellFormed (s : Mksfs) : Prop where
  /-- Every block has one owner, which can be reached. -/
  owner : ∀ b, firstBlock s.ninos ≤ b → b < s.nextIno → ∃! σ : MksfsSlot, ImageReach s.image σ.file ∧ imagePlace s.image σ = b
  free : ∀ i < imageBits s.image, imageFree s.image i = true ↔ s.nextIno ≤ i ∧ i < imageSuperBlocks s.image
  unused : imageUnusedBlocks s.image = ((Finset.range (imageBits s.image)).filter fun i => imageFree s.image i = true).card
  mount : ∀ blocks, imageSuperBlocks s.image ≤ blocks → ∃ vol, sfsDoMount ⟨blocks, sfsBlksize, s.image⟩ = .ok (0, some vol)
  /-- An inode that is named by less than 65536 entries counts them. -/
  nlinks : ∀ c, ImageReach s.image c → (imageLinkers s.image c).ncard < 65536 → imageNlinks s.image c = (imageLinkers s.image c).ncard

namespace MksfsImageAux

open Mksfs

variable {s s' : Mksfs} {r : Record} (h : s.Tracked r ∅) (hl : s.Linked r) (hf : Flushed s s' r (closed s r))
include h hl hf

theorem free_image : (∀ i < imageBits s'.image, imageFree s'.image i = true ↔ s.nextIno ≤ i ∧ i < s.ninos) ∧
    ((Finset.range (imageBits s'.image)).filter fun i => imageFree s'.image i = true) = Finset.Ico s.nextIno s.ninos := by
  have hs : imageSuperBlocks s'.image = s.ninos := image_super h.sound hf (w := 1) (by omega)
  have hmap : ((Finset.range (imageBits s'.image)).filter fun i => imageFree s'.image i = true) = Finset.Ico s.nextIno s.ninos := by
    rw [← free_mountedMap h.sound hl hf 0, imageBits, hs]
    have hN : sfsBlkbits = sfsBlkNentry * 32 := rfl
    ext i
    rw [Finset.mem_filter, Finset.mem_range, BitmapAux.mem_free]
    refine and_congr ?_ Iff.rfl
    change _ ↔ i < (s.ninos + sfsBlkbits - 1) / sfsBlkbits * sfsBlkNentry * 32
    rw [Nat.mul_assoc, ← hN]
  refine ⟨?_, hmap⟩
  intro i hi
  rw [← Finset.mem_Ico, ← hmap, Finset.mem_filter, Finset.mem_range]
  exact ⟨fun hb => ⟨hi, hb⟩, fun hm => hm.2⟩

theorem wellFormed_of (hr : ∀ c ∈ r.inos, r.Reach sfsBlknRoot c) : s'.WellFormed := by
  have hin : ∀ c, ImageReach s'.image c ↔ c ∈ r.inos := fun c => imageReach_iff h hl hf hr
  have hsu : imageSuperBlocks s'.image = s.ninos := image_super h.sound hf (w := 1) (by omega)
  have hu : imageUnusedBlocks s'.image = s.unusedBlocks := image_super h.sound hf (w := 2) (by omega)
  obtain ⟨hfr, hs⟩ := free_image h hl hf
  have hni : s'.ninos = s.ninos := by
    obtain ⟨image, rfl⟩ := hf.state
    rfl
  have hne : s'.nextIno = s.nextIno := by
    obtain ⟨image, rfl⟩ := hf.state
    rfl
  refine ⟨?_, ?_, ?_, ?_, ?_⟩
  · rw [hni]
    intro b hlow hlt
    have hh := h.sound.high
    have hre : b ∈ s.region := ⟨hlow, by omega⟩
    rcases h.sound.exact.cover b hre with hm | hm | ⟨σ, hσ⟩
    · rw [Finset.mem_Ico] at hm
      omega
    · simp at hm
    · obtain ⟨hn, h0⟩ := Ownership.names_eq_some.mp hσ
      have hfi : σ.file ∈ r.inos := by
        rw [← hn] at h0
        exact file_mem_of_named h0
      refine ⟨σ, ⟨(hin _).mpr hfi, (imagePlace_eq h hl hf hfi).trans hn⟩, ?_⟩
      rintro τ ⟨hτ, hp⟩
      rw [imagePlace_eq h hl hf ((hin _).mp hτ)] at hp
      exact named_inj h.sound (by rw [hp]; exact h0) (hp.trans hn.symm)
  · rw [hne, hsu]
    exact hfr
  · rw [hs, Nat.card_Ico]
    have := h.sound.unused
    omega
  · intro blocks hb
    rw [hsu] at hb
    exact ⟨_, sfsDoMount_spec h.sound hl hf hb⟩
  · intro c hc hlt
    rw [ncard_imageLinkers h hl hf hr] at hlt ⊢
    have hm := (hin c).mp hc
    rw [imageNlinks_eq h hl hf hm, hl.nlinks c hm]
    exact Nat.mod_eq_of_lt hlt

end MksfsImageAux

/-- A tree of the host, in which a directory is in one place and has a number of its own: `mksfs` refuses it with a message, or
writes a well-formed image. It stops at no assertion. -/
theorem mksfs_image {home : HostDir} {size : Nat} {entry : Nat → UInt8} {image : Nat → Nat → UInt8} (h : home.Apart {0}) :
    Within MksfsError.Refusal (createImg size entry image home) Mksfs.WellFormed := by
  refine (createImg_spec h).mono ?_
  rintro s' ⟨s, r, hb, hclose, hreach⟩
  obtain ⟨htr, hl⟩ := built_spec hb
  obtain ⟨s'', hclose', hf⟩ := closeSfs_spec htr.sound hl
  rw [hclose] at hclose'
  cases hclose'
  exact wellFormed_of htr hl hf hreach

/-- A file with two names, one of them in a directory, and a link. -/
def sampleTree : HostDir :=
  .file [97] 10 [1, 2, 3] (.dir [100] 11 (.file [98] 10 [1, 2, 3] .nil) (.link [108] 12 [97] .nil))

/-- The hypotheses hold of a tree with a hard link, a directory and a link, which is not refused. -/
theorem mksfs_image_sample : sampleTree.Apart {0} ∧
    ∃ s, createImg (64 * 4096) (fun _ => 0) (fun _ _ => 0) sampleTree = .ok s ∧ s.WellFormed := by
  have hap : sampleTree.Apart {0} := ⟨by decide, by decide, by simp [sampleTree, HostDir.dirs]⟩
  have hs : createImg (64 * 4096) (fun _ => 0) (fun _ _ => 0) sampleTree = .ok _ := eq_ok_okGet (by decide +kernel)
  exact ⟨hap, _, hs, (mksfs_image hap).ok hs⟩

end Ucore
