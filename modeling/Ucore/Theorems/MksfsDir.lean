import Ucore.Lemmas.MksfsDir

/-!
# Directory entries of the image builder and of the kernel

`add_entry` passes `sizeof(entry->name)` to `write_block` where it means the size of the entry. The entry is four bytes longer, so
that of a name of more than 252 bytes the rest is lost. An entry comes back as it was added exactly when its name has at most 252
bytes, and a directory does exactly when this holds of its entries and the maps of the kernel reach them (`mksfs_dirents`). Two names
that differ behind the 252nd byte become one (`mksfs_dirents_merge`).
-/

namespace Ucore

open Checked MksfsAux MksfsDirAux SfsAux

/-- The entries of a directory are read as they were added, each name is found at the slot of its entry, and entries with different
names stay different. -/
structure RoundTrips (r : Record) (vol : Sfs) (c : Nat) : Prop where
  read : ∀ k e, (r.entries c)[k]? = some e → sfsDirentRead c k vol = .ok (0, ⟨e.1, e.2⟩, vol)
  search : ((r.entries c).map Prod.snd).Nodup → ∀ k e, (r.entries c)[k]? = some e →
    sfsDirentSearch c e.2 true vol = .ok (0, ⟨some e.1, some k, some (r.entries c).length⟩, vol)
  apart : ∀ k l e e', (r.entries c)[k]? = some e → (r.entries c)[l]? = some e' → e.2 ≠ e'.2 → ∀ x x',
    sfsDirentRead c k vol = .ok (0, x, vol) → sfsDirentRead c l vol = .ok (0, x', vol) → x.name ≠ x'.name

namespace MksfsDirAux

open Mksfs

variable {s s' : Mksfs} {r : Record} {c : Nat}

section Volume

variable (blocks : Nat) (h : s.Tracked r ∅) (hl : s.Linked r) (hf : Flushed s s' r (closed s r)) (hc : c ∈ r.inos)
  (ht : (s.ci c).inode.type = .dir) (hnul : ∀ e ∈ r.entries c, 0 ∉ e.2)
include h hl hf hc ht hnul

theorem roundTrips_of (hlen : (r.entries c).length ≤ sfsNdirect + sfsBlkNentry)
    (hs : ∀ e ∈ r.entries c, e.2.length ≤ sfsWrittenName) : RoundTrips r (volume s s' blocks) c := by
  have hr : ∀ k e, (r.entries c)[k]? = some e →
      sfsDirentRead c k (volume s s' blocks) = .ok (0, ⟨e.1, e.2⟩, volume s s' blocks) := by
    intro k e he
    obtain ⟨hk, -⟩ := List.getElem?_eq_some_iff.mp he
    have hm : e ∈ r.entries c := List.mem_of_getElem? he
    rw [sfsDirentRead_volume blocks h hl hf hc ht he (by omega) (hnul e hm), List.take_of_length_le (hs e hm)]
  refine ⟨hr, ?_, ?_⟩
  · intro hn k e he
    obtain ⟨hk, hg⟩ := List.getElem?_eq_some_iff.mp he
    have hm : e ∈ r.entries c := List.mem_of_getElem? he
    have hb : ((volume s s' blocks).din c).blocks = (r.entries c).length := by
      rw [(din_volume blocks h hl hf hc).2.2.1, hl.dirs c hc ht]
    have hfi : ∀ j < k, ∀ e', (r.entries c)[j]? = some e' → e'.2.take sfsWrittenName ≠ e.2 := by
      intro j hj e' he' heq
      rw [List.take_of_length_le (hs e' (List.mem_of_getElem? he'))] at heq
      obtain ⟨hjl, hget'⟩ := List.getElem?_eq_some_iff.mp he'
      have hsa : ((r.entries c).map Prod.snd)[j]? = ((r.entries c).map Prod.snd)[k]? := by
        rw [List.getElem?_map, List.getElem?_map, he, he', Option.map_some, Option.map_some, heq]
      have := (List.getElem?_inj (by rw [List.length_map]; exact hjl) hn).mp hsa
      omega
    unfold sfsDirentSearch
    rw [ensure_of (hl.targets c e hm).2, hb]
    exact searchSlots_first blocks h hl hf hc ht hnul (hnul e hm) he (by omega) (List.take_of_length_le (hs e hm)) hfi
      (Nat.zero_le k) (by omega)
  · intro k l e e' he he' hne x x' hx hx'
    rw [hr k e he] at hx
    rw [hr l e' he'] at hx'
    cases hx
    cases hx'
    exact hne

theorem of_roundTrips (hr : RoundTrips r (volume s s' blocks) c) :
    (r.entries c).length ≤ sfsNdirect + sfsBlkNentry ∧ ∀ e ∈ r.entries c, e.2.length ≤ sfsWrittenName := by
  have hd := hl.dirs c hc ht
  have hlen : (r.entries c).length ≤ sfsNdirect + sfsBlkNentry := by
    by_contra hlo
    have hk : sfsNdirect + sfsBlkNentry < (r.entries c).length := not_le.mp hlo
    have hre := hr.read _ _ (List.getElem?_eq_getElem hk)
    rw [sfsDirentRead_out blocks h hl hf hc ht (by omega) le_rfl] at hre
    nomatch hre
  refine ⟨hlen, ?_⟩
  intro e hm
  obtain ⟨k, he⟩ := List.mem_iff_getElem?.mp hm
  obtain ⟨hk, -⟩ := List.getElem?_eq_some_iff.mp he
  have hre := hr.read k e he
  rw [sfsDirentRead_volume blocks h hl hf hc ht he (by omega) (hnul e hm)] at hre
  have hn : e.2.take sfsWrittenName = e.2 := by
    injection hre with hre
    injection hre with _ hre
    injection hre with hre
    injection hre
  exact List.take_eq_self_iff _ |>.mp hn

end Volume

/-- Entries can be added to the root while there is room in it and in the image. -/
theorem built_names (names : List (List UInt8)) (h : Built s r)
    (hna : ∀ name ∈ names, name.length ≤ sfsMaxFnameLen) (hrm : s.nextIno + 3 * names.length ≤ s.ninos)
    (hlen : (r.blocks sfsBlknRoot).length + names.length ≤ sfsLnNblks) :
    ∃ s' r', Built s' r' ∧ s'.ninos = s.ninos ∧ r'.entries sfsBlknRoot = r.entries sfsBlknRoot ++ names.map (sfsBlknRoot, ·) ∧
      ∀ c, c ≠ sfsBlknRoot → r'.entries c = r.entries c := by
  induction names generalizing s r with
  | nil => exact ⟨s, r, h, rfl, (List.append_nil _).symm, fun _ _ => rfl⟩
  | cons name names ih =>
    obtain ⟨htr, hl⟩ := built_spec h
    have hro := htr.sound.root
    rw [List.length_cons] at hrm hlen
    rcases addEntry_spec htr hl hro hl.root hro (hna name List.mem_cons_self) with ⟨hbig, -⟩ | ⟨hfu, -⟩ | ⟨u, hr, -, -, hen⟩
    · omega
    · omega
    · have hbo := hen.bound
      have hni := hen.ninos
      have hg : ((r.addEntry sfsBlknRoot s.nextIno sfsBlknRoot name).blocks sfsBlknRoot).length =
          (r.blocks sfsBlknRoot).length + 1 := by
        change ((r.append sfsBlknRoot s.nextIno).blocks sfsBlknRoot).length = _
        rw [blocks_append, if_pos rfl, List.length_append]
        rfl
      obtain ⟨s', r', hb, hn, he, ho⟩ := ih (.entry h hro hro hr) (fun x hx => hna x (List.mem_cons_of_mem _ hx))
        (by omega) (by omega)
      refine ⟨s', r', hb, by omega, ?_, ?_⟩
      · rw [he, entries_addEntry, if_pos rfl, List.append_assoc]
        rfl
      · intro c hc
        rw [ho c hc, entries_addEntry, if_neg hc]

/-- An image of 64 blocks whose root has the names. -/
theorem built_root (names : List (List UInt8)) (hna : ∀ name ∈ names, name.length ≤ sfsMaxFnameLen) (hlen : names.length ≤ 20) :
    ∃ s r, Built s r ∧ s.ninos = 64 ∧ r.entries sfsBlknRoot = names.map (sfsBlknRoot, ·) ∧
      ∀ c, c ≠ sfsBlknRoot → r.entries c = [] := by
  have hfi : firstBlock 64 = 3 := rfl
  have hM : sfsLnNblks = 32768 := rfl
  have hcr : createSfs (64 * 4096) (fun _ => 0) (fun _ _ => 0) = .ok (newImage 64 (fun _ => 0) (fun _ _ => 0)) := by
    rw [createSfs_eq, show imageBlocks (64 * 4096) = 64 from rfl, if_neg (by omega)]
  have hb : (Record.root.blocks sfsBlknRoot).length = 0 := rfl
  have hn : (newImage 64 (fun _ => 0) (fun _ _ => 0)).nextIno = 3 := rfl
  have hni : (newImage 64 (fun _ => 0) (fun _ _ => 0)).ninos = 64 := rfl
  exact built_names names (.create hcr) hna (by omega) (by omega)

end MksfsDirAux

/-- The block of an entry is read as the entry exactly when its name has at most 252 bytes, whatever the static entry and the block
held before. A directory of a mounted image round-trips exactly when its entries do and its slots are in the reach of the kernel's
maps. -/
theorem mksfs_dirents {s : Mksfs} {r : Record} {blocks : Nat} (hbuilt : Built s r) (hb : s.ninos ≤ blocks)
    (hnul : ∀ c, ∀ e ∈ r.entries c, 0 ∉ e.2) :
    (∀ (old pre : Nat → UInt8) (ino : Nat) (name : List UInt8), ino < 2 ^ 32 → 0 ∉ name → name.length ≤ sfsMaxFnameLen →
      (SfsEntry.ofBytes (written (fillEntry old ino name) sizeofName pre) = ⟨ino, name⟩ ↔ name.length ≤ 252)) ∧
    ∃ s' vol, closeSfs s = .ok s' ∧ sfsDoMount (device s' blocks) = .ok (0, some vol) ∧
      ∀ c ∈ r.inos, (s.ci c).inode.type = .dir →
        (RoundTrips r vol c ↔ (r.entries c).length ≤ 1036 ∧ ∀ e ∈ r.entries c, e.2.length ≤ 252) := by
  constructor
  · intro old pre ino name hino hname _
    rw [ofBytes_written hino hname]
    simp only [SfsEntry.mk.injEq, true_and]
    exact List.take_eq_self_iff _
  · obtain ⟨h, hl⟩ := built_spec hbuilt
    obtain ⟨s', hclose, hf⟩ := closeSfs_spec h.sound hl
    refine ⟨s', volume s s' blocks, hclose, sfsDoMount_spec h.sound hl hf hb, ?_⟩
    intro c hc ht
    exact ⟨of_roundTrips blocks h hl hf hc ht (hnul c), fun hgood => roundTrips_of blocks h hl hf hc ht (hnul c) hgood.1 hgood.2⟩

/-- The hypotheses hold of a short name, and of an image whose root has the entries that `open_dir` begins with. -/
theorem mksfs_dirents_root :
    ∃ s r, (Built s r ∧ s.ninos = 64 ∧ r.entries sfsBlknRoot = [(1, dotName), (1, dotdotName)]) ∧
      SfsEntry.ofBytes (written (fillEntry (fun _ => 255) 1 [104, 105]) sizeofName fun _ => 255) = ⟨1, [104, 105]⟩ ∧
      ∃ s' vol, closeSfs s = .ok s' ∧ sfsDoMount (device s' 64) = .ok (0, some vol) ∧ RoundTrips r vol sfsBlknRoot := by
  obtain ⟨s, r, hb, hn, he, ho⟩ := built_root [dotName, dotdotName] (by decide) (by decide)
  have hnul : ∀ c, ∀ e ∈ r.entries c, 0 ∉ e.2 := by
    intro c e hm
    by_cases hc : c = sfsBlknRoot
    · rw [hc, he] at hm
      revert e
      decide
    · rw [ho c hc] at hm
      nomatch hm
  obtain ⟨hentry, s', vol, hclose, hmount, hall⟩ := mksfs_dirents hb hn.le hnul
  obtain ⟨h, hl⟩ := built_spec hb
  refine ⟨s, r, ⟨hb, hn, he⟩, ?_, s', vol, hclose, hmount, (hall _ h.sound.root hl.root).mpr ?_⟩
  · exact (hentry _ _ 1 [104, 105] (by decide) (by decide) (by decide)).mpr (by decide)
  · rw [he]
    decide

/-- A name of 253 bytes, of which the last is `b`. -/
def longName (b : UInt8) : List UInt8 := List.replicate sfsWrittenName 97 ++ [b]

namespace MksfsDirAux

variable {b : UInt8}

theorem length_longName : (longName b).length = 253 := by
  rw [longName, List.length_append, List.length_replicate]
  rfl

theorem take_longName : (longName b).take sfsWrittenName = List.replicate sfsWrittenName 97 := List.take_left' List.length_replicate

theorem nul_longName (hb : 0 ≠ b) : 0 ∉ longName b := by
  intro hm
  rcases List.mem_append.mp hm with hm | hm
  · nomatch (List.mem_replicate.mp hm).2
  · exact hb (List.mem_singleton.mp hm)

end MksfsDirAux

/-- Two entries of a directory whose names have 253 bytes and differ in the last: the kernel reads both as the entry with the first
252 bytes. -/
theorem mksfs_dirents_merge : ∃ s r s' vol, Built s r ∧ r.entries sfsBlknRoot = [(1, longName 97), (1, longName 98)] ∧
    closeSfs s = .ok s' ∧ sfsDoMount (device s' 64) = .ok (0, some vol) ∧
    sfsDirentRead sfsBlknRoot 0 vol = .ok (0, ⟨1, List.replicate 252 97⟩, vol) ∧
    sfsDirentRead sfsBlknRoot 1 vol = .ok (0, ⟨1, List.replicate 252 97⟩, vol) := by
  have hlen : ∀ name ∈ [longName 97, longName 98], name.length ≤ sfsMaxFnameLen := by
    intro name hm
    rcases List.mem_pair.mp hm with rfl | rfl <;> rw [length_longName] <;> decide
  obtain ⟨s, r, hb, hn, he, -⟩ := built_root [longName 97, longName 98] hlen (by decide)
  obtain ⟨h, hl⟩ := built_spec hb
  obtain ⟨s', hclose, hf⟩ := closeSfs_spec h.sound hl
  have hread0 := sfsDirentRead_volume 64 (k := 0) (e := (1, longName 97)) h hl hf h.sound.root hl.root
    (by rw [he]; rfl) (by decide) (nul_longName (by decide))
  have hread1 := sfsDirentRead_volume 64 (k := 1) (e := (1, longName 98)) h hl hf h.sound.root hl.root
    (by rw [he]; rfl) (by decide) (nul_longName (by decide))
  rw [take_longName] at hread0 hread1
  exact ⟨s, r, s', volume s s' 64, hb, he, hclose, sfsDoMount_spec h.sound hl hf hn.le, hread0, hread1⟩

end Ucore
