import Ucore.Lemmas.MksfsMount

/-!
# Directories of a mounted image

`write_block` gets `sizeof(entry->name)` bytes of an entry of `sizeof(entry)` bytes, so that the last four bytes of a name are lost
(`ofBytes_written`). The kernel reads every entry that its maps reach (`sfsDirentRead_volume`), and finds a name at the first slot
whose entry has it (`searchSlots_first`).
-/

namespace Ucore

open Checked Ownership Bytes MksfsAux SfsAux

/-- The bytes of a name that `add_entry` writes. -/
def sfsWrittenName : Nat := sizeofName - 4

namespace MksfsDirAux

open Mksfs

variable {s s' : Mksfs} {r : Record} {c i k n ino : Nat} {name : List UInt8} {f old : Nat → UInt8}

/-! ## Names -/

theorem cString_eq {o : Nat} (hlen : name.length < n) (hby : ∀ k < name.length, f (o + k) = name.getD k 0)
    (hnul : f (o + name.length) = 0) (h0 : 0 ∉ name) : cString f o n = name := by
  obtain ⟨m, rfl⟩ : ∃ m, n = name.length + (m + 1) := ⟨n - name.length - 1, by omega⟩
  have hn : slice f o name.length = name := by
    refine List.ext_getElem length_slice ?_
    intro k hk hk'
    simp only [slice, List.getElem_map, List.getElem_range]
    rw [hby k hk', List.getD_eq_getElem?_getD, List.getElem?_eq_getElem hk', Option.getD_some]
  have hr : slice f (o + name.length) (m + 1) = 0 :: slice f (o + name.length + 1) m := by
    rw [Nat.add_comm m 1, slice_append]
    change [f (o + name.length + 0)] ++ _ = _
    rw [Nat.add_zero, hnul]
    rfl
  unfold cString
  rw [slice_append, hn, hr, List.takeWhile_append_of_pos]
  · simp
  · intro b hb
    have hne : b ≠ 0 := by
      rintro rfl
      exact h0 hb
    simp [hne]

theorem toNat_ne_zero {b : UInt8} {bs : List UInt8} (h : 0 ∉ bs) (hb : b ∈ bs) : b.toNat ≠ 0 := by
  intro h0
  have hb0 : b = 0 := UInt8.toNat_inj.mp h0
  exact h (hb0 ▸ hb)

/-- Two strings are compared as equal where they are. -/
theorem strcmp_eq_zero {a b : List UInt8} (ha : 0 ∉ a) (hb : 0 ∉ b) : strcmp a b = 0 ↔ a = b := by
  induction a generalizing b with
  | nil =>
    cases b with
    | nil => simp [strcmp]
    | cons y ys =>
      have hy := toNat_ne_zero hb List.mem_cons_self
      simp only [strcmp, reduceCtorEq, iff_false]
      omega
  | cons x xs ih =>
    cases b with
    | nil =>
      have hx := toNat_ne_zero ha List.mem_cons_self
      simp only [strcmp, reduceCtorEq, iff_false]
      omega
    | cons y ys =>
      rw [strcmp]
      by_cases hxy : x = y
      · rw [if_pos hxy, ih (fun hm => ha (List.mem_cons_of_mem _ hm)) (fun hm => hb (List.mem_cons_of_mem _ hm)), hxy]
        simp
      · have hne : x.toNat ≠ y.toNat := fun he => hxy (UInt8.toNat_inj.mp he)
        simp only [hxy, if_false, List.cons.injEq, false_and, iff_false]
        omega

/-- The first bytes of a filled entry are its number, and then its name. -/
theorem fillEntry_ino (hk : k < 4) : fillEntry old ino name k = byteOf ino k := by
  rw [fillEntry, patch_of_not (by omega), patch_of_mem (by omega) (by omega), Nat.sub_zero]

theorem fillEntry_name (hk : k ≤ name.length) : fillEntry old ino name (4 + k) = name.getD k 0 := by
  rw [fillEntry, patch_of_mem (by omega) (by omega), Nat.add_sub_cancel_left]

/-- The entry that the kernel reads from a block of `add_entry`: the name has at most 252 bytes of the one that was added, whatever
the buffer of the entry and the block held before. -/
theorem ofBytes_written {pre : Nat → UInt8} (hino : ino < 2 ^ 32) (hnul : 0 ∉ name) :
    SfsEntry.ofBytes (written (fillEntry old ino name) sizeofName pre) = ⟨ino, name.take sfsWrittenName⟩ := by
  have hS : sizeofName = 256 := rfl
  have hW : sfsWrittenName = 252 := rfl
  have hM : sfsMaxFnameLen = 255 := rfl
  have hB : sfsBlksize = 4096 := rfl
  have hw : word (written (fillEntry old ino name) sizeofName pre) 0 = ino := by
    refine word_byteOf hino ?_
    intro k hk
    rw [Nat.zero_add, written_of_lt (by omega) (by omega), fillEntry_ino hk]
  have hlen : (name.take sfsWrittenName).length = min sfsWrittenName name.length := List.length_take
  have hcopied : ∀ k < sfsWrittenName, k ≤ name.length →
      written (fillEntry old ino name) sizeofName pre (4 + k) = name.getD k 0 := by
    intro k hk hle
    rw [written_of_lt (by omega) (by omega), fillEntry_name hle]
  have hn : cString (written (fillEntry old ino name) sizeofName pre) 4 sfsMaxFnameLen = name.take sfsWrittenName := by
    refine cString_eq (by omega) ?_ ?_ (fun hm => hnul (List.mem_of_mem_take hm))
    · intro k hk
      rw [hcopied k (by omega) (by omega), List.getD_eq_getElem?_getD, List.getD_eq_getElem?_getD, List.getElem?_take_of_lt (by omega)]
    · rw [hlen]
      by_cases hs : name.length < sfsWrittenName
      · rw [Nat.min_eq_right (by omega), hcopied _ hs le_rfl]
        simp
      · exact written_of_ge (by omega) (by omega)
  unfold SfsEntry.ofBytes
  rw [hw, hn]

/-! ## Entries -/

section Volume

variable (blocks : Nat) (h : s.Tracked r ∅) (hl : s.Linked r) (hf : Flushed s s' r (closed s r)) (hc : c ∈ r.inos)
  (ht : (s.ci c).inode.type = .dir)
include h hl hf hc

/-- The blocks of files and directories are not written when the image is closed. -/
theorem image_data (hk : k < (r.blocks c).length) : s'.image ((r.blocks c).getD k 0) = s.image ((r.blocks c).getD k 0) := by
  have hn : s.named r (.data c k) = (r.blocks c).getD k 0 := if_pos hc
  have h0 := getD_ne_zero hl hk
  obtain ⟨hlow, -, -⟩ := named_facts h.sound (by rw [hn]; exact h0)
  refine hf.outside _ ?_
  rintro (hb | ⟨-, hb⟩ | hb | hb)
  · exact h0 hb
  · omega
  · have hr : (r.blocks c).getD k 0 ≠ sfsBlknRoot := by
      have hp := firstBlock_pos s.ninos
      have h1 : sfsBlknRoot = 1 := rfl
      omega
    have hs : s.named r (.inode ((r.blocks c).getD k 0)) = (r.blocks c).getD k 0 := if_pos ⟨hb, hr⟩
    nomatch named_inj h.sound (by rw [hn]; exact h0) (hn.trans hs.symm)
  · exact (h.sound.listed _ _ hb).2.2 (.data c k) hn

include ht

/-- A slot behind the reach of the kernel's maps stops it. -/
theorem sfsDirentRead_out (hk : k < (r.blocks c).length) (ho : sfsNdirect + sfsBlkNentry ≤ k) :
    sfsDirentRead c k (volume s s' blocks) = .error .indexRange := by
  obtain ⟨hty, -, hb, -⟩ := din_volume blocks h hl hf hc
  unfold sfsDirentRead sfsBmapLoad
  rw [ensure_of ⟨hty.trans ht, by rw [hb]; exact hk⟩, ensure_of (by omega)]
  dsimp only
  rw [sfsBmapGet_out ho]
  rfl

/-- A slot that they reach is read. -/
theorem sfsDirentRead_volume {e : Nat × List UInt8} (he : (r.entries c)[k]? = some e) (hk : k < sfsNdirect + sfsBlkNentry)
    (hnul : 0 ∉ e.2) : sfsDirentRead c k (volume s s' blocks) = .ok (0, ⟨e.1, e.2.take sfsWrittenName⟩, volume s s' blocks) := by
  obtain ⟨hty, -, hb, -⟩ := din_volume blocks h hl hf hc
  obtain ⟨hkb, -⟩ := entry_ne_next h hl he
  have ho := owned_volume blocks h hl hf
  have hfi : (volume s s' blocks).fileBlock c k = (r.blocks c).getD k 0 := fileBlock_volume blocks h hl hf hc hk
  have h0 := getD_ne_zero hl hkb
  obtain ⟨hlt, hfr, -⟩ := data_facts ho hc (by rw [hfi]; exact h0)
  rw [hfi] at hlt hfr
  have hlo : sfsBmapLoad c k (volume s s' blocks) = .ok (0, (r.blocks c).getD k 0, volume s s' blocks) := by
    unfold sfsBmapLoad
    rw [ensure_of (by omega), bind_ok]
    dsimp only
    rw [decide_eq_false (by omega), sfsBmapGet_volume blocks h hl hf hc hk, bind_ok]
    dsimp only
    rw [assertInuse_of ho h0 hlt hfr]
    rfl
  have hm : e ∈ r.entries c := List.mem_of_getElem? he
  have hino : e.1 < 2 ^ 32 := by
    have hlt := inode_lt h.sound hl (hl.targets c e hm).1
    have hh := h.sound.high
    have hmax := h.sound.max
    have hM : sfsMaxNblks = 524288 := rfl
    omega
  obtain ⟨old, pre, him⟩ := hl.image c k e he
  have hby : sfsRbuf 260 ((r.blocks c).getD k 0) 0 (volume s s' blocks) =
      .ok (written (fillEntry old e.1 e.2) sizeofName pre) := by
    unfold sfsRbuf bufInside
    rw [ensure_of (by unfold sfsBlksize; omega), sfsRwblock_of h0 hlt]
    simp only [Nat.zero_add]
    change Except.ok (s'.image _) = _
    rw [image_data h hl hf hc hkb, him]
  unfold sfsDirentRead
  rw [ensure_of ⟨hty.trans ht, by rw [hb]; exact hkb⟩, bind_ok, hlo, bind_ok]
  dsimp only
  rw [assertInuse_of ho h0 hlt hfr, bind_ok, hby, bind_ok, ofBytes_written hino hnul]
  rfl

section Search

variable (hnul : ∀ e ∈ r.entries c, 0 ∉ e.2) (h0 : 0 ∉ name) {e : Nat × List UInt8} {empty : Nat}
include hnul h0

/-- One turn of the loop of the search: the name is compared with what is left of the one in the slot. -/
theorem searchSlots_turn (he : (r.entries c)[i]? = some e) (hi : i < sfsNdirect + sfsBlkNentry) :
    searchSlots c name (n + 1) i empty (volume s s' blocks) =
      if e.2.take sfsWrittenName = name then .ok (0, ⟨some e.1, some i, some empty⟩, volume s s' blocks)
      else searchSlots c name n (i + 1) empty (volume s s' blocks) := by
  have hmem : e ∈ r.entries c := List.mem_of_getElem? he
  have hino : e.1 ≠ 0 := by
    intro hz
    exact hl.zero (hz ▸ (hl.targets c e hmem).1)
  have hcut : 0 ∉ e.2.take sfsWrittenName := fun hm => hnul e hmem (List.mem_of_mem_take hm)
  have hcmp := strcmp_eq_zero h0 hcut
  rw [searchSlots, sfsDirentRead_volume blocks h hl hf hc ht he hi (hnul e hmem), bind_ok]
  dsimp only
  rw [if_neg (by decide), if_neg hino]
  exact if_congr (hcmp.trans eq_comm) rfl rfl

/-- The loop of the search stops at the first slot whose entry has the name. -/
theorem searchSlots_first (he : (r.entries c)[k]? = some e) (hk : k < sfsNdirect + sfsBlkNentry)
    (hcut : e.2.take sfsWrittenName = name)
    (hfi : ∀ j < k, ∀ e', (r.entries c)[j]? = some e' → e'.2.take sfsWrittenName ≠ name) (hi : i ≤ k) (hn : k < i + n) :
    searchSlots c name n i empty (volume s s' blocks) = .ok (0, ⟨some e.1, some k, some empty⟩, volume s s' blocks) := by
  induction n generalizing i with
  | zero => omega
  | succ n ih =>
    obtain ⟨hlen, -⟩ := List.getElem?_eq_some_iff.mp he
    obtain ⟨e', he'⟩ : ∃ e', (r.entries c)[i]? = some e' := ⟨_, List.getElem?_eq_getElem (by omega)⟩
    rw [searchSlots_turn blocks h hl hf hc ht hnul h0 he' (by omega)]
    by_cases hik : i = k
    · subst hik
      cases he.symm.trans he'
      rw [if_pos hcut]
    · rw [if_neg (hfi i (by omega) e' he'), ih (by omega) (by omega)]

/-- It finds nothing where no slot that the maps reach has the name. -/
theorem searchSlots_missing {x : Int × SfsSearch × Sfs}
    (hm : ∀ j < sfsNdirect + sfsBlkNentry, ∀ e', (r.entries c)[j]? = some e' → e'.2.take sfsWrittenName ≠ name)
    (hn : i + n ≤ (r.entries c).length) (hlen : (r.blocks c).length = (r.entries c).length)
    (hr : searchSlots c name n i empty (volume s s' blocks) = .ok x) : x.1 ≠ 0 := by
  induction n generalizing i with
  | zero =>
    rw [← Except.ok.inj hr]
    exact show -eNoent ≠ 0 by decide
  | succ n ih =>
    obtain ⟨e', he'⟩ : ∃ e', (r.entries c)[i]? = some e' := ⟨_, List.getElem?_eq_getElem (by omega)⟩
    by_cases hi : i < sfsNdirect + sfsBlkNentry
    · rw [searchSlots_turn blocks h hl hf hc ht hnul h0 he' hi, if_neg (hm i hi e' he')] at hr
      exact ih (by omega) hr
    · rw [searchSlots, sfsDirentRead_out blocks h hl hf hc ht (by omega) (not_lt.mp hi)] at hr
      cases hr

end Search

end Volume

end MksfsDirAux

end Ucore
