import Ucore.Theorems.Guard

/-!
# What a program header makes

`load_icode` fills the VMA of a program header page by page: from the file up to `p_va + p_filesz`, then with zeros up to
`p_va + p_memsz`, where the last page of the file may be shared by both. `loadSegment_image` says what a header makes that does not
wrap around and for which `mm_map` has found room, where there are free pages for it.
-/

namespace Ucore

open Checked PageAux VmmAux ExecAux

/-- An address space that `load_icode` is filling: what it maps agrees with its VMAs, and every page it has is its own. -/
def Vm.InLoad (s : Vm) : Prop :=
  ∃ pg0 I A0 A, s.Guarded pg0 I ∧ Private pg0 I A0 s.mm.pgdir A s.mem

/-- The reads of a segment's part of the file succeed and give the bytes of `file`. -/
def Reader.Serves (read : Reader) (file : Nat → UInt8) (ph : Proghdr) : Prop :=
  read.Reads ph ∧ ∀ k n, k + n ≤ ph.pFilesz → ∀ i < n, (read ((ph.pOffset + k) % addrSize) n).2 i = file (ph.pOffset + k + i)

/-- The address space `s'` is `s` with the image of a segment: each of its addresses holds its byte of the file or zero, the pages
that meet the segment are new and have its permissions, no other page has changed, and no two pages are mapped to one frame. -/
structure HasImage (file : Nat → UInt8) (ph : Proghdr) (s s' : Vm) : Prop where
  bytes : ∀ i < ph.pMemsz, ∃ frame flags, s'.mem.walk s'.mm.pgdir ((ph.pVa + i) / pgSize) = some (frame, flags) ∧
    s'.mem.bytes frame ((ph.pVa + i) % pgSize) = if i < ph.pFilesz then file (ph.pOffset + i) else 0
  pages : ∀ n, ph.HasPage n →
    s.mem.walk s.mm.pgdir n = none ∧ ∃ frame, s'.mem.walk s'.mm.pgdir n = some (frame, pteP ||| ph.perm)
  others : ∀ n < userPages, ¬ph.HasPage n → s'.mem.walk s'.mm.pgdir n = s.mem.walk s.mm.pgdir n
  once : ∀ n < userPages, ∀ m < userPages, ∀ e e', s'.mem.walk s'.mm.pgdir n = some e → s'.mem.walk s'.mm.pgdir m = some e' →
    e.1 = e'.1 → n = m

/-- The free pages that a segment may take: one for each page that it meets, and one for each page table of these. -/
def Proghdr.needs (ph : Proghdr) : Nat :=
  let pages := Finset.Ico (ph.pVa / pgSize) ((ph.pVa + ph.pMemsz + pgSize - 1) / pgSize)
  pages.card + (pages.image (· / 1024)).card

namespace ExecAux

variable {file : Nat → UInt8} {read : Reader} {ph : Proghdr} {s s' : Vm} {pg0 : Nat → Page} {I A0 : Set Nat}

/-- Wherever a page ends, the bytes of the segment are those of the file in their order. -/
theorem segmentByte_file (hr : read.Serves file ph) (i : Nat) :
    segmentByte read ph (ph.pVa + i) = if i < ph.pFilesz then file (ph.pOffset + i) else 0 := by
  unfold segmentByte pieceByte
  by_cases hi : i < ph.pFilesz
  · rw [if_pos (by omega), if_pos hi]
    have hp : (ph.pVa + i) / pgSize * pgSize ≤ ph.pVa + i ∧ ph.pVa + i < (ph.pVa + i) / pgSize * pgSize + pgSize := by
      unfold pgSize
      omega
    dsimp only
    rw [hr.2 _ _ (by omega) _ (by omega)]
    congr 1
    omega
  · rw [if_neg (by omega), if_neg hi]

theorem takes_segmentPages (hw : ph.NoWrap) : takes (segmentPages ph ph.memEnd) = ph.needs := by
  have hmemEnd : ph.memEnd = ph.pVa + ph.pMemsz := Nat.mod_eq_of_lt hw
  have hr := roundDown_bounds ph.pVa
  have hp : segmentPages ph ph.memEnd = ↑(Finset.Ico (ph.pVa / pgSize) ((ph.pVa + ph.pMemsz + pgSize - 1) / pgSize)) := by
    ext n
    rw [Finset.coe_Ico, Set.mem_Ico, hmemEnd]
    simp only [Pages, Set.mem_ofPred_eq]
    have hpg : pgSize = 4096 := rfl
    rw [hpg] at hr ⊢
    omega
  rw [takes, hp, Set.ncard_coe_finset, ← Finset.coe_image, Set.ncard_coe_finset]
  rfl

theorem hasImage_of_installed (hg : Upholds pg0 I s s') (hw : ph.NoWrap) (hr : read.Serves file ph)
    (h : Installed (siteOf pg0 I A0 ph s) read ph s'.mem) : s'.InLoad ∧ HasImage file ph s s' := by
  obtain ⟨A', hl⟩ := h.loading
  have hl : Loading pg0 I A0 s'.mm.pgdir (imaged read ph ph.memEnd) A' s'.mem := by
    rw [hg.pgdir]
    exact hl
  have hmemEnd : ph.memEnd = ph.pVa + ph.pMemsz := Nat.mod_eq_of_lt hw
  have hp : ∀ n, ph.HasPage n ↔ n ∈ segmentPages ph ph.memEnd := by
    intro n
    rw [hmemEnd]
    exact Iff.rfl
  have hma : ∀ n, ph.HasPage n → n < userPages ∧ s.mem.walk s.mm.pgdir n = none ∧
      ∃ frame, s'.mem.walk s'.mm.pgdir n = some (frame, pteP ||| ph.perm) := by
    intro n hn
    rw [hg.pgdir]
    exact h.mapped n ((hp n).mp hn)
  refine ⟨⟨pg0, I, A0, A', hg.guarded, hl.priv⟩, ?_, fun n hn => (hma n hn).2, ?_, ?_⟩
  · intro i hi
    have hro := roundDown_bounds ph.pVa
    have hn : ph.HasPage ((ph.pVa + i) / pgSize) := by
      unfold Proghdr.HasPage
      have hpg : pgSize = 4096 := rfl
      rw [hpg] at hro ⊢
      omega
    obtain ⟨hu, -, frame, he⟩ := hma _ hn
    have ha : (ph.pVa + i) / 4096 * 4096 + (ph.pVa + i) % 4096 = ph.pVa + i := Nat.div_add_mod' ..
    refine ⟨frame, _, he, ?_⟩
    rw [← segmentByte_file hr]
    refine hl.bytes _ hu _ he ((ph.pVa + i) % 4096) (Nat.mod_lt _ (by decide)) _ ?_
    dsimp only [pgSize]
    rw [ha, imaged, if_pos (by omega)]
  · intro n hn hnot
    rw [hg.pgdir]
    exact h.others n hn (mt (hp n).mpr hnot)
  · exact fun n hn m hm e e' he he' heq => hl.priv.page_once m hm e' he' n hn e he heq

variable {c : Cursor} {A : Set Nat}

/-- A segment that wraps around has a VMA of one page. -/
theorem wrapped_range (hva : ph.pVa < addrSize) (hm : ph.pMemsz < addrSize) (hw : ¬ph.NoWrap)
    (ha : UserAccess (roundDown ph.pVa pgSize) (roundUp ph.memEnd pgSize)) : ph.memEnd + addrSize = ph.pVa + ph.pMemsz ∧
      roundUp ph.memEnd pgSize = roundDown ph.pVa pgSize + 4096 ∧ roundDown ph.pVa pgSize + 4096 ≤ userTop := by
  have hend : ph.memEnd + addrSize = ph.pVa + ph.pMemsz := by
    unfold Proghdr.NoWrap at hw
    rw [Proghdr.memEnd, Nat.mod_eq_sub_mod (not_lt.mp hw), Nat.mod_eq_of_lt (by omega)]
    omega
  obtain ⟨-, hlt, htop⟩ := ha
  have hup : roundUp ph.memEnd pgSize = roundDown ph.pVa pgSize + 4096 := by
    unfold roundUp roundDown pgSize addrSize at *
    omega
  exact ⟨hend, hup, hup ▸ htop⟩

theorem allocLoop_done {d perm : Nat} (put : Put) (hle : stop ≤ c.start) (mem : Memory) :
    allocLoop d perm stop put (c.rounds stop) c mem = .ok (0, c, mem) := by
  rw [Cursor.rounds, allocLoop, if_neg (not_lt.mpr hle)]

/-- Nothing is left to zero: the break is raised. -/
theorem loadBss_done (hle : ph.memEnd ≤ c.start) (s : Vm) :
    ∃ mm, mm.pgdir = s.mm.pgdir ∧ loadBss ph c s = .ok (0, { s with mm := mm }) := by
  refine ⟨raiseBrk ph s.mm, ?_, ?_⟩
  · unfold raiseBrk
    split <;> rfl
  · rw [loadBss, allocLoop_done putZeros hle, bind_ok, if_neg (not_not.mpr rfl)]

section

-- The VMA has one page, and the segment ends before it starts.
variable (h : Private pg0 I A0 s.mm.pgdir A s.mem) (hfree : s.mem.walk s.mm.pgdir (roundDown ph.pVa pgSize / 4096) = none)
  (htop : roundDown ph.pVa pgSize + 4096 ≤ userTop) (hend : ph.memEnd < ph.pVa) (hfile : 0 < ph.pFilesz) (hoffset : ph.pOffset < addrSize)
include h hfree htop hfile hoffset

/-- The first loop, where the part in the file ends in the first page: it is as for a segment that ends there. -/
theorem fileLoop_page (read : Reader) (hf : ph.pVa + ph.pFilesz ≤ roundDown ph.pVa pgSize + 4096) :
    Within (fun e => e = .vm (.mem .swapOut) ∧ s.mem.area.nrFree < 2) (allocLoop s.mm.pgdir ph.perm ph.fileEnd (putFile read)
        (Cursor.rounds ⟨ph.pVa, roundDown ph.pVa pgSize, ph.pOffset, none⟩ ph.fileEnd) ⟨ph.pVa, roundDown ph.pVa pgSize, ph.pOffset, none⟩
        s.mem) fun r =>
      (∀ n < userPages, r.2.2.walk s.mm.pgdir n = s.mem.walk s.mm.pgdir n ∨ n = roundDown ph.pVa pgSize / 4096) ∧
      (read.Reads ph → r.1 = 0 ∨ s.mem.area.nrFree < 2) ∧
      (r.1 = 0 → r.2.1.start = ph.pVa + ph.pFilesz ∧ r.2.1.la = roundDown ph.pVa pgSize + 4096 ∧
        ∃ p < r.2.2.npage, r.2.1.page = some p) := by
  have ht' : roundDown ph.pVa pgSize + 4096 ≤ 2952790016 := htop
  have hro := roundDown_bounds ph.pVa
  have hfileEnd : ph.fileEnd = ph.pVa + ph.pFilesz := Nat.mod_eq_of_lt (by unfold addrSize; omega)
  have hp : ∀ n, roundDown ph.pVa pgSize ≤ n * 4096 → n * 4096 < ph.fileEnd → n = roundDown ph.pVa pgSize / 4096 := by
    intro n hlo hhi
    omega
  have hb : (siteOf pg0 I A0 { ph with pMemsz := ph.pFilesz } s).For { ph with pMemsz := ph.pFilesz } :=
    ⟨fun n => Iff.rfl, perm_lt _, (le_of_eq_of_le hfileEnd hf).trans htop, fun n hn => hp n hn.1 hn.2 ▸ hfree⟩
  have hsh : (siteOf pg0 I A0 { ph with pMemsz := ph.pFilesz } s).Short (segmentPages ph ph.fileEnd) → s.mem.area.nrFree < 2 := by
    refine fun hs => hs.trans_le ((takes_mono (Set.finite_singleton _) fun n hn => hp n hn.1 hn.2).trans ?_)
    rw [takes, Set.image_singleton, Set.ncard_singleton, Set.ncard_singleton]
  refine ((fileLoop_at hb h hfile hfileEnd le_rfl hoffset).weaken fun _ he => ⟨he.1, hsh he.2⟩).mono ?_
  rintro ⟨ret, c, mem⟩ ⟨hg, hgo, hlp⟩
  refine ⟨fun n hn => ?_, fun hr => (hgo hr).imp_right fun hs => hsh hs.2, fun hz => ?_⟩
  · refine (hg.walks _ h.dir n hn).imp_right fun hw => ?_
    obtain ⟨-, ⟨hlo, hhi⟩, -⟩ := hw
    exact hp n hlo hhi
  · obtain ⟨hat, hst, hle, hin⟩ := hlp hz
    have hal := hat.aligned
    have hla : c.la = roundDown ph.pVa pgSize + 4096 := by
      have hle' : ph.fileEnd ≤ c.la := hle
      have hin' : c.la < ph.fileEnd + 4096 := hin
      dsimp only at hal
      omega
    obtain ⟨e, he, hlt⟩ := hat.last (by dsimp only; omega)
    obtain ⟨A', hl⟩ := hat.built.loading
    have hm : c.la / 4096 - 1 ∈ segmentPages ph c.la := ⟨by omega, by omega⟩
    exact ⟨hst.trans hfileEnd, hla, _, hl.priv.inv.inside _ (hl.data (hat.built.mapped _ hm).1 he).1, hlt⟩

include hend

/-- The part in the file ends with the first page, and the loader is done with it. -/
theorem loadPages_page (read : Reader) (hp : ph.pVa + ph.pFilesz = roundDown ph.pVa pgSize + 4096) :
    Within (fun e => e = .vm (.mem .swapOut)) (loadPages read ph s) fun r => ∀ n < userPages,
      r.2.mem.walk r.2.mm.pgdir n = s.mem.walk s.mm.pgdir n ∨ n = roundDown ph.pVa pgSize / 4096 := by
  unfold loadPages
  refine ((fileLoop_page h hfree htop hfile hoffset read hp.le).weaken fun _ he => he.1).bind ?_
  rintro ⟨ret, c, mem⟩ ⟨hw, -, hl⟩
  dsimp only
  split
  · exact hw
  rename_i hr
  obtain ⟨hs, hla, -⟩ := hl (not_not.mp hr)
  dsimp only at hs hla
  have hd : ph.memEnd ≤ c.start := by omega
  obtain ⟨mm, hmm, hb⟩ := loadBss_done hd { s with mem := mem }
  rw [if_neg (by omega), hb]
  exact hmm ▸ hw

/-- Where the part in the file ends before its first page does, the `memset` behind it goes beyond the page. -/
theorem loadPages_overruns (hre : read.Reads ph) (hro : 2 ≤ s.mem.area.nrFree)
    (hpt : ph.pVa + ph.pFilesz < roundDown ph.pVa pgSize + 4096) : loadPages read ph s = .error .overrun := by
  have hrd := roundDown_bounds ph.pVa
  obtain ⟨⟨ret, c, mem⟩, hr, -, hg, hl⟩ :=
    (fileLoop_page h hfree htop hfile hoffset read hpt.le).get fun _ he => absurd he.2 (not_lt.mpr hro)
  obtain rfl : ret = 0 := (hg hre).resolve_right (not_lt.mpr hro)
  obtain ⟨hs, hla, p, hp, hpa⟩ := hl rfl
  dsimp only at hs hla hpa hp
  unfold loadPages
  dsimp only
  rw [hr, bind_ok, if_neg (not_not.mpr rfl), if_pos (by dsimp only; omega), if_neg (by dsimp only; omega)]
  dsimp only
  rw [zeroTail_overrun (hla ▸ htop) (by omega) (by omega) (by omega) hpa hp, bind_error]

omit hend hfile hoffset in
/-- Where the part in the file ends behind its first page, a second one is mapped, whether it can be filled or not. -/
theorem loadPages_strays (read : Reader) (hr : 4 ≤ s.mem.area.nrFree)
    (hn : s.mem.walk s.mm.pgdir (roundDown ph.pVa pgSize / 4096 + 1) = none)
    (hp : roundDown ph.pVa pgSize + 4096 < ph.pVa + ph.pFilesz) (hf : ph.pVa + ph.pFilesz < addrSize)
    (hre : ∀ offset n, (read offset n).1 = if offset = ph.pOffset then 0 else -1) :
    ∃ r, loadPages read ph s = .ok r ∧ r.2.mem.walk r.2.mm.pgdir (roundDown ph.pVa pgSize / 4096 + 1) ≠ none := by
  have ht' : roundDown ph.pVa pgSize + 4096 ≤ 2952790016 := htop
  have hro := roundDown_bounds ph.pVa
  have hfileEnd : ph.fileEnd = ph.pVa + ph.pFilesz := Nat.mod_eq_of_lt hf
  have hm : min (roundDown ph.pVa pgSize + 4096) ph.fileEnd = roundDown ph.pVa pgSize + 4096 := by omega
  have hd : (roundDown ph.pVa pgSize + 4096) / 4096 = roundDown ph.pVa pgSize / 4096 + 1 := by omega
  have hr : ∀ M : Set Nat, M.Finite → M.ncard ≤ 2 → ¬(⟨pg0, I, A0, s.mm.pgdir, ph.perm, fun _ => True, s.mem⟩ : Site).Short M := by
    intro M hfin hM hs
    have hs : s.mem.area.nrFree < M.ncard + ((· / 1024) '' M).ncard := hs
    have him := Set.ncard_image_le hfin (f := (· / 1024))
    omega
  have h0 : Built ⟨pg0, I, A0, s.mm.pgdir, ph.perm, fun _ => True, s.mem⟩ ∅ (fun _ => none) s.mem := Built.start h
  obtain ⟨p, mem1, h1, hw, hl, hr1⟩ := allocLoop_maps (c := ⟨ph.pVa, roundDown ph.pVa pgSize, ph.pOffset, none⟩) h0
    (fun _ => trivial) (perm_lt ph) (Set.notMem_empty _) hfree (hr _ (Set.toFinite _) (by simp)) (by dsimp only; omega)
    (by omega : ph.fileEnd < addrSize) (by dsimp only; omega) hro.2.1 hro.2.2 (putFile read)
    ((ph.fileEnd - roundDown ph.pVa pgSize) / pgSize + 1)
  dsimp only at hw hl hr1
  rw [hm] at hl hr1
  obtain ⟨mem2, hwr, h2, -⟩ := h1.write (Set.mem_insert _ _) hw hl (read ph.pOffset (roundDown ph.pVa pgSize + 4096 - ph.pVa)).2
  obtain ⟨q, mem3, -, hw, -, hr2⟩ := allocLoop_maps
    (c := ⟨roundDown ph.pVa pgSize + 4096, roundDown ph.pVa pgSize + 4096,
      (ph.pOffset + (roundDown ph.pVa pgSize + 4096 - ph.pVa)) % addrSize, some p⟩) h2
    (fun _ => trivial) (perm_lt ph) (by simp [hd]) (by rw [hd]; exact hn)
    (hr _ (Set.toFinite _) ((Set.ncard_insert_le _ _).trans (by simp))) htop
    (by omega : ph.fileEnd < addrSize) (by dsimp only; omega) le_rfl (by dsimp only; omega) (putFile read)
    ((ph.fileEnd - roundDown ph.pVa pgSize) / pgSize)
  dsimp only at hw hr2
  have hse : (ph.pOffset + (roundDown ph.pVa pgSize + 4096 - ph.pVa)) % addrSize ≠ ph.pOffset := by
    unfold addrSize at *
    omega
  have hminus : (-1 : Int) ≠ 0 := by decide
  refine ⟨(-1, { s with mem := mem3 }), ?_, ?_⟩
  · unfold loadPages Cursor.rounds
    dsimp only
    rw [hr1, putFile, hre, if_pos rfl, if_neg (by decide), hwr, bind_ok, bind_ok, if_neg (not_not.mpr rfl), hr2, putFile,
      hre, if_neg hse, if_pos (by decide), bind_ok, if_pos hminus, bind_ok, if_pos hminus]
  · rw [hd] at hw
    rw [hw]
    exact Option.some_ne_none _

end

end ExecAux

/-- A program header with bytes in the file, which does not wrap around and for which `mm_map` makes a VMA: if its part of the
file can be read and there is a free page for each of its pages and their tables, `load_icode` goes on with 0, and the image of the
segment is in memory. No page is written beyond its end, and the assertion behind the partial page holds. -/
theorem loadSegment_image (kmalloc : Nat → Bool) (read : Reader) (file : Nat → UInt8) (ph : Proghdr) (s s1 : Vm) (o : Option Nat)
    (hs : s.InLoad) (htype : ph.pType = elfPtLoad) (hfile : 0 < ph.pFilesz) (hle : ph.pFilesz ≤ ph.pMemsz) (hwrap : ph.NoWrap)
    (hoffset : ph.pOffset < addrSize) (hread : read.Serves file ph)
    (hmap : mmMap kmalloc ph.pVa ph.pMemsz ph.vmFlags s = .ok (0, o, s1)) (hroom : ph.needs ≤ s.mem.area.nrFree) :
    ∃ s', loadSegment kmalloc read ph s = .ok (0, s') ∧ s'.InLoad ∧ HasImage file ph s s' := by
  obtain ⟨pg0, I, A0, A, hg, hpriv⟩ := hs
  rw [loadSegment, if_neg (not_not.mpr htype), if_neg (not_lt.mpr hle), if_neg hfile.ne', hmap, mapError_ok]
  have hspec : Within _ (loadPages read ph s1) _ := loadMapped_spec hg hpriv hwrap hfile hle hoffset hmap
  have hshort : ¬(siteOf pg0 I A0 ph s).Short (segmentPages ph ph.memEnd) := by
    rw [Site.Short, takes_segmentPages hwrap]
    exact not_lt.mpr hroom
  obtain ⟨⟨ret, s'⟩, hr, hu, -, hgood, hinst⟩ := hspec.get fun _ he => hshort he.2
  rcases hgood hread.1 with rfl | hret
  · exact ⟨s', hr, hasImage_of_installed hu hwrap hread (hinst rfl)⟩
  · exact absurd hret.2 hshort

/-- A file whose bytes count up, as it is read. -/
def countingFile : Reader := fun offset _ => (0, fun i => UInt8.ofNat (offset + i))

/-- The memory with one directory set up, in page 2. -/
def withDir (mem : Memory) : Memory := ((setupPgdir mem).toOption.getD (none, mem)).2

/-- An address space to which nothing is mapped yet. -/
def newVm : Vm := ⟨{ mmCreate 0 (fun _ => ⟨0, 0, 0, 0⟩) with pgdir := 2 }, withDir VmmAux.loadMemory, 1⟩

theorem newVm_inLoad : newVm.InLoad := by
  obtain ⟨A, hinv⟩ := inv_of_memReach loadMemory_reach
  have hs : setupPgdir VmmAux.loadMemory = .ok (some 2, withDir VmmAux.loadMemory) := rfl
  obtain ⟨hf, -⟩ := founds_setup 0 (fun _ => ⟨0, 0, 0, 0⟩) 0 hinv hs
  obtain ⟨A', hp⟩ := private_setupPgdir hinv hs
  exact ⟨_, _, _, _, hf.guarded, hp⟩

/-- The segment of eight bytes, four of them from such a file, in a new address space. -/
theorem loadSegment_image_code :
    VmmAux.codeProghdr.needs = 2 ∧ ∃ s', loadSegment (fun _ => true) countingFile VmmAux.codeProghdr newVm = .ok (0, s') ∧
      HasImage UInt8.ofNat VmmAux.codeProghdr newVm s' := by
  have hread : countingFile.Serves UInt8.ofNat VmmAux.codeProghdr := by
    refine ⟨fun _ _ _ => rfl, fun k n hk i _ => ?_⟩
    have hk : k + n ≤ 4 := hk
    change UInt8.ofNat ((4096 + k) % 4294967296 + i) = UInt8.ofNat (4096 + k + i)
    rw [Nat.mod_eq_of_lt (by omega)]
  obtain ⟨s', hr, -, himage⟩ := loadSegment_image (fun _ => true) countingFile UInt8.ofNat VmmAux.codeProghdr newVm _ _
    newVm_inLoad rfl (by decide) (by decide) (by unfold Proghdr.NoWrap; decide) (by decide) hread rfl (by decide +kernel)
  exact ⟨by decide, s', hr, himage⟩

/-- The loader keeps to the VMA that `mm_map` made for a segment: nothing is read or zeroed beyond the end of a page, which would be
`.overrun`, and the pages that it maps lie in the range of the VMA. -/
def Proghdr.StaysIn (kmalloc : Nat → Bool) (read : Reader) (ph : Proghdr) (s s1 : Vm) : Prop :=
  (∀ a, roundDown ph.pVa pgSize ≤ a → a < roundUp ph.memEnd pgSize → s1.mm.Covers [] a ph.vmFlags) ∧
  Within (fun e => e = .vm (.mem .swapOut)) (loadSegment kmalloc read ph s) fun r => ∀ n < userPages,
    r.2.mem.walk r.2.mm.pgdir n = s.mem.walk s.mm.pgdir n ∨
      roundDown ph.pVa pgSize ≤ n * pgSize ∧ (n + 1) * pgSize ≤ roundUp ph.memEnd pgSize

/-- A segment that does not wrap around, or of which nothing is loaded, or whose part in the file wraps around as well or ends with
its first page. -/
def Proghdr.Contained (ph : Proghdr) : Prop :=
  ph.NoWrap ∨ ph.pType ≠ elfPtLoad ∨ ph.pFilesz = 0 ∨ addrSize ≤ ph.pVa + ph.pFilesz ∨
    ph.pVa + ph.pFilesz = roundDown ph.pVa pgSize + pgSize

/-- `mm_map` in a new address space. -/
theorem mmMap_new {addr len : Nat} (flags : Nat) (ha : UserAccess (roundDown addr pgSize) (roundUp ((addr + len) % addrSize) pgSize)) :
    ∃ o s1, mmMap (fun _ => true) addr len flags newVm = .ok (0, o, s1) := by
  have hn : findVma (roundDown addr pgSize) newVm.mm = (none, newVm.mm) := rfl
  unfold mmMap insertVmaStruct
  rw [if_neg (not_not.mpr ha), hn]
  simp [vmaCreate, ensure, ha.2.1, newVm, mmCreate]

/-- A program header whose range `mm_map` accepts: `load_icode` keeps to the VMA of the segment in every run, exactly if the segment
does not wrap around or does so without harm. -/
theorem loader_stays_in_vma (ph : Proghdr) (hva : ph.pVa < addrSize) (hmem : ph.pMemsz < addrSize) (hle : ph.pFilesz ≤ ph.pMemsz)
    (hoffset : ph.pOffset < addrSize) (hacc : UserAccess (roundDown ph.pVa pgSize) (roundUp ph.memEnd pgSize)) :
    ph.Contained ↔ ∀ kmalloc read s o s1, s.InLoad → mmMap kmalloc ph.pVa ph.pMemsz ph.vmFlags s = .ok (0, o, s1) →
      ph.StaysIn kmalloc read s s1 := by
  have hround := roundDown_bounds ph.pVa
  constructor
  · rintro hin kmalloc read s o s1 ⟨pg0, I, A0, A, hg, hpriv⟩ hmap
    have hplaced := mmMap_placed hg hmap
    refine ⟨hplaced.covers, ?_⟩
    unfold loadSegment
    split
    · exact fun n _ => Or.inl rfl
    rename_i htype
    rw [if_neg (not_lt.mpr hle)]
    split
    · exact fun n _ => Or.inl rfl
    rename_i hfile
    rw [hmap, mapError_ok, bind_ok, if_neg (not_not.mpr rfl)]
    dsimp only
    by_cases hwrap : ph.NoWrap
    · refine ((loadMapped_spec hg hpriv hwrap (Nat.pos_of_ne_zero hfile) hle hoffset hmap).weaken fun _ he => he.1).mono ?_
      rintro ⟨ret, s'⟩ ⟨hu, hgrow, -⟩ n hn
      rw [hu.pgdir]
      refine (hgrow.walks _ hpriv.dir n hn).imp_right ?_
      rintro ⟨-, ⟨hlo, hhi⟩, -⟩
      have hal := roundUp_aligned ph.memEnd
      have hend := hplaced.le
      refine ⟨hlo, ?_⟩
      unfold pgSize at *
      omega
    obtain ⟨hend, hup, htop⟩ := wrapped_range hva hmem hwrap hacc
    obtain ⟨hdir, hsame, hfree⟩ := mmMap_site hg hmap
    rw [← hdir, ← hsame] at hpriv hfree ⊢
    rcases hin with hin | hin | hin | hpart | hpart
    · exact absurd hin hwrap
    · exact absurd hin htype
    · exact absurd hin hfile
    · -- neither loop has anything to do
      have hfileEnd : ph.fileEnd ≤ ph.pVa := by
        rw [Proghdr.fileEnd, Nat.mod_eq_sub_mod hpart, Nat.mod_eq_of_lt (by omega)]
        omega
      have hdone : ph.memEnd ≤ ph.pVa := by omega
      obtain ⟨mm, hmm, hbss⟩ := loadBss_done (c := ⟨ph.pVa, roundDown ph.pVa pgSize, ph.pOffset, none⟩) hdone s1
      unfold loadPages
      dsimp only
      rw [allocLoop_done _ hfileEnd, bind_ok, if_neg (not_not.mpr rfl), if_neg (not_lt.mpr hround.2.1), hbss]
      exact fun n _ => Or.inl (hmm ▸ rfl)
    · refine (loadPages_page hpriv (hfree _ (by omega) (by omega)) htop (by omega) (Nat.pos_of_ne_zero hfile) hoffset read hpart).mono ?_
      refine fun r hr n hn => (hr n hn).imp_right ?_
      rintro rfl
      rw [hup]
      unfold pgSize at *
      omega
  · intro hall
    by_contra hno
    simp only [Proghdr.Contained, not_or, not_not, not_le] at hno
    obtain ⟨hwrap, htype, hfile, hfits, hpart⟩ := hno
    obtain ⟨hend, hup, htop⟩ := wrapped_range hva hmem hwrap hacc
    obtain ⟨o, s1, hmap⟩ := mmMap_new ph.vmFlags hacc
    obtain ⟨pg0, I, A0, A, hg, hpriv⟩ := newVm_inLoad
    obtain ⟨hdir, hsame, -⟩ := mmMap_site hg hmap
    have hnone : ∀ n < userPages, s1.mem.walk s1.mm.pgdir n = none := by
      rw [hdir, hsame]
      refine fun n hn => walk_unoccupied hg (fun a f hc => ?_) hn (Nat.zero_le _) (Nat.lt_succ_self _)
      obtain ⟨v, hv, -⟩ := hc
      cases hv
    rw [← hdir, ← hsame] at hpriv
    have hroom : 4 ≤ s1.mem.area.nrFree := by
      rw [hsame]
      decide +kernel
    have hstays : ∀ read, Within (fun e => e = .vm (.mem .swapOut)) (loadPages read ph s1) fun r => ∀ n < userPages,
        r.2.mem.walk r.2.mm.pgdir n = newVm.mem.walk newVm.mm.pgdir n ∨
          roundDown ph.pVa pgSize ≤ n * pgSize ∧ (n + 1) * pgSize ≤ roundUp ph.memEnd pgSize := by
      intro read
      have hs := (hall _ read newVm o s1 newVm_inLoad hmap).2
      rwa [loadSegment, if_neg (not_not.mpr htype), if_neg (not_lt.mpr hle), if_neg hfile, hmap] at hs
    have htop' : roundDown ph.pVa pgSize + 4096 ≤ 2952790016 := htop
    have hn : roundDown ph.pVa pgSize / 4096 + 1 < userPages := by
      unfold userPages userSlots
      omega
    rcases lt_or_gt_of_ne hpart with hpart | hpart
    · have hs := hstays countingFile
      rw [loadPages_overruns hpriv (hnone _ (by omega)) htop (by omega) (Nat.pos_of_ne_zero hfile) hoffset (fun _ _ _ => rfl)
        (by omega) hpart] at hs
      cases hs
    · obtain ⟨r, hrun, hwalk⟩ := loadPages_strays hpriv (hnone _ (by omega)) htop
        (fun offset _ => (if offset = ph.pOffset then 0 else -1, fun _ => 0)) hroom (hnone _ hn) hpart hfits fun _ _ => rfl
      have hs := (hstays _).ok hrun _ hn
      rw [← hdir, ← hsame, hnone _ hn, hup] at hs
      rcases hs with hs | ⟨-, hs⟩
      · exact hwalk hs
      · unfold pgSize at *
        omega

/-- A segment that wraps around and whose one byte in the file is the last of its page. -/
def lastByteProghdr : Proghdr := ⟨elfPtLoad, 4096, 0x200FFF, 1, 0xFFFFFFFF, elfPfR ||| elfPfW⟩

/-- The page of such a segment is mapped in a new address space, and nothing else. -/
theorem loader_stays_in_vma_last : ∃ s', loadSegment (fun _ => true) countingFile lastByteProghdr newVm = .ok (0, s') ∧
    s'.mem.walk 2 0x200 ≠ newVm.mem.walk 2 0x200 ∧ ∀ n < userPages,
      s'.mem.walk s'.mm.pgdir n = newVm.mem.walk 2 n ∨ 0x200000 ≤ n * pgSize ∧ (n + 1) * pgSize ≤ 0x201000 := by
  have hr : loadSegment (fun _ => true) countingFile lastByteProghdr newVm = .ok (0, _) :=
    eq_ok_pair (by decide +kernel) (by decide +kernel)
  have hin : lastByteProghdr.Contained := Or.inr (Or.inr (Or.inr (Or.inr rfl)))
  exact ⟨_, hr, by decide +kernel, ((loader_stays_in_vma lastByteProghdr (by decide) (by decide) (by decide) (by decide)
    (by decide)).mp hin (fun _ => true) countingFile newVm _ _ newVm_inLoad rfl).2.ok hr⟩

/-- A segment that wraps around, and whose bytes from the file end inside its page: `mm_map` makes a VMA of one page for it, and the
`memset` behind the bytes from the file goes far beyond that page. -/
theorem wrapped_segment_overruns : ∃ ph o s1, ph.pFilesz ≤ ph.pMemsz ∧
    mmMap (fun _ => true) ph.pVa ph.pMemsz ph.vmFlags newVm = .ok (0, o, s1) ∧
    s1.mm.layout = [(0x200000, 0x201000, vmWrite ||| vmRead)] ∧
    loadSegment (fun _ => true) countingFile ph newVm = .error .overrun :=
  ⟨⟨elfPtLoad, 4096, 0x200800, 0x400, 0xFFFFFFFF, elfPfR ||| elfPfW⟩, _, _, by decide, rfl, by decide +kernel,
    eq_error_of_errorIs (by decide +kernel)⟩

end Ucore
