import Ucore.Dirent
import Ucore.Lemmas.Sync
import Ucore.Theorems.ReadOnly

/-!
# Listing a directory

The scan of `sfs_getdirentry` counts slots, and the offset of the caller counts used slots: the offset `256 * slot` stands for the used
slot of that number (`sfsGetdirentry_spec`). A call that finds a name moves all its 256 bytes through the `iobuf`, so that the next
call asks for the next used slot (`fileDirent_spec`), and a listing goes through all of them (`listing_spec`).
The call of `FileCall`, which leaves the entry out, is this one (`fileGetdirentry_eq`).
-/

namespace Ucore

open Checked SfsAux Function

namespace Vfs

variable {v : Vfs} {I : Finset Nat} {fix : Set Nat} {i j t : Nat} {fd : Int} {mem : KernelMemory}

/-- A slot that has been taken for a call is given back. -/
theorem release_taken (ho : (v.files t j).status = .opened) (hc : 0 < (v.files t j).openCount) :
    (v.taken t j).fdArrayRelease t j = .ok v := by
  unfold fdArrayRelease File.release settle taken
  rw [files_setFile_self, ensure_of (Or.inl ho), bind_ok, ensure_of (Nat.succ_pos _), bind_ok, pure_eq_ok, mapError_ok, bind_ok]
  dsimp only
  rw [if_neg (by omega)]
  simp [setFile]

/-- `vop_getdirentry` of the calls is that of the listing, less the name: the entry always fits into the buffer. -/
theorem vopGetdirentry_eq (n : Node) (offset : Int) (mem : KernelMemory) (v : Vfs) :
    v.vopGetdirentry n offset mem = (fun r => (r.1, r.2.2.2)) <$> v.vopDirent n (iobufInit 0 sizeofDirentName offset) mem := by
  unfold vopGetdirentry vopDirent
  cases v.vop n .getdirentry with
  | error e => rfl
  | ok u =>
    cases n with
    | dev k => rfl
    | sfs i =>
      simp only [bind_ok]
      change _ = _ <$> ((sfsGetdirentry i offset mem.entry v.sfs).mapError VfsPanic.sfs >>= _)
      cases sfsGetdirentry i offset mem.entry v.sfs with
      | error e => rfl
      | ok r =>
        simp only [mapError_ok, bind_ok]
        split
        · rfl
        · rename_i hr
          rw [not_not.mp hr]
          rfl

/-- The call without the entry is the call of the listing with the entry forgotten. -/
theorem fileGetdirentry_eq (t : Nat) (fd : Int) (mem : KernelMemory) (d : Dirent) (v : Vfs) :
    v.fileGetdirentry t fd d.offset mem = (fun r => (r.1, r.2.2)) <$> v.fileDirent t fd mem d := by
  unfold fileGetdirentry operate fileDirent
  cases fd2file fd (v.files t) with
  | none => rfl
  | some i =>
    dsimp only
    rw [if_pos rfl]
    cases (v.files t i).acquire with
    | error e => rfl
    | ok file =>
      simp only [mapError_ok, bind_ok, vopGetdirentry_eq]
      cases node file with
      | error e => rfl
      | ok n =>
        simp only [bind_ok]
        cases (v.setFile t i file).vopDirent n (iobufInit 0 sizeofDirentName d.offset) mem with
        | error e => rfl
        | ok r =>
          simp only [bind_ok, map_ok]
          cases r.2.2.2.fdArrayRelease t i with
          | error e => rfl
          | ok w => rfl

section

variable (h : v.Ok I fix 0) (hfd : fd2file fd (v.files t) = some j) (hn : (v.files t j).node = some (.sfs i))
  (hdir : (v.vnodes (.sfs i)).ops = .dir) (hcheck : inodeCheck (v.vnodes (.sfs i)))
include h hfd hn hdir hcheck

/-- A call on a directory leaves the state as it was, and moves the offset on by the 256 bytes of a name that it has found. -/
theorem fileDirent_spec (d : Dirent) : v.fileDirent t fd mem d = .ok ((v.sfs.direntry i d.offset mem.entry).1,
      if (v.sfs.direntry i d.offset mem.entry).1 = 0 then
        ⟨int32 (d.offset + 256), (v.sfs.direntry i d.offset mem.entry).2⟩ else d, v) := by
  have ho := fd2file_opened hfd
  obtain ⟨hi, hops⟩ := h.loaded i (h.slot_pos ho hn)
  have hg : sfsGetdirentry i d.offset mem.entry (v.taken t j).sfs = _ :=
    sfsGetdirentry_spec h.mounted hi (hops.mp hdir) d.offset mem.entry
  have hv : (v.taken t j).vop (.sfs i) .getdirentry = .ok () := by
    change (do ensure (Vop.getdirentry ∈ (v.vnodes (.sfs i)).ops.vops) _; ensure (inodeCheck (v.vnodes (.sfs i))) _) = _
    rw [hdir, ensure_of (by decide), bind_ok, ensure_of hcheck]
  have hdirent : (v.taken t j).vopDirent (.sfs i) (iobufInit 0 sizeofDirentName d.offset) mem =
      .ok ((v.sfs.direntry i d.offset mem.entry).1, if (v.sfs.direntry i d.offset mem.entry).1 = 0 then
          (v.sfs.direntry i d.offset mem.entry).2 else [],
        if (v.sfs.direntry i d.offset mem.entry).1 = 0 then ⟨256, d.offset + (256 : Nat), 256, 0⟩
          else iobufInit 0 sizeofDirentName d.offset, v.taken t j) := by
    unfold vopDirent
    rw [hv, bind_ok]
    dsimp only [iobufInit]
    rw [hg, mapError_ok, bind_ok]
    by_cases h0 : (v.sfs.direntry i d.offset mem.entry).1 = 0
    · have hm : iobufMoveOut ⟨0, d.offset, sizeofDirentName, sizeofDirentName⟩ sfsDentrySize =
          (0, ⟨256, d.offset + (256 : Nat), 256, 0⟩) := by simp [iobufMoveOut, sizeofDirentName, sfsDentrySize]
      simp only [h0, if_true, ne_eq, not_true_eq_false, if_false, hm]
      rfl
    · simp only [h0, if_false, ne_eq, not_false_eq_true, if_true]
      rfl
  unfold fileDirent
  rw [hfd]
  dsimp only
  rw [acquire_opened hfd, bind_ok, node_acquired hn]
  change (v.taken t j).vopDirent _ _ _ >>= _ = _
  rw [hdirent, bind_ok]
  rw [release_taken ho (h.slots t j ho).1]
  by_cases h0 : (v.sfs.direntry i d.offset mem.entry).1 = 0
  · simp only [h0, if_true]
    rfl
  · simp only [h0, if_false]
    rfl

/-- The listing from the used slot `slot` on. -/
theorem listing_spec (hm : mem.entry = true) (rounds slot : Nat) (name : List UInt8) (hs : slot ≤ (v.sfs.used i).length)
    (hr : (v.sfs.used i).length < slot + rounds) :
    v.listing t fd mem rounds ⟨(256 * slot : Nat), name⟩ = .ok (((v.sfs.used i).drop slot).map (·.name), -eNoent, v) := by
  have hi := (h.loaded i (h.slot_pos (fd2file_opened hfd) hn)).1
  have hsm : (v.sfs.used i).length ≤ 12 + 1024 := (used_length_le v.sfs i).trans (blocks_le (h.mounted.dense i hi))
  induction rounds generalizing slot name with
  | zero => omega
  | succ rounds ih =>
    have he : v.sfs.direntry i (256 * slot : Nat) mem.entry =
        (v.sfs.used i)[slot]?.elim (-eNoent, []) fun e => (0, e.name) := by
      have hd : ((256 * slot : Nat) : Int).toNat / sfsDentrySize = slot := by
        exact Nat.mul_div_cancel_left slot (by decide)
      unfold Sfs.direntry
      rw [if_neg (by rw [hm]; decide), if_neg (by unfold sfsDentrySize; omega), hd]
    rw [listing, fileDirent_spec h hfd hn hdir hcheck, bind_ok, he]
    rcases Nat.lt_or_ge slot (v.sfs.used i).length with hlt | hge
    · rw [List.getElem?_eq_getElem hlt]
      have hne : int32 (((256 * slot : Nat) : Int) + 256) = (256 * (slot + 1) : Nat) := by
        rw [int32_of_small (by omega) (by omega)]
        omega
      simp only [Option.elim_some, ne_eq, not_true_eq_false, if_false, if_true, hne]
      rw [ih (slot + 1) _ hlt (by omega), List.drop_eq_getElem_cons hlt]
      rfl
    · rw [List.getElem?_eq_none hge, List.drop_eq_nil_of_le hge]
      rfl

end

end Vfs

/-- For every directory that is open in a state between two calls, with any pattern of used and empty slots: with memory for the entry,
a listing from offset 0 yields the names of the used slots in the order of the slots and ends with `-E_NOENT`, and an offset that is
negative or no multiple of 256 gives `-E_INVAL`; without that memory any call returns `-E_NO_MEM` first. Nothing changes. -/
theorem listing_complete {v : Vfs} {I : Finset Nat} {fix : Set Nat} (h : v.Ok I fix 0) (t : Nat) (fd : Int) (j i : Nat)
    (hfd : fd2file fd (v.files t) = some j) (hn : (v.files t j).node = some (.sfs i)) (hdir : (v.vnodes (.sfs i)).ops = .dir)
    (hcheck : Vfs.inodeCheck (v.vnodes (.sfs i))) (mem : KernelMemory) :
    (mem.entry = true → ∀ name rounds, (v.sfs.used i).length < rounds →
      v.listing t fd mem rounds ⟨0, name⟩ = .ok ((v.sfs.used i).map (·.name), -eNoent, v)) ∧
    (mem.entry = true → ∀ d : Dirent, d.offset < 0 ∨ d.offset % sfsDentrySize ≠ 0 →
      v.fileDirent t fd mem d = .ok (-eInval, d, v)) ∧
    (mem.entry = false → ∀ d : Dirent, v.fileDirent t fd mem d = .ok (-eNoMem, d, v)) := by
  refine ⟨?_, ?_, ?_⟩
  · intro hmem name rounds hrounds
    exact Vfs.listing_spec h hfd hn hdir hcheck hmem rounds 0 name (Nat.zero_le _) (by omega)
  · intro hmem d hd
    have hr : v.sfs.direntry i d.offset mem.entry = (-eInval, []) := by
      unfold Sfs.direntry
      rw [if_neg (by rw [hmem]; decide), if_pos hd]
    rw [Vfs.fileDirent_spec h hfd hn hdir hcheck, hr]
    rfl
  · intro hmem d
    have hr : v.sfs.direntry i d.offset mem.entry = (-eNoMem, []) := if_pos hmem
    rw [Vfs.fileDirent_spec h hfd hn hdir hcheck, hr]
    rfl

/-- The root is opened and listed: its one file is `a`. -/
theorem listing_complete_root : ∃ v, CalmReach (shelfVfs (shelf (smallFile 0 0))) v ∧
    v.listing 0 0 .all 2 ⟨0, []⟩ = .ok ((v.sfs.used 1).map (·.name), -eNoent, v) ∧ (v.sfs.used 1).map (·.name) = [[97]] := by
  have hopen : (shelfVfs (shelf (smallFile 0 0))).call 0 (.open [47] 0 .all) = .ok _ := eq_ok_okGet (by decide +kernel)
  have hok := Vfs.call_ok VfsAux.shelfVfs_ok (c := .open [47] 0 .all) trivial hopen
  refine ⟨_, .step 0 (.open [47] 0 .all) .start hopen trivial, ?_, by decide +kernel⟩
  exact (listing_complete hok 0 0 0 1 (by decide +kernel) (by decide +kernel) (by decide +kernel) (by decide +kernel) .all).1 rfl [] 2
    (by decide +kernel)

/-- The root is opened; without memory for the entry, the negative offset gives `-E_NO_MEM`. -/
theorem negative_offset_no_memory : ∃ v r, CalmReach (shelfVfs (shelf (smallFile 0 0))) v ∧
    v.fileDirent 0 0 ⟨true, false, true⟩ ⟨-1, []⟩ = .ok (-eNoMem, r) :=
  ⟨_, _, .step 0 (.open [47] 0 .all) .start (eq_ok_okGet (by decide +kernel)) trivial,
    eq_ok_pair (by decide +kernel) (by decide +kernel)⟩

end Ucore
