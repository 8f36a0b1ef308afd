import Mathlib.Order.Interval.Finset.Nat
import Ucore.Lemmas.SfsGrow
import Ucore.Theorems.Sfs

/-!
# Regular files are byte strings

Reads, writes, truncations to nothing and extensions of regular files, one after the other. The bytes of the files (`Sfs.files`)
change as those of byte strings do (`FileStep`), as long as no extension reaches behind the last block that a map has room for
(`sfs_files_refine_strings`). `sfs_tryseek` accepts more than that, and the kernel panics (`sfs_extension_out_of_range`).
-/

namespace Ucore

open Checked Bytes Function

/-! ## The abstract files -/

/-- The operations on regular files. -/
inductive FileOp
  | read (sin : Nat) (buf : Nat → UInt8) (offset len : Nat)
  | write (sin : Nat) (buf : Nat → UInt8) (offset len : Nat)
  | truncate (sin : Nat)
  | extend (sin pos : Nat)

/-- The file of an operation. -/
def FileOp.sin : FileOp → Nat
  | .read sin _ _ _ => sin
  | .write sin _ _ _ => sin
  | .truncate sin => sin
  | .extend sin _ => sin

/-- What an operation returns: its return value, and the bytes that a read brought, or the number of bytes that a write moved. -/
inductive FileReply
  | bytes (ret : Int) (bytes : List UInt8)
  | moved (ret : Int) (alen : Nat)
  | done (ret : Int)

/-- A byte string with the bytes `new` at `offset`; it gets longer where they reach over its end. -/
def overwrite (old : List UInt8) (offset : Nat) (new : List UInt8) : List UInt8 :=
  old.take offset ++ new ++ old.drop (offset + new.length)

/-- The operations on byte strings. A write may stop early where `exhausted` holds. -/
inductive FileStep (exhausted : Prop) (files : Nat → List UInt8) : FileOp → FileReply → (Nat → List UInt8) → Prop
  | read (sin : Nat) (buf : Nat → UInt8) (offset len : Nat) :
    FileStep exhausted files (.read sin buf offset len) (.bytes 0 (((files sin).drop offset).take len)) files
  | write (sin : Nat) (buf : Nat → UInt8) (offset len : Nat) :
    FileStep exhausted files (.write sin buf offset len) (.moved 0 len)
      (update files sin (overwrite (files sin) offset (slice buf 0 len)))
  | cut (sin : Nat) (buf : Nat → UInt8) (offset len a : Nat) : exhausted → a < len →
    FileStep exhausted files (.write sin buf offset len) (.moved (-eNoMem) a)
      (update files sin (overwrite (files sin) offset (slice buf 0 a)))
  | truncate (sin : Nat) : FileStep exhausted files (.truncate sin) (.done 0) (update files sin [])
  | extend (sin pos : Nat) : FileStep exhausted files (.extend sin pos) (.done 0)
      (update files sin (files sin ++ List.replicate (pos - (files sin).length) 0))

/-! ## The files of a volume -/

namespace Sfs

/-- The bytes of a file. -/
def contents (s : Sfs) (i : Nat) : List UInt8 := slice (s.image i) 0 (s.din i).size

/-- The bytes of the files of `I`. -/
def files (s : Sfs) (I : Finset Nat) (i : Nat) : List UInt8 := if i ∈ I then s.contents i else []

/-- A regular file: it has the blocks that its size needs and no others, and zeros after its last byte. -/
structure Regular (s : Sfs) (i : Nat) : Prop where
  dense : s.Dense i
  blocks : (s.din i).blocks = ((s.din i).size + sfsBlksize - 1) / sfsBlksize
  tail : ∀ p, (s.din i).size ≤ p → s.image i p = 0

/-- Every block is free or owned once, and the regular files are well formed. -/
structure Volume (s : Sfs) (I : Finset Nat) (fix : Set Nat) : Prop where
  owned : s.Owned I fix
  regular : ∀ i ∈ I, (s.din i).type = .file → s.Regular i

end Sfs

/-- One operation. -/
def stepFile (s : Sfs) : FileOp → Except SfsPanic (FileReply × Sfs)
  | .read sin buf offset len => do
    let (ret, alen, buf, s) ← sfsIo sin buf offset len false s
    return (.bytes ret (slice buf 0 alen), s)
  | .write sin buf offset len => do
    let (ret, alen, _, s) ← sfsIo sin buf offset len true s
    return (.moved ret alen, s)
  | .truncate sin => do
    let (ret, s) ← sfsTruncfile sin 0 s
    return (.done ret, s)
  | .extend sin pos => do
    let (ret, s) ← sfsTryseek sin pos s
    return (.done ret, s)

/-- The operations on the regular files of `I`: transfers from within a file, to an end that a map has room for, and extensions for
which enough blocks are free. -/
structure FileOp.Allowed (s : Sfs) (I : Finset Nat) (op : FileOp) : Prop where
  mem : op.sin ∈ I
  file : (s.din op.sin).type = .file
  args : match op with
    | .read sin _ offset len => offset ≤ (s.din sin).size ∧ offset + len ≤ (sfsNdirect + sfsBlkNentry) * sfsBlksize
    | .write sin _ offset len => offset ≤ (s.din sin).size ∧ offset + len ≤ (sfsNdirect + sfsBlkNentry) * sfsBlksize
    | .truncate _ => True
    | .extend sin pos => (s.din sin).size < pos ∧
      s.extra sin ((pos + sfsBlksize - 1) / sfsBlksize - (s.din sin).blocks) ≤ s.free.card

/-- An extension ends where a map has room. -/
def FileOp.Fits : FileOp → Prop
  | .extend _ pos => pos ≤ (sfsNdirect + sfsBlkNentry) * sfsBlksize
  | _ => True

/-- The volumes that operations lead to which are allowed and fit. -/
inductive FileReach (I : Finset Nat) (s₀ : Sfs) : Sfs → Prop
  | start : FileReach I s₀ s₀
  | step {s s' : Sfs} {reply : FileReply} (op : FileOp) : FileReach I s₀ s → op.Allowed s I → op.Fits →
      stepFile s op = .ok (reply, s') → FileReach I s₀ s'

namespace SfsAux

open Sfs

variable {s s' : Sfs} {I : Finset Nat} {fix : Set Nat} {i sin offset len pos : Nat} {buf : Nat → UInt8}

theorem contents_congr (hs : (s'.din i).size = (s.din i).size) (him : ∀ p, s'.image i p = s.image i p) :
    s'.contents i = s.contents i := by
  unfold contents
  rw [hs]
  exact slice_congr fun k _ => him _

/-- An operation on one file leaves the other files. -/
theorem files_update {l : List UInt8} (ho : Others s s' I fix sin) (hs : sin ∈ I) (hl : s'.contents sin = l) :
    s'.files I = update (s.files I) sin l := by
  funext i
  by_cases hi : i = sin
  · rw [hi, update_self, ← hl]
    exact if_pos hs
  · rw [update_of_ne hi]
    unfold files
    by_cases hI : i ∈ I
    · rw [if_pos hI, if_pos hI]
      refine contents_congr ?_ (ho.images i hI hi)
      unfold din
      rw [ho.inodes i hi]
    · rw [if_neg hI, if_neg hI]

theorem files_eq (hs : sin ∈ I) : s.files I sin = s.contents sin := if_pos hs

section

variable (h : s.Volume I fix)
include h

/-- An operation on a regular file keeps the volume where it keeps the file well formed. -/
theorem volume_of (ho : Others s s' I fix sin) (hr : s'.Regular sin) : s'.Volume I fix := by
  refine ⟨ho.owned, ?_⟩
  intro i hi ht
  by_cases his : i = sin
  · rw [his]
    exact hr
  · have hd : s'.din i = s.din i := by
      unfold din
      rw [ho.inodes i his]
    have hold := h.regular i hi (hd ▸ ht)
    refine ⟨?_, ?_, ?_⟩
    · intro k
      rw [ho.maps i hi his k, hd]
      exact hold.dense k
    · rw [hd]
      exact hold.blocks
    · intro p hp
      rw [ho.images i hi his p]
      exact hold.tail p (hd ▸ hp)

/-! ## Transfers -/

omit h in
theorem Regular.size_le (h : s.Regular sin) : (s.din sin).size ≤ (s.din sin).blocks * sfsBlksize := by
  rw [h.blocks]
  unfold sfsBlksize
  omega

/-- A read returns the bytes of the file, and changes nothing. -/
theorem step_read (hop : (FileOp.read sin buf offset len).Allowed s I) :
    stepFile s (.read sin buf offset len) = .ok (.bytes 0 (((s.contents sin).drop offset).take len), s) := by
  have ht : (s.din sin).type = .file := hop.file
  have hs : sin ∈ I := hop.mem
  obtain ⟨ho, he⟩ : offset ≤ (s.din sin).size ∧ offset + len ≤ _ := hop.args
  have hr := h.regular sin hs ht
  have hslice : ((s.contents sin).drop offset).take len = slice (s.image sin) offset (min len ((s.din sin).size - offset)) := by
    unfold contents
    rw [drop_slice, Nat.zero_add]
    by_cases hle : len ≤ (s.din sin).size - offset
    · rw [Nat.min_eq_left hle, take_slice hle]
    · rw [Nat.min_eq_right (by omega), List.take_of_length_le (by rw [length_slice]; omega)]
  have hm : min (offset + len) (s.din sin).size - offset = min len ((s.din sin).size - offset) := by omega
  have hmax : offset + len < sfsMaxFileSize := he.trans_lt (by decide)
  simp only [stepFile]
  rw [hslice, sfsIo_read buf ht (endpos_eq (hmax.trans (by decide))) (by omega) h.owned hs hr.dense (Regular.size_le hr)
    (Nat.le_add_right _ _), bind_ok, hm]
  generalize min len ((s.din sin).size - offset) = m
  have hb : slice (patch buf 0 m fun k => s.image sin (offset + k)) 0 m = slice (s.image sin) offset m := by
    refine slice_congr ?_
    intro k hk
    rw [patch_of_mem (by omega) (by omega)]
    exact congrArg (s.image sin) (by omega)
  simp only [pure_eq_ok]
  rw [hb]

omit h in
/-- A write that moved `m` bytes has replaced those of the file. -/
theorem wrote_spec {m : Nat} (hr : s.Regular sin) (ho : offset ≤ (s.din sin).size)
    (hw : Moves true buf s s' I fix sin offset m) : s'.Regular sin ∧
      s'.contents sin = overwrite (s.contents sin) offset (slice buf 0 m) ∧
      (offset + m = max offset (s.limit sin * sfsBlksize) → s'.Exhausted sin) := by
  have hpos : offset ≤ (s.din sin).blocks * sfsBlksize := Nat.le_trans ho (Regular.size_le hr)
  have him : s'.image sin = patch (s.image sin) offset m buf := hw.image
  refine ⟨⟨hw.dense, ?_, ?_⟩, ?_, ?_⟩
  · rw [hw.blocks_max hpos, hw.size, hr.blocks]
    unfold sfsBlksize
    omega
  · intro p hp
    rw [hw.size] at hp
    rw [him, patch_of_not (by omega)]
    exact hr.tail p (by omega)
  · unfold contents overwrite
    rw [hw.size, him, slice_patch ho, length_slice]
  · intro hm
    have hle := blocks_le_limit hr.dense
    refine lt_need_iff.mpr ?_
    rw [hw.limit, hw.blocks_max hpos]
    unfold sfsBlksize at hm hpos ⊢
    omega

/-- A write replaces bytes of its file, all of them unless too few blocks are free. -/
theorem step_write (hop : (FileOp.write sin buf offset len).Allowed s I) :
    ∃ reply s', stepFile s (.write sin buf offset len) = .ok (reply, s') ∧ s'.Volume I fix ∧
      FileStep (s'.Exhausted sin) (s.files I) (.write sin buf offset len) reply (s'.files I) := by
  have ht : (s.din sin).type = .file := hop.file
  have hs : sin ∈ I := hop.mem
  obtain ⟨ho, he⟩ : offset ≤ (s.din sin).size ∧ offset + len ≤ _ := hop.args
  have hr := h.regular sin hs ht
  have hmax : offset + len < sfsMaxFileSize := Nat.lt_of_le_of_lt he (by decide)
  have hmin : min (offset + len) sfsMaxFileSize = offset + len := by omega
  have hsi := Regular.size_le hr
  obtain ⟨r, hio, hsp⟩ := sfsIo_write buf ht (endpos_eq (Nat.lt_trans hmax (by decide))) (by omega) h.owned hs
    hr.dense (by omega) ho (Nat.le_add_right _ _)
  rw [hmin] at hsp
  -- the step for what was moved
  have hd : ∀ (ret : Int) (t : Transfer) (m : Nat), Carried true ⟨s, buf, 0⟩ t I fix sin offset m → r = .ok (ret, t) →
      FileStep ((growSize sin offset t).Exhausted sin) (s.files I) (.write sin buf offset len) (.moved ret m)
        (update (s.files I) sin (overwrite (s.files I sin) offset (slice buf 0 m))) →
      ∃ reply s', stepFile s (.write sin buf offset len) = .ok (reply, s') ∧ s'.Volume I fix ∧
        FileStep (s'.Exhausted sin) (s.files I) (.write sin buf offset len) reply (s'.files I) := by
    rintro ret t m hc rfl hst
    obtain ⟨ha, -, hw⟩ := hc.moves
    obtain ⟨hr', hco, -⟩ := wrote_spec hr ho hw
    have hf := files_update hw.toOthers hs hco
    rw [← files_eq hs] at hf
    refine ⟨.moved ret m, growSize sin offset t, ?_, volume_of h hw.toOthers hr', hf ▸ hst⟩
    simp only [stepFile]
    rw [hio, map_ok, bind_ok]
    change Except.ok (FileReply.moved ret t.alen, growSize sin offset t) = _
    rw [ha]
  cases hsp with
  | @all t m hm hc =>
    obtain rfl : m = len := by omega
    exact hd 0 t m hc rfl (.write sin buf offset m)
  | @short t m hlt hm _ hc =>
    obtain ⟨-, -, hex⟩ := wrote_spec hr ho hc.moves.2.2
    exact hd (-eNoMem) t m hc rfl (.cut sin buf offset len m (hex hm) (by omega))
  | out _ hlt => exact absurd he (Nat.not_le.mpr hlt)

/-! ## Lengths -/

/-- `sfs_truncfile` on a well-formed file to a length for which there are blocks, and which the map has room for. -/
theorem truncfile_regular (hsin : sin ∈ I) (hr : s.Regular sin) (hm : pos ≤ (sfsNdirect + sfsBlkNentry) * sfsBlksize)
    (hlim : (pos + sfsBlksize - 1) / sfsBlksize ≤ s.limit sin) (hl : pos = 0 ∨ (s.din sin).size ≤ pos) :
    ∃ s', sfsTruncfile sin pos s = .ok (0, s') ∧ Others s s' I fix sin ∧ s'.Regular sin ∧
      s'.contents sin = slice (s.image sin) 0 pos := by
  have hsp := sfsTruncfile_spec h.owned hsin hr.dense (Nat.le_trans hm (by decide))
  generalize sfsTruncfile sin pos s = r at hsp
  cases hsp with
  | mismatch hs hb =>
    rw [← hs] at hb
    exact absurd hr.blocks.symm hb
  | same hs hb =>
    refine ⟨s, rfl, Others.refl h.owned, hr, ?_⟩
    unfold contents
    rw [hs]
  | @done s' ho hd hb hs _ _ him =>
    refine ⟨s', rfl, ho, ⟨hd, by rw [hb, hs], ?_⟩, ?_⟩
    · intro p hp
      rw [hs] at hp
      rw [him p]
      split
      · rename_i hlt
        refine hr.tail p ?_
        unfold sfsBlksize at hlt
        omega
      · rfl
    · unfold contents
      rw [hs]
      refine slice_congr fun k hk => ?_
      rw [him, if_pos]
      unfold sfsBlksize
      omega
  | short hlt => exact absurd hlim (Nat.not_le.mpr hlt)
  | out _ hlt =>
    refine absurd hlt (Nat.not_lt.mpr ?_)
    unfold sfsBlksize at hm ⊢
    omega

/-- A truncation to nothing empties its file. -/
theorem step_truncate (hop : (FileOp.truncate sin).Allowed s I) :
    ∃ reply s', stepFile s (.truncate sin) = .ok (reply, s') ∧ s'.Volume I fix ∧
      ∀ exhausted, FileStep exhausted (s.files I) (.truncate sin) reply (s'.files I) := by
  have hs : sin ∈ I := hop.mem
  obtain ⟨s', hr, ho, hr', hc⟩ := truncfile_regular h hs (h.regular sin hs hop.file) (Nat.zero_le _) (Nat.zero_le _) (Or.inl rfl)
  refine ⟨.done 0, s', ?_, volume_of h ho hr', ?_⟩
  · simp only [stepFile]
    rw [show sfsTruncfile sin 0 s = .ok (0, s') from hr]
    rfl
  · intro exhausted
    rw [files_update ho hs hc]
    exact .truncate sin

/-- An extension appends zeros. -/
theorem step_extend (hop : (FileOp.extend sin pos).Allowed s I) (hfit : (FileOp.extend sin pos).Fits) :
    ∃ reply s', stepFile s (.extend sin pos) = .ok (reply, s') ∧ s'.Volume I fix ∧
      ∀ exhausted, FileStep exhausted (s.files I) (.extend sin pos) reply (s'.files I) := by
  have hs : sin ∈ I := hop.mem
  obtain ⟨hlt, hf⟩ : (s.din sin).size < pos ∧ _ := hop.args
  have hm : pos ≤ (sfsNdirect + sfsBlkNentry) * sfsBlksize := hfit
  have hreg := h.regular sin hs hop.file
  have hc : slice (s.image sin) 0 pos = s.contents sin ++ List.replicate (pos - (s.contents sin).length) 0 := by
    obtain ⟨n, rfl⟩ := Nat.exists_eq_add_of_le (Nat.le_of_lt hlt)
    unfold contents
    rw [slice_append, length_slice, Nat.add_sub_cancel_left]
    exact congrArg (_ ++ ·) (slice_zeros fun k _ => hreg.tail _ (by omega))
  have hl := extra_le_iff.mp hf
  obtain ⟨s', hr, ho, hr', hcont'⟩ := truncfile_regular h hs hreg hm (by omega) (Or.inr (Nat.le_of_lt hlt))
  have hse : sfsTryseek sin pos s = .ok (0, s') := by
    have hb : pos < sfsMaxFileSize := Nat.lt_of_le_of_lt hm (by decide)
    unfold sfsTryseek
    rw [if_neg (by omega), if_pos (by omega), hr]
  refine ⟨.done 0, s', ?_, volume_of h ho hr', ?_⟩
  · simp only [stepFile]
    rw [hse]
    rfl
  · intro exhausted
    rw [files_update ho hs (hcont'.trans hc), ← files_eq hs]
    exact .extend sin pos

/-- One operation is one of the byte strings, and keeps the volume. -/
theorem stepFile_refines (op : FileOp) (hop : op.Allowed s I) (hf : op.Fits) :
    ∃ reply s', stepFile s op = .ok (reply, s') ∧ s'.Volume I fix ∧
      FileStep (s'.Exhausted op.sin) (s.files I) op reply (s'.files I) := by
  cases op with
  | read sin buf offset len =>
    refine ⟨_, s, step_read h hop, h, ?_⟩
    rw [← files_eq (s := s) (show sin ∈ I from hop.mem)]
    exact .read sin buf offset len
  | write sin buf offset len => exact step_write h hop
  | truncate sin =>
    obtain ⟨reply, s', hr, hv, hs⟩ := step_truncate h hop
    exact ⟨reply, s', hr, hv, hs _⟩
  | extend sin pos =>
    obtain ⟨reply, s', hr, hv, hs⟩ := step_extend h hop hf
    exact ⟨reply, s', hr, hv, hs _⟩

end

end SfsAux

/-- From a volume with well-formed regular files, operations on them that are allowed, with extensions that fit into a map, lead to
such volumes, and each of them is the operation on byte strings: a read returns the bytes of the file, a write replaces them (all
that were asked for, unless too few blocks are free), a truncation empties the file and an extension appends zeros. The other files
stay as they are. -/
theorem sfs_files_refine_strings {s₀ s : Sfs} {I : Finset Nat} {fix : Set Nat} (h : s₀.Volume I fix) (hr : FileReach I s₀ s) :
    s.Volume I fix ∧ ∀ op : FileOp, op.Allowed s I → op.Fits →
      ∃ reply s', stepFile s op = .ok (reply, s') ∧ FileStep (s'.Exhausted op.sin) (s.files I) op reply (s'.files I) := by
  have hs : s.Volume I fix := by
    induction hr with
    | start => exact h
    | step op _ hop hfit hstep ih =>
      obtain ⟨reply, s', hrun, hv, -⟩ := SfsAux.stepFile_refines ih op hop hfit
      rw [hrun] at hstep
      obtain rfl := (Prod.mk.inj (Except.ok.inj hstep)).2
      exact hv
  refine ⟨hs, ?_⟩
  intro op hop hfit
  obtain ⟨reply, s', hrun, -, hstep⟩ := SfsAux.stepFile_refines hs op hop hfit
  exact ⟨reply, s', hrun, hstep⟩

/-- Three bytes are written to the empty file of the small volume. -/
theorem sfs_files_refine_strings_small : ∃ reply s', stepFile (smallVolume (smallFile 0 0)) (.write 4 (fun _ => 7) 0 3) = .ok (reply, s') ∧
    FileStep (s'.Exhausted 4) ((smallVolume (smallFile 0 0)).files {1, 4}) (.write 4 (fun _ => 7) 0 3) reply (s'.files {1, 4}) := by
  have hblock : ∀ k, (smallVolume (smallFile 0 0)).fileBlock 4 k = 0 := fun k => SfsAux.smallVolume_fileBlock 4 k (Or.inr rfl)
  have hv : (smallVolume (smallFile 0 0)).Volume {1, 4} {0, 1, 2, 4} := by
    refine ⟨SfsAux.smallVolume_owned, ?_⟩
    intro i hi htype
    rcases (by simpa using hi : i = 1 ∨ i = 4) with rfl | rfl
    · nomatch htype
    · refine ⟨?_, rfl, ?_⟩
      · intro k
        rw [hblock k]
        exact ⟨fun h => absurd rfl h, fun h => absurd h (Nat.not_lt_zero k)⟩
      · intro p _
        exact SfsAux.image_of_none (hblock _)
  have hop : (FileOp.write 4 (fun _ => 7) 0 3).Allowed (smallVolume (smallFile 0 0)) {1, 4} := ⟨by decide, rfl, by decide⟩
  exact (sfs_files_refine_strings hv .start).2 _ hop trivial

/-! ## A file that fills its map -/

/-- `sfs_tryseek` panics on a file that fills its map, for every offset that it accepts behind the end. -/
theorem sfsTryseek_full {s : Sfs} {sin pos : Nat} (hb : (s.din sin).blocks = sfsNdirect + sfsBlkNentry)
    (hs : (s.din sin).size ≤ (sfsNdirect + sfsBlkNentry) * sfsBlksize) (hp : (sfsNdirect + sfsBlkNentry) * sfsBlksize < pos)
    (hm : pos < sfsMaxFileSize) : sfsTryseek sin pos s = .error .indexRange := by
  obtain ⟨n, hn⟩ : ∃ n, (pos + sfsBlksize - 1) / sfsBlksize - (s.din sin).blocks = n + 1 := by
    refine Nat.exists_eq_succ_of_ne_zero ?_
    unfold sfsNdirect sfsBlkNentry sfsBlksize at *
    omega
  have hl : sfsBmapLoad sin (s.din sin).blocks s = .error .indexRange :=
    SfsAux.sfsBmapLoad_out le_rfl hb.symm.le
  unfold sfsTryseek
  rw [if_neg (by omega), if_pos (by omega)]
  unfold sfsTruncfile
  rw [if_neg (by omega), Int.toNat_natCast]
  rw [if_neg (by omega), if_pos (by omega), hn, growBlocks, hl]
  rfl

/-- A file with all the blocks that a map has room for: twelve direct ones, and a full table in the block 5. -/
def fullFile : DiskInode := ⟨1036 * 4096, .file, 1, 1036, fun k => if k < 12 then 6 + k else 0, 5⟩

/-- A volume with such a file, and fourteen free blocks. -/
def fullVolume : Sfs where
  blocks := 1056
  unusedBlocks := 14
  freemap := ⟨32768, 1024, fun w => if w = 32 then 0xfffc0000#32 else 0#32⟩
  superDirty := false
  disk b o := if b = 5 then byteOf (18 + o / 4) (o % 4) else 0
  inodes i := ⟨if i = 4 then fullFile else smallRoot, false⟩

namespace SfsAux

open Sfs

theorem fullVolume_free : fullVolume.free = Finset.Ico 1042 1056 := by
  have hb : ∀ i < 32, (0xfffc0000#32).getLsbD i = decide (18 ≤ i) := by decide
  ext i
  show i ∈ fullVolume.freemap.free ↔ _
  rw [BitmapAux.mem_free, Finset.mem_Ico]
  show i < 1024 * 32 ∧ (if i / 32 = 32 then 0xfffc0000#32 else 0#32).getLsbD (i % 32) = true ↔ _
  by_cases hi : i / 32 = 32
  · rw [if_pos hi, hb _ (Nat.mod_lt _ (by decide)), decide_eq_true_eq]
    omega
  · rw [if_neg hi, BitVec.getLsbD_zero]
    simp only [Bool.false_eq_true, and_false, false_iff]
    omega

theorem fullVolume_entry {k : Nat} : fullVolume.entry 5 k = word (fun o => byteOf (18 + o / 4) (o % 4)) (k * 4) := rfl

theorem fullVolume_file (k : Nat) : fullVolume.fileBlock 4 k = if k < 1036 then 6 + k else 0 := by
  show (if k < 12 then (if k < 12 then 6 + k else 0) else if k - 12 < 1024 then fullVolume.entry 5 (k - 12) else 0) = _
  by_cases h1 : k < 12
  · rw [if_pos h1, if_pos h1, if_pos (by omega)]
  · rw [if_neg h1]
    by_cases h2 : k < 1036
    · rw [if_pos (by omega), if_pos h2, fullVolume_entry]
      refine word_byteOf (by omega) ?_
      intro j hj
      have hd : ((k - 12) * 4 + j) / 4 = k - 12 := by omega
      have hm : ((k - 12) * 4 + j) % 4 = j := by omega
      rw [hd, hm]
      exact congrArg (byteOf · j) (by omega)
    · rw [if_neg (by omega), if_neg h2]

theorem fullVolume_root (k : Nat) : fullVolume.fileBlock 1 k = if k = 0 then 3 else 0 := by
  show (if k < 12 then (if k = 0 then 3 else 0) else if k - 12 < 1024 then 0 else 0) = _
  by_cases hk : k = 0
  · simp [hk]
  · simp [hk]

/-- The root holds the block 3; the file holds its table and the blocks from 6 on. -/
theorem fullVolume_held {σ : SfsSlot} {b : Nat} : fullVolume.held {1, 4} σ = some b ↔
    (σ = .data 1 0 ∧ b = 3) ∨ (σ = .table 4 ∧ b = 5) ∨ ∃ k < 1036, σ = .data 4 k ∧ b = 6 + k := by
  cases σ with
  | data i k =>
    rw [held_data]
    constructor
    · rintro ⟨hi, hb, h0⟩
      rcases (by simpa using hi : i = 1 ∨ i = 4) with rfl | rfl
      · rw [fullVolume_root] at hb
        split at hb
        · rename_i hk
          exact Or.inl ⟨by rw [hk], hb.symm⟩
        · exact absurd hb.symm h0
      · rw [fullVolume_file] at hb
        split at hb
        · rename_i hk
          exact Or.inr (Or.inr ⟨k, hk, rfl, hb.symm⟩)
        · exact absurd hb.symm h0
    · rintro (⟨hs, rfl⟩ | ⟨hs, -⟩ | ⟨l, hl, hs, rfl⟩)
      · injection hs with hi hk
        rw [hi, hk]
        exact ⟨by decide, fullVolume_root 0, by decide⟩
      · nomatch hs
      · injection hs with hi hk
        rw [hi, hk]
        exact ⟨by decide, (fullVolume_file l).trans (if_pos hl), by omega⟩
  | table i =>
    rw [held_table]
    constructor
    · rintro ⟨hi, hb, h0⟩
      rcases (by simpa using hi : i = 1 ∨ i = 4) with rfl | rfl
      · exact absurd hb.symm h0
      · exact Or.inr (Or.inl ⟨rfl, hb.symm⟩)
    · rintro (⟨hs, -⟩ | ⟨hs, rfl⟩ | ⟨l, -, hs, -⟩)
      · nomatch hs
      · injection hs with hi
        rw [hi]
        exact ⟨by decide, rfl, by decide⟩
      · nomatch hs

theorem fullVolume_owned : fullVolume.Owned {1, 4} {0, 1, 2, 4} := by
  refine ⟨⟨?_, ?_, ?_, ?_⟩, by simp, by decide, by decide, by decide, ?_⟩
  · intro b hb
    rw [fullVolume_free, Finset.mem_Ico] at hb
    refine ⟨hb.2, ?_⟩
    simp only [Set.mem_insert_iff, Set.mem_singleton_iff]
    omega
  · intro σ b hb
    rw [fullVolume_free, Finset.mem_Ico]
    show b < 1056 ∧ _
    simp only [Set.mem_insert_iff, Set.mem_singleton_iff]
    rcases fullVolume_held.mp hb with ⟨-, rfl⟩ | ⟨-, rfl⟩ | ⟨k, hk, -, rfl⟩
    · omega
    · omega
    · omega
  · intro σ τ b hσ hτ
    rcases fullVolume_held.mp hσ with ⟨rfl, h1⟩ | ⟨rfl, h1⟩ | ⟨k, hk, rfl, h1⟩ <;>
      rcases fullVolume_held.mp hτ with ⟨rfl, h2⟩ | ⟨rfl, h2⟩ | ⟨l, hl, rfl, h2⟩ <;>
      first
      | rfl
      | omega
      | exact congrArg (SfsSlot.data 4) (by omega)
  · intro b hb
    replace hb : b < 1056 := hb
    rw [fullVolume_free, Finset.mem_Ico]
    by_cases h3 : b = 3
    · exact Or.inr (Or.inr ⟨.data 1 0, fullVolume_held.mpr (Or.inl ⟨rfl, h3⟩)⟩)
    by_cases h5 : b = 5
    · exact Or.inr (Or.inr ⟨.table 4, fullVolume_held.mpr (Or.inr (Or.inl ⟨rfl, h5⟩))⟩)
    by_cases h6 : 6 ≤ b ∧ b < 1042
    · exact Or.inr (Or.inr ⟨.data 4 (b - 6), fullVolume_held.mpr (Or.inr (Or.inr ⟨b - 6, by omega, rfl, by omega⟩))⟩)
    · simp only [Set.mem_insert_iff, Set.mem_singleton_iff]
      omega
  · rw [fullVolume_free]
    rfl

theorem fullVolume_volume : fullVolume.Volume {1, 4} {0, 1, 2, 4} := by
  refine ⟨fullVolume_owned, ?_⟩
  intro i hi ht
  rcases (by simpa using hi : i = 1 ∨ i = 4) with rfl | rfl
  · nomatch ht
  · refine ⟨?_, rfl, ?_⟩
    · intro k
      show _ ↔ k < 1036
      rw [fullVolume_file]
      by_cases hk : k < 1036
      · rw [if_pos hk]
        exact ⟨fun _ => hk, fun _ => by omega⟩
      · rw [if_neg hk]
        exact ⟨fun h => absurd rfl h, fun h => absurd h hk⟩
    · intro p hp
      replace hp : 1036 * 4096 ≤ p := hp
      refine image_of_none ?_
      rw [fullVolume_file, if_neg]
      unfold sfsBlksize
      omega

end SfsAux

/-- Enough blocks are free for one more byte, which `sfs_tryseek` accepts, but the map of the file is full: the kernel panics. -/
theorem sfs_extension_out_of_range : fullVolume.Volume {1, 4} {0, 1, 2, 4} ∧
    (FileOp.extend 4 (1036 * 4096 + 1)).Allowed fullVolume {1, 4} ∧
    stepFile fullVolume (.extend 4 (1036 * 4096 + 1)) = .error .indexRange := by
  refine ⟨SfsAux.fullVolume_volume, ⟨by decide, rfl, ?_, ?_⟩, ?_⟩
  · show 1036 * 4096 < 1036 * 4096 + 1
    omega
  · rw [SfsAux.fullVolume_free, Nat.card_Ico]
    decide
  · have hseek : sfsTryseek 4 (1036 * 4096 + 1 : Nat) fullVolume = .error .indexRange :=
      sfsTryseek_full rfl (by decide) (by decide) (by decide)
    simp only [stepFile]
    rw [hseek]
    rfl

end Ucore
