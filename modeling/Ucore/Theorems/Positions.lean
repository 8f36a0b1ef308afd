import Ucore.Lemmas.VfsCall
import Ucore.Lemmas.VfsShared

/-!
# Positions in a file that others truncate

Every descriptor has a position of its own, while the blocks of the file are shared. A position that lies in a block of the file or in
the one that follows serves for a transfer; `sfs_bmap_load_nolock` asserts this, and nothing moves the positions of the other descriptors
when an open with `O_TRUNC` takes the blocks away. A read never meets the assertion, since it ends at the size of the file
(`transfers_within`), a write at such a position does (`stale_position_write`).
-/

namespace Ucore

open Checked SfsAux

namespace FileCall

/-- A call on a descriptor of the file `j` whose transfer stays within what a map has room for, a seek to such a position, or a call that
opened the file and returned a new descriptor. -/
def OnFile (j : Nat) (v : Vfs) (t : Nat) (ret : Int) (v' : Vfs) : FileCall → Prop
  | .read fd _ len _ => ∃ i, fd2file fd (v.files t) = some i ∧ (v.files t i).node = some (.sfs j) ∧
      (v.files t i).pos + len ≤ ((sfsNdirect + sfsBlkNentry) * sfsBlksize : Nat)
  | .write fd _ len _ => ∃ i, fd2file fd (v.files t) = some i ∧ (v.files t i).node = some (.sfs j) ∧
      (v.files t i).pos + len ≤ ((sfsNdirect + sfsBlkNentry) * sfsBlksize : Nat)
  | .seek fd pos whence => ∃ i, fd2file fd (v.files t) = some i ∧ (v.files t i).node = some (.sfs j) ∧
      ∀ p, Vfs.target pos whence (v.files t i) (v.sfs.din j).size = some p → p ≤ ((sfsNdirect + sfsBlkNentry) * sfsBlksize : Nat)
  | .open _ _ _ => fd2file ret (v.files t) = none ∧ ∃ i, fd2file ret (v'.files t) = some i ∧ (v'.files t i).node = some (.sfs j)
  | _ => False

end FileCall

/-- The states that calls on the file `j` lead to, through any descriptors and of any processes. -/
inductive ShareReach (j : Nat) (v₀ : Vfs) : Vfs → Prop
  | start : ShareReach j v₀ v₀
  | step {v v' : Vfs} {ret : Int} (t : Nat) (c : FileCall) : ShareReach j v₀ v → v.call t c = .ok (ret, v') →
      c.OnFile j v t ret v' → ShareReach j v₀ v'

namespace Vfs

open VfsAux

variable {v v' u : Vfs} {I : Finset Nat} {fix : Set Nat} {x y : Node → Nat × Nat} {n : Node} {i j t fd flags : Nat}
  {mem : KernelMemory} {path : List UInt8} {file : File} {d ret : Int} {write : Bool} {buf : Nat → UInt8} {len : Nat}
  {answer : Int × Nat}

/-- A call that leaves the directories: what it does to the file, and the references. -/
theorem Shared.moved (h : v.Shared I fix j x) (hm : v'.Manned y) (hl : v'.sfs.Loose I fix j) (hb : v'.bootfs = v.bootfs)
    (hp : v'.pwd = v.pwd) : v'.Shared I fix j y where
  toManned := hm
  loose := hl
  boot := hb.trans h.boot
  root := h.root
  dirs t i hi := by
    rw [hp] at hi
    exact h.dirs t i hi

/-! ## Transfers and seeks -/

/-- A transfer on the file that stays in range meets an assertion of the volume exactly where it is a write that starts behind the block
after the last one. -/
theorem vopIo_shared (buf : Nat → UInt8) (answer : Int × Nat) {offset : Int} (hl : v.sfs.Loose I fix j)
    (he : offset + len ≤ ((sfsNdirect + sfsBlkNentry) * sfsBlksize : Nat))
    (hv : v.vop (.sfs j) (if write then .write else .read) = .ok ()) :
    (∃ (r : Int × Nat) (s : Sfs), v.vopIo write (.sfs j) buf offset len answer = .ok (r.1, r.2, { v with sfs := s }) ∧ s.Loose I fix j ∧
        (write = false ∨ len = 0 ∨ offset < (((v.sfs.din j).blocks + 1) * sfsBlksize : Nat))) ∨
      (v.vopIo write (.sfs j) buf offset len answer = .error (.sfs .loadIndex) ∧
        ¬(write = false ∨ len = 0 ∨ offset < (((v.sfs.din j).blocks + 1) * sfsBlksize : Nat))) := by
  unfold vopIo
  rw [hv]
  dsimp only
  by_cases hc : write = false ∨ len = 0 ∨ offset < (((v.sfs.din j).blocks + 1) * sfsBlksize : Nat)
  · have hw : write = true → len ≠ 0 → offset < (((v.sfs.din j).blocks + 1) * sfsBlksize : Nat) := by
      intro hwr hlen
      rcases hc with hc | hc | hc
      · exact absurd (hwr.symm.trans hc) (by decide)
      · exact absurd hc hlen
      · exact hc
    obtain ⟨r, hio, -, hl'⟩ := sfsIo_loose buf hl he hw
    refine Or.inl ⟨(r.1, r.2.1), r.2.2.2, ?_, hl', hc⟩
    rw [hio, mapError_ok]
    rfl
  · rw [not_or, not_or, Bool.not_eq_false, Int.not_lt] at hc
    obtain ⟨rfl, hlen, hp⟩ := hc
    refine Or.inr ⟨?_, ?_⟩
    · rw [sfsIo_stuck buf hl he hlen hp]
      rfl
    · rw [not_or, not_or, Bool.not_eq_false, Int.not_lt]
      exact ⟨rfl, hlen, hp⟩

/-- What a transfer through a descriptor of the file leads to. -/
theorem transfer_shared (h : v.Shared I fix j 0) (may : File → Bool)
    (hr : v.operate t d may (transfer write t buf len answer) = .ok (ret, v')) (hi : fd2file d (v.files t) = some i)
    (hn : (v.files t i).node = some (.sfs j))
    (he : (v.files t i).pos + len ≤ ((sfsNdirect + sfsBlkNentry) * sfsBlksize : Nat)) : v'.Shared I fix j 0 := by
  have ho : ∀ i n, Operates t i (transfer write t buf len answer i n) := fun _ _ => transfer_operates write buf len answer
  have hm := operate_manned h.toManned ho hr
  rcases operate_steps h.toManned ho hr with rfl | ⟨i', n, u, hi', hn', hop, -, -, rfl⟩
  · exact h
  cases hi.symm.trans hi'
  cases hn.symm.trans hn'
  obtain ⟨copied, w, hio, hu⟩ := transfer_cases hop
  rw [files_taken] at hio
  have hv : (v.taken t i).vop (.sfs j) (if write then .write else .read) = .ok () := by
    obtain ⟨⟨⟩, hv, -⟩ := bind_eq_ok.mp hio
    exact hv
  have hl : (v.taken t i).sfs.Loose I fix j := h.loose
  obtain ⟨s, rfl, hs⟩ : ∃ s, w = { v.taken t i with sfs := s } ∧ s.Loose I fix j := by
    rcases vopIo_shared buf answer hl he hv with ⟨r, s, hok, hs, -⟩ | ⟨herr, -⟩
    · rw [hok] at hio
      exact ⟨s, (Prod.mk.inj (Prod.mk.inj (Except.ok.inj hio)).2).2.symm, hs⟩
    · rw [herr] at hio
      nomatch hio
  rcases hu with rfl | ⟨pos, rfl⟩
  · exact h.moved hm hs rfl rfl
  · exact h.moved hm hs rfl rfl

theorem fileSeek_shared {pos whence : Int} (h : v.Shared I fix j 0) (hrun : v.fileSeek t d pos whence = .ok (ret, v'))
    (hi : fd2file d (v.files t) = some i) (hn : (v.files t i).node = some (.sfs j)) : v'.Shared I fix j 0 := by
  have ho : ∀ i n, Operates t i (seek t pos whence i n) := fun _ _ => seek_operates pos whence
  have hm := operate_manned h.toManned ho hrun
  rcases operate_steps h.toManned ho hrun with rfl | ⟨i', n, u, hi', hn', hop, -, -, rfl⟩
  · exact h
  cases hi.symm.trans hi'
  cases hn.symm.trans hn'
  rcases seek_cases hop with rfl | ⟨p, w, -, hse, hu⟩
  · exact h.moved hm h.loose rfl rfl
  obtain ⟨-, -, hse⟩ := bind_eq_ok.mp hse
  obtain ⟨⟨code, s⟩, htry, hr⟩ := bind_eq_ok.mp hse
  cases hr
  have hs : s.Loose I fix j := (sfsTryseek_loose h.loose (mapError_eq_ok.mp htry)).2
  rcases hu with rfl | rfl
  · exact h.moved hm hs rfl rfl
  · exact h.moved hm hs rfl rfl

/-! ## Opens -/

theorem openNode_loose {m : Node} (hl : v.sfs.Loose I fix j) (hrun : v.openNode (.sfs j) flags = .ok (.ok m, v')) :
    v'.sfs.Loose I fix j := by
  obtain ⟨code, -, hrun⟩ := bind_eq_ok.mp hrun
  dsimp only at hrun
  split at hrun
  · obtain ⟨_, -, hr⟩ := bind_eq_ok.mp hrun
    nomatch hr
  split at hrun
  · obtain ⟨⟨code', v1⟩, ht, hrun⟩ := bind_eq_ok.mp hrun
    obtain ⟨-, -, ht⟩ := bind_eq_ok.mp ht
    obtain ⟨⟨code'', s⟩, hf, hr⟩ := bind_eq_ok.mp ht
    cases hr
    have hs : s.Loose I fix j := (sfsTruncfile_loose hl (mapError_eq_ok.mp hf)).2
    split at hrun
    · obtain ⟨_, -, hr⟩ := bind_eq_ok.mp hrun
      nomatch hr
    · cases hrun
      exact hs
  · cases hrun
    exact hl

theorem vfsOpen_shared (h : v.Shared I fix j 0) (hrun : v.vfsOpen t path flags mem = .ok (.ok (.sfs j), v')) :
    v'.sfs.Loose I fix j := by
  have ho := vfsOpen_steps hrun
  generalize hr : (Except.ok (Node.sfs j) : Except Int Node) = r at ho
  cases ho with
  | rejected => nomatch hr
  | missing => nomatch hr
  | clash => nomatch hr
  | create _ hl hcr =>
    obtain ⟨⟨code, hc⟩, -⟩ := createNode_frame (vfsLookup_frame h.absent hl).absent hcr
    rw [hc] at hr
    nomatch hr
  | @found m p v1 _ _ _ _ hl ho =>
    subst hr
    obtain rfl : Node.sfs j = m := by
      have hf := vfsLookup_frame h.absent hl
      rcases openNode_frame hf.absent (refCount_pos_of_found h.absent hl) ho with ⟨hm, -⟩ | ⟨⟨code, hc⟩, -⟩
      · exact Except.ok.inj hm
      · nomatch hc
    refine openNode_loose ?_ ho
    rw [vfsLookup_same h hl]
    exact h.loose

theorem fd2file_eq (h : fd2file d (v.files t) = some i) : d.toNat = i := by
  unfold fd2file at h
  split at h
  · exact Option.some.inj h
  · nomatch h

/-- Only the status of the slot matters to whether a descriptor is open. -/
theorem fd2file_congr {f g : Nat → File} (h : f d.toNat = g d.toNat) : fd2file d f = fd2file d g := by
  unfold fd2file
  rw [h]

theorem fileOpen_shared (h : v.Shared I fix j 0) (hr : v.fileOpen t path flags mem = .ok (ret, v'))
    (hnew : fd2file ret (v.files t) = none) (hi : fd2file ret (v'.files t) = some i) (hn : (v'.files t i).node = some (.sfs j)) :
    v'.Shared I fix j 0 := by
  have hm := fileOpen_manned h.toManned hr
  cases fileOpen_steps h.absent hr with
  | refused => exact h
  | @failed fd _ v1 hno _ hfi =>
    -- no descriptor is open after the call that was not open before
    have ho := fd2file_opened hi
    rw [← fd2file_eq hi] at ho
    by_cases he : ret.toNat = fd
    · rw [he, files_setFile_self] at ho
      nomatch ho
    · have hs : (v1.setFile t fd { v1.files t fd with status := .none }).files t ret.toNat = v.files t ret.toNat := by
        rw [files_setFile_of_ne (Or.inr he), hfi]
        exact files_setFile_of_ne (Or.inr he)
      rw [fd2file_congr hs, hnew] at hi
      nomatch hi
  | @stored fd n v1 file hno ho _ _ _ hne _ =>
    obtain rfl : fd = i := fd2file_eq hi
    rw [files_setFile_self, hne] at hn
    cases hn
    have h0 : (v.allocated t fd).Shared I fix j 0 := h.moved (allocated_manned h.toManned hno) h.loose rfl rfl
    have hl := vfsOpen_shared h0 ho
    rcases vfsOpen_frame h0.absent ho with ⟨m, -, hf⟩ | ⟨⟨code, hc⟩, -⟩ | ⟨m, hc, -⟩
    · exact h.moved hm hl hf.bootfs hf.pwd
    · nomatch hc
    · nomatch hc

/-! ## Runs -/

theorem call_shared {c : FileCall} (h : v.Shared I fix j 0) (hr : v.call t c = .ok (ret, v')) (hc : c.OnFile j v t ret v') :
    v'.Shared I fix j 0 := by
  cases c with
  | read d buf len answer | write d buf len answer =>
    obtain ⟨i, hi, hn, he⟩ := hc
    exact transfer_shared h _ hr hi hn he
  | seek d pos whence =>
    obtain ⟨i, hi, hn, -⟩ := hc
    exact fileSeek_shared h hr hi hn
  | «open» path flags mem =>
    obtain ⟨hnew, i, hi, hn⟩ := hc
    exact fileOpen_shared h hr hnew hi hn
  | close d => exact hc.elim
  | fstat d => exact hc.elim
  | fsync d => exact hc.elim
  | getdirentry d offset mem => exact hc.elim
  | dup fd1 fd2 => exact hc.elim
  | chdir path mem => exact hc.elim

theorem ShareReach.shared {v0 : Vfs} (h : v0.Shared I fix j 0) (hr : ShareReach j v0 v) : v.Shared I fix j 0 := by
  induction hr with
  | start => exact h
  | step t c _ hrun hc ih => exact call_shared ih hrun hc

/-- `__vop_op` has no assertion of the volume. -/
theorem vop_ne_sfs {op : Vop} (e : SfsPanic) : v.vop n op ≠ .error (.sfs e) := by
  unfold vop
  by_cases hop : op ∈ (v.vnodes n).ops.vops
  · rw [ensure_of hop]
    by_cases hc : inodeCheck (v.vnodes n)
    · rw [ensure_of hc]
      nofun
    · rw [ensure_of_not hc]
      nofun
  · rw [ensure_of_not hop]
    nofun

/-- A transfer through a descriptor that permits it. -/
theorem transfer_panics (h : v.Shared I fix j 0) {may : File → Bool} (hm : may (v.files t i) = true)
    (hi : fd2file d (v.files t) = some i) (hn : (v.files t i).node = some (.sfs j))
    (he : (v.files t i).pos + len ≤ ((sfsNdirect + sfsBlkNentry) * sfsBlksize : Nat))
    (hvop : write = true → v.vop (.sfs j) .write = .ok ()) :
    (∀ e, v.operate t d may (transfer write t buf len answer) ≠ .error (.sfs e)) ↔
      write = false ∨ len = 0 ∨ (v.files t i).pos < (((v.sfs.din j).blocks + 1) * sfsBlksize : Nat) := by
  have ho := fd2file_opened hi
  obtain ⟨hco, -⟩ := h.slots t i ho
  rw [operate_eq hi hm hn]
  unfold transfer
  rw [files_taken]
  dsimp only
  cases hv : (v.taken t i).vop (.sfs j) (if write then .write else .read) with
  | error p =>
    have hio : (v.taken t i).vopIo write (.sfs j) buf (v.files t i).pos len answer = .error p := by
      unfold vopIo
      rw [hv]
      rfl
    have hp : ∀ e, p ≠ .sfs e := by
      rintro e rfl
      exact vop_ne_sfs e hv
    refine iff_of_true ?_ (Or.inl ?_)
    · intro e hc
      rw [hio] at hc
      exact hp e (Except.error.inj hc)
    · cases write with
      | false => rfl
      | true => nomatch hv.symm.trans (hvop rfl)
  | ok a =>
    rcases vopIo_shared buf answer (show (v.taken t i).sfs.Loose I fix j from h.loose) he hv with
      ⟨r, s, hio, -, hc⟩ | ⟨hio, hc⟩
    · refine iff_of_true ?_ hc
      intro e
      rw [hio, bind_ok]
      rw [files_taken, if_pos ho, pure_eq_ok, bind_ok]
      obtain ⟨w, hw⟩ : ∃ w, (setPos t i (int32 ((v.files t i).pos + r.2)) { v.taken t i with sfs := s }).fdArrayRelease t i = .ok w := by
        refine fdArrayRelease_ok ?_ ?_
        · unfold setPos
          rw [files_setFile_self, files_taken]
          exact ho
        · unfold setPos
          rw [files_setFile_self, files_taken]
          exact Nat.succ_lt_succ hco
      rw [hw]
      nofun
    · refine iff_of_false ?_ hc
      intro hne
      refine hne .loadIndex ?_
      rw [hio]
      rfl

end Vfs

namespace FileCall

/-- The descriptor of a read or a write, whether it is a write, and the bytes that it asks for. -/
def io : FileCall → Option (Int × Bool × Nat)
  | .read fd _ len _ => some (fd, false, len)
  | .write fd _ len _ => some (fd, true, len)
  | _ => none

end FileCall

/-- In every state that calls on a regular file lead to, a read or a write through a descriptor of the file that permits it, and that
stays within what a map has room for, meets no assertion of the volume exactly where it is a read, asks for nothing, or starts in a block
of the file or in the one that follows. -/
theorem transfers_within {v₀ v : Vfs} {I : Finset Nat} {fix : Set Nat} {j : Nat} (h : v₀.Shared I fix j 0) (hr : ShareReach j v₀ v)
    (t : Nat) (c : FileCall) (d : Int) (write : Bool) (len : Nat) (hc : c.io = some (d, write, len)) (i : Nat)
    (hi : fd2file d (v.files t) = some i) (hn : (v.files t i).node = some (.sfs j))
    (hmay : (if write then (v.files t i).writable else (v.files t i).readable) = true)
    (hcheck : Vfs.inodeCheck (v.vnodes (.sfs j)))
    (hend : (v.files t i).pos + len ≤ ((sfsNdirect + sfsBlkNentry) * sfsBlksize : Nat)) :
    (∀ e, v.call t c ≠ .error (.sfs e)) ↔
      write = false ∨ len = 0 ∨ (v.files t i).pos < (((v.sfs.din j).blocks + 1) * sfsBlksize : Nat) := by
  have hs := Vfs.ShareReach.shared h hr
  cases c with
  | read d' buf len' answer =>
    obtain ⟨rfl, hq⟩ := Prod.mk.inj (Option.some.inj hc)
    cases hq
    have hvop : false = true → v.vop (.sfs j) .write = .ok () := nofun
    exact Vfs.transfer_panics hs hmay hi hn hend hvop
  | write d' buf len' answer =>
    obtain ⟨rfl, hq⟩ := Prod.mk.inj (Option.some.inj hc)
    cases hq
    refine Vfs.transfer_panics hs hmay hi hn hend fun _ => ?_
    -- a slot that may write does not have a directory
    have hops : (v.vnodes (.sfs j)).ops = .file := by
      obtain ⟨-, n, hn', hw⟩ := hs.slots t i (Vfs.fd2file_opened hi)
      cases hn.symm.trans hn'
      have hdir := hw hmay
      have hdev := hs.kinds.sfs j
      cases ho : (v.vnodes (.sfs j)).ops with
      | file => rfl
      | dir => exact absurd ho hdir
      | dev => exact absurd ho hdev
    unfold Vfs.vop
    rw [hops, ensure_of (by decide), bind_ok, ensure_of hcheck]
  | «open» path flags mem => nomatch hc
  | close d => nomatch hc
  | seek d pos whence => nomatch hc
  | fstat d => nomatch hc
  | fsync d => nomatch hc
  | getdirentry d offset mem => nomatch hc
  | dup fd1 fd2 => nomatch hc
  | chdir path mem => nomatch hc

/-- The empty file `a` is opened for writing: its position serves for a write of one byte. -/
theorem transfers_within_first : ∃ v, ShareReach 4 (shelfVfs (shelf (smallFile 0 0))) v ∧ fd2file 0 (v.files 0) = some 0 ∧
    (v.files 0 0).node = some (.sfs 4) ∧ ∀ e, v.call 0 (.write 0 (fun _ => 7) 1 (0, 0)) ≠ .error (.sfs e) := by
  have hr : ShareReach 4 (shelfVfs (shelf (smallFile 0 0))) _ :=
    .step 0 (.open [97] 1 .all) .start (eq_ok_pair (b := 0) (by decide +kernel) (by decide +kernel))
      ⟨rfl, 0, by decide +kernel, by decide +kernel⟩
  have hs : (shelfVfs (shelf (smallFile 0 0))).Shared {1, 4} {0, 1, 2, 4} 4 0 := VfsAux.shelfVfs_ok.shared (by decide) rfl
  refine ⟨_, hr, by decide +kernel, by decide +kernel, (transfers_within hs hr 0 (.write 0 (fun _ => 7) 1 (0, 0)) 0 true 1 rfl 0
    (by decide +kernel) (by decide +kernel) (by decide +kernel) (by decide +kernel) (by decide +kernel)).mpr (Or.inr (Or.inr ?_))⟩
  exact Int.natCast_pos.mpr (Nat.mul_pos (Nat.succ_pos _) (by decide))

/-- The file `a` is opened for writing, and the position set to its second block; then it is opened with `O_TRUNC`. A write through the
first descriptor asks for the second block of a file that has none. -/
theorem stale_position_write : ∃ v, ShareReach 4 (shelfVfs (shelf (smallFile 0 0))) v ∧ fd2file 0 (v.files 0) = some 0 ∧
    (v.files 0 0).node = some (.sfs 4) ∧ (v.files 0 0).pos = 4096 ∧ (v.sfs.din 4).size = 0 ∧ (v.sfs.din 4).blocks = 0 ∧
    v.call 0 (.write 0 (fun _ => 7) 1 (0, 0)) = .error (.sfs .loadIndex) := by
  have hr₁ : ShareReach 4 (shelfVfs (shelf (smallFile 0 0))) _ :=
    .step 0 (.open [97] 1 .all) .start (eq_ok_pair (b := 0) (by decide +kernel) (by decide +kernel))
      ⟨rfl, 0, by decide +kernel, by decide +kernel⟩
  have hr₂ := ShareReach.step 0 (.seek 0 4096 0) hr₁ (eq_ok_pair (b := 0) (by decide +kernel) (by decide +kernel))
    ⟨0, by decide +kernel, by decide +kernel, fun p hp => by rw [← Option.some.inj hp]; decide⟩
  have hr₃ := ShareReach.step 0 (.open [97] 17 .all) hr₂ (eq_ok_pair (b := 1) (by decide +kernel) (by decide +kernel))
    ⟨by decide +kernel, 1, by decide +kernel, by decide +kernel⟩
  exact ⟨_, hr₃, by decide +kernel, by decide +kernel, by decide +kernel, by decide +kernel, by decide +kernel,
    eq_error_of_errorIs (by decide +kernel)⟩

end Ucore
