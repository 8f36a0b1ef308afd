import Ucore.Lemmas.VfsCall

/-!
# Descriptors without the right to write

`file_write` asks whether a descriptor may write, `file_seek` does not, although `sfs_tryseek` lengthens a file when the new position is
behind its end (`readonly_seek_grows`). In runs of calm calls a descriptor that was opened for reading leaves its file as it is
(`readonly_keeps_file`).
-/

namespace Ucore

open Checked SfsAux

/-- The size, the blocks and the bytes of a file are as before. -/
structure Sfs.SameFile (s s' : Sfs) (j : Nat) : Prop where
  size : (s'.din j).size = (s.din j).size
  blocks : (s'.din j).blocks = (s.din j).blocks
  indirect : (s'.din j).indirect = (s.din j).indirect
  maps : ∀ k, s'.fileBlock j k = s.fileBlock j k
  images : ∀ p, s'.image j p = s.image j p

/-- The descriptor of a call that has no business with the data of a file other than to read it. -/
def FileCall.reader : FileCall → Option Int
  | .read fd _ _ _ => some fd
  | .seek fd _ _ => some fd
  | .fstat fd => some fd
  | .fsync fd => some fd
  | .dup fd _ => some fd
  | .close fd => some fd
  | _ => none

/-- The states that calm calls lead to. -/
inductive CalmReach (v₀ : Vfs) : Vfs → Prop
  | start : CalmReach v₀ v₀
  | step {v v' : Vfs} {ret : Int} (t : Nat) (c : FileCall) : CalmReach v₀ v → v.call t c = .ok (ret, v') → c.Calm v t →
      CalmReach v₀ v'

namespace Sfs

variable {I : Finset Nat} {fix : Set Nat} {j : Nat} {s s' : Sfs}

theorem SameFile.of_eq (h : s' = s) : s.SameFile s' j := by
  rw [h]
  exact ⟨rfl, rfl, rfl, fun _ => rfl, fun _ => rfl⟩

theorem SameFile.of_fixedOnly (h : s.Owned I fix) (hj : j ∈ I) (hf : FixedOnly s s' I fix) : s.SameFile s' j where
  size := (hf.din j hj).size
  blocks := (hf.din j hj).blocks
  indirect := (hf.din j hj).indirect
  maps _ := hf.fileBlock h hj
  images _ := hf.image h hj

end Sfs

namespace VfsAux

open Vfs

variable {v v' : Vfs} {I : Finset Nat} {fix : Set Nat} {n : Node} {i j t : Nat} {d ret : Int}

theorem CalmReach.ok {v0 : Vfs} (h : v0.Ok I fix 0) (hr : CalmReach v0 v) : v.Ok I fix 0 := by
  induction hr with
  | start => exact h
  | step t c _ hrun hc ih => exact call_ok ih hc hrun

/-- A call on a descriptor whose operation leaves a file as it is. -/
theorem operate_same {may : File → Bool} {op : Nat → Node → Vfs → Except VfsPanic (Int × Vfs)} (h : v.Manned 0)
    (ho : ∀ i n, Operates t i (op i n))
    (hop : ∀ i n u, fd2file d (v.files t) = some i → (v.files t i).node = some n → op i n (v.taken t i) = .ok (ret, u) →
      v.sfs.SameFile u.sfs j)
    (hr : v.operate t d may op = .ok (ret, v')) : v.sfs.SameFile v'.sfs j := by
  rcases operate_steps h ho hr with rfl | ⟨i, n, u, hi, hn, hru, -, -, rfl⟩
  · exact .of_eq rfl
  · exact hop i n u hi hn hru

section

variable (h : v.Ok I fix 0)
include h

theorem fileRead_same {buf : Nat → UInt8} {len : Nat} {answer : Int × Nat}
    (hr : v.fileRead t d buf len answer = .ok (ret, v')) : v.sfs.SameFile v'.sfs j := by
  refine operate_same h.toManned (fun _ _ => transfer_operates false buf len answer) ?_ hr
  intro i n u hi hn hop
  have ho := fd2file_opened hi
  obtain ⟨copied, w, hio, hu⟩ := transfer_cases hop
  obtain rfl := vopIo_read_same (taken_ok h ho) (h.slot_pos ho hn) hio
  rcases hu with rfl | ⟨pos, rfl⟩
  · exact .of_eq rfl
  · exact .of_eq rfl

theorem fileSeek_same {pos whence : Int} (hi : fd2file d (v.files t) = some i)
    (hn : (v.files t i).node = some (.sfs j)) (hro : (v.files t i).writable = false)
    (hca : (FileCall.seek d pos whence).Calm v t) (hr : v.fileSeek t d pos whence = .ok (ret, v')) :
    v.sfs.SameFile v'.sfs j := by
  refine operate_same h.toManned (fun _ _ => seek_operates pos whence) ?_ hr
  intro i' n u hi' hn' hop
  cases hi.symm.trans hi'
  cases hn.symm.trans hn'
  rcases seek_cases hop with rfl | ⟨p, w, hp, hs, hu⟩
  · exact .of_eq rfl
  rw [files_taken] at hp
  -- the position that is asked for is within the file, or none that a file can have
  have hin : ∀ k, Node.sfs j = .sfs k → p ≤ ((v.taken t i).sfs.din k).size ∨ (sfsMaxFileSize : Int) ≤ p := by
    intro k hk
    obtain rfl := Node.sfs.inj hk
    refine (hca i j p hi hn hp).imp_right fun hc => hc.resolve_right fun hw => ?_
    rw [hro] at hw
    cases hw.1
  obtain rfl := vopTryseek_same hin hs
  rcases hu with rfl | rfl
  · exact .of_eq rfl
  · exact .of_eq rfl

theorem fileFstat_same (hrun : v.fileFstat t d = .ok (ret, v')) : v.sfs.SameFile v'.sfs j := by
  refine operate_same h.toManned (fun _ _ => fstat_operates) ?_ hrun
  intro i n u _ _ hop
  obtain ⟨-, -, hr⟩ := bind_eq_ok.mp hop
  cases hr
  exact .of_eq rfl

theorem fileFsync_same (hj : j ∈ I) (hrun : v.fileFsync t d = .ok (ret, v')) : v.sfs.SameFile v'.sfs j := by
  refine operate_same h.toManned (fun _ _ => fsync_operates) ?_ hrun
  intro i n u hi hn hop
  have ho := fd2file_opened hi
  obtain ⟨w, hs, hr⟩ := bind_eq_ok.mp hop
  obtain ⟨-, rfl⟩ := Prod.mk.inj (Except.ok.inj hr)
  have hf : FixedOnly v.sfs w.sfs I fix := (vopFsync_advance (taken_ok h ho) (h.slot_pos ho hn) hs).2
  exact .of_fixedOnly h.mounted.owned hj hf

end

end VfsAux

/-- In every run of calm calls, a read, a seek, a stat, a sync, a duplication or a close of a descriptor that may not write leaves the
regular file of the descriptor as it is. -/
theorem readonly_keeps_file {v₀ v v' : Vfs} {I : Finset Nat} {fix : Set Nat} (h : v₀.Ok I fix 0) (hr : CalmReach v₀ v) (t : Nat)
    (c : FileCall) (d : Int) (hc : c.reader = some d) (i : Nat) (hi : fd2file d (v.files t) = some i)
    (hro : (v.files t i).writable = false) (j : Nat) (hn : (v.files t i).node = some (.sfs j)) (ret : Int)
    (hrun : v.call t c = .ok (ret, v')) (hcalm : c.Calm v t) : v.sfs.SameFile v'.sfs j := by
  have hok := VfsAux.CalmReach.ok h hr
  have hj : j ∈ I := (hok.loaded j (hok.slot_pos (Vfs.fd2file_opened hi) hn)).1
  cases c with
  | «open» path flags mem => nomatch hc
  | write d' buf len answer => nomatch hc
  | getdirentry d' offset mem => nomatch hc
  | chdir path mem => nomatch hc
  | read d' buf len answer => exact VfsAux.fileRead_same hok hrun
  | seek d' pos whence =>
    cases hc
    exact VfsAux.fileSeek_same hok hi hn hro hcalm hrun
  | fstat d' => exact VfsAux.fileFstat_same hok hrun
  | fsync d' => exact VfsAux.fileFsync_same hok hj hrun
  | dup d' fd2 => exact .of_fixedOnly hok.mounted.owned hj (Vfs.fileDup_keeps hok hrun).2
  | close d' => exact .of_fixedOnly hok.mounted.owned hj (Vfs.fileClose_keeps hok hrun).2

/-- The file `a` is opened for reading, and then closed. -/
theorem readonly_keeps_file_close : ∃ v v', CalmReach (shelfVfs (shelf (smallFile 0 0))) v ∧ (v.files 0 0).writable = false ∧
    v.call 0 (.close 0) = .ok (0, v') ∧ v.sfs.SameFile v'.sfs 4 := by
  have hr : CalmReach (shelfVfs (shelf (smallFile 0 0))) _ :=
    .step 0 (.open [97] 0 .all) .start (eq_ok_okGet (by decide +kernel)) trivial
  refine ⟨_, _, hr, by decide +kernel, eq_ok_pair (by decide +kernel) (by decide +kernel), ?_⟩
  exact readonly_keeps_file VfsAux.shelfVfs_ok hr 0 (.close 0) 0 rfl 0 (by decide +kernel) (by decide +kernel) 4 (by decide +kernel) 0
    (eq_ok_pair (by decide +kernel) (by decide +kernel)) trivial

/-- The empty file `a` is opened for reading; a seek to position 5 makes it five bytes long and gives it a block. -/
theorem readonly_seek_grows : ∃ v v', CallReach (shelfVfs (shelf (smallFile 0 0))) v ∧ fd2file 0 (v.files 0) = some 0 ∧
    (v.files 0 0).writable = false ∧ (v.files 0 0).node = some (.sfs 4) ∧ (v.sfs.din 4).type = .file ∧
    v.call 0 (.seek 0 5 0) = .ok (0, v') ∧ (v.sfs.din 4).size = 0 ∧ (v'.sfs.din 4).size = 5 ∧
    (v.sfs.din 4).blocks = 0 ∧ (v'.sfs.din 4).blocks = 1 :=
  ⟨_, _, .step 0 (.open [97] 0 .all) .start (eq_ok_okGet (by decide +kernel)), by decide +kernel, by decide +kernel, by decide +kernel,
    by decide +kernel, eq_ok_pair (by decide +kernel) (by decide +kernel), by decide +kernel⟩

end Ucore
