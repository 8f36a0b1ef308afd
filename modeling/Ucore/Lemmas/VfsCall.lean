import Ucore.Theorems.OpenData

/-!
# Calls on a mounted volume

What a call keeps of the state between two calls (`Vfs.Ok`). A call that is calm, which excludes writes behind the end of a file and
seeks that stop halfway, leads from such a state to another (`call_ok`).
-/

namespace Ucore

open Checked SfsAux Function

namespace Vfs

open VfsAux

variable {v v' : Vfs} {I : Finset Nat} {fix : Set Nat} {x y : Node → Nat × Nat} {n : Node} {i j t fd flags : Nat}
  {mem : KernelMemory}
  {path : List UInt8} {file : File} {ret : Int} {s' : Sfs} {r : Except Int Node}

/-! ## Slots and files -/

/-- The inodes in memory and the directories are the same. -/
structure Quiet (v v' : Vfs) : Prop where
  vnodes : v'.vnodes = v.vnodes
  bootfs : v'.bootfs = v.bootfs
  pwd : v'.pwd = v.pwd

/-- A call that leaves the inodes in memory: what it does to the volume, and the references. -/
theorem Ok.quiet (h : v.Ok I fix x) (hman : v'.Manned y) (hq : v.Quiet v') (hm : v'.sfs.Mounted I fix)
    (htypes : ∀ i ∈ I, (v'.sfs.din i).type = (v.sfs.din i).type) : v'.Ok I fix y where
  toManned := hman
  mounted := hm
  loaded i hi := by
    rw [hq.vnodes] at hi ⊢
    obtain ⟨hmem, ho⟩ := h.loaded i hi
    exact ⟨hmem, by rw [htypes i hmem]; exact ho⟩
  boot := hq.bootfs.trans h.boot
  dirs t n hn := by
    rw [hq.pwd] at hn
    obtain ⟨i, hi, he, ht⟩ := h.dirs t n hn
    exact ⟨i, hi, he, (htypes i hi).trans ht⟩

theorem Ok.files (h : v.Ok I fix x) (hm : (v.setFile t fd file).Manned y) : (v.setFile t fd file).Ok I fix y :=
  h.quiet hm ⟨rfl, rfl, rfl⟩ h.mounted fun _ _ => rfl

/-- A regular file of the volume is written. -/
theorem Ok.written (h : v.Ok I fix x) (hw : Written v.sfs s' I fix i) (hi : i ∈ I) (hr : (v.sfs.din i).type = .file) :
    Ok { v with sfs := s' } I fix x := by
  refine h.quiet h.toManned.ofSfs ⟨rfl, rfl, rfl⟩ (Written.mounted hw h.mounted hi hr) ?_
  intro j _
  by_cases he : j = i
  · rw [he]
    exact hw.type
  · exact congrArg DiskInode.type (din_of_inodes (hw.inodes j he))

/-! ## Opening -/

/-- An inode that has an operation which directories lack. -/
theorem file_of_vop {op : Vop} (h : v.Ok I fix x) (hpos : 0 < (v.vnodes (.sfs j)).refCount) (hm : op ∈ (v.vnodes (.sfs j)).ops.vops)
    (hop : op ∉ NodeOps.dir.vops) : j ∈ I ∧ (v.sfs.din j).type = .file := by
  obtain ⟨hj, ho⟩ := h.loaded j hpos
  refine ⟨hj, (h.mounted.kinds j hj).resolve_right fun hc => ?_⟩
  rw [ho.mpr hc] at hm
  exact hop hm

theorem vopTruncate_ok (h : v.Ok I fix x) (hpos : 0 < (v.vnodes n).refCount) (hrun : v.vopTruncate n 0 = .ok (ret, v')) :
    ret = 0 ∧ v'.Ok I fix x := by
  obtain ⟨⟨⟩, hv, hrun⟩ := bind_eq_ok.mp hrun
  cases n with
  | dev k => nomatch hrun
  | sfs j =>
    obtain ⟨hj, hreg⟩ := file_of_vop h hpos (vop_ok hv).1 (by decide)
    obtain ⟨⟨ret', s'⟩, ht, hr⟩ := bind_eq_ok.mp hrun
    cases hr
    have ht := mapError_eq_ok.mp ht
    obtain ⟨rfl, -⟩ := sfsTruncfile_zero h.mounted.owned hj (h.mounted.dense j hj) ht
    exact ⟨rfl, h.written (sfsTruncfile_within_sized h.mounted.owned hj (h.mounted.covered j hj hreg) ht
      (marks_zero (h.mounted.dense j hj))) hj hreg⟩

theorem openNode_ok (h : v.Ok I fix (x + ref n)) (hrun : v.openNode n flags = .ok (r, v')) :
    (r = .ok n ∧ v'.Ok I fix (x + ref n)) ∨ ((∃ ret, r = .error ret) ∧ v'.Ok I fix x) := by
  obtain ⟨ret, -, hrun⟩ := bind_eq_ok.mp hrun
  split at hrun
  · obtain ⟨v1, hd, hr⟩ := bind_eq_ok.mp hrun
    cases hr
    exact Or.inr ⟨⟨_, rfl⟩, (refDec_ok h hd).1⟩
  have h1 : (v.openInc n).Ok I fix (x + ref n) := (openInc_ok h h.pos).1.mono fun m => Nat.le_add_right _ _
  split at hrun
  · obtain ⟨⟨ret', v2⟩, ht, hrun⟩ := bind_eq_ok.mp hrun
    obtain ⟨rfl, h2⟩ := vopTruncate_ok h1 h1.pos ht
    cases hrun
    exact Or.inl ⟨rfl, h2⟩
  · cases hrun
    exact Or.inl ⟨rfl, h1⟩

theorem vfsOpen_ok (h : v.Ok I fix 0) (hrun : v.vfsOpen t path flags mem = .ok (r, v')) :
    (∃ n, r = .ok n ∧ v'.Ok I fix (0 + ref n)) ∨ ((∃ ret, r = .error ret) ∧ v'.Ok I fix 0) := by
  cases vfsOpen_steps hrun with
  | rejected => exact Or.inr ⟨⟨_, rfl⟩, h⟩
  | missing _ hl => exact Or.inr ⟨⟨_, rfl⟩, (vfsLookup_ok h hl).1.mono fun _ => Nat.zero_le _⟩
  | create _ hl hc =>
    have h1 := (vfsLookup_ok h hl).1
    obtain ⟨⟨g, q, v2⟩, hd, hc⟩ := bind_eq_ok.mp hc
    cases g with
    | error ret =>
      cases hc
      exact Or.inr ⟨⟨_, rfl⟩, (route_ok h1 (getDevice_begins hd).1).1.mono fun _ => Nat.zero_le _⟩
    | ok ns =>
      obtain ⟨-, -, hc⟩ := bind_eq_ok.mp hc
      nomatch hc
  | clash _ _ hl => exact Or.inr ⟨⟨_, rfl⟩, (vfsLookup_ok h hl).1.mono fun _ => Nat.zero_le _⟩
  | found _ _ hl ho =>
    rcases openNode_ok (vfsLookup_ok h hl).1 ho with ⟨rfl, h2⟩ | ⟨hr, h2⟩
    · exact Or.inl ⟨_, rfl, h2⟩
    · exact Or.inr ⟨hr, h2⟩

theorem fileOpen_ok (h : v.Ok I fix 0) (hr : v.fileOpen t path flags mem = .ok (ret, v')) : v'.Ok I fix 0 := by
  have hm := fileOpen_manned h.toManned hr
  cases fileOpen_steps h.absent hr with
  | refused => exact h
  | failed hn ho _ =>
    rcases vfsOpen_ok (h.files (allocated_manned h.toManned hn)) ho with ⟨n, hc, -⟩ | ⟨-, h1⟩
    · nomatch hc
    · exact h1.files hm
  | stored hn ho _ _ _ _ _ =>
    rcases vfsOpen_ok (h.files (allocated_manned h.toManned hn)) ho with ⟨n, -, h1⟩ | ⟨⟨code, hc⟩, -⟩
    · exact h1.files hm
    · nomatch hc

/-! ## Closing -/

theorem fileClose_keeps {d : Int} (h : v.Ok I fix 0) (hr : v.fileClose t d = .ok (ret, v')) : v.Keeps v' I fix 0 := by
  have hm := fileClose_manned h.toManned hr
  rcases fileClose_steps h.toManned hr with rfl | ⟨i, n, ho, hn, hre⟩
  · exact Keeps.refl h
  have h1 : (v.closing t i).Ok I fix (0 + ref n) := h.files (closing_manned h.toManned ho hn)
  rcases hre with rfl | ⟨u, hc, rfl⟩
  · exact ⟨h1.mono fun _ => Nat.zero_le _, FixedOnly.refl⟩
  · have h2 := vfsClose_ok h1 hc
    exact ⟨h2.1.files hm, h2.2⟩

theorem fileDup_keeps {fd1 fd2 : Int} (h : v.Ok I fix 0) (hr : v.fileDup t fd1 fd2 = .ok (ret, v')) : v.Keeps v' I fix 0 := by
  have hm := fileDup_manned h.toManned hr
  rcases fileDup_steps h.toManned hr with rfl | ⟨i, j, n, file, ho, hn, hno, -, -, -, -, rfl⟩
  · exact Keeps.refl h
  have h0 : (v.allocated t j).Ok I fix 0 := h.files (allocated_manned h.toManned hno)
  have hh : v.holds (.slot t i) = some n := (if_pos ho).trans hn
  have h1 := refInc_ok h0 (h.held hh)
  have h2 := openInc_ok h1.1 h1.1.pos
  exact ⟨h2.1.files hm, FixedOnly.refl⟩

/-! ## The current directory -/

theorem vfsSetCurdir_ok {dir : Node} (h : v.Ok I fix (x + ref dir)) (hrun : v.vfsSetCurdir t dir = .ok (ret, v')) :
    v'.Ok I fix (x + ref dir) := by
  unfold vfsSetCurdir at hrun
  split at hrun
  · cases hrun
    exact h
  obtain ⟨-, -, hrun⟩ := bind_eq_ok.mp hrun
  dsimp only at hrun
  split at hrun
  · cases hrun
    exact h
  rename_i hd
  have hisdir : ∃ i ∈ I, dir = .sfs i ∧ (v.sfs.din i).type = .dir := by
    cases dir with
    | sfs i => exact ⟨i, (h.loaded i h.pos).1, rfl, of_decide_eq_true (Bool.not_eq_false _ ▸ hd)⟩
    | dev k => exact absurd rfl hd
  have h1 := (refInc_ok h h.pos).1
  have hdi : ∀ o : Option Node, (∀ n, o = some n → ∃ i ∈ I, n = .sfs i ∧ (v.sfs.din i).type = .dir) → ∀ t' n,
      update v.pwd t o t' = some n → ∃ i ∈ I, n = .sfs i ∧ (v.sfs.din i).type = .dir := by
    intro o ho t' n hn
    rw [update_apply] at hn
    split at hn
    · exact ho n hn
    · exact h.dirs t' n hn
  have hnew := hdi (some dir) fun n hn => by
    cases hn
    exact hisdir
  split at hrun
  · cases hrun
    exact { h1 with toManned := h1.toManned.setPwd, dirs := hnew }
  · rename_i old hold
    obtain ⟨v2, hdec, hr⟩ := bind_eq_ok.mp hrun
    cases hr
    have hm := h1.toManned.dropPwd hold
    rw [add_right_comm] at hm
    have hman' := hm.setPwd (t := t)
    rw [update_idem] at hman'
    have h2 : Ok { v.refInc dir with pwd := update (v.refInc dir).pwd t (some dir) } I fix (x + ref dir + ref old) :=
      { h1 with toManned := hman', dirs := hnew }
    exact (refDec_ok h2 hdec).1

theorem vfsChdir_ok (h : v.Ok I fix 0) (hrun : v.vfsChdir t path mem = .ok (ret, v')) : v'.Ok I fix 0 := by
  obtain ⟨⟨r, p, v1⟩, hl, hrun⟩ := bind_eq_ok.mp hrun
  have h1 := (vfsLookup_ok h hl).1
  cases r with
  | error code =>
    cases hrun
    exact h1
  | ok n =>
    obtain ⟨⟨code, v2⟩, hs, hrun⟩ := bind_eq_ok.mp hrun
    obtain ⟨v3, hd, hr⟩ := bind_eq_ok.mp hrun
    cases hr
    exact (refDec_ok (vfsSetCurdir_ok h1 hs) hd).1

/-! ## Operations on an open file -/

/-- What an operation on an open file does: it may change the volume, and leaves the inodes in memory. -/
structure Advance (v v' : Vfs) (I : Finset Nat) (fix : Set Nat) : Prop extends v.Quiet v' where
  mounted : v'.sfs.Mounted I fix
  types : ∀ i ∈ I, (v'.sfs.din i).type = (v.sfs.din i).type

theorem Advance.refl (h : v.Ok I fix x) : v.Advance v I fix := ⟨⟨rfl, rfl, rfl⟩, h.mounted, fun _ _ => rfl⟩

theorem Advance.setPos {pos : Int} (h : v.Advance v' I fix) : v.Advance (v'.setPos t i pos) I fix :=
  ⟨⟨h.vnodes, h.bootfs, h.pwd⟩, h.mounted, h.types⟩

theorem Advance.of_written (h : v.Ok I fix x) (hw : Written v.sfs s' I fix i) (hi : i ∈ I) (hr : (v.sfs.din i).type = .file) :
    v.Advance { v with sfs := s' } I fix where
  vnodes := rfl
  bootfs := rfl
  pwd := rfl
  mounted := Written.mounted hw h.mounted hi hr
  types j _ := by
    by_cases he : j = i
    · rw [he]
      exact hw.type
    · exact congrArg DiskInode.type (din_of_inodes (hw.inodes j he))

theorem taken_ok (h : v.Ok I fix 0) (ho : (v.files t i).status = .opened) : (v.taken t i).Ok I fix 0 :=
  h.files (taken_manned h.toManned ho)

/-- The inode of an open slot is in memory. -/
theorem Ok.slot_pos (h : v.Ok I fix x) (ho : (v.files t i).status = .opened) (hn : (v.files t i).node = some n) :
    0 < (v.vnodes n).refCount :=
  h.held (show v.holds (.slot t i) = some n from (if_pos ho).trans hn)

section

variable {buf : Nat → UInt8} {offset : Int} {len copied : Nat} {answer : Int × Nat} (h : v.Ok I fix 0)
  (hpos : 0 < (v.vnodes n).refCount)

include h hpos

theorem vopIo_read_same (hrun : v.vopIo false n buf offset len answer = .ok (ret, copied, v')) : v' = v := by
  obtain ⟨⟨⟩, hv, hrun⟩ := bind_eq_ok.mp hrun
  cases n with
  | sfs j =>
    obtain ⟨hj, hreg⟩ := file_of_vop h hpos (vop_ok hv).1 (by decide)
    obtain ⟨r, hio, hr⟩ := bind_eq_ok.mp hrun
    cases hr
    rw [sfsIo_read_same h.mounted.owned hj hreg (h.mounted.covered j hj hreg) (mapError_eq_ok.mp hio)]
  | dev k =>
    obtain ⟨-, hq⟩ := Prod.mk.inj (Except.ok.inj hrun)
    exact (Prod.mk.inj hq).2.symm

theorem vopIo_write_advance (ho : ∀ j, n = .sfs j → offset ≤ (v.sfs.din j).size)
    (hrun : v.vopIo true n buf offset len answer = .ok (ret, copied, v')) : v.Advance v' I fix := by
  obtain ⟨⟨⟩, hv, hrun⟩ := bind_eq_ok.mp hrun
  cases n with
  | sfs j =>
    obtain ⟨hj, hreg⟩ := file_of_vop h hpos (vop_ok hv).1 (by decide)
    obtain ⟨r, hio, hr⟩ := bind_eq_ok.mp hrun
    cases hr
    exact .of_written h (sfsIo_write_within h.mounted.owned hj hreg (h.mounted.covered j hj hreg) (ho j rfl) (mapError_eq_ok.mp hio))
      hj hreg
  | dev k =>
    cases hrun
    exact .refl h

omit h hpos in
/-- A seek within a file, or out of the range of positions. -/
theorem vopTryseek_same {pos : Int} (hin : ∀ j, n = .sfs j → pos ≤ (v.sfs.din j).size ∨ (sfsMaxFileSize : Int) ≤ pos)
    (hrun : v.vopTryseek n pos = .ok (ret, v')) : v' = v := by
  obtain ⟨-, -, hrun⟩ := bind_eq_ok.mp hrun
  cases n with
  | sfs j =>
    obtain ⟨r, hs, hr⟩ := bind_eq_ok.mp hrun
    cases hr
    have hs := mapError_eq_ok.mp hs
    unfold sfsTryseek at hs
    split at hs
    · rw [← Except.ok.inj hs]
    rename_i hra
    rw [if_neg (by have := hin j rfl; omega)] at hs
    rw [← Except.ok.inj hs]
  | dev k =>
    dsimp only at hrun
    split at hrun
    · exact (Prod.mk.inj (Except.ok.inj hrun)).2.symm
    · nomatch hrun

theorem vopTryseek_advance {pos : Int}
    (hm : ∀ j, n = .sfs j → pos ≤ (v.sfs.din j).size ∨ (sfsMaxFileSize : Int) ≤ pos ∨ v.sfs.Marks j pos)
    (hrun : v.vopTryseek n pos = .ok (ret, v')) : v.Advance v' I fix := by
  have hr0 := hrun
  obtain ⟨⟨⟩, hv, hrun⟩ := bind_eq_ok.mp hrun
  cases n with
  | sfs j =>
    by_cases hin : pos ≤ (v.sfs.din j).size ∨ (sfsMaxFileSize : Int) ≤ pos
    · obtain rfl := vopTryseek_same (fun k hk => Node.sfs.inj hk ▸ hin) hr0
      exact .refl h
    obtain ⟨hj, hreg⟩ := file_of_vop h hpos (vop_ok hv).1 (by decide)
    obtain ⟨r, hs, hr⟩ := bind_eq_ok.mp hrun
    cases hr
    have hs := mapError_eq_ok.mp hs
    unfold sfsTryseek at hs
    rw [if_neg (by omega), if_pos (by omega)] at hs
    have hm : v.sfs.Marks j pos := (or_assoc.mpr (hm j rfl)).resolve_left hin
    exact .of_written h (sfsTruncfile_within_sized h.mounted.owned hj (h.mounted.covered j hj hreg) hs hm) hj hreg
  | dev k =>
    have hin : ∀ j, Node.dev k = .sfs j → pos ≤ (v.sfs.din j).size ∨ (sfsMaxFileSize : Int) ≤ pos := nofun
    obtain rfl := vopTryseek_same hin hr0
    exact .refl h

theorem vopFsync_advance (hrun : v.vopFsync n = .ok v') : v.Advance v' I fix ∧ FixedOnly v.sfs v'.sfs I fix := by
  cases n with
  | sfs j =>
    obtain ⟨hm, hf, -, -⟩ := vopFsync_volume h.mounted (h.loaded j hpos).1 hrun
    obtain ⟨-, -, hrun⟩ := bind_eq_ok.mp hrun
    obtain ⟨s, -, hr⟩ := bind_eq_ok.mp hrun
    cases hr
    exact ⟨⟨⟨rfl, rfl, rfl⟩, hm, fun i hi => (hf.din i hi).type⟩, hf⟩
  | dev k =>
    obtain ⟨-, -, hrun⟩ := bind_eq_ok.mp hrun
    nomatch hrun

end

theorem vopGetdirentry_same {offset : Int} (h : v.Ok I fix x) (hpos : 0 < (v.vnodes n).refCount)
    (hrun : v.vopGetdirentry n offset mem = .ok (ret, v')) : v' = v := by
  obtain ⟨⟨⟩, hv, hrun⟩ := bind_eq_ok.mp hrun
  cases n with
  | dev k => nomatch hrun
  | sfs j =>
    obtain ⟨hj, hops⟩ := h.loaded j hpos
    have ht : (v.sfs.din j).type = .dir := by
      refine hops.mp ?_
      have hm := (vop_ok hv).1
      cases ho : (v.vnodes (.sfs j)).ops with
      | dir => rfl
      | file =>
        rw [ho] at hm
        exact absurd hm (by decide)
      | dev => exact absurd ho (h.kinds.sfs j)
    obtain ⟨r, hg, hr⟩ := bind_eq_ok.mp hrun
    cases hr
    rw [sfsGetdirentry_spec h.mounted hj ht] at hg
    rw [← Except.ok.inj hg]

end Vfs

namespace FileCall

/-- A write starts within its file. A seek behind the end of the file, to a position that is not out of range, goes through a
descriptor with the right to write, and marks the inode where it changes it. -/
def Calm (v : Vfs) (t : Nat) : FileCall → Prop
  | .write fd _ _ _ => ∀ i j, fd2file fd (v.files t) = some i → (v.files t i).node = some (.sfs j) →
      (v.files t i).pos ≤ (v.sfs.din j).size
  | .seek fd pos whence => ∀ i j p, fd2file fd (v.files t) = some i → (v.files t i).node = some (.sfs j) →
      Vfs.target pos whence (v.files t i) (v.sfs.din j).size = some p →
      p ≤ (v.sfs.din j).size ∨ (sfsMaxFileSize : Int) ≤ p ∨ (v.files t i).writable = true ∧ v.sfs.Marks j p
  | _ => True

end FileCall

namespace Vfs

open VfsAux

variable {v v' : Vfs} {I : Finset Nat} {fix : Set Nat} {n : Node} {i t len : Nat} {d : Int} {ret : Int} {buf : Nat → UInt8}
  {answer : Int × Nat}

/-- A call on a descriptor, from what its operation does. -/
theorem operate_ok {may : File → Bool} {op : Nat → Node → Vfs → Except VfsPanic (Int × Vfs)} (h : v.Ok I fix 0)
    (ho : ∀ i n, Operates t i (op i n))
    (hop : ∀ i n u, fd2file d (v.files t) = some i → (v.files t i).node = some n → op i n (v.taken t i) = .ok (ret, u) →
      v'.sfs = u.sfs → (v.taken t i).Advance u I fix)
    (hr : v.operate t d may op = .ok (ret, v')) : v'.Ok I fix 0 := by
  have hm := operate_manned h.toManned ho hr
  rcases operate_steps h.toManned ho hr with rfl | ⟨i, n, u, hi, hn, hru, -, -, rfl⟩
  · exact h
  have ha := hop i n u hi hn hru rfl
  exact (taken_ok h (fd2file_opened hi)).quiet hm ⟨ha.vnodes, ha.bootfs, ha.pwd⟩ ha.mounted ha.types

@[simp] theorem files_taken : (v.taken t i).files t i = { v.files t i with openCount := (v.files t i).openCount + 1 } :=
  files_setFile_self

/-- A transfer is the operation of the inode, and moves the position. -/
theorem transfer_cases {write : Bool} (hr : v.transfer write t buf len answer i n = .ok (ret, v')) :
    ∃ copied u, v.vopIo write n buf (v.files t i).pos len answer = .ok (ret, copied, u) ∧ (v' = u ∨ ∃ pos, v' = u.setPos t i pos) := by
  obtain ⟨⟨code, copied, u⟩, hio, hr⟩ := bind_eq_ok.mp hr
  dsimp only at hr
  split at hr
  · cases hr
    exact ⟨copied, u, hio, Or.inr ⟨_, rfl⟩⟩
  · obtain ⟨rfl, rfl⟩ := Prod.mk.inj (Except.ok.inj hr)
    exact ⟨copied, u, hio, Or.inl rfl⟩

/-- A seek with an unknown `whence` does nothing, another is the operation of the inode, and sets the position. -/
theorem seek_cases {pos whence : Int} (hr : v.seek t pos whence i n = .ok (ret, v')) :
    v' = v ∨ ∃ p u, target pos whence (v.files t i) (v.statSize n) = some p ∧ v.vopTryseek n p = .ok (ret, u) ∧
      (v' = u ∨ v' = u.setPos t i p) := by
  obtain ⟨-, -, hr⟩ := bind_eq_ok.mp hr
  split at hr
  · exact Or.inl (Prod.mk.inj (Except.ok.inj hr)).2.symm
  rename_i p hp
  obtain ⟨⟨code, u⟩, hs, hr⟩ := bind_eq_ok.mp hr
  dsimp only at hr
  split at hr
  · rename_i hc
    cases hr
    exact Or.inr ⟨p, u, hp, hc ▸ hs, Or.inr rfl⟩
  · obtain ⟨rfl, rfl⟩ := Prod.mk.inj (Except.ok.inj hr)
    exact Or.inr ⟨p, u, hp, hs, Or.inl rfl⟩

section

variable (h : v.Ok I fix 0)
include h

theorem fileRead_ok (hr : v.fileRead t d buf len answer = .ok (ret, v')) : v'.Ok I fix 0 := by
  refine operate_ok h (fun _ _ => transfer_operates false buf len answer) ?_ hr
  intro i n u hi hn hop _
  have ho := fd2file_opened hi
  have ht := taken_ok h ho
  obtain ⟨copied, w, hio, hu⟩ := transfer_cases hop
  obtain rfl := vopIo_read_same ht (h.slot_pos ho hn) hio
  rcases hu with rfl | ⟨pos, rfl⟩
  · exact .refl ht
  · exact (Advance.refl ht).setPos

theorem fileWrite_ok
    (hc : (FileCall.write d buf len answer).Calm v t) (hr : v.fileWrite t d buf len answer = .ok (ret, v')) :
    v'.Ok I fix 0 := by
  refine operate_ok h (fun _ _ => transfer_operates true buf len answer) ?_ hr
  intro i n u hi hn hop _
  have ho := fd2file_opened hi
  obtain ⟨copied, w, hio, hu⟩ := transfer_cases hop
  rw [files_taken] at hio
  have ha : (v.taken t i).Advance w I fix :=
    vopIo_write_advance (taken_ok h ho) (h.slot_pos ho hn) (fun j hj => hc i j hi (hj ▸ hn)) hio
  rcases hu with rfl | ⟨pos, rfl⟩
  · exact ha
  · exact ha.setPos

theorem fileSeek_ok {pos whence : Int} (hc : (FileCall.seek d pos whence).Calm v t)
    (hr : v.fileSeek t d pos whence = .ok (ret, v')) : v'.Ok I fix 0 := by
  unfold fileSeek at hr
  refine operate_ok h (fun _ _ => seek_operates pos whence) ?_ hr
  intro i n u hi hn hop _
  have ho := fd2file_opened hi
  have ht := taken_ok h ho
  rcases seek_cases hop with rfl | ⟨p, w, hp, hs, hu⟩
  · exact .refl ht
  rw [files_taken] at hp
  have ha : (v.taken t i).Advance w I fix := by
    refine vopTryseek_advance ht (h.slot_pos ho hn) ?_ hs
    rintro j rfl
    exact (hc i j p hi hn hp).imp_right (Or.imp_right And.right)
  rcases hu with rfl | rfl
  · exact ha
  · exact ha.setPos

theorem fileFstat_ok (hrun : v.fileFstat t d = .ok (ret, v')) : v'.Ok I fix 0 := by
  unfold fileFstat at hrun
  refine operate_ok h (fun _ _ => fstat_operates) ?_ hrun
  intro i n u hi _ hop _
  obtain ⟨-, -, hr⟩ := bind_eq_ok.mp hop
  cases hr
  exact .refl (taken_ok h (fd2file_opened hi))

theorem fileFsync_ok (hrun : v.fileFsync t d = .ok (ret, v')) : v'.Ok I fix 0 := by
  unfold fileFsync at hrun
  refine operate_ok h (fun _ _ => fsync_operates) ?_ hrun
  intro i n u hi hn hop _
  have ho := fd2file_opened hi
  obtain ⟨w, hs, hr⟩ := bind_eq_ok.mp hop
  cases hr
  exact (vopFsync_advance (taken_ok h ho) (h.slot_pos ho hn) hs).1

theorem fileGetdirentry_ok {offset : Int} {mem : KernelMemory}
    (hr : v.fileGetdirentry t d offset mem = .ok (ret, v')) : v'.Ok I fix 0 := by
  unfold fileGetdirentry at hr
  refine operate_ok h (fun _ _ => getdirentry_operates offset) ?_ hr
  intro i n u hi hn hop _
  have ho := fd2file_opened hi
  have ht := taken_ok h ho
  obtain rfl := vopGetdirentry_same ht (h.slot_pos ho hn) hop
  exact .refl ht

/-- A calm call keeps the state between two calls. -/
theorem call_ok {c : FileCall} (hc : c.Calm v t) (hr : v.call t c = .ok (ret, v')) : v'.Ok I fix 0 := by
  cases c with
  | «open» path flags mem => exact fileOpen_ok h hr
  | close d => exact (fileClose_keeps h hr).1
  | read d buf len answer => exact fileRead_ok h hr
  | write d buf len answer => exact fileWrite_ok h hc hr
  | seek d pos whence => exact fileSeek_ok h hc hr
  | fstat d => exact fileFstat_ok h hr
  | fsync d => exact fileFsync_ok h hr
  | getdirentry d offset mem => exact fileGetdirentry_ok h hr
  | dup fd1 fd2 => exact (fileDup_keeps h hr).1
  | chdir path mem => exact vfsChdir_ok h hr

end

end Vfs

end Ucore
