import Ucore.Lemmas.VfsHold
import Ucore.Theorems.SfsSync

/-!
# Opening files

Where `vfs_open` or `file_open` fails, the counts of all inodes and the slots are what they were before the call, with one
exception: a path that leads to an inode, opened with `O_CREAT` and `O_EXCL`. The reference to the inode is then lost
(`failed_open_keeps`, `exclusive_open_leaks`).
-/

namespace Ucore

open Checked Bytes Function

namespace Vfs

/-- The slots are as before. A slot that is not in use may have lost its inode. -/
def SlotsKept (v v' : Vfs) : Prop :=
  ∀ t fd, (v'.files t fd).status = (v.files t fd).status ∧ (v'.files t fd).openCount = (v.files t fd).openCount ∧
    ((v.files t fd).status ≠ .none → v'.files t fd = v.files t fd)

/-- A call has taken no reference and no slot. -/
def Kept (v v' : Vfs) : Prop := v'.counts = v.counts ∧ v.SlotsKept v'

/-- `file_open` gets a slot, and calls `vfs_open` for a new file with a path that leads to an inode. -/
def ClashOpen (v : Vfs) (t : Nat) (path : List UInt8) (flags : Nat) (mem : KernelMemory) : Prop :=
  ∃ fd fdArray, fdArrayAlloc noFd (v.files t) = .ok (0, fd, fdArray) ∧
    { v with files := update v.files t fdArray }.Clash t path flags mem

end Vfs

namespace VfsAux

open Vfs

variable {v v' : Vfs} {n : Node} {t fd : Nat} {mem : KernelMemory} {path : List UInt8}

theorem SlotsKept.of_files (h : v'.files = v.files) : v.SlotsKept v' := by
  intro t fd
  rw [h]
  exact ⟨rfl, rfl, fun _ => rfl⟩

theorem counts_of_frame (h : v.Frame v' 0 0) : v'.counts = v.counts := by
  have hc := h.counts
  rwa [add_zero, add_zero] at hc

theorem counts_ne_of_ref (h : v.Frame v' 0 (ref n)) : v'.counts ≠ v.counts := by
  intro he
  have hn := h.refCount n
  rw [ref_self, show (v'.vnodes n).refCount = (v.vnodes n).refCount from congrArg Prod.fst (congrFun he n)] at hn
  exact absurd hn (Nat.lt_succ_self _).ne

/-! ## Slots -/

/-- The slots after a slot was allocated and freed again. -/
theorem SlotsKept.of_freed {fdArray : Nat → File} (hn : (v.files t fd).status = .none)
    (ha : fdArray = update (v.files t) fd { v.files t fd with status := .init, node := none })
    (hf : v'.files = update v.files t (update fdArray fd { fdArray fd with status := .none })) :
    v.SlotsKept v' := by
  intro t' fd'
  rw [hf]
  by_cases ht : t' = t
  swap
  · rw [update_of_ne ht]
    exact ⟨rfl, rfl, fun _ => rfl⟩
  rw [ht, update_self, ha]
  by_cases hfd : fd' = fd
  · rw [hfd, update_self, update_self]
    exact ⟨hn.symm, rfl, fun hne => absurd hn hne⟩
  · rw [update_of_ne hfd, update_of_ne hfd]
    exact ⟨rfl, rfl, fun _ => rfl⟩

/-! ## Calls -/

theorem vfsOpen_kept {flags : Nat} {ret : Int} (h : v.Absent) (hrun : v.vfsOpen t path flags mem = .ok (.error ret, v')) :
    v.Kept v' ↔ ¬v.Clash t path flags mem := by
  rcases vfsOpen_frame h hrun with ⟨n, hr, -⟩ | ⟨-, hc, hf⟩ | ⟨n, -, hc, hf⟩
  · nomatch hr
  · exact iff_of_true ⟨counts_of_frame hf, SlotsKept.of_files hf.files⟩ hc
  · exact iff_of_false (fun hk => counts_ne_of_ref hf hk.1) (not_not.mpr hc)

theorem fileOpen_kept {flags : Nat} {ret : Int} (h : v.Absent) (hrun : v.fileOpen t path flags mem = .ok (ret, v')) (hret : ret < 0) :
    v.Kept v' ↔ ¬v.ClashOpen t path flags mem := by
  unfold fileOpen at hrun
  split at hrun
  · rename_i hacc
    cases hrun
    refine iff_of_true ⟨rfl, SlotsKept.of_files rfl⟩ ?_
    rintro ⟨_, _, _, hcl⟩
    exact hcl.1.1 hacc
  obtain ⟨⟨code, fd, fdArray⟩, ha, hrun⟩ := bind_eq_ok.mp hrun
  have ha := mapError_eq_ok.mp ha
  dsimp only at hrun
  split at hrun
  · -- no slot is free
    rename_i hco
    cases hrun
    refine iff_of_true ⟨rfl, SlotsKept.of_files rfl⟩ ?_
    rintro ⟨fd', fdArray', ha', -⟩
    exact hco (Prod.mk.inj (Except.ok.inj (ha.symm.trans ha'))).1
  rename_i hco
  obtain rfl := not_not.mp hco
  obtain ⟨hn, har⟩ := fdArrayAlloc_ok ha
  have hab : { v with files := update v.files t fdArray }.Absent := h
  have hiff : { v with files := update v.files t fdArray }.Clash t path flags mem ↔ v.ClashOpen t path flags mem := by
    refine ⟨fun hc => ⟨fd, fdArray, ha, hc⟩, ?_⟩
    rintro ⟨fd', fdArray', ha', hc⟩
    obtain ⟨-, hq⟩ := Prod.mk.inj (Except.ok.inj (ha.symm.trans ha'))
    rwa [(Prod.mk.inj hq).2]
  obtain ⟨⟨r, v1⟩, ho, hrun⟩ := bind_eq_ok.mp hrun
  cases r with
  | ok n =>
    have := (store_ok hrun).1
    omega
  | error code =>
    obtain ⟨v2, hfr, hr⟩ := bind_eq_ok.mp hrun
    obtain ⟨-, rfl⟩ := Prod.mk.inj (Except.ok.inj hr)
    have hs : ∀ {a b}, Frame { v with files := update v.files t fdArray } v1 a b →
        v2.counts = v1.counts ∧ v.SlotsKept v2 := by
      intro a b hf
      have hfd : v1.files t = fdArray := by
        rw [hf.files]
        exact update_self _ _ _
      have hin : (v1.files t fd).status = .init := by
        rw [hfd, har, update_self]
      obtain rfl := fdArrayFree_init hin hfr
      refine ⟨rfl, SlotsKept.of_freed hn har ?_⟩
      show update v1.files t _ = _
      rw [hfd, hf.files]
      exact update_idem _ _ _
    rcases vfsOpen_frame hab ho with ⟨n, hr, -⟩ | ⟨-, hcl, hf⟩ | ⟨n, -, hcl, hf⟩
    · nomatch hr
    · have hcounts := counts_of_frame hf
      exact iff_of_true ⟨(hs hf).1.trans hcounts, (hs hf).2⟩ (fun hc => hcl (hiff.mpr hc))
    · refine iff_of_false ?_ (not_not.mpr (hiff.mp hcl))
      intro hk
      exact counts_ne_of_ref hf ((hs hf).1.symm.trans hk.1)

end VfsAux

/-- Where `vfs_open` or `file_open` returns an error, the counts of every inode and the slots are what they were, exactly if it was not
a path of an inode that was to be opened as a new file. -/
theorem failed_open_keeps {v : Vfs} (h : v.Absent) (t : Nat) (path : List UInt8) (flags : Nat) (mem : KernelMemory) (ret : Int) (v' : Vfs) :
    (v.vfsOpen t path flags mem = .ok (.error ret, v') → (v.Kept v' ↔ ¬v.Clash t path flags mem)) ∧
      (v.fileOpen t path flags mem = .ok (ret, v') → ret < 0 → (v.Kept v' ↔ ¬v.ClashOpen t path flags mem)) :=
  ⟨VfsAux.vfsOpen_kept h, VfsAux.fileOpen_kept h⟩

/-! ## A small tree -/

/-- The root of a volume with one entry, in the block 3. -/
def shelfRoot : DiskInode := ⟨4096, .dir, 1, 1, fun k => if k = 0 then 3 else 0, 0⟩

/-- A volume of eight blocks. The root has the entry `a`, a file with its inode in the block 4. -/
def shelf (file : DiskInode) : Sfs where
  blocks := 8
  unusedBlocks := 3
  freemap := ⟨32768, 1024, fun w => if w = 0 then 0xe0#32 else 0#32⟩
  superDirty := false
  disk b o := if b = 1 then shelfRoot.bytes o else if b = 4 then file.bytes o else
    if b = 3 then (if o < 4 then byteOf 4 o else if o = 4 then 97 else 0) else 0
  inodes i := ⟨if i = 4 then file else shelfRoot, false⟩

/-- The volume is mounted as `disk0`, and the root is the directory of `bootfs` and of the process 0. -/
def shelfVfs (s : Sfs) : Vfs where
  sfs := s
  vnodes
    | .sfs i => if i = 1 then ⟨.dir, 2, 0⟩ else ⟨.file, 0, 0⟩
    | .dev _ => ⟨.dev, 1, 0⟩
  vdevList := [⟨[100, 105, 115, 107, 48], true, true, 8, 4096, fun _ => 0⟩]
  bootfs := some (.sfs 1)
  pwd t := if t = 0 then some (.sfs 1) else none
  files _ := File.fresh

/-- Memory for all that a call asks for. -/
def KernelMemory.all : KernelMemory := ⟨true, true, true⟩

theorem VfsAux.shelfVfs_absent (s : Sfs) : (shelfVfs s).Absent := by
  intro n
  cases n with
  | sfs i =>
    by_cases hi : i = 1
    · rw [hi]
      nofun
    · rw [show (shelfVfs s).vnodes (.sfs i) = ⟨.file, 0, 0⟩ from if_neg hi]
      exact fun _ => rfl
  | dev k => nofun

/-- A path that leads nowhere: the call fails, and nothing is taken. -/
theorem failed_open_keeps_missing : ∃ v', (shelfVfs (shelf (smallFile 0 0))).fileOpen 0 [98] 0 .all = .ok (-eNoent, v') ∧
    ((shelfVfs (shelf (smallFile 0 0))).Kept v' ↔ ¬(shelfVfs (shelf (smallFile 0 0))).ClashOpen 0 [98] 0 .all) := by
  have hr : (shelfVfs (shelf (smallFile 0 0))).fileOpen 0 [98] 0 .all = .ok (-eNoent, _) :=
    eq_ok_pair (by decide +kernel) (by decide +kernel)
  exact ⟨_, hr, (failed_open_keeps (VfsAux.shelfVfs_absent _) 0 [98] 0 .all _ _).2 hr (by decide)⟩

/-- The file `a` is opened with `O_CREAT` and `O_EXCL`: the call returns `-E_EXISTS`, no slot is taken, and the file has a reference that
nobody gives back. -/
theorem exclusive_open_leaks : ∃ v', (shelfVfs (shelf (smallFile 0 0))).fileOpen 0 [97] (1 + 4 + 8) .all = .ok (-eExists, v') ∧
    ((shelfVfs (shelf (smallFile 0 0))).vnodes (.sfs 4)).refCount = 0 ∧ (v'.vnodes (.sfs 4)).refCount = 1 ∧
      (v'.files 0 0).status = .none :=
  ⟨_, eq_ok_pair (by decide +kernel) (by decide +kernel), by decide +kernel⟩

end Ucore
