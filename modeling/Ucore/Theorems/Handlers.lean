import Ucore.Theorems.VfsOpen

/-!
# Handlers of descriptor operations

A call on an open descriptor asks the operation table of its inode. In every state that calls lead to, the assertion that the table
has the operation fires exactly for a read or a seek on a directory, a sync of a device, and an entry of something that is not a
directory (`missing_handlers`). A write never meets it, since a directory cannot be opened for writing.
-/

namespace Ucore

open Checked Bytes

/-- The states that calls of processes lead to. -/
inductive CallReach (v₀ : Vfs) : Vfs → Prop
  | start : CallReach v₀ v₀
  | step {v v' : Vfs} {ret : Int} (t : Nat) (c : FileCall) : CallReach v₀ v → v.call t c = .ok (ret, v') → CallReach v₀ v'

namespace FileCall

/-- The descriptor of a call on an open file, and what its slot must permit. -/
def request : FileCall → Option (Int × (File → Bool))
  | .read fd _ _ _ => some (fd, (·.readable))
  | .write fd _ _ _ => some (fd, (·.writable))
  | .seek fd _ _ => some (fd, fun _ => true)
  | .fstat fd => some (fd, fun _ => true)
  | .fsync fd => some (fd, fun _ => true)
  | .getdirentry fd _ _ => some (fd, fun _ => true)
  | _ => none

/-- The call comes to an operation that the inode does not have. With `LSEEK_END` the counts of the inode are checked before. -/
def Missing (n : Vnode) : FileCall → Prop
  | .read _ _ _ _ => n.ops = .dir
  | .seek _ _ whence => n.ops = .dir ∧ (whence = 0 ∨ whence = 1 ∨ whence = 2 ∧ Vfs.inodeCheck n)
  | .fsync _ => n.ops = .dev
  | .getdirentry _ _ _ => n.ops ≠ .dir
  | _ => False

end FileCall

namespace VfsAux

open Vfs

variable {v : Vfs} {n : Node} {i t : Nat} {mem : KernelMemory} {α β : Type} {may : File → Bool}

/-- A computation is stopped by the assertion of `__vop_op`. -/
def Unhandled (x : Except VfsPanic α) : Prop := ∃ op, x = .error (.handler op)

theorem not_unhandled_ok (a : α) : ¬Unhandled (.ok a : Except VfsPanic α) := by
  rintro ⟨op, h⟩
  nomatch h

theorem not_unhandled_sfs (x : Except SfsPanic α) : ¬Unhandled (x.mapError VfsPanic.sfs) := by
  rintro ⟨op, h⟩
  cases x <;> nomatch h

/-- A sequence of two steps, of which the second is not stopped so. -/
theorem unhandled_bind {x : Except VfsPanic α} {f : α → Except VfsPanic β} (hf : ∀ a, ¬Unhandled (f a)) :
    Unhandled (x >>= f) ↔ Unhandled x := by
  cases x with
  | error e => exact ⟨fun ⟨op, h⟩ => ⟨op, by rw [Except.error.inj h]⟩, fun ⟨op, h⟩ => ⟨op, by rw [h]; rfl⟩⟩
  | ok a => exact iff_of_false (hf a) (not_unhandled_ok a)

theorem unhandled_vop {op : Vop} : Unhandled (v.vop n op) ↔ op ∉ (v.vnodes n).ops.vops := by
  unfold vop
  constructor
  · rintro ⟨op', h⟩ hm
    rw [ensure_of hm] at h
    unfold ensure at h
    split at h <;> nomatch h
  · intro hm
    exact ⟨op, by rw [ensure_of_not hm]; rfl⟩

/-- An operation that begins with `__vop_op`, and then does what cannot be stopped so where the table has the operation. -/
theorem unhandled_vop_bind {op : Vop} {f : Unit → Except VfsPanic α} (hf : op ∈ (v.vnodes n).ops.vops → ¬Unhandled (f ())) :
    Unhandled (v.vop n op >>= f) ↔ op ∉ (v.vnodes n).ops.vops := by
  by_cases hm : op ∈ (v.vnodes n).ops.vops
  · rw [unhandled_bind (fun _ => hf hm)]
    exact unhandled_vop
  · obtain ⟨op', h⟩ := unhandled_vop.mpr hm
    rw [h]
    exact iff_of_true ⟨op', rfl⟩ hm

/-! ## The operations -/

theorem unhandled_transfer {write : Bool} {buf : Nat → UInt8} {len : Nat} {answer : Int × Nat} :
    Unhandled (transfer write t buf len answer i n v) ↔ (if write then .write else .read) ∉ (v.vnodes n).ops.vops := by
  unfold transfer
  rw [unhandled_bind]
  · refine unhandled_vop_bind fun _ => ?_
    cases n with
    | sfs j => exact fun hc => not_unhandled_sfs _ ((unhandled_bind fun _ => not_unhandled_ok _).mp hc)
    | dev k => exact not_unhandled_ok _
  · intro r
    dsimp only
    split
    · exact not_unhandled_ok _
    · exact not_unhandled_ok _

theorem unhandled_tryseek {pos : Int} : Unhandled (v.vopTryseek n pos) ↔ .tryseek ∉ (v.vnodes n).ops.vops := by
  refine unhandled_vop_bind fun _ => ?_
  cases n with
  | sfs j => exact fun hc => not_unhandled_sfs _ ((unhandled_bind fun _ => not_unhandled_ok _).mp hc)
  | dev k =>
    dsimp only
    split
    · exact not_unhandled_ok _
    · rintro ⟨op, h⟩
      nomatch h

theorem fstat_mem (ops : NodeOps) : Vop.fstat ∈ ops.vops := by
  cases ops <;> decide

theorem unhandled_seek {pos whence : Int} : Unhandled (seek t pos whence i n v) ↔
    .tryseek ∉ (v.vnodes n).ops.vops ∧ (whence = 0 ∨ whence = 1 ∨ whence = 2 ∧ inodeCheck (v.vnodes n)) := by
  have hr : ∀ target : Int, Unhandled (do
      let r ← v.vopTryseek n target
      if r.1 = 0 then return (0, r.2.setPos t i target) else return (r.1, r.2)) ↔ .tryseek ∉ (v.vnodes n).ops.vops := by
    intro target
    rw [unhandled_bind, unhandled_tryseek]
    intro r
    split
    · exact not_unhandled_ok _
    · exact not_unhandled_ok _
  unfold seek seekStat target
  by_cases h0 : whence = 0
  · rw [if_neg (by omega), if_pos h0]
    exact (hr _).trans (and_iff_left (Or.inl h0)).symm
  by_cases h1 : whence = 1
  · rw [if_neg (by omega), if_neg h0, if_pos h1]
    exact (hr _).trans (and_iff_left (Or.inr (Or.inl h1))).symm
  by_cases h2 : whence = 2
  · rw [if_pos h2, if_neg h0, if_neg h1, if_pos h2]
    by_cases hc : inodeCheck (v.vnodes n)
    · rw [show v.vop n .fstat = .ok () by unfold vop; rw [ensure_of (fstat_mem _), bind_ok, ensure_of hc]]
      exact (hr _).trans (and_iff_left (Or.inr (Or.inr ⟨h2, hc⟩))).symm
    · -- the counts stop the call before it comes to the operation
      rw [show v.vop n .fstat = .error .inodeCheck by unfold vop; rw [ensure_of (fstat_mem _), bind_ok, ensure_of_not hc]]
      refine iff_of_false ?_ ?_
      · rintro ⟨op, h⟩
        cases h
      · rintro ⟨-, h | h | h⟩
        · exact h0 h
        · exact h1 h
        · exact hc h.2
  · rw [if_neg h2, if_neg h0, if_neg h1, if_neg h2]
    refine iff_of_false (not_unhandled_ok _) ?_
    rintro ⟨-, h | h | h⟩
    · exact h0 h
    · exact h1 h
    · exact h2 h.1

theorem unhandled_fsync (hk : v.Kinds) : Unhandled (v.vopFsync n) ↔ .fsync ∉ (v.vnodes n).ops.vops := by
  refine unhandled_vop_bind fun hm => ?_
  cases n with
  | sfs j => exact fun hc => not_unhandled_sfs _ ((unhandled_bind fun _ => not_unhandled_ok _).mp hc)
  | dev k =>
    rw [hk.dev k] at hm
    exact absurd hm (by decide)

theorem unhandled_getdirentry {offset : Int} (hk : v.Kinds) :
    Unhandled (v.vopGetdirentry n offset mem) ↔ .getdirentry ∉ (v.vnodes n).ops.vops := by
  refine unhandled_vop_bind fun hm => ?_
  cases n with
  | sfs j => exact fun hc => not_unhandled_sfs _ ((unhandled_bind fun _ => not_unhandled_ok _).mp hc)
  | dev k =>
    rw [hk.dev k] at hm
    exact absurd hm (by decide)

/-! ## The calls -/

/-- A call on an open descriptor is stopped where its operation is. -/
theorem unhandled_operate {d : Int} {op : Nat → Node → Vfs → Except VfsPanic (Int × Vfs)} (h : v.Manned 0)
    (hi : fd2file d (v.files t) = some i) (hm : may (v.files t i) = true) (hn : (v.files t i).node = some n)
    (hop : Operates t i (op i n)) : Unhandled (v.operate t d may op) ↔ Unhandled (op i n (v.taken t i)) := by
  have ho := fd2file_opened hi
  have hco := (h.slots t i ho).1
  rw [operate_eq hi hm hn]
  cases hr : op i n (v.taken t i) with
  | error e => exact Iff.rfl
  | ok r =>
    obtain ⟨-, hst, hc⟩ := hop _ _ _ (taken_manned h ho) hr
    unfold taken at hst hc
    rw [files_setFile_self] at hst hc
    obtain ⟨v2, hrel⟩ := fdArrayRelease_ok (hst.trans ho) (hc ▸ Nat.succ_lt_succ hco)
    refine iff_of_false ?_ (not_unhandled_ok _)
    rw [bind_ok, hrel]
    exact not_unhandled_ok _

/-- A call on an open descriptor in a state in which every holder has its reference. -/
theorem unhandled_call {c : FileCall} {d : Int} (h : v.Manned 0) (hr : c.request = some (d, may))
    (hi : fd2file d (v.files t) = some i) (hmay : may (v.files t i) = true) (hn : (v.files t i).node = some n) :
    Unhandled (v.call t c) ↔ c.Missing (v.vnodes n) := by
  have hkinds := (taken_manned h (fd2file_opened hi)).kinds
  cases c with
  | «open» | close | dup | chdir => nomatch hr
  | read d' buf len answer =>
    obtain ⟨rfl, rfl⟩ := Prod.mk.inj (Option.some.inj hr)
    change Unhandled (v.operate t d' _ (transfer false t buf len answer)) ↔ (v.vnodes n).ops = .dir
    rw [unhandled_operate h hi hmay hn (transfer_operates false buf len answer), unhandled_transfer]
    change Vop.read ∉ (v.vnodes n).ops.vops ↔ _
    cases (v.vnodes n).ops <;> decide
  | write d' buf len answer =>
    obtain ⟨rfl, rfl⟩ := Prod.mk.inj (Option.some.inj hr)
    change Unhandled (v.operate t d' _ (transfer true t buf len answer)) ↔ False
    rw [unhandled_operate h hi hmay hn (transfer_operates true buf len answer), unhandled_transfer]
    -- the slot is writable, so that its inode is not a directory
    obtain ⟨-, m, hm, hw⟩ := h.slots t i (fd2file_opened hi)
    cases hn.symm.trans hm
    have hd := hw hmay
    change Vop.write ∉ (v.vnodes n).ops.vops ↔ _
    cases ho : (v.vnodes n).ops with
    | dir => exact absurd ho hd
    | file => decide
    | dev => decide
  | seek d' pos whence =>
    obtain ⟨rfl, rfl⟩ := Prod.mk.inj (Option.some.inj hr)
    change Unhandled (v.operate t d' (fun _ => true) (seek t pos whence)) ↔ (v.vnodes n).ops = .dir ∧ _
    rw [unhandled_operate h hi rfl hn (seek_operates pos whence), unhandled_seek]
    refine and_congr_left' ?_
    change Vop.tryseek ∉ (v.vnodes n).ops.vops ↔ _
    cases (v.vnodes n).ops <;> decide
  | fstat d' =>
    obtain ⟨rfl, rfl⟩ := Prod.mk.inj (Option.some.inj hr)
    change Unhandled (v.fileFstat t d') ↔ False
    unfold fileFstat
    rw [unhandled_operate h hi rfl hn fstat_operates]
    refine ((unhandled_bind fun _ => not_unhandled_ok _).trans unhandled_vop).trans ?_
    exact iff_of_false (not_not.mpr (fstat_mem _)) id
  | fsync d' =>
    obtain ⟨rfl, rfl⟩ := Prod.mk.inj (Option.some.inj hr)
    change Unhandled (v.fileFsync t d') ↔ (v.vnodes n).ops = .dev
    unfold fileFsync
    rw [unhandled_operate h hi rfl hn fsync_operates]
    refine ((unhandled_bind fun _ => not_unhandled_ok _).trans (unhandled_fsync hkinds)).trans ?_
    change Vop.fsync ∉ (v.vnodes n).ops.vops ↔ _
    cases (v.vnodes n).ops <;> decide
  | getdirentry d' offset mem =>
    obtain ⟨rfl, rfl⟩ := Prod.mk.inj (Option.some.inj hr)
    change Unhandled (v.fileGetdirentry t d' offset mem) ↔ (v.vnodes n).ops ≠ .dir
    unfold fileGetdirentry
    rw [unhandled_operate h hi rfl hn (getdirentry_operates offset), unhandled_getdirentry hkinds]
    change Vop.getdirentry ∉ (v.vnodes n).ops.vops ↔ _
    cases (v.vnodes n).ops <;> decide

theorem CallReach.manned {v0 : Vfs} (h : v0.Manned 0) (hr : CallReach v0 v) : v.Manned 0 := by
  induction hr with
  | start => exact h
  | step t c _ hrun ih => exact Vfs.call_manned ih hrun

end VfsAux

/-- In every state that calls lead to, for every call on a descriptor that is open and permits it: the assertion of `__vop_op` fires
exactly where the inode lacks the operation, which is the case for a read of or a seek on a directory, a sync of a device, and the
entries of what is not a directory. -/
theorem missing_handlers {v₀ v : Vfs} (h : v₀.Manned 0) (hr : CallReach v₀ v) (t : Nat) (c : FileCall) (d : Int) (may : File → Bool)
    (hreq : c.request = some (d, may)) (i : Nat) (hi : fd2file d (v.files t) = some i) (hmay : may (v.files t i) = true) (n : Node)
    (hn : (v.files t i).node = some n) : (∃ op, v.call t c = .error (.handler op)) ↔ c.Missing (v.vnodes n) :=
  VfsAux.unhandled_call (VfsAux.CallReach.manned h hr) hreq hi hmay hn

/-! ## A directory that is read -/

theorem VfsAux.shelfVfs_holds {s : Sfs} {h : Holder} {n : Node} (hh : (shelfVfs s).holds h = some n) :
    (h ∈ ({.pwd 0, .boot} : Finset Holder) ∧ n = .sfs 1) ∨ h = .dev 0 ∧ n = .dev 0 := by
  cases h with
  | slot t fd => nomatch hh
  | pwd t =>
    change (if t = 0 then some (Node.sfs 1) else none) = some n at hh
    split at hh
    · rename_i ht
      rw [ht]
      exact Or.inl ⟨by decide, (Option.some.inj hh).symm⟩
    · nomatch hh
  | boot => exact Or.inl ⟨by decide, (Option.some.inj hh).symm⟩
  | dev k =>
    change (if k < 1 then some (Node.dev k) else none) = some n at hh
    split at hh
    · obtain rfl : k = 0 := by omega
      exact Or.inr ⟨rfl, (Option.some.inj hh).symm⟩
    · nomatch hh

theorem VfsAux.shelfVfs_manned (s : Sfs) : (shelfVfs s).Manned 0 where
  absent := VfsAux.shelfVfs_absent s
  kinds := by
    refine ⟨fun _ => rfl, ?_⟩
    intro i
    change (if i = 1 then (⟨.dir, 2, 0⟩ : Vnode) else ⟨.file, 0, 0⟩).ops ≠ .dev
    split <;> decide
  backed := by
    intro n S hS
    cases n with
    | sfs i =>
      by_cases hi : i = 1
      · have hs : S ⊆ {.pwd 0, .boot} := by
          intro h hh
          rcases VfsAux.shelfVfs_holds (hS h hh) with hc | hc
          · exact hc.1
          · nomatch hc.2
        rw [hi]
        exact Finset.card_le_card hs
      · have he : S = ∅ := by
          refine Finset.eq_empty_of_forall_notMem fun h hh => ?_
          rcases VfsAux.shelfVfs_holds (hS h hh) with hc | hc
          · exact hi (Node.sfs.inj hc.2)
          · nomatch hc.2
        rw [he]
        exact Nat.zero_le _
    | dev k =>
      have hs : S ⊆ {.dev 0} := by
        intro h hh
        rcases VfsAux.shelfVfs_holds (hS h hh) with hc | hc
        · nomatch hc.2
        · exact Finset.mem_singleton.mpr hc.1
      exact Finset.card_le_card hs
  slots _ _ := nofun

/-- The root is opened for reading, and the call of `file_read` comes to an operation that directories do not have. -/
theorem missing_handlers_root : ∃ v, CallReach (shelfVfs (shelf (smallFile 0 0))) v ∧
    ((∃ op, v.call 0 (.read 0 (fun _ => 0) 1 (0, 0)) = .error (.handler op)) ↔ (v.vnodes (.sfs 1)).ops = .dir) := by
  have hr : CallReach (shelfVfs (shelf (smallFile 0 0))) _ :=
    .step 0 (.open [47] 0 .all) .start (eq_ok_okGet (by decide +kernel))
  exact ⟨_, hr, missing_handlers (VfsAux.shelfVfs_manned _) hr 0 (.read 0 (fun _ => 0) 1 (0, 0)) 0 (·.readable) rfl 0
    (by decide +kernel) (by decide +kernel) _ (by decide +kernel)⟩

/-- The root is opened for reading, which succeeds, and then read: the assertion that its table has the operation fails. -/
theorem directory_read_panics : ∃ v, CallReach (shelfVfs (shelf (smallFile 0 0))) v ∧ (v.files 0 0).status = .opened ∧
    (v.files 0 0).readable = true ∧ v.call 0 (.read 0 (fun _ => 0) 1 (0, 0)) = .error (.handler .read) :=
  ⟨_, .step 0 (.open [47] 0 .all) .start (eq_ok_okGet (by decide +kernel)), by decide +kernel, by decide +kernel,
    eq_error_of_errorIs (by decide +kernel)⟩

/-- The counts of the inodes are away from the end of `int`, by more than a call adds to them meanwhile. -/
def Vfs.Counted (v : Vfs) : Prop := ∀ n, (v.vnodes n).refCount + 16 < 2 ^ 31 ∧ (v.vnodes n).openCount + 16 < 2 ^ 31

/-- The states that calls of processes lead to, where no count comes to the end of its type on the way. -/
inductive CountedReach (v₀ : Vfs) : Vfs → Prop
  | start : v₀.Counted → CountedReach v₀ v₀
  | step {v v' : Vfs} {ret : Int} (t : Nat) (c : FileCall) : CountedReach v₀ v → v.call t c = .ok (ret, v') → v'.Counted →
      CountedReach v₀ v'

theorem VfsAux.CountedReach.calls {v0 v : Vfs} (hr : CountedReach v0 v) : CallReach v0 v := by
  induction hr with
  | start _ => exact .start
  | step t c _ hc _ ih => exact .step t c ih hc

/-- In every state that calls lead to while the counts keep within their type, an inode has a reference for each of its holders, and
without references it is not open. -/
theorem holders_have_references {v₀ v : Vfs} (h : v₀.Manned 0) (hr : CountedReach v₀ v) (n : Node) :
    (∀ S : Finset Holder, (∀ x ∈ S, v.holds x = some n) → S.card ≤ (v.vnodes n).refCount) ∧
    ((v.vnodes n).refCount = 0 → (v.vnodes n).openCount = 0) := by
  have hm := VfsAux.CallReach.manned h (VfsAux.CountedReach.calls hr)
  exact ⟨hm.backed n, hm.absent n⟩

theorem VfsAux.shelfVfs_counted (s : Sfs) : (shelfVfs s).Counted := by
  intro n
  cases n with
  | sfs i =>
    change (if i = 1 then _ else _ : Vnode).refCount + 16 < _ ∧ (if i = 1 then _ else _ : Vnode).openCount + 16 < _
    split <;> decide
  | dev k => exact ⟨show 1 + 16 < _ by decide, show 0 + 16 < _ by decide⟩

/-- The root is the current directory and that of the boot file system. No descriptor is open, so that a `close` is refused. -/
theorem root_has_references : ∃ v, CountedReach (shelfVfs (shelf (smallFile 0 0))) v ∧ 2 ≤ (v.vnodes (.sfs 1)).refCount := by
  have hr : CountedReach (shelfVfs (shelf (smallFile 0 0))) (shelfVfs (shelf (smallFile 0 0))) :=
    .step 0 (.close 0) (.start (VfsAux.shelfVfs_counted _)) rfl (VfsAux.shelfVfs_counted _)
  have hS := (holders_have_references (VfsAux.shelfVfs_manned _) hr (.sfs 1)).1 {.boot, .pwd 0}
  exact ⟨_, hr, hS (by decide)⟩

end Ucore
