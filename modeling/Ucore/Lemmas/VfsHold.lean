import Ucore.Lemmas.Vfs
import Ucore.Lib.RefCount

/-!
# What refers to an inode

Open slots, current directories, `bootfs` and the list of devices each hold a reference to an inode (`Vfs.Manned`), so that its operations
do not change while they do: a slot that is writable never has a directory. Every call keeps this (`call_manned`).
-/

namespace Ucore

open Checked RefCount Function

/-- What can hold a reference to an inode between two calls. -/
inductive Holder
  | slot (t fd : Nat)
  | pwd (t : Nat)
  | boot
  | dev (k : Nat)
  deriving DecidableEq

namespace Vfs

/-- The inode that a slot holds. -/
def slotNode (file : File) : Option Node := if file.status = .opened then file.node else none

/-- The inode that a holder refers to. -/
def holds (v : Vfs) : Holder → Option Node
  | .slot t fd => slotNode (v.files t fd)
  | .pwd t => v.pwd t
  | .boot => v.bootfs
  | .dev k => if k < v.vdevList.length then some (.dev k) else none

/-- A slot that is open has an inode, and does not write to a directory. -/
def SlotOk (v : Vfs) (file : File) : Prop :=
  file.status = .opened → 0 < file.openCount ∧ ∃ n, file.node = some n ∧ (file.writable = true → (v.vnodes n).ops ≠ .dir)

/-- Every holder has a reference, and there are the references `x` beside those; open slots are as they should be. -/
structure Manned (v : Vfs) (x : Node → Nat × Nat) : Prop where
  absent : v.Absent
  kinds : v.Kinds
  backed : Backed v.holds (fun n => (v.vnodes n).refCount) fun n => (x n).1
  slots : ∀ t fd, v.SlotOk (v.files t fd)

open VfsAux

variable {v v' : Vfs} {x a b : Node → Nat × Nat} {n old dir : Node} {i t fd t' fd' len copied : Nat} {mem : KernelMemory}
  {path : List UInt8} {file : File} {ret d pos offset fd1 fd2 : Int} {flags : Nat} {may : File → Bool}
  {op : Nat → Node → Vfs → Except VfsPanic (Int × Vfs)}

/-! ## References come and go -/

theorem Manned.mono {x' : Node → Nat × Nat} (h : v.Manned x) (hle : ∀ n, (x' n).1 ≤ (x n).1) : v.Manned x' :=
  { h with backed := h.backed.mono hle }

theorem Manned.zero (h : v.Manned x) : v.Manned 0 := h.mono fun _ => Nat.zero_le _

theorem holds_of_frame (hf : v.Frame v' a b) : v'.holds = v.holds := by
  funext h
  cases h with
  | slot t fd => exact congrArg slotNode (congrFun (congrFun hf.files t) fd)
  | pwd t => exact congrFun hf.pwd t
  | boot => exact hf.bootfs
  | dev k =>
    change (if k < v'.vdevList.length then _ else _) = _
    rw [hf.vdevList]
    rfl

/-- An inode with a holder keeps its operations. -/
theorem Manned.ops (h : v.Manned (x + a)) (hf : v.Frame v' a b) {hd : Holder} (hh : v.holds hd = some n) :
    (v'.vnodes n).ops = (v.vnodes n).ops := by
  refine hf.steady n 1 Nat.one_pos ?_
  have hp : 1 + ((x n).1 + (a n).1) ≤ (v.vnodes n).refCount := h.backed.pos hh
  omega

theorem Manned.frame (h : v.Manned (x + a)) (hf : v.Frame v' a b) : v'.Manned (x + b) where
  absent := hf.absent
  kinds := hf.kinds h.kinds
  backed := by
    rw [holds_of_frame hf]
    have hb : Backed v.holds _ ((fun n => (x n).1) + fun n => (a n).1) := h.backed
    exact hb.move hf.refCount
  slots t fd := by
    rw [hf.files]
    intro ho
    obtain ⟨hc, n, hn, hw⟩ := h.slots t fd ho
    have hh : v.holds (.slot t fd) = some n := (if_pos ho).trans hn
    exact ⟨hc, n, hn, by rwa [h.ops hf hh]⟩

theorem Manned.frame_zero (h : v.Manned x) (hf : v.Frame v' 0 b) : v'.Manned (x + b) :=
  Manned.frame (by rwa [add_zero]) hf

/-- Only the volume changes. -/
theorem Manned.ofSfs {s : Sfs} (h : v.Manned x) : Manned { v with sfs := s } x := by
  have := h.frame_zero (Frame.ofSfs h.absent (s := s))
  rwa [add_zero] at this

/-! ## Slots -/

@[simp] theorem files_setFile_self : (v.setFile t fd file).files t fd = file := by
  unfold setFile
  dsimp only
  rw [update_self, update_self]

theorem files_setFile_of_ne (h : t' ≠ t ∨ fd' ≠ fd) : (v.setFile t fd file).files t' fd' = v.files t' fd' := by
  unfold setFile
  dsimp only
  by_cases ht : t' = t
  · rw [ht, update_self, update_of_ne (h.resolve_left (not_not.mpr ht))]
  · rw [update_of_ne ht]

theorem holds_setFile : (v.setFile t fd file).holds = update v.holds (.slot t fd) (slotNode file) := by
  funext h
  rw [update_apply]
  split
  · rename_i he
    rw [he]
    exact congrArg slotNode files_setFile_self
  · rename_i he
    cases h with
    | slot t' fd' =>
      refine congrArg slotNode (files_setFile_of_ne ?_)
      by_contra hc
      rw [not_or, not_not, not_not] at hc
      exact he (by rw [hc.1, hc.2])
    | pwd t => rfl
    | boot => rfl
    | dev k => rfl

/-- The other slots are what they were. -/
theorem slots_setFile (h : ∀ t fd, v.SlotOk (v.files t fd)) (hok : v.SlotOk file) (t' fd' : Nat) :
    (v.setFile t fd file).SlotOk ((v.setFile t fd file).files t' fd') := by
  by_cases he : t' = t ∧ fd' = fd
  · rw [he.1, he.2, files_setFile_self]
    exact hok
  · rw [files_setFile_of_ne (by omega)]
    exact h t' fd'

/-- A slot changes, and holds what it held. -/
theorem Manned.setFile (h : v.Manned x) (hs : slotNode file = slotNode (v.files t fd)) (hok : v.SlotOk file) :
    (v.setFile t fd file).Manned x where
  absent := h.absent
  kinds := ⟨h.kinds.dev, h.kinds.sfs⟩
  backed := by
    rw [holds_setFile, hs]
    exact (update_eq_self (Holder.slot t fd) v.holds).symm ▸ h.backed
  slots := slots_setFile h.slots hok

/-- A slot that is not open stays so. -/
theorem Manned.setFile_closed (h : v.Manned x) (hold : (v.files t fd).status ≠ .opened) (hn : file.status ≠ .opened) :
    (v.setFile t fd file).Manned x :=
  h.setFile ((if_neg hn).trans (if_neg hold).symm) fun hc => absurd hc hn

theorem single_ref (n : Node) : (fun m => (ref n m).1) = Pi.single n 1 := by
  funext m
  unfold ref
  by_cases hm : m = n
  · rw [hm, Pi.single_eq_same, Pi.single_eq_same]
  · rw [Pi.single_eq_of_ne hm, Pi.single_eq_of_ne hm]
    rfl

theorem add_ref (x : Node → Nat × Nat) (n : Node) : (fun m => ((x + ref n) m).1) = (fun m => (x m).1) + Pi.single n 1 := by
  rw [← single_ref]
  rfl

/-- An open slot is closed: its reference is free. -/
theorem Manned.setFile_drop (h : v.Manned x) (ho : (v.files t fd).status = .opened) (hn : (v.files t fd).node = some n)
    (hnew : file.status ≠ .opened) : (v.setFile t fd file).Manned (x + ref n) where
  absent := h.absent
  kinds := ⟨h.kinds.dev, h.kinds.sfs⟩
  backed := by
    have hh : v.holds (.slot t fd) = some n := (if_pos ho).trans hn
    rw [holds_setFile, show slotNode file = none from if_neg hnew, add_ref]
    exact h.backed.drop hh
  slots := slots_setFile h.slots fun hc => absurd hc hnew

/-- A slot gets the inode to which there is a reference. -/
theorem Manned.setFile_take (h : v.Manned (x + ref n)) (hn : file.node = some n) (ho : file.status = .opened) (hok : v.SlotOk file) :
    (v.setFile t fd file).Manned x where
  absent := h.absent
  kinds := ⟨h.kinds.dev, h.kinds.sfs⟩
  backed := by
    have hb := h.backed
    rw [add_ref] at hb
    rw [holds_setFile, show slotNode file = some n from (if_pos ho).trans hn]
    exact hb.take
  slots := slots_setFile h.slots hok

/-! ## Calls -/

/-- A table in which a slot is allocated. -/
theorem setFile_alloc {fdArray : Nat → File} (h : fdArray = update (v.files t) fd file) :
    { v with files := update v.files t fdArray } = v.setFile t fd file := by
  rw [h]
  rfl

/-- The slot is allocated. -/
def allocated (v : Vfs) (t fd : Nat) : Vfs := v.setFile t fd { v.files t fd with status := .init, node := none }

/-- The ways through `file_open` that end without a panic. -/
inductive FileOpenSteps (v : Vfs) (t : Nat) (path : List UInt8) (flags : Nat) (mem : KernelMemory) : Int → Vfs → Prop
  | refused {ret : Int} : FileOpenSteps v t path flags mem ret v
  | failed {fd : Nat} {ret : Int} {v₁ : Vfs} : (v.files t fd).status = .none →
      (v.allocated t fd).vfsOpen t path flags mem = .ok (.error ret, v₁) → v₁.files = (v.allocated t fd).files →
      FileOpenSteps v t path flags mem ret (v₁.setFile t fd { v₁.files t fd with status := .none })
  | stored {fd : Nat} {n : Node} {v₁ : Vfs} {file : File} : (v.files t fd).status = .none →
      (v.allocated t fd).vfsOpen t path flags mem = .ok (.ok n, v₁) → v₁.files = (v.allocated t fd).files →
      file.status = .opened → 0 < file.openCount → file.node = some n → file.writable = decide (flags % 4 ≠ 0) →
      FileOpenSteps v t path flags mem fd (v₁.setFile t fd file)

theorem fileOpen_steps (h : v.Absent) (hrun : v.fileOpen t path flags mem = .ok (ret, v')) :
    FileOpenSteps v t path flags mem ret v' := by
  unfold fileOpen at hrun
  split at hrun
  · cases hrun
    exact .refused
  obtain ⟨⟨code, fd, fdArray⟩, ha, hrun⟩ := bind_eq_ok.mp hrun
  dsimp only at hrun
  split at hrun
  · cases hrun
    exact .refused
  rename_i hco
  obtain rfl := not_not.mp hco
  obtain ⟨hn, har⟩ := fdArrayAlloc_ok (mapError_eq_ok.mp ha)
  rw [setFile_alloc har] at hrun
  obtain ⟨⟨r, v1⟩, ho, hrun⟩ := bind_eq_ok.mp hrun
  have hfi : v1.files = (v.allocated t fd).files := by
    have hab : (v.allocated t fd).Absent := h
    rcases vfsOpen_frame hab ho with ⟨n, -, hf⟩ | ⟨-, -, hf⟩ | ⟨n, -, -, hf⟩
    · exact hf.files
    · exact hf.files
    · exact hf.files
  cases r with
  | ok n =>
    obtain ⟨rfl, file, rfl, hop, hc, hno, -, hw⟩ := store_ok hrun
    exact .stored hn ho hfi hop hc hno hw
  | error code =>
    obtain ⟨v2, hfr, hr⟩ := bind_eq_ok.mp hrun
    cases hr
    have hin : (v1.files t fd).status = .init := by
      rw [hfi]
      unfold allocated
      rw [files_setFile_self]
    rw [fdArrayFree_init hin hfr]
    exact .failed hn ho hfi

theorem allocated_manned (h : v.Manned 0) (hn : (v.files t fd).status = .none) : (v.allocated t fd).Manned 0 :=
  h.setFile_closed (by rw [hn]; decide) nofun

theorem fileOpen_manned (h : v.Manned 0) (hr : v.fileOpen t path flags mem = .ok (ret, v')) : v'.Manned 0 := by
  cases fileOpen_steps h.absent hr with
  | refused => exact h
  | failed hn ho hfi =>
    rename_i fd v1
    have h0 := allocated_manned h hn
    have h1 : v1.Manned 0 := by
      rcases vfsOpen_frame h0.absent ho with ⟨n, hc, -⟩ | ⟨-, -, hf⟩ | ⟨n, -, -, hf⟩
      · nomatch hc
      · exact (h0.frame_zero hf).zero
      · exact (h0.frame_zero hf).zero
    refine h1.setFile_closed ?_ nofun
    rw [hfi]
    unfold allocated
    rw [files_setFile_self]
    nofun
  | stored hn ho hfi hop hco hno hw =>
    rename_i fd n v1 file
    have h0 := allocated_manned h hn
    have h1 : v1.Manned (0 + ref n) := by
      rcases vfsOpen_frame h0.absent ho with ⟨m, hm, hf⟩ | ⟨⟨code, hc⟩, -, -⟩ | ⟨m, hc, -, -⟩
      · cases hm
        refine (h0.frame_zero hf).mono fun m => ?_
        change 0 + (ref n m).1 ≤ 0 + ((ref n m).1 + (opening n m).1)
        omega
      · nomatch hc
      · nomatch hc
    refine h1.setFile_take hno hop fun _ => ⟨hco, n, hno, ?_⟩
    rw [hw, decide_eq_true_iff]
    exact vfsOpen_ops h0.absent h0.kinds ho

theorem fd2file_opened (h : fd2file d (v.files t) = some i) : (v.files t i).status = .opened := by
  unfold fd2file at h
  split at h
  · rename_i hc
    rw [← Option.some.inj h]
    exact hc.2.1
  · nomatch h

/-- The slot is closed by a user of it. -/
def closing (v : Vfs) (t i : Nat) : Vfs :=
  v.setFile t i { v.files t i with status := .closed, openCount := (v.files t i).openCount - 1 }

/-- What `file_close` does: nothing, or it closes the slot, and the inode if no other call uses the slot. -/
theorem fileClose_steps (h : v.Manned 0) (hrun : v.fileClose t d = .ok (ret, v')) :
    v' = v ∨ ∃ i n, (v.files t i).status = .opened ∧ (v.files t i).node = some n ∧ (v' = v.closing t i ∨
      ∃ u, (v.closing t i).vfsClose n = .ok u ∧ v' = u.setFile t i { u.files t i with status := .none }) := by
  unfold fileClose at hrun
  split at hrun
  · cases hrun
    exact Or.inl rfl
  rename_i i hi
  have ho := fd2file_opened hi
  obtain ⟨-, n, hn, -⟩ := h.slots t i ho
  obtain ⟨file, hc, hrun⟩ := bind_eq_ok.mp hrun
  obtain ⟨v1, hs, hr⟩ := bind_eq_ok.mp hrun
  cases hr
  obtain ⟨-, hc⟩ := ensure_bind_eq_ok.mp (mapError_eq_ok.mp hc)
  obtain ⟨-, hc⟩ := ensure_bind_eq_ok.mp hc
  cases hc
  refine Or.inr ⟨i, n, ho, hn, ?_⟩
  unfold settle at hs
  split at hs
  · obtain ⟨-, -, hs⟩ := bind_eq_ok.mp hs
    obtain ⟨u, hcn, hr⟩ := bind_eq_ok.mp hs
    cases hr
    rw [files_setFile_self] at hcn
    unfold closeNode at hcn
    obtain ⟨m, hm, hcn⟩ := bind_eq_ok.mp hcn
    obtain rfl : n = m := by
      unfold node at hm
      rw [hn] at hm
      exact Except.ok.inj hm
    exact Or.inr ⟨u, hcn, rfl⟩
  · cases hs
    exact Or.inl rfl

theorem closing_manned (h : v.Manned 0) (ho : (v.files t i).status = .opened) (hn : (v.files t i).node = some n) :
    (v.closing t i).Manned (0 + ref n) := h.setFile_drop ho hn nofun

theorem fileClose_manned (h : v.Manned 0) (hr : v.fileClose t d = .ok (ret, v')) : v'.Manned 0 := by
  rcases fileClose_steps h hr with rfl | ⟨i, n, ho, hn, rfl | ⟨u, hc, rfl⟩⟩
  · exact h
  · exact (closing_manned h ho hn).zero
  · have h1 : (v.closing t i).Manned (0 + (opening n + ref n)) := by
      refine (closing_manned h ho hn).mono fun m => ?_
      change 0 + ((opening n m).1 + (ref n m).1) ≤ 0 + (ref n m).1
      rw [opening_fst]
      omega
    have hf := vfsClose_frame h1.absent hc
    refine (h1.frame hf).zero.setFile_closed ?_ nofun
    rw [hf.files]
    unfold closing
    rw [files_setFile_self]
    nofun

/-- The slot is taken for a call. -/
def taken (v : Vfs) (t i : Nat) : Vfs := v.setFile t i { v.files t i with openCount := (v.files t i).openCount + 1 }

theorem taken_manned (h : v.Manned 0) (ho : (v.files t i).status = .opened) : (v.taken t i).Manned 0 := by
  obtain ⟨-, m, hm, hw⟩ := h.slots t i ho
  exact h.setFile rfl fun _ => ⟨Nat.succ_pos _, m, hm, hw⟩

theorem acquire_opened (hi : fd2file d (v.files t) = some i) : (v.files t i).acquire.mapError VfsPanic.slot =
    .ok { v.files t i with openCount := (v.files t i).openCount + 1 } := by
  unfold File.acquire
  rw [ensure_of (fd2file_opened hi)]
  rfl

theorem node_acquired (hn : (v.files t i).node = some n) :
    node { v.files t i with openCount := (v.files t i).openCount + 1 } = .ok n := by
  unfold node
  rw [hn]

/-- The slot of an open file that has been taken once more is given back. -/
theorem fdArrayRelease_ok (ho : (v.files t i).status = .opened) (hc : 1 < (v.files t i).openCount) :
    ∃ v', v.fdArrayRelease t i = .ok v' := by
  unfold fdArrayRelease File.release settle
  rw [ensure_of (Or.inl ho), ensure_of (by omega)]
  refine ⟨_, if_neg ?_⟩
  change (v.files t i).openCount - 1 ≠ 0
  omega

/-- A call on a descriptor that is open and permits it. -/
theorem operate_eq (hi : fd2file d (v.files t) = some i) (hm : may (v.files t i) = true) (hn : (v.files t i).node = some n) :
    v.operate t d may op = op i n (v.taken t i) >>= fun r => r.2.fdArrayRelease t i >>= fun v => .ok (r.1, v) := by
  unfold operate
  rw [hi]
  dsimp only
  rw [if_pos hm, acquire_opened hi, bind_ok, node_acquired hn]
  rfl

/-- The slot is open, and in use by as many. -/
def SameUse (v v' : Vfs) (t i : Nat) : Prop :=
  (v'.files t i).status = (v.files t i).status ∧ (v'.files t i).openCount = (v.files t i).openCount

/-- An operation on the inode of an open slot that leaves the slot open. -/
def Operates (t i : Nat) (op : Vfs → Except VfsPanic (Int × Vfs)) : Prop :=
  ∀ v ret v', v.Manned 0 → op v = .ok (ret, v') → v'.Manned 0 ∧ v.SameUse v' t i

/-- What a call on a descriptor does: nothing, or its operation between taking the slot and giving it back. -/
theorem operate_steps (h : v.Manned 0) (hop : ∀ i n, Operates t i (op i n)) (hrun : v.operate t d may op = .ok (ret, v')) :
    v' = v ∨ ∃ i n u, fd2file d (v.files t) = some i ∧ (v.files t i).node = some n ∧ op i n (v.taken t i) = .ok (ret, u) ∧
      (u.files t i).status = .opened ∧ (u.files t i).openCount - 1 ≠ 0 ∧
      v' = u.setFile t i { u.files t i with openCount := (u.files t i).openCount - 1 } := by
  have hr0 := hrun
  unfold operate at hrun
  split at hrun
  · cases hrun
    exact Or.inl rfl
  rename_i i hi
  split at hrun
  swap
  · cases hrun
    exact Or.inl rfl
  rename_i hm
  have ho := fd2file_opened hi
  obtain ⟨-, n, hn, -⟩ := h.slots t i ho
  have hrun := (operate_eq hi hm hn).symm.trans hr0
  obtain ⟨⟨code, u⟩, hru, hrun⟩ := bind_eq_ok.mp hrun
  obtain ⟨v2, hrelease, hr⟩ := bind_eq_ok.mp hrun
  cases hr
  obtain ⟨-, hst, -⟩ := hop i n _ _ _ (taken_manned h ho) hru
  unfold taken at hst
  rw [files_setFile_self] at hst
  have ho1 := hst.trans ho
  -- the slot is still open, so that it is not freed
  obtain ⟨file', hrel, hs⟩ := bind_eq_ok.mp hrelease
  obtain ⟨-, hrel⟩ := ensure_bind_eq_ok.mp (mapError_eq_ok.mp hrel)
  obtain ⟨-, hrel⟩ := ensure_bind_eq_ok.mp hrel
  cases hrel
  unfold settle at hs
  split at hs
  · obtain ⟨⟨⟩, hc, -⟩ := bind_eq_ok.mp hs
    rw [files_setFile_self] at hc
    obtain ⟨hst, -⟩ := ensure_bind_eq_ok.mp (mapError_eq_ok.mp hc)
    rcases hst with hst | hst
    · nomatch ho1.symm.trans hst
    · nomatch ho1.symm.trans hst
  · rename_i hne
    cases hs
    exact Or.inr ⟨i, n, u, hi, hn, hru, ho1, hne, rfl⟩

theorem operate_manned (h : v.Manned 0)
    (hop : ∀ i n, Operates t i (op i n)) (hr : v.operate t d may op = .ok (ret, v')) : v'.Manned 0 := by
  rcases operate_steps h hop hr with rfl | ⟨i, n, u, hi, -, hru, ho, hne, rfl⟩
  · exact h
  obtain ⟨h1, -⟩ := hop i n _ _ _ (taken_manned h (fd2file_opened hi)) hru
  obtain ⟨-, m, hm, hw⟩ := h1.slots t i ho
  exact h1.setFile rfl fun _ => ⟨Nat.pos_of_ne_zero hne, m, hm, hw⟩

theorem SameUse.of_files (hf : v'.files = v.files) : v.SameUse v' t i := by
  unfold SameUse
  rw [hf]
  exact ⟨rfl, rfl⟩

theorem SameUse.setPos (h : v.SameUse v' t i) : v.SameUse (v'.setPos t i pos) t i := by
  unfold SameUse Vfs.setPos
  rw [files_setFile_self]
  exact h

theorem setPos_manned (h : v.Manned 0) : (v.setPos t i pos).Manned 0 := h.setFile rfl (h.slots t i)

theorem vopIo_manned {write : Bool} {buf : Nat → UInt8} {answer : Int × Nat} (h : v.Manned 0)
    (hrun : v.vopIo write n buf offset len answer = .ok (ret, copied, v')) : v'.Manned 0 ∧ v'.files = v.files := by
  obtain ⟨-, -, hrun⟩ := bind_eq_ok.mp hrun
  cases n with
  | sfs j =>
    obtain ⟨r, -, hr⟩ := bind_eq_ok.mp hrun
    cases hr
    exact ⟨h.ofSfs, rfl⟩
  | dev k =>
    cases hrun
    exact ⟨h, rfl⟩

theorem transfer_operates (write : Bool) (buf : Nat → UInt8) (len : Nat) (answer : Int × Nat) :
    Operates t i (transfer write t buf len answer i n) := by
  intro v ret v' h hr
  obtain ⟨⟨code, copied, v1⟩, hio, hr⟩ := bind_eq_ok.mp hr
  obtain ⟨h1, hf⟩ := vopIo_manned h hio
  dsimp only at hr
  split at hr
  · cases hr
    exact ⟨setPos_manned h1, (SameUse.of_files hf).setPos⟩
  · cases hr
    exact ⟨h1, SameUse.of_files hf⟩

theorem vopTryseek_manned (h : v.Manned 0) (hrun : v.vopTryseek n pos = .ok (ret, v')) : v'.Manned 0 ∧ v'.files = v.files := by
  obtain ⟨-, -, hrun⟩ := bind_eq_ok.mp hrun
  cases n with
  | sfs j =>
    obtain ⟨r, -, hr⟩ := bind_eq_ok.mp hrun
    cases hr
    exact ⟨h.ofSfs, rfl⟩
  | dev k =>
    dsimp only at hrun
    split at hrun
    · cases hrun
      exact ⟨h, rfl⟩
    · nomatch hrun

theorem seek_operates (pos whence : Int) : Operates t i (seek t pos whence i n) := by
  intro v ret v' h hr
  obtain ⟨-, -, hr⟩ := bind_eq_ok.mp hr
  split at hr
  · cases hr
    exact ⟨h, rfl, rfl⟩
  obtain ⟨⟨code, v1⟩, hs, hr⟩ := bind_eq_ok.mp hr
  obtain ⟨h1, hf⟩ := vopTryseek_manned h hs
  dsimp only at hr
  split at hr
  · cases hr
    exact ⟨setPos_manned h1, (SameUse.of_files hf).setPos⟩
  · cases hr
    exact ⟨h1, SameUse.of_files hf⟩

theorem fsync_operates : Operates t i fun v => do
    let v ← v.vopFsync n return (0, v) := by
  intro v ret v' h hrun
  obtain ⟨v1, hs, hr⟩ := bind_eq_ok.mp hrun
  cases hr
  have hf := vopFsync_frame h.absent hs
  exact ⟨(h.frame_zero hf).zero, SameUse.of_files hf.files⟩

theorem getdirentry_operates (offset : Int) : Operates t i fun v => v.vopGetdirentry n offset mem := by
  intro v ret v' h hrun
  obtain ⟨-, -, hrun⟩ := bind_eq_ok.mp hrun
  cases n with
  | sfs j =>
    obtain ⟨r, -, hr⟩ := bind_eq_ok.mp hrun
    cases hr
    exact ⟨h.ofSfs, rfl, rfl⟩
  | dev k => nomatch hrun

theorem fstat_operates : Operates t i fun v => do
    v.vop n .fstat return (0, v) := by
  intro v ret v' h hrun
  obtain ⟨-, -, hr⟩ := bind_eq_ok.mp hrun
  cases hr
  exact ⟨h, rfl, rfl⟩

/-- The state of `file_dup` before the new slot is filled. -/
def duplicating (v : Vfs) (t j : Nat) (n : Node) : Vfs := ((v.allocated t j).refInc n).openInc n

/-- What `file_dup` does: nothing, or it copies an open slot to a free one, and counts its inode once more. -/
theorem fileDup_steps (h : v.Manned 0) (hrun : v.fileDup t fd1 fd2 = .ok (ret, v')) :
    v' = v ∨ ∃ i j n file, (v.files t i).status = .opened ∧ (v.files t i).node = some n ∧ (v.files t j).status = .none ∧
      file.status = .opened ∧ 0 < file.openCount ∧ file.node = some n ∧ file.writable = (v.files t i).writable ∧
      v' = (v.duplicating t j n).setFile t j file := by
  unfold fileDup at hrun
  split at hrun
  · cases hrun
    exact Or.inl rfl
  rename_i i hi
  have ho := fd2file_opened hi
  obtain ⟨-, n, hn, -⟩ := h.slots t i ho
  obtain ⟨⟨code, j, fdArray⟩, ha, hrun⟩ := bind_eq_ok.mp hrun
  dsimp only at hrun
  split at hrun
  · cases hrun
    exact Or.inl rfl
  rename_i hc
  obtain rfl := not_not.mp hc
  obtain ⟨hno, har⟩ := fdArrayAlloc_ok (mapError_eq_ok.mp ha)
  obtain ⟨file, hd, hrun⟩ := bind_eq_ok.mp hrun
  obtain ⟨n', hnode, hr⟩ := bind_eq_ok.mp hrun
  cases hr
  -- the slot that is copied is another one
  have hne : i ≠ j := by
    rintro rfl
    exact absurd (ho.symm.trans hno) (by decide)
  have hsource : fdArray i = v.files t i := by
    rw [har, update_of_ne hne]
  rw [hsource] at hd hnode
  obtain rfl : n = n' := by
    unfold node at hnode
    rw [hn] at hnode
    exact Except.ok.inj hnode
  obtain ⟨-, hd⟩ := ensure_bind_eq_ok.mp (mapError_eq_ok.mp hd)
  obtain ⟨-, hd⟩ := ensure_bind_eq_ok.mp hd
  cases hd
  rw [setFile_alloc har]
  refine Or.inr ⟨i, j, n, _, ho, hn, hno, ?_, ?_, ?_, ?_, rfl⟩
  · rfl
  · exact Nat.succ_pos _
  · exact hn
  · rfl

theorem fileDup_manned (h : v.Manned 0) (hr : v.fileDup t fd1 fd2 = .ok (ret, v')) : v'.Manned 0 := by
  rcases fileDup_steps h hr with rfl | ⟨i, j, n, file, ho, hn, hno, hop, hc, hne, hwr, rfl⟩
  · exact h
  obtain ⟨-, m, hm, hw⟩ := h.slots t i ho
  cases hn.symm.trans hm
  have h0 := allocated_manned h hno
  have hf : (v.allocated t j).Frame ((v.allocated t j).refInc n) 0 (ref n) := refInc_frame h0.absent
  have h1 := h0.frame_zero hf
  have hp : 0 < (((v.allocated t j).refInc n).vnodes n).refCount := by
    unfold refInc
    rw [vnodes_setVnode_self]
    exact Nat.succ_pos _
  have hf' := openInc_frame h1.absent hp
  have h2 : (v.duplicating t j n).Manned (0 + ref n) := (h1.frame_zero hf').mono fun m => Nat.le_add_right _ _
  refine h2.setFile_take hne hop fun _ => ⟨hc, n, hne, ?_⟩
  unfold duplicating
  rw [hwr, (hf.trans hf').steady n 1 Nat.one_pos]
  · exact hw
  · exact h.backed.pos (h := Holder.slot t i) ((if_pos ho).trans hn)

/-! ## The current directory -/

theorem holds_setPwd {o : Option Node} : Vfs.holds { v with pwd := update v.pwd t o } = update v.holds (.pwd t) o := by
  funext h
  cases h with
  | slot t' fd => exact (update_of_ne (by nofun) _ _).symm
  | pwd t' =>
    change update v.pwd t o t' = _
    by_cases ht : t' = t
    · rw [ht, update_self, update_self]
    · rw [update_of_ne ht, update_of_ne (fun hc => ht (Holder.pwd.inj hc))]
      rfl
  | boot => exact (update_of_ne (by nofun) _ _).symm
  | dev k => exact (update_of_ne (by nofun) _ _).symm

/-- A directory becomes the current one, with the reference to it. -/
theorem Manned.setPwd (h : v.Manned (x + ref n)) : Manned { v with pwd := update v.pwd t (some n) } x where
  absent := h.absent
  kinds := ⟨h.kinds.dev, h.kinds.sfs⟩
  backed := by
    have hb := h.backed
    rw [add_ref] at hb
    rw [holds_setPwd]
    exact hb.take
  slots := h.slots

theorem Manned.dropPwd (h : v.Manned x) (hold : v.pwd t = some old) :
    Manned { v with pwd := update v.pwd t none } (x + ref old) where
  absent := h.absent
  kinds := ⟨h.kinds.dev, h.kinds.sfs⟩
  backed := by
    rw [add_ref, holds_setPwd]
    exact h.backed.drop hold
  slots := h.slots

theorem vfsSetCurdir_manned (h : v.Manned x) (hrun : v.vfsSetCurdir t dir = .ok (ret, v')) : v'.Manned x := by
  unfold vfsSetCurdir at hrun
  split at hrun
  · cases hrun
    exact h
  obtain ⟨-, -, hrun⟩ := bind_eq_ok.mp hrun
  dsimp only at hrun
  split at hrun
  · cases hrun
    exact h
  have h1 := h.frame_zero (refInc_frame (n := dir) h.absent)
  split at hrun
  · cases hrun
    exact h1.setPwd
  · rename_i old hold
    obtain ⟨v2, hd, hr⟩ := bind_eq_ok.mp hrun
    cases hr
    have h2 := h1.dropPwd hold
    rw [add_right_comm] at h2
    have h3 := h2.setPwd (t := t)
    rw [update_idem] at h3
    have := h3.frame (refDec_frame h3.absent hd)
    rwa [add_zero] at this

theorem vfsChdir_manned (h : v.Manned 0) (hrun : v.vfsChdir t path mem = .ok (ret, v')) : v'.Manned 0 := by
  obtain ⟨⟨r, p, v1⟩, hl, hrun⟩ := bind_eq_ok.mp hrun
  have h1 := h.frame_zero (vfsLookup_frame h.absent hl)
  cases r with
  | error code =>
    cases hrun
    exact h1.zero
  | ok n =>
    obtain ⟨⟨code, v2⟩, hs, hrun⟩ := bind_eq_ok.mp hrun
    obtain ⟨v3, hd, hr⟩ := bind_eq_ok.mp hrun
    cases hr
    have h2 := vfsSetCurdir_manned h1 hs
    exact (h2.frame (refDec_frame h2.absent hd)).zero

/-- Every call keeps the references of the holders. -/
theorem call_manned {c : FileCall} (h : v.Manned 0) (hr : v.call t c = .ok (ret, v')) : v'.Manned 0 := by
  cases c with
  | «open» path flags mem => exact fileOpen_manned h hr
  | close d => exact fileClose_manned h hr
  | read d buf len answer => exact operate_manned h (fun _ _ => transfer_operates false buf len answer) hr
  | write d buf len answer => exact operate_manned h (fun _ _ => transfer_operates true buf len answer) hr
  | seek d pos whence =>
    unfold call fileSeek at hr
    exact operate_manned h (fun _ _ => seek_operates pos whence) hr
  | fstat d =>
    unfold call fileFstat at hr
    exact operate_manned h (fun _ _ => fstat_operates) hr
  | fsync d =>
    unfold call fileFsync at hr
    exact operate_manned h (fun _ _ => fsync_operates) hr
  | getdirentry d offset mem =>
    unfold call fileGetdirentry at hr
    exact operate_manned h (fun _ _ => getdirentry_operates offset) hr
  | dup fd1 fd2 => exact fileDup_manned h hr
  | chdir path mem => exact vfsChdir_manned h hr

end Vfs

end Ucore
