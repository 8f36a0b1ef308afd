import Ucore.Lemmas.Guard

/-!
# The sums of the loader

`load_icode` maps the pages of each segment with the permissions of its VMA. Which pages these are is computed from `p_va`,
`p_filesz` and `p_memsz` a second time, after `mm_map` has computed the range of the VMA from `p_va` and `p_memsz`; the two agree
where `p_va + p_memsz` does not wrap around (`Proghdr.NoWrap`). Then no sum of a round wraps around (`allocLoop_round`,
`zeroTail_eq`), and the pages of the segment lie in its VMA (`Placed`).
-/

namespace Ucore

open Checked PageAux VmmAux

/-- The end of the segment in memory is a 32-bit number. -/
def Proghdr.NoWrap (ph : Proghdr) : Prop := ph.pVa + ph.pMemsz < addrSize

/-- No loadable segment of the program wraps around. -/
def Reader.NoWrap (read : Reader) : Prop :=
  ∀ k < (elfhdrOf (read 0 elfhdrSize).2).ePhnum, (readProghdr read (elfhdrOf (read 0 elfhdrSize).2) k).2.pType = elfPtLoad →
    (readProghdr read (elfhdrOf (read 0 elfhdrSize).2) k).2.NoWrap

/-- Neither the assertion of the loader on the end of a segment, nor a page written beyond its end, nor a loop of the model
that ran out of rounds. -/
def LoadPanic.Real (e : LoadPanic) : Prop := e ≠ .tail ∧ e ≠ .overrun ∧ e ≠ .unfinished

namespace ExecAux

variable {kmalloc : Nat → Bool} {pg0 : Nat → Page} {I A : Set Nat} {s s' s1 : Vm} {mem mem' : Memory}
  {d n p perm la stop off a b addr len flags k : Nat} {R : Nat → Prop} {ph : Proghdr} {g : Nat → Nat} {w : Option Nat}
  {c : Cursor} {α : Type}

theorem real_vm (e : VmPanic) : (LoadPanic.vm e).Real := by
  refine ⟨?_, ?_, ?_⟩ <;> exact nofun

theorem within_vm (x : Except VmPanic α) : Within LoadPanic.Real (x.mapError .vm) (fun r => x = .ok r) := by
  cases x with
  | error e => exact real_vm e
  | ok a => exact rfl

theorem within_mem (x : Except MemPanic α) : Within LoadPanic.Real (x.mapError (fun p => .vm (.mem p))) (fun r => x = .ok r) := by
  cases x with
  | error e => exact real_vm _
  | ok a => exact rfl

/-! ## Sizes -/

theorem sub32_eq (h : b ≤ a) (ha : a < addrSize) : sub32 a b = a - b := by
  unfold sub32
  unfold addrSize at ha ⊢
  omega

/-- What is written of a page goes up to the end of the page or of the segment. -/
theorem add_pieceSize (start la off stop : Nat) (hs : start + 4096 = la + off) (ho : off ≤ 4096) (hle : start ≤ stop)
    (hla : la < addrSize) : start + pieceSize off la stop = min la stop ∧ off + pieceSize off la stop ≤ 4096 := by
  have hp : sub32 pgSize off = 4096 - off := sub32_eq ho (by decide)
  unfold pieceSize
  split
  · rename_i hlt
    rw [sub32_eq hlt.le hla, sub32_eq (by omega) (by unfold addrSize; omega)]
    omega
  · omega

/-- The bounds of the page of an address. -/
theorem roundDown_bounds (a : Nat) : roundDown a pgSize % 4096 = 0 ∧ roundDown a pgSize ≤ a ∧ a < roundDown a pgSize + 4096 := by
  unfold roundDown pgSize
  omega

/-- A segment that does not wrap around ends behind its part in the file. -/
theorem fileEnd_le (hw : ph.NoWrap) (hle : ph.pFilesz ≤ ph.pMemsz) :
    ph.memEnd = ph.pVa + ph.pMemsz ∧ ph.fileEnd = ph.pVa + ph.pFilesz ∧ ph.fileEnd ≤ ph.memEnd := by
  have hmemEnd : ph.memEnd = ph.pVa + ph.pMemsz := Nat.mod_eq_of_lt hw
  have hfileEnd : ph.fileEnd = ph.pVa + ph.pFilesz := Nat.mod_eq_of_lt (by unfold Proghdr.NoWrap at hw; omega)
  exact ⟨hmemEnd, hfileEnd, by omega⟩

/-! ## One round -/

/-- A round of the loop over the pages of a segment. No sum wraps around, and what is put into the page fits there. -/
theorem allocLoop_round (d perm : Nat) (put : Put) (hla : c.la + 4096 < addrSize) (hst : stop < addrSize) (hlt : c.start < stop)
    (hle : c.la ≤ c.start) (hin : c.start < c.la + 4096) (rounds : Nat) (mem : Memory) :
    c.start - c.la + (min (c.la + 4096) stop - c.start) ≤ 4096 ∧ allocLoop d perm stop put (rounds + 1) c mem = (do
      let r ← (pgdirAllocPage d c.la perm mem).mapError (fun p => .vm (.mem p))
      match r.1 with
      | none => .ok (-eNoMem, c, r.2)
      | some page =>
        let p ← put c.offset page (c.start - c.la) (min (c.la + 4096) stop - c.start) r.2
        if p.1 ≠ 0 then .ok (p.1, { c with la := c.la + 4096, page := some page }, p.2)
        else allocLoop d perm stop put rounds ⟨min (c.la + 4096) stop, c.la + 4096,
          (c.offset + (min (c.la + 4096) stop - c.start)) % addrSize, some page⟩ p.2) := by
  have ho : sub32 c.start c.la = c.start - c.la := sub32_eq hle (hlt.trans hst)
  have hn : (c.la + pgSize) % addrSize = c.la + 4096 := Nat.mod_eq_of_lt hla
  obtain ⟨hsi, hf⟩ := add_pieceSize c.start (c.la + 4096) (c.start - c.la) stop (by omega) (by omega) hlt.le hla
  have hl : pieceSize (c.start - c.la) (c.la + 4096) stop = min (c.la + 4096) stop - c.start := by omega
  have hs : (c.start + (min (c.la + 4096) stop - c.start)) % addrSize = min (c.la + 4096) stop := by
    rw [Nat.add_sub_cancel' (by omega)]
    exact Nat.mod_eq_of_lt (by omega)
  refine ⟨hl ▸ hf, ?_⟩
  rw [allocLoop, if_pos hlt]
  dsimp only
  rewrite [ho, hn, hl, hs]
  rfl

theorem tail_offset (h : c.start + 4096 < addrSize) (hin : c.la < c.start + 4096) :
    sub32 ((c.start + pgSize) % addrSize) c.la = c.start + 4096 - c.la := by
  rw [Nat.mod_eq_of_lt (show c.start + pgSize < addrSize from h)]
  exact sub32_eq hin.le h

/-- The zeros behind the part in the file, where no sum wraps around. They fit into the page. -/
theorem zeroTail_eq (hst : stop ≤ userTop) (hle : c.start ≤ stop) (hla : c.start ≤ c.la) (hin : c.la < c.start + 4096)
    (hp : c.page = some p) (mem : Memory) :
    c.start + 4096 - c.la + (min c.la stop - c.start) ≤ 4096 ∧ zeroTail stop c mem = (do
      let s ← mem.writeBytes p (c.start + 4096 - c.la) (min c.la stop - c.start) (fun _ => 0)
      .ok ({ c with start := min c.la stop }, s)) := by
  have ht : stop ≤ 2952790016 := hst
  obtain ⟨hsi, hf⟩ := add_pieceSize c.start c.la (c.start + 4096 - c.la) stop (by omega) (by omega) hle
    (by unfold addrSize; omega)
  have hl : pieceSize (c.start + 4096 - c.la) c.la stop = min c.la stop - c.start := by omega
  have hs : (c.start + (min c.la stop - c.start)) % addrSize = min c.la stop := by
    rw [Nat.add_sub_cancel' (by omega)]
    exact Nat.mod_eq_of_lt (by unfold addrSize; omega)
  refine ⟨hl ▸ hf, ?_⟩
  unfold zeroTail Memory.zeroBytes
  rw [tail_offset (by unfold addrSize; omega) hin, hp]
  dsimp only
  rw [hl, hs, ensure_of (by omega)]
  rfl

/-- The zeros behind the part in the file, where the segment ends before it. -/
theorem zeroTail_overrun (hla : c.la ≤ userTop) (hlt : stop < c.start) (hin : c.start < c.la) (hnear : c.la < c.start + 4096)
    (hpa : c.page = some p) (hp : p < mem.npage) : zeroTail stop c mem = .error .overrun := by
  have ht : c.la ≤ 2952790016 := hla
  have hl : pieceSize (c.start + 4096 - c.la) c.la stop = addrSize - (c.start - stop) := by
    unfold pieceSize sub32 addrSize pgSize
    rw [if_pos (by omega)]
    omega
  have hover : ¬c.start + 4096 - c.la + (addrSize - (c.start - stop)) ≤ pgSize := by
    unfold addrSize pgSize
    omega
  unfold zeroTail Memory.zeroBytes Memory.writeBytes kaddr
  rw [tail_offset (by unfold addrSize; omega) hnear, hpa]
  dsimp only
  rw [hl, ppn_page2pa, ensure_of hp, bind_ok, mapError_ok, bind_ok, ensure, if_neg hover, bind_error, bind_error]

/-! ## Data pages -/

/-- Words written to a page that is neither a directory nor a table. -/
theorem grows_fill (perm : Nat) (h : mem.Inv pg0 I A (fun _ => 0)) (hpI : p ∈ I) (hp : ¬mem.Structural p) :
    (mem.fill p g).Inv pg0 I A (fun _ => 0) ∧ Grows pg0 I d R perm mem (mem.fill p g) := by
  have ho : ∀ q, q ≠ p → (mem.fill p g).frames q = mem.frames q := by
    intro q hq
    simp [Memory.fill, hq]
  have hs : ∀ q, mem.Structural q → (mem.fill p g).frames q = mem.frames q :=
    fun q hq => ho q (fun he => hp (he ▸ hq))
  have hinv : (mem.fill p g).Inv pg0 I A (fun _ => 0) :=
    inv_same hs h rfl rfl rfl rfl (ho _ (fun he => h.boot (he ▸ hpI)))
  exact ⟨hinv, ⟨A, hinv⟩, rfl, fun f hf n hn => Or.inl (walk_same hs hf hn)⟩

/-- The rounds given to the loop are enough. -/
theorem le_rounds (c : Cursor) (stop : Nat) : 0 < c.rounds stop ∧ stop ≤ c.la + (c.rounds stop - 1) * 4096 := by
  have hr : c.rounds stop = (stop - c.la) / 4096 + 2 := rfl
  omega

/-! ## A segment -/

/-- The VMA of a segment is there: its addresses have the flags of the segment, and it ends in the user's half. -/
structure Placed (ph : Proghdr) (s : Vm) : Prop where
  covers : ∀ a, roundDown ph.pVa pgSize ≤ a → a < roundUp ph.memEnd pgSize → s.mm.Covers [] a ph.vmFlags
  le : ph.memEnd ≤ roundUp ph.memEnd pgSize
  user : ph.memEnd ≤ userTop

theorem perm_lt (ph : Proghdr) : ph.perm < 4096 := by
  unfold Proghdr.perm
  split <;> decide

/-- Pages of the segment mapped. -/
theorem Placed.upholds (hp : Placed ph s) (h : s.Guarded pg0 I) (hR : ∀ n, R n → roundDown ph.pVa pgSize ≤ n * 4096 ∧ n * 4096 < ph.memEnd)
    (hg : Grows pg0 I s.mm.pgdir R ph.perm s.mem mem') : Upholds pg0 I s { s with mem := mem' } := by
  refine upholds_grows h hg ?_
  intro n hn
  obtain ⟨hlo, hhi⟩ := hR n hn
  exact ⟨_, hp.covers _ hlo (hhi.trans_le hp.le), permits_of_flags _⟩

theorem mmMap_access (hr : mmMap kmalloc addr len flags s = .ok (0, w, s')) :
    UserAccess (roundDown addr pgSize) (roundUp ((addr + len) % addrSize) pgSize) := by
  by_contra hno
  unfold mmMap at hr
  rw [if_pos hno] at hr
  cases hr

/-- `mm_map` for a segment. -/
theorem mmMap_placed (h : s.Guarded pg0 I) (hr : mmMap kmalloc ph.pVa ph.pMemsz ph.vmFlags s = .ok (0, w, s1)) :
    Placed ph s1 := by
  have ha := mmMap_access hr
  have hle : ph.memEnd ≤ roundUp ph.memEnd pgSize := by
    rcases le_roundUp (show ph.memEnd < addrSize from Nat.mod_lt _ (by decide)) with hle | hz
    · exact hle
    · have hp : roundDown ph.pVa pgSize < roundUp ph.memEnd pgSize := ha.2.1
      rw [hz] at hp
      exact absurd hp (Nat.not_lt_zero _)
  exact ⟨(mmMap_upholds h hr).2 rfl, hle, hle.trans ha.2.2⟩

/-! ## The stack -/

-- `ustackSize` is irreducible: the elaborator would count it down in the subtractions.
theorem ustackSize_eq : ustackSize = 1048576 := by
  unfold ustackSize pgSize
  rfl

theorem upholds_placeBrk (rnd : Nat) (h : s.Guarded pg0 I) : Upholds pg0 I s { s with mm := placeBrk rnd s.mm } :=
  upholds_setBrk h _ _

/-- Where the stack may end. -/
theorem stacktop_bounds (hk : k < ustackRndMask) : (ustackTop - k * pgSize) % 4096 = 0 ∧
    ustackSize ≤ ustackTop - k * pgSize ∧ ustackTop - k * pgSize ≤ userTop := by
  have hk' : k < 2047 := hk
  rw [ustackSize_eq]
  change (2952790016 - k * 4096) % 4096 = 0 ∧ 1048576 ≤ 2952790016 - k * 4096 ∧ 2952790016 - k * 4096 ≤ 2952790016
  omega

end ExecAux

end Ucore
