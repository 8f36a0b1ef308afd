import Ucore.Lemmas.Exec

/-!
# What the loader does

A loader whose segments do not wrap around writes no page beyond its end and passes its own assertion, and what it has mapped is
guarded by the VMAs at any time. `load_icode` takes each page of a segment from the allocator as it is and writes into it what the
segment asks for: bytes of the file, read page by page, and zeros behind them up to `p_va + p_memsz`. `Loading w` says what the
pages of the new address space hold at any point: the byte that `w` gives for an address, where the loader has written one. The
pages that it takes are counted by `takes`: one for each page, and one for each page table that may have to be made.
-/

namespace Ucore

open Checked PageAux VmmAux ExecAux

/-- The byte at the address `a` of a range that begins at `start` and ends at `stop`, where each page of the range is filled by
itself: `f` gives the bytes for an offset and a length, and the offset of `start` is `offset`. -/
def pieceByte (f : Nat → Nat → Nat → UInt8) (start offset stop a : Nat) : UInt8 :=
  let lo := max start (a / pgSize * pgSize)
  let hi := min stop (a / pgSize * pgSize + pgSize)
  f ((offset + (lo - start)) % addrSize) (hi - lo) (a - lo)

/-- The byte at the address `a` of a segment: from the file, or zero. -/
def segmentByte (read : Reader) (ph : Proghdr) (a : Nat) : UInt8 :=
  if a < ph.pVa + ph.pFilesz then pieceByte (fun o n => (read o n).2) ph.pVa ph.pOffset (ph.pVa + ph.pFilesz) a else 0

/-- The page `n` is one of the pages of the segment. -/
def Proghdr.HasPage (ph : Proghdr) (n : Nat) : Prop := roundDown ph.pVa pgSize ≤ n * pgSize ∧ n * pgSize < ph.pVa + ph.pMemsz

/-- The part of the file that the segment asks for can be read. -/
def Reader.Reads (read : Reader) (ph : Proghdr) : Prop :=
  ∀ k n, k + n ≤ ph.pFilesz → (read ((ph.pOffset + k) % addrSize) n).1 = 0

namespace ExecAux

/-- The bytes written so far, and `len` more from the address `x` on. -/
def written (w : Nat → Option UInt8) (x len : Nat) (b : Nat → UInt8) : Nat → Option UInt8 :=
  fun a => if x ≤ a ∧ a < x + len then some (b (a - x)) else w a

/-- The pages of the directory `d` hold the bytes of `w`, where it has one. -/
structure Loading (pg0 : Nat → Page) (I A0 : Set Nat) (d : Nat) (w : Nat → Option UInt8) (A : Set Nat) (mem : Memory) : Prop where
  priv : Private pg0 I A0 d A mem
  bytes : ∀ n < userPages, ∀ e, mem.walk d n = some e → ∀ i < 4096, ∀ c, w (n * 4096 + i) = some c → mem.bytes e.1 i = c
  fresh : ∀ n < userPages, mem.walk d n = none → ∀ i < 4096, w (n * 4096 + i) = none

variable {kmalloc : Nat → Bool} {pg0 : Nat → Page} {I A A0 : Set Nat} {mem mem' : Memory} {s s' : Vm}
  {d n p perm la stop off len q flags lo x y a : Nat} {w : Nat → Option UInt8} {b : Nat → UInt8} {read : Reader}
  {ph : Proghdr} {e : Nat × Nat}

/-- The pages below the end of the user's half. -/
theorem page_lt (hs : stop ≤ userTop) (hn : n * 4096 < stop) : n < userPages := by
  have ht : stop ≤ 2952790016 := hs
  unfold userPages userSlots
  omega

/-! ## Bytes of frames -/

theorem bytes_congr (h : mem'.frames q = mem.frames q) (i : Nat) : mem'.bytes q i = mem.bytes q i := by
  rw [Memory.bytes, h, Memory.bytes]

/-- Some bytes of a page are written. -/
theorem writeBytes_spec (h : mem.Inv pg0 I A (fun _ => 0)) (hpI : p ∈ I) (hl : off + len ≤ 4096) (b : Nat → UInt8) :
    ∃ g, mem.writeBytes p off len b = .ok (mem.fill p g) ∧ ∀ i, (mem.fill p g).bytes p i = Bytes.patch (mem.bytes p) off len b i := by
  have hlt : p < mem.npage := h.inside p hpI
  have hp : off + len ≤ pgSize := hl
  refine ⟨fun v => Bytes.word (Bytes.patch (mem.bytes p) off len b) (4 * v), ?_, ?_⟩
  · unfold Memory.writeBytes kaddr
    rw [ppn_page2pa, ensure_of hlt, bind_ok, mapError_ok, bind_ok, ensure_of hp, bind_ok]
  · intro i
    have hs : (mem.fill p fun v => Bytes.word (Bytes.patch (mem.bytes p) off len b) (4 * v)).frames p =
        fun v => Bytes.word (Bytes.patch (mem.bytes p) off len b) (4 * v) := Function.update_self ..
    rw [Memory.bytes, hs, Bytes.byteOf_word (Nat.mod_lt i (by decide)), Nat.div_add_mod]

/-! ## Steps -/

section

variable (h : Loading pg0 I A0 d w A mem) (hn : n < userPages)
include h hn

/-- The pages that the directory maps are neither directories nor tables. -/
theorem Loading.data (he : mem.walk d n = some e) : e.1 ∈ I ∧ ¬mem.Structural e.1 := by
  obtain ⟨heA, hed⟩ := h.priv.inv.mapped d h.priv.dir n hn e he
  obtain ⟨hb, hta⟩ := h.priv.page_new n hn e he
  refine ⟨?_, ?_⟩
  · rw [← h.priv.inv.area.cover]
    exact Or.inr heA
  · rintro (hc | ⟨f, hf, i, hi, ht⟩)
    · exact hed hc
    · by_cases hfd : f = d
      · exact hta i hi (hfd ▸ ht)
      · exact hb ((h.priv.others f hf hfd).1 i hi _ ht)

omit h hn in
/-- Words written to a page that is neither a directory nor a table. -/
theorem private_fill {g : Nat → Nat} {base : Set Nat} (h : Private pg0 I base d A mem) (hpI : p ∈ I)
    (hp : ¬mem.Structural p) : Private pg0 I base d A (mem.fill p g) := by
  have hs : ∀ q, mem.Structural q → (mem.fill p g).frames q = mem.frames q := by
    intro q hq
    have hqp : q ≠ p := fun he => hp (he ▸ hq)
    simp [Memory.fill, hqp]
  have hta : ∀ f ∈ mem.pgdirs, ∀ i, (mem.fill p g).table f i = mem.table f i := fun f hf i => table_same hs hf i
  have hw : ∀ f ∈ mem.pgdirs, ∀ m < userPages, (mem.fill p g).walk f m = mem.walk f m := fun f hf m hm => walk_same hs hf hm
  obtain ⟨hinv, -⟩ := grows_fill (g := g) (d := d) (R := fun _ => False) 0 h.inv hpI hp
  refine private_of (n := 0) h hinv rfl h.kept (fun f hf _ => ⟨fun i _ => hta f hf i, hw f hf⟩) ?_ ?_ ?_
  · exact fun i _ t ht => Or.inl (hta d h.dir i ▸ ht)
  · exact fun m hm e he => Or.inl (hw d h.dir m hm ▸ he)
  · exact fun q hq => owned_mono (fun i _ t ht => (hta d h.dir i).trans ht) (fun m hm e he => (hw d h.dir m hm).trans he)
      (h.owned q hq)

/-- The loader writes bytes into a page it has mapped. -/
theorem Loading.write (he : mem.walk d n = some e)
    (hl : off + len ≤ 4096) (b : Nat → UInt8) : ∃ mem', mem.writeBytes e.1 off len b = .ok mem' ∧
      Loading pg0 I A0 d (written w (n * 4096 + off) len b) A mem' ∧ (∀ m < userPages, mem'.walk d m = mem.walk d m) ∧
      mem'.area = mem.area ∧ ∀ R perm, Grows pg0 I d R perm mem mem' := by
  obtain ⟨hpI, hpS⟩ := h.data hn he
  obtain ⟨g, hr, hb⟩ := writeBytes_spec h.priv.inv hpI hl b
  have ho : ∀ q, q ≠ e.1 → (mem.fill e.1 g).frames q = mem.frames q := by
    intro q hq
    simp [Memory.fill, hq]
  have hd := h.priv.dir
  have hw : ∀ m < userPages, (mem.fill e.1 g).walk d m = mem.walk d m :=
    fun m hm => walk_same (fun q hq => ho q (fun he' => hpS (he' ▸ hq))) hd hm
  have hout : ∀ m, m ≠ n → ∀ i < 4096, written w (n * 4096 + off) len b (m * 4096 + i) = w (m * 4096 + i) := by
    intro m hm i hi
    exact if_neg (by omega)
  refine ⟨_, hr, ⟨private_fill h.priv hpI hpS, ?_, ?_⟩, hw, rfl, fun R perm => (grows_fill perm h.priv.inv hpI hpS).2⟩
  · intro m hm e' he' i hi c hc
    rw [hw m hm] at he'
    by_cases hmn : m = n
    · subst hmn
      obtain rfl : e' = e := Option.some.inj (he'.symm.trans he)
      rw [hb i]
      by_cases hin : off ≤ i ∧ i < off + len
      · rw [written, if_pos (by omega)] at hc
        rw [Bytes.patch_of_mem hin.1 hin.2, ← Option.some.inj hc]
        congr 1
        omega
      · rw [written, if_neg (by omega)] at hc
        rw [Bytes.patch_of_not (by omega)]
        exact h.bytes m hm e' he' i hi c hc
    · have hne : e'.1 ≠ e.1 := fun hc => hmn (h.priv.page_once n hn e he m hm e' he' hc)
      rw [hout m hmn i hi] at hc
      rw [bytes_congr (ho _ hne)]
      exact h.bytes m hm e' he' i hi c hc
  · intro m hm hno i hi
    rw [hw m hm] at hno
    have hmn : m ≠ n := by
      rintro rfl
      rw [hno] at he
      cases he
    rw [hout m hmn i hi, h.fresh m hm hno i hi]

/-- The loader maps a page to a frame that was free. -/
theorem Loading.inserted {A' : Set Nat} (hf : mem.walk d n = none) (heA : e.1 ∉ A) (hi : Inserted pg0 I d n e A mem A' mem') :
    Loading pg0 I A0 d w A' mem' := by
  have hd := h.priv.dir
  have ho : ∀ m < userPages, m ≠ n → mem'.walk d m = mem.walk d m := fun m hm hne => hi.others d hd m hm (fun hc => hne hc.2)
  refine ⟨private_inserted h.priv hn hf heA hi, ?_, ?_⟩
  · intro m hm e' he' i hlt c hc
    by_cases hmn : m = n
    · rw [hmn, h.fresh n hn hf i hlt] at hc
      cases hc
    · rw [ho m hm hmn] at he'
      obtain ⟨heA', hed⟩ := h.priv.inv.mapped d hd m hm e' he'
      have hk := hi.frame e'.1 heA' (fun hc => hed (hc ▸ hd)) (h.priv.page_new m hm e' he').2
      rw [bytes_congr hk]
      exact h.bytes m hm e' he' i hlt c hc
  · intro m hm hno i hlt
    by_cases hmn : m = n
    · rw [hmn, hi.inserted] at hno
      cases hno
    · exact h.fresh m hm ((ho m hm hmn).symm.trans hno) i hlt

end

/-! ## Pages mapped and filled -/

/-- Where pages are mapped: the directory with the permissions, the pages that may be mapped, and the memory before it. -/
structure Site where
  pg0 : Nat → Page
  I : Set Nat
  A0 : Set Nat
  d : Nat
  perm : Nat
  R : Nat → Prop
  base : Memory

/-- What is mapped has grown at the site. -/
abbrev Site.Grown (b : Site) (mem : Memory) : Prop := Grows b.pg0 b.I b.d b.R b.perm b.base mem

/-- The pages that mapping the pages `M` may take: themselves, and a table for each slot of the directory that they touch. -/
noncomputable def takes (M : Set Nat) : Nat := M.ncard + ((· / 1024) '' M).ncard

theorem takes_mono {M P : Set Nat} (hP : P.Finite) (h : M ⊆ P) : takes M ≤ takes P :=
  Nat.add_le_add (Set.ncard_le_ncard h hP) (Set.ncard_le_ncard (Set.image_mono h) (hP.image _))

/-- One page more takes a page, and a table unless one of the others has it. -/
theorem takes_insert {M : Set Nat} {k : Nat} (hM : M.Finite) (hn : n ∉ M) (hk : k ≤ 1) (ht : n / 1024 ∈ (· / 1024) '' M → k = 0) :
    takes M + 1 + k ≤ takes (insert n M) := by
  rw [takes, takes, Set.ncard_insert_of_notMem hn hM, Set.image_insert_eq]
  by_cases hin : n / 1024 ∈ (· / 1024) '' M
  · rw [Set.insert_eq_of_mem hin, ht hin]
    omega
  · rw [Set.ncard_insert_of_notMem hin (hM.image _)]
    omega

/-- There were not enough free pages for the pages `M`. -/
def Site.Short (b : Site) (M : Set Nat) : Prop := b.base.area.nrFree < takes M

/-- The pages `M` have been mapped, and the bytes of `w` written. -/
structure Built (b : Site) (M : Set Nat) (w : Nat → Option UInt8) (mem : Memory) : Prop where
  loading : ∃ A, Loading b.pg0 b.I b.A0 b.d w A mem
  grown : b.Grown mem
  mapped : ∀ n ∈ M, n < userPages ∧ b.base.walk b.d n = none ∧ ∃ p, mem.walk b.d n = some (p, pteP ||| b.perm)
  others : ∀ n < userPages, n ∉ M → mem.walk b.d n = b.base.walk b.d n
  room : b.base.area.nrFree ≤ mem.area.nrFree + takes M

variable {b : Site} {M : Set Nat} {c c' : Cursor} {stacktop : Nat}

theorem Built.start (h : Private b.pg0 b.I b.A0 b.d A b.base) : Built b ∅ (fun _ => none) b.base :=
  ⟨⟨A, h, nofun, fun _ _ _ _ _ => rfl⟩, Grows.refl h.inv, nofun, fun _ _ _ => rfl, Nat.le_add_right _ _⟩

theorem Built.private (h : Built b M w mem) : ∃ A, Private b.pg0 b.I b.A0 b.d A mem :=
  h.loading.imp fun _ hl => hl.priv

/-- There is no page for the allocator, and the swapper is called, where there were not enough for the pages `M`. -/
def Site.OutOfMemory (b : Site) (M : Set Nat) (e : LoadPanic) : Prop := e = .vm (.mem .swapOut) ∧ b.Short M

theorem real_of_outOfMemory (e : LoadPanic) (h : b.OutOfMemory M e) : e.Real := h.1 ▸ real_vm _

/-- One more page is mapped. -/
theorem Built.page (h : Built b M w mem) (hla : la < kernBase) (hpe : b.perm < 4096) (hR : b.R (la / 4096)) (hM : la / 4096 ∉ M)
    (hf : b.base.walk b.d (la / 4096) = none) :
    Within (b.OutOfMemory (insert (la / 4096) M)) ((pgdirAllocPage b.d la b.perm mem).mapError fun p => .vm (.mem p)) fun r =>
      b.Grown r.2 ∧ (r.1 = none → b.Short (insert (la / 4096) M)) ∧
      ∀ p, r.1 = some p → Built b (insert (la / 4096) M) w r.2 ∧ r.2.walk b.d (la / 4096) = some (p, pteP ||| b.perm) := by
  obtain ⟨A, hl⟩ := h.loading
  have hd := hl.priv.dir
  obtain ⟨-, hn⟩ := addr_lt hla
  have hro := h.room
  have htakes : takes M + 1 + mem.tableNeeds b.d (la / 4096 / 1024) ≤ takes (insert (la / 4096) M) := by
    unfold Memory.tableNeeds
    refine takes_insert ((Set.finite_Iio userPages).subset fun n hn => (h.mapped n hn).1) hM (by split <;> omega) ?_
    rintro ⟨m, hm, hsl⟩
    obtain ⟨-, -, p, hp⟩ := h.mapped m hm
    rw [← hsl]
    refine if_neg fun hno => ?_
    rw [Memory.walk, hno] at hp
    cases hp
  have hs (hle : mem.area.nrFree ≤ mem.tableNeeds b.d (la / 4096 / 1024)) : b.Short (insert (la / 4096) M) := by
    unfold Site.Short
    omega
  rcases pgdirAllocPage_fresh hl.priv.inv hd hla hpe with
    ⟨-, hr, hle⟩ | ⟨area, -, hr, hinv, hle⟩ | ⟨p, mem', A', hr, ⟨⟨-, hpA⟩, -⟩, hi, -⟩
  · rw [hr]
    exact ⟨rfl, hs hle⟩
  · rw [hr]
    exact ⟨h.grown.trans ⟨⟨A, hinv⟩, rfl, fun _ _ _ _ => Or.inl rfl⟩, fun _ => hs hle, fun _ hc => absurd hc.symm (Option.some_ne_none _)⟩
  rw [hr]
  have hg : b.Grown mem' := h.grown.trans ((grows_inserted hi rfl).mono (by rintro _ rfl; exact hR))
  have hl' := hl.inserted hn ((h.others _ hn hM).trans hf) hpA hi
  have ho : ∀ m < userPages, m ≠ la / 4096 → mem'.walk b.d m = mem.walk b.d m :=
    fun m hm hne => hi.others b.d hd m hm (fun hc => hne hc.2)
  refine ⟨hg, fun hc => absurd hc (Option.some_ne_none _), fun q hq => ?_⟩
  cases hq
  refine ⟨⟨⟨A', hl'⟩, hg, ?_, ?_, ?_⟩, hi.inserted⟩
  · rintro n (rfl | hnM)
    · exact ⟨hn, hf, p, hi.inserted⟩
    · obtain ⟨hnu, hno, q, hq⟩ := h.mapped n hnM
      exact ⟨hnu, hno, q, (ho n hnu (fun hc => hM (hc ▸ hnM))).trans hq⟩
  · intro n hn' hnM
    rw [Set.mem_insert_iff, not_or] at hnM
    rw [ho n hn' hnM.1]
    exact h.others n hn' hnM.2
  · have hle := nrFree_inserted hl.priv.inv hd hn hi
    dsimp only
    omega

/-- Bytes are written into a page that has been mapped. -/
theorem Built.write (h : Built b M w mem) (hM : n ∈ M) (he : mem.walk b.d n = some (p, flags)) (hlen : off + len ≤ 4096)
    (f : Nat → UInt8) : ∃ mem', mem.writeBytes p off len f = .ok mem' ∧ Built b M (written w (n * 4096 + off) len f) mem' ∧
      ∀ m < userPages, mem'.walk b.d m = mem.walk b.d m := by
  obtain ⟨A, hl⟩ := h.loading
  have hn := (h.mapped n hM).1
  obtain ⟨mem', hr, hl', hw, ha, hg⟩ := hl.write hn he hlen f
  refine ⟨mem', hr, ⟨⟨A, hl'⟩, h.grown.trans (hg _ _), ?_, fun m hm hmM => (hw m hm).trans (h.others m hm hmM),
    ha ▸ h.room⟩, hw⟩
  intro m hm
  obtain ⟨hmu, hno, q, hq⟩ := h.mapped m hm
  exact ⟨hmu, hno, q, (hw m hmu).trans hq⟩

/-! ## The loops over the pages of a segment -/

/-- The pages from `lo` to `la`. -/
def Pages (lo la : Nat) : Set Nat := {n | lo ≤ n * 4096 ∧ n * 4096 < la}

theorem insert_pages (hlo : lo ≤ la) (hal : la % 4096 = 0) : insert (la / 4096) (Pages lo la) = Pages lo (la + 4096) := by
  ext n
  simp only [Pages, Set.mem_insert_iff, Set.mem_ofPred_eq]
  omega

/-- The pages of a segment, as far as `x`. -/
abbrev segmentPages (ph : Proghdr) (x : Nat) : Set Nat := Pages (roundDown ph.pVa pgSize) x

/-- The bytes of a segment up to the address `x`. -/
def imaged (read : Reader) (ph : Proghdr) (x : Nat) : Nat → Option UInt8 :=
  fun a => if ph.pVa ≤ a ∧ a < x then some (segmentByte read ph a) else none

theorem imaged_start : imaged read ph ph.pVa = fun _ => none := by
  funext a
  exact if_neg (by omega)

/-- More bytes of the segment are written. -/
theorem written_imaged {f : Nat → UInt8} (hx : ph.pVa ≤ x) (hxy : x ≤ y) (hf : ∀ k < y - x, f k = segmentByte read ph (x + k)) :
    written (imaged read ph x) x (y - x) f = imaged read ph y := by
  funext a
  unfold written imaged
  by_cases hnew : x ≤ a ∧ a < x + (y - x)
  · rw [if_pos hnew, if_pos (by omega), hf _ (by omega), Nat.add_sub_cancel' hnew.1]
  · rw [if_neg hnew]
    by_cases hold : ph.pVa ≤ a ∧ a < x
    · rw [if_pos hold, if_pos (by omega)]
    · rw [if_neg hold, if_neg (by omega)]

/-- The site is that of a segment, whose pages are not mapped. -/
structure Site.For (b : Site) (ph : Proghdr) : Prop where
  range : ∀ n, b.R n ↔ roundDown ph.pVa pgSize ≤ n * 4096 ∧ n * 4096 < ph.memEnd
  perm : b.perm < 4096
  user : ph.memEnd ≤ userTop
  free : ∀ n, b.R n → b.base.walk b.d n = none

/-- The segment is in memory up to the cursor: the pages before `la`, of which the cursor has the last, and the bytes before
`start`. -/
structure At (b : Site) (read : Reader) (ph : Proghdr) (c : Cursor) (mem : Memory) : Prop where
  built : Built b (segmentPages ph c.la) (imaged read ph c.start) mem
  aligned : c.la % 4096 = 0
  lo : roundDown ph.pVa pgSize ≤ c.la
  va : ph.pVa ≤ c.start
  last : roundDown ph.pVa pgSize < c.la → ∃ e, mem.walk b.d (c.la / 4096 - 1) = some e ∧ c.page = some e.1

/-- What is put into a page, from `x` on up to `stop` or to the end of the page at `la`, are bytes of the segment, if `good` holds or
they can be had. The offset that goes with `x` meets `Q`. -/
def Puts (put : Put) (good : Prop) (read : Reader) (ph : Proghdr) (stop : Nat) (Q : Nat → Nat → Prop) : Prop :=
  ∀ x la offset page off mem, Q x offset → la % 4096 = 0 → la ≤ x → x < la + 4096 → x < stop → (∀ y, y = min (la + 4096) stop →
    (y < stop → Q y ((offset + (y - x)) % addrSize)) ∧
    ((¬good ∧ ∃ ret ≠ 0, put offset page off (y - x) mem = .ok (ret, mem)) ∨
      ∃ f, (∀ k < y - x, f k = segmentByte read ph (x + k)) ∧
        put offset page off (y - x) mem = (mem.writeBytes page off (y - x) f >>= fun mem => .ok (0, mem))))

/-- The file is read from the offset of the segment on, page by page. -/
theorem puts_putFile (read : Reader) (ph : Proghdr) : Puts (putFile read) (read.Reads ph) read ph (ph.pVa + ph.pFilesz)
    fun x offset => offset = (ph.pOffset + (x - ph.pVa)) % addrSize ∧ ph.pVa ≤ x ∧ (x = ph.pVa ∨ x % 4096 = 0) := by
  rintro x la offset page off mem ⟨rfl, hva, hx⟩ hal hle hin hlt y hy
  refine ⟨fun hyl => ⟨?_, by omega, by omega⟩, ?_⟩
  · rw [Nat.mod_add_mod]
    congr 1
    omega
  unfold putFile
  by_cases hr : (read ((ph.pOffset + (x - ph.pVa)) % addrSize) (y - x)).1 = 0
  · refine Or.inr ⟨(read ((ph.pOffset + (x - ph.pVa)) % addrSize) (y - x)).2, ?_, if_neg (not_not.mpr hr)⟩
    intro k hk
    have hp : (x + k) / pgSize * pgSize = la := by
      unfold pgSize
      omega
    have hlo : max ph.pVa la = x := by omega
    have hhi : min (ph.pVa + ph.pFilesz) (la + pgSize) = y := by
      unfold pgSize
      omega
    rw [segmentByte, if_pos (by omega)]
    unfold pieceByte
    dsimp only
    rw [hp, hlo, hhi, Nat.add_sub_cancel_left]
  · exact Or.inl ⟨fun hg => hr (hg _ _ (by omega)), _, hr, if_pos hr⟩

/-- Behind its part in the file, a segment goes on with zeros. -/
theorem segmentByte_zero (h : ph.pVa + ph.pFilesz ≤ a) : segmentByte read ph a = 0 := if_neg (by omega)

theorem puts_putZeros : Puts putZeros True read ph stop fun x _ => ph.pVa + ph.pFilesz ≤ x := by
  intro x la offset page off mem hx _ _ _ _ y hy
  refine ⟨fun _ => by omega, Or.inr ⟨fun _ => 0, fun k _ => (segmentByte_zero (by omega)).symm, rfl⟩⟩

/-- The loop over the pages of a segment takes the cursor to `stop`, if it is not there yet. -/
theorem allocLoop_at {put : Put} {good : Prop} {Q : Nat → Nat → Prop} (hput : Puts put good read ph stop Q) (hb : b.For ph)
    (hst : stop ≤ ph.memEnd) : ∀ (rounds : Nat) (c : Cursor) (mem : Memory), At b read ph c mem → 0 < rounds →
      (c.start < stop → Q c.start c.offset ∧ c.la ≤ c.start ∧ c.start < c.la + 4096 ∧ stop ≤ c.la + (rounds - 1) * 4096) →
      Within (b.OutOfMemory (segmentPages ph ph.memEnd)) (allocLoop b.d b.perm stop put rounds c mem) fun r => b.Grown r.2.2 ∧
        (good → r.1 = 0 ∨ r.1 = -eNoMem ∧ b.Short (segmentPages ph ph.memEnd)) ∧ (r.1 = 0 → At b read ph r.2.1 r.2.2 ∧
          (stop ≤ c.start → r.2.1 = c) ∧ (c.start < stop → r.2.1.start = stop ∧ stop ≤ r.2.1.la ∧ r.2.1.la < stop + 4096)) := by
  have ht : stop ≤ 2952790016 := hst.trans hb.user
  intro rounds
  induction rounds with
  | zero =>
    intro c mem _ hr
    exact absurd hr (lt_irrefl 0)
  | succ rounds ih =>
    intro c mem h _ hc
    by_cases hlt : c.start < stop
    swap
    · rw [allocLoop, if_neg hlt]
      exact ⟨h.built.grown, fun _ => Or.inl rfl, fun _ => ⟨h, fun _ => rfl, fun hc => absurd hc hlt⟩⟩
    obtain ⟨hQ, hle, hin, hrs⟩ := hc hlt
    rw [Nat.add_sub_cancel] at hrs
    obtain ⟨hfit, hro⟩ := allocLoop_round b.d b.perm put (by unfold addrSize; omega) (by unfold addrSize; omega) hlt hle hin
      rounds mem
    rw [hro]
    have hal := h.aligned
    have hlo := h.lo
    have hp : c.la / 4096 * 4096 = c.la := by omega
    have hR : b.R (c.la / 4096) := (hb.range _).mpr (by omega)
    have hsh : b.Short (insert (c.la / 4096) (segmentPages ph c.la)) → b.Short (segmentPages ph ph.memEnd) := by
      rw [insert_pages hlo hal]
      refine fun hs => hs.trans_le (takes_mono ((Set.finite_Iio ph.memEnd).subset fun n hn => ?_) fun n hn => ⟨hn.1, ?_⟩)
      · have hn2 := hn.2
        rw [Set.mem_Iio]
        omega
      · have hn2 := hn.2
        omega
    refine ((h.built.page (by unfold kernBase; omega) hb.perm hR (fun hc => ?_) (hb.free _ hR)).weaken
      (fun _ he => ⟨he.1, hsh he.2⟩)).bind ?_
    · exact absurd hc.2 (by omega)
    rintro ⟨o, mem1⟩ ⟨hgr, hno, hbu⟩
    cases o with
    | none => exact ⟨hgr, fun _ => Or.inr ⟨rfl, hsh (hno rfl)⟩, fun hz => absurd hz (show -eNoMem ≠ 0 by decide)⟩
    | some p =>
      obtain ⟨h1, hwalk1⟩ := hbu p rfl
      rw [insert_pages hlo hal] at h1
      dsimp only
      obtain ⟨hQ', hw⟩ := hput c.start c.la c.offset p (c.start - c.la) mem1 hQ hal hle hin hlt _ rfl
      rcases hw with ⟨hgo, ret, hret, hw⟩ | ⟨f, hf, hw⟩
      · rw [hw, bind_ok]
        dsimp only
        rw [if_pos hret]
        exact ⟨hgr, fun hg => absurd hg hgo, fun hz => absurd hz hret⟩
      obtain ⟨mem2, hby, h2, hwalk2⟩ := h1.write (n := c.la / 4096) ⟨by omega, by omega⟩ hwalk1 hfit f
      rw [hw, hby, bind_ok, bind_ok]
      dsimp only
      rw [if_neg (by decide)]
      rw [hp, Nat.add_sub_cancel' hle, written_imaged h.va (by omega) hf] at h2
      have hn : c.la / 4096 < userPages := (h1.mapped _ ⟨by omega, by omega⟩).1
      have hat : At b read ph ⟨min (c.la + 4096) stop, c.la + 4096, (c.offset + (min (c.la + 4096) stop - c.start)) % addrSize, some p⟩
          mem2 := by
        refine ⟨h2, by dsimp only; omega, by dsimp only; omega, ?_, fun _ => ⟨(p, pteP ||| b.perm), ?_, rfl⟩⟩
        · have := h.va
          dsimp only
          omega
        · rw [← hwalk1, ← hwalk2 _ hn]
          congr 1
          dsimp only
          omega
      refine (ih _ mem2 hat (by omega) (fun hm => ⟨hQ' hm, by dsimp only at hm ⊢; omega⟩)).mono ?_
      rintro ⟨ret, c', mem'⟩ ⟨hg, hgo, hend⟩
      refine ⟨hg, hgo, fun hz => ?_⟩
      obtain ⟨h', hsa, hm⟩ := hend hz
      refine ⟨h', fun hc => absurd hlt (by omega), fun _ => ?_⟩
      by_cases hl : min (c.la + 4096) stop < stop
      · exact hm hl
      · obtain rfl := hsa (by dsimp only; omega)
        dsimp only
        omega

/-- A round that maps a page, where there is one for it. -/
theorem allocLoop_maps (h : Built b M w mem) (hb : ∀ n, b.R n) (hp : b.perm < 4096) (hM : c.la / 4096 ∉ M)
    (hf : b.base.walk b.d (c.la / 4096) = none) (hro : ¬b.Short (insert (c.la / 4096) M)) (hla : c.la ≤ userTop)
    (hs : stop < addrSize) (hlt : c.start < stop) (hle : c.la ≤ c.start) (hin : c.start < c.la + 4096) (put : Put) (rounds : Nat) :
    ∃ p mem', Built b (insert (c.la / 4096) M) w mem' ∧ mem'.walk b.d (c.la / 4096) = some (p, pteP ||| b.perm) ∧
      c.start - c.la + (min (c.la + 4096) stop - c.start) ≤ 4096 ∧ allocLoop b.d b.perm stop put (rounds + 1) c mem = (do
        let r ← put c.offset p (c.start - c.la) (min (c.la + 4096) stop - c.start) mem'
        if r.1 ≠ 0 then .ok (r.1, { c with la := c.la + 4096, page := some p }, r.2)
        else allocLoop b.d b.perm stop put rounds ⟨min (c.la + 4096) stop, c.la + 4096,
          (c.offset + (min (c.la + 4096) stop - c.start)) % addrSize, some p⟩ r.2) := by
  have ht : c.la ≤ 2952790016 := hla
  obtain ⟨hfit, hrd⟩ := allocLoop_round b.d b.perm put (by unfold addrSize; omega) hs hlt hle hin rounds mem
  obtain ⟨⟨o, mem'⟩, hr, -, hno, hbu⟩ :=
    (h.page (by unfold kernBase; omega) hp (hb _) hM hf).get fun _ he => hro he.2
  cases o with
  | none => exact absurd (hno rfl) hro
  | some p =>
    obtain ⟨h', hw⟩ := hbu p rfl
    exact ⟨p, mem', h', hw, hfit, by rw [hrd, hr, bind_ok]⟩

/-- The rest of the last page from the file is zeroed. -/
theorem zeroTail_at (hb : b.For ph) (h : At b read ph c mem) (hfi : ph.pVa + ph.pFilesz ≤ c.start) (hl : roundDown ph.pVa pgSize < c.la)
    (hle : c.start ≤ ph.memEnd) (hla : c.start ≤ c.la) (hin : c.la < c.start + 4096) :
    ∃ mem', zeroTail ph.memEnd c mem = .ok ({ c with start := min c.la ph.memEnd }, mem') ∧
      At b read ph { c with start := min c.la ph.memEnd } mem' := by
  obtain ⟨⟨p, flags⟩, he, hp⟩ := h.last hl
  have hal := h.aligned
  have hr := roundDown_bounds ph.pVa
  have hM : c.la / 4096 - 1 ∈ segmentPages ph c.la := ⟨by omega, by omega⟩
  obtain ⟨hf, ht⟩ := zeroTail_eq hb.user hle hla hin hp mem
  obtain ⟨mem', hw, h', hwa⟩ := h.built.write hM he hf (fun _ => 0)
  have ha : (c.la / 4096 - 1) * 4096 + (c.start + 4096 - c.la) = c.start := by omega
  rw [ha, written_imaged h.va (by omega) (fun k _ => (segmentByte_zero (by omega)).symm)] at h'
  refine ⟨mem', by rw [ht, hw, bind_ok], h', hal, h.lo, ?_, fun _ => ⟨_, ?_, hp⟩⟩
  · have := h.va
    dsimp only
    omega
  · exact (hwa _ (h.built.mapped _ hM).1).trans he

/-! ## A segment -/

/-- The site of a segment, in the address space of `s`. -/
def siteOf (pg0 : Nat → Page) (I A0 : Set Nat) (ph : Proghdr) (s : Vm) : Site :=
  ⟨pg0, I, A0, s.mm.pgdir, ph.perm, fun n => roundDown ph.pVa pgSize ≤ n * 4096 ∧ n * 4096 < ph.memEnd, s.mem⟩

/-- The whole segment is in memory. -/
def Installed (b : Site) (read : Reader) (ph : Proghdr) (mem : Memory) : Prop :=
  Built b (segmentPages ph ph.memEnd) (imaged read ph ph.memEnd) mem

theorem At.installed (h : At b read ph c mem) (hs : c.start = ph.memEnd) (hle : ph.memEnd ≤ c.la) (hin : c.la < ph.memEnd + 4096) :
    Installed b read ph mem := by
  have hp : segmentPages ph c.la = segmentPages ph ph.memEnd := by
    have hal := h.aligned
    ext n
    simp only [Pages, Set.mem_ofPred_eq]
    omega
  have hb := h.built
  rwa [hp, hs] at hb

/-- The pages beyond those of the file. -/
theorem loadBss_spec (hp : Placed ph s) (hg : s.Guarded pg0 I) (hb : (siteOf pg0 I A0 ph s).For ph)
    (h : At (siteOf pg0 I A0 ph s) read ph c mem) (hf : ph.pVa + ph.pFilesz ≤ c.start) (hle : c.start ≤ ph.memEnd)
    (hla : c.start ≤ c.la) (hin : c.la < c.start + 4096) (hm : c.start < ph.memEnd → c.la = c.start) :
    Within ((siteOf pg0 I A0 ph s).OutOfMemory (segmentPages ph ph.memEnd)) (loadBss ph c { s with mem := mem }) fun r =>
      Upholds pg0 I s r.2 ∧ (siteOf pg0 I A0 ph s).Grown r.2.mem ∧
      (r.1 = 0 ∨ r.1 = -eNoMem ∧ (siteOf pg0 I A0 ph s).Short (segmentPages ph ph.memEnd)) ∧
      (r.1 = 0 → Installed (siteOf pg0 I A0 ph s) read ph r.2.mem ∧ r.2.mm = raiseBrk ph s.mm) := by
  unfold loadBss
  refine (allocLoop_at puts_putZeros hb le_rfl _ c mem h (le_rounds c _).1 ?_).bind ?_
  · intro hlt
    have heq := hm hlt
    exact ⟨hf, by omega, by omega, (le_rounds c _).2⟩
  rintro ⟨ret, c', mem'⟩ ⟨hgr, hgo, he⟩
  have hu := hp.upholds hg (fun n hn => hn) hgr
  dsimp only
  split
  · rename_i hr
    exact ⟨hu, hgr, hgo trivial, fun hz => absurd hz hr⟩
  rename_i hr
  obtain ⟨h', hs, hpassed⟩ := he (not_not.mp hr)
  refine ⟨hu.trans ?_, hgr, Or.inl rfl, fun _ => ⟨?_, rfl⟩⟩
  · unfold raiseBrk
    split
    · exact upholds_setBrk hu.guarded ph.memEnd s.mm.brk
    · exact Upholds.refl hu.guarded
  · by_cases hlt : c.start < ph.memEnd
    · obtain ⟨h1, h2, h3⟩ := hpassed hlt
      exact h'.installed h1 h2 h3
    · obtain rfl := hs (by omega)
      exact h'.installed (by omega) (by omega) (by omega)

/-- The first loop takes the cursor to the end of the part in the file. -/
theorem fileLoop_at (hb : (siteOf pg0 I A0 ph s).For ph) (h : Private pg0 I A0 s.mm.pgdir A s.mem) (hf : 0 < ph.pFilesz)
    (hfileEnd : ph.fileEnd = ph.pVa + ph.pFilesz) (hbo : ph.fileEnd ≤ ph.memEnd) (ho : ph.pOffset < addrSize) :
    Within ((siteOf pg0 I A0 ph s).OutOfMemory (segmentPages ph ph.memEnd)) (allocLoop s.mm.pgdir ph.perm ph.fileEnd (putFile read)
        (Cursor.rounds ⟨ph.pVa, roundDown ph.pVa pgSize, ph.pOffset, none⟩ ph.fileEnd) ⟨ph.pVa, roundDown ph.pVa pgSize, ph.pOffset, none⟩
        s.mem) fun r => (siteOf pg0 I A0 ph s).Grown r.2.2 ∧
      (read.Reads ph → r.1 = 0 ∨ r.1 = -eNoMem ∧ (siteOf pg0 I A0 ph s).Short (segmentPages ph ph.memEnd)) ∧
      (r.1 = 0 → At (siteOf pg0 I A0 ph s) read ph r.2.1 r.2.2 ∧ r.2.1.start = ph.fileEnd ∧ ph.fileEnd ≤ r.2.1.la ∧
        r.2.1.la < ph.fileEnd + 4096) := by
  have hro := roundDown_bounds ph.pVa
  have he : segmentPages ph (roundDown ph.pVa pgSize) = ∅ := by
    ext n
    simp [Pages]
  have hs : At (siteOf pg0 I A0 ph s) read ph ⟨ph.pVa, roundDown ph.pVa pgSize, ph.pOffset, none⟩ s.mem := by
    refine ⟨?_, hro.1, le_rfl, le_rfl, fun hc => absurd hc (lt_irrefl _)⟩
    rw [he, imaged_start]
    exact Built.start h
  have hoff : ph.pOffset = (ph.pOffset + (ph.pVa - ph.pVa)) % addrSize := by
    rw [Nat.sub_self, Nat.add_zero, Nat.mod_eq_of_lt ho]
  refine (allocLoop_at (hfileEnd ▸ puts_putFile read ph) hb hbo _ _ s.mem hs (le_rounds _ _).1
    (fun _ => ⟨⟨hoff, le_rfl, Or.inl rfl⟩, hro.2.1, hro.2.2, (le_rounds _ _).2⟩)).mono ?_
  exact fun r hr => ⟨hr.1, hr.2.1, fun hz => ⟨(hr.2.2 hz).1, (hr.2.2 hz).2.2 (by dsimp only; omega)⟩⟩

/-- The pages of a segment, which were not mapped. The break is raised unless the file and the segment end together inside a
page. -/
theorem loadPages_spec (hp : Placed ph s) (hg : s.Guarded pg0 I) (hw : ph.NoWrap) (hf : 0 < ph.pFilesz)
    (hle : ph.pFilesz ≤ ph.pMemsz) (ho : ph.pOffset < addrSize) (h : Private pg0 I A0 s.mm.pgdir A s.mem)
    (hfr : ∀ n, roundDown ph.pVa pgSize ≤ n * 4096 → n * 4096 < ph.memEnd → s.mem.walk s.mm.pgdir n = none) :
    Within ((siteOf pg0 I A0 ph s).OutOfMemory (segmentPages ph ph.memEnd)) (loadPages read ph s) fun r =>
      Upholds pg0 I s r.2 ∧ (siteOf pg0 I A0 ph s).Grown r.2.mem ∧
      (read.Reads ph → r.1 = 0 ∨ r.1 = -eNoMem ∧ (siteOf pg0 I A0 ph s).Short (segmentPages ph ph.memEnd)) ∧
      (r.1 = 0 → Installed (siteOf pg0 I A0 ph s) read ph r.2.mem ∧
        r.2.mm = if ph.fileEnd = ph.memEnd ∧ ph.memEnd % 4096 ≠ 0 then s.mm else raiseBrk ph s.mm) := by
  obtain ⟨hmemEnd, hfileEnd, hbo⟩ := fileEnd_le hw hle
  have hro := roundDown_bounds ph.pVa
  have hb : (siteOf pg0 I A0 ph s).For ph := ⟨fun n => Iff.rfl, perm_lt ph, hp.user, fun n hn => hfr n hn.1 hn.2⟩
  unfold loadPages
  dsimp only
  refine (fileLoop_at hb h hf hfileEnd hbo ho).bind ?_
  rintro ⟨ret, c, mem1⟩ ⟨hgr, hgo, he⟩
  dsimp only at he ⊢
  split
  · rename_i hret
    exact ⟨hp.upholds hg (fun n hn => hn) hgr, hgr, hgo, fun hz => absurd hz hret⟩
  rename_i hret
  obtain ⟨h1, hc, hla, hin⟩ := he (not_not.mp hret)
  have hal := h1.aligned
  split
  · rename_i hlt
    split
    · rename_i heq
      refine ⟨hp.upholds hg (fun n hn => hn) hgr, hgr, fun _ => Or.inl rfl, fun _ => ⟨h1.installed heq (by omega) (by omega), ?_⟩⟩
      rw [if_pos (by omega)]
    · rename_i hne
      obtain ⟨mem2, ht, h2⟩ := zeroTail_at hb h1 (by omega) (by omega) (by omega) (by omega) (by omega)
      rw [ht, bind_ok]
      rw [if_neg (by omega)]
      exact (loadBss_spec hp hg hb h2 (by dsimp only; omega) (by dsimp only; omega) (by dsimp only; omega) (by dsimp only; omega)
        (by dsimp only; omega)).mono fun r hr => ⟨hr.1, hr.2.1, fun _ => hr.2.2.1, hr.2.2.2⟩
  · rw [if_neg (by omega)]
    exact (loadBss_spec hp hg hb h1 (by omega) (by omega) (by omega) (by omega) (by omega)).mono
      fun r hr => ⟨hr.1, hr.2.1, fun _ => hr.2.2.1, hr.2.2.2⟩

/-- The pages of a range that no VMA has are not mapped. -/
theorem walk_unoccupied {start : Nat} (hg : s.Guarded pg0 I) (hf : s.mm.Unoccupied start stop) (hn : n < userPages)
    (hlo : start ≤ n * 4096) (hhi : n * 4096 < stop) : s.mem.walk s.mm.pgdir n = none := by
  cases hw : s.mem.walk s.mm.pgdir n with
  | none => rfl
  | some e =>
    obtain ⟨f, hc, -⟩ := hg.guarded n hn e hw
    exact absurd ⟨hlo, hhi⟩ (hf _ f hc)

/-- What `mm_map` leaves for the pages of a segment: none of them is mapped. -/
theorem mmMap_site {o : Option Nat} {s1 : Vm} (hg : s.Guarded pg0 I)
    (hm : mmMap kmalloc ph.pVa ph.pMemsz ph.vmFlags s = .ok (0, o, s1)) : s1.mm.pgdir = s.mm.pgdir ∧ s1.mem = s.mem ∧
      ∀ n, roundDown ph.pVa pgSize ≤ n * 4096 → n * 4096 < roundUp ph.memEnd pgSize → s.mem.walk s.mm.pgdir n = none := by
  rcases mmMap_adds hg.tidy rfl rfl hm with ⟨-, ha, -, hu⟩ | ⟨hne, -⟩
  · exact ⟨ha.fields.2.1, ha.mem, fun n hn1 hn2 => walk_unoccupied hg (hu hg.sorted) (page_lt (mmMap_access hm).2.2 hn2) hn1 hn2⟩
  · exact absurd rfl hne

/-- The pages of a segment for which `mm_map` has made a VMA. -/
theorem loadMapped_spec {o : Option Nat} {s1 : Vm} (hg : s.Guarded pg0 I) (h : Private pg0 I A0 s.mm.pgdir A s.mem)
    (hw : ph.NoWrap) (hfi : 0 < ph.pFilesz) (hle : ph.pFilesz ≤ ph.pMemsz) (ho : ph.pOffset < addrSize)
    (hm : mmMap kmalloc ph.pVa ph.pMemsz ph.vmFlags s = .ok (0, o, s1)) :
    Within ((siteOf pg0 I A0 ph s).OutOfMemory (segmentPages ph ph.memEnd)) (loadPages read ph s1) fun r =>
      Upholds pg0 I s r.2 ∧ (siteOf pg0 I A0 ph s).Grown r.2.mem ∧
      (read.Reads ph → r.1 = 0 ∨ r.1 = -eNoMem ∧ (siteOf pg0 I A0 ph s).Short (segmentPages ph ph.memEnd)) ∧
      (r.1 = 0 → Installed (siteOf pg0 I A0 ph s) read ph r.2.mem) := by
  obtain ⟨hu, -⟩ := mmMap_upholds hg hm
  have hp := mmMap_placed hg hm
  obtain ⟨hd, hmem, hf⟩ := mmMap_site hg hm
  have hsite : siteOf pg0 I A0 ph s1 = siteOf pg0 I A0 ph s := by
    unfold siteOf
    rw [hmem, hd]
  rw [← hmem, ← hd] at h hf
  rw [← hsite]
  refine (loadPages_spec hp hu.guarded hw hfi hle ho h fun n h1 h2 => hf n h1 (h2.trans_le hp.le)).mono ?_
  exact fun r hr => ⟨hu.trans hr.1, hr.2.1, hr.2.2.1, fun hz => (hr.2.2.2 hz).1⟩

/-- One program header. -/
theorem loadSegment_spec (kmalloc : Nat → Bool) (read : Reader) (hg : s.Guarded pg0 I)
    (h : Private pg0 I A0 s.mm.pgdir A s.mem) (hw : ph.pType = elfPtLoad → ph.NoWrap) (ho : ph.pOffset < addrSize) :
    Within LoadPanic.Real (loadSegment kmalloc read ph s) (fun r => Upholds pg0 I s r.2 ∧
      (r.1 = 0 → ∃ A', Private pg0 I A0 s.mm.pgdir A' r.2.mem)) := by
  unfold loadSegment
  split
  · rename_i ht
    exact ⟨Upholds.refl hg, fun _ => ⟨A, h⟩⟩
  rename_i ht
  have ht := not_not.mp ht
  split
  · exact ⟨Upholds.refl hg, fun hz => absurd hz (show -eInvalElf ≠ 0 by decide)⟩
  rename_i hle
  split
  · rename_i hf
    exact ⟨Upholds.refl hg, fun _ => ⟨A, h⟩⟩
  rename_i hf
  refine (within_vm _).bind ?_
  rintro ⟨ret, o, s1⟩ hm
  obtain ⟨hu, -⟩ := mmMap_upholds hg hm
  dsimp only
  split
  · rename_i hr
    exact ⟨hu, fun hz => absurd hz hr⟩
  rename_i hr
  obtain rfl : ret = 0 := not_not.mp hr
  refine ((loadMapped_spec hg h (hw ht) (Nat.pos_of_ne_zero hf) (not_lt.mp hle) ho hm).weaken
    real_of_outOfMemory).mono ?_
  rintro ⟨ret, s'⟩ ⟨hu', -, -, hin⟩
  exact ⟨hu', fun hz => (hin hz).private⟩

/-- The loop over the program headers. -/
theorem loadSegments_spec (kmalloc : Nat → Bool) (read : Reader) (elf : Elfhdr) : ∀ (left phnum : Nat) (s : Vm) (A : Set Nat),
    s.Guarded pg0 I → Private pg0 I A0 s.mm.pgdir A s.mem →
    (∀ k, phnum ≤ k → k < phnum + left → (readProghdr read elf k).2.pType = elfPtLoad → (readProghdr read elf k).2.NoWrap) →
    Within LoadPanic.Real (loadSegments kmalloc read elf left phnum s) (fun r => Upholds pg0 I s r.2 ∧
      (r.1 = 0 → ∃ A', Private pg0 I A0 s.mm.pgdir A' r.2.mem)) := by
  intro left
  induction left with
  | zero =>
    intro phnum s A hg h _
    exact ⟨Upholds.refl hg, fun _ => ⟨A, h⟩⟩
  | succ left ih =>
    intro phnum s A hg h hw
    rw [loadSegments]
    split
    · rename_i hret
      exact ⟨Upholds.refl hg, fun hz => absurd hz hret⟩
    refine (loadSegment_spec kmalloc read hg h (hw phnum le_rfl (by omega)) Bytes.word_lt).onZero
      (fun r hr hne => ⟨hr.1, fun hz => absurd hz hne⟩) ?_
    rintro s1 ⟨hu, hs⟩
    obtain ⟨A1, h1⟩ := hs rfl
    refine (ih (phnum + 1) s1 A1 hu.guarded (hu.pgdir.symm ▸ h1) (fun k hk1 hk2 => hw k (by omega) (by omega))).mono ?_
    rintro ⟨ret, s'⟩ ⟨hu', hre⟩
    exact ⟨hu.trans hu', fun hz => hu.pgdir ▸ hre hz⟩

/-! ## The stack, and the whole -/

/-- The pages of the stack, which were not mapped. -/
theorem stackPages_spec (hal : stacktop % 4096 = 0) (hlo : ustackSize ≤ stacktop) (ht : stacktop ≤ userTop)
    (hp : b.perm = pteUser) (hR : ∀ n, b.R n ↔ stacktop - ustackSize ≤ n * 4096 ∧ n * 4096 < stacktop)
    (hf : ∀ n, b.R n → b.base.walk b.d n = none) :
    ∀ (l : List Nat) (mem : Memory) (M : Set Nat), Built b M (fun _ => none) mem → (∀ i ∈ l, 1 ≤ i ∧ i ≤ 256) → l.Nodup →
      (∀ i ∈ l, (stacktop - i * pgSize) / 4096 ∉ M) →
      Within LoadPanic.Real (l.foldlM (fun mem i => stackPage b.d (stacktop - i * pgSize) mem) mem) fun mem' =>
        ∃ M', Built b M' (fun _ => none) mem' := by
  have hsi := ustackSize_eq
  have ht' : stacktop ≤ 2952790016 := ht
  have hpg : pgSize = 4096 := rfl
  intro l
  induction l with
  | nil => exact fun mem M h _ _ _ => ⟨M, h⟩
  | cons i l ih =>
    intro mem M h hl hnd hM
    obtain ⟨hi1, hi2⟩ := hl i List.mem_cons_self
    obtain ⟨hnotin, hnd⟩ := List.nodup_cons.mp hnd
    have hin : b.R ((stacktop - i * pgSize) / 4096) := (hR _).mpr (by rw [hpg]; omega)
    rw [List.foldlM_cons]
    have hpa : Within LoadPanic.Real (stackPage b.d (stacktop - i * pgSize) mem) fun mem1 =>
        Built b (insert ((stacktop - i * pgSize) / 4096) M) (fun _ => none) mem1 := by
      unfold stackPage
      rw [← hp]
      refine ((h.page (by unfold kernBase; omega) (by rw [hp]; decide) hin (hM i List.mem_cons_self)
        (hf _ hin)).weaken real_of_outOfMemory).bind ?_
      rintro ⟨o, mem1⟩ ⟨-, -, hb⟩
      refine Within.ensure_bind (fun _ => ⟨nofun, nofun, nofun⟩) fun hs => ?_
      obtain ⟨p, rfl⟩ := Option.isSome_iff_exists.mp hs
      exact (hb p rfl).1
    refine hpa.bind fun mem1 h1 => ih mem1 _ h1 (fun j hj => hl j (List.mem_cons_of_mem _ hj)) hnd ?_
    rintro j hj (hji | hjM)
    · obtain ⟨hj1, hj2⟩ := hl j (List.mem_cons_of_mem _ hj)
      rw [hpg] at hji
      obtain rfl : j = i := by omega
      exact hnotin hj
    · exact hM j (List.mem_cons_of_mem _ hj) hjM

theorem mapStack_spec (kmalloc : Nat → Bool) (hal : stacktop % 4096 = 0) (hlo : ustackSize ≤ stacktop)
    (ht : stacktop ≤ userTop) (hg : s.Guarded pg0 I) (h : Private pg0 I A0 s.mm.pgdir A s.mem) :
    Within LoadPanic.Real (mapStack kmalloc stacktop s) (fun r => Upholds pg0 I s r.2) := by
  have hsi := ustackSize_eq
  have ht' : stacktop ≤ 2952790016 := ht
  unfold mapStack
  refine (within_vm _).bind ?_
  rintro ⟨ret, o, s1⟩ hm
  obtain ⟨hu, hc⟩ := mmMap_upholds hg hm
  dsimp only
  split
  · exact hu
  rename_i hr
  obtain rfl : ret = 0 := not_not.mp hr
  rcases mmMap_adds hg.tidy rfl rfl hm with ⟨-, ha, -, hun⟩ | ⟨hne, -⟩
  swap
  · exact absurd rfl hne
  have hun := hun hg.sorted
  have hc := hc rfl
  have hs : (stacktop - ustackSize + ustackSize) % addrSize = stacktop := by
    rw [Nat.sub_add_cancel hlo]
    exact Nat.mod_eq_of_lt (by unfold addrSize; omega)
  rw [hs, roundUp_eq hal ht] at hun hc
  -- the site of the stack
  obtain ⟨b, hb⟩ : ∃ b : Site, b = ⟨pg0, I, A0, s1.mm.pgdir, pteUser,
    fun n => stacktop - ustackSize ≤ n * 4096 ∧ n * 4096 < stacktop, s1.mem⟩ := ⟨_, rfl⟩
  have hf : ∀ n, b.R n → b.base.walk b.d n = none := by
    rw [hb]
    rintro n ⟨hn1, hn2⟩
    dsimp only
    rw [ha.mem, hu.pgdir]
    exact walk_unoccupied hg hun (page_lt ht hn2) ((Nat.sub_le _ _).trans hn1) hn2
  rw [← ha.mem, ← hu.pgdir] at h
  subst hb
  refine (stackPages_spec hal hlo ht rfl (fun n => Iff.rfl) hf _ s1.mem ∅ (Built.start h) (by decide) (by decide) nofun).bind ?_
  rintro mem2 ⟨M, hbu⟩
  refine hu.trans (upholds_grows hu.guarded hbu.grown ?_)
  rintro n ⟨hn1, hn2⟩
  refine ⟨_, hc _ (Nat.le_trans ?_ hn1) hn2, ?_⟩
  · exact Nat.sub_le _ _
  · change Permits _ (pteP ||| pteUser)
    unfold Permits
    decide

/-- A new directory, to which nothing is mapped yet. -/
theorem private_setupPgdir (h : mem.Inv pg0 I A (fun _ => 0)) (hr : setupPgdir mem = .ok (some p, mem')) :
    ∃ A', Private pg0 I A p A' mem' := by
  rcases setupPgdir_spec h with ⟨-, hs, -⟩ | ⟨-, hs, -⟩ | ⟨q, area, hs, hqI, hqA, hinv⟩
  · rw [hs] at hr
    cases hr
  · rw [hs] at hr
    cases hr
  · rw [hs] at hr
    cases hr
    exact ⟨_, private_setup h hqA hinv⟩

end ExecAux

open ExecAux

/-- `load_icode` of a program whose segments do not wrap around: the loader's own assertion holds, no page is written beyond its
end, and where it returns 0 there is a new address space that is guarded. -/
theorem loadIcode_spec {read : Reader} {pg0 : Nat → Page} {I A : Set Nat} {mem : Memory} (kmalloc : Nat → Bool) (rnd1 rnd2 : Nat)
    (vmas : Nat → Vma) (kmallocs : Nat) (h : mem.Inv pg0 I A (fun _ => 0)) (hw : read.NoWrap) :
    Within LoadPanic.Real (loadIcode kmalloc read rnd1 rnd2 vmas mem kmallocs) (fun new => ∀ mm, new.mm = some mm →
      Founds pg0 I mem kmallocs ⟨mm, new.mem, new.kmallocs⟩) := by
  unfold loadIcode
  split
  · exact nofun
  refine (within_mem _).bind ?_
  rintro ⟨o, mem1⟩ hs
  cases o with
  | none => exact nofun
  | some pgdir =>
    obtain ⟨hf, -⟩ := founds_setup kmallocs vmas kmallocs h hs
    obtain ⟨A0, h0⟩ := private_setupPgdir h hs
    dsimp only
    split
    · refine (within_mem _).bind ?_
      exact fun mem2 _ => nofun
    have hbody : Within LoadPanic.Real (loadBody kmalloc read (elfhdrOf (read 0 elfhdrSize).2) rnd1 rnd2
        ⟨{ mmCreate kmallocs vmas with pgdir := pgdir }, mem1, kmallocs + 1⟩) (fun r => Founds pg0 I mem kmallocs r.2) := by
      refine (loadSegments_spec kmalloc read _ _ 0 _ A0 hf.guarded h0 (fun k _ hk => hw k (by omega))).onZero
        (fun r hr _ => hf.upholds hr.1) ?_
      rintro s1 ⟨hu, hsegs⟩
      obtain ⟨A1, h1⟩ := hsegs rfl
      have hb := upholds_placeBrk rnd1 hu.guarded
      obtain ⟨hal, hlo, ht⟩ := stacktop_bounds (Nat.mod_lt rnd2 (by decide : 0 < ustackRndMask))
      have h1 : Private pg0 I A s1.mm.pgdir A1 s1.mem := hu.pgdir.symm ▸ h1
      refine (mapStack_spec kmalloc hal hlo ht hb.guarded (A := A1) h1).mono ?_
      exact fun r hu2 => hf.upholds (hu.trans (hb.trans hu2))
    refine hbody.bind ?_
    rintro ⟨ret, s2⟩ hs2
    dsimp only
    split
    swap
    · refine (within_vm _).bind ?_
      exact fun m _ => nofun
    rintro mm hmm
    cases hmm
    exact hs2

end Ucore
