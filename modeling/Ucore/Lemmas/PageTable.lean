import Ucore.PageTable
import Ucore.Lemmas.PmmFree
import Ucore.Lib.SlotCount

/-!
# Page tables as a map with reference counts

`Memory.walk` is the map that a page directory holds: from the number of a linear page of the user half to a frame and flags.
`Memory.refs` counts the entries, of directories and of tables, that name a frame. `Memory.Inv` ties the two to the counters in
the frame descriptors and to the page allocator. A function that is halfway through its work may have counted a reference that it
has not stored yet; the parameter `held` of the invariant says how many of those there are.
-/

namespace Ucore

open Checked SlotCount

variable {la p low w perm : Nat}

/-- The entries of a page directory that belong to the user half. -/
def userSlots : Nat := 768

/-- The linear pages of the user half. -/
def userPages : Nat := userSlots * 1024

/-- What an entry of a directory or a table says: the frame and the flags, or nothing. -/
def decode (w : Nat) : Option (Nat × Nat) := if w &&& pteP = 0 then none else some (ppn (pteAddr w), w &&& 0xFFF)

/-- The page table that an entry of a directory names. -/
def Memory.table (s : Memory) (d i : Nat) : Option Nat := (decode (s.frames d i)).map Prod.fst

/-- What a directory maps a linear page to. -/
def Memory.walk (s : Memory) (d n : Nat) : Option (Nat × Nat) :=
  (s.table d (n / 1024)).bind (fun t => decode (s.frames t (n % 1024)))

/-- The word of the page table for a linear page, where there is a page table. -/
def Memory.pte (s : Memory) (d n : Nat) : Option Nat := (s.table d (n / 1024)).map (fun t => s.frames t (n % 1024))

/-- The table that a slot of the directories names. -/
def Memory.pdeSlot (s : Memory) (k : Nat × Nat) : Option Nat := if k.1 ∈ s.pgdirs then s.table k.1 k.2 else none

/-- The frame that a linear page of the directories maps to. -/
def Memory.pteSlot (s : Memory) (k : Nat × Nat) : Option Nat :=
  if k.1 ∈ s.pgdirs then (s.walk k.1 k.2).map Prod.fst else none

/-- The slots of all directories. -/
def Memory.pdeKeys (s : Memory) : Finset (Nat × Nat) := Finset.range s.npage ×ˢ Finset.range userSlots

/-- The linear pages of all directories. -/
def Memory.pteKeys (s : Memory) : Finset (Nat × Nat) := Finset.range s.npage ×ˢ Finset.range userPages

/-- The number of directory entries that name a frame. -/
def Memory.pdeRefs (s : Memory) (p : Nat) : Nat := slotCount s.pdeKeys s.pdeSlot p

/-- The number of table entries that name a frame. -/
def Memory.pteRefs (s : Memory) (p : Nat) : Nat := slotCount s.pteKeys s.pteSlot p

/-- The number of entries that name a frame. -/
def Memory.refs (s : Memory) (p : Nat) : Nat := s.pdeRefs p + s.pteRefs p

/-- The invariant of the page tables, over the pages `I` of the allocator with those of `A` handed out: directories, tables and
mapped frames are handed out; a table is named once and is no directory, nor is a mapped frame; and a counter is the number of
entries that name the frame, and of the references `held`. -/
structure Memory.Inv (pg0 : Nat → Page) (I A : Set Nat) (held : Nat → Nat) (s : Memory) : Prop where
  area : s.area.Inv pg0 I A
  inside : ∀ p ∈ I, p < s.npage
  small : s.npage ≤ 2 ^ 20
  boot : s.bootPgdir ∉ I
  boot_empty : ∀ i < userSlots, s.table s.bootPgdir i = none
  dirs : ∀ d ∈ s.pgdirs, d ∈ A
  tables : ∀ d ∈ s.pgdirs, ∀ i < userSlots, ∀ t, s.table d i = some t → t ∈ A ∧ t ∉ s.pgdirs
  tables_inj : ∀ d ∈ s.pgdirs, ∀ i < userSlots, ∀ d' ∈ s.pgdirs, ∀ i' < userSlots, ∀ t,
    s.table d i = some t → s.table d' i' = some t → d = d' ∧ i = i'
  mapped : ∀ d ∈ s.pgdirs, ∀ n < userPages, ∀ e, s.walk d n = some e → e.1 ∈ A ∧ e.1 ∉ s.pgdirs
  ref : ∀ p ∈ I, p ∉ s.pgdirs → s.pageRef p = (s.refs p + held p : Nat)

/-! ## Entries -/

theorem ppn_eq (a : Nat) : ppn a = a / 4096 := Nat.shiftRight_eq_div_pow a 12

theorem page2pa_eq (p : Nat) : page2pa p = p * 4096 := Nat.shiftLeft_eq p 12

theorem ppn_page2pa (p : Nat) : ppn (page2pa p) = p := by
  rw [ppn_eq, page2pa_eq, Nat.mul_div_cancel p (by decide)]

theorem pdx_eq (h : la < addrSize) : pdx la = la / 4096 / 1024 := by
  have h' : la < 4294967296 := h
  unfold pdx
  rw [show (0x3FF : Nat) = 2 ^ 10 - 1 from rfl, Nat.and_two_pow_sub_one_eq_mod]
  omega

theorem ptx_eq (la : Nat) : ptx la = la / 4096 % 1024 := by
  unfold ptx
  rw [Nat.shiftRight_eq_div_pow, show (0x3FF : Nat) = 2 ^ 10 - 1 from rfl, Nat.and_two_pow_sub_one_eq_mod]

/-- The frame that an entry names. -/
theorem ppn_pteAddr (w : Nat) : ppn (pteAddr w) = w / 4096 % 2 ^ 20 := by
  unfold ppn pteAddr
  rw [Nat.shiftRight_and_distrib, show (0xFFFFF000 : Nat) >>> 12 = 2 ^ 20 - 1 from rfl, Nat.and_two_pow_sub_one_eq_mod,
    Nat.shiftRight_eq_div_pow]

/-- An entry put together from a frame and flags with `PTE_P`. -/
theorem decode_entry (hp : p < 2 ^ 20) (hl : low < 4096) (h1 : low % 2 = 1) : decode (page2pa p ||| low) = some (p, low) := by
  have hw : page2pa p ||| low = p * 4096 + low := by
    rw [page2pa, ← Nat.shiftLeft_add_eq_or_of_lt hl, Nat.shiftLeft_eq]
  have hpr : (p * 4096 + low) &&& pteP ≠ 0 := by
    rw [pteP, Nat.and_one_is_mod]
    omega
  have hlow : (p * 4096 + low) &&& 0xFFF = low := by
    rw [show (0xFFF : Nat) = 2 ^ 12 - 1 from rfl, Nat.and_two_pow_sub_one_eq_mod]
    omega
  have hf : ppn (pteAddr (p * 4096 + low)) = p := by
    rw [ppn_pteAddr]
    omega
  rw [hw, decode, if_neg hpr, hlow, hf]

@[simp] theorem decode_zero : decode 0 = none := rfl

theorem decode_eq_none : decode w = none ↔ w &&& pteP = 0 := by
  unfold decode
  split <;> simp_all

theorem decode_eq_some {e : Nat × Nat} (h : decode w = some e) : w &&& pteP ≠ 0 ∧ ppn (pteAddr w) = e.1 ∧ w &&& 0xFFF = e.2 := by
  unfold decode at h
  split at h
  · cases h
  · rename_i hp
    cases h
    exact ⟨hp, rfl, rfl⟩

/-- The flags that `page_insert` stores. -/
theorem perm_flags (h : perm < 4096) : (pteP ||| perm) < 4096 ∧ (pteP ||| perm) % 2 = 1 := by
  refine ⟨Nat.or_lt_two_pow (n := 12) (by decide) h, ?_⟩
  rw [pteP, ← Nat.and_one_is_mod, Nat.and_or_distrib_right, Nat.and_self, Nat.and_one_is_mod]
  have : perm % 2 = 0 ∨ perm % 2 = 1 := by omega
  rcases this with h0 | h0 <;> rw [h0] <;> rfl

namespace PageAux

variable {pg0 : Nat → Page} {I A : Set Nat} {held : Nat → Nat} {s s' : Memory} {d i t n p w : Nat}

theorem pte2page_of_decode {e : Nat × Nat} (h : decode w = some e) (hlt : e.1 < s.npage) : pte2page s w = .ok e.1 := by
  obtain ⟨hp, hf, -⟩ := decode_eq_some h
  unfold pte2page pa2page
  rw [ensure_of hp, bind_ok, hf, ensure_of hlt, bind_ok]

/-- What a directory maps a page of a table to. -/
theorem walk_of_table (ht : s.table d (n / 1024) = some t) : s.walk d n = decode (s.frames t (n % 1024)) := by
  rw [Memory.walk, ht, Option.bind_some]

theorem mem_pdeKeys : (d, i) ∈ s.pdeKeys ↔ d < s.npage ∧ i < userSlots := by
  simp [Memory.pdeKeys]

theorem mem_pteKeys : (d, n) ∈ s.pteKeys ↔ d < s.npage ∧ n < userPages := by
  simp [Memory.pteKeys]

theorem allocated_subset (h : s.Inv pg0 I A held) : A ⊆ I := by
  rw [← h.area.cover]
  exact Set.subset_union_right

theorem lt_npage (h : s.Inv pg0 I A held) (hp : p ∈ A) : p < s.npage := h.inside p (allocated_subset h hp)

theorem slot_lt (hn : n < userPages) : n / 1024 < userSlots := by
  unfold userPages at hn
  omega

/-- A frame that is no table and is mapped nowhere is named by no entry. -/
theorem refs_zero_of (hta : ∀ f ∈ s.pgdirs, ∀ i < userSlots, s.table f i ≠ some p)
    (hw : ∀ f ∈ s.pgdirs, ∀ n < userPages, ∀ e, s.walk f n = some e → e.1 ≠ p) : s.refs p = 0 := by
  have h1 : s.pdeRefs p = 0 := by
    refine slotCount_eq_zero.mpr ?_
    rintro ⟨f, i⟩ hk ht
    rw [Memory.pdeSlot] at ht
    split at ht
    · rename_i hf
      exact hta f hf i (mem_pdeKeys.mp hk).2 ht
    · cases ht
  have h2 : s.pteRefs p = 0 := by
    refine slotCount_eq_zero.mpr ?_
    rintro ⟨f, n⟩ hk ht
    rw [Memory.pteSlot] at ht
    split at ht
    · rename_i hf
      obtain ⟨e, he, hep⟩ := Option.map_eq_some_iff.mp ht
      exact hw f hf n (mem_pteKeys.mp hk).2 e he hep
    · cases ht
  rw [Memory.refs, h1, h2]

/-- A frame that is not handed out is named by no entry. -/
theorem refs_eq_zero (h : s.Inv pg0 I A held) (hp : p ∉ A) : s.refs p = 0 :=
  refs_zero_of (fun f hf i hi ht => hp (h.tables f hf i hi p ht).1)
    fun f hf n hn e he hep => hp (hep ▸ (h.mapped f hf n hn e he).1)

theorem pdeRefs_congr (h : ∀ f ∈ s.pgdirs, ∀ i < userSlots, s'.table f i = s.table f i) (hdi : s'.pgdirs = s.pgdirs)
    (hnp : s'.npage = s.npage) (q : Nat) : s'.pdeRefs q = s.pdeRefs q := by
  unfold Memory.pdeRefs Memory.pdeKeys
  rw [hnp]
  refine slotCount_congr ?_ q
  rintro ⟨f, i⟩ hk
  unfold Memory.pdeSlot
  rw [hdi]
  split
  · rename_i hf
    exact h f hf i ((mem_pdeKeys).mp hk).2
  · rfl

theorem pteRefs_congr (h : ∀ f ∈ s.pgdirs, ∀ n < userPages, s'.walk f n = s.walk f n) (hdi : s'.pgdirs = s.pgdirs)
    (hnp : s'.npage = s.npage) (q : Nat) : s'.pteRefs q = s.pteRefs q := by
  unfold Memory.pteRefs Memory.pteKeys
  rw [hnp]
  refine slotCount_congr ?_ q
  rintro ⟨f, n⟩ hk
  unfold Memory.pteSlot
  rw [hdi]
  split
  · rename_i hf
    rw [h f hf n ((mem_pteKeys).mp hk).2]
  · rfl

/-- One slot of a directory changes. -/
theorem pdeRefs_update (hd : d ∈ s.pgdirs) (hlt : d < s.npage) (hi : i < userSlots)
    (h : ∀ f ∈ s.pgdirs, ∀ k, ¬(f = d ∧ k = i) → s'.table f k = s.table f k) (hdi : s'.pgdirs = s.pgdirs)
    (hnp : s'.npage = s.npage) (q : Nat) : s'.pdeRefs q + holds (s.table d i) q = s.pdeRefs q + holds (s'.table d i) q := by
  have hco := slotCount_update s.pdeSlot s'.pdeSlot (mem_pdeKeys.mpr ⟨hlt, hi⟩) (by
    rintro ⟨f, k⟩ _ hne
    unfold Memory.pdeSlot
    rw [hdi]
    split
    · rename_i hf
      exact h f hf k (fun hc => hne (by rw [hc.1, hc.2]))
    · rfl) q
  have hold : s.pdeSlot (d, i) = s.table d i := if_pos hd
  have hnew : s'.pdeSlot (d, i) = s'.table d i := if_pos (hdi ▸ hd)
  rw [hold, hnew] at hco
  unfold Memory.pdeRefs Memory.pdeKeys
  rw [hnp]
  exact hco

/-- A frame that no entry names is mapped nowhere and is no table. -/
theorem not_named (h : s.Inv pg0 I A held) (hp : s.refs p = 0) (hd : d ∈ s.pgdirs) :
    (∀ i < userSlots, s.table d i ≠ some p) ∧ ∀ n < userPages, ∀ e, s.walk d n = some e → e.1 ≠ p := by
  rw [Memory.refs, Nat.add_eq_zero_iff] at hp
  have hlt := lt_npage h (h.dirs d hd)
  refine ⟨?_, ?_⟩
  · intro i hi ht
    have := slotCount_eq_zero.mp hp.1 (d, i) (mem_pdeKeys.mpr ⟨hlt, hi⟩)
    simp only [Memory.pdeSlot, hd, if_true] at this
    exact this ht
  · intro n hn e he hep
    have := slotCount_eq_zero.mp hp.2 (d, n) (mem_pteKeys.mpr ⟨hlt, hn⟩)
    simp only [Memory.pteSlot, hd, if_true, he, Option.map_some, hep] at this
    exact this rfl

end PageAux

/-! ## Counters -/

/-- The counter of a page that is handed out is no concern of the allocator. -/
theorem FreeArea.Inv.setRef {pg0 : Nat → Page} {I A : Set Nat} {s : FreeArea} (h : s.Inv pg0 I A) (hp : p ∈ A) (r : Int) :
    (s.modify p (fun q => { q with ref := r })).Inv pg0 I A := by
  have hs : (s.modify p (fun q => { q with ref := r })).size = s.size := by
    funext q
    by_cases hq : q = p
    · subst hq
      simp [FreeArea.size]
    · simp [FreeArea.size, FreeArea.modify_pages_of_ne s hq]
  have hf : ∀ q, ((s.modify p (fun q => { q with ref := r })).pages q).flags = (s.pages q).flags := by
    intro q
    by_cases hq : q = p
    · subst hq
      simp
    · rw [FreeArea.modify_pages_of_ne s hq]
  have hAI : A ⊆ I := by
    rw [← h.cover]
    exact Set.subset_union_right
  refine ⟨?_, ?_, ?_, ?_, ?_, ?_, ?_, ?_⟩
  · rw [hs]
    exact h.separated
  · intro q hq
    rw [hf]
    exact h.property_iff q hq
  · intro q hq
    rw [hf]
    exact h.reserved q hq
  · rw [hs]
    exact h.count
  · rw [hs]
    exact h.disjoint
  · rw [hs]
    exact h.cover
  · rw [hs]
    intro q hq
    have hne : q ≠ p := fun he => Set.disjoint_left.mp h.disjoint hq (he ▸ hp)
    rw [FreeArea.modify_pages_of_ne s hne]
    exact h.ref_zero q hq
  · intro q hq
    have hne : q ≠ p := fun he => hq (hAI (he ▸ hp))
    rw [FreeArea.modify_pages_of_ne s hne]
    exact h.outside q hq

namespace PageAux

variable {pg0 : Nat → Page} {I A : Set Nat} {held held' : Nat → Nat} {s : Memory} {d i t n p w q k j f : Nat}

@[simp] theorem pageRef_setPageRef_self (s : Memory) (p : Nat) (r : Int) : (s.setPageRef p r).pageRef p = r := by
  simp [Memory.pageRef, Memory.setPageRef]

theorem pageRef_setPageRef_of_ne (s : Memory) (h : q ≠ p) (r : Int) : (s.setPageRef p r).pageRef q = s.pageRef q := by
  simp [Memory.pageRef, Memory.setPageRef, FreeArea.modify_pages_of_ne _ h]

/-- A counter rewritten: what changes is the number of references held. -/
theorem inv_setPageRef (h : s.Inv pg0 I A held) (hp : p ∈ A) (hk : k = s.refs p + held' p)
    (ho : ∀ q, q ≠ p → held' q = held q) : (s.setPageRef p k).Inv pg0 I A held' := by
  refine ⟨h.area.setRef hp k, h.inside, h.small, h.boot, h.boot_empty, h.dirs, h.tables, h.tables_inj, h.mapped, ?_⟩
  intro q hq hqd
  by_cases hqp : q = p
  · subst hqp
    rw [pageRef_setPageRef_self, hk]
    rfl
  · rw [pageRef_setPageRef_of_ne s hqp, ho q hqp]
    exact h.ref q hq hqd

/-- `held` with one more reference to `p`. -/
def hold (held : Nat → Nat) (p q : Nat) : Nat := held q + holds (some p) q

theorem hold_self (held : Nat → Nat) (p : Nat) : hold held p p = held p + 1 := by
  rw [hold, holds_self]

theorem hold_of_ne (held : Nat → Nat) (h : q ≠ p) : hold held p q = held q := by
  rw [hold, holds_of_ne (by simpa using Ne.symm h), Nat.add_zero]

theorem inv_pageRefInc (h : s.Inv pg0 I A held) (hp : p ∈ A) (hd : p ∉ s.pgdirs) :
    (s.pageRefInc p).Inv pg0 I A (hold held p) := by
  have hr := h.ref p (allocated_subset h hp) hd
  have hk : s.pageRef p + 1 = ((s.refs p + hold held p p : Nat) : Int) := by
    rw [hold_self]
    omega
  rw [Memory.pageRefInc, hk]
  exact inv_setPageRef h hp rfl (fun q hq => hold_of_ne held hq)

theorem inv_pageRefDec (h : s.Inv pg0 I A (hold held p)) (hp : p ∈ A) (hd : p ∉ s.pgdirs) :
    (s.pageRefDec p).Inv pg0 I A held ∧ (s.pageRefDec p).pageRef p = (s.refs p + held p : Nat) := by
  have hr := h.ref p (allocated_subset h hp) hd
  have hk : s.pageRef p - 1 = ((s.refs p + held p : Nat) : Int) := by
    rw [hr, hold_self]
    omega
  rw [Memory.pageRefDec, hk]
  exact ⟨inv_setPageRef h hp rfl (fun q hq => (hold_of_ne held hq).symm), pageRef_setPageRef_self s p _⟩

/-! ## Stores into page tables -/

theorem frames_store_of_ne (s : Memory) (h : f ≠ t) : (s.store (t, j) w).frames f = s.frames f := by
  simp [Memory.store, h]

theorem frames_store_self (s : Memory) (t j w : Nat) : (s.store (t, j) w).frames t j = w := by
  simp [Memory.store]

theorem frames_store_index (s : Memory) (h : k ≠ j) : (s.store (t, j) w).frames t k = s.frames t k := by
  simp [Memory.store, h]

section

variable (h : s.Inv pg0 I A held) (hd : d ∈ s.pgdirs) (hn : n < userPages) (ht : s.table d (n / 1024) = some t)
include h hd hn ht

/-- A store into a page table changes no directory. -/
theorem table_store {f : Nat} (hf : f ∈ s.pgdirs ∨ f = s.bootPgdir) (i : Nat) : (s.store (t, n % 1024) w).table f i = s.table f i := by
  obtain ⟨htA, htd⟩ := h.tables d hd _ (slot_lt hn) t ht
  have hne : f ≠ t := by
    rintro rfl
    rcases hf with hf | hf
    · exact htd hf
    · exact h.boot (hf ▸ allocated_subset h htA)
  rw [Memory.table, Memory.table, frames_store_of_ne s hne]

omit h hd hn ht in
theorem walk_eq_pte (s : Memory) (d n : Nat) : s.walk d n = (s.pte d n).bind decode := by
  rw [Memory.walk, Memory.pte, Option.bind_map]
  rfl

/-- A store into a page table changes the entry of one linear page of one directory. -/
theorem pte_store {d' n' : Nat} (hd' : d' ∈ s.pgdirs) (hn' : n' < userPages) :
    (s.store (t, n % 1024) w).pte d' n' = if d' = d ∧ n' = n then some w else s.pte d' n' := by
  rw [Memory.pte, table_store h hd hn ht (Or.inl hd'), Memory.pte]
  cases ht' : s.table d' (n' / 1024) with
  | none =>
    have hne : ¬(d' = d ∧ n' = n) := by
      rintro ⟨rfl, rfl⟩
      rw [ht] at ht'
      cases ht'
    rw [if_neg hne]
    rfl
  | some t' =>
    rw [Option.map_some, Option.map_some]
    by_cases htt : t' = t
    · subst htt
      obtain ⟨rfl, hi⟩ := h.tables_inj d' hd' _ (slot_lt hn') d hd _ (slot_lt hn) t' ht' ht
      by_cases hj : n' % 1024 = n % 1024
      · have hnn : n' = n := by omega
        rw [if_pos ⟨rfl, hnn⟩, hj, frames_store_self]
      · have hnn : n' ≠ n := fun he => hj (by rw [he])
        rw [if_neg (fun hc => hnn hc.2), frames_store_index s hj]
    · have hne : ¬(d' = d ∧ n' = n) := by
        rintro ⟨rfl, rfl⟩
        rw [ht] at ht'
        exact htt (Option.some.inj ht').symm
      rw [if_neg hne, frames_store_of_ne s htt]

theorem walk_store {d' n' : Nat} (hd' : d' ∈ s.pgdirs) (hn' : n' < userPages) :
    (s.store (t, n % 1024) w).walk d' n' = if d' = d ∧ n' = n then decode w else s.walk d' n' := by
  rw [walk_eq_pte, pte_store h hd hn ht hd' hn', walk_eq_pte]
  split
  · rfl
  · rfl

/-- What a store into a page table does to the count of entries. -/
theorem refs_store (q : Nat) : (s.store (t, n % 1024) w).refs q + holds ((s.walk d n).map Prod.fst) q =
      s.refs q + holds ((decode w).map Prod.fst) q := by
  have hp := pdeRefs_congr (fun f hf i _ => table_store (w := w) h hd hn ht (Or.inl hf) i) rfl rfl q
  have hkey : (d, n) ∈ s.pteKeys := mem_pteKeys.mpr ⟨lt_npage h (h.dirs d hd), hn⟩
  have hpte := slotCount_update s.pteSlot (s.store (t, n % 1024) w).pteSlot hkey (by
    rintro ⟨d', n'⟩ hk hne
    change (if d' ∈ s.pgdirs then ((s.store (t, n % 1024) w).walk d' n').map Prod.fst else none) =
      if d' ∈ s.pgdirs then (s.walk d' n').map Prod.fst else none
    split
    · rename_i hd'
      rw [walk_store h hd hn ht hd' (mem_pteKeys.mp hk).2, if_neg (fun hc => hne (by rw [hc.1, hc.2]))]
    · rfl) q
  have hold' : s.pteSlot (d, n) = (s.walk d n).map Prod.fst := if_pos hd
  have hnew : (s.store (t, n % 1024) w).pteSlot (d, n) = (decode w).map Prod.fst := by
    have : (s.store (t, n % 1024) w).pteSlot (d, n) = ((s.store (t, n % 1024) w).walk d n).map Prod.fst := if_pos hd
    rw [this, walk_store h hd hn ht hd hn, if_pos ⟨rfl, rfl⟩]
  rw [hold', hnew] at hpte
  have hkeys : (s.store (t, n % 1024) w).pteRefs q = slotCount s.pteKeys (s.store (t, n % 1024) w).pteSlot q := rfl
  rw [Memory.refs, Memory.refs, hp, hkeys, Memory.pteRefs]
  omega

/-- A store into a page table keeps the invariant when the references held make up for it. -/
theorem inv_store (hw : ∀ e, decode w = some e → e.1 ∈ A ∧ e.1 ∉ s.pgdirs)
    (hh : ∀ q, holds ((s.walk d n).map Prod.fst) q + held q = holds ((decode w).map Prod.fst) q + held' q) :
    (s.store (t, n % 1024) w).Inv pg0 I A held' := by
  refine ⟨h.area, h.inside, h.small, h.boot, ?_, h.dirs, ?_, ?_, ?_, ?_⟩
  · intro i hi
    exact (table_store h hd hn ht (Or.inr rfl) i).trans (h.boot_empty i hi)
  · intro f hf i hi t' ht'
    rw [table_store h hd hn ht (Or.inl hf)] at ht'
    exact h.tables f hf i hi t' ht'
  · intro f hf i hi f' hf' i' hi' t' ht' ht''
    rw [table_store h hd hn ht (Or.inl hf)] at ht'
    rw [table_store h hd hn ht (Or.inl hf')] at ht''
    exact h.tables_inj f hf i hi f' hf' i' hi' t' ht' ht''
  · intro d' hd' n' hn' e he
    rw [walk_store h hd hn ht hd' hn'] at he
    split at he
    · exact hw e he
    · exact h.mapped d' hd' n' hn' e he
  · intro q hq hqd
    have hc := refs_store (w := w) h hd hn ht q
    have hs := hh q
    have hsame : (s.store (t, n % 1024) w).pageRef q = s.pageRef q := rfl
    rw [hsame, h.ref q hq hqd]
    norm_cast
    omega

end

end PageAux

/-! ## Memories that agree on directories and tables -/

/-- The frame is a page directory or a page table. -/
def Memory.Structural (s : Memory) (q : Nat) : Prop := q ∈ s.pgdirs ∨ ∃ f ∈ s.pgdirs, ∃ i < userSlots, s.table f i = some q

namespace PageAux

variable {pg0 : Nat → Page} {I A : Set Nat} {held : Nat → Nat} {s s' : Memory} {d n p : Nat}

theorem structural_mem (h : s.Inv pg0 I A held) (hp : s.Structural p) : p ∈ A := by
  rcases hp with hp | ⟨f, hf, i, hi, ht⟩
  · exact h.dirs p hp
  · exact (h.tables f hf i hi p ht).1

/-- A directory maps the same when its own words and those of its tables are the same. -/
theorem walk_congr (hdir : s'.frames d = s.frames d)
    (htabs : ∀ i < userSlots, ∀ t, s.table d i = some t → s'.frames t = s.frames t) (hn : n < userPages) :
    s'.walk d n = s.walk d n := by
  have htab : s'.table d (n / 1024) = s.table d (n / 1024) := by
    rw [Memory.table, hdir, Memory.table]
  rw [Memory.walk, htab, Memory.walk]
  cases ht : s.table d (n / 1024) with
  | none => rfl
  | some t => rw [Option.bind_some, Option.bind_some, htabs _ (slot_lt hn) t ht]

variable (hsame : ∀ q, s.Structural q → s'.frames q = s.frames q)

include hsame in
theorem table_same (hd : d ∈ s.pgdirs) (i : Nat) : s'.table d i = s.table d i := by
  rw [Memory.table, hsame d (Or.inl hd), Memory.table]

include hsame in
theorem walk_same (hd : d ∈ s.pgdirs) (hn : n < userPages) : s'.walk d n = s.walk d n :=
  walk_congr (hsame d (Or.inl hd)) (fun i hi t ht => hsame t (Or.inr ⟨d, hd, i, hi, ht⟩)) hn

include hsame in
theorem refs_same (hdi : s'.pgdirs = s.pgdirs) (hnp : s'.npage = s.npage) (p : Nat) : s'.refs p = s.refs p := by
  have hp := pdeRefs_congr (fun f hf i _ => table_same hsame hf i) hdi hnp p
  have hpte := pteRefs_congr (fun f hf n hn => walk_same hsame hf hn) hdi hnp p
  rw [Memory.refs, Memory.refs, hp, hpte]

include hsame in
/-- What is in the other frames is no concern of the invariant. -/
theorem inv_same (h : s.Inv pg0 I A held) (ha : s'.area = s.area) (hdi : s'.pgdirs = s.pgdirs)
    (hnp : s'.npage = s.npage) (hb : s'.bootPgdir = s.bootPgdir)
    (hbootFrame : s'.frames s.bootPgdir = s.frames s.bootPgdir) : s'.Inv pg0 I A held := by
  refine ⟨ha ▸ h.area, hnp ▸ h.inside, hnp ▸ h.small, hb ▸ h.boot, ?_, hdi ▸ h.dirs, ?_, ?_, ?_, ?_⟩
  · intro i hi
    rw [hb, Memory.table, hbootFrame]
    exact h.boot_empty i hi
  · intro f hf i hi t ht
    rw [hdi] at hf ⊢
    rw [table_same hsame hf] at ht
    exact h.tables f hf i hi t ht
  · intro f hf i hi f' hf' i' hi' t ht ht'
    rw [hdi] at hf hf'
    rw [table_same hsame hf] at ht
    rw [table_same hsame hf'] at ht'
    exact h.tables_inj f hf i hi f' hf' i' hi' t ht ht'
  · intro f hf m hm e he
    rw [hdi] at hf ⊢
    rw [walk_same hsame hf hm] at he
    exact h.mapped f hf m hm e he
  · intro q hq hqd
    rw [hdi] at hqd
    have hr : s'.pageRef q = s.pageRef q := by
      rw [Memory.pageRef, ha, Memory.pageRef]
    rw [hr, refs_same hsame hdi hnp]
    exact h.ref q hq hqd

end PageAux

end Ucore
