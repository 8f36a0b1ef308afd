import Ucore.Lemmas.Private

/-!
# What `copy_range` does

`copy_range` gives a directory `dt` a copy of each page that `df` maps in a range. `Copying N` is the state of memory after the
linear pages `N` have been copied, seen from the memory `s0` before: `dt` maps those of them that `df` maps, each to a frame of its
own with the same words, and the pages that were handed out are as they were. One round of the loop copies a page or passes over
the pages of a missing table, so the whole loop only adds its range to `N`.

The copy needs a frame for each page and a table for each slot. `P` are the pages that the whole of `dup_mmap` has to copy. Where
`copy_range` fails for want of a page, there were not enough free pages for all of `P` at the start (`Short`).
-/

namespace Ucore

open Checked SlotCount

namespace PageAux

variable {pg0 : Nat → Page} {I A : Set Nat} {s : Memory} {p : Nat}

/-! ## A page taken and written -/

/-- The memory with the free page `p` taken and filled with the words `g`. -/
def filled (s : Memory) (area : FreeArea) (p : Nat) (g : Nat → Nat) : Memory := ({ s with area := area } : Memory).fill p g

variable {area : FreeArea} {g : Nat → Nat}

theorem frames_filled {q : Nat} (hq : q ≠ p) : (filled s area p g).frames q = s.frames q := by
  simp [filled, Memory.fill, hq]

@[simp] theorem frames_filled_self : (filled s area p g).frames p = g := by
  simp [filled, Memory.fill]

theorem frames_filled_structural (area : FreeArea) (g : Nat → Nat) (h : s.Inv pg0 I A (fun _ => 0)) (hp : p ∉ A) (q : Nat)
    (hq : s.Structural q) : (filled s area p g).frames q = s.frames q :=
  frames_filled (fun he => hp (he ▸ structural_mem h hq))

theorem inv_filled (h : s.Inv pg0 I A (fun _ => 0)) (hpI : p ∈ I) (hp : p ∉ A) (ha : area.Inv pg0 I (A ∪ {p}))
    (hr : ∀ q, (area.pages q).ref = (s.area.pages q).ref) : (filled s area p g).Inv pg0 I (A ∪ {p}) (fun _ => 0) := by
  have hs : ∀ q, ({ s with area := area } : Memory).Structural q →
      (filled s area p g).frames q = ({ s with area := area } : Memory).frames q := fun q hq =>
    frames_filled (fun he => hp (he ▸ structural_mem h hq))
  exact inv_same hs (inv_alloc h ha hr) rfl rfl rfl rfl (frames_filled (fun he => h.boot (he ▸ hpI)))

end PageAux

open PageAux

/-! ## Pages copied so far -/

/-- The linear pages `N` of the directory `df` have been copied to `dt`, in the memory `s`; before that, in the memory `s0`, the
pages `A0` were handed out and the user half of `dt` was empty. `P` are pages that are to be copied. -/
structure Copying (pg0 : Nat → Page) (I A0 : Set Nat) (s0 : Memory) (dt df : Nat) (P : Finset Nat) (N : Nat → Prop)
    (A : Set Nat) (s : Memory) : Prop where
  priv : Private pg0 I (A0 \ {dt}) dt A s
  pgdirs : s.pgdirs = s0.pgdirs
  frame : ∀ p ∈ A0, p ≠ dt → s.frames p = s0.frames p
  copied : ∀ n < userPages, N n → ∀ e, s0.walk df n = some e →
    ∃ q, s.walk dt n = some (q, pteP ||| (e.2 &&& pteUser)) ∧ s.frames q = s0.frames e.1
  absent : ∀ n < userPages, ¬N n ∨ s0.walk df n = none → s.walk dt n = none
  pages : ∀ n < userPages, s.walk dt n ≠ none → n ∈ P
  tables : ∀ i < userSlots, s.table dt i ≠ none → i ∈ P.image (· / 1024)

/-- Fewer pages are free than the copy of `P` takes, one for each page and one for each table. -/
def Short (I A0 : Set Nat) (P : Finset Nat) : Prop := (I \ A0).ncard < P.card + (P.image (· / 1024)).card

variable {pg0 : Nat → Page} {I A0 A A' : Set Nat} {s0 s s' : Memory} {dt df n p t : Nat} {P : Finset Nat} {N N' : Nat → Prop}

section

variable (h : Copying pg0 I A0 s0 dt df P N A s)
include h

/-- Pages that `df` does not map need no copy. -/
theorem Copying.pass (hs : ∀ k < userPages, N k → N' k)
    (hne : ∀ k < userPages, N' k → ¬N k → s0.walk df k = none) : Copying pg0 I A0 s0 dt df P N' A s := by
  refine ⟨h.priv, h.pgdirs, h.frame, ?_, ?_, h.pages, h.tables⟩
  · intro n hn hN' e he
    by_cases hN : N n
    · exact h.copied n hn hN e he
    · rw [hne n hn hN' hN] at he
      cases he
  · intro n hn hno
    refine h.absent n hn (hno.imp_left fun hN' hN => hN' (hs n hn hN))

theorem Copying.congr (hN : ∀ k, N k ↔ N' k) : Copying pg0 I A0 s0 dt df P N' A s :=
  h.pass (fun k _ => (hN k).mp) fun k _ hk hno => absurd ((hN k).mpr hk) hno

section

variable (h0 : s0.Inv pg0 I A0 (fun _ => 0))
include h0

/-- The directory that is copied maps what it mapped. -/
theorem Copying.walk_eq {f : Nat} (hf : f ∈ s0.pgdirs) (hne : f ≠ dt) (hn : n < userPages) : s.walk f n = s0.walk f n := by
  refine walk_congr (h.frame f (h0.dirs f hf) hne) ?_ hn
  intro i hi q hq
  obtain ⟨hqA, hqd⟩ := h0.tables f hf i hi q hq
  exact h.frame q hqA (fun he => hqd (he ▸ h.pgdirs ▸ h.priv.dir))

theorem Copying.table_eq {f : Nat} (hf : f ∈ s0.pgdirs) (hne : f ≠ dt) (i : Nat) : s.table f i = s0.table f i := by
  rw [Memory.table, h.frame f (h0.dirs f hf) hne, Memory.table]

/-- No page is free while a page of `P` is not copied: what is handed out since the start are copies of other pages of `P`, and
tables for pages of `P`. -/
theorem Copying.short (hn : n ∈ P) (hno : s.walk dt n = none) (hf : I ⊆ A) : Short I A0 P := by
  classical
  have hs : I \ A0 ⊆ ↑((P.erase n).image (fun m => ((s.walk dt m).getD (0, 0)).1) ∪
      (P.image (· / 1024)).image (fun i => (s.table dt i).getD 0)) := by
    rintro q ⟨hqI, hqA⟩
    rw [Finset.coe_union, Set.mem_union, Finset.mem_coe, Finset.mem_coe, Finset.mem_image, Finset.mem_image]
    rcases h.priv.owned q (hf hqI) with hq | rfl | ⟨i, hi, ht⟩ | ⟨m, hm, e, he, heq⟩
    · exact absurd hq.1 hqA
    · exact absurd (h0.dirs _ (h.pgdirs ▸ h.priv.dir)) hqA
    · exact Or.inr ⟨i, h.tables i hi (by simp [ht]), by simp [ht]⟩
    · refine Or.inl ⟨m, Finset.mem_erase.mpr ⟨?_, h.pages m hm (by simp [he])⟩, by simp [he, heq]⟩
      rintro rfl
      rw [hno] at he
      cases he
  have hle := Set.ncard_le_ncard hs (Finset.finite_toSet _)
  rw [Set.ncard_coe_finset] at hle
  have hunion := Finset.card_union_le ((P.erase n).image (fun m => ((s.walk dt m).getD (0, 0)).1))
    ((P.image (· / 1024)).image (fun i => (s.table dt i).getD 0))
  have h1 := Finset.card_image_le (s := P.erase n) (f := fun m => ((s.walk dt m).getD (0, 0)).1)
  have h2 := Finset.card_image_le (s := P.image (· / 1024)) (f := fun i => (s.table dt i).getD 0)
  have h3 := Finset.card_erase_lt_of_mem hn
  unfold Short
  omega

end

end

namespace PageAux

variable {e : Nat × Nat} {d la m : Nat}

/-- The state before the first page is copied. -/
theorem copying_start (h : s0.Inv pg0 I A0 (fun _ => 0)) (hdt : dt ∈ s0.pgdirs)
    (hem : ∀ i < userSlots, s0.table dt i = none) : Copying pg0 I A0 s0 dt df P (fun _ => False) A0 s0 := by
  have hw : ∀ n < userPages, s0.walk dt n = none := by
    intro n hn
    rw [Memory.walk, hem _ (slot_lt hn), Option.bind_none]
  refine ⟨⟨h, hdt, fun hc => hc.2 rfl, Set.sdiff_subset, ?_, ?_, ?_, ?_, ?_⟩, rfl, fun _ _ _ => rfl, ?_, fun n hn _ => hw n hn,
    ?_, ?_⟩
  · intro f hf _
    refine ⟨?_, ?_⟩
    · intro i hi u hu
      obtain ⟨huA, hud⟩ := h.tables f hf i hi u hu
      exact ⟨huA, fun he => hud (he ▸ hdt)⟩
    · intro m hm e he
      obtain ⟨heA, hed⟩ := h.mapped f hf m hm e he
      exact ⟨heA, fun heq => hed (heq ▸ hdt)⟩
  · intro i hi u hu
    rw [hem i hi] at hu
    cases hu
  · intro m hm e he
    rw [hw m hm] at he
    cases he
  · intro m hm e he
    rw [hw m hm] at he
    cases he
  · intro q hq
    by_cases hqd : q = dt
    · exact Or.inr (Or.inl hqd)
    · exact Or.inl ⟨hq, hqd⟩
  · intro m _ hF
    exact absurd hF id
  · intro m hm hne
    exact absurd (hw m hm) hne
  · intro i hi hne
    exact absurd (hem i hi) hne

/-! ## One page -/

/-- A table made for a page that is to be copied, or found. -/
theorem copying_tabled (h : Copying pg0 I A0 s0 dt df P N A s) (hn : n < userPages) (hP : n ∈ P)
    (ht : Tabled pg0 I dt (n / 1024) t A s A' s') : Copying pg0 I A0 s0 dt df P N A' s' := by
  have hdt := h.priv.dir
  refine ⟨private_tabled h.priv (slot_lt hn) ht, ht.pgdirs.trans h.pgdirs, ?_, ?_, ?_, ?_, ?_⟩
  · intro q hq hqd
    rw [ht.frame q (h.priv.kept ⟨hq, hqd⟩) hqd, h.frame q hq hqd]
  · intro m hm hN e he
    obtain ⟨q, hq, hqs⟩ := h.copied m hm hN e he
    obtain ⟨hqA, hqd⟩ := h.priv.inv.mapped dt hdt m hm _ hq
    refine ⟨q, (ht.walks dt hdt m hm).trans hq, ?_⟩
    rw [ht.frame q hqA (fun hc => hqd (hc ▸ hdt)), hqs]
  · intro m hm hno
    rw [ht.walks dt hdt m hm]
    exact h.absent m hm hno
  · intro m hm
    rw [ht.walks dt hdt m hm]
    exact h.pages m hm
  · intro i hi hs
    by_cases his : i = n / 1024
    · exact his ▸ Finset.mem_image_of_mem _ hP
    · rw [ht.slots dt hdt i hi (fun hc => his hc.2)] at hs
      exact h.tables i hi hs

/-- The new page mapped, with the words of the page it copies. -/
theorem copying_inserted (h : Copying pg0 I A0 s0 dt df P N A s) (hn : n < userPages) (hN : ¬N n) (hP : n ∈ P) (hp : p ∉ A)
    (he : s0.walk df n = some e) (hins : Inserted pg0 I dt n (p, pteP ||| (e.2 &&& pteUser)) A s A' s')
    (hnew : s'.frames p = s0.frames e.1) : Copying pg0 I A0 s0 dt df P (fun k => N k ∨ k = n) A' s' := by
  have hdt := h.priv.dir
  have ho : ∀ m < userPages, m ≠ n → s'.walk dt m = s.walk dt m :=
    fun m hm hmn => hins.others dt hdt m hm (fun hc => hmn hc.2)
  refine ⟨private_inserted h.priv hn (h.absent n hn (Or.inl hN)) hp hins, hins.pgdirs.trans h.pgdirs, ?_, ?_, ?_, ?_, ?_⟩
  · intro q hq hqd
    rw [hins.frame q (h.priv.kept ⟨hq, hqd⟩) hqd (fun i hi hc => h.priv.table_new i hi q hc ⟨hq, hqd⟩), h.frame q hq hqd]
  · intro m hm hm' e' he'
    by_cases hmn : m = n
    · subst hmn
      obtain rfl : e = e' := Option.some.inj (he.symm.trans he')
      exact ⟨p, hins.inserted, hnew⟩
    · obtain ⟨q, hq, hqs⟩ := h.copied m hm (hm'.resolve_right hmn) e' he'
      obtain ⟨hqA, hqd⟩ := h.priv.inv.mapped dt hdt m hm _ hq
      refine ⟨q, (ho m hm hmn).trans hq, ?_⟩
      rw [hins.frame q hqA (fun hc => hqd (hc ▸ hdt)) (h.priv.page_new m hm _ hq).2, hqs]
  · intro m hm hno
    have hmn : m ≠ n := by
      rintro rfl
      rcases hno with hno | hno
      · exact hno (Or.inr rfl)
      · rw [he] at hno
        cases hno
    rw [ho m hm hmn]
    exact h.absent m hm (hno.imp_left fun hno hN' => hno (Or.inl hN'))
  · intro m hm hs
    by_cases hmn : m = n
    · exact hmn ▸ hP
    · rw [ho m hm hmn] at hs
      exact h.pages m hm hs
  · intro i hi hs
    by_cases his : i = n / 1024
    · exact his ▸ Finset.mem_image_of_mem _ hP
    · rw [hins.slots dt hdt i hi (fun hc => his hc.2)] at hs
      exact h.tables i hi hs

/-- A page that was free, filled with words and mapped where the directory has a table. -/
theorem pageInsert_filled (h : s.Inv pg0 I A (fun _ => 0)) {area : FreeArea} (g : Nat → Nat) (perm : Nat) (hd : d ∈ s.pgdirs)
    (hla : la < kernBase) (ht : s.table d (la / 4096 / 1024) = some t) (hpI : p ∈ I) (hp : p ∉ A)
    (ha : area.Inv pg0 I (A ∪ {p})) (hr : ∀ q, (area.pages q).ref = (s.area.pages q).ref) (hpe : perm < 4096) :
    ∃ s' A', pageInsert d p la perm (filled s area p g) = .ok (0, s') ∧
      Inserted pg0 I d (la / 4096) (p, pteP ||| perm) A s A' s' ∧ s'.frames p = g := by
  obtain ⟨-, hn⟩ := addr_lt hla
  have hs := frames_filled_structural area g h hp
  have hpd : p ∉ s.pgdirs := fun hc => hp (h.dirs p hc)
  have hsl : (filled s area p g).table d (la / 4096 / 1024) = some t := (table_same hs hd _).trans ht
  rcases pageInsert_spec (inv_filled h hpI hp ha hr) hd hla (Or.inr rfl) hpd hpe with
    ⟨-, -, hc, -⟩ | ⟨-, -, hc, -⟩ | ⟨s', A', hi, hins⟩
  · rw [hsl] at hc
    cases hc
  · rw [hsl] at hc
    cases hc
  refine ⟨s', A', hi, hins.of_alloc hd hn rfl rfl (fun f hf i _ => table_same hs hf i) (fun f hf m hm => walk_same hs hf hm)
    (fun q _ => refs_same hs rfl rfl q) hp (fun _ hq => frames_filled hq), ?_⟩
  rw [hins.frame p (Or.inr rfl) (fun hc => hpd (hc ▸ hd)) ?_, frames_filled_self]
  intro i hi' hc
  rw [table_same hs hd] at hc
  exact hp (h.tables d hd i hi' p hc).1

/-- The permission that a copy keeps is that of the entry, whose other bits do not reach it. -/
theorem and_pteUser (w : Nat) : w &&& 0xFFF &&& pteUser = w &&& pteUser := by
  rw [Nat.and_assoc]
  rfl

/-- `copy_range` at a page that is present: no page is free, or the page is copied. -/
theorem copyPage_spec (h : Copying pg0 I A0 s0 dt df P N A s) (h0 : s0.Inv pg0 I A0 (fun _ => 0)) (hdf : df ∈ s0.pgdirs)
    (hla : la < kernBase) (hN : ¬N (la / 4096)) (hP : la / 4096 ∈ P) (ht : s0.table df (la / 4096 / 1024) = some t)
    (he : s0.walk df (la / 4096) = some e) : (Short I A0 P ∧ ∀ s', copyPage dt la (t, la / 4096 % 1024) s ≠ .ok (0, s')) ∨
    ∃ s' A', copyPage dt la (t, la / 4096 % 1024) s = .ok (0, s') ∧
      Copying pg0 I A0 s0 dt df P (fun k => N k ∨ k = la / 4096) A' s' := by
  obtain ⟨-, hn⟩ := addr_lt hla
  have hdt := h.priv.dir
  have hdt0 : dt ∈ s0.pgdirs := h.pgdirs ▸ hdt
  unfold copyPage
  rcases getPte_true h.priv.inv hdt hla with ⟨-, hg, -, hf⟩ | ⟨-, hg, -, hf⟩ | ⟨t', s1, A1, hg, htab⟩
  · refine Or.inl ⟨h.short h0 hP (h.absent _ hn (Or.inl hN)) hf, ?_⟩
    rw [hg]
    simp
  · refine Or.inl ⟨h.short h0 hP (h.absent _ hn (Or.inl hN)) hf, ?_⟩
    rw [hg]
    simp [eNoMem]
  have h1 := copying_tabled h hn hP htab
  rw [hg, bind_ok]
  -- the entry of the page that is copied, and the page, are as they were
  obtain ⟨htA, htd⟩ := h0.tables df hdf _ (slot_lt hn) t ht
  obtain ⟨heA, hed⟩ := h0.mapped df hdf _ hn e he
  have hedt : e.1 ≠ dt := fun hc => hed (hc ▸ hdt0)
  have heA1 : e.1 ∈ A1 := h1.priv.kept ⟨heA, hedt⟩
  have hl : s1.load (t, la / 4096 % 1024) = s0.frames t (la / 4096 % 1024) :=
    congrFun (h1.frame t htA (fun hc => htd (hc ▸ hdt0))) _
  have hdecode := (walk_of_table ht).symm.trans he
  obtain ⟨hpr, -, hlow⟩ := decode_eq_some hdecode
  have hpa := pte2page_of_decode hdecode (lt_npage htab.inv heA1)
  have hpe : s0.frames t (la / 4096 % 1024) &&& pteUser = e.2 &&& pteUser := by
    rw [← hlow, and_pteUser]
  rw [hl, hpa, bind_ok, hpe]
  rcases allocPage_spec htab.inv with ⟨-, ha, hf⟩ | ⟨-, ha, hf⟩ | ⟨p, area, ha, ⟨⟨hpI, hp⟩, -⟩, har, hr⟩
  · refine Or.inl ⟨h1.short h0 hP (h1.absent _ hn (Or.inl hN)) hf, ?_⟩
    rw [ha]
    simp
  · refine Or.inl ⟨h1.short h0 hP (h1.absent _ hn (Or.inl hN)) hf, ?_⟩
    rw [ha]
    simp
  have hk : ∀ q ∈ A1 ∪ {p}, kaddr { s1 with area := area } (page2pa q) = .ok q := by
    intro q hq
    have hqn : q < ({ s1 with area := area } : Memory).npage := lt_npage (inv_alloc htab.inv har hr) hq
    unfold kaddr
    rw [ppn_page2pa, ensure_of hqn, bind_ok]
  rw [ha, bind_ok]
  dsimp only
  rw [hk e.1 (Or.inl heA1), bind_ok, hk p (Or.inr rfl), bind_ok]
  obtain ⟨s', A', hi, hins, hnew⟩ := pageInsert_filled htab.inv (s1.frames e.1) (e.2 &&& pteUser) h1.priv.dir hla htab.table
    hpI hp har hr (Nat.and_le_right.trans_lt (by decide))
  refine Or.inr ⟨s', A', ?_, copying_inserted h1 hn hN hP hp he hins (hnew.trans (h1.frame e.1 heA hedt))⟩
  unfold filled at hi
  rw [hi, bind_ok, ensure_of rfl, bind_ok]

/-! ## The loop -/

/-- One round of the loop of `copy_range`, at the linear page `n`: no page is free, or the next round is at a later page, and the
pages between are copied. -/
theorem copyLoop_round (h0 : s0.Inv pg0 I A0 (fun _ => 0)) (hdf : df ∈ s0.pgdirs) (hne : df ≠ dt)
    (h : Copying pg0 I A0 s0 dt df P N A s) (hn : n < m) (hm : m * 4096 ≤ userTop) (hN : ∀ k, n ≤ k → k < m → ¬N k)
    (hP : ∀ k, n ≤ k → k < m → s0.walk df k ≠ none → k ∈ P) (rounds : Nat) :
    (Short I A0 P ∧ ∀ s', copyLoop dt df (m * 4096) (rounds + 1) (n * 4096) s ≠ .ok (0, s')) ∨
    ∃ n1 s1 A1, n < n1 ∧ Copying pg0 I A0 s0 dt df P (fun k => N k ∨ (n ≤ k ∧ k < n1 ∧ k < m)) A1 s1 ∧
      copyLoop dt df (m * 4096) (rounds + 1) (n * 4096) s =
        if n1 < m then copyLoop dt df (m * 4096) rounds (n1 * 4096) s1 else .ok (0, s1) := by
  obtain ⟨hla, hd, hnu, hst, hsk⟩ := linear_page hn hm
  rw [copyLoop, getPte_false h.priv.inv (h.pgdirs ▸ hdf) hla, bind_ok, hd, h.table_eq h0 hdf hne]
  cases ht : s0.table df (n / 1024) with
  | none =>
    have hlt : n < (n / 1024 + 1) * 1024 := by omega
    refine Or.inr ⟨(n / 1024 + 1) * 1024, s, A, hlt, h.pass (fun k _ hk => Or.inl hk) ?_, ?_⟩
    · intro k _ hk hNk
      have hsa : k / 1024 = n / 1024 := by
        have := hk.resolve_left hNk
        omega
      rw [Memory.walk, hsa, ht, Option.bind_none]
    · rw [Option.map_none]
      rw [hsk]
      simp only [goes_on hlt]
  | some t =>
    have htd := h0.tables df hdf _ (slot_lt hnu) t ht
    have hl : s.load (t, n % 1024) = s0.frames t (n % 1024) :=
      congrFun (h.frame t htd.1 (fun hc => htd.2 (hc ▸ h.pgdirs ▸ h.priv.dir))) _
    have hw := walk_of_table ht
    rw [Option.map_some]
    dsimp only
    rw [hl, hst]
    cases he : decode (s0.frames t (n % 1024)) with
    | none =>
      refine Or.inr ⟨n + 1, s, A, Nat.lt_succ_self n, h.pass (fun k _ hk => Or.inl hk) ?_, ?_⟩
      · intro k _ hk hNk
        obtain rfl : k = n := by
          have := hk.resolve_left hNk
          omega
        rw [hw, he]
      · rw [if_neg (by simpa using decode_eq_none.mp he), bind_ok, if_neg (by simp)]
        simp only [goes_on (Nat.lt_succ_self n)]
    | some e =>
      have he' := hw.trans he
      have hP' : n ∈ P := hP n (Nat.le_refl n) hn (by simp [he'])
      rw [if_pos (decode_eq_some he).1]
      have hp := copyPage_spec h h0 hdf hla (by rw [hd]; exact hN n (Nat.le_refl n) hn) (by rw [hd]; exact hP')
        (by rw [hd]; exact ht) (by rw [hd]; exact he')
      rw [hd] at hp
      rcases hp with ⟨hs, hf⟩ | ⟨s1, A1, hs1, hc⟩
      · refine Or.inl ⟨hs, ?_⟩
        cases hco : copyPage dt (n * 4096) (t, n % 1024) s with
        | error p =>
          simp
        | ok c =>
          have hc : c.1 ≠ 0 := fun hz => hf c.2 (hco.trans (congrArg Except.ok (Prod.ext hz rfl)))
          rw [bind_ok, if_pos hc]
          exact fun s' heq => hc (congrArg Prod.fst (Except.ok.inj heq))
      refine Or.inr ⟨n + 1, s1, A1, Nat.lt_succ_self n, hc.congr fun k => or_congr_right (by omega), ?_⟩
      rw [hs1, bind_ok, if_neg (by simp)]
      simp only [goes_on (Nat.lt_succ_self n)]

/-- The loop of `copy_range` from a linear page on. -/
theorem copyLoop_spec (h0 : s0.Inv pg0 I A0 (fun _ => 0)) (hdf : df ∈ s0.pgdirs) (hne : df ≠ dt) (hm : m * 4096 ≤ userTop) :
    ∀ (rounds n : Nat) (N : Nat → Prop) (s : Memory) (A : Set Nat), Copying pg0 I A0 s0 dt df P N A s → n < m →
      m - n ≤ rounds → (∀ k, n ≤ k → k < m → ¬N k) → (∀ k, n ≤ k → k < m → s0.walk df k ≠ none → k ∈ P) →
      (Short I A0 P ∧ ∀ s', copyLoop dt df (m * 4096) rounds (n * 4096) s ≠ .ok (0, s')) ∨
      ∃ s' A', copyLoop dt df (m * 4096) rounds (n * 4096) s = .ok (0, s') ∧
        Copying pg0 I A0 s0 dt df P (fun k => N k ∨ (n ≤ k ∧ k < m)) A' s' := by
  intro rounds
  induction rounds with
  | zero =>
    intro n N s A _ hn hr
    omega
  | succ rounds ih =>
    intro n N s A h hn hr hN hP
    rcases copyLoop_round h0 hdf hne h hn hm hN hP rounds with hf | ⟨n1, s1, A1, hlt, hc, heq⟩
    · exact Or.inl hf
    rw [heq]
    by_cases hn1 : n1 < m
    · rw [if_pos hn1]
      have hN1 : ∀ k, n1 ≤ k → k < m → ¬(N k ∨ (n ≤ k ∧ k < n1 ∧ k < m)) := by
        rintro k hk hk' (hNk | hNk)
        · exact hN k (by omega) hk' hNk
        · omega
      rcases ih n1 _ s1 A1 hc hn1 (by omega) hN1 (fun k hk => hP k (by omega)) with hf | ⟨s', A', hs', hc'⟩
      · exact Or.inl hf
      refine Or.inr ⟨s', A', hs', hc'.congr fun k => ?_⟩
      rw [or_assoc]
      exact or_congr_right (by omega)
    · rw [if_neg hn1]
      exact Or.inr ⟨s1, A1, rfl, hc.congr fun k => or_congr_right (by omega)⟩

end PageAux

/-- `copy_range` of a page-aligned range of the user's addresses, none of whose pages is copied yet. -/
theorem copyRange_spec (h0 : s0.Inv pg0 I A0 (fun _ => 0)) (hdf : df ∈ s0.pgdirs) (hne : df ≠ dt)
    (h : Copying pg0 I A0 s0 dt df P N A s) {start stop : Nat}
    (hal : start % pgSize = 0 ∧ stop % pgSize = 0) (ha : UserAccess start stop)
    (hN : ∀ k, start ≤ k * 4096 → k * 4096 < stop → ¬N k)
    (hP : ∀ k, start ≤ k * 4096 → k * 4096 < stop → s0.walk df k ≠ none → k ∈ P) :
    (Short I A0 P ∧ ∀ s', copyRange dt df start stop s ≠ .ok (0, s')) ∨
    ∃ s' A', copyRange dt df start stop s = .ok (0, s') ∧
      Copying pg0 I A0 s0 dt df P (fun k => N k ∨ (start ≤ k * 4096 ∧ k * 4096 < stop)) A' s' := by
  unfold copyRange
  rw [ensure_of hal, ensure_of ha]
  obtain ⟨-, hlt, htop⟩ := ha
  unfold pgSize at hal ⊢
  have hs : start = start / 4096 * 4096 := by omega
  have ht : stop = stop / 4096 * 4096 := by omega
  rw [ht] at htop
  have hl := copyLoop_spec h0 hdf hne htop ((stop - start) / 4096) (start / 4096) N s A h (by omega) (by omega)
    (fun k hk hk' => hN k (by omega) (by omega)) (fun k hk hk' => hP k (by omega) (by omega))
  rw [← hs, ← ht] at hl
  rcases hl with hf | ⟨s', A', hs', hc⟩
  · exact Or.inl hf
  exact Or.inr ⟨s', A', hs', hc.congr fun k => or_congr_right (by omega)⟩

end Ucore
