import Ucore.Lemmas.Private

/-!
# Giving page tables back

`exit_range` returns the page tables of the directory slots that a range touches, once nothing is mapped there any more, and
`put_pgdir` returns the directory itself. A table in a slot that no range touches stays handed out.
-/

namespace Ucore

open Checked SlotCount

namespace PageAux

variable {pg0 : Nat → Page} {I A A' base : Set Nat} {s s' : Memory} {d i t n : Nat}

/-- The memory after `exit_range` cleared the slot `i` of the directory `d`. -/
def emptied (s : Memory) (area : FreeArea) (d i : Nat) : Memory := ({ s with area := area } : Memory).store (d, i) 0

variable {area : FreeArea} {K K' : Nat → Prop} {stop : Nat}

theorem table_emptied (f k : Nat) : (emptied s area d i).table f k = if f = d ∧ k = i then none else s.table f k := by
  by_cases hfd : f = d
  · subst hfd
    by_cases hk : k = i
    · subst hk
      rw [if_pos ⟨rfl, rfl⟩, Memory.table, emptied, frames_store_self, decode_zero, Option.map_none]
    · rw [if_neg (fun hc => hk hc.2), Memory.table, emptied, frames_store_index _ hk]
      rfl
  · rw [if_neg (fun hc => hfd hc.1), Memory.table, emptied, frames_store_of_ne _ hfd]
    rfl

/-- Nothing was mapped through the slot, so the map stays as it was. -/
theorem walk_emptied (h : Private pg0 I base d A s) (hno : ∀ n < userPages, s.walk d n = none) {f : Nat}
    (hf : f ∈ s.pgdirs) (hn : n < userPages) : (emptied s area d i).walk f n = s.walk f n := by
  rw [Memory.walk, table_emptied]
  split
  · rename_i hc
    rw [hc.1, hno n hn, Option.bind_none]
  · rw [Memory.walk]
    cases ht : s.table f (n / 1024) with
    | none => rfl
    | some u =>
      have hud : u ≠ d := fun he => (h.inv.tables f hf _ (slot_lt hn) u ht).2 (he ▸ h.dir)
      rw [Option.bind_some, Option.bind_some, emptied, frames_store_of_ne _ hud]

/-- What the empty slot does to the count of entries: there is one less that names the table. -/
theorem refs_emptied (area : FreeArea) (h : Private pg0 I base d A s) (hne : ∀ n < userPages, s.walk d n = none)
    (hi : i < userSlots) (ht : s.table d i = some t) (q : Nat) : (emptied s area d i).refs q + holds (some t) q = s.refs q := by
  have hd := h.dir
  have hta : ∀ f ∈ s.pgdirs, ∀ k, ¬(f = d ∧ k = i) → (emptied s area d i).table f k = s.table f k :=
    fun f _ k hno => (table_emptied f k).trans (if_neg hno)
  have hw : ∀ f ∈ s.pgdirs, ∀ n < userPages, (emptied s area d i).walk f n = s.walk f n :=
    fun f hf n hn => walk_emptied h hne hf hn
  have hpte := pteRefs_congr hw rfl rfl q
  have hp := pdeRefs_update hd (lt_npage h.inv (h.inv.dirs d hd)) hi hta rfl rfl q
  rw [ht, table_emptied, if_pos ⟨rfl, rfl⟩, holds_none, Nat.add_zero] at hp
  rw [Memory.refs, Memory.refs]
  omega

/-- The one entry that names a table through which nothing is mapped. -/
theorem refs_table (h : Private pg0 I base d A s) (hne : ∀ n < userPages, s.walk d n = none) (hi : i < userSlots)
    (ht : s.table d i = some t) : (emptied s area d i).refs t = 0 := by
  refine refs_zero_of ?_ ?_
  · intro f hf k hk hu
    rw [table_emptied] at hu
    split at hu
    · cases hu
    · rename_i hno
      exact hno (h.inv.tables_inj f hf k hk d h.dir i hi t hu ht)
  · intro f hf n hn e he het
    rw [walk_emptied h hne hf hn] at he
    by_cases hfd : f = d
    · rw [hfd, hne n hn] at he
      cases he
    · exact h.table_new i hi t ht (het ▸ (h.others f hf hfd).2 n hn e he)

/-- A table of the address space given back. -/
theorem private_emptied (h : Private pg0 I base d A s) (hne : ∀ n < userPages, s.walk d n = none) (hi : i < userSlots)
    (ht : s.table d i = some t) (ha : area.Inv pg0 I (A \ {t}))
    (hr : ∀ q, (area.pages q).ref = if q = t then 0 else (s.area.pages q).ref) :
    Private pg0 I base d (A \ {t}) (emptied s area d i) := by
  have hd := h.dir
  obtain ⟨htA, htd⟩ := h.inv.tables d hd i hi t ht
  have htb := h.table_new i hi t ht
  have hm : ∀ f ∈ s.pgdirs, ∀ n < userPages, ∀ e, s.walk f n = some e → e.1 ≠ t := by
    rintro f hf n hn e he rfl
    by_cases hfd : f = d
    · rw [hfd, hne n hn] at he
      cases he
    · exact htb ((h.others f hf hfd).2 n hn e he)
  have hs : ∀ f k u, (emptied s area d i).table f k = some u → s.table f k = some u ∧ ¬(f = d ∧ k = i) := by
    intro f k u hu
    rw [table_emptied] at hu
    split at hu
    · cases hu
    · rename_i hno
      exact ⟨hu, hno⟩
  have hinv : (emptied s area d i).Inv pg0 I (A \ {t}) (fun _ => 0) := by
    refine ⟨ha, h.inv.inside, h.inv.small, h.inv.boot, ?_, ?_, ?_, ?_, ?_, ?_⟩
    · intro k hk
      rw [table_emptied]
      split
      · rfl
      · exact h.inv.boot_empty k hk
    · exact fun f hf => ⟨h.inv.dirs f hf, fun he => htd (he ▸ hf)⟩
    · intro f hf k hk u hu
      obtain ⟨hu, hno⟩ := hs f k u hu
      obtain ⟨huA, hud⟩ := h.inv.tables f hf k hk u hu
      refine ⟨⟨huA, ?_⟩, hud⟩
      rintro rfl
      exact hno (h.inv.tables_inj f hf k hk d hd i hi u hu ht)
    · intro f hf k hk f' hf' k' hk' u hu hu'
      exact h.inv.tables_inj f hf k hk f' hf' k' hk' u (hs f k u hu).1 (hs f' k' u hu').1
    · intro f hf n hn e he
      rw [walk_emptied h hne hf hn] at he
      obtain ⟨heA, hed⟩ := h.inv.mapped f hf n hn e he
      exact ⟨⟨heA, hm f hf n hn e he⟩, hed⟩
    · intro q hq hqd
      have hpr : (emptied s area d i).pageRef q = (area.pages q).ref := rfl
      rw [hpr, hr q]
      by_cases hqt : q = t
      · rw [if_pos hqt, hqt, refs_table h hne hi ht]
        rfl
      · have hre := refs_emptied area h hne hi ht q
        rw [holds_of_ne (fun he => hqt (Option.some.inj he).symm)] at hre
        rw [if_neg hqt, hre]
        exact h.inv.ref q hq hqd
  refine ⟨hinv, hd, h.dir_new, ?_, ?_, ?_, ?_, ?_, ?_⟩
  · intro q hq
    exact ⟨h.kept hq, fun he => htb (he ▸ hq)⟩
  · intro f hf hfd
    refine ⟨?_, ?_⟩
    · intro k hk u hu
      exact (h.others f hf hfd).1 k hk u (hs f k u hu).1
    · intro n hn e he
      rw [walk_emptied h hne hf hn] at he
      exact (h.others f hf hfd).2 n hn e he
  · exact fun k hk u hu => h.table_new k hk u (hs d k u hu).1
  · intro n hn e he
    rw [walk_emptied h hne hd hn, hne n hn] at he
    cases he
  · intro n hn e he
    rw [walk_emptied h hne hd hn, hne n hn] at he
    cases he
  · rintro q ⟨hqA, hqt⟩
    rcases h.owned q hqA with hb | hb | ⟨k, hk, hu⟩ | ⟨n, hn, e, he, -⟩
    · exact Or.inl hb
    · exact Or.inr (Or.inl hb)
    · refine Or.inr (Or.inr (Or.inl ⟨k, hk, ?_⟩))
      rw [table_emptied, if_neg]
      · exact hu
      · rintro ⟨-, rfl⟩
        exact hqt (Option.some.inj (hu.symm.trans ht))
    · rw [hne n hn] at he
      cases he

/-! ## `exit_range` -/

/-- The slots `K` of the directory are empty, the others as they were, and nothing is mapped. -/
structure Emptied (d : Nat) (K : Nat → Prop) (s s' : Memory) : Prop where
  pgdirs : s'.pgdirs = s.pgdirs
  emptied : ∀ k < userSlots, K k → s'.table d k = none
  others : ∀ k < userSlots, ¬K k → s'.table d k = s.table d k
  walk : ∀ n < userPages, s'.walk d n = none

theorem Emptied.trans {s'' : Memory} (h : Emptied d K s s') (h' : Emptied d K' s' s'') :
    Emptied d (fun k => K k ∨ K' k) s s'' := by
  refine ⟨h'.pgdirs.trans h.pgdirs, ?_, ?_, h'.walk⟩
  · intro k hk hK
    by_cases hK' : K' k
    · exact h'.emptied k hk hK'
    · rw [h'.others k hk hK', h.emptied k hk (hK.resolve_right hK')]
  · intro k hk hno
    rw [not_or] at hno
    rw [h'.others k hk hno.2, h.others k hk hno.1]

theorem Emptied.congr (h : Emptied d K s s') (hK : ∀ k < userSlots, K k ↔ K' k) : Emptied d K' s s' :=
  ⟨h.pgdirs, fun k hk hk' => h.emptied k hk ((hK k hk).mpr hk'), fun k hk hno => h.others k hk (fun hk' => hno ((hK k hk).mp hk')),
    h.walk⟩

theorem exitSlot_spec (h : Private pg0 I base d A s) (hno : ∀ n < userPages, s.walk d n = none) (hi : i < userSlots) :
    ∃ s' A', exitSlot d i s = .ok s' ∧ Private pg0 I base d A' s' ∧ Emptied d (· = i) s s' := by
  unfold exitSlot
  have hl : s.load (d, i) = s.frames d i := rfl
  rw [hl]
  cases ht : s.table d i with
  | none =>
    rw [if_neg (by simpa using decode_eq_none.mp (Option.map_eq_none_iff.mp ht))]
    refine ⟨s, A, rfl, h, rfl, ?_, fun _ _ _ => rfl, hno⟩
    rintro k - rfl
    exact ht
  | some t =>
    obtain ⟨htA, -⟩ := h.inv.tables d h.dir i hi t ht
    obtain ⟨e, he, het⟩ := Option.map_eq_some_iff.mp ht
    obtain ⟨hpr, hf, -⟩ := decode_eq_some he
    have hp : pa2page s (pteAddr (s.frames d i)) = .ok t := by
      unfold pa2page
      rw [hf, het, ensure_of (lt_npage h.inv htA), bind_ok]
    obtain ⟨area, hfr, ha, hr⟩ := freePage_area h.inv.area htA
    rw [if_pos hpr, hp, bind_ok, hfr]
    refine ⟨_, _, rfl, private_emptied h hno hi ht ha hr, rfl, ?_, ?_, ?_⟩
    · rintro k - rfl
      exact (table_emptied d k).trans (if_pos ⟨rfl, rfl⟩)
    · intro k _ hk
      exact (table_emptied d k).trans (if_neg (fun hc => hk hc.2))
    · intro n hn
      exact (walk_emptied h hno h.dir hn).trans (hno n hn)

theorem exitLoop_succ (hi : i < 1024) (rounds : Nat) : exitLoop d stop (rounds + 1) (i * ptSize) s =
    (exitSlot d i s >>= fun s' => if (i + 1) * ptSize % addrSize ≠ 0 ∧ (i + 1) * ptSize % addrSize < stop then
      exitLoop d stop rounds ((i + 1) * ptSize % addrSize) s' else .ok s') := by
  have hs : ptSize = 4194304 := rfl
  have hpdx : pdx (i * ptSize) = i := by
    rw [pdx_eq (by rw [hs]; change _ < 4294967296; omega), hs]
    omega
  have hn : i * ptSize + ptSize = (i + 1) * ptSize := (Nat.succ_mul i ptSize).symm
  rw [exitLoop, hpdx, hn]

/-- The loop of `exit_range` empties the slots from the one it starts at to the end of the range. -/
theorem exitLoop_spec (hst : stop ≤ userTop) :
    ∀ (rounds i : Nat) (s : Memory) (A : Set Nat), Private pg0 I base d A s → (∀ n < userPages, s.walk d n = none) →
      i * ptSize < stop → stop ≤ (i + rounds) * ptSize →
      ∃ s' A', exitLoop d stop rounds (i * ptSize) s = .ok s' ∧ Private pg0 I base d A' s' ∧
        Emptied d (fun k => i ≤ k ∧ k * ptSize < stop) s s' := by
  have hs : ptSize = 4194304 := rfl
  have ht : stop ≤ 2952790016 := hst
  intro rounds
  induction rounds with
  | zero =>
    intro i s A _ _ hi hr
    rw [Nat.add_zero] at hr
    omega
  | succ rounds ih =>
    intro i s A h hno hi hr
    have hi' : i < 704 := by
      rw [hs] at hi
      omega
    have hle : stop ≤ (i + 1 + rounds) * ptSize := by
      rwa [Nat.add_assoc, Nat.add_comm 1]
    have hb : (i + 1) * ptSize < addrSize := (Nat.mul_le_mul_right ptSize hi').trans_lt (by decide)
    obtain ⟨s1, A1, hrun, hp1, he1⟩ := exitSlot_spec h hno (hi'.trans (by decide))
    rw [exitLoop_succ (hi'.trans (by decide)), hrun, bind_ok, Nat.mod_eq_of_lt hb]
    by_cases hn : (i + 1) * ptSize < stop
    · have hp : (i + 1) * ptSize ≠ 0 := by
        rw [hs]
        omega
      rw [if_pos ⟨hp, hn⟩]
      obtain ⟨s2, A2, hl, hp2, he2⟩ := ih (i + 1) s1 A1 hp1 he1.walk hn hle
      refine ⟨s2, A2, hl, hp2, (he1.trans he2).congr ?_⟩
      intro k _
      rw [hs] at hi hn ⊢
      omega
    · rw [if_neg (fun hc => hn hc.2)]
      refine ⟨s1, A1, rfl, hp1, he1.congr ?_⟩
      intro k _
      rw [hs] at hi hn ⊢
      omega

/-- The slot of the directory has an address of the range. -/
def Touches (start stop k : Nat) : Prop := start < (k + 1) * ptSize ∧ k * ptSize < stop

instance (start stop k : Nat) : Decidable (Touches start stop k) := inferInstanceAs (Decidable (_ ∧ _))

theorem exitRange_spec {start : Nat} (h : Private pg0 I base d A s) (hn : ∀ n < userPages, s.walk d n = none)
    (hal : start % pgSize = 0 ∧ stop % pgSize = 0) (ha : UserAccess start stop) :
    ∃ s' A', exitRange d start stop s = .ok s' ∧ Private pg0 I base d A' s' ∧ Emptied d (Touches start stop) s s' := by
  have hs : ptSize = 4194304 := rfl
  have hlt := ha.2.1
  have ht := ha.2.2
  have hro : roundDown start ptSize = start / ptSize * ptSize := by
    have := Nat.div_add_mod start ptSize
    rw [roundDown, Nat.mul_comm]
    omega
  unfold exitRange
  rw [ensure_of hal, bind_ok, ensure_of ha, bind_ok, hro]
  obtain ⟨s', A', hr, hp, he⟩ := exitLoop_spec ht ((stop - start / ptSize * ptSize) / ptSize + 1) (start / ptSize) s A h hn
    (by rw [hs]; omega) (by rw [hs]; omega)
  refine ⟨s', A', hr, hp, he.congr ?_⟩
  intro k _
  unfold Touches
  rw [hs]
  omega

/-! ## `put_pgdir` -/

theorem putPgdir_spec (h : Private pg0 I base d A s) :
    ∃ area, putPgdir d s = .ok { s with area := area, pgdirs := s.pgdirs.erase d } ∧ area.Inv pg0 I (A \ {d}) := by
  have hdA := h.inv.dirs d h.dir
  obtain ⟨area, hf, ha, -⟩ := freePage_area h.inv.area hdA
  refine ⟨area, ?_, ha⟩
  unfold putPgdir pa2page
  rw [ppn_page2pa, ensure_of (lt_npage h.inv hdA), bind_ok, bind_ok, hf, bind_ok]

end PageAux

end Ucore
