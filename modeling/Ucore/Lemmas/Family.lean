import Mathlib.Data.List.Perm.Subperm
import Ucore.Lib.Siblings
import Ucore.Proc

/-!
# Parents and children

`Family.Tree` says that the children of every process are linked from its `cptr` on, by `optr` and back by `yptr`, the process that came
last to its parent first. The operations are taken apart: a process that has left its place (or has none yet) is put in front of the
children of its parent by `addChild`, and in between the tree is one of the other processes (`S`). During the loop of `do_exit` the back
links of the children that are still to be moved are stale: the list of the process that exits is `torn`.
-/

namespace Ucore

open Siblings Function

namespace Family

/-- The children of `P` among the processes `S`. -/
structure Children (f : Family) (S : Nat → Prop) (P : Nat) (l : List Nat) : Prop where
  seg : Seg f.optr (f.cptr P) l none
  mem : ∀ q, q ∈ l ↔ S q ∧ f.parent q = P
  order : l.Pairwise fun x y => f.since y < f.since x

/-- The tree of the processes `S`, where the lists of the processes `torn` have no back links. -/
structure Tree (f : Family) (idle : Nat) (S torn : Nat → Prop) : Prop where
  nodup : f.procList.Nodup
  root : idle ∉ f.procList
  sub : ∀ q, S q → q ∈ f.procList
  parent : ∀ q ∈ f.procList, f.parent q = idle ∨ f.parent q ∈ f.procList
  children : ∀ P, P = idle ∨ P ∈ f.procList → ∃ l, f.Children S P l ∧ (¬torn P → Back f.yptr none l)
  since : ∀ q, S q → f.since q < f.clock

/-- All processes are in the tree. -/
abbrev Full (f : Family) (idle : Nat) (torn : Nat → Prop) : Prop := f.Tree idle (· ∈ f.procList) torn

section

variable {f : Family} {idle p q c P : Nat} {S torn : Nat → Prop} {l : List Nat}

theorem Children.nodup (h : f.Children S P l) : l.Nodup := by
  refine List.Pairwise.imp ?_ h.order
  rintro x _ hlt rfl
  exact absurd hlt (Nat.lt_irrefl _)

theorem Children.head (h : f.Children S P l) (hc : f.cptr P = some c) : ∃ l', l = c :: l' := by
  have hs := h.seg
  rw [hc] at hs
  cases l with
  | nil => exact nomatch hs
  | cons x l =>
    cases hs.1
    exact ⟨l, rfl⟩

theorem Children.eq_nil (h : f.Children S P l) (hc : f.cptr P = none) : l = [] := by
  have hs := h.seg
  rw [hc] at hs
  cases l with
  | nil => rfl
  | cons x l => exact nomatch hs.1

/-- The number of processes is no part of the tree. -/
theorem Tree.setNr (h : f.Tree idle S torn) (n : Nat) : Tree { f with nrProcess := n } idle S torn where
  nodup := h.nodup
  root := h.root
  sub := h.sub
  parent := h.parent
  children P hP := by
    obtain ⟨l, hl, hb⟩ := h.children P hP
    exact ⟨l, ⟨hl.seg, hl.mem, hl.order⟩, hb⟩
  since := h.since

/-! ## A new first child -/

theorem addChild_yptr (f : Family) (q c : Nat) : (f.addChild q c).yptr = pushPrev f.yptr (f.cptr q) c := by
  unfold addChild pushPrev
  cases f.cptr q <;> rfl

theorem addChild_since_of_ne {x : Nat} (hx : x ≠ c) : (f.addChild q c).since x = f.since x := update_of_ne hx ..

/-- The process is put in front of its parent's children. -/
theorem Children.push (h : f.Children S q l) (hb : Back f.yptr none l) (hc : ¬S c) (hp : f.parent c = q)
    (hs : ∀ x, S x → f.since x < f.clock) :
    (f.addChild q c).Children (fun x => x = c ∨ S x) q (c :: l) ∧ Back (f.addChild q c).yptr none (c :: l) := by
  have hcl : c ∉ l := fun hm => hc ((h.mem c).mp hm).1
  have hl : Linked f.optr f.yptr (f.cptr q) l := ⟨h.seg, hb⟩
  have hpu := hl.push h.nodup hcl
  have hcp : (f.addChild q c).cptr q = some c := update_self ..
  rw [addChild_yptr]
  refine ⟨⟨?_, ?_, ?_⟩, hpu.back⟩
  · rw [hcp]
    exact hpu.seg
  · intro x
    rw [List.mem_cons, h.mem]
    constructor
    · rintro (rfl | ⟨hx, hxq⟩)
      · exact ⟨Or.inl rfl, hp⟩
      · exact ⟨Or.inr hx, hxq⟩
    · rintro ⟨rfl | hx, hxq⟩
      · exact Or.inl rfl
      · exact Or.inr ⟨hx, hxq⟩
  · refine List.pairwise_cons.mpr ⟨?_, ?_⟩
    · intro x hx
      rw [addChild_since_of_ne (ne_of_mem_of_not_mem hx hcl)]
      change f.since x < update f.since c f.clock c
      rw [update_self]
      exact hs x ((h.mem x).mp hx).1
    · refine h.order.imp_of_mem ?_
      intro x y hx hy hlt
      rw [addChild_since_of_ne (ne_of_mem_of_not_mem hx hcl), addChild_since_of_ne (ne_of_mem_of_not_mem hy hcl)]
      exact hlt

/-- The children of another process are the same as before. -/
theorem Children.push_other (h : f.Children S P l) (hP : P ≠ q) (hc : ¬S c) (hp : f.parent c = q)
    (hh : ∀ o, f.cptr q = some o → o ∉ l) :
    (f.addChild q c).Children (fun x => x = c ∨ S x) P l ∧ (Back f.yptr none l → Back (f.addChild q c).yptr none l) := by
  have hcl : c ∉ l := fun hm => hc ((h.mem c).mp hm).1
  have hcp : (f.addChild q c).cptr P = f.cptr P := update_of_ne hP ..
  refine ⟨⟨?_, ?_, ?_⟩, ?_⟩
  · rw [hcp]
    exact h.seg.congr fun x hx => update_of_ne (ne_of_mem_of_not_mem hx hcl) ..
  · intro x
    rw [h.mem]
    constructor
    · intro ⟨hx, hxP⟩
      exact ⟨Or.inr hx, hxP⟩
    · rintro ⟨rfl | hx, hxP⟩
      · exact absurd (hxP.symm.trans hp) hP
      · exact ⟨hx, hxP⟩
  · refine h.order.imp_of_mem ?_
    intro x y hx hy hlt
    rw [addChild_since_of_ne (ne_of_mem_of_not_mem hx hcl), addChild_since_of_ne (ne_of_mem_of_not_mem hy hcl)]
    exact hlt
  · intro hb
    rw [addChild_yptr]
    exact hb.congr fun x hx => pushPrev_of_ne (ne_of_mem_of_not_mem hx hcl) fun ho => hh x ho hx

/-- The missing process is put in its place. -/
theorem Tree.addChild (h : f.Tree idle S torn) (hS : ∀ x, x ∈ f.procList ↔ x = c ∨ S x) (hc : ¬S c) (hq : q = idle ∨ q ∈ f.procList)
    (hp : f.parent c = q) (htorn : ¬torn q) : (f.addChild q c).Full idle torn where
  nodup := h.nodup
  root := h.root
  sub := fun x hx => hx
  parent := h.parent
  children P hP := by
    have hs : (fun x => x = c ∨ S x) = (· ∈ (f.addChild q c).procList) := by
      funext x
      exact propext (hS x).symm
    obtain ⟨lq, hlq, hbq⟩ := h.children q hq
    by_cases hPq : P = q
    · subst hPq
      obtain ⟨hl, hb⟩ := hlq.push (hbq htorn) hc hp h.since
      rw [hs] at hl
      exact ⟨c :: lq, hl, fun _ => hb⟩
    · obtain ⟨l, hl, hb⟩ := h.children P hP
      have hh : ∀ o, f.cptr q = some o → o ∉ l := by
        intro o ho hm
        obtain ⟨l', rfl⟩ := hlq.head ho
        exact hPq (((hl.mem o).mp hm).2.symm.trans ((hlq.mem o).mp List.mem_cons_self).2)
      obtain ⟨hl', hb'⟩ := hl.push_other hPq hc hp hh
      rw [hs] at hl'
      exact ⟨l, hl', fun ht => hb' (hb ht)⟩
  since x hx := by
    change update f.since c f.clock x < f.clock + 1
    by_cases hxc : x = c
    · rw [hxc, update_self]
      exact Nat.lt_succ_self _
    · rw [update_of_ne hxc]
      have := h.since x (((hS x).mp hx).resolve_left hxc)
      omega

/-! ## A child of an exiting process is moved -/

/-- The first child of a process leaves the list. -/
theorem Tree.detach (h : f.Full idle (· = p)) (hp : p = idle ∨ p ∈ f.procList) (hq : q = idle ∨ q ∈ f.procList)
    (hc : f.cptr p = some c) : Tree { f with cptr := update f.cptr p (f.optr c), parent := update f.parent c q } idle
      (fun x => x ∈ f.procList ∧ x ≠ c) (· = p) where
  nodup := h.nodup
  root := h.root
  sub := fun x hx => hx.1
  parent x hx := by
    change update f.parent c q x = idle ∨ update f.parent c q x ∈ f.procList
    by_cases hxc : x = c
    · rw [hxc, update_self]
      exact hq
    · rw [update_of_ne hxc]
      exact h.parent x hx
  children P hP := by
    obtain ⟨lp, hlp, -⟩ := h.children p hp
    obtain ⟨lp, rfl⟩ := hlp.head hc
    have hcp : f.parent c = p := ((hlp.mem c).mp List.mem_cons_self).2
    by_cases hPp : P = p
    · subst hPp
      have hcl : c ∉ lp := (List.nodup_cons.mp hlp.nodup).1
      refine ⟨lp, ⟨?_, ?_, (List.pairwise_cons.mp hlp.order).2⟩, fun ht => absurd rfl ht⟩
      · change Seg f.optr (update f.cptr P (f.optr c) P) lp none
        rw [update_self]
        exact hlp.seg.2
      · intro x
        change x ∈ lp ↔ (x ∈ f.procList ∧ x ≠ c) ∧ update f.parent c q x = P
        by_cases hxc : x = c
        · rw [hxc]
          exact ⟨fun hm => absurd hm hcl, fun hm => absurd rfl hm.1.2⟩
        · rw [update_of_ne hxc]
          have hmem := hlp.mem x
          rw [List.mem_cons, or_iff_right hxc] at hmem
          rw [hmem, and_iff_left hxc]
    · obtain ⟨l, hl, hb⟩ := h.children P hP
      have hcl : c ∉ l := fun hm => hPp (((hl.mem c).mp hm).2.symm.trans hcp)
      refine ⟨l, ⟨?_, ?_, hl.order⟩, hb⟩
      · change Seg f.optr (update f.cptr p (f.optr c) P) l none
        rw [update_of_ne hPp]
        exact hl.seg
      · intro x
        change x ∈ l ↔ (x ∈ f.procList ∧ x ≠ c) ∧ update f.parent c q x = P
        by_cases hxc : x = c
        · rw [hxc]
          exact ⟨fun hm => absurd hm hcl, fun hm => absurd rfl hm.1.2⟩
        · rw [update_of_ne hxc, hl.mem, and_iff_left hxc]
  since x hx := h.since x hx.1

/-- A round of the loop of `do_exit`. -/
theorem Tree.adopt (h : f.Full idle (· = p)) (hp : p = idle ∨ p ∈ f.procList) (hq : q = idle ∨ q ∈ f.procList)
    (hpq : q ≠ p) (hc : f.cptr p = some c) : (f.adopt p q c).Full idle (· = p) := by
  obtain ⟨lp, hlp, -⟩ := h.children p hp
  obtain ⟨lp, rfl⟩ := hlp.head hc
  have hcl : c ∈ f.procList := ((hlp.mem c).mp List.mem_cons_self).1
  refine (h.detach hp hq hc).addChild ?_ (fun hm => hm.2 rfl) hq (update_self ..) hpq
  intro x
  by_cases hxc : x = c
  · rw [hxc]
    exact ⟨fun _ => Or.inl rfl, fun _ => hcl⟩
  · exact ⟨fun hx => Or.inr ⟨hx, hxc⟩, fun hx => (hx.resolve_left hxc).1⟩

/-- No list is torn: the loop begins. -/
theorem Tree.tear (h : f.Full idle fun _ => False) (p : Nat) : f.Full idle (· = p) where
  nodup := h.nodup
  root := h.root
  sub := h.sub
  parent := h.parent
  children P hP := by
    obtain ⟨l, hl, hb⟩ := h.children P hP
    exact ⟨l, hl, fun _ => hb fun hf => hf⟩
  since := h.since

/-- The list that was torn is empty: the loop ends. -/
theorem Tree.mend (h : f.Full idle (· = p)) (hc : f.cptr p = none) : f.Full idle fun _ => False where
  nodup := h.nodup
  root := h.root
  sub := h.sub
  parent := h.parent
  children P hP := by
    obtain ⟨l, hl, hb⟩ := h.children P hP
    refine ⟨l, hl, fun _ => ?_⟩
    by_cases hPp : P = p
    · subst hPp
      rw [hl.eq_nil hc]
      trivial
    · exact hb hPp
  since := h.since

/-- The children of a process are not more than all processes. -/
theorem Children.length_le (h : f.Children S P l) (hs : ∀ x, S x → x ∈ f.procList) : l.length ≤ f.procList.length :=
  (List.subperm_of_subset h.nodup fun x hx => hs x ((h.mem x).mp hx).1).length_le

/-! ## A new process -/

theorem Tree.fork (h : f.Full idle fun _ => False) (hn : p ∉ f.procList) (hid : p ≠ idle) (hq : q = idle ∨ q ∈ f.procList) :
    Tree (setLinks p { f with
      parent := update f.parent p q
      cptr := update f.cptr p none
      yptr := update f.yptr p none
      optr := update f.optr p none }) idle (· ∈ p :: f.procList) fun _ => False := by
  have hli : ∀ x ∈ f.procList, f.parent x ≠ p := by
    intro x hx hxp
    rcases h.parent x hx with hp | hp
    · exact hid (hxp.symm.trans hp)
    · exact hn (hxp ▸ hp)
  -- the tree of the old processes, with the links of the new one cleared
  have h1 : Tree { f with
      parent := update f.parent p q
      cptr := update f.cptr p none
      yptr := update f.yptr p none
      optr := update f.optr p none
      procList := p :: f.procList } idle (· ∈ f.procList) fun _ => False := by
    refine ⟨List.nodup_cons.mpr ⟨hn, h.nodup⟩, ?_, fun x hx => List.mem_cons_of_mem p hx, ?_, ?_, h.since⟩
    · intro hm
      rcases List.mem_cons.mp hm with rfl | hm
      · exact hid rfl
      · exact h.root hm
    · intro x hx
      change update f.parent p q x = idle ∨ update f.parent p q x ∈ p :: f.procList
      rcases List.mem_cons.mp hx with rfl | hx'
      · rw [update_self]
        exact hq.imp_right fun hm => List.mem_cons_of_mem x hm
      · rw [update_of_ne (ne_of_mem_of_not_mem hx' hn)]
        exact (h.parent x hx').imp_right fun hm => List.mem_cons_of_mem p hm
    · intro P hP
      have hmem : ∀ l : List Nat, (∀ x, x ∈ l ↔ x ∈ f.procList ∧ f.parent x = P) →
          ∀ x, x ∈ l ↔ x ∈ f.procList ∧ update f.parent p q x = P := by
        intro l hl x
        rw [hl]
        refine and_congr_right fun hx => ?_
        rw [update_of_ne (ne_of_mem_of_not_mem hx hn)]
      by_cases hPp : P = p
      · subst hPp
        refine ⟨[], ⟨update_self .., hmem [] fun x => ?_, List.Pairwise.nil⟩, fun _ => trivial⟩
        exact ⟨fun hx => absurd hx List.not_mem_nil, fun hx => absurd hx.2 (hli x hx.1)⟩
      · obtain ⟨l, hl, hb⟩ := h.children P (hP.imp_right fun hm => (List.mem_cons.mp hm).resolve_left hPp)
        have hne : ∀ x ∈ l, x ≠ p := fun x hx => ne_of_mem_of_not_mem ((hl.mem x).mp hx).1 hn
        refine ⟨l, ⟨?_, hmem l hl.mem, hl.order⟩, fun ht => ?_⟩
        · change Seg (update f.optr p none) (update f.cptr p none P) l none
          rw [update_of_ne hPp]
          exact hl.seg.congr fun x hx => update_of_ne (hne x hx) ..
        · exact (hb ht).congr fun x hx => update_of_ne (hne x hx) ..
  have h2 := h1.addChild (fun x => List.mem_cons) hn (hq.imp_right fun hm => List.mem_cons_of_mem p hm)
    (update_self ..) (fun hf => hf)
  have hp : update f.parent p q p = q := update_self ..
  unfold setLinks
  dsimp only
  rw [hp]
  exact h2.setNr _

/-! ## A process is taken out -/

/-- The links after `remove_links`, for a process that is not its own older sibling. -/
theorem removeLinks_links (ho : f.optr p ≠ some p) : (f.removeLinks p).optr = (match f.yptr p with
      | some y => update f.optr y (f.optr p)
      | none => f.optr) ∧
    (f.removeLinks p).yptr = (match f.optr p with
      | none => f.yptr
      | some o => update f.yptr o (f.yptr p)) ∧
    (f.removeLinks p).cptr = (match f.yptr p with
      | some _ => f.cptr
      | none => update f.cptr (f.parent p) (f.optr p)) ∧
    (f.removeLinks p).parent = f.parent ∧ (f.removeLinks p).since = f.since ∧ (f.removeLinks p).clock = f.clock ∧
    (f.removeLinks p).procList = f.procList.erase p ∧ (f.removeLinks p).nrProcess = f.nrProcess - 1 := by
  unfold removeLinks
  cases hopt : f.optr p with
  | none =>
    cases hy : f.yptr p with
    | none => simp [hopt, hy]
    | some y => simp [hopt, hy]
  | some o =>
    have hne : p ≠ o := fun hpo => ho (hopt.trans (congrArg some hpo.symm))
    cases hy : f.yptr p with
    | none => simp [hopt, hy, update_of_ne hne]
    | some y => simp [hopt, hy, update_of_ne hne]

/-- A process without children is taken out. -/
theorem Tree.remove (h : f.Full idle fun _ => False) (hp : p ∈ f.procList) (hn : f.cptr p = none) :
    (f.removeLinks p).Full idle fun _ => False := by
  obtain ⟨lq, hlq, hbq⟩ := h.children (f.parent p) (h.parent p hp)
  have hpl : p ∈ lq := (hlq.mem p).mpr ⟨hp, rfl⟩
  have hld : Linked f.optr f.yptr (f.cptr (f.parent p)) lq := ⟨hlq.seg, hbq fun hf => hf⟩
  have hs : f.optr p ≠ some p := hlq.seg.next_ne hlq.nodup hpl
  obtain ⟨hoptr, hyptr, hc, hpa, hsi, hclock, hli, -⟩ := removeLinks_links hs
  have he : ∀ x, x ∈ f.procList.erase p ↔ x ≠ p ∧ x ∈ f.procList := fun x => h.nodup.mem_erase_iff
  have hchild : ∀ x ∈ f.procList, f.parent x ≠ p := by
    intro x hx hxp
    obtain ⟨l, hl, -⟩ := h.children p (Or.inr hp)
    rw [hl.eq_nil hn] at hl
    exact List.not_mem_nil ((hl.mem x).mpr ⟨hx, hxp⟩)
  have hset : (· ∈ (f.removeLinks p).procList) = fun x => x ≠ p ∧ x ∈ f.procList := by
    funext x
    rw [hli]
    exact propext (he x)
  unfold Full
  rw [hset]
  constructor
  case nodup =>
    rw [hli]
    exact h.nodup.erase p
  case root =>
    rw [hli]
    exact fun hm => h.root (List.mem_of_mem_erase hm)
  case sub =>
    rw [hli]
    exact fun x hx => (he x).mpr hx
  case parent =>
    rw [hli, hpa]
    intro x hx
    have hxl := List.mem_of_mem_erase hx
    exact (h.parent x hxl).imp_right fun hm => (he _).mpr ⟨hchild x hxl, hm⟩
  case children =>
    rw [hli]
    intro P hP
    by_cases hPq : P = f.parent p
    · subst hPq
      have hr := hld.remove hlq.nodup hpl
      refine ⟨lq.erase p, ⟨?_, ?_, ?_⟩, fun _ => ?_⟩
      · rw [hoptr, hc]
        have hseg := hr.seg
        cases hy : f.yptr p with
        | none =>
          rw [hy] at hseg
          dsimp only
          rw [update_self]
          exact hseg
        | some y =>
          rwa [hy] at hseg
      · intro x
        rw [hlq.nodup.mem_erase_iff, hlq.mem, hpa, and_assoc]
      · rw [hsi]
        exact hlq.order.sublist List.erase_sublist
      · rw [hyptr]
        have hba := hr.back
        cases ho : f.optr p with
        | none =>
          rwa [ho] at hba
        | some o =>
          rwa [ho] at hba
    · obtain ⟨l, hl, hb⟩ := h.children P (hP.imp_right List.mem_of_mem_erase)
      -- the siblings of the process are in no other list
      have hout : ∀ x ∈ lq, x ∉ l := fun x hx hm => hPq (((hl.mem x).mp hm).2.symm.trans ((hlq.mem x).mp hx).2)
      refine ⟨l, ⟨?_, ?_, ?_⟩, fun _ => ?_⟩
      · rw [hoptr, hc]
        cases hy : f.yptr p with
        | none =>
          dsimp only
          rw [update_of_ne hPq]
          exact hl.seg
        | some y =>
          have hyl := hout y (hld.back.prev_mem hpl hy)
          exact hl.seg.congr fun x hx => update_of_ne (ne_of_mem_of_not_mem hx hyl) ..
      · intro x
        rw [hl.mem, hpa]
        refine ⟨fun hx => ⟨⟨?_, hx.1⟩, hx.2⟩, fun hx => ⟨hx.1.2, hx.2⟩⟩
        rintro rfl
        exact hPq hx.2.symm
      · rw [hsi]
        exact hl.order
      · rw [hyptr]
        cases ho : f.optr p with
        | none => exact hb fun hf => hf
        | some o =>
          have hol := hout o (hld.seg.next_mem hpl ho)
          exact (hb fun hf => hf).congr fun x hx => update_of_ne (ne_of_mem_of_not_mem hx hol) ..
  case since =>
    rw [hsi, hclock]
    exact fun x hx => h.since x hx.2

end

end Family

end Ucore
