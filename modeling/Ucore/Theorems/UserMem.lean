import Ucore.Lemmas.Vmm
import Ucore.UserMem

/-!
# The kernel reaches only what the user may reach

`user_mem_check` accepts a range exactly if the VMAs grant every byte of it, whatever `mmap_cache` is (`userMemCheck_exact`), and
`copy_string` copies exactly the strings that end in time on pages that it accepts (`copyString_exact`).
-/

namespace Ucore

open Checked Spans Bytes

/-- `user_mem_check` returns 1. -/
def Mm.Passes (mm : Mm) (addr len : Nat) (write : Bool) : Prop := ∃ mm', userMemCheck addr len write mm = .ok (true, mm')

/-- The string at `src` ends with its byte `k`, and the pages up to there may be read. -/
structure StringAt (mem : Nat → UInt8) (mm : Mm) (src maxn k : Nat) : Prop where
  lt : k < maxn
  nul : mem (src + k) = 0
  least : ∀ j < k, mem (src + j) ≠ 0
  pages : ∀ j ≤ k, mm.Passes (roundDown (src + j) pgSize) pgSize false

theorem StringAt.unique {mem : Nat → UInt8} {mm : Mm} {src maxn k k' : Nat} (h : StringAt mem mm src maxn k)
    (h' : StringAt mem mm src maxn k') : k = k' := by
  rcases Nat.lt_trichotomy k k' with hlt | heq | hlt
  · exact absurd h.nul (h'.least k hlt)
  · exact heq
  · exact absurd h'.nul (h.least k' hlt)

/-- A range around the byte, inside of its page, has passed, and so would the whole page. -/
def Cleared (mm : Mm) (before : List UserEvent) (a : Nat) : Prop :=
  (∃ addr len, .passed addr len ∈ before ∧ addr ≤ a ∧ a < addr + len ∧ roundDown addr pgSize = roundDown a pgSize) ∧
    mm.Passes (roundDown a pgSize) pgSize false

/-- Every byte is read after its page has passed. -/
def Guarded (mm : Mm) (trace : List UserEvent) : Prop :=
  ∀ before a after, trace = before ++ .read a :: after → Cleared mm before a

namespace UserMemAux

open VmmAux

variable {mm : Mm} {mem : Nat → UInt8} {addr len src part maxn : Nat} {write : Bool}

/-! ## The checks -/

/-- `USER_ACCESS` of a sum that wraps around. -/
theorem userAccess_iff (hl : len < addrSize) :
    UserAccess addr ((addr + len) % addrSize) ↔ userBase ≤ addr ∧ 0 < len ∧ addr + len ≤ userTop := by
  unfold UserAccess
  unfold addrSize userBase userTop at *
  omega

theorem mod_of_access (h : addr + len ≤ userTop) : (addr + len) % addrSize = addr + len :=
  Nat.mod_eq_of_lt (h.trans_lt (by decide))

/-- What `user_mem_check` returns, for any cache. -/
theorem userMemCheck_of_cache (addr : Nat) (write : Bool) (h : Ordered mm.lo mm.hi mm.mmapList) (hl : len < addrSize)
    {c : Option Nat} (hc : ∀ v, c = some v → v ∈ mm.mmapList) : ∃ b, ∃ c' : Option Nat,
      (b = true ↔ userBase ≤ addr ∧ 0 < len ∧ addr + len ≤ userTop ∧ mm.Grants write addr (addr + len)) ∧
      (∀ v, c' = some v → v ∈ mm.mmapList) ∧
        userMemCheck addr len write { mm with mmapCache := c } = .ok (b, { mm with mmapCache := c' }) := by
  have hs : Mm.Searchable { mm with mmapCache := c } := ⟨h, hc⟩
  obtain ⟨b, c', hb, hc', hch⟩ := userMemCheck_spec hs addr len write
  refine ⟨b, c', hb.trans ?_, hc', hch⟩
  rw [userAccess_iff hl]
  constructor
  · rintro ⟨⟨h1, h2, h3⟩, hg⟩
    rw [mod_of_access h3] at hg
    exact ⟨h1, h2, h3, hg.flag, hg.stack⟩
  · rintro ⟨h1, h2, h3, hg⟩
    rw [mod_of_access h3]
    exact ⟨⟨h1, h2, h3⟩, hg.flag, hg.stack⟩

theorem passes_iff (h : mm.Searchable) (hl : len < addrSize) :
    mm.Passes addr len write ↔ userBase ≤ addr ∧ 0 < len ∧ addr + len ≤ userTop ∧ mm.Grants write addr (addr + len) := by
  obtain ⟨b, c, hb, -, hc⟩ := userMemCheck_of_cache addr write h.ordered hl h.cache
  rw [← hb]
  constructor
  · rintro ⟨mm', hp⟩
    cases hc.symm.trans hp
    rfl
  · rintro rfl
    exact ⟨_, hc⟩

/-- A VMA of whole pages that holds one byte of a page holds the others. -/
theorem has_of_page {v a a' : Nat} (hal : mm.lo v % pgSize = 0 ∧ mm.hi v % pgSize = 0) (ha : mm.Has a v)
    (hp : a / pgSize = a' / pgSize) : mm.Has a' v := by
  unfold Mm.Has at *
  unfold Mm.lo Mm.hi at hal
  unfold pgSize at hal hp
  omega

/-- A part of a page is accepted just when the page is. -/
theorem passes_part (h : mm.Searchable) (hal : ∀ v ∈ mm.mmapList, mm.lo v % pgSize = 0 ∧ mm.hi v % pgSize = 0) (h0 : 0 < part)
    (hin : src % pgSize + part ≤ pgSize) : mm.Passes src part false ↔ mm.Passes (roundDown src pgSize) pgSize false := by
  have hlt : pgSize < addrSize := by decide
  rw [passes_iff h (by omega), passes_iff h hlt]
  have hb : userBase ≤ src ↔ userBase ≤ roundDown src pgSize := by
    unfold userBase roundDown pgSize
    omega
  have ht : src + part ≤ userTop ↔ roundDown src pgSize + pgSize ≤ userTop := by
    unfold userTop roundDown
    unfold pgSize at hin ⊢
    omega
  have hp : ∀ a, (src ≤ a ∧ a < src + part) ∨ (roundDown src pgSize ≤ a ∧ a < roundDown src pgSize + pgSize) →
      src / pgSize = a / pgSize := by
    unfold roundDown
    unfold pgSize at hin ⊢
    omega
  have hgrants : mm.Grants false src (src + part) ↔ mm.Grants false (roundDown src pgSize) (roundDown src pgSize + pgSize) := by
    constructor
    · intro hg
      refine ⟨?_, nofun⟩
      intro a hle hlt
      obtain ⟨v, hv, hh, hfl⟩ := hg.flag src le_rfl (by omega)
      exact ⟨v, hv, has_of_page (hal v hv) hh (hp a (Or.inr ⟨hle, hlt⟩)), hfl⟩
    · intro hg
      refine ⟨?_, nofun⟩
      intro a hle hlt
      obtain ⟨v, hv, hh, hfl⟩ := hg.flag (roundDown src pgSize) le_rfl (Nat.lt_add_of_pos_right (by decide))
      have hf := hp (roundDown src pgSize) (Or.inr ⟨le_rfl, Nat.lt_add_of_pos_right (by decide)⟩)
      exact ⟨v, hv, has_of_page (hal v hv) hh (hf.symm.trans (hp a (Or.inl ⟨hle, hlt⟩))), hfl⟩
  rw [hb, ht, hgrants, and_iff_right h0, and_iff_right (show 0 < pgSize by decide)]

/-! ## Strings -/

theorem strnlen_spec (len : Nat) : ∀ s : Nat → UInt8, strnlen s len ≤ len ∧ (∀ j < strnlen s len, s j ≠ 0) ∧
    (strnlen s len < len → s (strnlen s len) = 0) := by
  induction len with
  | zero => exact fun s => ⟨le_rfl, nofun, nofun⟩
  | succ len ih =>
    intro s
    rw [strnlen]
    split
    · rename_i h0
      exact ⟨Nat.zero_le _, nofun, fun _ => h0⟩
    · rename_i h0
      obtain ⟨hle, hne, hn⟩ := ih fun k => s (k + 1)
      refine ⟨Nat.succ_le_succ hle, ?_, fun hlt => hn (Nat.lt_of_succ_lt_succ hlt)⟩
      intro j hj
      cases j with
      | zero => exact h0
      | succ j => exact hne j (Nat.lt_of_succ_lt_succ hj)

theorem guarded_append {t u : List UserEvent} (ht : Guarded mm t) (hu : ∀ a, .read a ∈ u → Cleared mm t a) : Guarded mm (t ++ u) := by
  intro before a after heq
  rcases List.append_eq_append_iff.mp heq with ⟨w, rfl, hw⟩ | ⟨w, rfl, hw⟩
  · obtain ⟨⟨addr, len, hm, hr⟩, hp⟩ := hu a (by rw [hw]; simp)
    exact ⟨⟨addr, len, List.mem_append_left _ hm, hr⟩, hp⟩
  · cases w with
    | nil =>
      rw [List.append_nil] at hu
      rw [List.nil_append] at hw
      exact hu a (by rw [← hw]; exact List.mem_cons_self)
    | cons x w =>
      cases hw
      exact ht before a w rfl

/-- Bytes of a part that has passed are read. -/
theorem guarded_reads {t : List UserEvent} {n : Nat} (ht : Guarded mm t) (hm : .passed src part ∈ t) (hn : n ≤ part)
    (hin : src % pgSize + part ≤ pgSize) (hp : mm.Passes (roundDown src pgSize) pgSize false) :
    Guarded mm (t ++ reads src n) := by
  refine guarded_append ht ?_
  intro a ha
  obtain ⟨k, hk, heq⟩ := List.mem_map.mp ha
  cases heq
  have hk := List.mem_range.mp hk
  have hs : roundDown src pgSize = roundDown (src + k) pgSize := by
    unfold roundDown
    unfold pgSize at hin ⊢
    omega
  exact ⟨⟨src, part, hm, by omega, by omega, hs⟩, hs ▸ hp⟩

/-- The string goes on behind a part without NUL. -/
theorem stringAt_behind (hle : part ≤ maxn) (hne : ∀ j < part, mem (src + j) ≠ 0)
    (hpa : ∀ j < part, mm.Passes (roundDown (src + j) pgSize) pgSize false) {k : Nat} :
    StringAt mem mm (src + part) (maxn - part) k ↔ StringAt mem mm src maxn (part + k) := by
  constructor
  · intro h
    have hlt := h.lt
    refine ⟨by omega, by rw [← Nat.add_assoc]; exact h.nul, ?_, ?_⟩
    · intro j hj
      by_cases hp : j < part
      · exact hne j hp
      · obtain ⟨i, rfl⟩ := Nat.exists_eq_add_of_le (not_lt.mp hp)
        rw [← Nat.add_assoc]
        exact h.least i (by omega)
    · intro j hj
      by_cases hp : j < part
      · exact hpa j hp
      · obtain ⟨i, rfl⟩ := Nat.exists_eq_add_of_le (not_lt.mp hp)
        rw [← Nat.add_assoc]
        exact h.pages i (by omega)
  · intro h
    have hlt := h.lt
    refine ⟨by omega, by rw [Nat.add_assoc]; exact h.nul, ?_, ?_⟩
    · intro j hj
      rw [Nat.add_assoc]
      exact h.least (part + j) (by omega)
    · intro j hj
      rw [Nat.add_assoc]
      exact h.pages (part + j) (by omega)

/-- How the loop of `copy_string` ends. -/
structure Copied (mem : Nat → UInt8) (mm : Mm) (src maxn : Nat) (c : StringCopy) (b : Bool) (c' : StringCopy) : Prop where
  found : b = true → ∃ k, StringAt mem mm src maxn k ∧ c'.dst = patch c.dst c.moved (k + 1) fun j => mem (src + j)
  missed : b = false → (∀ k, ¬StringAt mem mm src maxn k) ∧ ∃ n ≤ maxn, c'.dst = patch c.dst c.moved n fun j => mem (src + j)
  guarded : Guarded mm c'.trace

/-- The loop of `copy_string`, by induction on the rounds: each part ends with its page, with the string or with `maxn`. -/
theorem copyStringLoop_spec (h : mm.Searchable) (hal : ∀ v ∈ mm.mmapList, mm.lo v % pgSize = 0 ∧ mm.hi v % pgSize = 0) (rounds : Nat) :
    ∀ (src maxn : Nat) (c : StringCopy), 0 < maxn → maxn < rounds →
      (∃ k : Option Nat, (∀ v, k = some v → v ∈ mm.mmapList) ∧ c.mm = { mm with mmapCache := k }) → Guarded mm c.trace →
      ∃ b c', copyStringLoop mem rounds (pgSize - src % pgSize) src maxn c = .ok (b, c') ∧ Copied mem mm src maxn c b c' := by
  induction rounds with
  | zero =>
    intro src maxn c _ hr
    omega
  | succ rounds ih =>
    rintro src maxn c h0 hr ⟨cache, hca, hmm⟩ hg
    have ho : src % pgSize < pgSize := Nat.mod_lt _ (by decide)
    rw [copyStringLoop]
    obtain ⟨part, hpt⟩ : ∃ p, p = if maxn < pgSize - src % pgSize then maxn else pgSize - src % pgSize := ⟨_, rfl⟩
    rw [← hpt]
    have hpos : 0 < part ∧ part ≤ maxn ∧ src % pgSize + part ≤ pgSize := by
      split at hpt <;> omega
    obtain ⟨hpos, hle, hin⟩ := hpos
    have hl : part < addrSize := Nat.lt_of_le_of_lt (by omega) (show pgSize < addrSize by decide)
    obtain ⟨b, cache', hb, hcache', hc⟩ := userMemCheck_of_cache src false h.ordered hl hca
    rw [← passes_iff h hl, passes_part h hal hpos hin] at hb
    rw [hmm, hc, bind_ok]
    cases b with
    | false =>
      refine ⟨false, _, rfl, nofun, fun _ => ⟨?_, 0, Nat.zero_le _, patch_zero.symm⟩, hg⟩
      intro k hk
      exact Bool.false_ne_true (hb.mpr (hk.pages 0 (Nat.zero_le _)))
    | true =>
      have hpa := hb.mp rfl
      have hp : ∀ j < part, mm.Passes (roundDown (src + j) pgSize) pgSize false := by
        intro j hj
        have hsa : roundDown (src + j) pgSize = roundDown src pgSize := by
          unfold roundDown
          unfold pgSize at hin ⊢
          omega
        rw [hsa]
        exact hpa
      obtain ⟨hsc, hne, hnul⟩ := strnlen_spec part fun k => mem (src + k)
      generalize strnlen (fun k => mem (src + k)) part = alen at *
      have hre : Guarded mm (c.trace ++ .passed src part :: reads src (min (alen + 1) part)) := by
        rw [List.append_cons]
        exact guarded_reads (guarded_append hg (by simp)) (by simp) (Nat.min_le_right _ _) hin hpa
      have hco : ∀ n ≤ part, Guarded mm (c.trace ++ .passed src part :: reads src (min (alen + 1) part) ++ reads src n) :=
        fun n hn => guarded_reads hre (by simp) hn hin hpa
      by_cases hs : alen < part
      · rw [if_pos hs]
        refine ⟨true, _, rfl, fun _ => ⟨alen, ⟨by omega, hnul hs, hne, fun j hj => hp j (by omega)⟩, rfl⟩, nofun, ?_⟩
        exact hco _ hs
      rw [if_neg hs]
      obtain rfl : alen = part := by omega
      by_cases hm : alen = maxn
      · rw [if_pos hm]
        refine ⟨false, _, rfl, nofun, fun _ => ⟨?_, 0, Nat.zero_le _, patch_zero.symm⟩, hre⟩
        intro k hk
        exact hne k (by rw [hm]; exact hk.lt) hk.nul
      rw [if_neg hm]
      -- the next part begins with a page, below `USERTOP`
      have ht := ((passes_iff h (show pgSize < addrSize by decide)).mp hpa).2.2.1
      have hnt : (src + alen) % addrSize = src + alen ∧ (src + alen) % pgSize = 0 := by
        split at hpt
        · omega
        · unfold userTop roundDown at ht
          unfold addrSize
          unfold pgSize at *
          omega
      rw [hnt.1]
      have hnew : pgSize = pgSize - (src + alen) % pgSize := by rw [hnt.2, Nat.sub_zero]
      rw [hnew]
      obtain ⟨b, c', hrun, he⟩ := ih (src + alen) (maxn - alen)
        ((c.scan src alen alen { mm with mmapCache := cache' }).memcpy mem src alen) (by omega) (by omega)
        ⟨cache', hcache', rfl⟩ (hco alen le_rfl)
      have hd : ∀ n, patch (patch c.dst c.moved alen fun k => mem (src + k)) (c.moved + alen) n (fun j => mem (src + alen + j)) =
          patch c.dst c.moved (alen + n) fun j => mem (src + j) := by
        intro n
        simp only [Nat.add_assoc src]
        exact patch_patch
      refine ⟨b, c', hrun, ?_, ?_, he.guarded⟩
      · intro hb
        obtain ⟨k, hk, hc'⟩ := he.found hb
        exact ⟨alen + k, (stringAt_behind hle hne hp).mp hk, hc'.trans (hd (k + 1))⟩
      · intro hb
        obtain ⟨hno, n, hn, hc'⟩ := he.missed hb
        refine ⟨?_, alen + n, by omega, hc'.trans (hd n)⟩
        intro k hk
        by_cases hbe : k < alen
        · exact hne k hbe hk.nul
        · obtain ⟨i, rfl⟩ := Nat.exists_eq_add_of_le (not_lt.mp hbe)
          exact hno i ((stringAt_behind hle hne hp).mpr hk)

/-- The first part ends with the page of `src`. -/
theorem firstPart_eq (hsrc : src < addrSize) :
    (roundDown ((src + pgSize) % addrSize) pgSize + addrSize - src) % addrSize = pgSize - src % pgSize := by
  unfold roundDown addrSize pgSize at *
  omega

end UserMemAux

open UserMemAux

/-- For every list of VMAs that are ordered spans, `user_mem_check` of a range returns, and whatever VMA of the list `mmap_cache` is,
it returns 1 if and only if the range is not empty, lies between `USERBASE` and `USERTOP` without wrapping around, and the VMAs
grant its bytes. Nothing but the cache changes. -/
theorem userMemCheck_exact {mm : Mm} (h : Ordered mm.lo mm.hi mm.mmapList) (addr : Nat) {len : Nat} (hlen : len < addrSize)
    (write : Bool) : ∃ b : Bool, (b = true ↔
        userBase ≤ addr ∧ 0 < len ∧ addr + len ≤ userTop ∧ mm.Grants write addr (addr + len)) ∧
      ∀ c : Option Nat, (∀ v, c = some v → v ∈ mm.mmapList) →
        ∃ c', userMemCheck addr len write { mm with mmapCache := c } = .ok (b, { mm with mmapCache := c' }) := by
  have hnone : ∀ v, (none : Option Nat) = some v → v ∈ mm.mmapList := nofun
  obtain ⟨b, -, hb, -, -⟩ := userMemCheck_of_cache addr write h hlen hnone
  refine ⟨b, hb, ?_⟩
  intro c hc
  obtain ⟨b', c', hb', -, hcheck⟩ := userMemCheck_of_cache addr write h hlen hc
  have hsame : b' = b := Bool.eq_iff_iff.mpr (hb'.trans hb.symm)
  exact ⟨c', hsame ▸ hcheck⟩

/-- An address space with a page of code and a stack of two pages right behind it. -/
def twoVmas : Mm where
  id := 0
  vmas := fun v => if v = 1 then ⟨0, 0x200000, 0x201000, vmRead⟩ else ⟨0, 0x201000, 0x203000, vmRead ||| vmWrite ||| vmStack⟩
  mmapList := [1, 2]
  mmapCache := none
  mapCount := 2
  pgdir := 0
  brkStart := 0
  brk := 0

theorem twoVmas_ordered : Ordered twoVmas.lo twoVmas.hi twoVmas.mmapList := ⟨by decide, by decide⟩

/-- The check of four bytes on both sides of the border passes, so that the two VMAs grant them. -/
theorem userMemCheck_exact_across : twoVmas.Grants false 0x200ffe (0x200ffe + 4) := by
  obtain ⟨b, hb, hall⟩ := userMemCheck_exact twoVmas_ordered 0x200ffe (show 4 < addrSize by decide) false
  obtain ⟨c, hcheck⟩ := hall (some 2) (by decide)
  have hr : okWith (fun r => r.1) (userMemCheck 0x200ffe 4 false { twoVmas with mmapCache := some 2 }) = true := by decide +kernel
  rw [hcheck] at hr
  exact (hb.mp hr).2.2.2

/-- For every address space with VMAs of whole pages, `copy_string` returns 1 if and only if the string at `src` ends in its first
`maxn` bytes, on pages that `user_mem_check` lets be read. It has then copied the string with its NUL and nothing else; if it
returns 0, it has copied `maxn` bytes at most. No byte is read before its page has passed. -/
theorem copyString_exact {mm : Mm} (h : mm.Searchable) (hal : ∀ v ∈ mm.mmapList, mm.lo v % pgSize = 0 ∧ mm.hi v % pgSize = 0)
    {src maxn : Nat} (hsrc : src < addrSize) (hmaxn : 0 < maxn) (mem dst : Nat → UInt8) :
    ∃ b c, copyString mem dst src maxn mm = .ok (b, c) ∧ (b = true ↔ ∃ k, StringAt mem mm src maxn k) ∧
      (∀ k, StringAt mem mm src maxn k → c.dst = patch dst 0 (k + 1) fun j => mem (src + j)) ∧
      (b = false → ∃ n ≤ maxn, c.dst = patch dst 0 n fun j => mem (src + j)) ∧ Guarded mm c.trace := by
  unfold copyString
  rw [firstPart_eq hsrc]
  obtain ⟨b, c, hr, hend⟩ := copyStringLoop_spec h hal (maxn + 1) src maxn ⟨mm, dst, 0, []⟩ hmaxn (Nat.lt_succ_self _)
    ⟨mm.mmapCache, h.cache, rfl⟩ (by simp [Guarded])
  refine ⟨b, c, hr, ?_, ?_, fun hb => (hend.missed hb).2, hend.guarded⟩
  · cases b with
    | true =>
      obtain ⟨k, hk, -⟩ := hend.found rfl
      exact iff_of_true rfl ⟨k, hk⟩
    | false =>
      refine iff_of_false Bool.false_ne_true ?_
      rintro ⟨k, hk⟩
      exact (hend.missed rfl).1 k hk
  · intro k hk
    cases b with
    | true =>
      obtain ⟨k', hk', hdst⟩ := hend.found rfl
      rwa [hk.unique hk']
    | false => exact absurd hk ((hend.missed rfl).1 k)

/-- A string whose NUL is the first byte of the second VMA. -/
theorem copyString_exact_across : ∃ k, StringAt (fun a => if a = 0x201000 then 0 else 104) twoVmas 0x200ffe 5 k := by
  obtain ⟨b, c, hcopy, hb, -⟩ := copyString_exact ⟨twoVmas_ordered, nofun⟩ (by decide) (show 0x200ffe < addrSize by decide)
    (show 0 < 5 by decide) (fun a => if a = 0x201000 then 0 else 104) (fun _ => 0)
  have hr : okWith (fun r => r.1)
      (copyString (fun a => if a = 0x201000 then 0 else 104) (fun _ => 0) 0x200ffe 5 twoVmas) = true := by decide +kernel
  rw [hcopy] at hr
  exact hb.mp hr

end Ucore
