import Ucore.Lemmas.MksfsBuild
import Ucore.Lib.Buckets

/-!
# Lookups of cache blocks

`alloc_cache_block` puts a new cache block into the hash list of the number it was asked for, which is 0 when it gives out a new
number. `search_cache_block` looks into the list of the block's own number. The lookups agree with the blocks allocated exactly when
every number given out is in the list of 0 by its own hash value (`cache_lookups`), and the first number given out need not be
(`cache_lookup_misses`).
-/

namespace Ucore

open Checked MksfsAux Mksfs Function

/-- Calls of `alloc_cache_block` on a new image, with numbers given out to others between them: the numbers of the cache blocks, and
the number that each was asked for with. -/
inductive CacheRun : List Nat → (Nat → Nat) → Mksfs → Prop
  | create {size entry image s} (asked : Nat → Nat) : createSfs size entry image = .ok s → CacheRun [] asked s
  | alloc {l asked s ino cb s'} : CacheRun l asked s → allocCacheBlock ino s = .ok (cb, s') → cb ∉ l →
      CacheRun (cb :: l) (update asked cb ino) s'
  | other {l asked s n s'} : CacheRun l asked s → sfsAllocIno s = .ok (n, s') → CacheRun l asked s'

namespace MksfsCacheAux

variable {s s' : Mksfs} {ino n cb : Nat} {l : List Nat} {asked : Nat → Nat}

theorem sfsAllocIno_ok (h : sfsAllocIno s = .ok (n, s')) : n = s.nextIno ∧ s'.nextIno = s.nextIno + 1 ∧ s'.blocks = s.blocks := by
  unfold sfsAllocIno at h
  split at h
  · cases h
    exact ⟨rfl, rfl, rfl⟩
  · nomatch h

theorem allocCacheBlock_ok (h : allocCacheBlock ino s = .ok (cb, s')) :
    (ino ≠ 0 → cb = ino) ∧ (ino = 0 → cb = s.nextIno) ∧ s.nextIno ≤ s'.nextIno ∧
      s'.blocks = update s.blocks (hash32 ino) (cb :: s.blocks (hash32 ino)) := by
  obtain ⟨⟨n, s1⟩, hnew, hr⟩ := bind_eq_ok.mp h
  cases hr
  unfold inoOrNew at hnew
  split at hnew
  · rename_i h0
    cases hnew
    exact ⟨fun _ => rfl, fun h => absurd h h0, le_rfl, rfl⟩
  · rename_i h0
    obtain ⟨hn, hne, hb⟩ := sfsAllocIno_ok hnew
    exact ⟨fun h => absurd h h0, fun _ => hn, by simp [hne], by simp [hb]⟩

/-- Every cache block is in the list of the number it was asked for with, and a number that was asked for is its own. -/
theorem cacheRun_spec (h : CacheRun l asked s) :
    Buckets.Holds (fun n => hash32 (asked n)) s.blocks l ∧ 0 < s.nextIno ∧ ∀ n ∈ l, n ≠ 0 ∧ (asked n ≠ 0 → asked n = n) := by
  induction h with
  | @create size entry image s asked hr =>
    rcases createSfs_spec size entry image with he | ⟨he, -⟩
    · nomatch hr.symm.trans he
    · cases hr.symm.trans he
      exact ⟨⟨by simp [newImage], by simp [newImage]⟩, Nat.two_pos.trans_le (firstBlock_pos _), by simp⟩
  | @alloc l asked s ino cb s' _ hr hnew ih =>
    obtain ⟨hh, hp, hown⟩ := ih
    obtain ⟨hg, hf, hle, hb⟩ := allocCacheBlock_ok hr
    have ho : ∀ n ∈ l, update asked cb ino n = asked n := fun n hn => update_of_ne (ne_of_mem_of_not_mem hn hnew) _ _
    refine ⟨?_, hp.trans_le hle, ?_⟩
    · have hold : Buckets.Holds (fun n => hash32 (update asked cb ino n)) s.blocks l :=
        hh.congr fun n hn => by rw [ho n hn]
      have hins := hold.insert hnew
      rw [update_self] at hins
      rwa [hb]
    · intro n hn
      rcases List.mem_cons.mp hn with rfl | hn
      · rw [update_self]
        by_cases h0 : ino = 0
        · exact ⟨by rw [hf h0]; exact hp.ne', fun h => absurd h0 h⟩
        · exact ⟨by rw [hg h0]; exact h0, fun _ => (hg h0).symm⟩
      · rw [ho n hn]
        exact hown n hn
  | other _ hr ih =>
    obtain ⟨-, hne, hb⟩ := sfsAllocIno_ok hr
    exact ⟨by rw [hb]; exact ih.1, by omega, ih.2.2⟩

end MksfsCacheAux

open MksfsCacheAux

/-- After any calls, the lookups find the cache blocks that were allocated and no others, and `update_cache` obtains each of them,
exactly when each number that was given out in a call hashes as 0 does. -/
theorem cache_lookups {l : List Nat} {asked : Nat → Nat} {s : Mksfs} (h : CacheRun l asked s) :
    ((∀ n, searchCacheBlock s n = if n ∈ l then some n else none) ∧ ∀ n ∈ l, ∀ cb, updateCache cb n s = .ok (n, s)) ↔
      ∀ n ∈ l, asked n = 0 → hash32 n = hash32 0 := by
  obtain ⟨hholds, -, hown⟩ := cacheRun_spec h
  constructor
  · rintro ⟨hsearch, -⟩ n hn h0
    have hfound := hsearch n
    rw [if_pos hn] at hfound
    have hhash := ((hholds.mem _ _).mp (List.mem_of_find?_eq_some hfound)).2
    rw [h0] at hhash
    exact hhash.symm
  · intro hzero
    -- A block is in the list of its own number, whichever number it was asked for with.
    have hnum : Buckets.Holds (fun n => hash32 (id n)) s.blocks l := by
      refine hholds.congr ?_
      intro n hn
      by_cases h0 : asked n = 0
      · rw [h0, id, hzero n hn h0]
      · rw [(hown n hn).2 h0, id]
    have hfind : ∀ n m, searchCacheBlock s n = some m ↔ m ∈ l ∧ m = n := fun n _ => hnum.find? (fun _ _ _ _ he => he) n
    have hsearch : ∀ n, searchCacheBlock s n = if n ∈ l then some n else none := by
      intro n
      split
      · rename_i hn
        exact (hfind n n).mpr ⟨hn, rfl⟩
      · rename_i hn
        refine Option.eq_none_iff_forall_ne_some.mpr ?_
        intro m hm
        obtain ⟨hml, rfl⟩ := (hfind n m).mp hm
        exact hn hml
    refine ⟨hsearch, ?_⟩
    intro n hn cb
    unfold updateCache
    rw [if_neg (hown n hn).1, hsearch, if_pos hn]
    exact ite_self _

/-- The smallest image, and the first cache block of it. -/
theorem MksfsCacheAux.cacheRun_first : ∃ s, CacheRun [3] (update (fun _ => 0) 3 0) s ∧ s.blocks = update (fun _ => []) (hash32 0) [3] := by
  have hc : createSfs (4 * 4096) (fun _ => 0) (fun _ _ => 0) = .ok (newImage 4 _ _) := rfl
  exact ⟨_, .alloc (.create (fun _ => 0) hc) rfl (by simp), rfl⟩

/-- The hypothesis holds of a run with one call. -/
theorem cache_lookups_first : ∃ s, CacheRun [3] (update (fun _ => 0) 3 0) s ∧
    (((∀ n, searchCacheBlock s n = if n ∈ [3] then some n else none) ∧ ∀ n ∈ [3], ∀ cb, updateCache cb n s = .ok (n, s)) ↔
      ∀ n ∈ [3], update (fun _ => 0) 3 0 n = 0 → hash32 n = hash32 0) := by
  obtain ⟨s, hr, -⟩ := cacheRun_first
  exact ⟨s, hr, cache_lookups hr⟩

/-- The first number given out is 3. The cache block with that number is not found, and the assertion of `update_cache` fails. -/
theorem cache_lookup_misses : ∃ s, CacheRun [3] (update (fun _ => 0) 3 0) s ∧
    searchCacheBlock s 3 = none ∧ updateCache none 3 s = .error .updateCache := by
  obtain ⟨s, hr, hblocks⟩ := cacheRun_first
  have hmiss : searchCacheBlock s 3 = none := by simp [searchCacheBlock, hblocks, hash32]
  refine ⟨s, hr, hmiss, ?_⟩
  simp [updateCache, hmiss]

end Ucore
