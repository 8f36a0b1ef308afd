import Ucore.Lemmas.MksfsClose

/-!
# The walk over the host

`open_dir` walks over a directory of the host. It stops with a message where the image has no room or the host has something that
does not fit, and never at an assertion (`readDir_spec`). What it adds can be reached from the directory (`Walked`). Hard links of a
file share an inode, which is looked up by the inode number of the host; directories of the host have numbers of their own.
-/

namespace Ucore

open Checked MksfsAux Function

namespace HostDir

/-- The inode numbers of the directories of a tree. -/
def dirs : HostDir → List Nat
  | .nil => []
  | .file _ _ _ rest => rest.dirs
  | .link _ _ _ rest => rest.dirs
  | .dir _ real entries rest => real :: (entries.dirs ++ rest.dirs)
  | .other _ rest => rest.dirs

/-- The inode numbers of the files and links of a tree. -/
def leaves : HostDir → List Nat
  | .nil => []
  | .file _ real _ rest => real :: rest.leaves
  | .link _ real _ rest => real :: rest.leaves
  | .dir _ _ entries rest => entries.leaves ++ rest.leaves
  | .other _ rest => rest.leaves

/-- The inode numbers of the links of a tree. -/
def links : HostDir → List Nat
  | .nil => []
  | .file _ _ _ rest => rest.links
  | .link _ real _ rest => real :: rest.links
  | .dir _ _ entries rest => entries.links ++ rest.links
  | .other _ rest => rest.links

/-- An entry that `open_dir` does not skip. -/
def shown (name : List UInt8) (real : Nat) : List (List UInt8 × Nat) := if name.head? = some 46 then [] else [(name, real)]

/-- The names that `open_dir` adds for the entries of a directory, with the inode numbers of the host. -/
def listing : HostDir → List (List UInt8 × Nat)
  | .nil => []
  | .file name real _ rest => shown name real ++ rest.listing
  | .link name real _ rest => shown name real ++ rest.listing
  | .dir name real _ rest => shown name real ++ rest.listing
  | .other _ rest => rest.listing

/-- A directory is in one place of the tree, and its number is not that of a file or a link, nor one of `seen`. -/
structure Apart (h : HostDir) (seen : Set Nat) : Prop where
  nodup : h.dirs.Nodup
  leaves : ∀ x ∈ h.dirs, x ∉ h.leaves
  seen : ∀ x ∈ h.dirs, x ∉ seen

end HostDir

/-- The messages with which `mksfs` refuses a tree. -/
def MksfsError.Refusal (e : MksfsError) : Prop :=
  e = .imgTooSmall ∨ e = .outOfSpace ∨ e = .fileTooBig ∨ e = .nameTooLong ∨ e = .readLink

namespace Record

/-- An entry of `d` names `c`. -/
def Names (r : Record) (d c : Nat) : Prop := ∃ name, (c, name) ∈ r.entries d

/-- `c` can be reached from `a`. -/
def Reach (r : Record) (a c : Nat) : Prop := Relation.ReflTransGen r.Names a c

end Record

/-- What a part of the walk adds: inodes with host numbers in `R`, which can be reached from `a`. -/
structure Walked (s s' : Mksfs) (r r' : Record) (R : Set Nat) (a : Nat) : Prop where
  built : Built s' r'
  inos : r.inos ⊆ r'.inos
  entries : ∀ d, r.entries d ⊆ r'.entries d
  real : ∀ c ∈ r.inos, (s'.ci c).real = (s.ci c).real
  type : ∀ c ∈ r.inos, (s'.ci c).inode.type = (s.ci c).inode.type
  added : ∀ c ∈ r'.inos, c ∈ r.inos ∨ (s'.ci c).real ∈ R
  reach : ∀ c ∈ r'.inos, c ∈ r.inos ∨ r'.Reach a c

section Walk

variable {s s' s'' : Mksfs} {r r' r'' : Record} {R R' : Set Nat} {a c d : Nat}

theorem Record.Reach.mono (hs : ∀ d, r.entries d ⊆ r'.entries d) (hr : r.Reach a c) : r'.Reach a c := by
  induction hr with
  | refl => exact .refl
  | tail _ hn ih =>
    obtain ⟨name, hm⟩ := hn
    exact ih.tail ⟨name, hs _ hm⟩

theorem Walked.refl (hb : Built s r) : Walked s s r r R a :=
  ⟨hb, Finset.Subset.refl _, fun _ => List.Subset.refl _, fun _ _ => rfl, fun _ _ => rfl, fun _ hc => Or.inl hc, fun _ hc => Or.inl hc⟩

/-- Two parts of the walk one after the other. -/
theorem Walked.trans (h1 : Walked s s' r r' R a) (h2 : Walked s' s'' r' r'' R' a) : Walked s s'' r r'' (R ∪ R') a where
  built := h2.built
  inos := Finset.Subset.trans h1.inos h2.inos
  entries d := List.Subset.trans (h1.entries d) (h2.entries d)
  real c hc := (h2.real c (h1.inos hc)).trans (h1.real c hc)
  type c hc := (h2.type c (h1.inos hc)).trans (h1.type c hc)
  added c hc := by
    rcases h2.added c hc with hm | hR
    · rcases h1.added c hm with hm' | hR
      · exact Or.inl hm'
      · rw [← h2.real c hm] at hR
        exact Or.inr (Or.inl hR)
    · exact Or.inr (Or.inr hR)
  reach c hc := by
    rcases h2.reach c hc with hm | hr
    · rcases h1.reach c hm with hm' | hr
      · exact Or.inl hm'
      · exact Or.inr (hr.mono h2.entries)
    · exact Or.inr hr

theorem Walked.mono (h : Walked s s' r r' R a) (hR : R ⊆ R') : Walked s s' r r' R' a :=
  ⟨h.built, h.inos, h.entries, h.real, h.type, fun c hc => (h.added c hc).imp_right (fun hm => hR hm), h.reach⟩

/-- What can be reached from `a` can be reached from where `a` can be reached. -/
theorem Walked.from (h : Walked s s' r r' R a) (hd : r'.Reach d a) : Walked s s' r r' R d :=
  ⟨h.built, h.inos, h.entries, h.real, h.type, h.added, fun c hc => (h.reach c hc).imp_right fun hr => hd.trans hr⟩

end Walk

/-- What a part of the walk adds to the directory `d`: entries for the names and host numbers of `l`, in their order. The other
directories stay as they are. -/
structure Listed (s' : Mksfs) (r r' : Record) (d : Nat) (l : List (List UInt8 × Nat)) : Prop where
  others : ∀ c ∈ r.inos, c ≠ d → r'.entries c = r.entries c
  own : ∃ new, r'.entries d = r.entries d ++ new ∧
    List.Forall₂ (fun e x => e.1 ∈ r'.inos ∧ e.2 = x.1 ∧ (s'.ci e.1).real = x.2) new l

/-- The inodes have host numbers of their own, apart from the numbers `L` of links. -/
structure Numbered (s : Mksfs) (r : Record) (L : Set Nat) : Prop where
  unique : ∀ c ∈ r.inos, ∀ c' ∈ r.inos, (s.ci c).real ∉ L → (s.ci c').real = (s.ci c).real → c' = c
  kinds : ∀ c ∈ r.inos, (s.ci c).inode.type = .file ∨ (s.ci c).inode.type = .dir ∨ (s.ci c).real ∈ L

section Listing

variable {s s' s'' : Mksfs} {r r' r'' : Record} {R : Set Nat} {L : Set Nat} {a d : Nat} {l l' : List (List UInt8 × Nat)}

theorem Listed.of_entries (he : r'.entries = r.entries) : Listed s' r r' d [] :=
  ⟨fun c _ _ => congrFun he c, [], by rw [he, List.append_nil], .nil⟩

theorem Listed.trans (h1 : Listed s' r r' d l) (hw : Walked s' s'' r' r'' R a) (hs : r.inos ⊆ r'.inos)
    (h2 : Listed s'' r' r'' d l') : Listed s'' r r'' d (l ++ l') where
  others c hc hne := (h2.others c (hs hc) hne).trans (h1.others c hc hne)
  own := by
    obtain ⟨new, hnew, hl⟩ := h1.own
    obtain ⟨new', hnew', hl'⟩ := h2.own
    refine ⟨new ++ new', by rw [hnew', hnew, List.append_assoc], ?_⟩
    refine List.rel_append (hl.imp ?_) hl'
    intro e x he
    exact ⟨hw.inos he.1, he.2.1, (hw.real e.1 he.1).trans he.2.2⟩

/-- A part of the walk that adds no inode. -/
theorem Walked.numbered (hw : Walked s s' r r' ∅ a) (h : Numbered s r L) : Numbered s' r' L := by
  have hold : ∀ c ∈ r'.inos, c ∈ r.inos := fun c hc => (hw.added c hc).resolve_right (Set.notMem_empty _)
  constructor
  · intro c hc c' hc' hL he
    rw [hw.real c (hold c hc)] at hL he
    rw [hw.real c' (hold c' hc')] at he
    exact h.unique c (hold c hc) c' (hold c' hc') hL he
  · intro c hc
    rw [hw.type c (hold c hc), hw.real c (hold c hc)]
    exact h.kinds c (hold c hc)

/-- A part of the walk over a directory: what it adds to the image, and to the directory. -/
structure Pass (s s' : Mksfs) (r r' : Record) (R : Set Nat) (d : Nat) (l : List (List UInt8 × Nat)) (L : Set Nat) : Prop
    extends Walked s s' r r' R d where
  listed : Listed s' r r' d l
  numbered : Numbered s r L → Numbered s' r' L

theorem Pass.refl (hb : Built s r) : Pass s s r r R d [] L := ⟨.refl hb, .of_entries rfl, fun h => h⟩

theorem Pass.trans {R' : Set Nat} (h1 : Pass s s' r r' R d l L) (h2 : Pass s' s'' r' r'' R' d l' L) :
    Pass s s'' r r'' (R ∪ R') d (l ++ l') L :=
  ⟨h1.toWalked.trans h2.toWalked, h1.listed.trans h2.toWalked h1.inos h2.listed, fun h => h2.numbered (h1.numbered h)⟩

theorem Pass.mono {R' : Set Nat} (h : Pass s s' r r' R d l L) (hR : R ⊆ R') : Pass s s' r r' R' d l L :=
  ⟨h.toWalked.mono hR, h.listed, h.numbered⟩

end Listing

namespace MksfsWalkAux

open Mksfs

variable {s s' s'' : Mksfs} {r r' r'' : Record} {R R' seen L : Set Nat} {a b c d file real current parent n last : Nat}
  {name data target : List UInt8} {h rest entries : HostDir} {l : List (List UInt8 × Nat)} {type : SfsType}
  {add : Mksfs → Except MksfsError Mksfs} {entry : Nat → UInt8} {image : Nat → Nat → UInt8}

/-! ## Entries -/

/-- `add_entry`, on a file that was added before. -/
theorem addEntry_walked (hw : Walked s s' r r' R file) (hd : d ∈ r.inos) (ht : (s.ci d).inode.type = .dir) (hf : file ∈ r'.inos)
    (hn : name.length ≤ sfsMaxFnameLen) :
    Within MksfsError.Refusal (addEntry d file name s') fun s'' => ∃ r'', Walked s s'' r r'' R d ∧ Walked s' s'' r' r'' ∅ file ∧
      ∀ c, r''.entries c = if c = d then r'.entries d ++ [(file, name)] else r'.entries c := by
  obtain ⟨htr, hl⟩ := built_spec hw.built
  have hd' := hw.inos hd
  have ht' := (hw.type d hd).trans ht
  rcases addEntry_spec htr hl hd' ht' hf hn with ⟨-, he⟩ | ⟨-, he⟩ | ⟨s'', he, -, -, hen⟩
  · exact Within.of_eq_error he (by simp [MksfsError.Refusal])
  · exact Within.of_eq_error he (by simp [MksfsError.Refusal])
  · have hs : Walked s' s'' r' (r'.addEntry d s'.nextIno file name) ∅ file := by
      refine ⟨.entry hw.built hd' hf he, Finset.Subset.refl _, ?_, fun c _ => hen.real c, fun c _ => hen.type c,
        fun c hc => Or.inl hc, fun c hc => Or.inl hc⟩
      intro e
      rw [entries_addEntry]
      split
      · rename_i hed
        rw [hed]
        exact List.subset_append_left _ _
      · exact List.Subset.refl _
    have hna : (r'.addEntry d s'.nextIno file name).Names d file := by
      refine ⟨name, ?_⟩
      rw [entries_addEntry, if_pos rfl]
      exact List.mem_append_right _ (List.mem_singleton_self _)
    exact Within.of_eq_ok he ⟨r'.addEntry d s'.nextIno file name, ((hw.trans hs).mono (by simp)).from (.single hna), hs,
      fun c => entries_addEntry ..⟩

/-- The directory gets one entry. -/
theorem listed_entry (hw : Walked s' s'' r' r'' ∅ file) (hf : file ∈ r'.inos) (hr : (s'.ci file).real = real)
    (he : ∀ c, r''.entries c = if c = d then r'.entries d ++ [(file, name)] else r'.entries c) : Listed s'' r' r'' d [(name, real)] where
  others c _ hne := by rw [he, if_neg hne]
  own := ⟨[(file, name)], by rw [he, if_pos rfl], .cons ⟨hw.inos hf, rfl, (hw.real file hf).trans hr⟩ .nil⟩

/-! ## Blocks of files and links -/

section

variable (hb : Built s r) (hc : c ∈ r.inos) (ht : (s.ci c).inode.type ≠ .dir)
include hb hc ht

/-- A block that is packed into a file or a link. -/
theorem packBlock_walked {data : Nat → UInt8} {len : Nat} (hl : len ≤ sfsBlksize) :
    Within MksfsError.Refusal (packBlock c data len s) fun p => ∃ r', Walked s p.2 r r' ∅ c ∧ r'.entries = r.entries := by
  rcases packBlock_spec data (built_spec hb).1 hc hl with ⟨-, he⟩ | ⟨-, he⟩ | ⟨u, he, -, hp⟩
  · exact Within.of_eq_error he (by simp [MksfsError.Refusal])
  · exact Within.of_eq_error he (by simp [MksfsError.Refusal])
  · exact Within.of_eq_ok he ⟨r.append c s.nextIno, ⟨.block hb hc ht hl he, Finset.Subset.refl _, fun _ => List.Subset.refl _,
      fun d _ => hp.sameMeta.real d, fun d _ => hp.sameMeta.type d, fun d hd => Or.inl hd, fun d hd => Or.inl hd⟩, rfl⟩

/-- The loop of `open_file`. A short read is the last one, so that its assertion holds. -/
theorem openFile_walked (hl : last = sfsBlksize ∨ data = []) :
    Within MksfsError.Refusal (openFile c n last data s) fun s' => ∃ r', Walked s s' r r' ∅ c ∧ r'.entries = r.entries := by
  induction n generalizing s r last data with
  | zero => exact Within.of_eq_ok rfl ⟨r, Walked.refl hb, rfl⟩
  | succ n ih =>
    rw [openFile]
    split
    · exact Within.of_eq_ok rfl ⟨r, Walked.refl hb, rfl⟩
    · rename_i hne
      have hf : last = sfsBlksize := by
        refine hl.resolve_right ?_
        rintro rfl
        exact hne (by simp)
      refine Within.ensure_bind (fun hn => absurd hf hn) fun _ => ?_
      have hlen : (data.take sfsBlksize).length ≤ sfsBlksize := by
        rw [List.length_take]
        exact Nat.min_le_left _ _
      refine (packBlock_walked hb hc ht hlen).bind ?_
      rintro ⟨b, s1⟩ ⟨r1, hw1, he1⟩
      have hlast' : (data.take sfsBlksize).length = sfsBlksize ∨ data.drop sfsBlksize = [] := by
        rw [List.length_take, List.drop_eq_nil_iff]
        omega
      refine (ih hw1.built (hw1.inos hc) (by rw [hw1.type c hc]; exact ht) hlast').mono ?_
      rintro s2 ⟨r2, hw2, he2⟩
      exact ⟨r2, (hw1.trans hw2).mono (by simp), he2.trans he1⟩

omit hb hc ht in
/-- `open_link` allocates and packs a block in the order of `open_file`. -/
theorem openLink_eq (hta : target.length < sfsBlksize) :
    openLink c target s = packBlock c (fun k => target.getD k 0) target.length s >>= fun p => .ok p.2 := by
  unfold openLink packBlock
  cases hs : sfsAllocIno s with
  | error e => rfl
  | ok p =>
    obtain ⟨ino, u⟩ := p
    simp only [bind_ok, if_neg (Nat.not_le.mpr hta)]
    cases hw : writeBlock (fun k => target.getD k 0) target.length ino u with
    | error e => rfl
    | ok v =>
      simp only [bind_ok]
      cases appendBlock c target.length ino v <;> rfl

theorem openLink_walked :
    Within MksfsError.Refusal (openLink c target s) fun s' => ∃ r', Walked s s' r r' ∅ c ∧ r'.entries = r.entries := by
  by_cases hta : target.length < sfsBlksize
  · rw [openLink_eq hta]
    exact (packBlock_walked hb hc ht hta.le).bind fun p hp => hp
  · unfold openLink sfsAllocIno
    by_cases hlt : s.nextIno < s.ninos
    · rw [if_pos hlt]
      simp only [if_pos (not_lt.mp hta)]
      exact Within.of_eq_error rfl (by simp [MksfsError.Refusal])
    · rw [if_neg hlt]
      exact Within.of_eq_error rfl (by simp [MksfsError.Refusal])

end

/-! ## Inodes -/

/-- A new inode is not reached yet. -/
theorem allocCacheInode_walked (hb : Built s r) : Within MksfsError.Refusal (allocCacheInode real 0 type s) fun p => ∃ r',
      Walked s p.2 r r' {real} p.1 ∧ r' = r.insertIno p.1 ∧ p.1 ∉ r.inos ∧ (p.2.ci p.1).inode.type = type ∧
        (p.2.ci p.1).real = real := by
  obtain ⟨htr, hl⟩ := built_spec hb
  rcases allocCacheInode_spec real type htr hl with ⟨-, he⟩ | ⟨he, -⟩
  · exact Within.of_eq_error he (by simp [MksfsError.Refusal])
  · have ho : ∀ c ∈ r.inos, (s.newInode real type).ci c = s.ci c :=
      fun c hc => update_of_ne (ne_next htr.sound hc) _ _
    have hs : (s.newInode real type).ci s.nextIno = freshInode real s.nextIno type := update_self _ _ _
    refine Within.of_eq_ok he ⟨r.insertIno s.nextIno, ⟨.inode hb he, Finset.subset_insert _ _, fun _ => List.Subset.refl _, ?_, ?_, ?_, ?_⟩,
      rfl, next_not_mem htr.sound, ?_, ?_⟩
    · exact fun c hc => by rw [ho c hc]
    · exact fun c hc => by rw [ho c hc]
    · intro c hc
      rcases Finset.mem_insert.mp hc with rfl | hc
      · exact Or.inr (by rw [hs]; rfl)
      · exact Or.inl hc
    · intro c hc
      rcases Finset.mem_insert.mp hc with rfl | hc
      · exact Or.inr .refl
      · exact Or.inl hc
    · rw [hs]
      rfl
    · rw [hs]
      rfl

/-- The new inode is that of a link, or has a number of its own. -/
theorem numbered_insert (hw : Walked s s' r (r.insertIno c) R a) (hty : (s'.ci c).inode.type = type)
    (hr : (s'.ci c).real = real)
    (hnew : real ∈ L ∨ ((∀ b ∈ r.inos, (s.ci b).real ≠ real) ∧ (type = .file ∨ type = .dir))) (h : Numbered s r L) :
    Numbered s' (r.insertIno c) L := by
  constructor
  · intro b hb b' hb' hL he
    rcases Finset.mem_insert.mp hb with rfl | hb
    · rcases Finset.mem_insert.mp hb' with rfl | hb'
      · rfl
      · rw [hw.real b' hb', hr] at he
        rw [hr] at hL
        exact absurd he ((hnew.resolve_left hL).1 b' hb')
    · rcases Finset.mem_insert.mp hb' with hbc | hb'
      · rw [hbc, hw.real b hb, hr] at he
        rw [hw.real b hb, ← he] at hL
        exact absurd he.symm ((hnew.resolve_left hL).1 b hb)
      · rw [hw.real b hb] at hL he
        rw [hw.real b' hb'] at he
        exact h.unique b hb b' hb' hL he
  · intro b hb
    rcases Finset.mem_insert.mp hb with rfl | hb
    · rw [hty, hr]
      rcases hnew with hL | ⟨-, hf | hdir⟩
      · exact Or.inr (Or.inr hL)
      · exact Or.inl hf
      · exact Or.inr (Or.inl hdir)
    · rw [hw.type b hb, hw.real b hb]
      exact h.kinds b hb

/-- `search_cache_inode` finds an inode with the number of the host, if there is one. -/
theorem searchCacheInode_spec (real : Nat) (hb : Built s r) :
    (searchCacheInode s real = none ∧ ∀ c ∈ r.inos, (s.ci c).real ≠ real) ∨
      ∃ c ∈ r.inos, (s.ci c).real = real ∧ searchCacheInode s real = some c := by
  have hs := (built_spec hb).1.sound
  unfold searchCacheInode
  cases hf : (s.inodes (hash64 real)).find? fun ci => (s.ci ci).real = real with
  | none =>
    refine Or.inl ⟨rfl, ?_⟩
    intro c hc he
    have hm : c ∈ s.inodes (hash64 real) := (hs.inodes _ c).mpr ⟨hc, by rw [he]⟩
    exact List.find?_eq_none.mp hf c hm (decide_eq_true he)
  | some c =>
    have hm := List.mem_of_find?_eq_some hf
    exact Or.inr ⟨c, ((hs.inodes _ c).mp hm).1, by simpa using List.find?_some hf, rfl⟩

theorem fileInode_walked (hb : Built s r) :
    Within MksfsError.Refusal (fileInode real data s) fun p => ∃ r', Walked s p.2 r r' {real} p.1 ∧ p.1 ∈ r'.inos ∧
      r'.entries = r.entries ∧ (p.2.ci p.1).real = real ∧ (Numbered s r L → Numbered p.2 r' L) := by
  unfold fileInode
  rcases searchCacheInode_spec real hb with ⟨hno, hu⟩ | ⟨c, hc, hr, hs⟩
  · rw [hno]
    refine (allocCacheInode_walked hb).bind ?_
    rintro ⟨c, s1⟩ ⟨r1, hw1, rfl, -, ht, hr⟩
    have hc : c ∈ (r.insertIno c).inos := Finset.mem_insert_self _ _
    refine (openFile_walked hw1.built hc (by rw [ht]; decide) (Or.inl rfl)).bind ?_
    rintro s2 ⟨r2, hw2, he⟩
    exact ⟨r2, (hw1.trans hw2).mono (by simp), hw2.inos hc, he, (hw2.real c hc).trans hr,
      fun h => hw2.numbered (numbered_insert hw1 ht hr (Or.inr ⟨hu, Or.inl rfl⟩) h)⟩
  · rw [hs]
    exact Within.of_eq_ok rfl ⟨r, Walked.refl hb, hc, rfl, hr, fun h => h⟩

/-! ## The entries of a directory -/

section Directory

variable (hb : Built s r) (hd : current ∈ r.inos) (ht : (s.ci current).inode.type = .dir) (hn : name.length ≤ sfsMaxFnameLen)
include hb hd ht hn

theorem addFile_pass :
    Within MksfsError.Refusal (addFile current name real data s) fun s' => ∃ r', Pass s s' r r' {real} current [(name, real)] L := by
  unfold addFile
  refine (fileInode_walked (L := L) hb).bind ?_
  rintro ⟨file, s1⟩ ⟨r1, hw1, hf, he1, hr, hnum⟩
  refine (addEntry_walked hw1 hd ht hf hn).mono ?_
  rintro s2 ⟨r2, hw2, hs, he⟩
  refine ⟨r2, hw2, ?_, fun h => hs.numbered (hnum h)⟩
  exact (Listed.of_entries he1).trans hs hw1.inos (listed_entry hs hf hr he)

theorem addLink_pass (hL : real ∈ L) :
    Within MksfsError.Refusal (addLink current name real target s) fun s' => ∃ r', Pass s s' r r' {real} current [(name, real)] L := by
  unfold addLink
  refine (allocCacheInode_walked hb).bind ?_
  rintro ⟨file, s1⟩ ⟨r1, hw1, rfl, -, hty, hr⟩
  have hf : file ∈ (r.insertIno file).inos := Finset.mem_insert_self _ _
  refine (openLink_walked hw1.built hf (by rw [hty]; decide)).bind ?_
  rintro s2 ⟨r2, hw2, he2⟩
  have hw02 : Walked s s2 r r2 {real} file := (hw1.trans hw2).mono (by simp)
  refine (addEntry_walked hw02 hd ht (hw2.inos hf) hn).mono ?_
  rintro s3 ⟨r3, hw3, hs, he⟩
  refine ⟨r3, hw3, ?_, fun h => hs.numbered (hw2.numbered (numbered_insert hw1 hty hr (Or.inl hL) h))⟩
  have hl : Listed s2 r r2 current [] := .of_entries he2
  exact hl.trans hs hw02.inos (listed_entry hs (hw2.inos hf) ((hw2.real file hf).trans hr) he)

end Directory

/-- `open_dir` on a directory that was added before. -/
theorem openDir_walked (readdir : Mksfs → Except MksfsError Mksfs) (R' : Set Nat) (hw : Walked s s' r r' R current) (hd : current ∈ r'.inos)
    (ht : (s'.ci current).inode.type = .dir) (hp : parent ∈ r'.inos)
    (hr : ∀ s1 r1, Built s1 r1 → current ∈ r1.inos → (s1.ci current).inode.type = .dir →
      (∀ c ∈ r1.inos, c ∈ r.inos ∨ (s1.ci c).real ∈ R) → (∀ c ∈ r.inos, (s1.ci c).real = (s.ci c).real) →
      Within MksfsError.Refusal (readdir s1) fun s2 => ∃ r2, Pass s1 s2 r1 r2 R' current l L) :
    Within MksfsError.Refusal (openDir current parent readdir s') fun s'' => ∃ r'',
      Walked s s'' r r'' (R ∪ R') current ∧ r'.inos ⊆ r''.inos ∧ (s''.ci current).inode.type = .dir ∧
        (∀ c ∈ r'.inos, (s''.ci c).real = (s'.ci c).real) ∧
        Listed s'' r' r'' current ((dotName, (s'.ci current).real) :: (dotdotName, (s'.ci parent).real) :: l) ∧
        (Numbered s' r' L → Numbered s'' r'' L) := by
  unfold openDir
  have hdot : dotName.length ≤ sfsMaxFnameLen := by decide
  have hdo : dotdotName.length ≤ sfsMaxFnameLen := by decide
  refine (addEntry_walked (Walked.refl (R := ∅) hw.built) hd ht hd hdot).bind ?_
  rintro s1 ⟨r1, hw1, hs1, he1⟩
  have ht1 := (hw1.type current hd).trans ht
  refine (addEntry_walked (Walked.refl (R := ∅) hw1.built) (hw1.inos hd) ht1 (hw1.inos hp) hdo).bind ?_
  rintro s2 ⟨r2, hw2, hs2, he2⟩
  have ht2 := (hw2.type current (hw1.inos hd)).trans ht1
  have hw02 : Walked s s2 r r2 R current := ((hw.trans hw1).trans hw2).mono (by simp)
  refine (hr s2 r2 hw2.built (hw2.inos (hw1.inos hd)) ht2 hw02.added hw02.real).mono ?_
  rintro s3 ⟨r3, hw3⟩
  have hdots := (listed_entry hs1 hd rfl he1).trans hs2 hw1.inos
    (listed_entry hs2 (hw1.inos hp) (hs1.real parent hp) he2)
  refine ⟨r3, hw02.trans hw3.toWalked, Finset.Subset.trans (Finset.Subset.trans hw1.inos hw2.inos) hw3.inos, ?_, ?_,
    hdots.trans hw3.toWalked (Finset.Subset.trans hw1.inos hw2.inos) hw3.listed,
    fun h => hw3.numbered (hs2.numbered (hs1.numbered h))⟩
  · rw [hw3.type current (hw2.inos (hw1.inos hd)), ht2]
  · intro c hc
    rw [hw3.real c (hw2.inos (hw1.inos hc)), hw2.real c (hw1.inos hc), hw1.real c hc]

/-- The numbers of the host that a state knows of. -/
def reals (s : Mksfs) (r : Record) : Set Nat := { x | ∃ c ∈ r.inos, (s.ci c).real = x }

/-- What is known after a part of the walk. -/
theorem Walked.reals_subset (hw : Walked s s' r r' R a) : reals s' r' ⊆ reals s r ∪ R := by
  rintro x ⟨c, hc, rfl⟩
  rcases hw.added c hc with hm | hR
  · exact Or.inl ⟨c, hm, (hw.real c hm).symm⟩
  · exact Or.inr hR

/-- The numbers of a tree. -/
def numbers (h : HostDir) : Set Nat := { x | x ∈ h.dirs ∨ x ∈ h.leaves }

/-- What `open_dir` does for each entry of a directory of the host. -/
theorem checkName_pass (hb : Built s r)
    (ha : name.length ≤ sfsMaxFnameLen → Within MksfsError.Refusal (add s) fun s' => ∃ r', Pass s s' r r' R current l L) :
    Within MksfsError.Refusal (checkName name add s) fun s' => ∃ r',
      Pass s s' r r' R current (if name.head? = some 46 then [] else l) L := by
  unfold checkName
  split
  · exact Within.of_eq_ok rfl ⟨r, Pass.refl hb⟩
  · split
    · exact Within.of_eq_error rfl (by simp [MksfsError.Refusal])
    · rename_i hl
      exact ha (Nat.le_of_not_lt hl)

/-- `add_dir`: a directory of the host is not known yet. -/
theorem addDir_pass {readdir : Nat → Mksfs → Except MksfsError Mksfs} (hb : Built s r) (hd : current ∈ r.inos)
    (ht : (s.ci current).inode.type = .dir) (hn : name.length ≤ sfsMaxFnameLen) (hr : real ∉ reals s r)
    (hre : ∀ d s1 r1, Built s1 r1 → d ∈ r1.inos → (s1.ci d).inode.type = .dir → reals s1 r1 ⊆ reals s r ∪ {real} →
      Within MksfsError.Refusal (readdir d s1) fun s2 => ∃ r2, Pass s1 s2 r1 r2 R d l L) :
    Within MksfsError.Refusal (addDir current name real readdir s) fun s' => ∃ r',
      Pass s s' r r' ({real} ∪ R) current [(name, real)] L := by
  unfold addDir
  have hu : ∀ c ∈ r.inos, (s.ci c).real ≠ real := fun c hc he => hr ⟨c, hc, he⟩
  have hno : searchCacheInode s real = none := by
    rcases searchCacheInode_spec real hb with ⟨hno, -⟩ | ⟨c, hc, he, -⟩
    · exact hno
    · exact absurd he (hu c hc)
  refine Within.ensure_bind (fun hne => absurd hno hne) fun _ => ?_
  refine (allocCacheInode_walked hb).bind ?_
  rintro ⟨d, s1⟩ ⟨r1, hw1, rfl, hnew, ht1, hreal1⟩
  have hd1 : d ∈ (r.insertIno d).inos := Finset.mem_insert_self _ _
  have hop := openDir_walked (readdir d) R hw1 hd1 ht1 (hw1.inos hd) (by
    intro s2 r2 hb2 hd2 ht2 ha hs
    refine hre d s2 r2 hb2 hd2 ht2 ?_
    rintro x ⟨c, hc, rfl⟩
    rcases ha c hc with hm | hR
    · exact Or.inl ⟨c, hm, (hs c hm).symm⟩
    · exact Or.inr hR)
  refine hop.bind ?_
  rintro s2 ⟨r2, hw2, hsub, -, hs, hli, hnum⟩
  refine (addEntry_walked hw2 hd ht (hsub hd1) hn).mono ?_
  rintro s3 ⟨r3, hw3, hst, he⟩
  -- the new directory is another one, so that the walk over it leaves the entries of this one
  have ho : ∀ c ∈ r.inos, r2.entries c = r.entries c := by
    intro c hc
    exact hli.others c (hw1.inos hc) fun hcd => hnew (hcd ▸ hc)
  have hl : Listed s2 r r2 current [] := ⟨fun c hc _ => ho c hc, [], by rw [ho current hd, List.append_nil], .nil⟩
  refine ⟨r3, hw3, ?_, fun h => hst.numbered (hnum (numbered_insert hw1 ht1 hreal1 (Or.inr ⟨hu, Or.inr rfl⟩) h))⟩
  exact hl.trans hst hw2.inos (listed_entry hst (hsub hd1) ((hs d hd1).trans hreal1) he)

/-! ## The tree -/

theorem Apart.subset (hap : h.Apart seen) {seen' : Set Nat} (hs : seen' ⊆ seen) : h.Apart seen' :=
  ⟨hap.nodup, hap.leaves, fun x hx hm => hap.seen x hx (hs hm)⟩

/-- The rest of a directory behind a file or a link. -/
theorem Apart.leaf (hap : h.Apart seen) (hdi : h.dirs = rest.dirs) (hleaves : h.leaves = real :: rest.leaves) :
    rest.Apart (seen ∪ {real}) := by
  obtain ⟨hno, hl, hs⟩ := hap
  rw [hdi] at hno hl hs
  rw [hleaves] at hl
  refine ⟨hno, fun x hx hm => hl x hx (List.mem_cons_of_mem _ hm), ?_⟩
  rintro x hx (hm | rfl)
  · exact hs x hx hm
  · exact hl x hx List.mem_cons_self

theorem Apart.dir (hap : (HostDir.dir name real entries rest).Apart seen) :
    real ∉ seen ∧ entries.Apart (seen ∪ {real}) ∧ rest.Apart (seen ∪ ({real} ∪ numbers entries)) := by
  obtain ⟨hno, hl, hs⟩ := hap
  simp only [HostDir.dirs, HostDir.leaves, List.nodup_cons, List.nodup_append, List.mem_cons, List.mem_append] at hno hl hs
  obtain ⟨hr, he, hre, hdi⟩ := hno
  refine ⟨hs real (Or.inl rfl), ⟨he, ?_, ?_⟩, ⟨hre, ?_, ?_⟩⟩
  · exact fun x hx hm => hl x (Or.inr (Or.inl hx)) (Or.inl hm)
  · rintro x hx (hm | rfl)
    · exact hs x (Or.inr (Or.inl hx)) hm
    · exact hr (Or.inl hx)
  · exact fun x hx hm => hl x (Or.inr (Or.inr hx)) (Or.inr hm)
  · rintro x hx (hm | rfl | hm | hm)
    · exact hs x (Or.inr (Or.inr hx)) hm
    · exact hr (Or.inr hx)
    · exact hdi x hm x hx rfl
    · exact hl x (Or.inr (Or.inr hx)) (Or.inl hm)

/-- What the walk over the entries of a directory does. -/
def Walks (h : HostDir) : Prop :=
  ∀ {s : Mksfs} {r : Record} {current : Nat} {L : Set Nat}, Built s r → current ∈ r.inos → (s.ci current).inode.type = .dir →
    h.Apart (reals s r) → (∀ x ∈ h.links, x ∈ L) →
    Within MksfsError.Refusal (readDir h current s) fun s' => ∃ r', Pass s s' r r' (numbers h) current h.listing L

/-- After one entry, the rest is walked over from the state that it leaves. -/
theorem walks_cons (hr : Walks rest) (hb : Built s r) (hd : current ∈ r.inos)
    (ht : (s.ci current).inode.type = .dir) (hap : rest.Apart (reals s r ∪ R)) (hL : ∀ x ∈ rest.links, x ∈ L)
    (ha : name.length ≤ sfsMaxFnameLen → Within MksfsError.Refusal (add s) fun s' => ∃ r', Pass s s' r r' R current l L) :
    Within MksfsError.Refusal (checkName name add s >>= readDir rest current) fun s' => ∃ r',
      Pass s s' r r' (R ∪ numbers rest) current ((if name.head? = some 46 then [] else l) ++ rest.listing) L := by
  refine (checkName_pass hb ha).bind ?_
  rintro s1 ⟨r1, hw1⟩
  have hap1 := Apart.subset hap (Walked.reals_subset hw1.toWalked)
  refine (hr hw1.built (hw1.inos hd) ((hw1.type current hd).trans ht) hap1 hL).mono ?_
  rintro s2 ⟨r2, hw2⟩
  exact ⟨r2, hw1.trans hw2⟩

theorem within_subset {x : Except MksfsError Mksfs} (hR : R ⊆ R')
    (hx : Within MksfsError.Refusal x fun s' => ∃ r', Pass s s' r r' R current l L) :
    Within MksfsError.Refusal x fun s' => ∃ r', Pass s s' r r' R' current l L :=
  hx.mono fun _ ⟨r', hw⟩ => ⟨r', hw.mono hR⟩

/-- The walk over a tree, by induction on it. -/
theorem readDir_spec (h : HostDir) : Walks h := by
  induction h with
  | nil =>
    intro s r current L hb _ _ _ _
    exact Within.of_eq_ok rfl ⟨r, Pass.refl hb⟩
  | file name real data rest ih =>
    intro s r current L hb hd ht hap hL
    rw [readDir]
    refine within_subset ?_ (walks_cons ih hb hd ht (Apart.leaf hap rfl rfl) hL fun hn => addFile_pass hb hd ht hn)
    intro x hx
    simp only [numbers, HostDir.dirs, HostDir.leaves, List.mem_cons, Set.mem_union, Set.mem_singleton_iff, Set.mem_ofPred_eq] at hx ⊢
    tauto
  | link name real target rest ih =>
    intro s r current L hb hd ht hap hL
    rw [readDir]
    refine within_subset ?_ (walks_cons ih hb hd ht (Apart.leaf hap rfl rfl) (fun x hx => hL x (List.mem_cons_of_mem _ hx))
      fun hn => addLink_pass hb hd ht hn (hL real List.mem_cons_self))
    intro x hx
    simp only [numbers, HostDir.dirs, HostDir.leaves, List.mem_cons, Set.mem_union, Set.mem_singleton_iff, Set.mem_ofPred_eq] at hx ⊢
    tauto
  | dir name real entries rest ihe ihr =>
    intro s r current L hb hd ht hap hL
    obtain ⟨hre, he, hr⟩ := Apart.dir hap
    rw [readDir]
    refine within_subset ?_ (walks_cons ihr hb hd ht hr (fun x hx => hL x (List.mem_append_right _ hx))
      fun hn => addDir_pass (l := entries.listing) hb hd ht hn hre ?_)
    · intro x hx
      simp only [numbers, HostDir.dirs, HostDir.leaves, List.mem_cons, List.mem_append, Set.mem_union, Set.mem_singleton_iff,
        Set.mem_ofPred_eq] at hx ⊢
      tauto
    · intro d s1 r1 hb1 hd1 ht1 hs
      exact ihe hb1 hd1 ht1 (Apart.subset he hs) fun x hx => hL x (List.mem_append_left _ hx)
  | other name rest ih =>
    intro s r current L hb hd ht hap hL
    have hr : rest.Apart (reals s r) := ⟨hap.nodup, hap.leaves, hap.seen⟩
    rw [readDir]
    have ha : name.length ≤ sfsMaxFnameLen → Within MksfsError.Refusal (Except.ok s) fun s' => ∃ r', Pass s s' r r' ∅ current [] L :=
      fun _ => Within.of_eq_ok rfl ⟨r, Pass.refl hb⟩
    have hp := walks_cons ih hb hd ht (Apart.subset hr (by simp)) hL ha
    rw [ite_self] at hp
    refine within_subset ?_ hp
    intro x hx
    simpa [numbers, HostDir.dirs, HostDir.leaves] using hx

/-- The whole image, up to its closing: everything in it can be reached from the root, which has the entries of the tree. -/
theorem createImg_pass {size : Nat} (hap : h.Apart {0}) :
    Within MksfsError.Refusal (createImg size entry image h) fun s' => ∃ s r, Built s r ∧ closeSfs s = .ok s' ∧
      (∀ c ∈ r.inos, r.Reach sfsBlknRoot c) ∧ Numbered s r { x | x ∈ h.links } ∧
      List.Forall₂ (fun e x => e.1 ∈ r.inos ∧ e.2 = x.1 ∧ (s.ci e.1).real = x.2) (r.entries sfsBlknRoot)
        ((dotName, 0) :: (dotdotName, 0) :: h.listing) := by
  unfold createImg
  rcases createSfs_spec size entry image with he | ⟨he, -⟩
  · rw [he]
    exact Within.of_eq_error rfl (by simp [MksfsError.Refusal])
  obtain ⟨s0, hs0⟩ : ∃ s0, s0 = newImage (imageBlocks size) entry image := ⟨_, rfl⟩
  rw [← hs0] at he
  have hb : Built s0 .root := .create he
  obtain ⟨htr, hl⟩ := built_spec hb
  have hr := htr.sound.root
  have hreal0 : (s0.ci sfsBlknRoot).real = 0 := by
    rw [hs0]
    rfl
  have hnum0 : Numbered s0 .root { x | x ∈ h.links } := by
    refine ⟨fun c hc c' hc' _ _ => (mem_root.mp hc').trans (mem_root.mp hc).symm, fun c hc => Or.inr (Or.inl ?_)⟩
    rw [mem_root.mp hc]
    exact hl.root
  rw [he, bind_ok]
  have ho := openDir_walked _ (numbers h) (Walked.refl hb) hr hl.root hr (by
    intro s1 r1 hb1 hd1 ht1 ha hs
    refine readDir_spec h hb1 hd1 ht1 (Apart.subset hap ?_) fun _ hx => hx
    rintro x ⟨c, hc, rfl⟩
    rcases ha c hc with hm | hR
    · rw [hs c hm, mem_root.mp hm, hreal0]
      rfl
    · exact absurd hR (Set.notMem_empty _))
  refine ho.bind ?_
  rintro s1 ⟨r1, hw, -, -, -, hli, hnum⟩
  obtain ⟨htr1, hl1⟩ := built_spec hw.built
  obtain ⟨s2, hcl, -⟩ := closeSfs_spec htr1.sound hl1
  obtain ⟨new, hnew, hrel⟩ := hli.own
  rw [hreal0] at hrel
  refine Within.of_eq_ok hcl ⟨s1, r1, hw.built, hcl, ?_, hnum hnum0, ?_⟩
  · intro c hc
    rcases hw.reach c hc with hm | hre
    · rw [mem_root.mp hm]
      exact .refl
    · exact hre
  · have hem : Record.root.entries sfsBlknRoot = [] := rfl
    rw [hnew]
    exact hrel

theorem createImg_spec {size : Nat} (hap : h.Apart {0}) :
    Within MksfsError.Refusal (createImg size entry image h) fun s' => ∃ s r, Built s r ∧ closeSfs s = .ok s' ∧
      ∀ c ∈ r.inos, r.Reach sfsBlknRoot c := by
  refine (createImg_pass hap).mono ?_
  rintro s' ⟨s, r, hb, hcl, hr, -⟩
  exact ⟨s, r, hb, hcl, hr⟩

end MksfsWalkAux

end Ucore
