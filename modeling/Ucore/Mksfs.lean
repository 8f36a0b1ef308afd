import Ucore.SfsDir

/-!
# The image builder

`tools/mksfs.c`: it walks over a directory of the host and writes an image of a simple file system. Inodes and tables are kept in
memory, in hash lists, and written at the end; the other blocks are written at once. A cache inode and a cache block are known by
their block number.

A call of `bug` ends the program with a message, a failed assertion aborts it: both stop with the `MksfsError` that names them. Not
modelled: calls of the host that fail, the `info` text of the superblock, and the path that is kept for messages.
-/

namespace Ucore

open Checked Bytes Function

/-- `SFS_MAX_NBLKS` -/
def sfsMaxNblks : Nat := 1024 * 512

/-- `SFS_L1_NBLKS` -/
def sfsL1Nblks : Nat := sfsBlkNentry + sfsNdirect

/-- `SFS_L2_NBLKS` -/
def sfsL2Nblks : Nat := sfsBlkNentry * sfsBlkNentry + sfsL1Nblks

/-- `SFS_LN_NBLKS` -/
def sfsLnNblks : Nat := sfsMaxFileSize / sfsBlksize

/-- The messages and the assertions that stop `mksfs`. -/
inductive MksfsError
  /-- "img file is too small" -/
  | imgTooSmall
  /-- "out of disk space" -/
  | outOfSpace
  /-- "file is too big" -/
  | fileTooBig
  /-- "file name is too long" -/
  | nameTooLong
  /-- "read link failed" -/
  | readLink
  /-- The assertion of `write_block`. -/
  | writeBlock
  /-- The assertion of `update_cache`. -/
  | updateCache
  /-- The assertion of `append_block`. -/
  | appendBlock
  /-- The assertion of `add_entry`. -/
  | addEntry
  /-- The assertion of `add_dir`. -/
  | addDir
  /-- The assertion of `open_file`. -/
  | openFile
  deriving DecidableEq

/-- `struct inode` -/
structure MksfsInode where
  size : Nat
  type : SfsType
  nlinks : Nat
  blocks : Nat
  direct : Nat → Nat
  indirect : Nat
  dbIndirect : Nat

/-- `struct cache_inode`, with the cache blocks `l1` and `l2` by number. -/
structure CacheInode where
  inode : MksfsInode
  real : Nat
  ino : Nat
  nblks : Nat
  l1 : Option Nat
  l2 : Option Nat

/-- `struct sfs_fs`: the hash lists of cache inodes and cache blocks, what they hold, the static entry of `add_entry`, and the
image. -/
structure Mksfs where
  ninos : Nat
  nextIno : Nat
  unusedBlocks : Nat
  inodes : Nat → List Nat
  blocks : Nat → List Nat
  ci : Nat → CacheInode
  cache : Nat → Nat → Nat
  entry : Nat → UInt8
  image : Nat → Nat → UInt8

/-- `hash32` -/
def hash32 (val : Nat) : Nat := val * 0x9e370001 % 2 ^ 32 / 2 ^ 22

/-- `hash64` -/
def hash64 (val : Nat) : Nat := hash32 (val % 2 ^ 32)

/-- `HASH_LIST_SIZE` -/
def hashListSize : Nat := 1024

/-! ## Allocation -/

/-- `sfs_alloc_ino` -/
def sfsAllocIno (s : Mksfs) : Except MksfsError (Nat × Mksfs) :=
  if s.nextIno < s.ninos then .ok (s.nextIno, { s with unusedBlocks := s.unusedBlocks - 1, nextIno := s.nextIno + 1 })
  else .error .outOfSpace

/-- `(ino != 0) ? ino : sfs_alloc_ino(sfs)` -/
def inoOrNew (ino : Nat) (s : Mksfs) : Except MksfsError (Nat × Mksfs) := if ino ≠ 0 then .ok (ino, s) else sfsAllocIno s

/-- `alloc_cache_block` -/
def allocCacheBlock (ino : Nat) (s : Mksfs) : Except MksfsError (Nat × Mksfs) := do
  let (cb, s) ← inoOrNew ino s
  return (cb, { s with
    cache := update s.cache cb fun _ => 0
    blocks := update s.blocks (hash32 ino) (cb :: s.blocks (hash32 ino)) })

/-- `search_cache_block` -/
def searchCacheBlock (s : Mksfs) (ino : Nat) : Option Nat := (s.blocks (hash32 ino)).find? (· = ino)

/-- A cache inode as `alloc_cache_inode` makes it. -/
def freshInode (real ino : Nat) (type : SfsType) : CacheInode := ⟨⟨0, type, 0, 0, fun _ => 0, 0, 0⟩, real, ino, 0, none, none⟩

/-- `alloc_cache_inode` -/
def allocCacheInode (real ino : Nat) (type : SfsType) (s : Mksfs) : Except MksfsError (Nat × Mksfs) := do
  let (ci, s) ← inoOrNew ino s
  return (ci, { s with
    ci := update s.ci ci (freshInode real ci type)
    inodes := update s.inodes (hash64 real) (ci :: s.inodes (hash64 real)) })

/-- `search_cache_inode` -/
def searchCacheInode (s : Mksfs) (real : Nat) : Option Nat := (s.inodes (hash64 real)).find? fun ci => (s.ci ci).real = real

/-- `create_sfs`, for an image file of `size` bytes that holds the blocks `image`. -/
def createSfs (size : Nat) (entry : Nat → UInt8) (image : Nat → Nat → UInt8) : Except MksfsError Mksfs :=
  let ninos := min (size / sfsBlksize % 2 ^ 32) sfsMaxNblks
  let nextIno := sfsBlknFreemap + (ninos + sfsBlkbits - 1) / sfsBlkbits
  if ninos ≤ nextIno then .error .imgTooSmall
  else do
    let (_, s) ← allocCacheInode 0 sfsBlknRoot .dir
      ⟨ninos, nextIno, ninos - nextIno, fun _ => [], fun _ => [], fun ino => freshInode 0 ino .inval, fun _ _ => 0, entry, image⟩
    return s

/-! ## Blocks of the image -/

/-- `write_block`: the block gets the first `len` bytes of `data`, and zeros. -/
def writeBlock (data : Nat → UInt8) (len ino : Nat) (s : Mksfs) : Except MksfsError Mksfs := do
  ensure (len ≤ sfsBlksize ∧ ino < s.ninos) .writeBlock
  return { s with image := update s.image ino (patch (s.image ino) 0 sfsBlksize fun k => if k < len then data k else 0) }

/-- `update_cache`: the cache block of the number `ino`, or a new one for the number 0. It is known as `cb` already, or looked up. -/
def updateCache (cb : Option Nat) (ino : Nat) (s : Mksfs) : Except MksfsError (Nat × Mksfs) :=
  if ino = 0 then allocCacheBlock 0 s
  else if cb = some ino then .ok (ino, s)
  else
    match searchCacheBlock s ino with
    | some cb => .ok (cb, s)
    | none => .error .updateCache

namespace Mksfs

def setCi (s : Mksfs) (file : Nat) (ci : CacheInode) : Mksfs := { s with ci := update s.ci file ci }

/-- A word of a cache block. -/
def setWord (s : Mksfs) (cb index v : Nat) : Mksfs :=
  { s with cache := update s.cache cb (update (s.cache cb) index v) }

end Mksfs

/-- The branch of `append_block` for a direct block. -/
def appendDirect (file nblks ino : Nat) (s : Mksfs) : Mksfs :=
  let ci := s.ci file
  s.setCi file { ci with inode := { ci.inode with direct := update ci.inode.direct nblks ino } }

/-- The branch of `append_block` for a block of the table. -/
def appendIndirect (file nblks ino : Nat) (s : Mksfs) : Except MksfsError Mksfs := do
  let (l1, s) ← updateCache (s.ci file).l1 (s.ci file).inode.indirect s
  let ci := s.ci file
  let s := s.setCi file { ci with l1 := some l1, inode := { ci.inode with indirect := l1 } }
  return s.setWord l1 nblks ino

/-- The branch of `append_block` for a block of a table of the double table. -/
def appendDbIndirect (file nblks ino : Nat) (s : Mksfs) : Except MksfsError Mksfs := do
  let (l2, s) ← updateCache (s.ci file).l2 (s.ci file).inode.dbIndirect s
  let ci := s.ci file
  let s := s.setCi file { ci with l2 := some l2, inode := { ci.inode with dbIndirect := l2 } }
  let (l1, s) ← updateCache (s.ci file).l1 (s.cache l2 (nblks / sfsBlkNentry)) s
  let ci := s.ci file
  let s := (s.setCi file { ci with l1 := some l1 }).setWord l2 (nblks / sfsBlkNentry) l1
  return s.setWord l1 (nblks % sfsBlkNentry) ino

/-- The branches of `append_block`. -/
def appendBranch (file nblks ino : Nat) (s : Mksfs) : Except MksfsError Mksfs :=
  if nblks < sfsNdirect then .ok (appendDirect file nblks ino s)
  else if nblks < sfsL1Nblks then appendIndirect file (nblks - sfsNdirect) ino s
  else if nblks < sfsL2Nblks then appendDbIndirect file (nblks - sfsL1Nblks) ino s
  else .ok s

/-- `append_block` -/
def appendBlock (file size ino : Nat) (s : Mksfs) : Except MksfsError Mksfs := do
  ensure (size ≤ sfsBlksize) .appendBlock
  if sfsLnNblks ≤ (s.ci file).nblks then .error .fileTooBig
  else
    let s ← appendBranch file (s.ci file).nblks ino s
    let ci := s.ci file
    return s.setCi file { ci with
      nblks := ci.nblks + 1
      inode := { ci.inode with size := ci.inode.size + size, blocks := ci.inode.blocks + 1 } }

/-- The calls by which every block of a file, a link or a directory gets into the image: it is allocated, written, and appended. -/
def packBlock (file : Nat) (data : Nat → UInt8) (len : Nat) (s : Mksfs) : Except MksfsError (Nat × Mksfs) := do
  let (ino, s) ← sfsAllocIno s
  let s ← writeBlock data len ino s
  let s ← appendBlock file len ino s
  return (ino, s)

/-! ## Directory entries -/

/-- The static `struct sfs_entry` with a number and a name copied into it. -/
def fillEntry (entry : Nat → UInt8) (ino : Nat) (name : List UInt8) : Nat → UInt8 :=
  patch (patch entry 0 4 (byteOf ino)) 4 (name.length + 1) fun k => name.getD k 0

/-- `sizeof(entry->name)` -/
def sizeofName : Nat := sfsMaxFnameLen + 1

/-- `add_entry` -/
def addEntry (current file : Nat) (name : List UInt8) (s : Mksfs) : Except MksfsError Mksfs := do
  ensure ((s.ci current).inode.type = .dir ∧ name.length ≤ sfsMaxFnameLen) .addEntry
  let entry := fillEntry s.entry (s.ci file).ino name
  let (_, s) ← packBlock current entry sizeofName { s with entry := entry }
  let ci := s.ci file
  return s.setCi file { ci with inode := { ci.inode with nlinks := (ci.inode.nlinks + 1) % 2 ^ 16 } }

/-! ## The walk -/

/-- The entries of a directory of the host, in the order of `readdir`. Files, links and directories have the inode number of the
host. -/
inductive HostDir
  | nil
  | file (name : List UInt8) (real : Nat) (data : List UInt8) (rest : HostDir)
  | link (name : List UInt8) (real : Nat) (target : List UInt8) (rest : HostDir)
  | dir (name : List UInt8) (real : Nat) (entries rest : HostDir)
  /-- A fifo, a socket or a device, for which `open_dir` prints a warning. -/
  | other (name : List UInt8) (rest : HostDir)

/-- The loop of `open_file`: the file is read in blocks, with at most `n` reads to go. -/
def openFile (file : Nat) : Nat → Nat → List UInt8 → Mksfs → Except MksfsError Mksfs
  | 0, _, _, s => .ok s
  | n + 1, last, data, s =>
    let buffer := data.take sfsBlksize
    if buffer.length = 0 then .ok s
    else do
      ensure (last = sfsBlksize) .openFile
      let (_, s) ← packBlock file (fun k => buffer.getD k 0) buffer.length s
      openFile file n buffer.length (data.drop sfsBlksize) s

/-- `open_link`, whose block is allocated before the link is read. -/
def openLink (file : Nat) (target : List UInt8) (s : Mksfs) : Except MksfsError Mksfs := do
  let (ino, s) ← sfsAllocIno s
  if sfsBlksize ≤ target.length then .error .readLink
  else
    let s ← writeBlock (fun k => target.getD k 0) target.length ino s
    appendBlock file target.length ino s

/-- The inode of a regular file: the one that another name of it has got already, or a new one with the blocks of the file. -/
def fileInode (real : Nat) (data : List UInt8) (s : Mksfs) : Except MksfsError (Nat × Mksfs) :=
  match searchCacheInode s real with
  | some file => .ok (file, s)
  | none => do
    let (file, s) ← allocCacheInode real 0 .file s
    let s ← openFile file data.length sfsBlksize data s
    return (file, s)

/-- `add_file` -/
def addFile (current : Nat) (filename : List UInt8) (real : Nat) (data : List UInt8) (s : Mksfs) : Except MksfsError Mksfs := do
  let (file, s) ← fileInode real data s
  addEntry current file filename s

/-- `add_link` -/
def addLink (current : Nat) (filename : List UInt8) (real : Nat) (target : List UInt8) (s : Mksfs) : Except MksfsError Mksfs := do
  let (file, s) ← allocCacheInode real 0 .link s
  let s ← openLink file target s
  addEntry current file filename s

/-- `.` -/
def dotName : List UInt8 := [46]

/-- `..` -/
def dotdotName : List UInt8 := [46, 46]

/-- `open_dir`, where `readdir` is its loop over the entries. -/
def openDir (current parent : Nat) (readdir : Mksfs → Except MksfsError Mksfs) (s : Mksfs) : Except MksfsError Mksfs := do
  let s ← addEntry current current dotName s
  let s ← addEntry current parent dotdotName s
  readdir s

/-- `add_dir`, where `readdir` is the loop over the entries of the new directory. -/
def addDir (parent : Nat) (dirname : List UInt8) (real : Nat) (readdir : Nat → Mksfs → Except MksfsError Mksfs) (s : Mksfs) :
    Except MksfsError Mksfs := do
  ensure (searchCacheInode s real = none) .addDir
  let (current, s) ← allocCacheInode real 0 .dir s
  let s ← openDir current parent (readdir current) s
  addEntry parent current dirname s

/-- The checks of a name by `open_dir`: it is skipped where it begins with a dot. -/
def checkName (name : List UInt8) (add : Mksfs → Except MksfsError Mksfs) (s : Mksfs) : Except MksfsError Mksfs :=
  if name.head? = some 46 then .ok s
  else if sfsMaxFnameLen < name.length then .error .nameTooLong
  else add s

/-- The loop of `open_dir` over the entries of a directory. -/
def readDir : HostDir → Nat → Mksfs → Except MksfsError Mksfs
  | .nil, _, s => .ok s
  | .file name real data rest, current, s => do
    let s ← checkName name (addFile current name real data) s
    readDir rest current s
  | .link name real target rest, current, s => do
    let s ← checkName name (addLink current name real target) s
    readDir rest current s
  | .dir name real entries rest, current, s => do
    let s ← checkName name (addDir current name real (readDir entries)) s
    readDir rest current s
  | .other name rest, current, s => do
    let s ← checkName name (fun s => .ok s) s
    readDir rest current s

/-! ## Closing the image -/

/-- The bytes of a `struct inode`. -/
def MksfsInode.bytes (inode : MksfsInode) (o : Nat) : UInt8 :=
  if o < 4 then byteOf inode.size o
  else if o < 6 then byteOf inode.type.code (o - 4)
  else if o < 8 then byteOf inode.nlinks (o - 6)
  else if o < 12 then byteOf inode.blocks (o - 8)
  else if o < 60 then byteOf (inode.direct ((o - 12) / 4)) (o % 4)
  else if o < 64 then byteOf inode.indirect (o - 60)
  else byteOf inode.dbIndirect (o - 64)

/-- `sizeof(struct inode)` -/
def sizeofInode : Nat := 68

/-- The bytes of an array of words. -/
def wordBytes (data : Nat → Nat) (o : Nat) : UInt8 := byteOf (data (o / 4)) (o % 4)

/-- `flush_cache_block` -/
def flushCacheBlock (cb : Nat) (s : Mksfs) : Except MksfsError Mksfs := writeBlock (wordBytes (s.cache cb)) sfsBlksize cb s

/-- `flush_cache_inode` -/
def flushCacheInode (ci : Nat) (s : Mksfs) : Except MksfsError Mksfs := writeBlock (s.ci ci).inode.bytes sizeofInode (s.ci ci).ino s

/-- The loop over one hash list. -/
def flushList (flush : Nat → Mksfs → Except MksfsError Mksfs) : List Nat → Mksfs → Except MksfsError Mksfs
  | [], s => .ok s
  | b :: bs, s => do
    let s ← flush b s
    flushList flush bs s

/-- The loop over the hash lists, with `n` of them to go. -/
def flushLists : Nat → Nat → Mksfs → Except MksfsError Mksfs
  | 0, _, s => .ok s
  | n + 1, i, s => do
    let s ← flushList flushCacheBlock (s.blocks i) s
    let s ← flushList flushCacheInode (s.inodes i) s
    flushLists n (i + 1) s

/-- The loop of `close_sfs` that sets `n` bits from `j` on. -/
def setBits : Nat → Nat → (Nat → BitVec 32) → Nat → BitVec 32
  | 0, _, data => data
  | n + 1, j, data => setBits n (j + 1) (update data (j / 32) (data (j / 32) ||| 1#32 <<< (j % 32)))

/-- The words of the bitmap block for the blocks from `i` on. -/
def freemapWords (ninos nextIno i : Nat) : Nat → BitVec 32 :=
  if nextIno < i + sfsBlkbits then
    let start := if i < nextIno then nextIno - i else 0
    let stop := if ninos < i + sfsBlkbits then ninos - i else sfsBlkbits
    setBits (stop - start) start fun _ => 0#32
  else fun _ => 0#32

/-- The loop of `close_sfs` over the blocks of the bitmap, with `n` of them to go. -/
def writeFreemap : Nat → Nat → Nat → Mksfs → Except MksfsError Mksfs
  | 0, _, _, s => .ok s
  | n + 1, ino, i, s => do
    let s ← writeBlock (wordBytes fun w => (freemapWords s.ninos s.nextIno i w).toNat) sfsBlksize ino s
    writeFreemap n (ino + 1) (i + sfsBlkbits) s

/-- The first words of the superblock. -/
def superWords (s : Mksfs) (w : Nat) : Nat :=
  if w = 0 then sfsMagic else if w = 1 then s.ninos else if w = 2 then s.unusedBlocks else 0

/-- `sizeof(sfs->super)` -/
def sizeofSuper : Nat := 44

/-- `close_sfs` -/
def closeSfs (s : Mksfs) : Except MksfsError Mksfs := do
  let s ← writeFreemap ((s.ninos + sfsBlkbits - 1) / sfsBlkbits) sfsBlknFreemap 0 s
  let s ← writeBlock (wordBytes (superWords s)) sizeofSuper sfsBlknSuper s
  flushLists hashListSize 0 s

/-- `create_img` on a new image: `create_sfs`, `open_dir` on the root, and `close_sfs`. -/
def createImg (size : Nat) (entry : Nat → UInt8) (image : Nat → Nat → UInt8) (home : HostDir) : Except MksfsError Mksfs := do
  let s ← createSfs size entry image
  let s ← openDir sfsBlknRoot sfsBlknRoot (readDir home sfsBlknRoot) s
  closeSfs s

end Ucore
