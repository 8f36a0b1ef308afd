import Mathlib.Algebra.Group.Nat.Defs
import Ucore.Errors
import Ucore.Lib.Checked

/-!
# Bitmaps

The bitmaps of `kern/fs/sfs/bitmap.c`: an array of 32-bit words in which a set bit is a free index. The memory that
`bitmap_create` asks for is not modelled; it always gets it.
-/

namespace Ucore

open Checked Function

/-- `struct bitmap` -/
structure Bitmap where
  nbits : Nat
  nwords : Nat
  map : Nat → BitVec 32

/-- The assertions of a bitmap. -/
inductive BitmapPanic
  /-- `bitmap_create` -/
  | create
  /-- `bitmap_alloc` found a word that is not zero but none of its bits. -/
  | alloc
  /-- `bitmap_translate` got an index out of range. -/
  | translate
  /-- `bitmap_free` got an index that is free. -/
  | free
  deriving DecidableEq

/-- The loop of `bitmap_create` that marks the bits from `overbits` on as in use. -/
def clearOver : Nat → Nat → BitVec 32 → BitVec 32
  | 0, _, word => word
  | n + 1, overbits, word => clearOver n (overbits + 1) (word ^^^ (1#32 <<< overbits))

/-- `bitmap_create` -/
def bitmapCreate (nbits : Nat) : Except BitmapPanic Bitmap := do
  ensure (nbits ≠ 0 ∧ nbits + 32 < 2 ^ 32) .create
  let nwords := (nbits + 31) / 32
  let bitmap : Bitmap := ⟨nbits, nwords, fun _ => BitVec.allOnes 32⟩
  if nbits ≠ nwords * 32 then
    let ix := nwords - 1
    let overbits := nbits - ix * 32
    ensure (nbits / 32 = ix) .create
    ensure (0 < overbits ∧ overbits < 32) .create
    return { bitmap with map := update bitmap.map ix (clearOver (32 - overbits) overbits (bitmap.map ix)) }
  else return bitmap

/-- The inner loop of `bitmap_alloc`: the first bit of a word that is set. -/
def findOffset (word : BitVec 32) : Nat → Nat → Option Nat
  | 0, _ => none
  | n + 1, offset => if word &&& (1#32 <<< offset) ≠ 0#32 then some offset else findOffset word n (offset + 1)

/-- The outer loop of `bitmap_alloc`, with `n` words to go. -/
def bitmapAllocLoop (bitmap : Bitmap) : Nat → Nat → Except BitmapPanic (Option (Nat × Bitmap))
  | 0, _ => .ok none
  | n + 1, ix =>
    if bitmap.map ix ≠ 0#32 then
      match findOffset (bitmap.map ix) 32 0 with
      | some offset =>
        .ok (some (ix * 32 + offset,
          { bitmap with map := update bitmap.map ix (bitmap.map ix ^^^ (1#32 <<< offset)) }))
      | none => .error .alloc
    else bitmapAllocLoop bitmap n (ix + 1)

/-- `bitmap_alloc`: the index, or `none` for `-E_NO_MEM`. -/
def bitmapAlloc (bitmap : Bitmap) : Except BitmapPanic (Option (Nat × Bitmap)) := bitmapAllocLoop bitmap bitmap.nwords 0

/-- `bitmap_translate` -/
def bitmapTranslate (bitmap : Bitmap) (index : Nat) : Except BitmapPanic (Nat × BitVec 32) := do
  ensure (index < bitmap.nbits) .translate
  return (index / 32, 1#32 <<< (index % 32))

/-- `bitmap_test` -/
def bitmapTest (bitmap : Bitmap) (index : Nat) : Except BitmapPanic Bool := do
  let (word, mask) ← bitmapTranslate bitmap index
  return decide (bitmap.map word &&& mask ≠ 0#32)

/-- `bitmap_free` -/
def bitmapFree (bitmap : Bitmap) (index : Nat) : Except BitmapPanic Bitmap := do
  let (word, mask) ← bitmapTranslate bitmap index
  ensure (bitmap.map word &&& mask = 0#32) .free
  return { bitmap with map := update bitmap.map word (bitmap.map word ||| mask) }

end Ucore
