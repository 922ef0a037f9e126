import Flood.Bencode.Value
import Flood.Lib.Buffer

/-!
# `bencode.c`: the encoder

`bencode_to_string` and the functions it calls: one goes down the value and computes the length, the
other goes down it and writes.

* `declen`, `bToStringLen` — the lengths, in `int`s that wrap.
* `Qsort` — what `qsort` does to an array of pointers to keys; `keyCmp` is the comparison it is given:
  `strcmp`, of the addresses of the elements.
* `bToString` — the writer. `none` where it writes behind the block, copies more than there is to
  copy, reads a slot of the array of keys that was not filled, or follows a pointer that
  `hashtable_get` has not set.
* `bencodeToString` — allocate, and write.

`itoa` and `malloc` are taken to succeed, and so is a `calloc` of a possible size.
-/

namespace Flood.Bencode

open Flood.Lib Flood.Hashtable

/-! ## Lengths -/

/-- The loop of `declen`. An `int` has ten digits at most. -/
def declenLoop : Nat → Int → Int
  | 0, _ => 0
  | fuel + 1, n => if 0 < n then declenLoop fuel (n / 10) + 1 else 0

/-- The number of characters of an `int` in decimal. The smallest `int` is its own opposite.
Source: `bencode.c`, `declen` -/
def declen (n : Int) : Int :=
  if n = 0 then 1 else if n < 0 then declenLoop 10 (wrap32 (-n)) + 1 else declenLoop 10 n

/-- `strlen(key)`, as an `int`. -/
def keyLen (key : CharPtr) : Int := wrap32 key.str.length

/-- Add lengths up. -/
def sumLen (lens : List Int) : Int := lens.foldl (fun sum len => wrap32 (sum + len)) 0

/-- The length of a key and a value whose length is known. -/
def pairLen (key : CharPtr) (valLen : Int) : Int :=
  wrap32 (declen (keyLen key) + 1 + keyLen key + valLen)

/-- The length of the encoding of a value.
Source: `bencode.c`, `b_to_string_len` -/
def bToStringLen : BencodeValue → Int :=
  BencodeValue.fold (fun s _ _ => wrap32 (declen s.len + 1 + s.len))
    (fun n _ _ => 1 + declen (wrap32 n) + 1) (fun lens _ _ => wrap32 (1 + sumLen lens + 1))
    (fun t _ _ => wrap32 (1 + sumLen (t.entries.map fun e => pairLen e.1 e.2) + 1))

/-! ## Sorting keys -/

/-- The bytes of a pointer in memory, up to the first NUL. The last of them is one. -/
def CharPtr.addrStr (p : CharPtr) : List UInt8 := cstr (leBytes64 (UInt64.ofNat p.addr))

/-- The comparison `qsort` is given: `strcmp`, called with the addresses of two elements of the
array, reads the pointers themselves. -/
def keyCmp (p q : CharPtr) : Int := strcmp p.addrStr q.addrStr

/-- What `qsort` does to an array of pointers to keys: it puts them in some order. -/
structure Qsort where
  /-- The array afterwards. -/
  sort : List CharPtr → List CharPtr
  /-- The elements stay the same. -/
  perm : ∀ keys, (sort keys).Perm keys

/-- The order is that of the comparison. -/
def Qsort.Lawful (qsort : Qsort) : Prop :=
  ∀ keys, (qsort.sort keys).Pairwise fun p q => keyCmp p q ≤ 0

/-! ## Writing -/

/-- The characters `sprintf` prints for `%d`.
Source: `bencode.c`, `itoa` -/
def itoa (n : Int) : List UInt8 := (if n < 0 then [45] else []) ++ printNat n.natAbs

/-- The first `n` bytes of a block and the NUL behind it, as `memcpy` reads them. -/
def copied (ptr : Option CharPtr) (n : Int) : Option (List UInt8) :=
  if n < 0 then none
  else if n = 0 then some []
  else
    match ptr with
    | some p => if n ≤ p.bytes.length + 1 then some ((p.bytes ++ [0]).take n.toNat) else none
    | none => none

/-- Something that writes. -/
abbrev Writer := Buffer → Option Buffer

/-- Write a string: its length, `:`, its bytes. -/
def writeString (ptr : Option CharPtr) (len : Int) : Writer := fun b => do
  let b ← b.write (itoa len)
  let b ← b.write [58]
  let bytes ← copied ptr len
  b.write bytes

/-- The array of keys, filled from the entries: with more entries than slots it overflows, with fewer
there is a slot that is read without having been filled. -/
def filledKeys {V : Type} (keysLen : Int) (entries : List (CharPtr × V)) : Option (List CharPtr) :=
  if (entries.length : Int) = keysLen then some (entries.map Prod.fst) else none

/-- One turn of the loop over the keys. -/
def writePair (t : Table CharPtr Writer) (b : Buffer) (key : CharPtr) : Option Buffer := do
  let b ← writeString (some key) (keyLen key) b
  let pairVal ← t.get hashFuncStr cmpFuncStr key
  pairVal b

/-- Write a dictionary whose values are to be written so. -/
def writeDict (qsort : Qsort) (t : Table CharPtr Writer) : Writer := fun b => do
  let b ← b.write [100]
  let keys ← filledKeys t.size t.entries
  let b ← (qsort.sort keys).foldlM (writePair t) b
  b.write [101]

/-- Write a value.
Source: `bencode.c`, `b_to_string` -/
def bToString (qsort : Qsort) : BencodeValue → Writer :=
  BencodeValue.fold (fun s _ _ => writeString s.ptr s.len)
    (fun n _ _ b => do
      let b ← b.write [105]
      let b ← b.write (itoa (wrap32 n))
      b.write [101])
    (fun elems _ _ b => do
      let b ← b.write [108]
      let b ← elems.foldlM (fun b elem => elem b) b
      b.write [101])
    (fun t _ _ => writeDict qsort t)

/-- The block for the encoding. A negative size is no possible one. -/
def encodingBlock (v : BencodeValue) : List UInt8 :=
  List.replicate (wrap32 (bToStringLen v + 1)).toNat 0

/-- Encode a value: the length returned, and the block.
Source: `bencode.c`, `bencode_to_string` -/
def bencodeToString (qsort : Qsort) (v : BencodeValue) : Option (Int × List UInt8) := do
  let b ← bToString qsort v (.ofBlock (encodingBlock v))
  some (bToStringLen v, b.dst)

end Flood.Bencode
