import Flood.Hashtable.Table
import Flood.Lib.CString

/-!
# Bencode values

The `bencode_value` tree and its dictionaries, which are hash tables keyed by C strings.

* `CharPtr` — a pointer to a NUL-terminated block; `hashFuncStr` and `cmpFuncStr` read it up to the
  first NUL, and `strKeys_lawful` says that they fit together.
* `BencodeValue`, with `fold` for functions that go down the tree and `induct` for proofs.
* `Forall P v` — every node of the tree `v` satisfies `P`; `children` — the nodes right below.
* `shifted` — a value at another position, with the addresses of its strings forgotten.
* `Tree` and `denote` — what a value means: lists in order, dictionaries as maps from key contents.
-/

namespace Flood.Bencode

open Flood.Lib Flood.Hashtable

/-! ## Keys -/

/-- An address of a 64-bit host. The most significant byte of a pointer is zero. -/
abbrev Addr := Fin (2 ^ 56)

/-- There is an address. -/
instance neZero_addr : NeZero (2 ^ 56 : Nat) := ⟨by decide⟩

/-- A pointer to a block of bytes with a NUL behind them. -/
structure CharPtr where
  /-- The address. -/
  addr : Addr
  /-- The bytes of the block, the NUL behind them left out. -/
  bytes : List UInt8
  deriving DecidableEq

/-- The C string a pointer points to. -/
def CharPtr.str (p : CharPtr) : List UInt8 := cstr p.bytes

/-- A `char`, which is signed, as the `unsigned int` it is converted to by `^=`. -/
def signExtend (c : UInt8) : UInt32 :=
  if c < 128 then c.toUInt32 else c.toUInt32 + 0xFFFFFF00

/-- Hash the bytes of a C string.
Source: `hashtable.c`, `fnv_1a_hash_str` -/
def fnv1aHashStr (str : List UInt8) : UInt32 :=
  str.foldl (fun hash c => (hash ^^^ signExtend c) * 16777619) 2166136261

/-- The hash function of dictionaries.
Source: `hashtable.h`, `hash_func_str` -/
def hashFuncStr (p : CharPtr) : UInt32 := fnv1aHashStr p.str

/-- The comparison function of dictionaries.
Source: `hashtable.h`, `cmp_func_str` -/
def cmpFuncStr (p q : CharPtr) : Int := strcmp p.str q.str

/-- Keys compare equal iff they point to the same C string. -/
theorem cmpFuncStr_eq_zero_iff {p q : CharPtr} : cmpFuncStr p q = 0 ↔ p.str = q.str :=
  strcmp_eq_zero_iff (nulFree_cstr _) (nulFree_cstr _)

/-- **Hashing and comparing C strings fit together.** -/
theorem strKeys_lawful : LawfulKeys hashFuncStr cmpFuncStr where
  refl _ := cmpFuncStr_eq_zero_iff.mpr rfl
  symm h := cmpFuncStr_eq_zero_iff.mpr (cmpFuncStr_eq_zero_iff.mp h).symm
  trans h h' :=
    cmpFuncStr_eq_zero_iff.mpr ((cmpFuncStr_eq_zero_iff.mp h).trans (cmpFuncStr_eq_zero_iff.mp h'))
  hash h := congrArg fnv1aHashStr (cmpFuncStr_eq_zero_iff.mp h)

/-! ## Values -/

/-- A byte string. The pointer is `none` where `calloc` gives no block of that size.
Source: `bencode.h`, `bencode_string` -/
structure BencodeString where
  /-- Points to the bytes. -/
  ptr : Option CharPtr
  /-- The number of bytes. -/
  len : Int
  deriving DecidableEq

/-- A value, with the positions of its first and its last byte in the text it was parsed from.
Source: `bencode.h`, `bencode_value` -/
inductive BencodeValue where
  /-- A byte string. -/
  | string (string : BencodeString) (start stop : Int)
  /-- An integer. -/
  | integer (integer : Int) (start stop : Int)
  /-- A list. -/
  | list (list : List BencodeValue) (start stop : Int)
  /-- A dictionary. -/
  | dict (dict : Table CharPtr BencodeValue) (start stop : Int)

/-- A dictionary.
Source: `bencode.h`, `bencode_dict` -/
abbrev BencodeDict := Table CharPtr BencodeValue

namespace BencodeValue

/-- The position of the first byte. -/
def start : BencodeValue → Int
  | string _ start _ | integer _ start _ | list _ start _ | dict _ start _ => start

/-- The position of the last byte; the field `end` of the source. -/
def stop : BencodeValue → Int
  | string _ _ stop | integer _ _ stop | list _ _ stop | dict _ _ stop => stop

/-! ### Going down the tree -/

section Fold

variable {α : Type} (fstring : BencodeString → Int → Int → α) (finteger : Int → Int → Int → α)
  (flist : List α → Int → Int → α) (fdict : Table CharPtr α → Int → Int → α)

mutual

/-- Replace every constructor by a function. -/
def fold : BencodeValue → α
  | string s start stop => fstring s start stop
  | integer n start stop => finteger n start stop
  | list elems start stop => flist (foldList elems) start stop
  | dict ⟨size, cap, buckets⟩ start stop => fdict ⟨size, cap, foldBuckets buckets⟩ start stop

/-- `fold` on the elements of a list. -/
def foldList : List BencodeValue → List α
  | [] => []
  | v :: elems => fold v :: foldList elems

/-- `fold` on the buckets of a dictionary. -/
def foldBuckets : List (List (CharPtr × BencodeValue)) → List (List (CharPtr × α))
  | [] => []
  | chain :: buckets => foldChain chain :: foldBuckets buckets

/-- `fold` on the values of a chain. -/
def foldChain : List (CharPtr × BencodeValue) → List (CharPtr × α)
  | [] => []
  | (key, v) :: chain => (key, fold v) :: foldChain chain

end

variable {fstring finteger flist fdict}

@[simp] theorem fold_string (s : BencodeString) (start stop : Int) :
    fold fstring finteger flist fdict (string s start stop) = fstring s start stop := by
  rw [fold]

@[simp] theorem fold_integer (n start stop : Int) :
    fold fstring finteger flist fdict (integer n start stop) = finteger n start stop := by
  rw [fold]

/-- The elements are replaced one by one. -/
@[simp] theorem fold_list (elems : List BencodeValue) (start stop : Int) :
    fold fstring finteger flist fdict (list elems start stop) =
      flist (elems.map (fold fstring finteger flist fdict)) start stop := by
  rw [fold]
  congr 1
  induction elems with
  | nil => rw [foldList, List.map_nil]
  | cons v elems ih => rw [foldList, ih, List.map_cons]

/-- The values are replaced one by one, in place. -/
@[simp] theorem fold_dict (t : BencodeDict) (start stop : Int) :
    fold fstring finteger flist fdict (dict t start stop) =
      fdict (t.map id (fold fstring finteger flist fdict)) start stop := by
  obtain ⟨size, cap, buckets⟩ := t
  have hchain : ∀ chain, foldChain fstring finteger flist fdict chain =
      chain.map (Prod.map id (fold fstring finteger flist fdict)) := by
    intro chain
    induction chain with
    | nil => rw [foldChain, List.map_nil]
    | cons e chain ih =>
        rw [foldChain, ih, List.map_cons]
        rfl
  have hbuckets : foldBuckets fstring finteger flist fdict buckets =
      buckets.map (List.map (Prod.map id (fold fstring finteger flist fdict))) := by
    induction buckets with
    | nil => rw [foldBuckets, List.map_nil]
    | cons chain buckets ih => rw [foldBuckets, ih, hchain, List.map_cons]
  rw [fold, hbuckets, Table.map]

end Fold

/-- Induction along the tree: over the elements of a list, and over the entries of a dictionary. -/
theorem induct {motive : BencodeValue → Prop}
    (hstring : ∀ s start stop, motive (string s start stop))
    (hinteger : ∀ n start stop, motive (integer n start stop))
    (hlist : ∀ elems start stop, (∀ v ∈ elems, motive v) → motive (list elems start stop))
    (hdict : ∀ (t : BencodeDict) start stop, (∀ e ∈ t.entries, motive e.2) →
      motive (dict t start stop)) :
    ∀ v, motive v := by
  intro v
  refine @BencodeValue.rec motive (fun elems => ∀ v ∈ elems, motive v)
    (fun t => ∀ e ∈ t.entries, motive e.2) (fun buckets => ∀ e ∈ buckets.flatten, motive e.2)
    (fun chain => ∀ e ∈ chain, motive e.2) (fun e => motive e.2)
    hstring hinteger hlist hdict ?nil ?cons ?table ?noBuckets ?buckets ?noEntries ?entries ?entry v
  case nil => exact fun _ h => absurd h List.not_mem_nil
  case cons => exact fun v elems hv helems => List.forall_mem_cons.mpr ⟨hv, helems⟩
  case table => exact fun _ _ _ h => h
  case noBuckets => exact fun _ h => absurd h List.not_mem_nil
  case buckets =>
    intro chain buckets hchain hbuckets e he
    rw [List.flatten_cons, List.mem_append] at he
    exact he.elim (hchain e) (hbuckets e)
  case noEntries => exact fun _ h => absurd h List.not_mem_nil
  case entries => exact fun e chain he hchain => List.forall_mem_cons.mpr ⟨he, hchain⟩
  case entry => exact fun _ _ h => h

/-- Every node of the tree satisfies `P`. -/
inductive Forall (P : BencodeValue → Prop) : BencodeValue → Prop
  | string {s : BencodeString} {start stop : Int} (h : P (string s start stop)) :
      Forall P (string s start stop)
  | integer {n start stop : Int} (h : P (integer n start stop)) : Forall P (integer n start stop)
  | list {elems : List BencodeValue} {start stop : Int} (h : P (list elems start stop))
      (helems : ∀ v ∈ elems, Forall P v) : Forall P (list elems start stop)
  | dict {t : BencodeDict} {start stop : Int} (h : P (dict t start stop))
      (hentries : ∀ e ∈ t.entries, Forall P e.2) : Forall P (dict t start stop)

namespace Forall

variable {P Q : BencodeValue → Prop} {v : BencodeValue}

/-- The root is a node. -/
theorem root (h : Forall P v) : P v := by
  cases h <;> assumption

/-- The nodes of an element are nodes of the list. -/
theorem elem {elems : List BencodeValue} {start stop : Int}
    (h : Forall P (BencodeValue.list elems start stop)) : ∀ v ∈ elems, Forall P v := by
  cases h
  assumption

/-- The nodes of a value are nodes of the dictionary. -/
theorem entry {t : BencodeDict} {start stop : Int} (h : Forall P (BencodeValue.dict t start stop)) :
    ∀ e ∈ t.entries, Forall P e.2 := by
  cases h
  assumption

/-- What follows at every node follows everywhere. -/
theorem imp (hPQ : ∀ v, P v → Q v) (h : Forall P v) : Forall Q v := by
  induction h with
  | string h => exact .string (hPQ _ h)
  | integer h => exact .integer (hPQ _ h)
  | list h _ ih => exact .list (hPQ _ h) ih
  | dict h _ ih => exact .dict (hPQ _ h) ih

/-- Two properties of every node. -/
theorem and (hP : Forall P v) (hQ : Forall Q v) : Forall (fun v => P v ∧ Q v) v := by
  induction hP with
  | string h => exact .string ⟨h, hQ.root⟩
  | integer h => exact .integer ⟨h, hQ.root⟩
  | list h _ ih => exact .list ⟨h, hQ.root⟩ fun v hv => ih v hv (hQ.elem v hv)
  | dict h _ ih => exact .dict ⟨h, hQ.root⟩ fun e he => ih e he (hQ.entry e he)

end Forall

/-- The elements of a list, the values of a dictionary. -/
def children : BencodeValue → List BencodeValue
  | string _ _ _ | integer _ _ _ => []
  | list elems _ _ => elems
  | dict t _ _ => t.entries.map Prod.snd

end BencodeValue

/-! ### Positions and addresses -/

/-- The pointer with no address. -/
def CharPtr.forget (p : CharPtr) : CharPtr := ⟨0, p.bytes⟩

/-- The string with no address. -/
def BencodeString.forget (s : BencodeString) : BencodeString := ⟨s.ptr.map CharPtr.forget, s.len⟩

namespace BencodeValue

/-- The value `k` positions further on, with no addresses. -/
def shifted (k : Int) : BencodeValue → BencodeValue :=
  fold (fun s start stop => string s.forget (start + k) (stop + k))
    (fun n start stop => integer n (start + k) (stop + k))
    (fun elems start stop => list elems (start + k) (stop + k))
    (fun t start stop => dict (t.map CharPtr.forget id) (start + k) (stop + k))

@[simp] theorem shifted_string (k : Int) (s : BencodeString) (start stop : Int) :
    (string s start stop).shifted k = string s.forget (start + k) (stop + k) :=
  fold_string s start stop

@[simp] theorem shifted_integer (k n start stop : Int) :
    (integer n start stop).shifted k = integer n (start + k) (stop + k) :=
  fold_integer n start stop

@[simp] theorem shifted_list (k : Int) (elems : List BencodeValue) (start stop : Int) :
    (list elems start stop).shifted k = list (elems.map (shifted k)) (start + k) (stop + k) :=
  fold_list elems start stop

@[simp] theorem shifted_dict (k : Int) (t : BencodeDict) (start stop : Int) :
    (dict t start stop).shifted k =
      dict (t.map CharPtr.forget (shifted k)) (start + k) (stop + k) := by
  rw [shifted, fold_dict, Table.map_map]
  rfl

end BencodeValue

/-! ## Meaning -/

/-- What a value means, with no addresses, positions or buckets. -/
inductive Tree where
  /-- A byte string. -/
  | string (bytes : List UInt8)
  /-- An integer. -/
  | integer (n : Int)
  /-- The elements in order. -/
  | list (elems : List Tree)
  /-- The value of each key, if it has one. -/
  | dict (get : List UInt8 → Option Tree)

/-- The meaning of a value: of a dictionary, what `hashtable_get` finds under a pointer to a string.
A string whose pointer is no block has no bytes. -/
def denote : BencodeValue → Tree :=
  BencodeValue.fold (fun s _ _ => .string (s.ptr.elim [] CharPtr.bytes)) (fun n _ _ => .integer n)
    (fun elems _ _ => .list elems)
    (fun t _ _ => .dict fun s => t.get hashFuncStr cmpFuncStr ⟨0, s⟩)

@[simp] theorem denote_string (s : BencodeString) (start stop : Int) :
    denote (.string s start stop) = .string (s.ptr.elim [] CharPtr.bytes) :=
  BencodeValue.fold_string s start stop

@[simp] theorem denote_integer (n start stop : Int) :
    denote (.integer n start stop) = .integer n :=
  BencodeValue.fold_integer n start stop

@[simp] theorem denote_list (elems : List BencodeValue) (start stop : Int) :
    denote (.list elems start stop) = .list (elems.map denote) :=
  BencodeValue.fold_list elems start stop

/-- The meaning of a dictionary: the meanings of what is found. -/
theorem denote_dict (t : BencodeDict) (start stop : Int) :
    denote (.dict t start stop) =
      .dict fun s => (t.get hashFuncStr cmpFuncStr ⟨0, s⟩).map denote := by
  rw [denote, BencodeValue.fold_dict, ← denote]
  congr 1
  funext s
  have hget : ∀ k : CharPtr, (t.map id denote).get hashFuncStr cmpFuncStr (id k) =
      (t.get hashFuncStr cmpFuncStr k).map denote := by
    intro k
    exact Table.get_map (fun _ => rfl) (fun _ _ => rfl) k
  exact hget ⟨0, s⟩

end Flood.Bencode
