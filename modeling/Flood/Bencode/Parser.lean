import Flood.Bencode.Value

/-!
# `bencode.c`: the parser

`bencode_parse` and the functions it calls, on a memory `string : Nat → Option UInt8` that says
which bytes can be read from the buffer on.

* `Result` — a value with the cursor behind it, or a reason to stop: a returned code, a read where
  nothing can be read, an access through a pointer that is no block.
* `digitLoop`, `copyLoop`, `listLoop`, `dictLoop` — the loops; `bParseString`, `bParseInt`,
  `bParseList`, `bParseDict`, `bParseAny` — the functions; `bencodeParse` — all from position `0`.

Arithmetic on the numerals wraps as on a two's complement machine. The cursor is a natural number:
it passes `len` by one at most, and only after a read at `len`. What addresses `calloc` returns is
given by `place`, for each cursor position at which it is called. `malloc` and a `calloc` of a
possible size are taken to succeed.
-/

namespace Flood.Bencode

open Flood.Lib Flood.Hashtable

/-- Why a run ends without a value. -/
inductive Stop where
  /-- The function returns a code other than `0`. -/
  | code (c : Int)
  /-- A byte is read that cannot be read. -/
  | outOfBounds
  /-- A pointer is followed that points to no block. -/
  | nullDeref
  /-- The bound on the number of steps is reached. -/
  | outOfFuel
  deriving DecidableEq

/-- The outcome of a function, with the cursor. -/
inductive Result (α : Type) where
  /-- A value, and code `0`. -/
  | ok (a : α) (pos : Nat)
  /-- No value. -/
  | stop (why : Stop) (pos : Nat)

namespace Result

variable {α β γ : Type}

/-- Go on with the value, if there is one. -/
def bind (x : Result α) (f : α → Nat → Result β) : Result β :=
  match x with
  | ok a pos => f a pos
  | stop why pos => stop why pos

@[simp] theorem bind_ok (a : α) (pos : Nat) (f : α → Nat → Result β) : (ok a pos).bind f = f a pos :=
  rfl

@[simp] theorem bind_stop (why : Stop) (pos : Nat) (f : α → Nat → Result β) :
    (stop why pos : Result α).bind f = stop why pos :=
  rfl

/-- A sequence ends with a value iff both parts do. -/
theorem bind_eq_ok_iff {x : Result α} {f : α → Nat → Result β} {b : β} {pos' : Nat} :
    x.bind f = ok b pos' ↔ ∃ a pos, x = ok a pos ∧ f a pos = ok b pos' := by
  cases x with
  | ok a pos => simp
  | stop why pos => simp

/-- A sequence stops where its first or its second part does. -/
theorem bind_eq_stop_iff {x : Result α} {f : α → Nat → Result β} {why : Stop} {pos' : Nat} :
    x.bind f = stop why pos' ↔
      x = stop why pos' ∨ ∃ a pos, x = ok a pos ∧ f a pos = stop why pos' := by
  cases x with
  | ok a pos => simp
  | stop why pos => simp

end Result

/-- `EOF_CHECK`: return `-1` unless the cursor is inside.
Source: `bencode.c`, `EOF_CHECK` -/
def eofCheck {α : Type} (len : Int) (pos : Nat) (k : Result α) : Result α :=
  if len ≤ pos then .stop (.code (-1)) pos else k

section Parser

variable (string : Nat → Option UInt8) (len : Int) (place : Nat → Addr)

/-- `string[*pos]` -/
def readByte (pos : Nat) : Result UInt8 :=
  match string pos with
  | none => .stop .outOfBounds pos
  | some c => .ok c pos

/-- `n * 10 + (string[*pos] - '0')` -/
def addDigit (n : Int) (c : UInt8) : Int := wrap32 (wrap32 (n * 10) + digitVal c)

/-- The `while (isdigit(string[*pos]))` loop of `b_parse_string` and `b_parse_int`: the numeral read
so far is `n`. -/
def digitLoop : Nat → Int → Nat → Result Int
  | 0, _, pos => .stop .outOfFuel pos
  | fuel + 1, n, pos =>
      (readByte string pos).bind fun c pos =>
        if isDigit c then
          eofCheck len (pos + 1) (digitLoop fuel (addDigit n c) (pos + 1))
        else .ok n pos

/-- The `for` loop of `b_parse_string`: copy bytes, into a block that is there or not. -/
def copyLoop (block : Bool) : Nat → Nat → Result (List UInt8)
  | 0, pos => .ok [] pos
  | n + 1, pos =>
      eofCheck len pos <|
        (readByte string pos).bind fun c pos =>
          if block then
            (copyLoop block n (pos + 1)).bind fun bytes pos => .ok (c :: bytes) pos
          else .stop .nullDeref pos

/-- Does `calloc(1, n + 1)` give a block? A negative `int` is a size that is too large. A block of no
bytes is one too: it has a few more than were asked for, all zero, so that it reads as the empty C
string. -/
def allocated (n : Int) : Bool := decide (0 ≤ wrap32 (n + 1))

/-- Parse a string whose first digit has been read.
Source: `bencode.c`, `b_parse_string` -/
def bParseString (start : Int) (first : UInt8) (pos : Nat) : Result BencodeValue :=
  (digitLoop string len (len.toNat + 1) (digitVal first) pos).bind fun n pos =>
    (readByte string pos).bind fun c pos =>
      if c ≠ 58 then .stop (.code (-2)) pos
      else
        (copyLoop string len (allocated n) n.toNat (pos + 1)).bind fun bytes pos' =>
          .ok (.string ⟨if allocated n then some ⟨place (pos + 1), bytes⟩ else none, n⟩ start
            (pos' - 1)) pos'

/-- Parse an integer whose `i` has been read.
Source: `bencode.c`, `b_parse_int` -/
def bParseInt (start : Int) (pos : Nat) : Result BencodeValue :=
  eofCheck len pos <|
    (readByte string pos).bind fun sign pos =>
      (digitLoop string len (len.toNat + 1) 0 (if sign = 45 then pos + 1 else pos)).bind
        fun num pos =>
          (readByte string pos).bind fun c pos =>
            if c ≠ 101 then .stop (.code (-2)) pos
            else .ok (.integer (if sign = 45 then wrap32 (num * -1) else num) start pos) (pos + 1)

/-- The `while` loop of `b_parse_list`, which stops at the `e`. -/
def listLoop (any : Nat → Result BencodeValue) : Nat → Nat → Result (List BencodeValue)
  | 0, pos => .stop .outOfFuel pos
  | fuel + 1, pos =>
      (readByte string pos).bind fun c pos =>
        if c = 101 then .ok [] pos
        else
          (any pos).bind fun elem pos =>
            eofCheck len pos <|
              (listLoop any fuel pos).bind fun elems pos => .ok (elem :: elems) pos

/-- Parse a list whose `l` has been read.
Source: `bencode.c`, `b_parse_list` -/
def bParseList (any : Nat → Result BencodeValue) (start : Int) (pos : Nat) : Result BencodeValue :=
  eofCheck len pos <|
    (listLoop string len any (len.toNat + 1) pos).bind fun elems pos =>
      .ok (.list elems start pos) (pos + 1)

/-- The `while` loop of `b_parse_dict`. That the key is a string is checked after its value has been
parsed. -/
def dictLoop (any : Nat → Result BencodeValue) : Nat → BencodeDict → Nat → Result BencodeDict
  | 0, _, pos => .stop .outOfFuel pos
  | fuel + 1, dict, pos =>
      (readByte string pos).bind fun c pos =>
        if c = 101 then .ok dict pos
        else
          (any pos).bind fun key pos =>
            eofCheck len pos <|
              (any pos).bind fun val pos =>
                eofCheck len pos <|
                  match key with
                  | .string ⟨some ptr, _⟩ _ _ =>
                      dictLoop any fuel (dict.put hashFuncStr cmpFuncStr ptr val) pos
                  | .string ⟨none, _⟩ _ _ => .stop .nullDeref pos
                  | _ => .stop (.code (-2)) pos

/-- Parse a dictionary whose `d` has been read.
Source: `bencode.c`, `b_parse_dict` -/
def bParseDict (any : Nat → Result BencodeValue) (start : Int) (pos : Nat) : Result BencodeValue :=
  eofCheck len pos <|
    (dictLoop string len any (len.toNat + 1) Table.init pos).bind fun dict pos =>
      .ok (.dict dict start pos) (pos + 1)

/-- Parse a value; the bound is on how deep values are nested.
Source: `bencode.c`, `b_parse_any` -/
def bParseAny : Nat → Nat → Result BencodeValue
  | 0, pos => .stop .outOfFuel pos
  | depth + 1, pos =>
      eofCheck len pos <|
        (readByte string pos).bind fun c pos =>
          if c = 105 then bParseInt string len pos (pos + 1)
          else if c = 108 then bParseList string len (bParseAny depth) pos (pos + 1)
          else if c = 100 then bParseDict string len (bParseAny depth) pos (pos + 1)
          else if isDigit c then bParseString string len place pos c (pos + 1)
          else .stop (.code (-2)) (pos + 1)

/-- Parse a value at the start of the buffer.
Source: `bencode.c`, `bencode_parse` -/
def bencodeParse : Result BencodeValue := bParseAny string len place (len.toNat + 1) 0

end Parser

end Flood.Bencode
