import Mathlib.Data.List.Basic
import Mathlib.Tactic.Common

/-!
# Percent-encoding and query strings

* `percentEncode`, `percentDecode` — bytes as text of unreserved characters, `%` and `+`, and back, once.
* `Encodes encode P` — what is asked of an encoder: its text is decoded to what it was given, if that
  satisfies `P`, and has no separator in it. `encodes_percentEncode`.
* `length_percentDecode_le`, `percentDecode_eq_nil` — decoding makes nothing longer, and only nothing
  empty.
* `composeQuery`, `param` — a query string from keys and values, and the value of a key in one.
* `queryPairs_composeQuery` — the keys and values of a composed query, decoded once.
-/

namespace Flood.Lib

/-! ## Bytes -/

/-- The characters that stand for themselves. -/
def isUnreserved (c : UInt8) : Bool :=
  (48 ≤ c && c ≤ 57) || (65 ≤ c && c ≤ 90) || (97 ≤ c && c ≤ 122) || c == 45 || c == 46 || c == 95 ||
    c == 126

/-- The hexadecimal digit of a number below 16. -/
def hexDigit (n : Nat) : UInt8 := UInt8.ofNat (if n < 10 then 48 + n else 55 + n)

/-- The number of a hexadecimal digit. -/
def hexVal (c : UInt8) : Option Nat :=
  if 48 ≤ c ∧ c ≤ 57 then some (c.toNat - 48)
  else if 65 ≤ c ∧ c ≤ 70 then some (c.toNat - 55)
  else if 97 ≤ c ∧ c ≤ 102 then some (c.toNat - 87)
  else none

/-- The text of a byte. -/
def encodeByte (c : UInt8) : List UInt8 :=
  if isUnreserved c then [c]
  else if c = 32 then [43]
  else [37, hexDigit (c.toNat / 16), hexDigit (c.toNat % 16)]

/-- The text of some bytes. -/
def percentEncode (bytes : List UInt8) : List UInt8 := bytes.flatMap encodeByte

/-- The byte that two hexadecimal digits stand for. -/
def hexByte (a b : UInt8) : Option UInt8 := do
  let x ← hexVal a
  let y ← hexVal b
  some (UInt8.ofNat (16 * x + y))

/-- The bytes of a text: a `%` stands with two digits for a byte, a `+` for a space. -/
def percentDecode : List UInt8 → List UInt8
  | [] => []
  | [c] => [if c = 43 then 32 else c]
  | [c, a] => (if c = 43 then 32 else c) :: percentDecode [a]
  | c :: a :: b :: rest =>
      match (if c = 37 then hexByte a b else none) with
      | some byte => byte :: percentDecode rest
      | none => (if c = 43 then 32 else c) :: percentDecode (a :: b :: rest)

/-- A character other than `%` is decoded by itself. -/
theorem percentDecode_cons {c : UInt8} (h : c ≠ 37) (text : List UInt8) :
    percentDecode (c :: text) = (if c = 43 then 32 else c) :: percentDecode text := by
  match text with
  | [] => rfl
  | [a] => rfl
  | a :: b :: rest => rw [percentDecode, if_neg h]

theorem hexVal_hexDigit : ∀ n < 16, hexVal (hexDigit n) = some n := by
  decide

/-- The digits of a byte stand for it. -/
theorem hexByte_hexDigit (c : UInt8) :
    hexByte (hexDigit (c.toNat / 16)) (hexDigit (c.toNat % 16)) = some c := by
  have hc := c.toNat_lt
  rw [hexByte, hexVal_hexDigit _ (by omega), hexVal_hexDigit _ (by omega), Option.bind_eq_bind,
    Option.bind_some, Option.bind_some, Nat.div_add_mod, UInt8.ofNat_toNat]

/-- The text of a byte is decoded to the byte. -/
theorem percentDecode_encodeByte (c : UInt8) (text : List UInt8) :
    percentDecode (encodeByte c ++ text) = c :: percentDecode text := by
  unfold encodeByte
  split_ifs with hself hspace
  · have hpercent : c ≠ 37 := by
      rintro rfl
      exact absurd hself (by decide)
    have hplus : c ≠ 43 := by
      rintro rfl
      exact absurd hself (by decide)
    rw [List.singleton_append, percentDecode_cons hpercent, if_neg hplus]
  · rw [List.singleton_append, percentDecode_cons (by decide), if_pos rfl, hspace]
  · rw [List.cons_append, List.cons_append, List.cons_append, List.nil_append, percentDecode, if_pos rfl,
      hexByte_hexDigit]

/-- **Decoding undoes encoding.** -/
theorem percentDecode_percentEncode (bytes : List UInt8) :
    percentDecode (percentEncode bytes) = bytes := by
  induction bytes with
  | nil => rfl
  | cons c bytes ih =>
      rw [percentEncode, List.flatMap_cons, percentDecode_encodeByte, ← percentEncode, ih]

/-- Decoding makes nothing longer. -/
theorem length_percentDecode_le (text : List UInt8) :
    (percentDecode text).length ≤ text.length := by
  fun_induction percentDecode text with
  | case1 => exact Nat.le_refl _
  | case2 c => exact Nat.le_refl _
  | case3 c a ih =>
      rw [List.length_cons]
      exact Nat.succ_le_succ ih
  | case4 c a b rest byte hbyte ih =>
      rw [List.length_cons]
      have hlonger : (c :: a :: b :: rest).length = rest.length + 3 := rfl
      omega
  | case5 c a b rest hbyte ih =>
      rw [List.length_cons]
      exact Nat.succ_le_succ ih

/-- Only nothing is decoded to nothing. -/
theorem percentDecode_eq_nil {text : List UInt8} (h : percentDecode text = []) : text = [] := by
  match text with
  | [] => rfl
  | [c] => cases h
  | [c, a] => cases h
  | c :: a :: b :: rest =>
      rw [percentDecode] at h
      split at h
      · cases h
      · cases h

/-! ## Encoders -/

/-- A character of an encoded text. -/
def isQueryChar (c : UInt8) : Bool := isUnreserved c || c == 37 || c == 43

/-- The text is decoded to what was encoded, if that satisfies `P`, and has no separator in it. -/
structure Encodes (encode : List UInt8 → List UInt8) (P : List UInt8 → Prop) : Prop where
  /-- Decoding undoes encoding. -/
  decode : ∀ bytes, P bytes → percentDecode (encode bytes) = bytes
  /-- All characters are those of a text. -/
  chars : ∀ bytes, ∀ c ∈ encode bytes, isQueryChar c = true

/-- A character that is none of a text is not in one. -/
theorem Encodes.not_mem {encode : List UInt8 → List UInt8} {P : List UInt8 → Prop}
    (h : Encodes encode P) {c : UInt8} (hc : isQueryChar c = false) (bytes : List UInt8) :
    c ∉ encode bytes := by
  intro hmem
  rw [h.chars bytes c hmem] at hc
  cases hc

/-- A digit is a character of a text. -/
theorem isQueryChar_hexDigit : ∀ n < 16, isQueryChar (hexDigit n) = true := by
  decide

/-- Percent-encoding is an encoder. -/
theorem encodes_percentEncode (P : List UInt8 → Prop) : Encodes percentEncode P where
  decode bytes _ := percentDecode_percentEncode bytes
  chars bytes c hc := by
    obtain ⟨b, -, hc⟩ := List.mem_flatMap.mp hc
    have hb := b.toNat_lt
    unfold encodeByte at hc
    split_ifs at hc with hself hspace
    · rw [List.mem_singleton.mp hc, isQueryChar, hself]
      rfl
    · rw [List.mem_singleton.mp hc]
      rfl
    · rcases List.mem_cons.mp hc with rfl | hc
      · rfl
      rcases List.mem_cons.mp hc with rfl | hc
      · exact isQueryChar_hexDigit _ (by omega)
      · rw [List.mem_singleton.mp hc]
        exact isQueryChar_hexDigit _ (by omega)

/-! ## Queries -/

/-- `key=value`, encoded. -/
def queryItem (encode : List UInt8 → List UInt8) (pair : List UInt8 × List UInt8) : List UInt8 :=
  encode pair.1 ++ 61 :: encode pair.2

/-- The items of a query, with `&` between them. -/
def composeQuery (encode : List UInt8 → List UInt8) (pairs : List (List UInt8 × List UInt8)) :
    List UInt8 := [38].intercalate (pairs.map (queryItem encode))

/-- The key and the value of an item, decoded once. -/
def readItem (item : List UInt8) : List UInt8 × List UInt8 :=
  (percentDecode (item.takeWhile (· != 61)), percentDecode ((item.dropWhile (· != 61)).drop 1))

/-- The keys and values of a query, decoded once. -/
def queryPairs (query : List UInt8) : List (List UInt8 × List UInt8) := (query.splitOn 38).map readItem

/-- The value of the first item with a key, decoded once. -/
def param (key : List UInt8) (query : List UInt8) : Option (List UInt8) :=
  ((queryPairs query).find? fun pair => pair.1 = key).map Prod.snd

/-- An item is read as it was encoded. -/
theorem readItem_queryItem {encode : List UInt8 → List UInt8} {P : List UInt8 → Prop}
    (h : Encodes encode P) (pair : List UInt8 × List UInt8) :
    readItem (queryItem encode pair) = (percentDecode (encode pair.1), percentDecode (encode pair.2)) := by
  have hkey : ∀ c ∈ encode pair.1, (c != 61) = true := by
    intro c hc
    rw [bne_iff_ne]
    rintro rfl
    exact h.not_mem (by decide) pair.1 hc
  have htake : (61 :: encode pair.2).takeWhile (fun c : UInt8 => c != 61) = [] :=
    List.takeWhile_cons_of_neg (by decide)
  have hdrop : (61 :: encode pair.2).dropWhile (fun c : UInt8 => c != 61) = 61 :: encode pair.2 :=
    List.dropWhile_cons_of_neg (by decide)
  rw [readItem, queryItem, List.takeWhile_append_of_pos hkey, List.dropWhile_append_of_pos hkey, htake,
    hdrop, List.append_nil, List.drop_one, List.tail_cons]

/-- **The keys and values of a composed query.** -/
theorem queryPairs_composeQuery {encode : List UInt8 → List UInt8} {P : List UInt8 → Prop}
    (h : Encodes encode P) {pairs : List (List UInt8 × List UInt8)} (hne : pairs ≠ []) :
    queryPairs (composeQuery encode pairs) =
      pairs.map fun pair => (percentDecode (encode pair.1), percentDecode (encode pair.2)) := by
  have hapart : ∀ item ∈ pairs.map (queryItem encode), (38 : UInt8) ∉ item := by
    intro item hitem hmem
    obtain ⟨pair, -, rfl⟩ := List.mem_map.mp hitem
    rcases List.mem_append.mp hmem with hmem | hmem
    · exact h.not_mem (by decide) pair.1 hmem
    · rcases List.mem_cons.mp hmem with heq | hmem
      · exact absurd heq (by decide)
      · exact h.not_mem (by decide) pair.2 hmem
  have hnonempty : pairs.map (queryItem encode) ≠ [] := by
    rwa [ne_eq, List.map_eq_nil_iff]
  rw [queryPairs, composeQuery, List.splitOn_intercalate 38 hapart hnonempty, List.map_map]
  exact List.map_congr_left fun pair _ => readItem_queryItem h pair

end Flood.Lib
