import Flood.Lib.CString
import Flood.Lib.Percent
import Flood.Lib.Word

/-!
# The HTTP announce

The query that `http_tracker_request` builds. The functions of the URI library are parameters, with what
is documented of them.

* `HttpTrackerRequest` — a request, with its two identifiers of 20 bytes.
* `httpTrackerRequest` — the query; `none` where a string does not end, or does not fit its buffer.
* `params_of_query` — what a tracker reads under `info_hash` and `peer_id`: the escaped text of what lies
  in memory up to a NUL.
* `Delivers` — the tracker reads the identifiers.
* `never_delivers` — it does not: the identifiers are taken for C strings, and the escaped text is escaped
  again.
-/

namespace Flood.Http

open Flood.Lib

/-- A request.
Source: `http_protocol.h`, `http_tracker_request_t` -/
structure HttpTrackerRequest where
  /-- The torrent. -/
  infoHash : Vector UInt8 20
  /-- The client. -/
  peerId : Vector UInt8 20
  /-- The client's port. -/
  port : Int32
  /-- Bytes uploaded. -/
  uploaded : Int32
  /-- Bytes downloaded. -/
  downloaded : Int32
  /-- Bytes left. -/
  left : Int32
  /-- Whether peers are wanted as text of six bytes each. -/
  compact : Bool
  /-- Whether peers are wanted without their identifiers. -/
  noPeerId : Bool
  /-- The client's address, if it is not that of the sender. -/
  ip : Option (List UInt8)
  /-- How many peers are wanted. -/
  numwant : Int32
  /-- A key. -/
  key : Option (List UInt8)
  /-- What the tracker gave before. -/
  trackerid : Option (List UInt8)

/-- The memory of a request from its first field on; `beyond` is what lies behind `no_peer_id`. -/
def HttpTrackerRequest.memory (req : HttpTrackerRequest) (beyond : List UInt8) : List UInt8 :=
  req.infoHash.toList ++ (req.peerId.toList ++ (leBytes req.port.toUInt32 ++
    leBytes req.uploaded.toUInt32 ++ leBytes req.downloaded.toUInt32 ++ leBytes req.left.toUInt32 ++
    [req.compact.toUInt8, req.noPeerId.toUInt8] ++ beyond))

/-- The C string at the beginning of some memory; `none` if it does not end there. -/
def cStringAt (memory : List UInt8) : Option (List UInt8) :=
  if 0 ∈ memory then some (cstr memory) else none

/-- `ESCAPE_MULT` -/
def escapeMult : Nat := 6

/-- Write a text and a NUL to a buffer of `20*ESCAPE_MULT` bytes; `none` if they do not fit. -/
def escapedInto (text : List UInt8) : Option (List UInt8) :=
  if text.length + 1 ≤ 20 * escapeMult then some text else none

/-- The characters that `asprintf` prints for `%d`. -/
def decimalString (n : Int32) : List UInt8 :=
  (if n.toInt < 0 then [45] else []) ++ printNat n.toInt.natAbs

/-- `"1"` or `"0"` -/
def flagString (b : Bool) : List UInt8 := if b then [49] else [48]

/-- `"info_hash"` -/
def infoHashKey : List UInt8 := [105, 110, 102, 111, 95, 104, 97, 115, 104]

/-- `"peer_id"` -/
def peerIdKey : List UInt8 := [112, 101, 101, 114, 95, 105, 100]

/-- `"port"` -/
def portKey : List UInt8 := [112, 111, 114, 116]

/-- `"uploaded"` -/
def uploadedKey : List UInt8 := [117, 112, 108, 111, 97, 100, 101, 100]

/-- `"downloaded"` -/
def downloadedKey : List UInt8 := [100, 111, 119, 110, 108, 111, 97, 100, 101, 100]

/-- `"left"` -/
def leftKey : List UInt8 := [108, 101, 102, 116]

/-- `"compact"` -/
def compactKey : List UInt8 := [99, 111, 109, 112, 97, 99, 116]

/-- `"no_peer_id"` -/
def noPeerIdKey : List UInt8 := [110, 111, 95, 112, 101, 101, 114, 95, 105, 100]

/-- `"ip"` -/
def ipKey : List UInt8 := [105, 112]

/-- `"numwant"` -/
def numwantKey : List UInt8 := [110, 117, 109, 119, 97, 110, 116]

/-- `"key"` -/
def keyKey : List UInt8 := [107, 101, 121]

/-- `"trackerid"` -/
def trackeridKey : List UInt8 := [116, 114, 97, 99, 107, 101, 114, 105, 100]

/-- The list behind `base`, which `uri_query_list_append` makes longer at its end. -/
def queryList (req : HttpTrackerRequest) (infoHashEscaped peerIdEscaped : List UInt8) :
    List (List UInt8 × List UInt8) :=
  [(infoHashKey, infoHashEscaped), (peerIdKey, peerIdEscaped), (portKey, decimalString req.port),
    (uploadedKey, decimalString req.uploaded), (downloadedKey, decimalString req.downloaded),
    (leftKey, decimalString req.left), (compactKey, flagString req.compact),
    (noPeerIdKey, flagString req.noPeerId)] ++
  (req.ip.map fun ip => (ipKey, ip)).toList ++ [(numwantKey, decimalString req.numwant)] ++
  (req.key.map fun key => (keyKey, key)).toList ++
  (req.trackerid.map fun trackerid => (trackeridKey, trackerid)).toList

/-- The query string `query_str`.
Source: `http_protocol.c`, `http_tracker_request` -/
def httpTrackerRequest (uriEscapeA : List UInt8 → List UInt8)
    (uriComposeQueryMallocA : List (List UInt8 × List UInt8) → List UInt8) (beyond : List UInt8)
    (req : HttpTrackerRequest) : Option (List UInt8) := do
  let infoHash ← cStringAt (req.memory beyond)
  let infoHashEscaped ← escapedInto (uriEscapeA infoHash)
  let peerId ← cStringAt ((req.memory beyond).drop 20)
  let peerIdEscaped ← escapedInto (uriEscapeA peerId)
  some (uriComposeQueryMallocA (queryList req infoHashEscaped peerIdEscaped))

/-! ## The library -/

/-- A C string without line breaks. -/
def OneLine (str : List UInt8) : Prop := ∀ c ∈ str, c ≠ 0 ∧ c ≠ 10 ∧ c ≠ 13

instance (str : List UInt8) : Decidable (OneLine str) := List.decidableBAll (fun c => c ≠ 0 ∧ c ≠ 10 ∧ c ≠ 13) str

/-- `uriEscapeA` percent-encodes C strings, spaces as `+`, line breaks as they are. -/
def Escapes (uriEscapeA : List UInt8 → List UInt8) : Prop := Encodes uriEscapeA NulFree

/-- `uriComposeQueryMallocA` percent-encodes keys and values, spaces as `+`. Line breaks are
normalised. -/
def Composes (uriComposeQueryMallocA : List (List UInt8 × List UInt8) → List UInt8) : Prop :=
  ∃ encode, Encodes encode OneLine ∧
    ∀ pairs, pairs ≠ [] → uriComposeQueryMallocA pairs = composeQuery encode pairs

variable {uriEscapeA : List UInt8 → List UInt8}
  {uriComposeQueryMallocA : List (List UInt8 × List UInt8) → List UInt8} {beyond : List UInt8}
  {req : HttpTrackerRequest} {query : List UInt8}

/-- An escaped text has no line breaks. -/
theorem Escapes.oneLine (h : Escapes uriEscapeA) (str : List UInt8) : OneLine (uriEscapeA str) := by
  have hnot : ∀ b, isQueryChar b = false → ∀ c ∈ uriEscapeA str, c ≠ b := by
    rintro b hb c hc rfl
    exact h.not_mem hb str hc
  exact fun c hc => ⟨hnot 0 rfl c hc, hnot 10 rfl c hc, hnot 13 rfl c hc⟩

/-! ## What the tracker reads -/

/-- **The parameters of the query**, decoded once: the escaped texts of the C strings that begin with the
identifiers. -/
theorem params_of_query (hescape : Escapes uriEscapeA) (hcompose : Composes uriComposeQueryMallocA)
    (h : httpTrackerRequest uriEscapeA uriComposeQueryMallocA beyond req = some query) :
    param infoHashKey query = some (uriEscapeA (cstr (req.memory beyond))) ∧
      param peerIdKey query = some (uriEscapeA (cstr ((req.memory beyond).drop 20))) := by
  obtain ⟨encode, hencode, hcomposed⟩ := hcompose
  unfold httpTrackerRequest cStringAt escapedInto at h
  simp only [Option.bind_eq_bind, Option.bind_eq_some_iff, Option.ite_none_right_eq_some,
    Option.some.injEq] at h
  obtain ⟨hash, ⟨-, rfl⟩, hashText, ⟨-, rfl⟩, peer, ⟨-, rfl⟩, peerText, ⟨-, rfl⟩, rfl⟩ := h
  have hread : ∀ str, OneLine str → percentDecode (encode str) = str := hencode.decode
  have hhash : OneLine infoHashKey := by decide
  have hpeer : OneLine peerIdKey := by decide
  have hkeys : infoHashKey ≠ peerIdKey := by decide
  rw [hcomposed _ (by simp [queryList]), param, param, queryPairs_composeQuery hencode (by simp [queryList]),
    queryList]
  simp only [List.cons_append, List.map_cons, hread _ hhash, hread _ hpeer, hread _ (hescape.oneLine _),
    List.find?_cons, decide_true, decide_eq_false hkeys, Option.map_some, and_self]

/-- What the tracker reads under `info_hash` and `peer_id` are the identifiers. -/
def Delivers (result : Option (List UInt8)) (req : HttpTrackerRequest) : Prop :=
  ∃ query, result = some query ∧ param infoHashKey query = some req.infoHash.toList ∧
    param peerIdKey query = some req.peerId.toList

/-- **The identifiers are never delivered.** If the escaped text were the hash itself, the C string that
begins with the hash would end with it, and the identifier of the client would begin with a NUL. -/
theorem never_delivers (hescape : Escapes uriEscapeA) (hcompose : Composes uriComposeQueryMallocA)
    (beyond : List UInt8) (req : HttpTrackerRequest) :
    ¬ Delivers (httpTrackerRequest uriEscapeA uriComposeQueryMallocA beyond req) req := by
  rintro ⟨query, hquery, hhash, hpeer⟩
  obtain ⟨hhash', hpeer'⟩ := params_of_query hescape hcompose hquery
  have hhashText : uriEscapeA (cstr (req.memory beyond)) = req.infoHash.toList :=
    Option.some.inj (hhash'.symm.trans hhash)
  have hpeerText : uriEscapeA (cstr ((req.memory beyond).drop 20)) = req.peerId.toList :=
    Option.some.inj (hpeer'.symm.trans hpeer)
  have hnul : NulFree req.infoHash.toList := by
    rw [← hhashText]
    exact fun c hc => (hescape.oneLine _ c hc).1
  have hdrop : (req.memory beyond).drop 20 = req.peerId.toList ++ (leBytes req.port.toUInt32 ++
      leBytes req.uploaded.toUInt32 ++ leBytes req.downloaded.toUInt32 ++ leBytes req.left.toUInt32 ++
      [req.compact.toUInt8, req.noPeerId.toUInt8] ++ beyond) :=
    List.drop_left' req.infoHash.length_toList
  have hsplit : cstr (req.memory beyond) =
      req.infoHash.toList ++ cstr ((req.memory beyond).drop 20) := by
    rw [hdrop]
    exact cstr_append hnul _
  have hdecoded := hescape.decode _ (nulFree_cstr (req.memory beyond))
  have hle := length_percentDecode_le (uriEscapeA (cstr (req.memory beyond)))
  rw [hdecoded, hhashText, hsplit, List.length_append] at hle
  have hrest : cstr ((req.memory beyond).drop 20) = [] := List.length_eq_zero_iff.mp (by omega)
  have hempty := hescape.decode _ (nulFree_cstr ((req.memory beyond).drop 20))
  rw [hpeerText, hrest] at hempty
  have hlen := congrArg List.length (percentDecode_eq_nil hempty)
  rw [Vector.length_toList] at hlen
  exact absurd hlen (by decide)

/-- The request of `tracker_announce_http`, with these identifiers. -/
def announceRequest (infoHash peerId : Vector UInt8 20) : HttpTrackerRequest where
  infoHash := infoHash
  peerId := peerId
  port := 0
  uploaded := 0
  downloaded := 0
  left := 0
  compact := true
  noPeerId := false
  -- "0.0.0.0"
  ip := some [48, 46, 48, 46, 48, 46, 48]
  numwant := 21
  key := none
  trackerid := none

/-- A hash of bytes that stand for themselves. -/
theorem never_delivers_example :
    ¬ Delivers (httpTrackerRequest percentEncode (composeQuery percentEncode) []
      (announceRequest (Vector.replicate 20 97) (Vector.replicate 20 98)))
      (announceRequest (Vector.replicate 20 97) (Vector.replicate 20 98)) :=
  never_delivers (encodes_percentEncode NulFree)
    ⟨percentEncode, encodes_percentEncode OneLine, fun _ _ => rfl⟩ [] _

/-- Of a hash of bytes 1 the tracker reads `%01%01...`, and the identifier of the client behind it; the
escaped text of bytes above 127 does not fit the buffer. -/
theorem identifiers_lost :
    (httpTrackerRequest percentEncode (composeQuery percentEncode) []
        (announceRequest (Vector.replicate 20 1) (Vector.replicate 20 98))).bind (param infoHashKey) =
      some ((List.replicate 20 [37, 48, 49]).flatten ++ List.replicate 20 98) ∧
    ¬ Delivers (httpTrackerRequest percentEncode (composeQuery percentEncode) []
        (announceRequest (Vector.replicate 20 1) (Vector.replicate 20 98)))
      (announceRequest (Vector.replicate 20 1) (Vector.replicate 20 98)) ∧
    httpTrackerRequest percentEncode (composeQuery percentEncode) []
      (announceRequest (Vector.replicate 20 200) (Vector.replicate 20 200)) = none := by
  have hread : (httpTrackerRequest percentEncode (composeQuery percentEncode) []
        (announceRequest (Vector.replicate 20 1) (Vector.replicate 20 98))).bind (param infoHashKey) =
      some ((List.replicate 20 [37, 48, 49]).flatten ++ List.replicate 20 98) := by
    decide +kernel
  refine ⟨hread, ?_, by decide +kernel⟩
  rintro ⟨query, hquery, hhash, -⟩
  rw [hquery, Option.bind_some, hhash, Option.some.injEq] at hread
  exact absurd (congrArg List.length hread) (by decide)

end Flood.Http
