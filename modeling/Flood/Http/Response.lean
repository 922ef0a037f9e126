import Flood.Bencode.Cuts
import Flood.Bencode.Progress

/-!
# The answer to an HTTP announce

The body of a tracker's answer, which libcurl hands to `curl_write_memory_cb` piece by piece, and what
`bencode_parse` makes of it.

* `CurlMemoryBuf` — the block and the bytes in it; a byte that nobody has written is `none`.
* `curlWriteMemoryCb_spec` — a piece is put behind those before it, with a NUL at the end.
* `curlPerform_spec` — so are all pieces, however the body is cut.
* `parseResponse` — the start of the body is printed, if libcurl reports no error, and the body is
  parsed.
* `response_parsed` — if there was a piece, or an error, what is made of the body depends on the body
  alone: nothing but the bytes received and the NUL is read, a value is returned iff a prefix of the
  body is the text of one, and a body that breaks off inside a text is rejected. Without a piece and
  without an error, a byte is printed that nobody has written.
-/

namespace Flood.Http

open Flood.Lib Flood.Bencode

/-! ## The callback -/

/-- The memory that a body is collected in.
Source: `http_protocol.c`, `curl_memory_buf` -/
structure CurlMemoryBuf where
  /-- The block. -/
  data : List (Option UInt8)
  /-- The number of bytes received. -/
  size : Nat

/-- `malloc(1)`, and no byte received. -/
def CurlMemoryBuf.fresh : CurlMemoryBuf := ⟨[none], 0⟩

/-- A number as a `size_t`. -/
def sizeT (n : Nat) : Nat := n % 18446744073709551616

/-- `realloc(block, n)` -/
def realloc (block : List (Option UInt8)) (n : Nat) : List (Option UInt8) :=
  block.take n ++ List.replicate (n - block.length) none

/-- Append what libcurl has received; the number of bytes taken. `none` if bytes are read or written
where there are none.
Source: `http_protocol.c`, `curl_write_memory_cb` -/
def curlWriteMemoryCb (contents : List UInt8) (size nmemb : Nat) (mem : CurlMemoryBuf) :
    Option (Nat × CurlMemoryBuf) :=
  let realsize := sizeT (size * nmemb)
  let data := realloc mem.data (sizeT (mem.size + realsize + 1))
  if realsize ≤ contents.length ∧ mem.size + realsize ≤ data.length then
    let data := data.take mem.size ++ (contents.take realsize).map some ++
      data.drop (mem.size + realsize)
    let size := sizeT (mem.size + realsize)
    if size < data.length then some (realsize, ⟨data.set size (some 0), size⟩) else none
  else none

/-- What libcurl hands over at a time: `nmemb` members of `size` bytes. -/
structure Piece where
  /-- The bytes. -/
  contents : List UInt8
  /-- The size of a member. -/
  size : Nat
  /-- The number of members. -/
  nmemb : Nat
  /-- There are as many bytes. -/
  length_eq : contents.length = size * nmemb

/-- The body that some pieces are cut from. -/
def body (pieces : List Piece) : List UInt8 := pieces.flatMap Piece.contents

/-- The calls of the callback that `curl_easy_perform` makes. It makes no more when one takes less than
it is given. -/
def curlPerform : List Piece → CurlMemoryBuf → Option CurlMemoryBuf
  | [], mem => some mem
  | piece :: pieces, mem => do
      let (taken, mem) ← curlWriteMemoryCb piece.contents piece.size piece.nmemb mem
      if taken = piece.size * piece.nmemb then curlPerform pieces mem else some mem

/-- The bytes that can be read from `data` on. -/
def CurlMemoryBuf.string (mem : CurlMemoryBuf) : Nat → Option UInt8 := fun i => mem.data[i]?.join

/-- What `printf` prints for `%.*s`: the bytes up to the first NUL, as many as the precision says at
most. -/
def printfString (string : Nat → Option UInt8) : Nat → Nat → Result (List UInt8)
  | 0, pos => .ok [] pos
  | precision + 1, pos =>
      (readByte string pos).bind fun c pos =>
        if c = 0 then .ok [] pos
        else (printfString string precision (pos + 1)).bind fun cs pos => .ok (c :: cs) pos

/-- What `http_tracker_request` does with the block behind `curl_easy_perform`: it prints the start of
what has been received, if `curl_rescode` is `CURLE_OK`, and parses it in any case. What is printed is left
out, and so is the `0` that it returns whatever the parser says.
Source: `http_protocol.c`, `http_tracker_request` -/
def parseResponse (place : Nat → Addr) (ok : Bool) (mem : CurlMemoryBuf) : Result BencodeValue :=
  (if ok then printfString mem.string 30 0 else .ok [] 0).bind fun _ _ =>
    bencodeParse mem.string (wrap32 mem.size) place

/-! ## Collecting the body -/

/-- The block holds what has been received, and one byte more. -/
structure Holds (mem : CurlMemoryBuf) (received : List UInt8) : Prop where
  /-- The counter. -/
  size_eq : mem.size = received.length
  /-- The bytes. -/
  take_eq : mem.data.take received.length = received.map some
  /-- The byte more. -/
  length_eq : mem.data.length = received.length + 1

/-- The block with the NUL. -/
def CurlMemoryBuf.filled (received : List UInt8) : CurlMemoryBuf :=
  ⟨(received ++ [0]).map some, received.length⟩

theorem Holds.fresh : Holds .fresh [] := ⟨rfl, rfl, rfl⟩

theorem Holds.filled (received : List UInt8) : Holds (.filled received) received := by
  refine ⟨rfl, ?_, ?_⟩
  · rw [CurlMemoryBuf.filled, List.map_append, List.take_left' (List.length_map some)]
  · rw [CurlMemoryBuf.filled, List.length_map, List.length_append, List.length_singleton]

/-- A number that fits. -/
theorem sizeT_of_lt {n : Nat} (h : n < 18446744073709551616) : sizeT n = n := Nat.mod_eq_of_lt h

/-- **A piece is appended**, and a NUL behind it. -/
theorem curlWriteMemoryCb_spec {mem : CurlMemoryBuf} {received : List UInt8} (h : Holds mem received)
    (piece : Piece) (hfit : received.length + piece.contents.length + 1 < 18446744073709551616) :
    curlWriteMemoryCb piece.contents piece.size piece.nmemb mem =
      some (piece.size * piece.nmemb, .filled (received ++ piece.contents)) := by
  have hreal : sizeT (piece.size * piece.nmemb) = piece.contents.length := by
    rw [← piece.length_eq]
    exact sizeT_of_lt (by omega)
  have hsize : sizeT (received.length + piece.contents.length) =
      received.length + piece.contents.length := sizeT_of_lt (by omega)
  -- the block grows by the piece, and keeps what it has
  obtain ⟨grown, hgrown⟩ : ∃ grown,
      grown = realloc mem.data (received.length + piece.contents.length + 1) := ⟨_, rfl⟩
  have hlen : grown.length = received.length + piece.contents.length + 1 := by
    rw [hgrown, realloc, List.length_append, List.length_take, List.length_replicate, h.length_eq]
    omega
  have htake : grown.take received.length = received.map some := by
    rw [hgrown, realloc, List.take_append_of_le_length, List.take_take, Nat.min_eq_left (by omega),
      h.take_eq]
    rw [List.length_take, h.length_eq]
    omega
  obtain ⟨last, hlast⟩ : ∃ last,
      grown.drop (received.length + piece.contents.length) = [last] := by
    apply List.length_eq_one_iff.mp
    rw [List.length_drop, hlen]
    omega
  have hdata : grown.take received.length ++ piece.contents.map some ++
      grown.drop (received.length + piece.contents.length) =
        (received ++ piece.contents).map some ++ [last] := by
    rw [htake, hlast, List.map_append]
  have hset : ((received ++ piece.contents).map some ++ [last]).set
      (received.length + piece.contents.length) (some 0) =
        ((received ++ piece.contents) ++ [0]).map some := by
    rw [List.set_append_right _ _ (by simp), @List.map_append _ _ _ _ [0]]
    simp
  simp only [curlWriteMemoryCb, hreal, h.size_eq]
  rw [sizeT_of_lt hfit, ← hgrown, List.take_length, hdata, hsize, hset, if_pos ⟨le_rfl, by omega⟩,
    if_pos (by simp), piece.length_eq, CurlMemoryBuf.filled, List.length_append, piece.length_eq]

/-- **All pieces are appended**, in their order. -/
theorem curlPerform_spec {mem : CurlMemoryBuf} {received : List UInt8} (h : Holds mem received)
    (pieces : List Piece) (hfit : received.length + (body pieces).length + 1 < 18446744073709551616) :
    ∃ mem', curlPerform pieces mem = some mem' ∧ Holds mem' (received ++ body pieces) ∧
      (pieces ≠ [] → mem' = .filled (received ++ body pieces)) := by
  induction pieces generalizing mem received with
  | nil =>
      refine ⟨mem, rfl, ?_, fun hne => absurd rfl hne⟩
      rwa [body, List.flatMap_nil, List.append_nil]
  | cons piece pieces ih =>
      rw [body, List.flatMap_cons, List.length_append, ← body] at hfit
      have hone := curlWriteMemoryCb_spec h piece (by omega)
      obtain ⟨mem', hrun, hholds, hfilled⟩ := ih (Holds.filled (received ++ piece.contents))
        (by rw [List.length_append]; omega)
      rw [List.append_assoc] at hholds hfilled
      refine ⟨mem', ?_, hholds, fun _ => ?_⟩
      · rw [curlPerform, hone, ← hrun]
        exact if_pos rfl
      · by_cases hne : pieces = []
        · subst hne
          obtain rfl := Option.some.inj hrun
          rw [body, List.flatMap_cons, List.flatMap_nil, List.append_nil]
        · exact hfilled hne

/-! ## Parsing it -/

/-- The bytes of a filled block. -/
theorem string_filled (received : List UInt8) :
    (CurlMemoryBuf.filled received).string = only (received ++ [0]) := by
  funext i
  rw [CurlMemoryBuf.string, CurlMemoryBuf.filled, List.getElem?_map, only]
  cases (received ++ [0])[i]? <;> rfl

/-- Printing reads up to the NUL at most. -/
theorem printfString_filled (received : List UInt8) (precision : Nat) {pos : Nat}
    (hpos : pos ≤ received.length) :
    ∃ cs pos', printfString (only (received ++ [0])) precision pos = .ok cs pos' := by
  induction precision generalizing pos with
  | zero => exact ⟨[], pos, rfl⟩
  | succ precision ih =>
      have hlt : pos < (received ++ [0]).length := by
        rw [List.length_append, List.length_singleton]
        omega
      have hread : only (received ++ [0]) pos = some ((received ++ [0])[pos]) :=
        List.getElem?_eq_getElem hlt
      rw [printfString, readByte_of_eq hread, Result.bind_ok]
      by_cases hnul : (received ++ [0])[pos] = 0
      · exact ⟨[], pos, if_pos hnul⟩
      · -- a byte that is not the NUL behind the bytes is one of them
        have hin : pos < received.length := by
          refine lt_of_le_of_ne hpos fun heq => hnul ?_
          subst heq
          exact List.getElem_concat_length rfl hlt
        obtain ⟨cs, pos', hprint⟩ := ih hin
        rw [if_neg hnul, hprint]
        exact ⟨_, pos', rfl⟩

/-- A byte that nobody has written is printed. -/
theorem parseResponse_fresh (place : Nat → Addr) :
    parseResponse place true .fresh = .stop .outOfBounds 0 := rfl

/-- **Only the body matters**: what is parsed is the body, with a NUL behind it. -/
theorem parseResponse_eq (place : Nat → Addr) (pieces : List Piece) {ok : Bool}
    (hlen : ((body pieces).length : Int) ≤ intMax) (hwritten : pieces ≠ [] ∨ ok = false) :
    ∃ mem, curlPerform pieces .fresh = some mem ∧
      parseResponse place ok mem = parseAt (body pieces) place 0 := by
  have hfit : ([] : List UInt8).length + (body pieces).length + 1 < 18446744073709551616 := by
    unfold intMax at hlen
    rw [List.length_nil]
    omega
  obtain ⟨mem, hrun, hholds, hfilled⟩ := curlPerform_spec .fresh pieces hfit
  rw [List.nil_append] at hholds hfilled
  refine ⟨mem, hrun, ?_⟩
  rw [parseResponse, hholds.size_eq, wrap32_natCast hlen, bencodeParse, parseAt, Int.toNat_natCast]
  by_cases hne : pieces = []
  · -- without a piece, nothing is read
    obtain rfl := hwritten.resolve_left fun h => h hne
    subst hne
    rw [if_neg Bool.false_ne_true, Result.bind_ok, body, List.flatMap_nil, List.length_nil, bParseAny,
      bParseAny, eofCheck, eofCheck, if_pos le_rfl, if_pos le_rfl]
  · rw [hfilled hne, string_filled]
    cases ok with
    | false => rfl
    | true =>
        obtain ⟨cs, pos', hprint⟩ := printfString_filled (body pieces) 30 (Nat.zero_le _)
        rw [if_pos rfl, hprint, Result.bind_ok]

/-- **What is made of the body**, however it is cut into pieces. If there was a piece, or libcurl reports
an error, nothing but the bytes received and the NUL is read, and it comes to an end. The parser returns
a value iff a prefix of the body is the text of one. It follows a pointer to no block iff the body goes on
behind a text that makes it. A body that breaks off inside a text is rejected. Without a piece and without
an error, a byte is read that nobody has written. -/
theorem response_parsed (place : Nat → Addr) (pieces : List Piece) (ok : Bool)
    (hlen : ((body pieces).length : Int) ≤ intMax) :
    ∃ mem, curlPerform pieces .fresh = some mem ∧
      (pieces = [] → ok = true → parseResponse place ok mem = .stop .outOfBounds 0) ∧
      (pieces ≠ [] ∨ ok = false →
        (∀ pos, parseResponse place ok mem ≠ .stop .outOfBounds pos ∧
          parseResponse place ok mem ≠ .stop .outOfFuel pos) ∧
        (∀ v pos, parseResponse place ok mem = .ok v pos ↔
          ∃ t, Spelled t ∧ t.bytes <+: body pieces ∧ pos = t.bytes.length ∧ v = t.value place 0) ∧
        ((∃ pos, parseResponse place ok mem = .stop .nullDeref pos) ↔
          ∃ text, Derefs text ∧ text <+: body pieces ∧ text.length < (body pieces).length) ∧
        ∀ t, Spelled t → body pieces <+: t.bytes → body pieces ≠ t.bytes →
          (parseResponse place ok mem).Fails) := by
  by_cases hunwritten : pieces = [] ∧ ok = true
  · obtain ⟨rfl, rfl⟩ := hunwritten
    refine ⟨.fresh, rfl, fun _ _ => parseResponse_fresh place, fun h => ?_⟩
    rcases h with h | h
    · exact absurd rfl h
    · exact absurd h (by decide)
  have hwritten : pieces ≠ [] ∨ ok = false := by
    by_cases hnil : pieces = []
    · exact .inr (Bool.not_eq_true _ ▸ fun hok => hunwritten ⟨hnil, hok⟩)
    · exact .inl hnil
  obtain ⟨mem, hrun, hparse⟩ := parseResponse_eq place pieces hlen hwritten
  have hnul := only_nul (body pieces)
  have hsent : Sentinel (only (body pieces ++ [0])) (body pieces).length := sentinel_of_nul hnul
  have hreads : ∀ text : List UInt8, text.length ≤ (body pieces).length →
      (Reads (only (body pieces ++ [0])) 0 text ↔ text <+: body pieces) := by
    intro text hle
    rw [reads_nul_iff (by omega), List.drop_zero]
  refine ⟨mem, hrun, fun hnil hok => absurd ⟨hnil, hok⟩ hunwritten, fun _ =>
    ⟨fun pos => ⟨?_, ?_⟩, fun v pos => ?_, ⟨?_, ?_⟩, fun t ht hpre hne => ?_⟩⟩
  all_goals rw [hparse]
  · exact parseAt_ne_outOfBounds pos
  · exact bParseAny_ends (by omega) (by omega) pos
  · have hwhole : parseAt (body pieces) place 0 =
        bencodeParse (only (body pieces ++ [0])) (body pieces).length place := by
      rw [bencodeParse, Int.toNat_natCast]
      rfl
    rw [hwhole, bencodeParse_eq_ok_iff hsent]
    refine exists_congr fun t => and_congr_right fun _ => ?_
    constructor
    · rintro ⟨hr, rfl, hle, rfl⟩
      exact ⟨(hreads t.bytes (by exact_mod_cast hle)).mp hr, rfl, rfl⟩
    · rintro ⟨hpre, rfl, rfl⟩
      exact ⟨(hreads t.bytes hpre.length_le).mpr hpre, rfl, by exact_mod_cast hpre.length_le, rfl⟩
  · rintro ⟨pos, hstop⟩
    obtain ⟨text, htext, hr, hin⟩ := nullDeref_derefs hsent hstop
    have hlt : text.length < (body pieces).length := by
      push_cast at hin
      omega
    exact ⟨text, htext, (hreads text hlt.le).mp hr, hlt⟩
  · rintro ⟨text, htext, hpre, hlt⟩
    exact htext.stopsIn (readable_nul _) (by exact_mod_cast hlt) _ 0 (by omega)
      ((hreads text hlt.le).mpr hpre) (Nat.zero_add _)
  · have hlt : (body pieces).length < t.bytes.length := by
      refine lt_of_le_of_ne hpre.length_le fun heq => hne ?_
      exact hpre.eq_of_length heq
    refine bParseAny_cut hnul ht (by omega) 0 (body pieces) hpre hlt le_rfl
      ((hreads (body pieces) le_rfl).mpr List.prefix_rfl) ?_
    push_cast
    omega

/-- `i7e` in two pieces. -/
def twoPieces : List Piece := [⟨[105], 1, 1, rfl⟩, ⟨[55, 101], 1, 2, rfl⟩]

/-- The theorem at `i7e` in two pieces: the whole body is the text of the integer, and is parsed as it. -/
theorem response_parsed_example :
    ∃ mem, curlPerform twoPieces .fresh = some mem ∧
      parseResponse (fun _ => 0) true mem =
        .ok ((Syn.integer false [55]).value (fun _ => 0) 0) 3 := by
  obtain ⟨mem, hrun, -, hparsed⟩ := response_parsed (fun _ => 0) twoPieces true (by decide)
  obtain ⟨-, hvalue, -⟩ := hparsed (.inl (List.cons_ne_nil _ _))
  refine ⟨mem, hrun, (hvalue _ 3).mpr ⟨.integer false [55], ?_, ?_, rfl, rfl⟩⟩
  · exact .integer (List.all_eq_true.mp rfl)
  · exact List.prefix_rfl

end Flood.Http
