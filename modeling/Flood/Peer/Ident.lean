import Mathlib.Data.List.Induction

/-!
# The client a peer runs

The twenty bytes of a peer id, as far as they name a client.

* `peerClientLookup` — the table of two letters and a name.
* `peerIdAnalysis` — the name and three digits; `none` is the result `-1`.
* `peerIdFriendly` — the text made of them.
* `clientNamed_eq_some_iff` — the search does not end at the first entry, so the last one counts.
-/

namespace Flood.Peer

/-- The letters of a client, and its name.
Source: `util.c`, `peer_client_lookup` -/
def peerClientLookup : List (Char × Char × String) :=
  [('7', 'T', "aTorrent Android"), ('A', 'B', "AnyAvent::BitTorrent"), ('A', 'G', "Ares"),
    ('A', '~', "Ares"), ('A', 'R', "Arctic"), ('A', 'V', "Avicora"), ('A', 'T', "Artemis"),
    ('A', 'X', "BitPump"), ('A', 'Z', "Azureus"), ('B', 'B', "BitBuddy"), ('B', 'C', "BitComet"),
    ('B', 'E', "Baretorrent"), ('B', 'F', "Bitflu"), ('B', 'G', "BTG"), ('B', 'L', "BitCometLite"),
    ('B', 'L', "BitBlinder"), ('B', 'P', "BitTorrent Pro"), ('B', 'R', "BitRocket"),
    ('B', 'S', "BRSlave"), ('B', 'T', "mainline BitTorrent"), ('B', 't', "Bt"),
    ('B', 'X', "~Bittorrent X"), ('C', 'D', "Enhanced CTorrent"), ('C', 'T', "CTorrent"),
    ('D', 'E', "DelugeTorrent"), ('D', 'P', "Propagate Data Client"), ('E', 'B', "EBit"),
    ('E', 'S', "electric sheep"), ('F', 'C', "FileCroc"), ('F', 'D', "Free Download Manager"),
    ('F', 'T', "FoxTorrent"), ('F', 'X', "Freebox BitTorrent"), ('G', 'S', "GSTorrent"),
    ('H', 'K', "Hekate"), ('H', 'L', "Halite"), ('H', 'M', "hMule"), ('H', 'N', "Hydranode"),
    ('I', 'L', "iLivid"), ('J', 'S', "Justseed.it client"), ('J', 'T', "JavaTorrent"),
    ('K', 'G', "KGet"), ('K', 'T', "KTorrent"), ('L', 'C', "LeechCraft"), ('L', 'H', "LH-ABC"),
    ('L', 'P', "Lphant"), ('L', 'T', "libtorrent"), ('l', 't', "libtorrent"),
    ('L', 'W', "LimeWire"), ('M', 'K', "Meerkat"), ('M', 'O', "MonoTorrent"),
    ('M', 'P', "MooPolice"), ('M', 'R', "Miro"), ('M', 'T', "MoonlightTorrent"),
    ('N', 'B', "Net::BitTorrent"), ('N', 'X', "Net Transport"), ('O', 'S', "OneSwarm"),
    ('O', 'T', "OmegaTorrent"), ('P', 'B', "Protocol::BitTorrent"), ('P', 'D', "Pando"),
    ('P', 'I', "PicoTorrent"), ('P', 'T', "PHPTracker"), ('q', 'B', "qBittorrent"),
    ('Q', 'D', "QQDownload"), ('Q', 'T', "Qt 4 Torrent example"), ('R', 'T', "Retriever"),
    ('R', 'Z', "RezTorrent"), ('S', '~', "Shareaza"), ('S', 'B', "~Swiftbit"),
    ('S', 'D', "Thunder"), ('S', 'M', "SoMud"), ('S', 'P', "BitSpirit"), ('S', 'S', "SwarmScope"),
    ('S', 'T', "SymTorrent"), ('s', 't', "sharktorrent"), ('S', 'Z', "Shareaza"),
    ('T', 'B', "Torch"), ('T', 'E', "terasaur Seed Bank"), ('T', 'L', "Tribler"),
    ('T', 'N', "TorrentDotNET"), ('T', 'R', "Transmission"), ('T', 'S', "Torrentstorm"),
    ('T', 'T', "TuoTu"), ('U', 'L', "uLeecher"), ('U', 'M', "uTorrent Mac"), ('U', 'T', "uTorrent"),
    ('V', 'G', "Vagaa"), ('W', 'D', "WebTorrent Desktop"), ('W', 'T', "BitLet"),
    ('W', 'W', "WebTorrent"), ('W', 'Y', "FireTorrent"), ('X', 'F', "Xfplay"), ('X', 'L', "Xunlei"),
    ('X', 'S', "XSwifter"), ('X', 'T', "XanTorrent"), ('X', 'X', "Xtorrent"),
    ('Z', 'T', "ZipTorrent")]

/-- Source: `util.c`, `_is_dig` -/
def isDig (c : UInt8) : Bool := 48 ≤ c && c ≤ 57

/-- The entry has these letters. -/
def HasCode (a b : UInt8) (entry : Char × Char × String) : Prop :=
  entry.1.toNat = a.toNat ∧ entry.2.1.toNat = b.toNat

instance (a b : UInt8) : DecidablePred (HasCode a b) := fun _ => inferInstanceAs (Decidable (_ ∧ _))

/-- The loop over the table, which goes on behind an entry with the letters. -/
def clientNamed (table : List (Char × Char × String)) (a b : UInt8) : Option String :=
  table.foldl (fun found entry => if HasCode a b entry then some entry.2.2 else found) none

/-- The name, `major`, `minor` and `patch`, of an id of twenty bytes.
Source: `util.c`, `peer_id_analysis` -/
def peerIdAnalysis (id : List UInt8) : Option (String × Nat × Nat × Nat) :=
  if id.getD 0 0 ≠ 45 ∨ id.getD 7 0 ≠ 45 then none
  else if ¬ (isDig (id.getD 3 0) ∧ isDig (id.getD 4 0) ∧ isDig (id.getD 5 0) ∧ isDig (id.getD 6 0)) then
    none
  else do
    let client ← clientNamed peerClientLookup (id.getD 1 0) (id.getD 2 0)
    some (client, (id.getD 3 0).toNat - 48, (id.getD 4 0).toNat - 48, (id.getD 5 0).toNat - 48)

/-- The text `"%s %d.%d.%d"`; `none` where `*out` is left as it was.
Source: `util.c`, `peer_id_friendly` -/
def peerIdFriendly (id : List UInt8) : Option String :=
  (peerIdAnalysis id).map fun r =>
    r.1 ++ " " ++ toString r.2.1 ++ "." ++ toString r.2.2.1 ++ "." ++ toString r.2.2.2

variable {a b : UInt8} {name : String} {table : List (Char × Char × String)}

/-- The loop finds the last entry with the letters. -/
theorem clientNamed_eq : clientNamed table a b =
    (table.reverse.find? (HasCode a b ·)).map fun entry => entry.2.2 := by
  induction table using List.reverseRecOn with
  | nil => rfl
  | append_singleton table last ih =>
      rw [clientNamed, List.foldl_append, ← clientNamed, ih, List.reverse_append]
      by_cases hlast : HasCode a b last
      · simp [hlast]
      · simp [hlast]

/-- **The last entry counts**, of those with the letters. -/
theorem clientNamed_eq_some_iff : clientNamed table a b = some name ↔
    ∃ before entry after, table = before ++ entry :: after ∧ HasCode a b entry ∧
      entry.2.2 = name ∧ ∀ e ∈ after, ¬ HasCode a b e := by
  simp only [clientNamed_eq, Option.map_eq_some_iff, List.find?_eq_some_iff_append, decide_eq_true_eq,
    Bool.not_eq_true', decide_eq_false_iff_not]
  constructor
  · rintro ⟨entry, ⟨hcode, after, before, htable, hafter⟩, rfl⟩
    refine ⟨before.reverse, entry, after.reverse, ?_, hcode, rfl, fun e he => ?_⟩
    · rw [← List.reverse_reverse table, htable]
      simp
    · exact hafter e (List.mem_reverse.mp he)
  · rintro ⟨before, entry, after, rfl, hcode, rfl, hafter⟩
    refine ⟨entry, ⟨hcode, after.reverse, before.reverse, by simp, fun e he => ?_⟩, rfl⟩
    exact hafter e (List.mem_reverse.mp he)

/-- Of two entries with the letters `BL` the first is never found. -/
example : clientNamed peerClientLookup 66 76 = some "BitBlinder" := by decide

end Flood.Peer
