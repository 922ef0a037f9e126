import Flood.Client.Communication
import Flood.Torrent.Shape
import Flood.Tracker.Exchange

/-!
# One torrent, from the file to the wire

Two clients load a file each. Do they meet at a tracker, and does the one talk to the other?

* `InfoText` — the text of the last value under `info` in the dictionary of a file; `InfoText.unique`.
* `Loads` — a file is loaded; `infoHash_of_loads` — the torrent then has the hash of that text, whatever
  stands around it, also where the parser has read a byte behind the file.
* `slice_announce` — every announce packet carries the hash of the torrent.
* `accepts_whole_iff` — a peer whose handshake arrives is talked to iff it carries the same hash.
* `same_torrent` — so two clients have to do with each other iff the info sections of their files have
  one hash.
-/

namespace Flood.Client

open Flood.Lib Flood.Peer Flood.Bencode Flood.Torrent Flood.Tracker

variable {σ : Type} {sha1 : List UInt8 → List UInt8} {data dataA dataB text text' : List UInt8}
  {torrent A B : Torrent.TorrentT} {me meA meB : Identity}

/-! ## The file -/

/-- The file starts with a dictionary, whose last `e` may be missing, and this is the text of the last
value under `info` in it. -/
def InfoText (data text : List UInt8) : Prop :=
  ∃ pairs info, Spelled (.dict pairs) ∧ (Syn.dict pairs).bytes <+: data ++ [101] ∧
    storedUnder infoKey pairs = some info ∧ info.bytes = text

/-- A file has one info section at most. -/
theorem InfoText.unique (h : InfoText data text) (h' : InfoText data text') : text = text' := by
  obtain ⟨pairs, info, hs, hpre, hfound, rfl⟩ := h
  obtain ⟨pairs', info', hs', hpre', hfound', rfl⟩ := h'
  have hbytes := reads_only (data ++ [101])
  have hle := hpre.length_le
  have hle' := hpre'.length_le
  have hr := (reads_iff_isPrefix hbytes hle).mpr hpre
  have hr' := (reads_iff_isPrefix hbytes hle').mpr hpre'
  -- both dictionaries are what the parser finds there
  have hparse := @bParseAny_complete _ (data ++ [101]).length (fun _ => 0) _ hs
    (data ++ [101]).length hle 0 hr (by omega)
  have hparse' := @bParseAny_complete _ (data ++ [101]).length (fun _ => 0) _ hs'
    (data ++ [101]).length hle' 0 hr' (by omega)
  rw [hparse, Result.ok.injEq] at hparse'
  have hinput := @infoHashInput_eq _ (fun _ => 0) _ hbytes _ hpre
  rw [hparse'.1, infoHashInput_eq hbytes hpre', hfound, hfound'] at hinput
  exact (Option.some.inj hinput).symm

/-- What one memory holds another holds that agrees with it. -/
theorem Reads.mono {string string' : Nat → Option UInt8} {pos : Nat} {bs : List UInt8}
    (hr : Reads string pos bs) (hsame : ∀ i c, string i = some c → string' i = some c) :
    Reads string' pos bs := by
  induction bs generalizing pos with
  | nil => trivial
  | cons c bs ih => exact ⟨hsame pos c hr.1, ih hr.2⟩

/-- The data is in the memory. -/
theorem reads_memory (data : List UInt8) (beyond : Nat → Option UInt8) :
    Reads (memory data beyond) 0 data := by
  refine Reads.mono (reads_only data) fun i c hc => ?_
  obtain ⟨hlt, hat⟩ := List.getElem?_eq_some_iff.mp hc
  rw [memory, dif_pos hlt, hat]

/-- What is read up to one byte behind a buffer is in the buffer, or ends with that byte. -/
theorem isPrefix_of_reads {string : Nat → Option UInt8} {bs : List UInt8} {c : UInt8}
    (hdata : Reads string 0 data) (hr : Reads string 0 (bs ++ [c])) (hle : bs.length ≤ data.length) :
    bs ++ [c] <+: data ++ [c] := by
  obtain ⟨hbs, hlast⟩ := reads_append.mp hr
  obtain ⟨rest, rfl⟩ := (reads_iff_isPrefix hdata hle).mp hbs
  cases rest with
  | nil => simp
  | cons d rest =>
      have hnext := (reads_append.mp hdata).2.1
      rw [hlast.1] at hnext
      obtain rfl := Option.some.inj hnext
      exact ⟨rest ++ [c], by simp⟩

/-- The length given to the parser is not more than that of the file. -/
theorem wrap32_natCast_le (n : Nat) : wrap32 n ≤ n := by
  unfold wrap32
  split_ifs <;> omega

/-- The file is loaded, to this torrent. -/
def Loads (sha1 : List UInt8 → List UInt8) (data : List UInt8) (torrent : Torrent.TorrentT) : Prop :=
  ∃ beyond place t, torrentInitFromFile sha1 beyond place (some data) t = .returned 0 torrent

/-- **What is loaded has the hash of the info section.** -/
theorem infoHash_of_loads (h : Loads sha1 data torrent) :
    ∃ text, InfoText data text ∧ torrent.infoHash = sha1 text := by
  obtain ⟨beyond, place, t, h⟩ := h
  cases hparse : bencodeParse (memory data beyond) (wrap32 data.length) place with
  | stop why pos =>
      rw [torrentInitFromFile, hparse] at h
      cases why <;> simp [loadParsed] at h
  | ok v pos =>
      have hhash := loadMetainfo_infoHash ((torrentInitFromFile_of_ok hparse).mp h)
      obtain ⟨t, hs, hr, hpos, hnear, rfl⟩ := bParseAny_text _ 0 v pos hparse
      have hle := wrap32_natCast_le data.length
      cases t with
      | dict pairs =>
          have hbytes : (Syn.dict pairs).bytes = (100 :: bytesPairs pairs) ++ [101] := rfl
          have hin : (100 :: bytesPairs pairs).length ≤ data.length := by
            rw [hbytes, List.length_append] at hpos
            rcases hnear with hin | ⟨hin, -⟩ <;> simp at * <;> omega
          rw [infoHashInput_of_reads (reads_memory data beyond) hr
            (by simpa [Nat.add_comm] using hin)] at hhash
          cases hfound : storedUnder infoKey pairs with
          | none =>
              rw [hfound] at hhash
              cases hhash
          | some info =>
              rw [hfound] at hhash
              rw [hbytes] at hr
              exact ⟨info.bytes, ⟨pairs, info, hs, isPrefix_of_reads (reads_memory data beyond) hr hin,
                hfound, rfl⟩, Option.some.inj hhash⟩
      | string s => cases hhash
      | integer neg digits => cases hhash
      | list items => cases hhash

/-! ## The wire -/

/-- An announce packet carries the torrent. -/
theorem slice_announce {t : TrackerT} (hhash : t.infoHash.length = 20) (env : Env) :
    ∃ packet, sendAnnounceRequest (announceReq t env) = some packet ∧
      Lib.slice packet 16 20 = t.infoHash := by
  have hsized : (announceReq t env).Sized := ⟨hhash, rfl⟩
  exact ⟨_, sendAnnounceRequest_eq hsized, slice_packet hsized .infoHash⟩

/-- A client whose handshake arrives is talked to iff it has the torrent. -/
theorem accepts_whole_iff {net : Network σ} {peer : PeerT} {s' : σ}
    (hopen : net.Opens peer.ipAddress peer.port)
    (hd : Delivers net.recv net.start (handshakeOut meB).encode s') :
    Accepts net meA peer ↔ meA.infoHash = meB.infoHash := by
  have hgood : isGood (handshakeOut meA) (readHandshake (handshakeOut meB).encode) = true ↔
      meA.infoHash = meB.infoHash := by
    rw [isGood_encode_iff (handshakeOut_sendable meB)]
    exact (and_iff_right rfl).trans eq_comm
  rw [← hgood, accepts_iff_isGood hopen
    (receivePeerHandshake_of_delivers (handshakeOut_sendable meB) hd)]

/-! ## Two clients -/

/-- **Two clients have to do with each other iff their info sections have one hash.** Each has loaded a
file and says the hash of it. A file has one info section; the text of it decides alone, not what stands
around it. The trackers are asked for its hash, and the handshake of the other client is accepted iff the
hashes are one. -/
theorem same_torrent (hA : Loads sha1 dataA A) (hB : Loads sha1 dataB B)
    (hmeA : meA.infoHash = A.infoHash) (hmeB : meB.infoHash = B.infoHash) :
    ∃ infoA infoB, (∀ text, InfoText dataA text ↔ text = infoA) ∧
      (∀ text, InfoText dataB text ↔ text = infoB) ∧
      (∀ (σ : Type) (net : Network σ) (peer : PeerT) (s' : σ),
        net.Opens peer.ipAddress peer.port →
        Delivers net.recv net.start (handshakeOut meB).encode s' →
        (Accepts net meA peer ↔ sha1 infoA = sha1 infoB)) ∧
      ∀ (t : TrackerT) (env : Env), t.infoHash = A.infoHash →
        ∃ packet, sendAnnounceRequest (announceReq t env) = some packet ∧
          Lib.slice packet 16 20 = sha1 infoA := by
  obtain ⟨infoA, htextA, hhashA⟩ := infoHash_of_loads hA
  obtain ⟨infoB, htextB, hhashB⟩ := infoHash_of_loads hB
  refine ⟨infoA, infoB, fun text => ⟨fun h => h.unique htextA, fun h => h ▸ htextA⟩,
    fun text => ⟨fun h => h.unique htextB, fun h => h ▸ htextB⟩, ?_, ?_⟩
  · intro σ net peer s' hopen hd
    rw [accepts_whole_iff hopen hd, hmeA, hmeB, hhashA, hhashB]
  · intro t env ht
    have hlen : t.infoHash.length = 20 := by rw [ht, ← hmeA, meA.infoHash_length]
    rw [← hhashA, ← ht]
    exact slice_announce hlen env

/-- Twenty bytes of a text. -/
def firstTwenty (text : List UInt8) : List UInt8 := (text ++ List.replicate 20 0).take 20

/-- `d6:lengthi5e12:piece lengthi9ee` -/
def someInfo : List UInt8 :=
  [100, 54, 58, 108, 101, 110, 103, 116, 104, 105, 53, 101, 49, 50, 58, 112, 105, 101, 99, 101, 32, 108,
    101, 110, 103, 116, 104, 105, 57, 101, 101]

/-- `d4:info`, the info section, and `e` -/
def someFile : List UInt8 := [100, 52, 58, 105, 110, 102, 111] ++ someInfo ++ [101]

/-- `d1:ai7e4:info`, the info section, and `e` -/
def otherFile : List UInt8 :=
  [100, 49, 58, 97, 105, 55, 101, 52, 58, 105, 110, 102, 111] ++ someInfo ++ [101]

/-- What they are loaded to. -/
def someTorrent : Torrent.TorrentT := ⟨firstTwenty someInfo, ⟨0, none, .singleFile, none, 5, []⟩, []⟩

/-- The first is loaded. -/
theorem someFile_loads : Loads firstTwenty someFile someTorrent :=
  ⟨fun _ => none, fun _ => 0, unloaded, by decide +kernel⟩

/-- So is the other. -/
theorem otherFile_loads : Loads firstTwenty otherFile someTorrent :=
  ⟨fun _ => none, fun _ => 0, unloaded, by decide +kernel⟩

/-- A client with this torrent. -/
def withTorrent (peerId : UInt8) : Identity :=
  ⟨someTorrent.infoHash, List.replicate 20 peerId, rfl, rfl⟩

/-- Two files with one info section. -/
theorem same_torrent_example :
    ∃ infoA infoB, (∀ text, InfoText someFile text ↔ text = infoA) ∧
      (∀ text, InfoText otherFile text ↔ text = infoB) ∧
      Accepts (wire (handshakeOut (withTorrent 2)).encode) (withTorrent 1) (newPeer 1 6881 .inUse) ∧
      firstTwenty infoA = firstTwenty infoB ∧
      ∃ packet,
        sendAnnounceRequest (announceReq ⟨3, 0, someTorrent.infoHash, true⟩ Tracker.silent) = some packet ∧
        Lib.slice packet 16 20 = firstTwenty infoA := by
  obtain ⟨infoA, infoB, htextA, htextB, htalk, hannounce⟩ :=
    @same_torrent _ _ _ _ _ (withTorrent 1) (withTorrent 2) someFile_loads otherFile_loads rfl rfl
  have hd : Delivers recvFull (handshakeOut (withTorrent 2)).encode
      (handshakeOut (withTorrent 2)).encode [] := by
    simpa using delivers_full (handshakeOut (withTorrent 2)).encode []
  have hopen := wire_opens (handshakeOut (withTorrent 2)).encode 1 6881
  have haccepts : Accepts (wire (handshakeOut (withTorrent 2)).encode) (withTorrent 1)
      (newPeer 1 6881 .inUse) :=
    (@accepts_whole_iff _ _ (withTorrent 2) _ _ _ hopen hd).mpr rfl
  exact ⟨infoA, infoB, htextA, htextB, haccepts, (htalk _ _ _ _ hopen hd).mp haccepts,
    hannounce _ _ rfl⟩

end Flood.Client
