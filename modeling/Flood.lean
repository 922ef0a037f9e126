import Flood.Lib.Word
import Flood.Lib.Assoc
import Flood.Lib.Bits
import Flood.Lib.Writing
import Flood.Lib.Chain
import Flood.Lib.DoubleChain
import Flood.Lib.Sequence
import Flood.Lib.History
import Flood.Lib.Runs
import Flood.Lib.Compare
import Flood.Lib.CString
import Flood.Lib.Buffer
import Flood.Lib.Layout
import Flood.Lib.Percent
import Flood.Lib.Cursor
import Flood.Hashtable.Table
import Flood.Hashtable.Memory
import Flood.Hashtable.Repr
import Flood.Hashtable.Refine
import Flood.Hashtable.Runs
import Flood.Hashtable.Iterate
import Flood.LinkedList.Memory
import Flood.LinkedList.Repr
import Flood.LinkedList.Refine
import Flood.LinkedList.Runs
import Flood.LinkedList.Iterate
import Flood.LinkedList.Stable
import Flood.LinkedList.Locking
import Flood.Peer.Message
import Flood.Peer.Frames
import Flood.Peer.Payload
import Flood.Peer.Handshake
import Flood.Peer.Segments
import Flood.Peer.Bitfield
import Flood.Tracker.Announce
import Flood.Tracker.Connection
import Flood.Tracker.Report
import Flood.Tracker.Decode
import Flood.Tracker.Wire
import Flood.Client.Discovery
import Flood.Client.Threads
import Flood.Client.Availability
import Flood.Client.Order
import Flood.Bencode.Value
import Flood.Bencode.Parser
import Flood.Bencode.Syntax
import Flood.Bencode.Sound
import Flood.Bencode.Returns
import Flood.Bencode.Grammar
import Flood.Bencode.Overread
import Flood.Bencode.Spans
import Flood.Bencode.Cuts
import Flood.Bencode.Lengths
import Flood.Bencode.Encoder
import Flood.Torrent.Load
import Flood.Torrent.Shape
import Flood.Torrent.Scalars
import Flood.Bencode.Encoding
import Flood.Bencode.Integers
import Flood.Bencode.Keys
import Flood.Bencode.TwoPass
import Flood.Bencode.RoundTrip
import Flood.Bencode.Canonical
import Flood.Hashtable.LoadFactor
import Flood.Hashtable.Fnv
import Flood.Torrent.FileManager
import Flood.Torrent.Failures
import Flood.Bencode.Progress
import Flood.Http.Request
import Flood.Lib.Slots
import Flood.Torrent.Memory
import Flood.Torrent.Represents
import Flood.Torrent.Files
import Flood.Torrent.Trackers
import Flood.Client.Trackers
import Flood.Peer.Updates
import Flood.Hashtable.Growth
import Flood.Lib.Monitor
import Flood.Client.Atomic
import Flood.Client.Bitfields
import Flood.Client.Progress
import Flood.Client.Counting
import Flood.Client.AnyNetwork
import Flood.Client.Shutdown
import Flood.Tracker.Exchange
import Flood.Hashtable.Free
import Flood.Hashtable.Stable
import Flood.Hashtable.IntKeys
import Flood.Http.Response
import Flood.Client.Overview
import Flood.Client.SameTorrent
