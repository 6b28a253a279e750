import Dorodoro.TableRefresh
import Dorodoro.Transition
import Dorodoro.FrameReader
import Dorodoro.Bytes
import Dorodoro.Checked
import Dorodoro.RemoteControl
import Dorodoro.ControlSession
import Dorodoro.TcpServer
import Dorodoro.LexicalPath
import Dorodoro.Bitmap
import Dorodoro.Bendy
import Dorodoro.BencodeGrammar
import Dorodoro.Torrent
import Dorodoro.HashPairing
import Dorodoro.FileLayout
import Dorodoro.TorrentArithmetic
import Dorodoro.BlockMapping
import Dorodoro.PieceGeometry
import Dorodoro.PathConfinement
import Dorodoro.MagnetMetadata
import Dorodoro.MetadataAssembly
import Dorodoro.MetadataPanics
import Dorodoro.ExtensionIds
import Dorodoro.StreamCipher
import Dorodoro.PeerWire
import Dorodoro.CryptoHandshake
import Dorodoro.KeyExchange
import Dorodoro.EncryptedStream
import Dorodoro.Counting
import Dorodoro.Segments
import Dorodoro.BoundedHeap
import Dorodoro.RoutingTable
import Dorodoro.ClosestNodes
import Dorodoro.RefreshTarget
import Dorodoro.UdpServer
import Dorodoro.UdpTrackerClient
import Dorodoro.ResponseWake
import Dorodoro.ResponseMatching
import Dorodoro.Reordering
import Dorodoro.PeerMessages
import Dorodoro.InflightWindow
import Dorodoro.Swarm
import Dorodoro.SwarmStep
import Dorodoro.Completion
import Dorodoro.FinishedCheck
import Dorodoro.Removal
import Dorodoro.WriteConfinement
import Dorodoro.IntactPieces
import Dorodoro.Accounting
import Dorodoro.Reception
import Dorodoro.Resume
import Dorodoro.Ownership
import Dorodoro.RequestRecords
import Dorodoro.RequestTiling
import Dorodoro.Checkout
import Dorodoro.PeerLaunch
import Dorodoro.LaunchAccounts
import Dorodoro.LaunchQuota
import Dorodoro.LongTermPeers
import Dorodoro.RegistryAgreement
import Dorodoro.PeerLocks
import Dorodoro.ConnPool
import Dorodoro.StoreBuffer
import Dorodoro.RssFeeds
import Dorodoro.ReadMarks
import Dorodoro.Permits
import Dorodoro.TrackerSchedule
import Dorodoro.ByteString
import Dorodoro.TrackerUrl
import Dorodoro.SearchFlag
import Dorodoro.DhtLookup
import Dorodoro.SearchRadius
import Dorodoro.RepeatedSearch
import Dorodoro.TaskRegistry
import Dorodoro.ProtocolHandshake
import Dorodoro.SoundDecoders
import Dorodoro.BencodeTokens
import Dorodoro.BencodeReading
import Dorodoro.BencodeOrder
import Dorodoro.HeaderSplit
import Dorodoro.BencodeEncoder
import Dorodoro.BencodeDecoding
import Dorodoro.HandshakeCodec
import Dorodoro.DhtMessages
import Dorodoro.KrpcCodec
import Dorodoro.CanonicalValues
import Dorodoro.UnsortedDicts
import Dorodoro.NodeRejection
import Dorodoro.CompactLists
import Dorodoro.CheckedRun
import Dorodoro.WindowedMax
import Dorodoro.BandwidthWindow
import Dorodoro.DbPool
import Dorodoro.DecryptingReader
import Dorodoro.PieceFrontier
import Dorodoro.PieceHash
import Dorodoro.RateProbe
import Dorodoro.HonestDownload
import Dorodoro.BencodeTrees
import Dorodoro.DecoderViews
import Dorodoro.MessageTrees
import Dorodoro.GetPeersResp
import Dorodoro.GetPeers
