import ReliableBT.Wire.RoundTrip
import ReliableBT.Wire.EndOfStream
import ReliableBT.Tracker.Udp
import ReliableBT.Torrent.Coverage
import ReliableBT.Torrent.Integrity
import ReliableBT.Torrent.Closing
import ReliableBT.Torrent.AllowedFast
import ReliableBT.Torrent.Legal
import ReliableBT.Torrent.WebseedCancels
import ReliableBT.Torrent.Checked
import ReliableBT.Torrent.Reserve
import ReliableBT.Bencode.Accepted
import ReliableBT.Bencode.Stream
import ReliableBT.Bencode.Truncation
import ReliableBT.Bencode.Ignore
import ReliableBT.Tracker.Http
import ReliableBT.Client.Bans
import ReliableBT.Torrent.GotInfo
import ReliableBT.Storage.Bolt
import ReliableBT.Storage.Resource
import ReliableBT.Webseed.Client
import ReliableBT.Metainfo.Magnet
import ReliableBT.Tracker.Server
import ReliableBT.Mse.Truncation
import ReliableBT.Torrent.SmartBan
import ReliableBT.Torrent.Established
import ReliableBT.Torrent.Bounds
import ReliableBT.Torrent.UploadBounds
import ReliableBT.Torrent.Announced
import ReliableBT.RequestStrategy.Budget
import ReliableBT.RequestStrategy.Preference
import ReliableBT.Client.PeerPriority
import ReliableBT.Torrent.FilePieces
import ReliableBT.Tracker.Limiter
