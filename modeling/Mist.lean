import Mist.Replica.Rename
import Mist.Compact.Scan
import Mist.Mistd.Server
import Mist.Convergence.Fallback
import Mist.Hostd.Durability
import Mist.Hostd.WriteErrors
import Mist.Hostd.Pipeline
import Mist.Nfs.Slots
import Mist.Nfs.Backchannel
import Mist.Hostd.Reconnects
import Mist.Cas.Publish
import Mist.Hostd.ReadBack
import Mist.Hostd.KeyContent
import Mist.Hostd.Restart
import Mist.Cas.Eviction
import Mist.Cas.ManifestTable
import Mist.Hostd.Covered
import Mist.Hostd.SingleFlight
import Mist.Convergence.Delivered
import Mist.Compact.Converges
import Mist.Convergence.Masks
import Mist.Convergence.StaticWalk
import Mist.Nfs.Creates
import Mist.Nfs.Stateids
import Mist.Nfs.Arguments
import Mist.Hostd.SyncWrite
import Mist.Hostd.Ticks
import Mist.Hostd.SideRows
import Mist.Hostd.SideScan
import Mist.Hostd.Versions
import Mist.Nfs.RoundTrip
import Mist.Nfs.Marking
import Mist.Framed
