import Ostrya.Delta.Inverse
import Ostrya.Delta.SuperblockRoundTrip
import Ostrya.Core.KeyFileMap
import Ostrya.Repo.ReachabilityRun
import Ostrya.Remote.FrameFaithful
import Ostrya.Bucket.LockRun
import Ostrya.Lock.Wakeup
import Ostrya.Server.ProxyProtocol
import Ostrya.Staging.Hydration
import Ostrya.Receive.RefPattern
import Ostrya.Receive.DetachedSize
import Ostrya.Delta.BspatchTotal
import Ostrya.Core.Sizes
import Ostrya.Fetch.Gate
