import Subcontexts.Lib.Trans
import Subcontexts.Lib.Links
import Subcontexts.Lib.Tiling
import Subcontexts.Alloc.DoubleFree
import Subcontexts.Alloc.OneCall
import Subcontexts.Alloc.Footprint
import Subcontexts.Prealloc.Handoff
import Subcontexts.Scon.Isolation
import Subcontexts.Scon.Reentrancy
import Subcontexts.Scon.Protect
import Subcontexts.Scon.Counters
import Subcontexts.Scon.Path
import Subcontexts.Scon.Lifetime
import Subcontexts.Library.Isolates
import Subcontexts.Lib.WaitFor
import Subcontexts.Log.Acknowledged
import Subcontexts.Log.Progress
import Subcontexts.Log.Wakeups
import Subcontexts.Locks.Order
import Subcontexts.Proc.Runs
import Subcontexts.Join.Coverage
import Subcontexts.Bootstrap.Runs
import Subcontexts.Ipc.Senders
import Subcontexts.Region.Sharing
import Subcontexts.Region.Paging
import Subcontexts.Region.Disjoint
import Subcontexts.Region.Requests
import Subcontexts.Region.Conserved
import Subcontexts.Region.Replay
import Subcontexts.Region.Logged
import Subcontexts.Region.Imports
import Subcontexts.Member.NextJoiner
import Subcontexts.Member.Alone
import Subcontexts.Member.Mapped
import Subcontexts.Member.Returns
import Subcontexts.Loader.Imported
import Subcontexts.Maps.Sizes
import Subcontexts.Maps.Line
import Subcontexts.Maps.Parse
