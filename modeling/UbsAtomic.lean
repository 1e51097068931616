import UbsAtomic.Conc.Prog
import UbsAtomic.Conc.Atomic
import UbsAtomic.Lock.State
import UbsAtomic.Lock.RingQueue
import UbsAtomic.Lock.LocalLock
import UbsAtomic.Lock.Exclusion
import UbsAtomic.Lock.SharedRuns
import UbsAtomic.Lock.RemoteReleaseRuns
import UbsAtomic.Lock.Draining
import UbsAtomic.Lock.PackedWord
import UbsAtomic.Lock.LifecycleRuns
import UbsAtomic.Lock.Rebuild
import UbsAtomic.Lock.RebuildOrder
import UbsAtomic.Lock.Unreleased
import UbsAtomic.Lock.WakeChain
import UbsAtomic.Lock.RecoverRuns
import UbsAtomic.Lock.LocalOwners
import UbsAtomic.Lock.Exhaustion
import UbsAtomic.Lock.FollowerWait
import UbsAtomic.Lock.QueueStepsRuns
import UbsAtomic.Ring.Restart
import UbsAtomic.Ring.Retry
import UbsAtomic.Ring.Layout
import UbsAtomic.Ring.FlowConfigRuns
import UbsAtomic.Ring.Billboard
import UbsAtomic.Ring.ForceFull
import UbsAtomic.Ring.Bounds
import UbsAtomic.Ring.Regions
import UbsAtomic.Ring.Admission
import UbsAtomic.Ring.Dispatch
import UbsAtomic.Ring.Heartbeat
import UbsAtomic.Ring.SystemChannel
import UbsAtomic.Mutex.WakeOne
import UbsAtomic.Mutex.Leftovers
import UbsAtomic.Mutex.Deadline
import UbsAtomic.Spin.SpinLock
import UbsAtomic.TxRes
import UbsAtomic.Pool.Shutdown
import UbsAtomic.Ring.StaleSkip
