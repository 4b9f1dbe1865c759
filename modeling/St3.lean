import St3.Release
import St3.Booking
import St3.InjectorDrop
import St3.InjectorLen
import St3.PoolLedger
import St3.AtomicHost
import St3.StealLaw
import St3.Reentrant
import St3.PoolSearch
import St3.PoolHeartbeat
import St3.PoolBacklog
import St3.PoolWakes
import St3.PoolHint
import St3.PoolDisplaced
import St3.PoolWakeup
import St3.PoolStop
import St3.Buffers
import St3.PoolOrder
