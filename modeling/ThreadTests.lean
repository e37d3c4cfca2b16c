import ThreadTests.Ring.Agreement
import ThreadTests.Ring.Overflow
import ThreadTests.Arene.HandOff
import ThreadTests.Arene.Deadlock
import ThreadTests.Arene.Depths
import ThreadTests.Arene.Occupancy
import ThreadTests.BoundedBuffer.Wakeup
import ThreadTests.BoundedBuffer.Throwing
import ThreadTests.Core.ReleaseAcquire
import ThreadTests.Ring.Weak
import ThreadTests.Ring.WeakSafe
import ThreadTests.Arene.WeakBench
import ThreadTests.Arene.WeakLatency
import ThreadTests.Core.Fair
import ThreadTests.Ring.Programs
import ThreadTests.Arene.Ending
import ThreadTests.BoundedBuffer.Programs
import ThreadTests.BoundedBuffer.TwoThreads
import ThreadTests.BoundedBuffer.Linearizable
import ThreadTests.Counter
import ThreadTests.Ring.Linearizable
import ThreadTests.Ring.WeakPrograms
import ThreadTests.Ring.WeakLinearizable
import ThreadTests.Arene.WeakRuns
