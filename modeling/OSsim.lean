import OSsim.Access
import OSsim.FlatMemory
import OSsim.FrameFit
import OSsim.AddressLimit
import OSsim.PageTables
import OSsim.Coalesced
import OSsim.FailedAlloc
import OSsim.Replacement
import OSsim.Capacity
import OSsim.Tampering
import OSsim.Residue
import OSsim.Ownership
import OSsim.Stopping
import OSsim.NothingLost
import OSsim.WorkDone
import OSsim.Fairness
import OSsim.TimerBarrier
import OSsim.KillByName
import OSsim.Killall
import OSsim.Policy
import OSsim.Marked
import OSsim.TimeSlice
import OSsim.NoDeadlock
import OSsim.ConfigRoundTrip
import OSsim.LoadRoundTrip
import OSsim.LoadErrors
import OSsim.LockHeld
import OSsim.ArrayQueue
import OSsim.GrowthRange
import OSsim.KillThreads
import OSsim.FromFiles
