import OsLabs.Lib.Forest
import OsLabs.MergeSort.Merge
import OsLabs.ObjPool.Builds
import OsLabs.ObjPool.Layout
import OsLabs.AllocTest.StrAlloc
import OsLabs.AllocTest.ObjPool
import OsLabs.ObjPool.Levels
import OsLabs.ObjPool.Growth
import OsLabs.ObjPool.Invalid
import OsLabs.HashDb.Crash
import OsLabs.HashDb.Mapping
import OsLabs.HashDb.Program
import OsLabs.HashDb.Rehash
import OsLabs.HashDb.Sizes
import OsLabs.StrAlloc.Damage
import OsLabs.StrAlloc.Ends
import OsLabs.StrAlloc.Grow
import OsLabs.StrAlloc.Leak
import OsLabs.StrAlloc.Tiles
import OsLabs.Barrier.FirstRound
import OsLabs.Barrier.Deadlock
import OsLabs.Coro.Counters
import OsLabs.Coro.Law
import OsLabs.Echo.Capacity
import OsLabs.Echo.Session
import OsLabs.ForkSort.Contract
import OsLabs.ForkSort.Failure
import OsLabs.ForkSort.Total
import OsLabs.Files.Access
import OsLabs.Files.Innocent
import OsLabs.Files.Leaky
import OsLabs.Files.Listdir
import OsLabs.Files.Mkholes
import OsLabs.Files.Writeperf
import OsLabs.Files.WriteperfModes
import OsLabs.Monitor.Ramen
import OsLabs.Monitor.RamenLoss
import OsLabs.Monitor.RideSafety
import OsLabs.Monitor.RideUnboard
import OsLabs.Monitor.Office
import OsLabs.Monitor.Semaphore
import OsLabs.Monitor.Philosophers
import OsLabs.Monitor.PhilosophersRuns
import OsLabs.Monitor.SavagesRuns
import OsLabs.Signals.CycleRuns
import OsLabs.Signals.Demand
import OsLabs.Signals.Reaper
import OsLabs.Signals.Sinit
import OsLabs.Sieve.Burial
import OsLabs.Sieve.Kills
import OsLabs.Sieve.Descriptors
import OsLabs.Sieve.Output
import OsLabs.Queens.Runs
