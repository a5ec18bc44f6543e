import Ltest.Minimize.Greedy
import Ltest.Minimize.Smart
import Ltest.Minimize.Mutation
import Ltest.Minimize.Run
import Ltest.Strategy.Replay
import Ltest.Strategy.Recorded
import Ltest.Strategy.Pct
import Ltest.Strategy.Playing
import Ltest.Strategy.Discipline
import Ltest.Strategy.Admission
import Ltest.Program.Pool
import Ltest.Lincheck.Agree
import Ltest.Lincheck.Sections
import Ltest.Lincheck.Compared
import Ltest.Tla.Restored
import Ltest.Tla.Intermediate
import Ltest.Strategy.Handout
import Ltest.Strategy.Fairness
import Ltest.Strategy.Driven
import Ltest.Strategy.Priorities
import Ltest.Strategy.Termination
import Ltest.Strategy.Histories
import Ltest.Tla.Deadlock
import Ltest.Codegen.Yield
import Ltest.Codegen.Balance
import Ltest.Storage.Moves
import Ltest.Tla.Parked
import Ltest.Tla.Points
import Ltest.Verifying.Mutex
import Ltest.Verifying.RWSpinLock
import Ltest.Verifying.MutexQueue
import Ltest.Verifying.Register
import Ltest.Strategy.Progress
import Ltest.Strategy.Points
import Ltest.Strategy.Yields
