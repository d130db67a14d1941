import Mathlib.Data.Int.Notation
import Mathlib.Logic.Function.Basic

/-! The time statistics of one request, `request_stats.c`, and of the whole
server, `server_stats.c`. -/

namespace Jullop

inductive TimeType
  | totalTime
  | clientReadTime
  | clientWriteTime
  | actorTime
  | queueTime
  deriving DecidableEq, Repr

namespace TimeType

def index : TimeType → Nat
  | totalTime => 0
  | clientReadTime => 1
  | clientWriteTime => 2
  | actorTime => 3
  | queueTime => 4

def bit (type : TimeType) : BitVec 8 := 1#8 <<< type.index

end TimeType

structure Timespec where
  tvSec : Int
  tvNsec : Int
  deriving DecidableEq, Repr

structure PerRequestStats where
  start : TimeType → Timespec
  totalMicros : TimeType → Int
  isTimeSet : BitVec 8

def getTimeDelta (startTime endTime : Timespec) : Int :=
  1000000 * (endTime.tvSec - startTime.tvSec) + (endTime.tvNsec - startTime.tvNsec).tdiv 1000

def perRequestClearTime : PerRequestStats where
  start := fun _ => ⟨0, 0⟩
  totalMicros := fun _ => 0
  isTimeSet := 0

def perRequestIsTimeSet (stats : PerRequestStats) (type : TimeType) : Bool :=
  stats.isTimeSet &&& type.bit ≠ 0

/-- `none` is the exit of the process when the time is already started. -/
def perRequestRecordStart (stats : PerRequestStats) (type : TimeType) (now : Timespec) :
    Option PerRequestStats :=
  if perRequestIsTimeSet stats type then none
  else
    some { stats with
      isTimeSet := stats.isTimeSet ||| type.bit
      start := Function.update stats.start type now }

/-- `none` is the exit of the process when the time is not started. -/
def perRequestRecordEnd (stats : PerRequestStats) (type : TimeType) (now : Timespec) :
    Option PerRequestStats :=
  if perRequestIsTimeSet stats type then
    some { stats with
      isTimeSet := stats.isTimeSet &&& ~~~ type.bit
      totalMicros := Function.update stats.totalMicros type
        (stats.totalMicros type + getTimeDelta (stats.start type) now) }
  else none

def perRequestGetTime (stats : PerRequestStats) (type : TimeType) : Int := stats.totalMicros type

/-- The counters do not wrap, as those of type `atomic_long` would after `2 ^ 63`. -/
structure ServerWideStats where
  avgMicros : TimeType → Int
  activeConnections : Int
  totalRequestsProcessed : Int

def serverStatsInit : ServerWideStats where
  avgMicros := fun _ => 0
  activeConnections := 0
  totalRequestsProcessed := 0

def serverStatsRecordRequest (stats : ServerWideStats) (request : PerRequestStats) :
    ServerWideStats :=
  { stats with avgMicros := fun type => stats.avgMicros type + perRequestGetTime request type }

def serverStatsIncrActiveRequests (stats : ServerWideStats) : ServerWideStats :=
  { stats with activeConnections := stats.activeConnections + 1 }

def serverStatsDecrActiveRequests (stats : ServerWideStats) : ServerWideStats :=
  { stats with activeConnections := stats.activeConnections - 1 }

def serverStatsIncrTotalRequests (stats : ServerWideStats) : ServerWideStats :=
  { stats with totalRequestsProcessed := stats.totalRequestsProcessed + 1 }

end Jullop
