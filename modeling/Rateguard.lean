import Rateguard.Words
import Rateguard.Gcra
import Rateguard.Admission
import Rateguard.QuotaChanges
import Rateguard.Demand
import Rateguard.HotSet
import Rateguard.Allocation
import Rateguard.Limiter
import Rateguard.Proportion
import Rateguard.FleetShares
import Rateguard.Ascending
import Rateguard.Freshest
import Rateguard.Proto
import Rateguard.Member
import Rateguard.MemberRuns
import Rateguard.Convergence
import Rateguard.Postcard
import Rateguard.Wire
import Rateguard.Auth
import Rateguard.RoundTrip
import Rateguard.Gossip
import Rateguard.Rng
import Rateguard.Partition
import Rateguard.PeerDemand
import Rateguard.Least
import Rateguard.DemandStore
import Rateguard.Reordering
import Rateguard.Staleness
import Rateguard.Replays
import Rateguard.Node
import Rateguard.Reachable
import Rateguard.Frames
import Rateguard.Sound
import Rateguard.Tables
import Rateguard.Leaves
import Rateguard.OutdatedLeave
import Rateguard.Rounds
import Rateguard.HoldDown
import Rateguard.QuorumSize
import Rateguard.Outgoing
import Rateguard.Exchange
import Rateguard.PendingChanges
import Rateguard.Stores
import Rateguard.MembersHeard
import Rateguard.Departed
import Rateguard.DepartedStays
import Rateguard.RoundRobin
import Rateguard.ProbeOrder
import Rateguard.Coverage
import Rateguard.OptimisticUpdate
import Rateguard.AtomicGcra
import Rateguard.AtomicRefines
import Rateguard.Probing
import Rateguard.Rumours
import Rateguard.DatagramNetwork
import Rateguard.Fleet
import Rateguard.TrackedKeys
import Rateguard.GossipRuns
import Rateguard.Unfailing
import Rateguard.UnfailingRounds
import Rateguard.UnfailingNews
import Rateguard.UnfailingRuns
import Rateguard.Datagrams
import Rateguard.PeriodBounds
import Rateguard.SeedNames
import Rateguard.KeyTable
import Rateguard.KeyClaims
import Rateguard.KeyRuns
import Rateguard.AuthMatrix
import Rateguard.IdleBuckets
import Rateguard.SignificantBits
import Rateguard.DoubleDebts
import Rateguard.QuotaChains
import Rateguard.VisitOrder
import Rateguard.HotKeys
import Rateguard.RoundShares
import Rateguard.ShareDelay
import Rateguard.Sends
import Rateguard.SideTables
import Rateguard.TrafficBounds
import Rateguard.Classes
import Rateguard.Driver
import Rateguard.LimitPaths
import Rateguard.FloorCap
import Rateguard.Screen
import Rateguard.Passes
import Rateguard.Cursor
import Rateguard.Letters
import Rateguard.Hearsay
import Rateguard.Provenance
import Rateguard.Introductions
import Rateguard.HotHistory
import Rateguard.KeyBounds
import Rateguard.TwoRuns
import Rateguard.Shadows
import Rateguard.OnCredit
import Rateguard.LoneBuckets
import Rateguard.FleetAdmission
import Rateguard.WriterLock
import Rateguard.LimitChanges
import Rateguard.Lru
import Rateguard.Builder
import Rateguard.DeniedKeys
import Rateguard.OwnRecord
import Rateguard.QuotaWords
import Rateguard.Averages
import Rateguard.DemandSchedules
import Rateguard.SoleClaims
import Rateguard.Stats
import Rateguard.Guard
import Rateguard.GuardTable
import Rateguard.GuardRuns
import Rateguard.GuardCounts
import Rateguard.GuardBuckets
import Rateguard.GuardFleet
import Rateguard.GuardFloor
import Rateguard.GuardNodes
import Rateguard.SignedFleet
import Rateguard.Spacing
import Rateguard.Conforming
import Rateguard.Fading
import Rateguard.Silence
