import KeyEngine.Keyspace.Request
import KeyEngine.Proofs.Bound
import KeyEngine.Proofs.Score.Rounding
import KeyEngine.Proofs.Score.Text
import KeyEngine.Proofs.Bound.Text
import KeyEngine.Proofs.SkipList.Links
import KeyEngine.Proofs.SkipList.Search
import KeyEngine.Proofs.SkipList.Place
import KeyEngine.Proofs.SkipList.Unlink
import KeyEngine.Proofs.SkipList.WellFormed
import KeyEngine.Proofs.SkipList.Runs
import KeyEngine.Proofs.SkipList.Queries
import KeyEngine.Proofs.SkipList.Roster
import KeyEngine.Proofs.SkipList.Ranges
import KeyEngine.Proofs.SkipList.Within
import KeyEngine.Proofs.SkipList.Neighbours
import KeyEngine.Proofs.SkipList.Moves
import KeyEngine.Proofs.SkipList.Words
import KeyEngine.Proofs.SortedSet.Board
import KeyEngine.Proofs.SortedSet.Tracks
import KeyEngine.Proofs.SortedSet.Histories
import KeyEngine.Proofs.SortedSet.Answers
import KeyEngine.Proofs.SortedSet.Words
import KeyEngine.Proofs.SortedSet.Twins
import KeyEngine.Proofs.SortedSet.Combinations
import KeyEngine.Proofs.SortedSet.Windows
import KeyEngine.Proofs.SortedSet.Splits
import KeyEngine.Proofs.SortedSet.Folds
import KeyEngine.Proofs.Store
import KeyEngine.Proofs.FlatMap
import KeyEngine.Proofs.Glob.Search
import KeyEngine.Proofs.Locks.Waiting
import KeyEngine.Proofs.Locks.Histories
import KeyEngine.Proofs.Wheel
import KeyEngine.Proofs.Timer
import KeyEngine.Proofs.Keyspace.Sane
import KeyEngine.Proofs.Keyspace.Close
import KeyEngine.Proofs.Keyspace.Blind
import KeyEngine.Proofs.Keyspace.Requests
import KeyEngine.Proofs.Keyspace.Reachable
import KeyEngine.Proofs.Keyspace.Expiry
import KeyEngine.Proofs.Schedule
import KeyEngine.Proofs.Dealing
import KeyEngine.Proofs.Wheel.Index
import KeyEngine.Proofs.LifeCycle
import KeyEngine.Proofs.Keyspace.Careful
import KeyEngine.Proofs.Keyspace.Failures
import KeyEngine.Proofs.Keyspace.InStep
import KeyEngine.Proofs.Keyspace.Mistyped
import KeyEngine.Proofs.Keyspace.Parallel
import KeyEngine.Proofs.Keyspace.Uniform
import KeyEngine.Proofs.Keyspace.Geometry
import KeyEngine.Proofs.Keyspace.Filled
import KeyEngine.Proofs.Keyspace.Effects
import KeyEngine.Proofs.Keyspace.Frame
import KeyEngine.Proofs.Keyspace.Deleted
import KeyEngine.Proofs.Keyspace.Combined
import KeyEngine.Proofs.Keyspace.Stored
import KeyEngine.Proofs.Keyspace.Paged
import KeyEngine.Proofs.Keyspace.Added
import KeyEngine.Proofs.Keyspace.Renamed
import KeyEngine.Proofs.Keyspace.Lifetimes
