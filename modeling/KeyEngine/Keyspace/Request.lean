import KeyEngine.Keyspace.Combine
import KeyEngine.Keyspace.Lifetime
import KeyEngine.Keyspace.Values

/-!
# Requests

The commands of a keyspace as data, with one reply type, and the calls that act on deadlines alone.
-/

namespace KeyEngine

inductive Request where
  | set (key value : Bytes)
  | setFor (key value : Bytes) (seconds : Nat)
  | setNew (key value : Bytes)
  | get (key : Bytes)
  | delete (keys : List Bytes)
  | countPresent (keys : List Bytes)
  | keys (pattern : Bytes)
  | expire (key : Bytes) (seconds : Nat) (condition : ExpireCondition)
  | expireMillis (key : Bytes) (millis : Nat) (condition : ExpireCondition)
  | persist (key : Bytes)
  | lifetime (key : Bytes)
  | kind (key : Bytes)
  | rename (source target : Bytes)
  | size
  | flush
  | addMembers (key : Bytes) (items : List Entry) (flags : AddFlags)
  | increase (key : Bytes) (delta : Score) (member : Bytes)
  | count (key : Bytes)
  | score (key member : Bytes)
  | rank (key member : Bytes)
  | revRank (key member : Bytes)
  | range (key : Bytes) (start stop : Int)
  | revRange (key : Bytes) (start stop : Int)
  | scoreRange (key : Bytes) (range : ScoreRange) (page : Option Page)
  | revScoreRange (key : Bytes) (range : ScoreRange) (page : Option Page)
  | countInRange (key : Bytes) (range : ScoreRange)
  | removeMembers (key : Bytes) (members : List Bytes)
  | removeRange (key : Bytes) (start stop : Int)
  | removeScoreRange (key : Bytes) (range : ScoreRange)
  | popMin (key : Bytes) (n : Nat)
  | popMax (key : Bytes) (n : Nat)
  | difference (keys : List Bytes)
  | union (keys : List Bytes) (weights : Option (List Score)) (agg : Aggregate)
  | intersection (keys : List Bytes) (weights : Option (List Score)) (agg : Aggregate)
  | storeDifference (dest : Bytes) (keys : List Bytes)
  | storeUnion (dest : Bytes) (keys : List Bytes) (weights : Option (List Score)) (agg : Aggregate)
  | storeIntersection (dest : Bytes) (keys : List Bytes) (weights : Option (List Score))
      (agg : Aggregate)
deriving Repr

/-- Calls that act on deadlines without looking at values first. -/
inductive DeadlineCall where
  | setTtl (key : Bytes) (seconds : Nat)
  | setTtlMillis (key : Bytes) (millis : Nat)
  | expireAt (key : Bytes) (time : Nat)
  | drop (key : Bytes)
  | checkLive (key : Bytes)
  | deadline (key : Bytes)
  | remaining (key : Bytes)
  | isEmpty
  | clear
deriving Repr

inductive Reply where
  | done
  | flag (b : Bool)
  | number (n : Nat)
  | number? (n : Option Nat)
  | text? (value : Option Bytes)
  | keys (keys : List Bytes)
  | kind? (kind : Option Kind)
  | lifetime (life : Lifetime)
  | score (s : Score)
  | score? (s : Option Score)
  | entries (entries : List Entry)
deriving DecidableEq, Repr

namespace Command

def ofRequest (now : Nat) : Request → Command Reply
  | .set key value => do Command.set now key value; return .done
  | .setFor key value seconds => do Command.setFor now key value seconds; return .done
  | .setNew key value => .flag <$> Command.setNew now key value
  | .get key => .text? <$> Command.get now key
  | .delete keys => .number <$> Command.delete keys
  | .countPresent keys => .number <$> Command.countPresent now keys
  | .keys pattern => .keys <$> Command.keys now pattern
  | .expire key seconds condition => .flag <$> Command.expire now key seconds condition
  | .expireMillis key millis condition => .flag <$> Command.expireMillis now key millis condition
  | .persist key => .flag <$> Command.persist now key
  | .lifetime key => .lifetime <$> Command.lifetime now key
  | .kind key => .kind? <$> Command.kind? now key
  | .rename source target => do Command.rename now source target; return .done
  | .size => return .number (← getThe Keyspace).size
  | .flush => do Command.flush; return .done
  | .addMembers key items flags => .number <$> Command.addMembers now key items flags
  | .increase key delta member => .score <$> Command.increase now key delta member
  | .count key => .number <$> Command.count now key
  | .score key member => .score? <$> Command.score? now key member
  | .rank key member => .number? <$> Command.rank? now key member
  | .revRank key member => .number? <$> Command.revRank? now key member
  | .range key start stop => .entries <$> Command.range now key start stop
  | .revRange key start stop => .entries <$> Command.revRange now key start stop
  | .scoreRange key range page => .entries <$> Command.scoreRange now key range page
  | .revScoreRange key range page => .entries <$> Command.revScoreRange now key range page
  | .countInRange key range => .number <$> Command.countInRange now key range
  | .removeMembers key members => .number <$> Command.removeMembers now key members
  | .removeRange key start stop => .number <$> Command.removeRange now key start stop
  | .removeScoreRange key range => .number <$> Command.removeScoreRange now key range
  | .popMin key n => .entries <$> Command.popMin now key n
  | .popMax key n => .entries <$> Command.popMax now key n
  | .difference keys => .entries <$> Command.answer now keys (Command.difference keys)
  | .union keys weights agg =>
    .entries <$> Command.answer now keys (Command.union keys weights agg)
  | .intersection keys weights agg =>
    .entries <$> Command.answer now keys (Command.intersection keys weights agg)
  | .storeDifference dest keys =>
    .number <$> Command.store now dest keys (Command.difference keys)
  | .storeUnion dest keys weights agg =>
    .number <$> Command.store now dest keys (Command.union keys weights agg)
  | .storeIntersection dest keys weights agg =>
    .number <$> Command.store now dest keys (Command.intersection keys weights agg)

def ofDeadlineCall (now : Nat) : DeadlineCall → Command Reply
  | .setTtl key seconds => .flag <$> Command.setTtl now key seconds
  | .setTtlMillis key millis => .flag <$> Command.setTtlMillis now key millis
  | .expireAt key time => .flag <$> Command.expireAt now key time
  | .drop key => .flag <$> Command.dropDeadline key
  | .checkLive key => .flag <$> Command.checkLive now key
  | .deadline key => .number? <$> Command.deadline? key
  | .remaining key => .number? <$> Command.remaining now key
  | .isEmpty => return .flag (← getThe Keyspace).deadlines.isEmpty
  | .clear => do Command.clearDeadlines; return .done

end Command

namespace Keyspace

def handle (ks : Keyspace) (now : Nat) (request : Request) : Except Error Reply × Keyspace :=
  ks.run (Command.ofRequest now request)

def handleDeadline (ks : Keyspace) (now : Nat) (call : DeadlineCall) :
    Except Error Reply × Keyspace :=
  ks.run (Command.ofDeadlineCall now call)

end Keyspace

end KeyEngine
