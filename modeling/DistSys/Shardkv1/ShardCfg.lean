import DistSys.Lib.FinMap
import Mathlib.Data.List.Sort

/- Configurations of the sharded store: shardkv1/shardcfg/shardcfg.go, in the order of the source.

   A map parameter is a list of entries with different keys, and a loop over it takes
   them in that order; every order is the order of some such list. A loop over an array
   with two variables runs over a copy of it. `log.Fatalf` ends the process. The loop of
   `Rebalance` that has no bound has fuel here. `Num` is an `int`, which wraps around.

   The messages that are only printed, `String` and `FromString`, and `Copy`, which gives the same
   value, are left out. `Groups` is a map that was made: an assignment to a nil map panics. -/
namespace DistSys.Shardkv1

open Lib

abbrev Tgid := Int

abbrev Tnum := Int64

/-- The number of shards. -/
def nShards : Nat := 12

abbrev Tshid := Fin nShards

/-- An assignment of shards to groups. -/
structure ShardConfig where
  num : Tnum
  shards : Tshid → Tgid
  groups : FinMap Tgid (List String)

/-- Why a call does not return. -/
inductive Halt where
  /-- `log.Fatalf` -/
  | fatal (message : String)
  /-- the loop of `Rebalance` has not ended when the fuel is used up -/
  | endless
  deriving DecidableEq

def makeShardConfig : ShardConfig := { num := 0, shards := fun _ => 0, groups := ∅ }

namespace ShardConfig

/-- The map that `analyze` fills: how many shards a gid has. -/
def counts (c : ShardConfig) (g : Tgid) : Int := (List.finRange nShards).countP (c.shards · = g)

/-- The gids of `Groups`, sorted. -/
def sortedGroups (c : ShardConfig) : List Tgid := c.groups.keys.insertionSort (· ≤ ·)

end ShardConfig

/-- mostgroup, mostn, leastgroup, leastn -/
structure Extremes where
  mg : Tgid
  mn : Int
  lg : Tgid
  ln : Int
  deriving DecidableEq

/-- The loop of `analyze`. -/
def analyzeLoop (counts : Tgid → Int) : List Tgid → Extremes → Extremes
  | [], found => found
  | g :: groups, found =>
    let found := if counts g < found.ln then { found with ln := counts g, lg := g } else found
    let found := if counts g > found.mn then { found with mn := counts g, mg := g } else found
    analyzeLoop counts groups found

namespace ShardConfig

def analyze (c : ShardConfig) : Extremes :=
  analyzeLoop c.counts c.sortedGroups { mn := -1, mg := -1, ln := 257, lg := -1 }

/-- The group with the least number of shards. -/
def least (c : ShardConfig) : Tgid := c.analyze.lg

/-! ## Rebalance -/

def setShard (c : ShardConfig) (s : Tshid) (g : Tgid) : ShardConfig :=
  { c with shards := Function.update c.shards s g }

@[simp] theorem shards_setShard_self (c : ShardConfig) (s : Tshid) (g : Tgid) :
    (c.setShard s g).shards s = g := Function.update_self _ _ _

theorem shards_setShard_of_ne (c : ShardConfig) {s x : Tshid} (h : x ≠ s) (g : Tgid) :
    (c.setShard s g).shards x = c.shards x := Function.update_of_ne h _ _

/-- Shards of unknown groups go to the least loaded one; `shards` is the copy the loop runs over. -/
def assignLoop (shards : Tshid → Tgid) : List Tshid → ShardConfig → ShardConfig
  | [], c => c
  | s :: rest, c =>
    let c := if (c.groups.lookup (shards s)).isNone then c.setShard s c.least else c
    assignLoop shards rest c

/-- The first shard of `mg` goes to `lg`. -/
def moveOne (c : ShardConfig) (mg lg : Tgid) : ShardConfig :=
  match (List.finRange nShards).find? (c.shards · = mg) with
  | some s => c.setShard s lg
  | none => c

/-- From most to least heavily loaded, until the two differ by less than 2. -/
def moveLoop : Nat → ShardConfig → Option ShardConfig
  | 0, _ => none
  | fuel + 1, c =>
    let found := c.analyze
    if found.mn < found.ln + 2 then some c else moveLoop fuel (c.moveOne found.mg found.lg)

/-- `none` when the loop has not ended after one round more than there are shards. -/
def rebalance (c : ShardConfig) : Option ShardConfig :=
  if c.groups.keys.length < 1 then some { c with shards := fun _ => 0 }
  else moveLoop (nShards + 1) (assignLoop c.shards (List.finRange nShards) c)

/-! ## Join and Leave -/

/-- The first server of a group that is among `servers`, with its group. -/
def clash (groups : FinMap Tgid (List String)) (servers : List String) : Option (Tgid × String) :=
  groups.entries.findSome? fun e => (e.2.find? (· ∈ servers)).map fun s1 => (e.1, s1)

/-- The end of `Join` and of `Leave`. -/
def finish (cfg : ShardConfig) (changed : Bool) (message : String) :
    Except Halt (ShardConfig × Bool) :=
  if changed = false then .error (.fatal message)
  else .ok ({ cfg with num := cfg.num + 1 }, true)

def joinLoop : List ((_ : Tgid) × List String) → ShardConfig → Bool → Except Halt (ShardConfig × Bool)
  | [], cfg, changed => cfg.finish changed "Join but no change"
  | ⟨gid, servers⟩ :: rest, cfg, _ =>
    if (cfg.groups.lookup gid).isSome then .ok (cfg, false)
    else match clash cfg.groups servers with
      | some (xgid, s1) =>
        .error (.fatal s!"Join({gid}) puts server {s1} in groups {xgid} and {gid}")
      | none => joinLoop rest { cfg with groups := cfg.groups.insert gid servers } true

/-- The configuration as it is left behind, and what is returned. -/
def join (cfg : ShardConfig) (servers : FinMap Tgid (List String)) :
    Except Halt (ShardConfig × Bool) :=
  joinLoop servers.entries cfg false

def leaveLoop : List Tgid → ShardConfig → Bool → Except Halt (ShardConfig × Bool)
  | [], cfg, changed => cfg.finish changed "Leave but no change"
  | gid :: gids, cfg, _ =>
    if (cfg.groups.lookup gid).isNone then .ok (cfg, false)
    else leaveLoop gids { cfg with groups := cfg.groups.erase gid } true

def leave (cfg : ShardConfig) (gids : List Tgid) : Except Halt (ShardConfig × Bool) :=
  leaveLoop gids cfg false

/-- What `JoinBalance` and `LeaveBalance` do after the change. -/
def thenRebalance : Except Halt (ShardConfig × Bool) → Except Halt (ShardConfig × Bool)
  | .ok (cfg, true) =>
    match cfg.rebalance with
    | some cfg => .ok (cfg, true)
    | none => .error .endless
  | result => result

def joinBalance (cfg : ShardConfig) (servers : FinMap Tgid (List String)) :
    Except Halt (ShardConfig × Bool) :=
  thenRebalance (cfg.join servers)

def leaveBalance (cfg : ShardConfig) (gids : List Tgid) : Except Halt (ShardConfig × Bool) :=
  thenRebalance (cfg.leave gids)

/-! ## The check of the tests -/

/-- The loop of `CheckConfig` that looks for the largest and the smallest count. -/
def boundsLoop (counts : Tgid → Int) : List Tgid → Int × Int → Int × Int
  | [], bounds => bounds
  | g :: groups, (max, min) =>
    let max := if counts g > max then counts g else max
    let min := if counts g < min then counts g else min
    boundsLoop counts groups (max, min)

/-- `CheckConfig`; the error is the message of the failed test. -/
def checkConfig (cfg : ShardConfig) (groups : List Tgid) : Except String Unit :=
  let size := cfg.groups.keys.length
  if size ≠ groups.length then
    .error s!"wanted {groups.length} groups, got {size}"
  else match groups.find? fun g => (cfg.groups.lookup g).isNone with
    | some g => .error s!"missing group {g}"
    | none =>
      match if groups.length > 0 then
          (List.finRange nShards).find? fun s => (cfg.groups.lookup (cfg.shards s)).isNone
        else none with
      | some s =>
        let g := cfg.shards s
        .error s!"shard {s} -> invalid group {g}"
      | none =>
        let (max, min) := boundsLoop cfg.counts cfg.groups.keys (0, 257)
        if max > min + 1 then .error s!"max {max} too much larger than min {min}" else .ok ()

end ShardConfig

end DistSys.Shardkv1
