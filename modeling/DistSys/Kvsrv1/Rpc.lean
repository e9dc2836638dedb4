import Mathlib.Init

/- The errors, numbers and messages of kvsrv1/rpc/rpc.go, which all servers and clerks share. -/
namespace DistSys.Kvsrv1

/-- The constants of type `Err`. -/
inductive Err where
  | ok
  | errNoKey
  | errVersion
  | errMaybe
  | errWrongLeader
  | errWrongGroup
  deriving DecidableEq, Repr

/-- The constants are strings. -/
def Err.string : Err → String
  | .ok => "OK"
  | .errNoKey => "ErrNoKey"
  | .errVersion => "ErrVersion"
  | .errMaybe => "ErrMaybe"
  | .errWrongLeader => "ErrWrongLeader"
  | .errWrongGroup => "ErrWrongGroup"

abbrev Tversion := UInt64

structure PutArgs where
  key : String
  value : String
  version : Tversion
  clientId : Int64
  seqNum : Int64
  deriving DecidableEq

structure PutReply where
  err : Err
  deriving DecidableEq

structure GetArgs where
  key : String
  clientId : Int64
  seqNum : Int64
  deriving DecidableEq

structure GetReply where
  value : String
  version : Tversion
  err : Err
  deriving DecidableEq

end DistSys.Kvsrv1
