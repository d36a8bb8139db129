import Mathlib.Data.List.Basic

/-! The errors that travel between the packages, and how `errors.Is` classifies them. -/
namespace Groupcache

inductive Err
  | canceled
  | notFound (msg : String)
  | remoteCall (msg : String)
  | leaderPanicked
  | other (msg : String)
  /-- `fmt.Errorf` with the verb `%w`. -/
  | wrap (msg : String) (inner : Err)
  /-- `MultiError`, which hides what it holds from `errors.Is`. -/
  | multi (errors : List Err)

namespace Err

/-- `errors.Is(err, context.Canceled)`. -/
def isCanceled : Err → Bool
  | canceled => true
  | wrap _ e => e.isCanceled
  | _ => false

def isNotFound : Err → Bool
  | notFound _ => true
  | wrap _ e => e.isNotFound
  | _ => false

def isRemoteCall : Err → Bool
  | remoteCall _ => true
  | wrap _ e => e.isRemoteCall
  | _ => false

def message : Err → String
  | canceled => "context canceled"
  | notFound msg | remoteCall msg | other msg => msg
  | leaderPanicked => "singleflight leader panicked"
  | wrap msg e => msg ++ ": " ++ e.message
  | multi errors => "\n".intercalate (errors.map message)

/-- The three tests of `group.load` after which a peer's error is returned as it is. -/
def isFinal (e : Err) : Bool := e.isCanceled || e.isNotFound || e.isRemoteCall

end Err

/-- `MultiError.NilOrError` of the errors that were added. -/
def nilOrError : List Err → Option Err
  | [] => none
  | es => some (.multi es)

end Groupcache
