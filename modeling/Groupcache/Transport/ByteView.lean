import Mathlib.Data.Int.Basic
import Mathlib.Order.Lattice

/-! Go strings, instants and `transport.ByteView`. -/
namespace Groupcache

/-- A Go string or byte slice: an arbitrary sequence of bytes. -/
abbrev GoString := List UInt8

/-- `time.Time` as nanoseconds after the zero time, January 1 of year 1, UTC. -/
structure Time where
  ns : ℤ
  deriving DecidableEq, Repr

namespace Time

/-- `time.Time{}`. -/
def zero : Time := ⟨0⟩

def isZero (t : Time) : Bool := t.ns == 0

def before (t u : Time) : Bool := t.ns < u.ns

/-- `int64(time.Second)`. -/
def second : ℤ := 1000000000

/-- Nanoseconds from the zero time to January 1, 1970 UTC. -/
def unixEpoch : ℤ := 62135596800 * second

/-- A value of `int64`: the representative of `x` modulo `2^64` in `[-2^63, 2^63)`. -/
def int64 (x : ℤ) : ℤ := x.bmod UInt64.size

def unixNano (t : Time) : ℤ := int64 (t.ns - unixEpoch)

/-- `time.Unix(sec, nsec)`. -/
def unix (sec nsec : ℤ) : Time := ⟨sec * second + nsec + unixEpoch⟩

end Time

/-- The expiry field of a `SetRequest` or `GetResponse`: 0 stands for no expiry. -/
def encodeExpire (e : Time) : ℤ := if e.isZero then 0 else e.unixNano

/-- How the receiver rebuilds the expiry; Go's `/` and `%` truncate towards zero. -/
def decodeExpire (n : ℤ) : Time :=
  if n ≠ 0 then Time.unix (n.tdiv Time.second) (n.tmod Time.second) else Time.zero

namespace Transport

/-- If `b` is non-nil it is used, else `s` is. -/
structure ByteView where
  b : Option GoString
  s : GoString
  e : Time
  deriving DecidableEq, Repr

namespace ByteView

/-- `ByteViewWithExpire`; a nil slice is `none`. -/
def withExpire (b : Option GoString) (expire : Time) : ByteView := { e := expire, b := b, s := [] }

def expire (v : ByteView) : Time := v.e

def len (v : ByteView) : ℕ :=
  match v.b with
  | some b => b.length
  | none => v.s.length

/-- The bytes the view denotes, as `String` and `ByteSlice` return them. -/
def bytes (v : ByteView) : GoString :=
  match v.b with
  | some b => b
  | none => v.s

@[simp] theorem bytes_withExpire (b : Option GoString) (e : Time) :
    (withExpire b e).bytes = b.getD [] := by
  cases b <;> rfl

end ByteView

/-- What a cache reads of a stored value: its length and its expiry. -/
class CacheValue (V : Type) where
  len : V → ℕ
  expire : V → Time

instance : CacheValue ByteView := ⟨ByteView.len, ByteView.expire⟩

end Transport

end Groupcache
