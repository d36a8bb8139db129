import Groupcache.Cluster

/-! The five sinks of `transport`, with destinations that are not nil, and `SetSinkView`. -/
namespace Groupcache.Transport

/-- `proto.Marshal`, which returns a non-nil slice, and `proto.Unmarshal` into a message. -/
structure ProtoCodec (M : Type) where
  marshal : M → Except Err GoString
  unmarshal : M → GoString → Except Err M

variable {M : Type}

structure StringSink where
  sp : GoString
  v : ByteView

namespace StringSink

def setString (s : StringSink) (v : GoString) (e : Time) : Except Err StringSink :=
  .ok { sp := v, v := { s.v with b := none, s := v, e := e } }

def setBytes (s : StringSink) (v : GoString) (e : Time) : Except Err StringSink := s.setString v e

/-- The end of `SetProto`, with the slice that `proto.Marshal` returned; `s.v.s` is not reset. -/
def setMarshaled (s : StringSink) (b : Option GoString) (e : Time) : Except Err StringSink :=
  .ok { sp := b.getD [], v := { s.v with b := b, e := e } }

def setProto (C : ProtoCodec M) (s : StringSink) (m : M) (e : Time) : Except Err StringSink := do
  let b ← C.marshal m
  s.setMarshaled (some b) e

end StringSink

structure ByteViewSink where
  dst : ByteView

namespace ByteViewSink

def setView (_ : ByteViewSink) (v : ByteView) : Except Err ByteViewSink := .ok ⟨v⟩

def setMarshaled (_ : ByteViewSink) (b : Option GoString) (e : Time) : Except Err ByteViewSink :=
  .ok ⟨{ b := b, s := [], e := e }⟩

def setProto (C : ProtoCodec M) (s : ByteViewSink) (m : M) (e : Time) :
    Except Err ByteViewSink := do
  let b ← C.marshal m
  s.setMarshaled (some b) e

def setBytes (_ : ByteViewSink) (b : GoString) (e : Time) : Except Err ByteViewSink :=
  .ok ⟨{ b := some b, s := [], e := e }⟩

def setString (_ : ByteViewSink) (v : GoString) (e : Time) : Except Err ByteViewSink :=
  .ok ⟨{ b := none, s := v, e := e }⟩

end ByteViewSink

structure ProtoSink (M : Type) where
  dst : M
  v : ByteView

namespace ProtoSink

def setBytes (C : ProtoCodec M) (s : ProtoSink M) (b : GoString) (e : Time) :
    Except Err (ProtoSink M) := do
  let dst ← C.unmarshal s.dst b
  return { dst := dst, v := { b := some b, s := [], e := e } }

def setString (C : ProtoCodec M) (s : ProtoSink M) (v : GoString) (e : Time) :
    Except Err (ProtoSink M) := do
  let dst ← C.unmarshal s.dst v
  return { dst := dst, v := { b := some v, s := [], e := e } }

def setMarshaled (C : ProtoCodec M) (s : ProtoSink M) (b : Option GoString) (e : Time) :
    Except Err (ProtoSink M) := do
  let dst ← C.unmarshal s.dst (b.getD [])
  return { dst := dst, v := { b := b, s := [], e := e } }

def setProto (C : ProtoCodec M) (s : ProtoSink M) (m : M) (e : Time) :
    Except Err (ProtoSink M) := do
  let b ← C.marshal m
  s.setMarshaled C (some b) e

end ProtoSink

structure AllocBytesSink where
  dst : GoString
  v : ByteView

namespace AllocBytesSink

def setView (_ : AllocBytesSink) (v : ByteView) : Except Err AllocBytesSink :=
  match v.b with
  | some b => .ok { dst := b, v := v }
  | none => .ok { dst := v.s, v := v }

/-- A nil slice is `none`. -/
def setBytesOwned (_ : AllocBytesSink) (b : Option GoString) (e : Time) :
    Except Err AllocBytesSink :=
  .ok { dst := b.getD [], v := { b := b, s := [], e := e } }

def setProto (C : ProtoCodec M) (s : AllocBytesSink) (m : M) (e : Time) :
    Except Err AllocBytesSink := do
  let b ← C.marshal m
  s.setBytesOwned (some b) e

def setBytes (s : AllocBytesSink) (b : GoString) (e : Time) : Except Err AllocBytesSink :=
  s.setBytesOwned (some b) e

def setString (_ : AllocBytesSink) (v : GoString) (e : Time) : Except Err AllocBytesSink :=
  .ok { dst := v, v := { b := none, s := v, e := e } }

end AllocBytesSink

structure TruncBytesSink where
  dst : GoString
  v : ByteView

namespace TruncBytesSink

/-- `copy(*s.dst, b)`, and the slice cut to the bytes copied if there are fewer. -/
def copied (dst b : GoString) : GoString :=
  let n := min dst.length b.length
  let written := b.take n ++ dst.drop n
  if n < dst.length then written.take n else written

def setBytesOwned (s : TruncBytesSink) (b : Option GoString) (e : Time) :
    Except Err TruncBytesSink :=
  .ok { dst := copied s.dst (b.getD []), v := { b := b, s := [], e := e } }

def setProto (C : ProtoCodec M) (s : TruncBytesSink) (m : M) (e : Time) :
    Except Err TruncBytesSink := do
  let b ← C.marshal m
  s.setBytesOwned (some b) e

def setBytes (s : TruncBytesSink) (b : GoString) (e : Time) : Except Err TruncBytesSink :=
  s.setBytesOwned (some b) e

def setString (s : TruncBytesSink) (v : GoString) (e : Time) : Except Err TruncBytesSink :=
  .ok { dst := copied s.dst v, v := { b := none, s := v, e := e } }

theorem copied_eq (dst b : GoString) : copied dst b = b.take dst.length := by
  rw [copied]
  rcases Nat.lt_or_ge b.length dst.length with h | h
  · simp [Nat.min_eq_right h.le, h, List.take_of_length_le h.le]
  · simp [Nat.min_eq_left h]

end TruncBytesSink

/-- A sink of any kind, with what its destination holds. -/
inductive CallerSink (M : Type)
  | string (s : StringSink)
  | byteView (s : ByteViewSink)
  | proto (s : ProtoSink M)
  | allocBytes (s : AllocBytesSink)
  | truncBytes (s : TruncBytesSink)

/-- A call of one of the Set methods. -/
inductive SetCall (M : Type)
  | setString (v : GoString) (e : Time)
  | setBytes (v : GoString) (e : Time)
  | setProto (m : M) (e : Time)

namespace SetCall

/-- The bytes of the value. -/
def bytes (C : ProtoCodec M) : SetCall M → Except Err GoString
  | setString v _ | setBytes v _ => .ok v
  | setProto m _ => C.marshal m

def expire : SetCall M → Time
  | setString _ e | setBytes _ e | setProto _ e => e

end SetCall

/-- What a caller reads from a destination. -/
inductive Content (M : Type)
  | bytes (b : GoString)
  | message (m : M)

namespace CallerSink

def set (C : ProtoCodec M) : CallerSink M → SetCall M → Except Err (CallerSink M)
  | string s, .setString v e => (s.setString v e).map string
  | string s, .setBytes v e => (s.setBytes v e).map string
  | string s, .setProto m e => (s.setProto C m e).map string
  | byteView s, .setString v e => (s.setString v e).map byteView
  | byteView s, .setBytes v e => (s.setBytes v e).map byteView
  | byteView s, .setProto m e => (s.setProto C m e).map byteView
  | proto s, .setString v e => (s.setString C v e).map proto
  | proto s, .setBytes v e => (s.setBytes C v e).map proto
  | proto s, .setProto m e => (s.setProto C m e).map proto
  | allocBytes s, .setString v e => (s.setString v e).map allocBytes
  | allocBytes s, .setBytes v e => (s.setBytes v e).map allocBytes
  | allocBytes s, .setProto m e => (s.setProto C m e).map allocBytes
  | truncBytes s, .setString v e => (s.setString v e).map truncBytes
  | truncBytes s, .setBytes v e => (s.setBytes v e).map truncBytes
  | truncBytes s, .setProto m e => (s.setProto C m e).map truncBytes

def view : CallerSink M → ByteView
  | string s => s.v
  | byteView s => s.dst
  | proto s => s.v
  | allocBytes s => s.v
  | truncBytes s => s.v

/-- `SetSinkView`. -/
def setSinkView (C : ProtoCodec M) (s : CallerSink M) (v : ByteView) :
    Except Err (CallerSink M) :=
  match s with
  | byteView s => (s.setView v).map byteView
  | allocBytes s => (s.setView v).map allocBytes
  | s =>
    match v.b with
    | some b => s.set C (.setBytes b v.expire)
    | none => s.set C (.setString v.s v.expire)

/-- A `ByteView` is read through its methods. -/
def content : CallerSink M → Content M
  | string s => .bytes s.sp
  | byteView s => .bytes s.dst.bytes
  | proto s => .message s.dst
  | allocBytes s => .bytes s.dst
  | truncBytes s => .bytes s.dst

/-- What the destination is to hold of a value. -/
def filled (C : ProtoCodec M) (s : CallerSink M) (b : GoString) : Except Err (Content M) :=
  match s with
  | proto s => (C.unmarshal s.dst b).map .message
  | truncBytes s => .ok (.bytes (b.take s.dst.length))
  | _ => .ok (.bytes b)

/-- The destination, and what `View()` returns. -/
def seen (s : CallerSink M) : Content M × GoString × Time :=
  (s.content, s.view.bytes, s.view.expire)

variable (C : ProtoCodec M) (s : CallerSink M)

/-- `SetString` and `SetBytes` pass on the bytes, in every sink. -/
theorem setBytes_seen {v : GoString} {e : Time} {c : SetCall M}
    (hc : c = .setString v e ∨ c = .setBytes v e) :
    (s.set C c).map seen = (s.filled C v).map (·, v, e) := by
  cases s with
  | string s | byteView s | allocBytes s => rcases hc with rfl | rfl <;> rfl
  | truncBytes s =>
    have hdst := TruncBytesSink.copied_eq s.dst v
    rcases hc with rfl | rfl <;> exact congrArg (fun d => Except.ok (Content.bytes d, v, e)) hdst
  | proto s =>
    rcases hc with rfl | rfl <;> simp only [set, filled, ProtoSink.setString, ProtoSink.setBytes]
      <;> cases C.unmarshal s.dst v <;> rfl

/-- `SetProto` passes on what the message marshals to. -/
theorem setProto_seen (m : M) (e : Time) :
    (s.set C (.setProto m e)).map seen =
      (C.marshal m).bind fun b => (s.filled C b).map (·, b, e) := by
  cases hm : C.marshal m with
  | error err =>
    cases s <;> simp only [set, StringSink.setProto, ByteViewSink.setProto, ProtoSink.setProto,
      AllocBytesSink.setProto, TruncBytesSink.setProto, hm] <;> rfl
  | ok b =>
    have hbytes := s.setBytes_seen C (v := b) (e := e) (Or.inr rfl)
    refine Eq.trans ?_ hbytes
    cases s <;> simp only [set, StringSink.setProto, ByteViewSink.setProto, ProtoSink.setProto,
      AllocBytesSink.setProto, TruncBytesSink.setProto, hm] <;> rfl

/-- What a sink shows after a Set method depends on the bytes and the expiry of the value only. -/
theorem set_seen (c : SetCall M) :
    (s.set C c).map seen = (c.bytes C).bind fun b => (s.filled C b).map (·, b, c.expire) := by
  cases c with
  | setString v e => exact s.setBytes_seen C (Or.inl rfl)
  | setBytes v e => exact s.setBytes_seen C (Or.inr rfl)
  | setProto m e => exact s.setProto_seen C m e

/-- So does what it shows after `SetSinkView`, whichever field of the view holds the bytes. -/
theorem setSinkView_seen (v : ByteView) :
    (s.setSinkView C v).map seen = (s.filled C v.bytes).map (·, v.bytes, v.expire) := by
  have hset : (match v.b with
      | some b => s.set C (.setBytes b v.expire)
      | none => s.set C (.setString v.s v.expire)).map seen =
      (s.filled C v.bytes).map (·, v.bytes, v.expire) := by
    unfold ByteView.bytes
    cases v.b with
    | some b => exact s.setBytes_seen C (Or.inr rfl)
    | none => exact s.setBytes_seen C (Or.inl rfl)
  cases s with
  | string s | proto s | truncBytes s => exact hset
  | byteView s => rfl
  | allocBytes s =>
    simp only [setSinkView, AllocBytesSink.setView]
    cases hb : v.b <;> simp [seen, content, view, filled, ByteView.bytes, hb, Except.map]

/-- `SetSinkView` of a view and a Set method given the same bytes show the same. -/
theorem seen_of_setSinkView {v : ByteView} {c : SetCall M} {s' : CallerSink M}
    (hc : c.bytes C = .ok v.bytes) (h : s.setSinkView C v = .ok s') :
    ∃ t, s.set C c = .ok t ∧ s'.content = t.content ∧ s'.view.bytes = t.view.bytes ∧
      s'.view.expire = v.expire ∧ t.view.expire = c.expire := by
  have hview := s.setSinkView_seen C v
  have hset := s.set_seen C c
  rw [h] at hview
  rw [hc] at hset
  cases hf : s.filled C v.bytes with
  | error err => simp [hf, Except.map] at hview
  | ok x =>
    cases ht : s.set C c with
    | error err => simp [hf, ht, Except.map, Except.bind] at hset
    | ok t =>
      simp only [hf, ht, Except.map, Except.bind, seen, Except.ok.injEq, Prod.mk.injEq]
        at hset hview
      exact ⟨t, rfl, hview.1.trans hset.1.symm, hview.2.1.trans hset.2.1.symm, hview.2.2, hset.2.2⟩

/-- The view of a filled sink has the bytes and the expiry that the Set method was given. -/
theorem set_view {c : SetCall M} {t : CallerSink M} (h : s.set C c = .ok t) :
    c.bytes C = .ok t.view.bytes ∧ t.view.expire = c.expire := by
  have hset := s.set_seen C c
  rw [h] at hset
  cases hb : c.bytes C with
  | error err => simp [hb, Except.map, Except.bind] at hset
  | ok b =>
    cases hf : s.filled C b with
    | error err => simp [hb, hf, Except.map, Except.bind] at hset
    | ok x =>
      simp only [hb, hf, Except.map, Except.bind, seen, Except.ok.injEq, Prod.mk.injEq] at hset
      exact ⟨by rw [hset.2.1], hset.2.2⟩

/-- The sink as a group sees it. -/
def sink : Sink where
  setView v :=
    match s.setSinkView C v with
    | .ok _ => none
    | .error err => some err

/-- The sink into which a node reads what it serves to a peer accepts every view. -/
theorem sink_allocBytes (a : AllocBytesSink) : (allocBytes a).sink C = .allocating := by
  have hok : ∀ v, ((allocBytes a).sink C).setView v = none := by
    intro v
    simp only [sink, setSinkView, AllocBytesSink.setView]
    cases v.b <;> rfl
  exact congrArg Sink.mk (funext hok)

end CallerSink

end Groupcache.Transport
