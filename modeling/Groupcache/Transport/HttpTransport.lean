import Mathlib.Data.List.TakeWhile
import Groupcache.Cluster
import Groupcache.Lib.Percent
import Groupcache.Lib.Utf8

/-! `transport/http_transport.go`: the requests that `HttpClient` builds and what `ServeHTTP` does
with them. What `net/url`, protobuf and `encoding/json` do is assumed: see `Codec`. -/
namespace Groupcache.Transport

structure GetRequest where
  group : GoString
  key : GoString

structure SetRequest where
  group : GoString
  key : GoString
  value : Option GoString
  expire : Option ℤ

structure RemoveKeysRequest where
  group : GoString
  keys : List GoString

structure GetResponse where
  value : Option GoString
  expire : Option ℤ

inductive HttpMethod
  | get
  | put
  | delete
  | post
  | other

/-- `path` is the path as it is sent, with its escapes. -/
structure HttpRequest (B : Type) where
  method : HttpMethod
  path : GoString
  body : B

def slash : UInt8 := 47

/-- `_remove-keys/`. -/
def removeKeysPath : GoString := [95, 114, 101, 109, 111, 118, 101, 45, 107, 101, 121, 115, 47]

/-- `BasePath`, and what the transport relies on: `url.PathEscape` and how `r.URL.Path` is made of
the path that is sent; protobuf and JSON with bodies in `B`, where JSON replaces invalid UTF-8. -/
structure Codec (B : Type) where
  basePath : GoString
  pathEscape : GoString → GoString
  decoded : GoString → GoString
  decoded_basePath : ∀ t, decoded (basePath ++ t) = basePath ++ decoded t
  decoded_pathEscape : ∀ s t, decoded (pathEscape s ++ t) = s ++ decoded t
  decoded_slash : ∀ t, decoded (slash :: t) = slash :: decoded t
  decoded_removeKeysPath : decoded removeKeysPath = removeKeysPath
  decoded_nil : decoded [] = []
  noBody : B
  marshalProto : SetRequest → B
  unmarshalProto : B → Except String SetRequest
  proto_roundTrip : ∀ m, unmarshalProto (marshalProto m) = .ok m
  marshalJSON : RemoveKeysRequest → B
  unmarshalJSON : B → Except String RemoveKeysRequest
  json_roundTrip : ∀ m, unmarshalJSON (marshalJSON m) =
    .ok { group := Lib.Utf8.repair m.group, keys := m.keys.map Lib.Utf8.repair }

namespace HttpClient

variable {B : Type} (U : Codec B)

def makeRequest (method : HttpMethod) (group key : GoString) (body : B) : HttpRequest B :=
  { method := method
    path := U.basePath ++ U.pathEscape group ++ slash :: U.pathEscape key
    body := body }

def get (m : GetRequest) : HttpRequest B := makeRequest U .get m.group m.key U.noBody

def set (m : SetRequest) : HttpRequest B := makeRequest U .put m.group m.key (U.marshalProto m)

def remove (m : GetRequest) : HttpRequest B := makeRequest U .delete m.group m.key U.noBody

/-- `RemoveKeys`, with `makeRemoveKeysRequest`. -/
def removeKeys (m : RemoveKeysRequest) : HttpRequest B :=
  { method := .post
    path := U.basePath ++ U.pathEscape m.group ++ slash :: removeKeysPath
    body := U.marshalJSON m }

end HttpClient

/-- The calls of a group that a request leads to; `localRemove` is made for each key in turn. -/
inductive GroupCall
  | get (key : GoString)
  | remoteSet (key : GoString) (value : Option GoString) (expire : Time)
  | localRemove (keys : List GoString)

inductive Handled
  | panic
  | error (status : ℕ) (msg : String)
  | call (group : GoString) (call : GroupCall)

/-- `strings.SplitN(s, "/", 2)`, if it has two parts. -/
def splitSlash (s : GoString) : Option (GoString × GoString) :=
  match s.dropWhile (· != slash) with
  | [] => none
  | _ :: key => some (s.takeWhile (· != slash), key)

/-- The expiry of a message: absent and 0 both stand for none. -/
def expireField : Option ℤ → Time
  | none => .zero
  | some n => decodeExpire n

/-- Methods of a group that is not registered are called on a nil pointer: `GetGroup` wraps it in
an interface, which the check for nil lets through. -/
def invoke (registered : GoString → Bool) (group : GoString) : GroupCall → Handled
  | .localRemove [] => .call group (.localRemove [])
  | c => if registered group then .call group c else .panic

def handleRemoveKeysRequest {B : Type} (U : Codec B) (registered : GoString → Bool)
    (group : GoString) (body : B) : Handled :=
  match U.unmarshalJSON body with
  | .error e => .error 400 ("invalid request: " ++ e)
  | .ok m => invoke registered group (.localRemove m.keys)

def serveHTTP {B : Type} (U : Codec B) (registered : GoString → Bool) (r : HttpRequest B) :
    Handled :=
  if U.basePath <+: U.decoded r.path then
    match splitSlash ((U.decoded r.path).drop U.basePath.length) with
    | none => .error 400 "bad request"
    | some (group, key) =>
      match r.method with
      | .delete => invoke registered group (.localRemove [key])
      | .put =>
        match U.unmarshalProto r.body with
        | .error e => .error 400 e
        | .ok m => invoke registered group (.remoteSet m.key m.value (expireField m.expire))
      | .post =>
        if removeKeysPath <+: key then handleRemoveKeysRequest U registered group r.body
        else .error 404 "invalid path for POST method"
      | .get => invoke registered group (.get key)
      | .other => .error 405 "Only GET, DELETE, PUT, POST are supported"
  else .panic

/-- The response to a `Get` that succeeds. -/
def getResponse (v : ByteView) : GetResponse :=
  { value := some v.bytes, expire := some (encodeExpire v.expire) }

/-- The value that `getFromPeer` makes of a response. -/
def GetResponse.view (res : GetResponse) : ByteView :=
  .withExpire res.value (expireField res.expire)

/-- The request of `setPeer`. -/
def setPeerRequest (group key : GoString) (value : Option GoString) (e : Time) : SetRequest :=
  { group := group, key := key, value := value, expire := some (encodeExpire e) }

variable {B : Type} {U : Codec B} {registered : GoString → Bool} {group key : GoString}

theorem splitSlash_of_not_mem (h : slash ∉ group) (key : GoString) :
    splitSlash (group ++ slash :: key) = some (group, key) := by
  have hall : ∀ b ∈ group, (b != slash) = true := by
    intro b hb
    simpa using fun heq : b = slash => h (heq ▸ hb)
  simp [splitSlash, List.dropWhile_append_of_pos hall, List.takeWhile_append_of_pos hall]

/-- The first part never has a slash. -/
theorem splitSlash_eq_some {s g k : GoString} (h : splitSlash s = some (g, k)) : slash ∉ g := by
  unfold splitSlash at h
  split at h
  · cases h
  · obtain ⟨rfl, rfl⟩ := Prod.mk.inj (Option.some.inj h)
    intro hmem
    simpa using List.mem_takeWhile_imp hmem

/-- What the server sees of the path of a request. -/
theorem decoded_makeRequest {method : HttpMethod} {body : B} :
    U.decoded (HttpClient.makeRequest U method group key body).path =
      U.basePath ++ (group ++ slash :: key) := by
  have hkey : U.decoded (U.pathEscape key) = key := by
    simpa [U.decoded_nil] using U.decoded_pathEscape key []
  rw [HttpClient.makeRequest, List.append_assoc, U.decoded_basePath, U.decoded_pathEscape,
    U.decoded_slash, hkey]

/-- A client's method, with what its message says besides group and key. -/
inductive ClientOp
  | get
  | set (value : Option GoString) (expire : Option ℤ)
  | remove

def ClientOp.request (U : Codec B) (op : ClientOp) (group key : GoString) : HttpRequest B :=
  match op with
  | .get => HttpClient.get U { group := group, key := key }
  | .set value expire =>
    HttpClient.set U { group := group, key := key, value := value, expire := expire }
  | .remove => HttpClient.remove U { group := group, key := key }

/-- The call of a group that a client's method asks for. -/
def ClientOp.call (op : ClientOp) (key : GoString) : GroupCall :=
  match op with
  | .get => .get key
  | .set value expire => .remoteSet key value (expireField expire)
  | .remove => .localRemove [key]

/-- The entries, by group and key, that a request reads, writes or removes. -/
def Handled.entries : Handled → List (GoString × GoString)
  | .call group (.get key) => [(group, key)]
  | .call group (.remoteSet key _ _) => [(group, key)]
  | .call group (.localRemove keys) => keys.map fun key => (group, key)
  | _ => []

variable {op : ClientOp}

theorem invoke_eq_call {g : GoString} {c c' : GroupCall}
    (h : invoke registered g c = .call group c') : g = group := by
  unfold invoke at h
  split at h
  · exact (Handled.call.inj h).1
  · split at h
    · exact (Handled.call.inj h).1
    · cases h

theorem invoke_registered (h : registered group = true) (c : GroupCall) :
    invoke registered group c = .call group c := by
  unfold invoke
  split
  · rfl
  · rw [if_pos h]

theorem exists_splitSlash (group key : GoString) :
    ∃ g k, splitSlash (group ++ slash :: key) = some (g, k) := by
  unfold splitSlash
  split
  · rename_i hnil
    have := List.dropWhile_eq_nil_iff.mp hnil slash (by simp)
    simp at this
  · exact ⟨_, _, rfl⟩

/-- The group is what stands before the first slash; the key of a `Set` is read off its body. -/
theorem serveHTTP_request (U : Codec B) (registered : GoString → Bool) (op : ClientOp)
    {g k : GoString} (h : splitSlash (group ++ slash :: key) = some (g, k)) :
    ∃ k', (k = key → k' = key) ∧
      serveHTTP U registered (op.request U group key) = invoke registered g (op.call k') := by
  cases op with
  | get =>
    refine ⟨k, id, ?_⟩
    simp [ClientOp.request, HttpClient.get, serveHTTP, decoded_makeRequest, h]
    simp [HttpClient.makeRequest, ClientOp.call]
  | set value expire =>
    refine ⟨key, fun _ => rfl, ?_⟩
    simp [ClientOp.request, HttpClient.set, serveHTTP, decoded_makeRequest, h]
    simp [HttpClient.makeRequest, ClientOp.call, U.proto_roundTrip]
  | remove =>
    refine ⟨k, id, ?_⟩
    simp [ClientOp.request, HttpClient.remove, serveHTTP, decoded_makeRequest, h]
    simp [HttpClient.makeRequest, ClientOp.call]

/-- A group's requests reach it exactly if its name has no slash. -/
theorem routed_iff (op : ClientOp) (key : GoString) (hreg : registered group = true) :
    serveHTTP U registered (op.request U group key) = .call group (op.call key) ↔
      slash ∉ group := by
  constructor
  · intro h
    obtain ⟨g, k, hsplit⟩ := exists_splitSlash group key
    obtain ⟨k', _, heq⟩ := serveHTTP_request U registered op hsplit
    rw [heq] at h
    exact invoke_eq_call h ▸ splitSlash_eq_some hsplit
  · intro h
    obtain ⟨k', hk', heq⟩ := serveHTTP_request U registered op (splitSlash_of_not_mem h key)
    rw [heq, hk' rfl, invoke_registered hreg]

theorem entries_invoke (g : GoString) (key : GoString) (op : ClientOp) :
    ∀ entry ∈ (invoke registered g (op.call key)).entries, entry = (g, key) := by
  cases op <;> intro entry hentry <;> simp only [ClientOp.call, invoke] at hentry <;>
    split at hentry <;> simp_all [Handled.entries]

/-- A request for a group without a slash in its name touches no other entry than its own. -/
theorem entries_request (U : Codec B) (registered : GoString → Bool) (op : ClientOp)
    (h : slash ∉ group) (key : GoString) :
    ∀ entry ∈ (serveHTTP U registered (op.request U group key)).entries,
      entry = (group, key) := by
  obtain ⟨k', hk', heq⟩ := serveHTTP_request U registered op (splitSlash_of_not_mem h key)
  rw [heq, hk' rfl]
  exact entries_invoke group key op

/-- Groups are separate namespaces exactly as far as their names have no slash. -/
theorem namespaces_separate (U : Codec B) (registered : GoString → Bool) :
    (∀ op group key, registered group = true →
      (serveHTTP U registered (ClientOp.request U op group key) = .call group (op.call key) ↔
        slash ∉ group)) ∧
    ∀ op op' group group' key key', slash ∉ group → slash ∉ group' →
      (group, key) ≠ (group', key') →
      ∀ entry ∈ (serveHTTP U registered (ClientOp.request U op group key)).entries,
        entry ∉ (serveHTTP U registered (ClientOp.request U op' group' key')).entries := by
  refine ⟨fun op group key hreg => routed_iff op key hreg, ?_⟩
  intro op op' group group' key key' hg hg' hne entry hentry hentry'
  have h := entries_request U registered op hg key entry hentry
  have h' := entries_request U registered op' hg' key' entry hentry'
  exact hne (h.symm.trans h')

/-- A body as the message it stands for. -/
inductive Message
  | none
  | set (m : SetRequest)
  | removeKeys (m : RemoveKeysRequest)

def Message.toSet : Message → Except String SetRequest
  | .set m => .ok m
  | _ => .error "not a SetRequest"

def Message.toRemoveKeys : Message → Except String RemoveKeysRequest
  | .removeKeys m => .ok m
  | _ => .error "not a RemoveKeysRequest"

/-- The bytes `url.PathEscape` leaves alone: letters, digits and `-_.~$&+=:@`. -/
def unreserved (b : UInt8) : Bool :=
  (97 ≤ b && b ≤ 122) || (65 ≤ b && b ≤ 90) || (48 ≤ b && b ≤ 57) ||
    [45, 95, 46, 126, 36, 38, 43, 61, 58, 64].contains b

/-- Percent-encoding below `/_groupcache/`. -/
def percentCodec : Codec Message where
  basePath := [47, 95, 103, 114, 111, 117, 112, 99, 97, 99, 104, 101, 47]
  pathEscape := Lib.Percent.encode unreserved
  decoded := Lib.Percent.decode
  decoded_basePath t := Lib.Percent.decode_append (by decide) t
  decoded_pathEscape s t := Lib.Percent.decode_encode_append (by decide) s t
  decoded_slash t := Lib.Percent.decode_cons (by decide) t
  decoded_removeKeysPath := by decide
  decoded_nil := rfl
  noBody := .none
  marshalProto := .set
  unmarshalProto := Message.toSet
  proto_roundTrip _ := rfl
  marshalJSON m :=
    .removeKeys { group := Lib.Utf8.repair m.group, keys := m.keys.map Lib.Utf8.repair }
  unmarshalJSON := Message.toRemoveKeys
  json_roundTrip _ := rfl

/-- Removing key `c` of group `a/b` removes key `b/c` of group `a`. -/
theorem namespaces_collide :
    serveHTTP percentCodec (fun _ => true)
        (ClientOp.remove.request percentCodec [97, 47, 98] [99]) =
      .call [97] (.localRemove [[98, 47, 99]]) ∧
    serveHTTP percentCodec (fun _ => true) (ClientOp.get.request percentCodec [97] [98, 47, 99]) =
      .call [97] (.get [98, 47, 99]) := by
  constructor <;> rfl

/-- The expiries that the wire format can carry: none, and those within `int64` nanoseconds of the
Unix epoch other than the epoch itself, whose encoding stands for none. -/
def Encodable (e : Time) : Prop :=
  e.isZero = true ∨ e.ns ≠ Time.unixEpoch ∧
    -9223372036854775808 ≤ e.ns - Time.unixEpoch ∧ e.ns - Time.unixEpoch < 9223372036854775808

theorem decodeExpire_of_ne_zero {n : ℤ} (h : n ≠ 0) : decodeExpire n = ⟨n + Time.unixEpoch⟩ := by
  rw [decodeExpire, if_pos h, Time.unix, Int.tdiv_mul_add_tmod]

theorem int64_eq_self_iff {n : ℤ} :
    Time.int64 n = n ↔ -9223372036854775808 ≤ n ∧ n < 9223372036854775808 := by
  have hsize : (UInt64.size : ℤ) = 18446744073709551616 := rfl
  rw [Time.int64, Int.bmod_eq_iff (by decide), hsize]
  omega

/-- An expiry survives its encoding exactly if it is one of those. -/
theorem decode_encode_iff (e : Time) : decodeExpire (encodeExpire e) = e ↔ Encodable e := by
  obtain ⟨ns⟩ := e
  by_cases hz : ns = 0
  · subst hz
    exact ⟨fun _ => Or.inl rfl, fun _ => rfl⟩
  · have hzero : (⟨ns⟩ : Time).isZero = false := by simpa [Time.isZero] using hz
    have henc : encodeExpire ⟨ns⟩ = Time.int64 (ns - Time.unixEpoch) := by
      simp [encodeExpire, hzero, Time.unixNano]
    have hself := int64_eq_self_iff (n := ns - Time.unixEpoch)
    rw [henc, Encodable, hzero]
    by_cases hn : Time.int64 (ns - Time.unixEpoch) = 0
    · have hdec : decodeExpire 0 = ⟨0⟩ := rfl
      rw [hn] at hself ⊢
      rw [hdec, Time.mk.injEq]
      simp only [Bool.false_eq_true, false_or]
      omega
    · rw [decodeExpire_of_ne_zero hn, Time.mk.injEq]
      simp only [Bool.false_eq_true, false_or]
      omega

/-- The expiry denotes the same instant, and there is none exactly if there was none. -/
def Arrives (e e' : Time) : Prop := e'.ns = e.ns ∧ (e'.isZero = true ↔ e.isZero = true)

theorem arrives_iff {e e' : Time} : Arrives e e' ↔ e' = e := by
  obtain ⟨n⟩ := e
  obtain ⟨n'⟩ := e'
  simp only [Arrives, Time.mk.injEq, and_iff_left_iff_imp]
  rintro rfl
  rfl

/-- Whatever group it reaches, a `Set` arrives with its expiry encoded and decoded. -/
theorem expire_of_serveHTTP {g : GoString} {value : Option GoString} {e e' : Time}
    (h : serveHTTP U registered (HttpClient.set U (setPeerRequest group key value e)) =
      .call g (.remoteSet key value e')) : e' = decodeExpire (encodeExpire e) := by
  obtain ⟨g', k, hsplit⟩ := exists_splitSlash group key
  obtain ⟨k', _, heq⟩ :=
    serveHTTP_request U registered (.set value (some (encodeExpire e))) hsplit
  have hinv := heq.symm.trans h
  simp only [ClientOp.call, invoke] at hinv
  split at hinv
  · cases hinv
    rfl
  · cases hinv

/-- An expiry reaches the peer unchanged, on a `Set` and on a `Get`, exactly if it is encodable. -/
theorem expire_survives_iff (U : Codec B) (registered : GoString → Bool) (group key : GoString)
    (value : Option GoString) (v : ByteView) :
    (registered group = true → slash ∉ group → ∃ e', serveHTTP U registered
      (HttpClient.set U (setPeerRequest group key value v.expire)) =
        .call group (.remoteSet key value e')) ∧
    (∀ g e', serveHTTP U registered
      (HttpClient.set U (setPeerRequest group key value v.expire)) =
        .call g (.remoteSet key value e') → (Arrives v.expire e' ↔ Encodable v.expire)) ∧
    (Arrives v.expire (getResponse v).view.expire ↔ Encodable v.expire) := by
  refine ⟨fun hreg hslash => ?_, fun g e' h => ?_, arrives_iff.trans (decode_encode_iff v.expire)⟩
  · exact ⟨_, (routed_iff (.set value (some (encodeExpire v.expire))) key hreg).mpr hslash⟩
  · rw [arrives_iff, expire_of_serveHTTP h]
    exact decode_encode_iff v.expire

/-- Both transfers rebuild a value as the cluster's model says. -/
theorem received_eq {g : GoString} {value : Option GoString} {e e' : Time} (v : ByteView)
    (h : serveHTTP U registered (HttpClient.set U (setPeerRequest group key value e)) =
      .call g (.remoteSet key value e')) :
    ByteView.withExpire value e' = Cluster.received value e ∧
      (getResponse v).view = Cluster.received (some v.bytes) v.expire := by
  rw [expire_of_serveHTTP h]
  exact ⟨rfl, rfl⟩

/-- A value that expired at the Unix epoch reaches the peer as one that never expires. -/
theorem expire_lost : ∃ e', ¬ Time.isZero ⟨Time.unixEpoch⟩ = true ∧
    serveHTTP percentCodec (fun _ => true)
      (HttpClient.set percentCodec (setPeerRequest [103] [107] (some [1]) ⟨Time.unixEpoch⟩)) =
        .call [103] (.remoteSet [107] (some [1]) e') ∧ e'.isZero = true ∧
    (getResponse (.withExpire (some [1]) ⟨Time.unixEpoch⟩)).view.expire.isZero = true :=
  ⟨.zero, by decide, rfl, rfl, rfl⟩

theorem decoded_removeKeys (m : RemoveKeysRequest) :
    U.decoded (HttpClient.removeKeys U m).path =
      U.basePath ++ (m.group ++ slash :: removeKeysPath) := by
  rw [HttpClient.removeKeys, List.append_assoc, U.decoded_basePath, U.decoded_pathEscape,
    U.decoded_slash, U.decoded_removeKeysPath]

theorem serveHTTP_removeKeys (h : slash ∉ group) (keys : List GoString) :
    serveHTTP U registered (HttpClient.removeKeys U { group := group, keys := keys }) =
      handleRemoveKeysRequest U registered group
        (HttpClient.removeKeys U { group := group, keys := keys }).body := by
  simp [serveHTTP, decoded_removeKeys, splitSlash_of_not_mem h]
  simp [HttpClient.removeKeys]

/-- The keys arrive with their invalid UTF-8 replaced. -/
theorem handleRemoveKeysRequest_eq (hreg : registered group = true) (keys : List GoString) :
    handleRemoveKeysRequest U registered group
        (HttpClient.removeKeys U { group := group, keys := keys }).body =
      .call group (.localRemove (keys.map Lib.Utf8.repair)) := by
  simp [HttpClient.removeKeys, handleRemoveKeysRequest, U.json_roundTrip, invoke_registered hreg]

/-- The peer removes exactly the requested keys, in their order, if and only if all are UTF-8. -/
theorem removeKeys_delivers_iff (U : Codec B) (registered : GoString → Bool) {group : GoString}
    (hreg : registered group = true) (keys : List GoString) :
    (slash ∉ group →
      serveHTTP U registered (HttpClient.removeKeys U { group := group, keys := keys }) =
        handleRemoveKeysRequest U registered group
          (HttpClient.removeKeys U { group := group, keys := keys }).body) ∧
    (handleRemoveKeysRequest U registered group
        (HttpClient.removeKeys U { group := group, keys := keys }).body =
      .call group (.localRemove keys) ↔ ∀ key ∈ keys, Lib.Utf8.Valid key) := by
  refine ⟨fun hslash => serveHTTP_removeKeys hslash keys, ?_⟩
  have hmap : keys.map Lib.Utf8.repair = keys ↔ ∀ key ∈ keys, Lib.Utf8.repair key = key := by
    simpa using List.map_inj_left (l := keys) (f := Lib.Utf8.repair) (g := id)
  rw [handleRemoveKeysRequest_eq hreg, Handled.call.injEq, GroupCall.localRemove.injEq]
  simp only [true_and, hmap, Lib.Utf8.repair_eq_self_iff]

theorem removeKeys_delivers_ascii : (fun _ : GoString => true) [103] = true ∧
    (slash ∉ ([103] : GoString) → serveHTTP percentCodec (fun _ => true)
        (HttpClient.removeKeys percentCodec { group := [103], keys := [[107], []] }) =
      handleRemoveKeysRequest percentCodec (fun _ => true) [103]
        (HttpClient.removeKeys percentCodec { group := [103], keys := [[107], []] }).body) ∧
    (handleRemoveKeysRequest percentCodec (fun _ => true) [103]
        (HttpClient.removeKeys percentCodec { group := [103], keys := [[107], []] }).body =
      .call [103] (.localRemove [[107], []]) ↔
        ∀ key ∈ ([[107], []] : List GoString), Lib.Utf8.Valid key) :=
  ⟨rfl, removeKeys_delivers_iff percentCodec (fun _ => true) rfl [[107], []]⟩

/-- A peer that is to remove the key `0xFF` removes U+FFFD instead and answers 200. -/
theorem removeKeys_mangles : serveHTTP percentCodec (fun _ => true)
      (HttpClient.removeKeys percentCodec { group := [103], keys := [[255]] }) =
    .call [103] (.localRemove [[239, 191, 189]]) := by
  rw [serveHTTP_removeKeys (by decide), handleRemoveKeysRequest_eq rfl]
  have hrepair : Lib.Utf8.repair [255] = [239, 191, 189] := by decide +kernel
  rw [List.map_singleton, hrepair]

end Groupcache.Transport
