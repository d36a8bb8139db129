import Mathlib.Data.List.DropRight
import Groupcache.Lib.Run
import Groupcache.Transport.Server

/-! Whole peer calls over HTTP: the client's request, `ServeHTTP`, and what the client makes of the
response. `net/http` is taken to deliver both, and to close the connection after a panic. What
becomes of a request that its `ServeMux` redirects is left open. -/
namespace Groupcache.Transport

structure HttpResponse (C : Type) where
  status : ℕ
  body : C

/-- The bodies of responses: texts, and what protobuf makes of a `GetResponse`. -/
structure ResponseCodec (C : Type) where
  text : GoString → C
  readAll : C → GoString
  readAll_text : ∀ s, readAll (text s) = s
  marshalProto : GetResponse → C
  unmarshalProto : C → Except String GetResponse
  proto_roundTrip : ∀ m, unmarshalProto (marshalProto m) = .ok m

def bytesOf (s : String) : GoString := s.toUTF8.data.toList

def newline : UInt8 := 10

/-- `strings.Trim(s, "\n")`. -/
def trimNewlines (s : GoString) : GoString :=
  (s.dropWhile (· == newline)).rdropWhile (· == newline)

/-- `http.StatusText`, for the statuses that `ServeHTTP` answers with. -/
def statusText : ℕ → String
  | 200 => "OK"
  | 400 => "Bad Request"
  | 404 => "Not Found"
  | 405 => "Method Not Allowed"
  | 500 => "Internal Server Error"
  | 503 => "Service Unavailable"
  | _ => ""

/-- The errors of the methods of `HttpClient`, with their texts. -/
inductive ClientErr
  | notFound (msg : GoString)
  | remoteCall (msg : GoString)
  | other (msg : GoString)

section Client

variable {C : Type} (R : ResponseCodec C)

/-- What is sent; `http.Error` ends the text with a newline. -/
def Response.send : Response → HttpResponse C
  | .ok => ⟨200, R.text []⟩
  | .value res => ⟨200, R.marshalProto res⟩
  | .error status msg => ⟨status, R.text (bytesOf msg ++ [newline])⟩

/-- The end of `Get`. Of an error's text at most 1 MiB is read. -/
def HttpClient.readGet (res : HttpResponse C) : Except ClientErr GetResponse :=
  if res.status ≠ 200 then
    let msg := (R.readAll res.body).take (1024 * 1024)
    if res.status = 404 then .error (.notFound (trimNewlines msg))
    else if res.status = 503 then .error (.remoteCall (trimNewlines msg))
    else
      let line := toString res.status ++ " " ++ statusText res.status
      .error (.other (bytesOf ("server returned: " ++ line ++ ", ") ++ msg))
  else
    match R.unmarshalProto res.body with
    | .error e => .error (.other (bytesOf ("decoding response body: " ++ e)))
    | .ok m => .ok m

/-- The end of `Set`, `Remove` and `RemoveKeys`. -/
def HttpClient.readStatus (res : HttpResponse C) : Option ClientErr :=
  if res.status ≠ 200 then
    let line := "server returned status " ++ toString res.status ++ ": "
    some (.other (bytesOf line ++ R.readAll res.body))
  else none

end Client

/-- A call of a method of `peer.Client`, by `getFromPeer`, `setPeer`, `removeFromPeer` or
`RemoveKeys`. -/
inductive PeerCall
  | get (key : GoString)
  | set (key : GoString) (value : Option GoString) (expire : Time)
  | remove (key : GoString)
  | removeKeys (keys : List GoString)

/-- What the caller gets. -/
inductive Reply
  | value (v : ByteView)
  | ok
  | error (e : ClientErr)
  /-- The connection ends without a response. -/
  | closed

section Exchange

variable {B C : Type} (U : Codec B) (R : ResponseCodec C)

def PeerCall.request (group : GoString) : PeerCall → HttpRequest B
  | .get key => HttpClient.get U { group := group, key := key }
  | .set key value expire => HttpClient.set U (setPeerRequest group key value expire)
  | .remove key => HttpClient.remove U { group := group, key := key }
  | .removeKeys keys => HttpClient.removeKeys U { group := group, keys := keys }

def PeerCall.read (res : HttpResponse C) : PeerCall → Reply
  | .get _ =>
    match HttpClient.readGet R res with
    | .ok m => .value m.view
    | .error e => .error e
  | _ =>
    match HttpClient.readStatus R res with
    | none => .ok
    | some e => .error e

/-- The segments of a path that stand for a directory. -/
def dots : List GoString := [[46], [46, 46]]

/-- The path of the call is clean, so that the `ServeMux` of `ListenAndServe` hands it to
`ServeHTTP` and does not redirect it. `BasePath` is taken to be clean and to end with a slash. -/
def PeerCall.routed (group : GoString) : PeerCall → Bool
  | .get key | .set key _ _ | .remove key =>
    !group.isEmpty && !dots.contains group && !dots.contains key
  | .removeKeys _ => !group.isEmpty && !dots.contains group

/-- What a call comes to whose request is redirected. -/
abbrev Redirected := Groups → GoString × GoString × PeerCall → Option (Groups × Reply)

/-- A call for a group at a node: the request, what the node does, and the response. -/
def exchange (redirected : Redirected) (net : GoString → Server) (groups : Groups)
    (c : GoString × GoString × PeerCall) : Option (Groups × Reply) :=
  if c.2.2.routed c.1 then
    let r := c.2.2.request U c.1
    match (net c.2.1).serveHTTP U groups { r with body := .ok r.body } with
    | .panic => some (groups, .closed)
    | .hangs => none
    | .returns groups res => some (groups, c.2.2.read R (res.send R))
  else redirected groups c

end Exchange

/-- The text of an error as the client has it. -/
def errorText (msg : String) : GoString :=
  trimNewlines ((bytesOf msg ++ [newline]).take (1024 * 1024))

/-- The error that a client makes of an error of `Get`. -/
def relayed (e : Err) : ClientErr :=
  if e.isNotFound then .notFound (errorText e.message) else .remoteCall (errorText e.message)

/-- A call made of a group without a transport, if the group is there. -/
def Server.direct (n : Server) : Option Cluster → PeerCall → Option (Option Cluster × Reply)
  | none, .removeKeys [] => some (none, .ok)
  | none, _ => some (none, .closed)
  | some σ, .get key =>
    (n.get σ key).map fun r => (some r.1,
      match r.2 with
      | .ok v => .value (Cluster.received (some v.bytes) v.expire)
      | .error e => .error (relayed e))
  | some σ, .set key value expire =>
    some (σ.modify n.address fun g => g.remoteSet key (Cluster.received value expire), .ok)
  | some σ, .remove key => some (σ.modify n.address fun g => g.localRemove key, .ok)
  | some σ, .removeKeys keys =>
    some (σ.modify n.address (Cluster.removeEach (keys.map Lib.Utf8.repair)), .ok)

/-- What a call asks of the group, after its message has been encoded and decoded. -/
def PeerCall.arrived : PeerCall → GroupCall
  | .get key => .get key
  | .set key value expire => .remoteSet key value (decodeExpire (encodeExpire expire))
  | .remove key => .localRemove [key]
  | .removeKeys keys => .localRemove (keys.map Lib.Utf8.repair)

variable {B C : Type} {U : Codec B} {R : ResponseCodec C} {n : Server} {net : GoString → Server}
  {groups : Groups} {σ : Cluster} {g : GoString} {call : PeerCall} {redirected : Redirected}

theorem serveHTTP_peerCall (registered : GoString → Bool) (h : slash ∉ g) (call : PeerCall) :
    serveHTTP U registered (call.request U g) = invoke registered g call.arrived := by
  have hop : ∀ (op : ClientOp) key,
      serveHTTP U registered (op.request U g key) = invoke registered g (op.call key) := by
    intro op key
    obtain ⟨k, hk, heq⟩ := serveHTTP_request U registered op (splitSlash_of_not_mem h key)
    rw [heq, hk rfl]
  cases call with
  | get key => exact hop .get key
  | set key value expire => exact hop (.set value (some (encodeExpire expire))) key
  | remove key => exact hop .remove key
  | removeKeys keys =>
    refine (serveHTTP_removeKeys h keys).trans ?_
    simp [HttpClient.removeKeys, handleRemoveKeysRequest, U.json_roundTrip, PeerCall.arrived]

theorem Server.serveHTTP_peerCall (n : Server) (groups : Groups) (h : slash ∉ g)
    (call : PeerCall) :
    n.serveHTTP U groups { call.request U g with body := .ok (call.request U g).body } =
      n.perform groups (invoke (fun g => (groups g).isSome) g call.arrived) :=
  congrArg (n.perform groups) (Transport.serveHTTP_peerCall _ h call)

theorem removeEach_singleton (key : GoString) :
    Cluster.removeEach [key] = fun g => g.localRemove key := rfl

theorem read_value (key : GoString) (v : ByteView) :
    PeerCall.read R ((respond (.ok v)).send R) (.get key) =
      .value (Cluster.received (some v.bytes) v.expire) := by
  simp [PeerCall.read, respond, Response.send, HttpClient.readGet, R.proto_roundTrip]
  rfl

theorem read_error (key : GoString) (e : Err) :
    PeerCall.read R ((respond (.error e)).send R) (.get key) = .error (relayed e) := by
  unfold relayed errorText
  cases he : e.isNotFound <;>
    simp [PeerCall.read, respond, Response.send, HttpClient.readGet, he, R.readAll_text]

/-- An exchange is a call of the group that the request names. -/
theorem exchange_eq (h : slash ∉ g) (hrouted : call.routed g = true) (y : GoString)
    (groups : Groups) :
    exchange U R redirected net groups (g, y, call) =
      Lib.named (fun σ (c : GoString × PeerCall) => (net c.1).direct σ c.2) groups
        (g, y, call) := by
  simp only [exchange, hrouted, if_true, Lib.named, (net y).serveHTTP_peerCall groups h]
  cases hg : groups g with
  | none =>
    have hself : Function.update groups g none = groups := by rw [← hg, Function.update_eq_self]
    cases call with
    | get | set | remove =>
      simp [PeerCall.arrived, invoke, hg, Server.perform, Server.direct, hself]
    | removeKeys keys =>
      -- without keys the handler never asks for the group
      cases keys with
      | nil =>
        simp [PeerCall.arrived, invoke, hg, Server.perform, Server.direct, hself, PeerCall.read,
          Response.send, HttpClient.readStatus]
      | cons => simp [PeerCall.arrived, invoke, hg, Server.perform, Server.direct, hself]
  | some σ =>
    rw [invoke_registered (by simp [hg])]
    simp only [Server.perform, hg]
    cases call with
    | get key =>
      obtain ⟨⟨σ', res⟩, hr⟩ := Option.isSome_iff_exists.mp ((net y).get_isSome σ key)
      cases res with
      | ok v => simp [PeerCall.arrived, Server.call, Server.direct, hr, read_value]
      | error e => simp [PeerCall.arrived, Server.call, Server.direct, hr, read_error]
    | set | remove | removeKeys =>
      simp [PeerCall.arrived, Server.call, Server.direct, PeerCall.read, Response.send,
        HttpClient.readStatus, Cluster.received, removeEach_singleton]

/-- Bodies of responses as texts and messages. -/
def messageCodec : ResponseCodec (GoString ⊕ GetResponse) where
  text := .inl
  readAll := Sum.elim id fun _ => []
  readAll_text _ := rfl
  marshalProto := .inr
  unmarshalProto := Sum.elim (fun _ => .error "not a GetResponse") .ok
  proto_roundTrip _ := rfl

/-- A text that the client reads as it was written. -/
def Plain (msg : String) : Prop :=
  trimNewlines (bytesOf msg) = bytesOf msg ∧ (bytesOf msg).length ≤ 1024 * 1024

theorem trimNewlines_concat (s : GoString) : trimNewlines (s ++ [newline]) = trimNewlines s := by
  unfold trimNewlines
  rw [List.dropWhile_append]
  split
  · rename_i hnil
    rw [List.isEmpty_iff.mp hnil]
    rfl
  · exact List.rdropWhile_concat_pos _ _ _ rfl

theorem errorText_eq_iff (msg : String) : errorText msg = bytesOf msg ↔ Plain msg := by
  unfold Plain errorText
  generalize bytesOf msg = m
  have hread : m.length ≤ 1024 * 1024 →
      trimNewlines ((m ++ [newline]).take (1024 * 1024)) = trimNewlines m := by
    intro hm
    rcases hm.lt_or_eq with hlt | heq
    · have hlen : (m ++ [newline]).length ≤ 1024 * 1024 := by
        rw [List.length_append]
        exact hlt
      rw [List.take_of_length_le hlen, trimNewlines_concat]
    · rw [List.take_left' heq]
  constructor
  · intro h
    have hm : m.length ≤ 1024 * 1024 := by
      rw [← h]
      refine (List.rdropWhile_prefix _ _).length_le.trans ?_
      refine (List.dropWhile_suffix _).length_le.trans ?_
      simp
    exact ⟨(hread hm).symm.trans h, hm⟩
  · rintro ⟨htrim, hm⟩
    exact (hread hm).trans htrim

/-- An error with its text as bytes. -/
def ClientErr.ofErr : Err → ClientErr
  | .notFound msg => .notFound (bytesOf msg)
  | .remoteCall msg => .remoteCall (bytesOf msg)
  | e => .other (bytesOf e.message)

theorem relayed_eq {e : Err} (h : Plain e.message) :
    relayed e = .ofErr (Cluster.remoteErr e) := by
  rw [← errorText_eq_iff] at h
  unfold relayed Cluster.remoteErr
  split <;> rw [h] <;> rfl

def Reply.ofGet : Except Err ByteView → Reply
  | .ok v => .value v
  | .error e => .error (.ofErr e)

/-- The caller's hot cache after `getFromPeer`. -/
def filled (σ : Cluster) (x key : GoString) : Except Err ByteView → Cluster
  | .ok v => σ.modify x fun g => g.populateHot key v
  | .error _ => σ

/-- The peer calls of the cluster's model are those that the HTTP transport makes. -/
theorem peer_calls_over_http (U : Codec B) (R : ResponseCodec C) (redirected : Redirected)
    (net : GoString → Server) {groups : Groups} {g : GoString} (hslash : slash ∉ g) (hne : g ≠ [])
    (hdots : g ∉ dots) {σ : Cluster} {o : Oracle} {c : Peer.Client} (hg : groups g = some σ.next)
    (hfault : o.fault σ.tick = none) (hself : c.info.isSelf = false)
    (haddr : (net c.hashKey).address = c.hashKey) :
    (∀ key value expire, key ∉ dots →
      exchange U R redirected net groups (g, c.hashKey, .set key value expire) =
        some (Function.update groups g (some (Cluster.setPeer o σ c key value expire).1), .ok) ∧
        (Cluster.setPeer o σ c key value expire).2 = none) ∧
    (∀ key, key ∉ dots → exchange U R redirected net groups (g, c.hashKey, .remove key) =
        some (Function.update groups g (some (Cluster.removeFromPeer o σ c key).1), .ok) ∧
        (Cluster.removeFromPeer o σ c key).2 = none) ∧
    (∀ keys, (∀ key ∈ keys, Lib.Utf8.Valid key) →
      exchange U R redirected net groups (g, c.hashKey, .removeKeys keys) =
        some (Function.update groups g
          (some (Cluster.callPeer o σ c (Cluster.removeEach keys)).1), .ok) ∧
        (Cluster.callPeer o σ c (Cluster.removeEach keys)).2 = none) ∧
    ∀ x key, key ∉ dots →
      (∀ σ' e, (net c.hashKey).get σ.next key = some (σ', .error e) → Plain e.message) →
      ∃ σ' res, exchange U R redirected net groups (g, c.hashKey, .get key) =
          some (Function.update groups g (some σ'), .ofGet res) ∧
        Cluster.getFromPeer o (fun σ y => (net y).get σ key) σ x c key =
          some (filled σ' x key res, res) := by
  refine ⟨fun key value expire hkey => ?_, fun key hkey => ?_, fun keys hkeys => ?_,
    fun x key hkey hplain => ?_⟩
  all_goals
    rw [exchange_eq hslash (by simp_all [PeerCall.routed])]
    simp only [Lib.named, hg]
  · simp [Server.direct, Cluster.setPeer, Cluster.callPeer, hself, hfault, haddr]
  · simp [Server.direct, Cluster.removeFromPeer, Cluster.callPeer, hself, hfault, haddr]
  · have hmap : keys.map Lib.Utf8.repair = keys := by
      conv_rhs => rw [← List.map_id keys]
      exact List.map_congr_left fun key hkey => Lib.Utf8.repair_eq_self_iff.mpr (hkeys key hkey)
    simp [Server.direct, Cluster.callPeer, hself, hfault, haddr, hmap]
  · obtain ⟨⟨σ', res⟩, hget⟩ :=
      Option.isSome_iff_exists.mp ((net c.hashKey).get_isSome σ.next key)
    cases res with
    | ok v =>
      refine ⟨σ', .ok (Cluster.received (some v.bytes) v.expire), ?_, ?_⟩
      · simp [Server.direct, hget, Reply.ofGet]
      · simp [Cluster.getFromPeer, hfault, hget, filled]
    | error e =>
      refine ⟨σ', .error (Cluster.remoteErr e), ?_, ?_⟩
      · simp [Server.direct, hget, Reply.ofGet, relayed_eq (hplain σ' e hget)]
      · simp [Cluster.getFromPeer, hfault, hget, filled]

/-- The `Get` that a host makes of its peer. -/
theorem peer_calls_over_http_hosts : ∃ σ' res,
    exchange percentCodec messageCodec (fun _ _ => none) (fun _ => hostServer)
        (fun _ => some (Cluster.start 1000).next) ([103], Peer.hostB, .get [107]) =
      some (Function.update (fun _ => some (Cluster.start 1000).next) [103] (some σ'),
        .ofGet res) ∧
    Cluster.getFromPeer hostOracle (fun σ _ => hostServer.get σ [107]) (.start 1000) Peer.hostA
      ⟨1, ⟨Peer.hostB, false⟩⟩ [107] = some (filled σ' Peer.hostA [107] res, res) := by
  refine (peer_calls_over_http percentCodec messageCodec (fun _ _ => none) (fun _ => hostServer)
    (c := ⟨1, ⟨Peer.hostB, false⟩⟩) (by decide) (by decide) (by decide) rfl rfl rfl rfl).2.2.2
      Peer.hostA [107] (by decide) ?_
  intro σ' e h
  have hok : ((hostServer.get (Cluster.start 1000).next [107]).map fun r => r.2.isOk) =
      some true := by
    decide +kernel
  rw [h] at hok
  cases hok

end Groupcache.Transport
