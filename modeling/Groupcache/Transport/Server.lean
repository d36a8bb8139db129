import Groupcache.Coherence
import Groupcache.Transport.HttpTransport

/-! `ServeHTTP` to its end, at a node with any groups registered: the calls of their methods and the
response. A call that a `Get` makes of a peer is taken to return, with a value or an error. -/
namespace Groupcache.Transport

/-- How the peers of a group answer the `Get` of a key. -/
abbrev Answering := GoString → Cluster → GoString → Cluster × Except Err ByteView

/-- A group method that `ServeHTTP` calls runs in the cluster of the nodes that have the group. -/
structure Server where
  address : GoString
  site : GoString → Site
  oracle : Oracle
  answer : Answering

/-- The groups of an instance, by name. -/
abbrev Groups := GoString → Option Cluster

inductive Response
  | ok
  | value (res : GetResponse)
  | error (status : ℕ) (msg : String)

inductive Ending
  | panic
  | hangs
  | returns (groups : Groups) (res : Response)

/-- `Get` at a node, with the sink that `ServeHTTP` gives it. -/
def Server.get (n : Server) (σ : Cluster) (key : GoString) : Cluster.Served :=
  match Cluster.lookupCache n.oracle (σ.bump n.address .gets) n.address key with
  | (σ, some v) => some (σ.bump n.address .cacheHits, .ok v)
  | (σ, none) =>
    (Cluster.load n.site n.oracle (fun σ y => some (n.answer key σ y)) σ n.address key).map
      fun r => (r.1, r.2.1)

/-- It is the `Get` of the cluster, whose peers answer by a `Get` of their own. -/
theorem Server.get_eq {n : Server} {fuel : ℕ} {key : GoString} (σ : Cluster)
    (h : ∀ σ y, Cluster.get n.site n.oracle fuel σ y key (some .allocating) =
      some (n.answer key σ y)) :
    n.get σ key = Cluster.get n.site n.oracle (fuel + 1) σ n.address key (some .allocating) := by
  have hdeliver : ∀ v, Cluster.deliver .allocating v = .ok v := fun _ => rfl
  simp only [get, Cluster.get, h, hdeliver, ite_self]
  rcases Cluster.lookupCache n.oracle (σ.bump n.address .gets) n.address key with ⟨σ₁, _ | v⟩
  · simp only
    rcases Cluster.load n.site n.oracle (fun σ y => some (n.answer key σ y)) σ₁ n.address key
      with _ | ⟨σ₂, _ | v, pop⟩ <;> rfl
  · rfl

/-- What becomes of the result of a `Get`. -/
def respond : Except Err ByteView → Response
  | .ok v => .value (getResponse v)
  | .error e => .error (if e.isNotFound then 404 else 503) e.message

/-- A call of a method of a group. -/
def Server.call (n : Server) (σ : Cluster) : GroupCall → Option (Cluster × Response)
  | .get key => (n.get σ key).map fun r => (r.1, respond r.2)
  | .remoteSet key value expire =>
    some (σ.modify n.address fun g => g.remoteSet key (.withExpire value expire), .ok)
  | .localRemove keys => some (σ.modify n.address (Cluster.removeEach keys), .ok)

/-- Carry out what the request has been found to ask for. An empty removal calls no method. -/
def Server.perform (n : Server) (groups : Groups) : Handled → Ending
  | .panic => .panic
  | .error status msg => .returns groups (.error status msg)
  | .call group c =>
    match groups group with
    | none => .returns groups .ok
    | some σ =>
      match n.call σ c with
      | none => .hangs
      | some r => .returns (Function.update groups group (some r.1)) r.2

variable {B : Type}

/-- Group and key, if the rest of the path has a slash. -/
def target {C : Type} (U : Codec B) (r : HttpRequest C) : Option (GoString × GoString) :=
  splitSlash ((U.decoded r.path).drop U.basePath.length)

/-- The body is read for a `Set` and for the removal of keys only. -/
def readsBody {C : Type} (U : Codec B) (r : HttpRequest C) : Bool :=
  match r.method, target U r with
  | .put, some _ => true
  | .post, some (_, key) => removeKeysPath <+: key
  | _, _ => false

/-- `ServeHTTP`; reading the body may fail. -/
def Server.serveHTTP (n : Server) (U : Codec B) (groups : Groups)
    (r : HttpRequest (Except String B)) : Ending :=
  match r.body with
  | .ok body =>
    n.perform groups
      (Transport.serveHTTP U (fun g => (groups g).isSome) { r with body := body })
  | .error e =>
    if readsBody U r then .returns groups (.error 500 e)
    else n.perform groups
      (Transport.serveHTTP U (fun g => (groups g).isSome) { r with body := U.noBody })

variable {n : Server} {σ : Cluster} {groups : Groups} {U : Codec B}
  {r : HttpRequest (Except String B)}

theorem Server.get_isSome (n : Server) (σ : Cluster) (key : GoString) : (n.get σ key).isSome := by
  unfold get
  split
  · rfl
  · rw [Option.isSome_map]
    unfold Cluster.load
    split
    · rfl
    · exact Cluster.loadMiss_isSome fun _ _ _ => rfl

theorem Server.call_isSome (n : Server) (σ : Cluster) (c : GroupCall) : (n.call σ c).isSome := by
  cases c with
  | get key => simpa [call] using n.get_isSome σ key
  | remoteSet | localRemove => rfl

/-- Nothing but a nil group makes the handler panic, and nothing makes it hang. -/
theorem Server.perform_returns (n : Server) (groups : Groups) {h : Handled} (hh : h ≠ .panic) :
    ∃ groups' res, n.perform groups h = .returns groups' res := by
  cases h with
  | panic => exact (hh rfl).elim
  | error status msg => exact ⟨groups, .error status msg, rfl⟩
  | call group c =>
    rw [perform]
    split
    · exact ⟨groups, .ok, rfl⟩
    · rename_i σ _
      obtain ⟨r, hr⟩ := Option.isSome_iff_exists.mp (n.call_isSome σ c)
      rw [hr]
      exact ⟨_, _, rfl⟩

/-- What `ServeHTTP` is to do: return, with 400 if the path names no group and with 404 if it names
one that is not registered, and leave the groups alone then. -/
structure Answers (U : Codec B) (groups : Groups) (r : HttpRequest (Except String B))
    (ending : Ending) : Prop where
  returns : ∃ groups' res, ending = .returns groups' res
  no_slash : target U r = none → ∃ msg, ending = .returns groups (.error 400 msg)
  no_group : ∀ g k, target U r = some (g, k) → groups g = none →
    ∃ msg, ending = .returns groups (.error 404 msg)

section Handled

variable {registered : GoString → Bool} {q : HttpRequest B} {g k : GoString}

theorem serveHTTP_of_no_slash (hpath : U.basePath <+: U.decoded q.path) (ht : target U q = none) :
    serveHTTP U registered q = .error 400 "bad request" := by
  unfold target at ht
  rw [serveHTTP, if_pos hpath, ht]

/-- A group that is registered is not nil. -/
theorem serveHTTP_ne_panic (hpath : U.basePath <+: U.decoded q.path)
    (ht : target U q = some (g, k)) (hreg : registered g = true) :
    serveHTTP U registered q ≠ .panic := by
  unfold target at ht
  rw [serveHTTP, if_pos hpath, ht]
  simp only [invoke_registered hreg, handleRemoveKeysRequest]
  split
  · simp
  · split <;> simp
  · split
    · split <;> simp
    · simp
  · simp
  · simp

/-- A path that `POST` does not know is refused before the group is used. -/
theorem serveHTTP_post (hpath : U.basePath <+: U.decoded q.path) (ht : target U q = some (g, k))
    (hm : q.method = .post) (hk : ¬removeKeysPath <+: k) :
    serveHTTP U registered q = .error 404 "invalid path for POST method" := by
  unfold target at ht
  rw [serveHTTP, if_pos hpath, ht]
  simp only [hm, if_neg hk]

/-- No other request for a group that is not registered is answered with 404. -/
theorem serveHTTP_not_registered (registered : GoString → Bool)
    (hpath : U.basePath <+: U.decoded q.path) (ht : target U q = some (g, k))
    (hreg : registered g = false)
    (h : ¬(q.method = .post ∧ ¬removeKeysPath <+: k)) :
    serveHTTP U registered q = .panic ∨ serveHTTP U registered q = .call g (.localRemove []) ∨
      ∃ status msg, status ≠ 404 ∧ serveHTTP U registered q = .error status msg := by
  have hnil : ∀ c, invoke registered g c = .panic ∨
      invoke registered g c = .call g (.localRemove []) := by
    intro c
    unfold invoke
    split
    · exact Or.inr rfl
    · exact Or.inl (by simp [hreg])
  have hinvoke : ∀ c, invoke registered g c = .panic ∨
      invoke registered g c = .call g (.localRemove []) ∨
        ∃ status msg, status ≠ 404 ∧ invoke registered g c = .error status msg :=
    fun c => (hnil c).imp_right Or.inl
  unfold target at ht
  rw [serveHTTP, if_pos hpath, ht]
  simp only [handleRemoveKeysRequest]
  split
  · exact hinvoke _
  · split
    · exact Or.inr (Or.inr ⟨400, _, by simp, rfl⟩)
    · exact hinvoke _
  · rename_i hm
    have hk : removeKeysPath <+: k := by
      by_contra hk
      exact h ⟨hm, hk⟩
    rw [if_pos hk]
    split
    · exact Or.inr (Or.inr ⟨400, _, by simp, rfl⟩)
    · exact hinvoke _
  · exact hinvoke _
  · exact Or.inr (Or.inr ⟨405, _, by simp, rfl⟩)

end Handled

/-- Unless the body cannot be read, the request is carried out. -/
theorem Server.serveHTTP_cases (n : Server) (U : Codec B) (groups : Groups)
    (r : HttpRequest (Except String B)) :
    (readsBody U r = true ∧ ∃ e, n.serveHTTP U groups r = .returns groups (.error 500 e)) ∨
      ∃ body, n.serveHTTP U groups r = n.perform groups
        (Transport.serveHTTP U (fun g => (groups g).isSome) { r with body := body }) := by
  unfold serveHTTP
  cases r.body with
  | ok body => exact Or.inr ⟨body, rfl⟩
  | error e =>
    cases hb : readsBody U r with
    | true => exact Or.inl ⟨rfl, e, by simp⟩
    | false => exact Or.inr ⟨U.noBody, by simp⟩

theorem readsBody_eq_false (h : ∀ g k, target U r = some (g, k) →
    r.method = .post ∧ ¬removeKeysPath <+: k) : readsBody U r = false := by
  unfold readsBody
  split
  · rename_i hm ht
    have := (h _ _ ht).1
    rw [hm] at this
    cases this
  · rename_i hm ht
    simpa using (h _ _ ht).2
  · rfl

theorem Server.answers_of_no_slash (n : Server) (groups : Groups)
    (hpath : U.basePath <+: U.decoded r.path) (ht : target U r = none) :
    Answers U groups r (n.serveHTTP U groups r) := by
  have hreads : readsBody U r = false := readsBody_eq_false (by simp [ht])
  rcases n.serveHTTP_cases U groups r with ⟨hb, _⟩ | ⟨body, hbody⟩
  · rw [hreads] at hb
    cases hb
  · rw [hbody, serveHTTP_of_no_slash (q := { r with body := body }) hpath ht]
    exact ⟨⟨_, _, rfl⟩, fun _ => ⟨_, rfl⟩, by simp [ht]⟩

theorem Server.answers_of_post (n : Server) (groups : Groups)
    (hpath : U.basePath <+: U.decoded r.path) {g k : GoString} (ht : target U r = some (g, k))
    (hm : r.method = .post) (hk : ¬removeKeysPath <+: k) :
    Answers U groups r (n.serveHTTP U groups r) := by
  have hreads : readsBody U r = false := by
    refine readsBody_eq_false fun g' k' ht' => ?_
    cases ht.symm.trans ht'
    exact ⟨hm, hk⟩
  rcases n.serveHTTP_cases U groups r with ⟨hb, _⟩ | ⟨body, hbody⟩
  · rw [hreads] at hb
    cases hb
  · rw [hbody, serveHTTP_post (q := { r with body := body }) hpath ht hm hk]
    exact ⟨⟨_, _, rfl⟩, by simp [ht], fun _ _ _ _ => ⟨_, rfl⟩⟩

theorem Server.answers_of_registered (n : Server) (hpath : U.basePath <+: U.decoded r.path)
    {g k : GoString} (ht : target U r = some (g, k)) (hg : (groups g).isSome = true) :
    Answers U groups r (n.serveHTTP U groups r) := by
  refine ⟨?_, by simp [ht], fun g' k' ht' hg' => ?_⟩
  · rcases n.serveHTTP_cases U groups r with ⟨_, e, he⟩ | ⟨body, hbody⟩
    · exact ⟨_, _, he⟩
    · rw [hbody]
      exact n.perform_returns groups (serveHTTP_ne_panic hpath ht hg)
  · cases ht.symm.trans ht'
    rw [hg'] at hg
    cases hg

/-- `ServeHTTP` does what it is to do exactly if the group is registered, or nobody uses it: the
path names no group, or it is one that `POST` does not know. -/
theorem Server.answers_iff (n : Server) (U : Codec B) (groups : Groups)
    (r : HttpRequest (Except String B)) (hpath : U.basePath <+: U.decoded r.path) :
    Answers U groups r (n.serveHTTP U groups r) ↔
      ∀ g k, target U r = some (g, k) → groups g = none →
        r.method = .post ∧ ¬removeKeysPath <+: k := by
  constructor
  · intro h g k ht hg
    by_contra hne
    obtain ⟨msg, hmsg⟩ := h.no_group g k ht hg
    rcases n.serveHTTP_cases U groups r with ⟨_, e, he⟩ | ⟨body, hbody⟩
    · rw [he] at hmsg
      cases hmsg
    · rcases serveHTTP_not_registered (q := { r with body := body })
        (fun g => (groups g).isSome) hpath ht (by simp [hg]) hne with
        hs | hs | ⟨status, msg', hstatus, hs⟩ <;> rw [hbody, hs] at hmsg
      · cases hmsg
      · simp [perform, hg] at hmsg
      · cases hmsg
        exact hstatus rfl
  · intro h
    cases ht : target U r with
    | none => exact n.answers_of_no_slash groups hpath ht
    | some gk =>
      cases hg : groups gk.1 with
      | none =>
        obtain ⟨hm, hk⟩ := h gk.1 gk.2 ht hg
        exact n.answers_of_post groups hpath ht hm hk
      | some σ => exact n.answers_of_registered hpath ht (by simp [hg])

/-- A node of two members, with the groups of their cluster under the name `g`. -/
def hostServer : Server :=
  { address := Peer.hostB
    site := hostSite
    oracle := hostOracle
    answer := fun _ σ _ => (σ, .error (.other "connection refused")) }

/-- `/_groupcache/g/k`, with the method. -/
def requestOf (method : HttpMethod) : HttpRequest (Except String Message) :=
  { method := method
    path := percentCodec.basePath ++ [103, 47, 107]
    body := .ok .none }

theorem answers_registered : percentCodec.basePath <+: percentCodec.decoded (requestOf .get).path ∧
    Answers percentCodec (fun _ => some (.start 1000)) (requestOf .get)
      (hostServer.serveHTTP percentCodec (fun _ => some (.start 1000)) (requestOf .get)) :=
  ⟨by decide +kernel, (hostServer.answers_iff percentCodec _ _ (by decide +kernel)).mpr (by simp)⟩

/-- The methods of a group that is not there are called on a nil pointer. -/
theorem serveHTTP_panics : percentCodec.basePath <+: percentCodec.decoded (requestOf .get).path ∧
    target percentCodec (requestOf .get) = some ([103], [107]) ∧
    hostServer.serveHTTP percentCodec (fun _ => none) (requestOf .get) = .panic ∧
    hostServer.serveHTTP percentCodec (fun _ => none) (requestOf .delete) = .panic ∧
    ¬Answers percentCodec (fun _ => none) (requestOf .get)
      (hostServer.serveHTTP percentCodec (fun _ => none) (requestOf .get)) := by
  refine ⟨by decide +kernel, by decide +kernel, rfl, rfl, fun h => ?_⟩
  obtain ⟨_, _, hreturns⟩ := h.returns
  cases hreturns

end Groupcache.Transport
