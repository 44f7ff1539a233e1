import Pincerbell.Queue.Token
import Pincerbell.Queue.Wire

/-!
# The HTTP front end

What `router` in `gateway.rs` makes of a request before a handler runs its pipeline: the route, the
body that the JSON extractor reads, and the authorization of the endpoints of the queue side. The
extractor comes first, so that a body that cannot be read is refused with or without a token.

* `HttpRequest`, `HttpAnswer` — what goes over the network.
* `Endpoint`, `route` — the router.
* `WireCrates.readBody` — the limits on a body.
* `Server.json`, `Server.queueAuth` — the extractor and `queue_auth`.
* `Server.dispatch` — what is done with a request.
* `dispatch_eq_poll_iff`, `dispatch_eq_ack_iff` — which requests get to the queue.
-/

namespace Pincerbell

/-! ### Requests and answers -/

/-- The methods that the router tells apart. -/
inductive Method
  | get
  | head
  | post
  | other
  deriving DecidableEq, Repr

/-- A request that has arrived. -/
structure HttpRequest where
  method : Method
  path : String
  headers : List (String × Bytes) := []
  /-- What the JSON extractor reads, or the status and the text that it refuses the body with. -/
  body : Except (ℕ × String) Value

inductive AnswerBody
  | text (s : String)
  | json (v : Value)

structure HttpAnswer where
  status : ℕ
  body : AnswerBody

/-- `StatusCode::is_success`. -/
def HttpAnswer.isSuccess (a : HttpAnswer) : Bool := 200 ≤ a.status && a.status < 300

/-! ### The router -/

/-- The endpoints. -/
inductive Endpoint
  | notify
  | poll
  | ack
  | health
  deriving DecidableEq, Repr

namespace Endpoint

def path : Endpoint → String
  | notify => "/_matrix/push/v1/notify"
  | poll => "/_pincerbell/v1/poll"
  | ack => "/_pincerbell/v1/ack"
  | health => "/health"

/-- A `get` route answers to HEAD as well. -/
def methods : Endpoint → List Method
  | health => [.get, .head]
  | _ => [.post]

end Endpoint

/-- The endpoint of a request. -/
def route (req : HttpRequest) : Except HttpAnswer Endpoint :=
  match [Endpoint.notify, .poll, .ack, .health].find? fun e => e.path = req.path with
  | none => .error ⟨404, .text ""⟩
  | some e => if req.method ∈ e.methods then .ok e else .error ⟨405, .text ""⟩

/-! ### Handling a request -/

/-- The parts of the libraries that the front end and the poll loop use. -/
structure WireCrates where
  digest : Digest
  /-- The text of the error for a value that is not of the type that is read. -/
  dataError : Value → String
  /-- The text of the error for a response whose body cannot be read. -/
  bodyError : String
  /-- The text for a request body that is too long. -/
  lengthError : String
  /-- The text for a request body that nests too deep. -/
  syntaxError : Value → String
  /-- How deep the arrays and objects of a text may nest for the parser. -/
  limit : ℕ
  /-- `StatusCode`, as it is displayed. -/
  displayStatus : ℕ → String
  /-- How a float is written. -/
  formatFloat : UInt64 → Bytes

/-- The limit on the bytes of a request body that holds without a `DefaultBodyLimit` layer. -/
def bodyLimit : ℕ := 2097152

/-- What the `Json` extractor reads of a body with this many bytes, the text of a value whose fields
are all read. -/
def WireCrates.readBody (crates : WireCrates) (size : ℕ) (v : Value) :
    Except (ℕ × String) Value :=
  if bodyLimit < size then .error (413, crates.lengthError)
  else if crates.limit < v.nesting then .error (400, crates.syntaxError v)
  else .ok v

/-- What is read is the value. -/
theorem WireCrates.eq_of_readBody {crates : WireCrates} {size : ℕ} {v w : Value}
    (h : crates.readBody size v = .ok w) : w = v := by
  unfold readBody at h
  split_ifs at h
  exact (Except.ok.inj h).symm

/-- A value that does not nest too deep is read, unless its text is too long. -/
theorem WireCrates.readBody_of_nesting_le {crates : WireCrates} (size : ℕ) {v : Value}
    (h : v.nesting ≤ crates.limit) : crates.readBody size v =
      if bodyLimit < size then .error (413, crates.lengthError) else .ok v := by
  rw [readBody, if_neg (Nat.not_lt.mpr h)]

/-- An instance behind its router. -/
structure Server where
  crates : WireCrates
  state : AppState
  /-- `QueueState::token_hash`. -/
  tokenHash : Bytes

/-- What a request leads to. -/
inductive Dispatch
  /-- An answer, and nothing else. -/
  | answer (a : HttpAnswer)
  | notify (n : Notification)
  | poll (body : PollBody)
  | ack (req : AckRequest)

namespace Server

variable (server : Server)

/-- The `Json` extractor. -/
def json {α : Type} (decode : Value → Option α) (req : HttpRequest) : Except HttpAnswer α :=
  match req.body with
  | .error (status, text) => .error ⟨status, .text text⟩
  | .ok v =>
    match decode v with
    | none => .error ⟨422, .text (server.crates.dataError v)⟩
    | some a => .ok a

/-- Check the shared bearer token. -/
def queueAuth (headers : List (String × Bytes)) : Except HttpAnswer Unit :=
  match server.state.queue with
  | none => .error ⟨404, .text "queue mode not configured"⟩
  | some _ =>
    if authorized server.crates.digest server.tokenHash headers then .ok ()
    else .error ⟨401, .text "invalid or missing token"⟩

/-- A handler of the queue side, with the part that comes before it. -/
def authorizedJson {α : Type} (decode : Value → Option α) (req : HttpRequest) :
    Except HttpAnswer α := do
  let body ← server.json decode req
  server.queueAuth req.headers
  return body

/-- The answer of a request that is refused, or what it leads to. -/
def orAnswer {α : Type} (k : α → Dispatch) : Except HttpAnswer α → Dispatch
  | .error a => .answer a
  | .ok a => k a

def dispatch (req : HttpRequest) : Dispatch :=
  match route req with
  | .error a => .answer a
  | .ok .health => .answer ⟨200, .text "ok"⟩
  | .ok .notify => orAnswer (.notify ·.notification) (server.json NotifyRequest.fromValue req)
  | .ok .poll => orAnswer .poll (server.authorizedJson PollBody.fromValue req)
  | .ok .ack => orAnswer .ack (server.authorizedJson AckRequest.fromValue req)

/-! ### Which requests get to the queue -/

variable {server} {req : HttpRequest}

/-- The request is one to this endpoint of the queue side, and carries the token. -/
structure Admitted (server : Server) (req : HttpRequest) (endpoint : Endpoint) : Prop where
  path : req.path = endpoint.path
  method : req.method = .post
  queue : server.state.queue.isSome = true
  token : authorized server.crates.digest server.tokenHash req.headers = true

theorem route_eq_ok_iff {e : Endpoint} :
    route req = .ok e ↔ req.path = e.path ∧ req.method ∈ e.methods := by
  have hinj : ∀ e e' : Endpoint, e.path = e'.path → e = e' := by
    intro e e'
    cases e <;> cases e' <;> decide
  rw [route]
  split
  next hnone =>
    have hne : req.path ≠ e.path := by
      rintro hpath
      have hall := List.find?_eq_none.mp hnone e (by cases e <;> simp)
      simp [hpath] at hall
    simp [hne]
  next e' hsome =>
    have hpath : e'.path = req.path := by simpa using List.find?_some hsome
    by_cases heq : e' = e
    · subst heq
      by_cases hmethod : req.method ∈ e'.methods <;> simp [hmethod, hpath]
    · have hne : req.path ≠ e.path := fun h => heq (hinj _ _ (hpath.trans h))
      split <;> simp [heq, hne]

theorem json_eq_ok_iff {α : Type} {decode : Value → Option α} {a : α} :
    server.json decode req = .ok a ↔ ∃ v, req.body = .ok v ∧ decode v = some a := by
  rw [json]
  cases req.body with
  | error e => simp
  | ok v => cases hv : decode v <;> simp [hv]

theorem queueAuth_eq_ok_iff {headers : List (String × Bytes)} :
    server.queueAuth headers = .ok () ↔ server.state.queue.isSome = true ∧
      authorized server.crates.digest server.tokenHash headers = true := by
  rw [queueAuth]
  cases server.state.queue with
  | none => simp
  | some q => split <;> simp_all

theorem authorizedJson_eq_ok_iff {α : Type} {decode : Value → Option α} {a : α} :
    server.authorizedJson decode req = .ok a ↔
      (∃ v, req.body = .ok v ∧ decode v = some a) ∧ server.state.queue.isSome = true ∧
        authorized server.crates.digest server.tokenHash req.headers = true := by
  rw [← @json_eq_ok_iff server, ← queueAuth_eq_ok_iff, authorizedJson]
  cases server.json decode req with
  | error e => simp [bind, Except.bind]
  | ok b =>
    cases hauth : server.queueAuth req.headers with
    | error e => simp [bind, Except.bind]
    | ok u => simp [bind, Except.bind, pure, Except.pure]

/-- An authorized request whose body can be read gets through, and no other one does. -/
theorem orAnswer_authorizedJson_iff {α : Type} {decode : Value → Option α} {k : α → Dispatch}
    {a : α} {endpoint : Endpoint} (hpath : req.path = endpoint.path) (hmethod : req.method = .post)
    (hinj : Function.Injective k) (hanswer : ∀ a answer, k a ≠ .answer answer) :
    orAnswer k (server.authorizedJson decode req) = k a ↔ Admitted server req endpoint ∧
      ∃ v, req.body = .ok v ∧ decode v = some a := by
  have hresult : orAnswer k (server.authorizedJson decode req) = k a ↔
      server.authorizedJson decode req = .ok a := by
    cases server.authorizedJson decode req with
    | error answer => simpa [orAnswer] using fun h => hanswer a answer h.symm
    | ok b => simpa [orAnswer] using hinj.eq_iff
  rw [hresult, authorizedJson_eq_ok_iff]
  constructor
  · rintro ⟨hbody, hqueue, htoken⟩
    exact ⟨⟨hpath, hmethod, hqueue, htoken⟩, hbody⟩
  · rintro ⟨⟨-, -, hqueue, htoken⟩, hbody⟩
    exact ⟨hbody, hqueue, htoken⟩

/-- A poll gets to the queue when it is authorized and its body can be read. -/
theorem dispatch_eq_poll_iff {body : PollBody} :
    server.dispatch req = .poll body ↔ Admitted server req .poll ∧
      ∃ v, req.body = .ok v ∧ PollBody.fromValue v = some body := by
  have hinj : Function.Injective Dispatch.poll := fun _ _ h => Dispatch.poll.inj h
  constructor
  · intro h
    have hroute : route req = .ok .poll := by
      unfold dispatch orAnswer at h
      split at h
      case h_4 hroute => exact hroute
      case h_3 => split at h <;> cases h
      case h_5 => split at h <;> cases h
      all_goals cases h
    obtain ⟨hpath, hmethod⟩ := route_eq_ok_iff.mp hroute
    rw [dispatch, hroute] at h
    exact (orAnswer_authorizedJson_iff hpath (List.mem_singleton.mp hmethod) hinj (by simp)).mp h
  · rintro ⟨hadmitted, hbody⟩
    have hroute : route req = .ok .poll :=
      route_eq_ok_iff.mpr ⟨hadmitted.path, List.mem_singleton.mpr hadmitted.method⟩
    rw [dispatch, hroute]
    exact (orAnswer_authorizedJson_iff hadmitted.path hadmitted.method hinj (by simp)).mpr
      ⟨hadmitted, hbody⟩

/-- And so does an ack. -/
theorem dispatch_eq_ack_iff {ack : AckRequest} :
    server.dispatch req = .ack ack ↔ Admitted server req .ack ∧
      ∃ v, req.body = .ok v ∧ AckRequest.fromValue v = some ack := by
  have hinj : Function.Injective Dispatch.ack := fun _ _ h => Dispatch.ack.inj h
  constructor
  · intro h
    have hroute : route req = .ok .ack := by
      unfold dispatch orAnswer at h
      split at h
      case h_5 hroute => exact hroute
      case h_3 => split at h <;> cases h
      case h_4 => split at h <;> cases h
      all_goals cases h
    obtain ⟨hpath, hmethod⟩ := route_eq_ok_iff.mp hroute
    rw [dispatch, hroute] at h
    exact (orAnswer_authorizedJson_iff hpath (List.mem_singleton.mp hmethod) hinj (by simp)).mp h
  · rintro ⟨hadmitted, hbody⟩
    have hroute : route req = .ok .ack :=
      route_eq_ok_iff.mpr ⟨hadmitted.path, List.mem_singleton.mpr hadmitted.method⟩
    rw [dispatch, hroute]
    exact (orAnswer_authorizedJson_iff hadmitted.path hadmitted.method hinj (by simp)).mpr
      ⟨hadmitted, hbody⟩

end Server

end Pincerbell
