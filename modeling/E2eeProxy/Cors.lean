import E2eeProxy.Lua.Pattern

/-! # Cross-origin requests

cors.lua and the phase handlers of proxy_common.lua. The headers of a response
are written from two phases: `access` answers a preflight, and `header_filter`
runs on every response, that one included.
-/

namespace E2eeProxy.Cors

open Lua

/-! ## Allowed origins -/

/-- `s:lower()` in the C locale. -/
def lower (s : Bytes) : Bytes := s.map fun c => if 65 ≤ c ∧ c ≤ 90 then c + 32 else c

/-- `%d`. -/
def isDigit (c : UInt8) : Bool := 48 ≤ c && c ≤ 57

/-- `%w`. -/
def isAlnum (c : UInt8) : Bool := isDigit c || (65 ≤ c && c ≤ 90) || (97 ≤ c && c ≤ 122)

/-- Escape the magic characters, then translate the wildcards: a trailing `:*` is any
    port, any other `*` a part of a host. -/
def toPattern (entry : Bytes) : Bytes :=
  let e := lower entry
  let portWild := (lit ":*").isSuffixOf e
  let e := if portWild then e.take (e.length - 2) else e
  let p := gsubEach (fun c => inSet c (lit "%^%$%(%)%%%.%[%]%+%-%?")) (fun c => [37, c]) e
  let p := gsubEach (classByte 42) (fun _ => lit "[^/:]*") p
  let p := if portWild then p ++ lit ":%d+" else p
  lit "^" ++ p ++ lit "$"

def defaultOrigins : List Bytes :=
  ["null",
    "http://localhost", "http://localhost:*",
    "https://localhost", "https://localhost:*",
    "http://127.0.0.1", "http://127.0.0.1:*",
    "https://127.0.0.1", "https://127.0.0.1:*",
    "http://[::1]", "http://[::1]:*",
    "https://[::1]", "https://[::1]:*",
    "https://e2ee-local-proxy.chutes.dev", "https://e2ee-local-proxy.chutes.dev:*"].map lit

structure Rule where
  exact' : Bytes
  pattern : Option Bytes

/-- `rules` and `allow_any`. -/
structure Rules where
  rules : List Rule
  allowAny : Bool

/-- `compile`, for the value of `CORS_ALLOWED_ORIGINS`. -/
def compile (list : Option Bytes) : Rules :=
  let entries := match list.filter fun src => src ≠ [] with
    | none => defaultOrigins
    | some src => ((src.filter fun c => !isSpace c).splitOn 44).filter fun entry => entry ≠ []
  { rules := (entries.filter fun entry => entry ≠ lit "*").map fun entry =>
      ⟨lower entry, if 42 ∈ entry then some (toPattern entry) else none⟩
    allowAny := entries.contains (lit "*") }

/-- A header as `ngx.req.get_headers` gives it: a string, or a table if it is repeated. -/
inductive HeaderValue where
  | one (value : Bytes)
  | several (value : Bytes) (rest : List Bytes)

/-- The string, or `v[1]`. -/
def HeaderValue.first : HeaderValue → Bytes
  | .one value | .several value _ => value

/-- No pattern of `toPattern` raises. -/
def Rule.admits (rule : Rule) (o : Bytes) : Bool :=
  match rule.pattern with
  | some pattern => (strMatch pattern o).toOption.join.isSome
  | none => o == rule.exact'

/-- The origin to echo back. -/
def matchOrigin (compiled : Rules) (origin : Option HeaderValue) : Option Bytes :=
  match origin with
  | none | some (.one []) => none
  | some origin =>
      if compiled.allowAny then some origin.first
      else if compiled.rules.any fun rule => rule.admits (lower origin.first) then some origin.first
      else none

/-! ## The headers of a response -/

/-- `ngx.header`. -/
abbrev Headers := String → Option Bytes

def Headers.set (headers : Headers) (name : String) (v : Option Bytes) : Headers :=
  fun other => if other = name then v else headers other

def allowMethods : Bytes := lit "GET, POST, PUT, DELETE, PATCH, OPTIONS"

def allowHeaders : Bytes :=
  lit "Authorization, Content-Type, X-Api-Key, X-Route-Mode, X-Request-Id, " ++
    lit "Anthropic-Version, Anthropic-Beta, OpenAI-Beta, OpenAI-Organization, OpenAI-Project"

def exposeHeaders : Bytes := lit "X-Request-Id, X-E2EE-Instance-Id, X-E2EE-Route-Mode, Content-Type"

/-- `requested:find("[^%w%-_, ]")` finds nothing, and the length is right. -/
def echoes (requested : Bytes) : Bool :=
  requested != [] && decide (requested.length ≤ 2048) &&
    requested.all fun c => isAlnum c || (lit "-_, ").contains c

def apply (compiled : Rules) (origin : Option HeaderValue) (preflight : Bool)
    (requested : Option HeaderValue) (headers : Headers) : Headers :=
  match matchOrigin compiled origin with
  | some allowed =>
      let headers := headers.set "Access-Control-Allow-Origin" (some allowed)
      let headers := headers.set "Vary" (some (lit "Origin"))
      let headers := headers.set "Access-Control-Allow-Methods" (some allowMethods)
      let requested := (requested.map HeaderValue.first).filter echoes
      let headers := headers.set "Access-Control-Allow-Headers" (some (requested.getD allowHeaders))
      let headers := headers.set "Access-Control-Expose-Headers" (some exposeHeaders)
      if preflight then headers.set "Access-Control-Max-Age" (some (lit "86400")) else headers
  | none =>
      let headers := headers.set "Access-Control-Allow-Origin" none
      let headers := headers.set "Access-Control-Allow-Methods" none
      let headers := headers.set "Access-Control-Allow-Headers" none
      headers.set "Access-Control-Expose-Headers" none

/-! ## The phases of a request -/

/-- A request: its header lines, and nginx's own id for it. -/
structure Request where
  method : Bytes
  lines : List (Bytes × Bytes)
  requestId : Bytes

/-- The values of a header, in the order of its lines. -/
def Request.values (lines : List (Bytes × Bytes)) (name : Bytes) : List Bytes :=
  (lines.filter fun line => lower line.1 = name).map Prod.snd

/-- `ngx.req.get_headers()[name]`, which reads the first 100 lines. -/
def Request.getHeader (request : Request) (name : Bytes) : Option HeaderValue :=
  match Request.values (request.lines.take 100) name with
  | [] => none
  | [value] => some (.one value)
  | value :: rest => some (.several value rest)

/-- `ngx.var.http_origin`: repeated lines are joined. -/
def Request.httpOrigin (request : Request) : Option Bytes :=
  match Request.values request.lines (lit "origin") with
  | [] => none
  | values => some ((lit ", ").intercalate values)

/-- What a request has come to: `ngx.ctx.request_id`, `ngx.var.e2ee_request_id`, the
    headers of its response, and the status it was ended with. -/
structure Exchange where
  ctxRequestId : Option Bytes
  e2eeRequestId : Bytes
  headers : Headers
  exit : Option Nat

def maxRidLen : Nat := 128

def sanitizeRid (v : Option HeaderValue) : Option Bytes :=
  (v.map HeaderValue.first).filter fun v =>
    v != [] && decide (v.length ≤ maxRidLen) &&
      v.all fun c => isAlnum c || (lit "-_.:").contains c

section Phases

variable (list : Option Bytes)

/-- `rules`, compiled at their first use. -/
def loaded (state : Option Rules) : Rules := state.getD (compile list)

def access (state : Option Rules) (request : Request) (exchange : Exchange) :
    Option Rules × Exchange :=
  let rid := (sanitizeRid (request.getHeader (lit "x-request-id"))).getD request.requestId
  let exchange := { exchange with ctxRequestId := some rid, e2eeRequestId := rid }
  if request.method = lit "OPTIONS" then
    let headers := apply (loaded list state) (request.getHeader (lit "origin")) true
      (request.getHeader (lit "access-control-request-headers")) exchange.headers
    (some (loaded list state),
      { exchange with headers := headers.set "Content-Length" (some (lit "0")), exit := some 204 })
  else (state, exchange)

def headerFilter (state : Option Rules) (request : Request) (exchange : Exchange) :
    Option Rules × Exchange :=
  let headers := apply (loaded list state) (request.httpOrigin.map .one) false none exchange.headers
  (some (loaded list state),
    { exchange with
      headers := match exchange.ctxRequestId with
        | some rid => headers.set "X-Request-Id" (some rid)
        | none => headers })

/-- The phases in their order; `content` runs on what `access` did not end. -/
def respond (state : Option Rules) (request : Request) (content : Headers → Headers)
    (exchange : Exchange) : Option Rules × Exchange :=
  let (state, exchange) := access list state request exchange
  let exchange := match exchange.exit with
    | some _ => exchange
    | none => { exchange with headers := content exchange.headers }
  headerFilter list state request exchange

end Phases

/-! ## What a preflight is answered -/

/-- The headers that say what an origin may do. -/
def corsHeaders : List String :=
  ["Access-Control-Allow-Origin", "Access-Control-Allow-Methods", "Access-Control-Allow-Headers",
    "Access-Control-Expose-Headers"]

/-- Up to 2048 letters, digits, `-`, `_`, `,` and spaces. -/
def Echoable (value : Bytes) : Prop :=
  value ≠ [] ∧ value.length ≤ 2048 ∧ ∀ c ∈ value, isAlnum c ∨ c ∈ lit "-_, "

instance (value : Bytes) : Decidable (Echoable value) :=
  inferInstanceAs (Decidable (_ ∧ _ ∧ _))

/-- The value of `Access-Control-Request-Headers`. -/
def Request.asked (request : Request) : Option Bytes :=
  (Request.values request.lines (lit "access-control-request-headers")).head?

def Allowed (compiled : Rules) (request : Request) : Prop :=
  (matchOrigin compiled (request.httpOrigin.map .one)).isSome

instance (compiled : Rules) (request : Request) : Decidable (Allowed compiled request) :=
  inferInstanceAs (Decidable (_ = true))

/-- The headers asked for are allowed as they were asked for, or the built-in list is;
    an origin that is not allowed is told nothing. -/
def PreflightAnswered (compiled : Rules) (request : Request) (headers : Headers) : Prop :=
  (Allowed compiled request →
    headers "Access-Control-Allow-Headers" =
      some ((request.asked.filter fun asked => Echoable asked).getD allowHeaders)) ∧
  (¬ Allowed compiled request → ∀ name ∈ corsHeaders, headers name = none)

theorem Headers.set_self (headers : Headers) (name : String) (v : Option Bytes) :
    headers.set name v name = v := if_pos rfl

theorem Headers.set_other {headers : Headers} {name other : String} {v : Option Bytes}
    (differs : other ≠ name) : headers.set name v other = headers other := if_neg differs

section Apply

variable {compiled : Rules} {origin : Option HeaderValue} {preflight : Bool}
  {requested : Option HeaderValue} {headers : Headers}

theorem apply_allowed (allowed : (matchOrigin compiled origin).isSome) :
    apply compiled origin preflight requested headers "Access-Control-Allow-Headers" =
      some (((requested.map HeaderValue.first).filter echoes).getD allowHeaders) := by
  obtain ⟨echoed, found⟩ := Option.isSome_iff_exists.mp allowed
  rw [apply, found]
  cases preflight with
  | false =>
    simp only [Bool.false_eq_true, if_false]
    rw [Headers.set_other (by decide), Headers.set_self]
  | true =>
    simp only [if_true]
    rw [Headers.set_other (by decide), Headers.set_other (by decide), Headers.set_self]

theorem apply_refused (refused : ¬ (matchOrigin compiled origin).isSome) {name : String}
    (isCors : name ∈ corsHeaders) :
    apply compiled origin preflight requested headers name = none := by
  rw [apply, Option.not_isSome_iff_eq_none.mp refused]
  simp only [corsHeaders, List.mem_cons, List.not_mem_nil, or_false] at isCors
  rcases isCors with rfl | rfl | rfl | rfl
  all_goals simp [Headers.set]

end Apply

section Respond

variable {list : Option Bytes} {state : Option Rules} {request : Request}
  {content : Headers → Headers} {exchange : Exchange}

/-- What `header_filter` writes is what is sent. -/
theorem headerFilter_headers {name : String} (isCors : name ∈ corsHeaders) :
    (headerFilter list state request exchange).2.headers name =
      apply (loaded list state) (request.httpOrigin.map .one) false none exchange.headers name := by
  have differs : name ≠ "X-Request-Id" := by
    rintro rfl
    exact absurd isCors (by decide)
  unfold headerFilter
  cases exchange.ctxRequestId with
  | none => rfl
  | some rid => exact Headers.set_other differs

/-- The phase a preflight ends in writes what was asked for. -/
theorem access_allowed (isPreflight : request.method = lit "OPTIONS")
    (allowed : (matchOrigin (loaded list state) (request.getHeader (lit "origin"))).isSome) :
    (access list state request exchange).2.headers "Access-Control-Allow-Headers" =
      some ((((request.getHeader (lit "access-control-request-headers")).map
        HeaderValue.first).filter echoes).getD allowHeaders) := by
  rw [access]
  dsimp only
  rw [if_pos isPreflight]
  dsimp only
  rw [Headers.set_other (by decide), apply_allowed allowed]

theorem access_loaded :
    loaded list (access list state request exchange).1 = loaded list state := by
  unfold access
  split
  · rfl
  · rfl

/-- Whatever the phases before it wrote, the last one does not see what was asked for. -/
theorem respond_headers {name : String} (isCors : name ∈ corsHeaders) :
    ∃ headers, (respond list state request content exchange).2.headers name =
      apply (loaded list state) (request.httpOrigin.map .one) false none headers name := by
  rw [respond]
  dsimp only
  rw [headerFilter_headers isCors, access_loaded]
  exact ⟨_, rfl⟩

theorem respond_allowed (allowed : Allowed (loaded list state) request) :
    (respond list state request content exchange).2.headers "Access-Control-Allow-Headers" =
      some allowHeaders := by
  have isCors : "Access-Control-Allow-Headers" ∈ corsHeaders := by decide
  obtain ⟨headers, written⟩ := respond_headers isCors
  rw [written, apply_allowed allowed]
  rfl

theorem respond_refused (refused : ¬ Allowed (loaded list state) request) :
    ∀ name ∈ corsHeaders, (respond list state request content exchange).2.headers name = none := by
  intro name isCors
  obtain ⟨headers, written⟩ := respond_headers isCors
  rw [written, apply_refused refused isCors]

end Respond

/-- A preflight is answered as it was asked exactly if its origin is refused, or the
    answer is the built-in list. This holds of every request and of every list of origins. -/
theorem preflight_answered_iff {list : Option Bytes} {state : Option Rules} {request : Request}
    {content : Headers → Headers} {exchange : Exchange} :
    PreflightAnswered (loaded list state) request
        (respond list state request content exchange).2.headers ↔
      ¬ Allowed (loaded list state) request ∨ (∀ asked ∈ request.asked, ¬ Echoable asked) ∨
        request.asked = some allowHeaders := by
  by_cases allowed : Allowed (loaded list state) request
  · have answered : PreflightAnswered (loaded list state) request
        (respond list state request content exchange).2.headers ↔
        (request.asked.filter fun asked => Echoable asked).getD allowHeaders = allowHeaders := by
      rw [PreflightAnswered, respond_allowed allowed]
      simp only [allowed, forall_true_left, not_true_eq_false, false_implies, and_true,
        Option.some.injEq]
      exact eq_comm
    rw [answered]
    cases request.asked with
    | none => simp
    | some asked =>
      by_cases echoable : Echoable asked
      · rw [Option.filter_some, if_pos (decide_eq_true echoable), Option.getD_some]
        simp [allowed, echoable]
      · rw [Option.filter_some, if_neg (by simp [echoable])]
        simp [echoable]
  · constructor
    · exact fun _ => .inl allowed
    · exact fun _ => ⟨fun isAllowed => absurd isAllowed allowed, fun _ => respond_refused allowed⟩

namespace Sample

def preflight : Request where
  method := lit "OPTIONS"
  lines := [(lit "Origin", lit "http://localhost:3000"),
    (lit "Access-Control-Request-Headers", lit "x-stainless-os, x-custom")]
  requestId := lit "1"

def exchange : Exchange := ⟨none, [], fun _ => none, none⟩

theorem preflight_allowed :
    (matchOrigin (loaded none none) (preflight.getHeader (lit "origin"))).isSome := by
  decide +kernel

end Sample

/-- The headers the unit test asks for are allowed by `access`, and no longer after both phases. -/
theorem requested_headers_lost :
    Sample.preflight.method = lit "OPTIONS" ∧
      Allowed (loaded none none) Sample.preflight ∧
      Sample.preflight.asked = some (lit "x-stainless-os, x-custom") ∧
      Echoable (lit "x-stainless-os, x-custom") ∧
      (access none none Sample.preflight Sample.exchange).2.headers
        "Access-Control-Allow-Headers" = some (lit "x-stainless-os, x-custom") ∧
      (respond none none Sample.preflight id Sample.exchange).2.headers
        "Access-Control-Allow-Headers" = some allowHeaders ∧
      lit "x-stainless-os, x-custom" ≠ allowHeaders := by
  have allowed : Allowed (loaded none none) Sample.preflight := Sample.preflight_allowed
  refine ⟨rfl, allowed, ?_, ?_, ?_, respond_allowed allowed, ?_⟩
  · decide +kernel
  · decide +kernel
  · rw [access_allowed rfl Sample.preflight_allowed]
    decide +kernel
  · decide +kernel

end E2eeProxy.Cors
