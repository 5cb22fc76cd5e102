import MevShare.BundleText
/-!
# `jsonrpcserver`

The handler that the node's API is served by: it reads a JSON-RPC request, finds
the method by its name, calls it through reflection and writes the response.
What it does is a list of effects in the order they happen. Go types and values,
`encoding/json` and `reflect` are parameters; a write to the connection does not
fail, and a panic of a method ends the request.

After `Handled` has said what can happen once the id was checked, the theorem is
a look at the cases: a response is written once, and after a refusal nothing is
called, unless the id is of a wrong type. Then the handler writes an error and
goes on.
-/
open Lib

namespace MevShare.JsonRpc

def codeParseError : Int := -32700
def codeInvalidRequest : Int := -32600
def codeMethodNotFound : Int := -32601
def codeInternalError : Int := -32603
def codeCustomError : Int := -32000

def maxOriginIDLength : Nat := 255

def errNotFunction : String := "not a function"
def errMustReturnError : String := "function must return error as a last return value"
def errMustHaveContext : String := "function must have context.Context as a first argument"
def errTooManyReturnValues : String := "too many return values"
def errTooMuchArguments : String := "too much arguments"

/-- A JSON value as it is decoded into an `any`; a number is the bits of a `float64`. -/
inductive Json where
  | null
  | bool (b : Bool)
  | number (bits : BitVec 64)
  | string (s : String)
  | array (elements : List Json)
  | object (fields : List (String × Json))

/-- The type switch on the id: it is absent, or a string or a number. -/
def Json.validID : Json → Bool
  | .null | .number _ | .string _ => true
  | .bool _ | .array _ | .object _ => false

structure JSONRPCRequest where
  jsonrpc : String
  id : Json
  method : String
  params : List Bytes

structure JSONRPCError where
  code : Int
  message : String
deriving DecidableEq, Repr

/-- The result is raw JSON. -/
structure JSONRPCResponse where
  jsonrpc : String
  id : Json
  result : Option Bytes
  error : Option JSONRPCError

/-- An HTTP request, with the values `Header.Get` returns. -/
structure HTTPRequest where
  body : Bytes
  header : String → String

/-- The values that are added to the request's context. -/
structure Context where
  highPriority : Bool
  signer : Option Address
  origin : Option String
deriving DecidableEq, Repr

/-- `encoding/json`, `reflect` and `common.HexToAddress`, over the Go types `T` and
the Go values `V`. `IsNil` panics on a value that cannot be nil. -/
structure Outside (T V : Type) where
  decode : Bytes → Except String JSONRPCRequest
  unmarshal : T → Bytes → Except String V
  marshal : Option V → Except String Bytes
  zero : T → V
  isContext : T → Bool
  implementsError : T → Bool
  isNil : V → Option Bool
  errorText : V → Option String
  hexToAddress : String → Address

/-- A value given to `NewHandler`, as reflection sees it; a call that panics returns nothing. -/
structure Function (T V : Type) where
  isFunc : Bool
  ins : List T
  outs : List T
  fn : Context → List V → Option (List V)

/-- A method: the first argument is a context, the last result an error, and
there is at most one more result. -/
structure MethodHandler {T V : Type} (o : Outside T V) where
  ins : List T
  outs : List T
  fn : Context → List V → Option (List V)
  context_first : ins.head?.any o.isContext = true
  error_last : outs.getLast?.any o.implementsError = true
  one_value : outs.length ≤ 2

/-- What the handler does: it writes a response or calls a method. -/
inductive Effect {T V : Type} (o : Outside T V) where
  | respond (response : JSONRPCResponse)
  | invoke (method : MethodHandler o) (ctx : Context) (args : List V)

/-- How a call of a method ends. -/
inductive Called (V : Type) where
  | failed (err : String)
  | returned (result : Option V)
  | panicked

section Server
variable {T V : Type} (o : Outside T V)

def getMethodTypes (f : Function T V) : Except String (MethodHandler o) :=
  if f.isFunc then
    if hin : f.ins.head?.any o.isContext = true then
      if hout : f.outs.getLast?.any o.implementsError = true then
        if hlen : f.outs.length ≤ 2 then .ok ⟨f.ins, f.outs, f.fn, hin, hout, hlen⟩ else .error errTooManyReturnValues
      else .error errMustReturnError
    else .error errMustHaveContext
  else .error errNotFunction

/-- The method table; the names of the list are different, it is a Go map. -/
def newHandler (methods : List (String × Function T V)) : Except String (String → Option (MethodHandler o)) :=
  methods.foldlM (fun table entry => do
    let method ← getMethodTypes o entry.2
    return fun name => if name = entry.1 then some method else table name) fun _ => none

/-- The loop over the argument types; a parameter that is not given stays zero. -/
def unmarshalArguments : List T → List Bytes → Except String (List V)
  | [], _ => return []
  | t :: ins, [] => do
    let rest ← unmarshalArguments ins []
    return o.zero t :: rest
  | t :: ins, p :: params => do
    let v ← o.unmarshal t p
    let rest ← unmarshalArguments ins params
    return v :: rest

def extractArgumentsFromJSONparamsArray (ins : List T) (params : List Bytes) : Except String (List V) :=
  if params.length > ins.length then throw errTooMuchArguments else unmarshalArguments o ins params

/-- The results of a method: the last one is the error. -/
def checkResults (results : List V) : Called V :=
  match results.getLast? with
  | none => .panicked
  | some last =>
    match o.isNil last with
    | none => .panicked
    | some true => .returned (if results.length = 1 then none else results.head?)
    | some false => .failed ((o.errorText last).getD errMustReturnError)

variable {o}

def MethodHandler.invoked (h : MethodHandler o) (ctx : Context) (args : List V) : Called V :=
  match h.fn ctx args with
  | none => .panicked
  | some results => checkResults o results

/-- `methodHandler.call`; the arguments are those after the context. -/
def MethodHandler.call (h : MethodHandler o) (ctx : Context) (params : List Bytes) : List (Effect o) × Called V :=
  match extractArgumentsFromJSONparamsArray o h.ins.tail params with
  | .error err => ([], .failed err)
  | .ok args => ([.invoke h ctx args], h.invoked ctx args)

variable (o)

def writeJSONRPCError (id : Json) (code : Int) (msg : String) : Effect o := .respond ⟨"2.0", id, none, some ⟨code, msg⟩⟩

/-- What is written after the call; a panic leaves it to `net/http`, which writes nothing. -/
def writeResult (id : Json) : Called V → List (Effect o)
  | .failed err => [writeJSONRPCError o id codeCustomError err]
  | .panicked => []
  | .returned result =>
    match o.marshal result with
    | .error err => [writeJSONRPCError o id codeInternalError err]
    | .ok raw => [.respond ⟨"2.0", id, some raw, none⟩]

def HTTPRequest.origin (r : HTTPRequest) : String := r.header "x-flashbots-origin"

/-- The context of the call; an empty origin is not set. -/
def requestContext (r : HTTPRequest) : Context where
  highPriority := r.header "high_prio" = "true"
  signer := ((r.header "x-flashbots-signature").splitOn ":").head?.map o.hexToAddress
  origin := if r.origin ≠ "" then some r.origin else none

/-- The header is longer than allowed, in bytes. -/
def HTTPRequest.originTooLong (r : HTTPRequest) : Bool := r.origin ≠ "" ∧ r.origin.utf8ByteSize > maxOriginIDLength

/-- `ServeHTTP` from the headers on. -/
def serveMethod (methods : String → Option (MethodHandler o)) (r : HTTPRequest) (req : JSONRPCRequest) : List (Effect o) :=
  if r.originTooLong then [writeJSONRPCError o req.id codeInvalidRequest "x-flashbots-origin header is too long"]
  else
    match methods req.method with
    | none => [writeJSONRPCError o req.id codeMethodNotFound "method not found"]
    | some method =>
      let (effects, called) := method.call (requestContext o r) req.params
      effects ++ writeResult o req.id called

/-- `Handler.ServeHTTP`. The branch for an id of a wrong type writes an error and does not return. -/
def serveHTTP (methods : String → Option (MethodHandler o)) (r : HTTPRequest) : List (Effect o) :=
  match o.decode r.body with
  | .error err => [writeJSONRPCError o .null codeParseError err]
  | .ok req =>
    if req.jsonrpc ≠ "2.0" then [writeJSONRPCError o req.id codeParseError "invalid jsonrpc version"]
    else
      (if req.id.validID then [] else [writeJSONRPCError o req.id codeParseError "invalid id type"]) ++
        serveMethod o methods r req

end Server

/-! ## What a client and a method see -/

section Effects
variable {T V : Type} {o : Outside T V}

def Effect.response? : Effect o → Option JSONRPCResponse
  | .respond response => some response
  | .invoke .. => none

def Effect.invocation? : Effect o → Option (MethodHandler o)
  | .respond _ => none
  | .invoke method .. => some method

def responses (effects : List (Effect o)) : List JSONRPCResponse := effects.filterMap Effect.response?

/-- The methods that are called. -/
def invocations (effects : List (Effect o)) : List (MethodHandler o) := effects.filterMap Effect.invocation?

/-- The response says that the request was refused: a parse error (which a wrong version or id is
too), an origin that is too long, or an unknown method. -/
def JSONRPCResponse.Refuses (response : JSONRPCResponse) : Prop :=
  ∃ e, response.error = some e ∧ (e.code = codeParseError ∨ e.code = codeInvalidRequest ∨ e.code = codeMethodNotFound)

/-- One response, at most one call, of a method of the table, and none for a request that is refused. -/
structure Served (methods : String → Option (MethodHandler o)) (effects : List (Effect o)) : Prop where
  one_response : (responses effects).length = 1
  one_invocation : (invocations effects).length ≤ 1
  registered : ∀ m ∈ invocations effects, ∃ name, methods name = some m
  refused : ∀ response ∈ responses effects, response.Refuses → invocations effects = []

/-- The request can be read and has an id that is neither a string nor a number. -/
def InvalidID (o : Outside T V) (r : HTTPRequest) : Prop :=
  ∃ req, o.decode r.body = .ok req ∧ req.jsonrpc = "2.0" ∧ req.id.validID = false

/-- The request gets as far as the call of a method, and that panics. -/
def MethodPanics (methods : String → Option (MethodHandler o)) (r : HTTPRequest) (req : JSONRPCRequest) : Prop :=
  r.originTooLong = false ∧ ∃ method args, methods req.method = some method ∧
    extractArgumentsFromJSONparamsArray o method.ins.tail req.params = .ok args ∧
    method.invoked (requestContext o r) args = .panicked

variable {methods : String → Option (MethodHandler o)} {r : HTTPRequest} {req : JSONRPCRequest}

/-- What happens once the id was looked at. -/
inductive Handled (methods : String → Option (MethodHandler o)) (r : HTTPRequest) (req : JSONRPCRequest) :
    List (Effect o) → Prop
  -- the origin or the name of the method
  | refused {response} : response.Refuses → ¬MethodPanics methods r req → Handled methods r req [.respond response]
  -- the arguments
  | failed {response} : ¬response.Refuses → ¬MethodPanics methods r req → Handled methods r req [.respond response]
  | answered {method ctx args response} : methods req.method = some method → ¬response.Refuses →
      ¬MethodPanics methods r req → Handled methods r req [.invoke method ctx args, .respond response]
  | panicked {method ctx args} : methods req.method = some method → MethodPanics methods r req →
      Handled methods r req [.invoke method ctx args]

theorem refuses_error {id : Json} {code : Int} {msg : String} :
    JSONRPCResponse.Refuses ⟨"2.0", id, none, some ⟨code, msg⟩⟩ ↔
      code = codeParseError ∨ code = codeInvalidRequest ∨ code = codeMethodNotFound := by
  simp [JSONRPCResponse.Refuses]

/-- After a call that did not panic there is one response, and it is no refusal. -/
theorem writeResult_cases (id : Json) {called : Called V} (h : called ≠ .panicked) :
    ∃ response, writeResult o id called = [.respond response] ∧ ¬response.Refuses := by
  cases called with
  | panicked => exact absurd rfl h
  | failed err =>
    refine ⟨_, rfl, ?_⟩
    rw [refuses_error]
    decide
  | returned result =>
    cases hm : o.marshal result with
    | error err =>
      refine ⟨_, by rw [writeResult, hm]; rfl, ?_⟩
      rw [refuses_error]
      decide
    | ok raw =>
      refine ⟨_, by rw [writeResult, hm], ?_⟩
      rintro ⟨e, he, -⟩
      cases he

theorem handled_serveMethod (methods : String → Option (MethodHandler o)) (r : HTTPRequest) (req : JSONRPCRequest) :
    Handled methods r req (serveMethod o methods r req) := by
  unfold serveMethod
  by_cases horigin : r.originTooLong = true
  · rw [if_pos horigin]
    refine .refused (refuses_error.2 (by decide)) ?_
    rintro ⟨hshort, -⟩
    rw [horigin] at hshort
    cases hshort
  · rw [if_neg horigin]
    cases hmethod : methods req.method with
    | none =>
      refine .refused (refuses_error.2 (by decide)) ?_
      rintro ⟨-, m, args, hm, -⟩
      rw [hmethod] at hm
      cases hm
    | some method =>
      have hpanics : ∀ args, extractArgumentsFromJSONparamsArray o method.ins.tail req.params = .ok args →
          (MethodPanics methods r req ↔ method.invoked (requestContext o r) args = .panicked) := by
        intro args hargs
        constructor
        · rintro ⟨-, m, args', hm, hargs', hinvoked⟩
          rw [hmethod] at hm
          cases hm
          rw [hargs] at hargs'
          cases hargs'
          exact hinvoked
        · intro hinvoked
          exact ⟨by simpa using horigin, method, args, hmethod, hargs, hinvoked⟩
      cases hargs : extractArgumentsFromJSONparamsArray o method.ins.tail req.params with
      | error err =>
        have hcall : method.call (requestContext o r) req.params = ([], .failed err) := by rw [MethodHandler.call, hargs]
        simp only [hcall]
        refine .failed ?_ ?_
        · rw [refuses_error]
          decide
        · rintro ⟨-, m, args, hm, hok, -⟩
          rw [hmethod] at hm
          cases hm
          rw [hargs] at hok
          cases hok
      | ok args =>
        have hcall : method.call (requestContext o r) req.params =
            ([.invoke method (requestContext o r) args], method.invoked (requestContext o r) args) := by
          rw [MethodHandler.call, hargs]
        simp only [hcall]
        by_cases hinvoked : method.invoked (requestContext o r) args = .panicked
        · rw [hinvoked]
          exact .panicked hmethod ((hpanics args hargs).2 hinvoked)
        · obtain ⟨response, hresponse, hrefuses⟩ := writeResult_cases (o := o) req.id hinvoked
          simp only [hresponse]
          exact .answered hmethod hrefuses fun h => hinvoked ((hpanics args hargs).1 h)

/-- One response and nothing else is always right. -/
theorem served_response (methods : String → Option (MethodHandler o)) (response : JSONRPCResponse) :
    Served methods [.respond response] where
  one_response := rfl
  one_invocation := Nat.zero_le 1
  registered := fun m hm => by cases hm
  refused := fun _ _ _ => rfl

/-- Without an error before it, what is handled is served unless the method panics. -/
theorem Handled.served_iff {effects : List (Effect o)} (h : Handled methods r req effects) :
    Served methods effects ↔ ¬MethodPanics methods r req := by
  cases h with
  | refused _ hpanics => exact iff_of_true (served_response methods _) hpanics
  | failed _ hpanics => exact iff_of_true (served_response methods _) hpanics
  | @answered method ctx args response hmethod hrefuses hpanics =>
    refine iff_of_true ⟨rfl, le_rfl, fun m hm => ?_, fun response' hresponse hrefuses' => ?_⟩ hpanics
    · cases List.mem_singleton.1 hm
      exact ⟨_, hmethod⟩
    · cases List.mem_singleton.1 hresponse
      exact absurd hrefuses' hrefuses
  | panicked hmethod hpanics =>
    refine iff_of_false (fun hs => ?_) (not_not.2 hpanics)
    cases hs.one_response

/-- After an error that is a refusal, whatever is handled is too much. -/
theorem Handled.not_served_after {effects : List (Effect o)} (h : Handled methods r req effects) {response : JSONRPCResponse}
    (hrefuses : response.Refuses) : ¬Served methods (.respond response :: effects) := by
  intro hs
  cases h with
  | refused _ _ => cases hs.one_response
  | failed _ _ => cases hs.one_response
  | answered _ _ _ => cases hs.one_response
  | panicked _ _ => cases hs.refused response List.mem_cons_self hrefuses

/-- Every request gets one response, from at most one call of a registered
method, and from none if it is refused: except when the id has a wrong type, or
when the method panics. -/
theorem serve_once_iff {T V : Type} (o : Outside T V) (methods : String → Option (MethodHandler o)) (r : HTTPRequest) :
    Served methods (serveHTTP o methods r) ↔
      ¬InvalidID o r ∧ ¬∃ req, o.decode r.body = .ok req ∧ req.jsonrpc = "2.0" ∧ MethodPanics methods r req := by
  unfold serveHTTP InvalidID
  cases hdecode : o.decode r.body with
  | error err =>
    refine iff_of_true (served_response methods _) ⟨?_, ?_⟩
    · rintro ⟨req, hreq, -⟩
      cases hreq
    · rintro ⟨req, hreq, -⟩
      cases hreq
  | ok req =>
    simp only [Except.ok.injEq, exists_eq_left']
    by_cases hversion : req.jsonrpc = "2.0"
    · rw [if_neg (not_not.2 hversion)]
      have hhandled := handled_serveMethod methods r req
      cases hid : req.id.validID with
      | true =>
        rw [if_pos rfl, List.nil_append, hhandled.served_iff]
        simp [hversion]
      | false =>
        rw [if_neg Bool.false_ne_true, List.singleton_append]
        exact iff_of_false (hhandled.not_served_after (refuses_error.2 (.inl rfl))) fun h => h.1 ⟨hversion, rfl⟩
    · rw [if_pos hversion]
      refine iff_of_true (served_response methods _) ⟨?_, ?_⟩
      · rintro ⟨h, -⟩
        exact hversion h
      · rintro ⟨h, -⟩
        exact hversion h

end Effects

/-! ## A request with a wrong id -/

/-- The types of the parameters and results of `API.SendBundle` and `API.SimBundle`. -/
inductive GoType where
  | context | sendMevBundleArgs | simMevBundleAuxArgs | sendMevBundleResponse | simMevBundleResponse | error
deriving DecidableEq, Repr

/-- A response is what is written for it; of the auxiliary arguments only those with no field set. -/
inductive GoValue where
  | nil
  | bundle (b : SendMevBundleArgs)
  | noAuxArgs
  | response (j : JsonValue)

/-- An id that is decoded into an `any`; numbers and nested ids are left out. -/
def decodeID (_ : Json) : JsonValue → Option Json
  | .null => some .null
  | .bool b => some (.bool b)
  | .str s => some (.string s)
  | _ => none

/-- A raw message is the text of the parameter; the texts here have no spaces in them. -/
def requestFields : List (StructField JSONRPCRequest) :=
  [⟨"jsonrpc", (·.jsonrpc), fun x s => { s with jsonrpc := x }, fun _ => none, decodeString⟩,
    ⟨"id", (·.id), fun x s => { s with id := x }, fun _ => none, decodeID⟩,
    ⟨"method", (·.method), fun x s => { s with method := x }, fun _ => none, decodeString⟩,
    ⟨"params", (·.params), fun x s => { s with params := x }, fun _ => none,
      decodeSlice (fun _ j => some (marshalText j)) []⟩]

/-- `encoding/json` and `reflect` on these types. The texts of JSON errors are left out. -/
def nodeTypes : Outside GoType GoValue where
  decode body := ((unmarshalText body).bind (decodeObject requestFields ⟨"", .null, "", []⟩)).elim (.error "json") .ok
  unmarshal t data :=
    match t with
    | .sendMevBundleArgs => ((unmarshalText data).bind unmarshalBundle).elim (.error "json") fun b => .ok (.bundle b)
    | _ => .error "json"
  marshal
    | some (.response j) => .ok (marshalText j)
    | _ => .ok (marshalText .null)
  zero
    | .sendMevBundleArgs => .bundle .empty
    | .simMevBundleAuxArgs => .noAuxArgs
    | _ => .nil
  isContext t := t = .context
  implementsError t := t = .error
  isNil
    | .nil => some true
    | _ => none
  errorText _ := none
  hexToAddress s := ((decodeHex ((trim0x s.toList).getD s.toList)).map bigEndian).elim 0 (BitVec.ofNat 160)

/-- A request with a bundle of one transaction as its only parameter. -/
def bundleRequest (id : JsonValue) (method : String) : JsonValue :=
  .obj [("jsonrpc", .str "2.0"), ("id", id), ("method", .str method), ("params", .arr [encodeBundle (bundleOf [txElement])])]

/-- The text that is sent, without headers. -/
def posted (id : JsonValue) (method : String) : HTTPRequest := ⟨marshalText (bundleRequest id method), fun _ => ""⟩

theorem txBundle_readable : Readable 1 (bundleOf [txElement]) := flat_readable rfl nofun (by decide)

theorem unmarshal_txBundle :
    nodeTypes.unmarshal .sendMevBundleArgs (marshalText (encodeBundle (bundleOf [txElement]))) =
      .ok (.bundle (bundleOf [txElement])) := by
  have htext : unmarshalText (marshalText (encodeBundle (bundleOf [txElement]))) = some (encodeBundle (bundleOf [txElement])) :=
    unmarshalText_marshalText ((writable_bundle txBundle_readable.1).mono (by decide))
  have hread : unmarshalBundle (encodeBundle (bundleOf [txElement])) = some (bundleOf [txElement]) :=
    restores_bundle (txBundle_readable.1.mono (by decide)) txBundle_readable.2 _ (.refl _)
  simp only [nodeTypes, htext, Option.bind_some, hread, Option.elim_some]

theorem writable_bundleRequest {id : JsonValue} (hid : Writable 5 id) (method : String) :
    Writable 6 (bundleRequest id method) := by
  refine .obj (List.forall_mem_cons.2 ⟨.str _, List.forall_mem_cons.2 ⟨hid, List.forall_mem_cons.2 ⟨.str _,
    List.forall_mem_singleton.2 (.arr (List.forall_mem_singleton.2 ?_))⟩⟩⟩)
  exact writable_bundle txBundle_readable.1

theorem decode_posted {id : JsonValue} {decoded : Json} (hid : Writable 5 id) (hdecoded : decodeID .null id = some decoded)
    (method : String) : nodeTypes.decode (posted id method).body =
      .ok ⟨"2.0", decoded, method, [marshalText (encodeBundle (bundleOf [txElement]))]⟩ := by
  have htext : unmarshalText (posted id method).body = some (bundleRequest id method) :=
    unmarshalText_marshalText ((writable_bundleRequest hid method).mono (by decide))
  have hread : decodeObject requestFields ⟨"", .null, "", []⟩ (bundleRequest id method) =
      some ⟨"2.0", decoded, method, [marshalText (encodeBundle (bundleOf [txElement]))]⟩ := by
    have hmember : decodeMember requestFields ⟨"2.0", .null, "", []⟩ ("id", id) = some ⟨"2.0", decoded, "", []⟩ :=
      (congrArg (Option.map _) hdecoded).trans rfl
    exact (congrArg (Option.bind · _) hmember).trans rfl
  simp only [nodeTypes, htext, Option.bind_some, hread, Option.elim_some]

/-- A posted request for a method that takes the bundle. -/
theorem serveHTTP_posted {id : JsonValue} {decoded : Json} (hid : Writable 5 id)
    (hdecoded : decodeID .null id = some decoded) {methods : String → Option (MethodHandler nodeTypes)} {name : String}
    {method : MethodHandler nodeTypes} (hmethod : methods name = some method) {args : List GoValue}
    (hargs : extractArgumentsFromJSONparamsArray nodeTypes method.ins.tail
      [marshalText (encodeBundle (bundleOf [txElement]))] = .ok args) :
    serveHTTP nodeTypes methods (posted id name) =
      (if decoded.validID then [] else [writeJSONRPCError nodeTypes decoded codeParseError "invalid id type"]) ++
        (.invoke method (requestContext nodeTypes (posted id name)) args ::
          writeResult nodeTypes decoded (method.invoked (requestContext nodeTypes (posted id name)) args)) := by
  have horigin : (posted id name).originTooLong = false := rfl
  simp [serveHTTP, decode_posted hid hdecoded, serveMethod, horigin, hmethod, MethodHandler.call, hargs]

def sendBundleFunction : Function GoType GoValue where
  isFunc := true
  ins := [.context, .sendMevBundleArgs]
  outs := [.sendMevBundleResponse, .error]
  fn _ _ := some [.response (.obj [("bundleHash", encodeHash sampleTransaction.hash)]), .nil]

/-- The client is told that the id `true` is invalid, the method is called all the
same, and its result is written after the error. -/
theorem serve_boolID :
    ∃ methods, newHandler nodeTypes [("mev_sendBundle", sendBundleFunction)] = .ok methods ∧
      (responses (serveHTTP nodeTypes methods (posted (.bool true) "mev_sendBundle"))).map (fun response =>
          (response.error.map (·.code), response.result)) =
        [(some (-32700), none),
          (none, some (marshalText (.obj [("bundleHash", encodeHash sampleTransaction.hash)])))] ∧
      (invocations (serveHTTP nodeTypes methods (posted (.bool true) "mev_sendBundle"))).length = 1 ∧
      ¬Served methods (serveHTTP nodeTypes methods (posted (.bool true) "mev_sendBundle")) := by
  have hnew : ∃ methods method, newHandler nodeTypes [("mev_sendBundle", sendBundleFunction)] = .ok methods ∧
      methods "mev_sendBundle" = some method ∧ method.ins = sendBundleFunction.ins ∧ method.fn = sendBundleFunction.fn :=
    ⟨_, _, rfl, rfl, rfl, rfl⟩
  obtain ⟨methods, method, hnew, hmethod, hins, hfn⟩ := hnew
  have hargs : extractArgumentsFromJSONparamsArray nodeTypes method.ins.tail
      [marshalText (encodeBundle (bundleOf [txElement]))] = .ok [.bundle (bundleOf [txElement])] := by
    rw [hins]
    exact (congrArg (· >>= _) unmarshal_txBundle).trans rfl
  have hinvoked (ctx : Context) : method.invoked ctx [.bundle (bundleOf [txElement])] =
      .returned (some (.response (.obj [("bundleHash", encodeHash sampleTransaction.hash)]))) := by
    rw [MethodHandler.invoked, hfn]
    rfl
  have hserve := serveHTTP_posted (.bool true) rfl hmethod hargs
  rw [hinvoked] at hserve
  refine ⟨methods, hnew, ?_⟩
  rw [hserve]
  refine ⟨rfl, rfl, fun hs => ?_⟩
  cases hs.one_response

end MevShare.JsonRpc
