import MevShare.JsonRpcServer
import MevShare.Lib.Checks
/-!
# What the handler writes and calls

Whatever a request looks like, the responses that are written for it are JSON-RPC
responses to it, and the calls that are made for it are calls of the function that
was registered under its method, with an argument for each of the parameters that
the function declares. So the reflective call never has too few or too many
arguments.
-/
open Lib

namespace MevShare.JsonRpc

variable {T V : Type} {o : Outside T V}

/-- A response to a request with this decoded id: it has a result or an error, and not both. -/
structure JSONRPCResponse.Answers (response : JSONRPCResponse) (id : Json) : Prop where
  version : response.jsonrpc = "2.0"
  id : response.id = id
  one : response.result.isSome ≠ response.error.isSome

/-- The id of the request as it was decoded; it is null when the body cannot be decoded. -/
def requestID (o : Outside T V) (r : HTTPRequest) : Json :=
  match o.decode r.body with
  | .error _ => .null
  | .ok req => req.id

/-- The arguments: one for each type, read from the parameter in its place or zero without one. -/
structure Arguments (o : Outside T V) (ins : List T) (params : List Bytes) (args : List V) : Prop where
  length : args.length = ins.length
  noneExtra : params.length ≤ ins.length
  value : ∀ (i : Nat) (t : T) (v : V), ins[i]? = some t → args[i]? = some v →
    match params[i]? with
    | some p => o.unmarshal t p = .ok v
    | none => v = o.zero t

/-! ## The arguments -/

theorem unmarshalArguments_value {ins : List T} {params : List Bytes} {args : List V}
    (h : unmarshalArguments o ins params = .ok args) :
    args.length = ins.length ∧ ∀ (i : Nat) (t : T) (v : V), ins[i]? = some t → args[i]? = some v →
      match params[i]? with
      | some p => o.unmarshal t p = .ok v
      | none => v = o.zero t := by
  induction ins generalizing params args with
  | nil =>
    cases h
    exact ⟨rfl, fun i t v ht => by cases ht⟩
  | cons t ins ih =>
    cases params with
    | nil =>
      obtain ⟨rest, hrest, h⟩ := bind_ok.1 h
      cases h
      obtain ⟨hlength, hvalue⟩ := ih hrest
      refine ⟨by rw [List.length_cons, hlength, List.length_cons], fun i t' v ht hv => ?_⟩
      cases i with
      | zero =>
        cases ht
        cases hv
        rfl
      | succ i => exact hvalue i t' v ht hv
    | cons p params =>
      obtain ⟨v, hv, h⟩ := bind_ok.1 h
      obtain ⟨rest, hrest, h⟩ := bind_ok.1 h
      cases h
      obtain ⟨hlength, hvalue⟩ := ih hrest
      refine ⟨by rw [List.length_cons, hlength, List.length_cons], fun i t' v' ht hv' => ?_⟩
      cases i with
      | zero =>
        cases ht
        cases hv'
        exact hv
      | succ i => exact hvalue i t' v' ht hv'

theorem extractArguments_ok {ins : List T} {params : List Bytes} {args : List V}
    (h : extractArgumentsFromJSONparamsArray o ins params = .ok args) : Arguments o ins params args := by
  unfold extractArgumentsFromJSONparamsArray at h
  split at h
  · cases h
  · rename_i hle
    obtain ⟨hlength, hvalue⟩ := unmarshalArguments_value h
    exact ⟨hlength, by omega, hvalue⟩

/-! ## The table of methods -/

theorem getMethodTypes_ok {f : Function T V} {method : MethodHandler o} (h : getMethodTypes o f = .ok method) :
    method.ins = f.ins ∧ method.outs = f.outs ∧ method.fn = f.fn := by
  unfold getMethodTypes at h
  split_ifs at h
  cases h
  exact ⟨rfl, rfl, rfl⟩

/-- Every method of the table is a function that was given under its name. -/
theorem newHandler_registered {functions : List (String × Function T V)} {methods : String → Option (MethodHandler o)}
    (h : newHandler o functions = .ok methods) {name : String} {method : MethodHandler o}
    (hmethod : methods name = some method) : ∃ f, (name, f) ∈ functions ∧ getMethodTypes o f = .ok method := by
  have hstart : ∀ (table : String → Option (MethodHandler o)) (functions : List (String × Function T V)),
      functions.foldlM (fun table entry => do
        let method ← getMethodTypes o entry.2
        return fun name => if name = entry.1 then some method else table name) table = .ok methods →
      table name = some method ∨ ∃ f, (name, f) ∈ functions ∧ getMethodTypes o f = .ok method := by
    intro table functions
    induction functions generalizing table with
    | nil =>
      intro h
      cases h
      exact .inl hmethod
    | cons entry functions ih =>
      intro h
      rw [List.foldlM_cons] at h
      obtain ⟨next, hnext, h⟩ := bind_ok.1 h
      obtain ⟨m, hm, hnext⟩ := bind_ok.1 hnext
      cases hnext
      rcases ih _ h with htable | ⟨f, hf, hm'⟩
      · by_cases hname : name = entry.1
        · rw [if_pos hname] at htable
          cases htable
          exact .inr ⟨entry.2, by simp [hname], hm⟩
        · rw [if_neg hname] at htable
          exact .inl htable
      · exact .inr ⟨f, List.mem_cons_of_mem _ hf, hm'⟩
  rcases hstart _ functions h with hnone | hsome
  · cases hnone
  · exact hsome

/-! ## A request -/

/-- What an effect may be while a request is served. -/
def Effect.Fits (methods : String → Option (MethodHandler o)) (r : HTTPRequest) (id : Json) : Effect o → Prop
  | .respond response => response.Answers id
  | .invoke method ctx args => ctx = requestContext o r ∧ ∃ req, o.decode r.body = .ok req ∧
      methods req.method = some method ∧ Arguments o method.ins.tail req.params args

variable {methods : String → Option (MethodHandler o)} {r : HTTPRequest} {req : JSONRPCRequest}

theorem error_fits (id : Json) (code : Int) (msg : String) :
    ∀ e ∈ [writeJSONRPCError o id code msg], e.Fits methods r id := by
  intro e he
  rw [List.mem_singleton.1 he]
  exact ⟨rfl, rfl, by simp⟩

theorem writeResult_fits (called : Called V) : ∀ e ∈ writeResult o req.id called, e.Fits methods r req.id := by
  unfold writeResult
  split
  · exact error_fits req.id _ _
  · simp
  · split
    · exact error_fits req.id _ _
    · simp only [List.mem_singleton, forall_eq]
      exact ⟨rfl, rfl, by simp⟩

theorem serveMethod_fits (hdecode : o.decode r.body = .ok req) :
    ∀ e ∈ serveMethod o methods r req, e.Fits methods r req.id := by
  unfold serveMethod
  split
  · exact error_fits req.id _ _
  · split
    · exact error_fits req.id _ _
    · rename_i method hmethod
      intro e he
      rcases List.mem_append.1 he with he | he
      · split at he
        · cases he
        · rename_i args hargs
          rw [List.mem_singleton.1 he]
          exact ⟨rfl, req, hdecode, hmethod, extractArguments_ok hargs⟩
      · exact writeResult_fits _ e he

theorem serveHTTP_fits (methods : String → Option (MethodHandler o)) (r : HTTPRequest) :
    ∀ e ∈ serveHTTP o methods r, e.Fits methods r (requestID o r) := by
  unfold serveHTTP requestID
  cases hdecode : o.decode r.body with
  | error err => exact error_fits .null _ _
  | ok req =>
    dsimp only
    split
    · exact error_fits req.id _ _
    · intro e he
      rcases List.mem_append.1 he with he | he
      · split at he
        · cases he
        · exact error_fits req.id _ _ e he
      · exact serveMethod_fits hdecode e he

/-- Every response is one to the request, with a result or an error and not both.
Every call is of a function that was registered under the request's method, in the
context that the headers say, with an argument for each parameter after the
context: the request's own, decoded, and zero for those it leaves out. -/
theorem served_as_registered {functions : List (String × Function T V)} (hnew : newHandler o functions = .ok methods)
    (r : HTTPRequest) :
    (∀ response ∈ responses (serveHTTP o methods r), response.Answers (requestID o r)) ∧
      ∀ method ctx args, .invoke method ctx args ∈ serveHTTP o methods r →
        ctx = requestContext o r ∧ ∃ req f, o.decode r.body = .ok req ∧ (req.method, f) ∈ functions ∧
          method.fn = f.fn ∧ args.length + 1 = f.ins.length ∧ Arguments o f.ins.tail req.params args := by
  have hfits := serveHTTP_fits methods r
  constructor
  · intro response hresponse
    obtain ⟨e, he, heq⟩ := List.mem_filterMap.1 hresponse
    cases e with
    | respond response' =>
      cases heq
      exact hfits _ he
    | invoke => cases heq
  · intro method ctx args he
    obtain ⟨hctx, req, hdecode, hmethod, hargs⟩ := hfits _ he
    obtain ⟨f, hf, htypes⟩ := newHandler_registered hnew hmethod
    obtain ⟨hins, -, hfn⟩ := getMethodTypes_ok htypes
    refine ⟨hctx, req, f, hdecode, hf, hfn, ?_, hins ▸ hargs⟩
    -- the context is the first parameter, so there is one
    have hcontext := method.context_first
    have hlength := hargs.length
    cases hm : method.ins with
    | nil => simp [hm] at hcontext
    | cons t ins =>
      rw [hm] at hlength
      rw [← hins, hm, hlength]
      rfl

/-- `API.SimBundle`, with a simulation of the sample bundle that was successful. -/
def simBundleFunction : Function GoType GoValue where
  isFunc := true
  ins := [.context, .sendMevBundleArgs, .simMevBundleAuxArgs]
  outs := [.simMevBundleResponse, .error]
  fn _ _ := some [.response (.obj [("success", .bool true), ("stateBlock", .str "0x1"), ("mevGasPrice", .str "0x0"),
    ("profit", .str "0x0"), ("refundableValue", .str "0x0"), ("gasUsed", .str "0x5208")]), .nil]

/-- A call of `mev_simBundle` with the first of its two parameters. -/
theorem served_as_registered_simBundle :
    ∃ methods method ctx args, newHandler nodeTypes [("mev_simBundle", simBundleFunction)] = .ok methods ∧
      .invoke method ctx args ∈ serveHTTP nodeTypes methods (posted (.str "1") "mev_simBundle") ∧
      args.length + 1 = 3 ∧ args[1]? = some .noAuxArgs ∧
      ∀ response ∈ responses (serveHTTP nodeTypes methods (posted (.str "1") "mev_simBundle")),
        response.Answers (.string "1") := by
  have hnew : ∃ methods method, newHandler nodeTypes [("mev_simBundle", simBundleFunction)] = .ok methods ∧
      methods "mev_simBundle" = some method ∧ method.ins = simBundleFunction.ins := ⟨_, _, rfl, rfl, rfl⟩
  obtain ⟨methods, method, hnew, hmethod, hins⟩ := hnew
  have hargs : ∃ args, extractArgumentsFromJSONparamsArray nodeTypes method.ins.tail
      [marshalText (encodeBundle (bundleOf [txElement]))] = .ok args ∧ args.length = 2 := by
    rw [hins]
    exact ⟨[.bundle (bundleOf [txElement]), .noAuxArgs], (congrArg (· >>= _) unmarshal_txBundle).trans rfl, rfl⟩
  obtain ⟨args, hargs, htwo⟩ := hargs
  have hinvoke : .invoke method (requestContext nodeTypes (posted (.str "1") "mev_simBundle")) args ∈
      serveHTTP nodeTypes methods (posted (.str "1") "mev_simBundle") := by
    rw [serveHTTP_posted (.str "1") rfl hmethod hargs]
    exact List.mem_append_right _ List.mem_cons_self
  have hdecode := @decode_posted (.str "1") (.string "1") (.str "1") rfl "mev_simBundle"
  have hid : requestID nodeTypes (posted (.str "1") "mev_simBundle") = .string "1" := by rw [requestID, hdecode]
  obtain ⟨hresponses, hcalls⟩ := served_as_registered hnew (posted (.str "1") "mev_simBundle")
  obtain ⟨-, req, f, hreq, hf, -, hlength, harguments⟩ := hcalls method _ args hinvoke
  obtain ⟨-, rfl⟩ := Prod.mk.inj (List.mem_singleton.1 hf)
  have hlt : 1 < args.length := by rw [htwo]; decide
  obtain ⟨v, hv⟩ : ∃ v, args[1]? = some v := ⟨_, List.getElem?_eq_getElem hlt⟩
  -- nothing was given for the second parameter
  have hparams : req.params[1]? = none := by
    rw [← Except.ok.inj (hdecode.symm.trans hreq)]
    rfl
  have hvalue := harguments.value 1 .simMevBundleAuxArgs v rfl hv
  rw [hparams] at hvalue
  exact ⟨methods, method, _, args, hnew, hinvoke, hlength, hv.trans (congrArg some hvalue), hid ▸ hresponses⟩

end MevShare.JsonRpc
