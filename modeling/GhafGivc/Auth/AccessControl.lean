import GhafGivc.Auth.PeerAddress
import GhafGivc.Core.Bytes
import GhafGivc.Core.Text
import Mathlib.Data.List.DropRight

/-! # Access control

The admin server can put a second interceptor behind the one that checks the address of a
peer. It asks a Cedar policy whether the VM that the certificate names may call the method
of the path, and lets the fields of the message into the context of the question.
-/

namespace GhafGivc.Auth

open Core

inductive Json where
  | null
  | bool (value : Bool)
  | number (text : String)
  | string (value : String)
  | array (items : List Json)
  | object (members : List (String × Json))

structure EntityUid where
  typeName : String
  id : String
deriving DecidableEq

structure CedarRequest (V : Type) where
  principal : EntityUid
  action : EntityUid
  resource : EntityUid
  context : List (String × V)

/-- The Cedar library with a set of policies. `context` is `Context::from_json_value`: it makes
a context of an object only, and the context has the values of its members under their names. -/
structure Engine (V : Type) where
  value : Json → Except String V
  string : String → V
  value_string : ∀ text, value (.string text) = .ok (string text)
  context : Json → Except String (List (String × V))
  context_object : ∀ json record, context json = .ok record → ∃ members, json = .object members
  mem_context : ∀ members record, context (.object members) = .ok record → ∀ key val,
    (key, val) ∈ record ↔ ∃ json, (key, json) ∈ members ∧ value json = .ok val
  newRequest : CedarRequest V → Except String Unit
  isAuthorized : CedarRequest V → Bool

def setMember {α : Type} (key : String) (value : α) (members : List (String × α)) :
    List (String × α) :=
  members.filter (fun member => member.1 ≠ key) ++ [(key, value)]

inductive DenialCode where
  | internal
  | invalidArgument
  | permissionDenied
deriving DecidableEq

structure Denial where
  code : DenialCode
  message : String
deriving DecidableEq

section Members

variable {α : Type} {key : String} {value : α} {members : List (String × α)}

theorem mem_setMember {member : String × α} :
    member ∈ setMember key value members ↔
      member = (key, value) ∨ member ∈ members ∧ member.1 ≠ key := by
  simp only [setMember, List.mem_append, List.mem_filter, decide_eq_true_eq, List.mem_singleton]
  exact or_comm

theorem eq_of_mem_setMember {other : α} :
    (key, other) ∈ setMember key value members ↔ other = value := by
  rw [mem_setMember]
  constructor
  · intro h
    cases h with
    | inl heq => exact (Prod.mk.inj heq).2
    | inr hold => exact absurd rfl hold.2
  · intro h
    exact Or.inl (h ▸ rfl)

end Members

variable {V M : Type}

/-! ## Paths and names -/

def cut (sep : Char) (text : String) : Option (String × String) :=
  (Delimited.splitOnce sep text.toList).map fun parts =>
    (String.ofList parts.1, String.ofList parts.2)

def isBlank (text : String) : Bool := (Text.trim text.toList).isEmpty

def trimMatches (p : Char → Bool) (cs : List Char) : List Char := (cs.dropWhile p).rdropWhile p

def parseGrpcPath (path : String) : Option (String × String) :=
  match (trimMatches (· = '/') path.toList).splitOn '/' with
  | service :: method :: _ => some (String.ofList service, String.ofList method)
  | _ => none

theorem cut_eq_some {sep : Char} {text left right : String} :
    cut sep text = some (left, right) ↔
      text = left ++ String.singleton sep ++ right ∧ sep ∉ left.toList := by
  unfold cut
  rw [Option.map_eq_some_iff]
  constructor
  · intro h
    rcases h with ⟨parts, hparts, heq⟩
    cases heq
    have hsplit := Delimited.splitOnce_eq_some.mp hparts
    refine ⟨String.toList_inj.mp ?_, by simpa using hsplit.2⟩
    simpa using hsplit.1
  · intro h
    refine ⟨(left.toList, right.toList), ?_, by simp⟩
    apply Delimited.splitOnce_eq_some.mpr
    refine ⟨?_, h.2⟩
    simpa using congrArg String.toList h.1

theorem trimMatches_spec (p : Char → Bool) (cs : List Char) :
    ∃ lead trail, cs = lead ++ trimMatches p cs ++ trail ∧ (∀ c ∈ lead, p c = true) ∧
      ∀ c ∈ trail, p c = true := by
  refine ⟨cs.takeWhile p, (cs.dropWhile p).rtakeWhile p, ?_, ?_, ?_⟩
  · rw [List.append_assoc, trimMatches, List.rdropWhile_append_rtakeWhile]
    exact (List.takeWhile_append_dropWhile).symm
  · exact fun c => List.mem_takeWhile_imp
  · exact fun c => List.mem_rtakeWhile_imp

theorem trimMatches_append {p : Char → Bool} {lead mid : List Char} (hlead : ∀ c ∈ lead, p c = true)
    (hhead : ∀ c ∈ mid.head?, p c = false) (hlast : ∀ c ∈ mid.getLast?, p c = false) :
    trimMatches p (lead ++ mid) = mid := by
  have hdrop : (lead ++ mid).dropWhile p = mid := by
    rw [List.dropWhile_append_of_pos hlead]
    cases mid with
    | nil => rfl
    | cons c mid => exact List.dropWhile_cons_of_neg (by simp [hhead c rfl])
  rw [trimMatches, hdrop, List.rdropWhile_eq_self_iff]
  intro hne
  rw [Bool.not_eq_true]
  exact hlast _ (List.getLast?_eq_some_getLast hne)

theorem splitOn_trimMatches {lead a b : List Char} (hlead : ∀ c ∈ lead, c = '/')
    (ha : '/' ∉ a) (hane : a ≠ []) (hb : '/' ∉ b) (hbne : b ≠ []) :
    (trimMatches (· = '/') (lead ++ (a ++ '/' :: b))).splitOn '/' = [a, b] := by
  have htrim : trimMatches (fun c => decide (c = '/')) (lead ++ (a ++ '/' :: b)) =
      a ++ '/' :: b := by
    refine trimMatches_append (by simpa using hlead) ?_ ?_
    · intro c hc
      rw [List.head?_append_of_ne_nil _ hane] at hc
      simpa using fun heq : c = '/' => ha (heq ▸ List.mem_of_mem_head? hc)
    · intro c hc
      rw [List.getLast?_append_cons, List.getLast?_cons_of_ne_nil hbne] at hc
      simpa using fun heq : c = '/' => hb (heq ▸ List.mem_of_getLast? hc)
  have hparts := List.splitOn_intercalate '/' (by simpa using ⟨ha, hb⟩ : ∀ l ∈ [a, b], '/' ∉ l)
    (List.cons_ne_nil a [b])
  rw [htrim]
  simpa using hparts

theorem parseGrpcPath_eq_some {path service method : String}
    (h : parseGrpcPath path = some (service, method)) :
    '/' ∉ service.toList ∧ '/' ∉ method.toList ∧
      ∃ lead rest, path.toList = lead ++ service.toList ++ '/' :: (method.toList ++ rest) ∧
        (∀ c ∈ lead, c = '/') ∧ (rest = [] ∨ ∃ tail, rest = '/' :: tail) := by
  unfold parseGrpcPath at h
  split at h
  · rename_i a b parts hparts
    cases h
    rcases Delimited.of_splitOn_eq_cons_cons hparts with ⟨ha, hb, rest, htrim, hrest⟩
    rcases trimMatches_spec (· = '/') path.toList with ⟨lead, trail, hpath, hlead, htrail⟩
    refine ⟨by simpa using ha, by simpa using hb, lead, rest ++ trail, ?_, by simpa using hlead, ?_⟩
    · rw [hpath, htrim]
      simp
    · cases hrest with
      | inl hnil =>
          cases trail with
          | nil => exact Or.inl (by simp [hnil])
          | cons c trail =>
              have hc : c = '/' := by simpa using htrail c List.mem_cons_self
              exact Or.inr ⟨trail, by simp [hnil, hc]⟩
      | inr htail =>
          rcases htail with ⟨tail, rfl⟩
          exact Or.inr ⟨tail ++ trail, rfl⟩
  · cases h

/-! ## The interceptor of the admin server -/

def withService (service : String) : Json → Json
  | .object members => .object (setMember "service" (.string service) members)
  | json => json

/-- The request that `Authorizer::authorize` puts to the policies. -/
def question (engine : Engine V) (source fullServiceName grpcMethodName : String)
    (contextJson : Json) : Except Denial (CedarRequest V) :=
  match cut '.' fullServiceName with
  | none => .error ⟨.internal, "Invalid service name format: " ++ fullServiceName⟩
  | some (moduleName, serviceName) =>
      if isBlank moduleName ∨ isBlank serviceName ∨ isBlank grpcMethodName ∨ isBlank source then
        .error ⟨.internal, "Invalid service name format (empty tokens): " ++ fullServiceName⟩
      else
        match engine.context (withService serviceName contextJson) with
        | .error e => .error ⟨.internal, "Invalid Cedar context: " ++ e⟩
        | .ok context =>
            let request : CedarRequest V :=
              ⟨⟨"Source", source⟩, ⟨"Command", grpcMethodName⟩, ⟨"Module", moduleName⟩, context⟩
            match engine.newRequest request with
            | .error e => .error ⟨.internal, "failed to build Cedar request: " ++ e⟩
            | .ok () => .ok request

def authorize (engine : Engine V) (source fullServiceName grpcMethodName : String)
    (contextJson : Json) : Except Denial Unit := do
  let request ← question engine source fullServiceName grpcMethodName contextJson
  if engine.isAuthorized request then .ok ()
  else .error ⟨.permissionDenied, "cedar: permission denied by admin access control policy"⟩

structure Method (M : Type) where
  name : String
  isClientStreaming : Bool
  decode : Frame.Bytes → Except String M

structure Authorizer (V M : Type) where
  pool : String → Option (List (Method M))
  toValue : M → Except String Json
  engine : Engine V

/-- A call as the interceptors see it; reading the body can fail. -/
structure Call where
  path : String
  body : Except String Frame.Bytes
deriving DecidableEq

def SecurityInfo.hostname (info : SecurityInfo) : Option String := info.dnsNames.head?

namespace Authorizer

variable (authorizer : Authorizer V M)

/-- The method of a known service, unless its client sends a stream. -/
def bufferedMethod (service method : String) : Option (Method M) :=
  (authorizer.pool service).bind fun methods =>
    (methods.find? fun m => m.name = method).filter fun m => !m.isClientStreaming

/-- A message without a JSON form has an empty context. -/
def contextJson (message : M) : Json := (authorizer.toValue message).toOption.getD (.object [])

def intercept (info : Option SecurityInfo) (call : Call) : Except Denial Call :=
  match info.bind SecurityInfo.hostname with
  | none => .error ⟨.internal,
      "Cedar authorization denied: SecurityInfo extension or hostname is missing"⟩
  | some source =>
      match parseGrpcPath call.path with
      | none => .error ⟨.internal, "Cedar authorization denied: Bad request"⟩
      | some (service, method) =>
          match authorizer.bufferedMethod service method with
          | none => do
              authorize authorizer.engine source service method (.object [])
              return call
          | some m =>
              match call.body with
              | .error e => .error ⟨.internal, "Failed to buffer body: " ++ e⟩
              | .ok bytes =>
                  match Frame.firstMessage bytes with
                  | none => do
                      authorize authorizer.engine source service method (.object [])
                      return ⟨call.path, .ok bytes⟩
                  | some payload =>
                      match m.decode payload with
                      | .error e => .error ⟨.internal, "Failed to decode: " ++ e⟩
                      | .ok message => do
                          authorize authorizer.engine source service method
                            (authorizer.contextJson message)
                          return ⟨call.path, .ok bytes⟩

end Authorizer

def acceptCall (display : IpAddr → String) (useTls : Bool) (authorizer : Authorizer V M)
    (conn : HttpRequest) (call : Call) : Except (Status ⊕ Denial) Call := do
  let info ← (intercept display useTls conn).mapError Sum.inl
  (authorizer.intercept (some info) call).mapError Sum.inr

/-! ## What the policy was asked -/

variable {json : Json} {engine : Engine V} {authorizer : Authorizer V M}
  {info : Option SecurityInfo}

theorem Engine.context_withService {service : String} {record : List (String × V)}
    (h : engine.context (withService service json) = .ok record) :
    (∀ value, ("service", value) ∈ record ↔ value = engine.string service) ∧
      ∃ members, json = .object members ∧ ∀ key value, key ≠ "service" →
        ((key, value) ∈ record ↔ ∃ v, (key, v) ∈ members ∧ engine.value v = .ok value) := by
  rcases engine.context_object _ _ h with ⟨found, hfound⟩
  cases json with
  | object members =>
      have hmem := engine.mem_context _ _ h
      refine ⟨fun value => ?_, members, rfl, fun key value hkey => ?_⟩
      · rw [hmem]
        constructor
        · intro hin
          rcases hin with ⟨v, hv, hvalue⟩
          rw [eq_of_mem_setMember.mp hv, engine.value_string] at hvalue
          exact (Except.ok.inj hvalue).symm
        · intro heq
          exact ⟨_, eq_of_mem_setMember.mpr rfl, heq ▸ engine.value_string service⟩
      · rw [hmem]
        refine exists_congr fun v => and_congr_left fun _ => ?_
        rw [mem_setMember]
        simp [hkey]
  | null | bool | number | string | array => cases hfound

variable {source full method : String} {request : CedarRequest V} {call out : Call}
  {conn : HttpRequest}

theorem question_eq_ok (h : question engine source full method json = .ok request) :
    ∃ moduleName serviceName, cut '.' full = some (moduleName, serviceName) ∧
      (¬ (isBlank moduleName ∨ isBlank serviceName ∨ isBlank method ∨ isBlank source)) ∧
      request.principal = ⟨"Source", source⟩ ∧ request.action = ⟨"Command", method⟩ ∧
      request.resource = ⟨"Module", moduleName⟩ ∧
      engine.context (withService serviceName json) = .ok request.context := by
  unfold question at h
  split at h
  · cases h
  · rename_i moduleName serviceName hcut
    split at h
    · cases h
    · rename_i hblank
      split at h
      · cases h
      · rename_i context hcontext
        dsimp only at h
        split at h
        · cases h
        · cases h
          exact ⟨moduleName, serviceName, hcut, hblank, rfl, rfl, rfl, hcontext⟩

theorem question_of_cut {source full method moduleName serviceName : String}
    {context : List (String × V)} (hnew : ∀ request, engine.newRequest request = .ok ())
    (hcut : cut '.' full = some (moduleName, serviceName))
    (hblank : ¬ (isBlank moduleName ∨ isBlank serviceName ∨ isBlank method ∨ isBlank source))
    (hcontext : engine.context (withService serviceName json) = .ok context) :
    question engine source full method json =
      .ok ⟨⟨"Source", source⟩, ⟨"Command", method⟩, ⟨"Module", moduleName⟩, context⟩ := by
  unfold question
  rw [hcut]
  dsimp only
  rw [if_neg hblank, hcontext]
  dsimp only
  rw [hnew]

theorem authorize_eq_ok :
    authorize engine source full method json = .ok () ↔
      ∃ request, question engine source full method json = .ok request ∧
        engine.isAuthorized request = true := by
  unfold authorize
  rw [Fallible.bind_eq_ok]
  refine exists_congr fun request => and_congr_right fun _ => ?_
  cases engine.isAuthorized request <;> simp

/-- The JSON that the server takes from a call: nothing from a method that it does not know or
that takes a stream, and nothing from a body that ends early. -/
inductive Authorizer.Context (authorizer : Authorizer V M) (call : Call) (service method : String) :
    Json → Prop
  | unknown (h : authorizer.bufferedMethod service method = none) :
      Context authorizer call service method (.object [])
  | short {m : Method M} {bytes : Frame.Bytes}
      (hmethod : authorizer.bufferedMethod service method = some m)
      (hbody : call.body = .ok bytes) (h : Frame.firstMessage bytes = none) :
      Context authorizer call service method (.object [])
  | message {m : Method M} {bytes payload : Frame.Bytes} {message : M}
      (hmethod : authorizer.bufferedMethod service method = some m)
      (hbody : call.body = .ok bytes) (hpayload : Frame.firstMessage bytes = some payload)
      (h : m.decode payload = .ok message) :
      Context authorizer call service method (authorizer.contextJson message)

theorem Authorizer.Context.exists_message {call : Call} {service method : String} {m : Method M}
    {bytes payload : Frame.Bytes} (h : authorizer.Context call service method json)
    (hmethod : authorizer.bufferedMethod service method = some m) (hbody : call.body = .ok bytes)
    (hpayload : Frame.firstMessage bytes = some payload) :
    ∃ message, m.decode payload = .ok message ∧ json = authorizer.contextJson message := by
  cases h with
  | unknown hnone => cases hnone.symm.trans hmethod
  | short _ hbody' hnone =>
      cases hbody'.symm.trans hbody
      cases hnone.symm.trans hpayload
  | message hmethod' hbody' hpayload' hdecode =>
      cases hmethod'.symm.trans hmethod
      cases hbody'.symm.trans hbody
      cases hpayload'.symm.trans hpayload
      exact ⟨_, hdecode, rfl⟩

/-- The question that the server puts to its policies about a call. -/
def Authorizer.Asks (authorizer : Authorizer V M) (info : Option SecurityInfo) (call : Call)
    (request : CedarRequest V) : Prop :=
  ∃ source service method json, info.bind SecurityInfo.hostname = some source ∧
    parseGrpcPath call.path = some (service, method) ∧
    authorizer.Context call service method json ∧
    question authorizer.engine source service method json = .ok request

theorem Authorizer.exists_authorize (h : authorizer.intercept info call = .ok out) :
    out = call ∧ ∃ source service method json, info.bind SecurityInfo.hostname = some source ∧
      parseGrpcPath call.path = some (service, method) ∧
      authorizer.Context call service method json ∧
      authorize authorizer.engine source service method json = .ok () := by
  unfold Authorizer.intercept at h
  split at h
  · cases h
  · rename_i source hsource
    split at h
    · cases h
    · rename_i service method hpath
      split at h
      · rename_i hmethod
        rcases Fallible.bind_eq_ok.mp h with ⟨_, hasked, hout⟩
        cases hout
        exact ⟨rfl, source, service, method, _, hsource, hpath, .unknown hmethod, hasked⟩
      · rename_i m hmethod
        split at h
        · cases h
        · rename_i bytes hbody
          have hcall : (⟨call.path, .ok bytes⟩ : Call) = call := by rw [← hbody]
          split at h
          · rename_i hmessage
            rcases Fallible.bind_eq_ok.mp h with ⟨_, hasked, hout⟩
            cases hout
            exact ⟨hcall, source, service, method, _, hsource, hpath,
              .short hmethod hbody hmessage, hasked⟩
          · rename_i payload hmessage
            split at h
            · cases h
            · rename_i message hdecode
              rcases Fallible.bind_eq_ok.mp h with ⟨_, hasked, hout⟩
              cases hout
              exact ⟨hcall, source, service, method, _, hsource, hpath,
                .message hmethod hbody hmessage hdecode, hasked⟩

theorem Authorizer.intercept_of_authorize {call : Call} {source service method : String}
    (hsource : info.bind SecurityInfo.hostname = some source)
    (hpath : parseGrpcPath call.path = some (service, method))
    (hcontext : authorizer.Context call service method json)
    (hasked : authorize authorizer.engine source service method json = .ok ()) :
    authorizer.intercept info call = .ok call := by
  unfold Authorizer.intercept
  rw [hsource]
  dsimp only
  rw [hpath]
  dsimp only
  cases hcontext with
  | unknown hmethod =>
      rw [hmethod]
      dsimp only
      rw [hasked]
      rfl
  | short hmethod hbody hmessage =>
      rw [hmethod, hbody]
      dsimp only
      rw [hmessage]
      dsimp only
      rw [hasked, ← hbody]
      rfl
  | message hmethod hbody hmessage hdecode =>
      rw [hmethod, hbody]
      dsimp only
      rw [hmessage]
      dsimp only
      rw [hdecode]
      dsimp only
      rw [hasked, ← hbody]
      rfl

/-- A call is passed on, as it came, exactly if the policies answer its question with yes. -/
theorem Authorizer.intercept_eq_ok :
    authorizer.intercept info call = .ok out ↔ out = call ∧
      ∃ request, authorizer.Asks info call request ∧
        authorizer.engine.isAuthorized request = true := by
  constructor
  · intro h
    rcases Authorizer.exists_authorize h with
      ⟨hout, source, service, method, json, hsource, hpath, hcontext, hasked⟩
    rcases authorize_eq_ok.mp hasked with ⟨request, hquestion, hallowed⟩
    exact ⟨hout, request, ⟨source, service, method, json, hsource, hpath, hcontext, hquestion⟩,
      hallowed⟩
  · rintro ⟨rfl, request, ⟨source, service, method, json, hsource, hpath, hcontext, hquestion⟩,
      hallowed⟩
    exact Authorizer.intercept_of_authorize hsource hpath hcontext
      (authorize_eq_ok.mpr ⟨request, hquestion, hallowed⟩)

/-! ## Who was asked about -/

def GeneralName.dnsName? : GeneralName → Option String
  | dnsName name => some name
  | _ => none

def Certificate.dnsNames (cert : Certificate) : List String :=
  (cert.extensions.flatMap Extension.generalNames).filterMap GeneralName.dnsName?

theorem SecurityInfo.foldl_pushName_dnsNames (info : SecurityInfo) (names : List GeneralName) :
    (names.foldl pushName info).dnsNames =
      info.dnsNames ++ names.filterMap GeneralName.dnsName? := by
  induction names generalizing info with
  | nil => simp
  | cons name names ih =>
      rw [List.foldl_cons, ih]
      cases name with
      | dnsName name => simp [pushName, GeneralName.dnsName?]
      | ipAddress b =>
          cases hb : IpAddr.ofBytes b with
          | none =>
              simp only [pushName, hb]
              rfl
          | some ip =>
              simp only [pushName, hb]
              rfl
      | other => rfl

theorem SecurityInfo.hostname_tryFrom (cert : Certificate) :
    (tryFrom cert).hostname = cert.dnsNames.head? := by
  have hflat : tryFrom cert = (cert.extensions.flatMap Extension.generalNames).foldl pushName new :=
    List.foldl_flatMap.symm
  rw [hostname, hflat, foldl_pushName_dnsNames]
  rfl

def HttpRequest.certificate (req : HttpRequest) : Option Certificate :=
  (req.connectInfo.bind (·.peerCerts)).bind fun certs => certs.findSome? id

theorem certificate_of_securityInfo {info : SecurityInfo}
    (h : securityInfoFromRequest conn = .ok info) :
    ∃ cert, conn.certificate = some cert ∧ SecurityInfo.tryFrom cert = info := by
  unfold securityInfoFromRequest at h
  cases hcerts : conn.connectInfo.bind (·.peerCerts) with
  | none =>
      rw [hcerts] at h
      cases h
  | some certs =>
      rw [hcerts] at h
      have hfind : certs.findSome? (·.map SecurityInfo.tryFrom) =
          (certs.findSome? id).map SecurityInfo.tryFrom := List.map_findSome?.symm
      dsimp only at h
      rw [hfind] at h
      unfold HttpRequest.certificate
      rw [hcerts, Option.bind_some]
      cases hcert : certs.findSome? id with
      | none =>
          rw [hcert] at h
          cases h
      | some cert =>
          rw [hcert] at h
          exact ⟨cert, rfl, Except.ok.inj h⟩

/-- What the authenticator passes on comes from the certificate, and over TCP the address of
the peer is in it. Without TLS there is no name to ask about. -/
theorem intercept_eq_ok {display : IpAddr → String} {useTls : Bool} {info : SecurityInfo}
    {caller : String} (h : intercept display useTls conn = .ok info)
    (hcaller : info.hostname = some caller) :
    useTls = true ∧ ∃ cert, conn.certificate = some cert ∧ cert.dnsNames.head? = some caller ∧
      ∀ ip, transportInfoFromRequest conn = some (.tcp (some ip)) → ip ∈ cert.addresses := by
  cases useTls with
  | false =>
      cases h
      cases hcaller
  | true =>
      unfold intercept at h
      rw [if_pos rfl] at h
      rcases Fallible.bind_eq_ok.mp h with ⟨found, hfound, h⟩
      have hcert := certificate_of_securityInfo hfound
      rcases hcert with ⟨cert, hcert, rfl⟩
      refine ⟨rfl, cert, hcert, ?_⟩
      split at h
      · rename_i ip htransport
        split at h
        · rename_i haddress
          cases h
          rw [SecurityInfo.hostname_tryFrom] at hcaller
          refine ⟨hcaller, fun ip' htransport' => ?_⟩
          rw [htransport] at htransport'
          cases htransport'
          exact SecurityInfo.checkAddress_tryFrom.mp haddress
        · cases h
      · cases h
      · rename_i htransport
        cases h
        rw [SecurityInfo.hostname_tryFrom] at hcaller
        refine ⟨hcaller, fun ip' htransport' => ?_⟩
        rw [htransport] at htransport'
        cases htransport'
      · cases h

/-- The policies allowed `caller` the method that the path names. Under the key `service`
the context of the question has the service of the path, whatever the message says. -/
structure Permitted (engine : Engine V) (caller path : String) (request : CedarRequest V) :
    Prop where
  allowed : engine.isAuthorized request = true
  principal : request.principal = ⟨"Source", caller⟩
  target : ∃ lead moduleName service method rest,
    path = lead ++ moduleName ++ "." ++ service ++ "/" ++ method ++ rest ∧
      (∀ c ∈ lead.toList, c = '/') ∧ '.' ∉ moduleName.toList ∧
      (∀ part ∈ [moduleName, service, method], '/' ∉ part.toList ∧ isBlank part = false) ∧
      (rest = "" ∨ ∃ tail, rest = "/" ++ tail) ∧
      request.resource = ⟨"Module", moduleName⟩ ∧ request.action = ⟨"Command", method⟩ ∧
      ∀ value, ("service", value) ∈ request.context ↔ value = engine.string service

theorem permitted_of_question {caller path service method : String}
    (hpath : parseGrpcPath path = some (service, method))
    (hquestion : question engine caller service method json = .ok request)
    (hallowed : engine.isAuthorized request = true) :
    Permitted engine caller path request ∧
      ∃ members, json = .object members ∧ ∀ key value, key ≠ "service" →
        ((key, value) ∈ request.context ↔
          ∃ v, (key, v) ∈ members ∧ engine.value v = .ok value) := by
  rcases question_eq_ok hquestion with
    ⟨moduleName, serviceName, hcut, hblank, hprincipal, haction, hresource, hcontext⟩
  rcases Engine.context_withService hcontext with ⟨hservice, hmembers⟩
  rcases parseGrpcPath_eq_some hpath with ⟨hslash, hmethod, lead, rest, hwhole, hlead, hrest⟩
  rcases cut_eq_some.mp hcut with ⟨rfl, hdot⟩
  simp only [not_or, Bool.not_eq_true] at hblank
  have hfree : '/' ∉ moduleName.toList ∧ '/' ∉ serviceName.toList := by simpa using hslash
  refine ⟨⟨hallowed, hprincipal, ?_⟩, hmembers⟩
  refine ⟨String.ofList lead, moduleName, serviceName, method, String.ofList rest, ?_,
    by simpa using hlead, hdot, ?_, ?_, hresource, haction, hservice⟩
  · apply String.toList_inj.mp
    simpa using hwhole
  · simpa using ⟨⟨hfree.1, hblank.1⟩, ⟨hfree.2, hblank.2.1⟩, hmethod, hblank.2.2.1⟩
  · cases hrest with
    | inl hnil => exact Or.inl (by simp [hnil])
    | inr htail =>
        rcases htail with ⟨tail, rfl⟩
        exact Or.inr ⟨String.ofList tail, String.toList_inj.mp (by simp)⟩

/-- With access control on, a call reaches the service only over TLS and unchanged, and only
after the policies allowed the VM named in the peer's certificate the method of the path;
over TCP the certificate also has the address of the peer. -/
theorem acceptCall_permitted {display : IpAddr → String} {useTls : Bool}
    {authorizer : Authorizer V M}
    {conn : HttpRequest} {call out : Call}
    (h : acceptCall display useTls authorizer conn call = .ok out) :
    out = call ∧ useTls = true ∧ ∃ cert caller request, conn.certificate = some cert ∧
      cert.dnsNames.head? = some caller ∧
      (∀ ip, transportInfoFromRequest conn = some (.tcp (some ip)) → ip ∈ cert.addresses) ∧
      Permitted authorizer.engine caller call.path request := by
  rcases Fallible.bind_eq_ok.mp h with ⟨info, hinfo, h⟩
  rcases Authorizer.intercept_eq_ok.mp (Fallible.mapError_eq_ok.mp h) with
    ⟨rfl, request, ⟨caller, service, method, json, hcaller, hpath, -, hquestion⟩, hallowed⟩
  rcases intercept_eq_ok (Fallible.mapError_eq_ok.mp hinfo) hcaller with
    ⟨htls, cert, hcert, hname, haddress⟩
  exact ⟨rfl, htls, cert, caller, request, hcert, hname, haddress,
    (permitted_of_question hpath hquestion hallowed).1⟩

def plainEngine (policy : CedarRequest Json → Bool) : Engine Json where
  value := .ok
  string := .string
  value_string _ := rfl
  context
    | .object members => .ok members
    | _ => .error "expression is not a record"
  context_object json record h := by
    cases json with
    | object members => exact ⟨members, rfl⟩
    | null | bool | number | string | array => cases h
  mem_context members record h key val := by
    cases h
    simp
  newRequest _ := .ok ()
  isAuthorized := policy

def guiPolicies : Engine Json :=
  plainEngine fun request => request.principal.id = "gui-vm" && request.action.id = "StartVM"

def vmAuthorizer : Authorizer Json String where
  pool service :=
    if service = "admin.AdminService" then
      some [⟨"StartVM", false, fun bytes => .ok (Text.latin1 bytes)⟩]
    else none
  toValue name := .ok (.object [("vmName", .string name), ("service", .string "other")])
  engine := guiPolicies

def startVmCall : Call :=
  ⟨"/admin.AdminService/StartVM", .ok (Frame.frame 0 [110, 101, 116] ++ [])⟩

theorem acceptCall_startVmCall :
    acceptCall (fun _ => "") true vmAuthorizer (serverRequest guiCertificate [] plainPeer)
        startVmCall =
      .ok startVmCall := by
  decide +kernel

theorem acceptCall_permitted_startVmCall :
    ∃ cert caller request,
      (serverRequest guiCertificate [] plainPeer).certificate = some cert ∧
      cert.dnsNames.head? = some caller ∧
      Permitted guiPolicies caller startVmCall.path request := by
  rcases (acceptCall_permitted acceptCall_startVmCall).2.2 with
    ⟨cert, caller, request, hcert, hcaller, -, hpermitted⟩
  exact ⟨cert, caller, request, hcert, hcaller, hpermitted⟩

/-- The policies see the message of a call whose method they know: every field of it that is
in the question was in the message, and every field of the message is in the question. -/
theorem acceptCall_sees_message {display : IpAddr → String} {useTls : Bool}
    {authorizer : Authorizer V M} {conn : HttpRequest} {call out : Call} {service method : String}
    {m : Method M} {flag : UInt8} {payload rest : Frame.Bytes}
    (h : acceptCall display useTls authorizer conn call = .ok out)
    (hpath : parseGrpcPath call.path = some (service, method))
    (hmethod : authorizer.bufferedMethod service method = some m)
    (hbody : call.body = .ok (Frame.frame flag payload ++ rest)) (hlen : payload.length < 2 ^ 32) :
    ∃ caller request message members, Permitted authorizer.engine caller call.path request ∧
      m.decode payload = .ok message ∧ authorizer.contextJson message = .object members ∧
      ∀ key value, key ≠ "service" → ((key, value) ∈ request.context ↔
        ∃ json, (key, json) ∈ members ∧ authorizer.engine.value json = .ok value) := by
  rcases Fallible.bind_eq_ok.mp h with ⟨info, -, h⟩
  rcases Authorizer.intercept_eq_ok.mp (Fallible.mapError_eq_ok.mp h) with
    ⟨-, request, ⟨caller, service', method', json, -, hpath', hcontext, hquestion⟩, hallowed⟩
  cases hpath.symm.trans hpath'
  rcases hcontext.exists_message hmethod hbody (Frame.firstMessage_frame hlen flag rest) with
    ⟨message, hdecode, rfl⟩
  rcases permitted_of_question hpath hquestion hallowed with
    ⟨hpermitted, members, hobject, hfields⟩
  exact ⟨caller, request, message, members, hpermitted, hdecode, hobject, hfields⟩

theorem acceptCall_sees_message_startVmCall :
    ∃ caller request, Permitted guiPolicies caller startVmCall.path request ∧
      ("vmName", Json.string "net") ∈ request.context := by
  have hpath : parseGrpcPath startVmCall.path = some ("admin.AdminService", "StartVM") := by
    decide +kernel
  rcases acceptCall_sees_message acceptCall_startVmCall hpath rfl rfl (by decide) with
    ⟨caller, request, message, members, hpermitted, hdecode, hobject, hfields⟩
  cases hdecode
  cases hobject
  exact ⟨caller, request, hpermitted, (hfields _ _ (by decide)).mpr ⟨_, List.mem_cons_self, rfl⟩⟩

end GhafGivc.Auth
