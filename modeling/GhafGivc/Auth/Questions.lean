import GhafGivc.Auth.AgentAccess

/-! # The questions of the server and of the agents

Admin server and agents read the caller, the method and the fields of a call by code of their
own. Here the two readings of one call are compared: where they differ, a rule that is meant
for both is not the same rule for both.
-/

namespace GhafGivc.Auth

open Core

variable {V M N : Type}

theorem parseGrpcPath_of_reads {path moduleName service method : String}
    (h : Reads path moduleName service method) (hmethod : '/' ∉ method.toList) :
    parseGrpcPath path = some (moduleName ++ "." ++ service, method) := by
  rcases h with ⟨⟨lead, hlead, rfl⟩, -, hslash, hmoduleNe, -, hmethodNe⟩
  have hpath : (lead ++ (moduleName ++ "." ++ service ++ "/" ++ method)).toList =
      lead.toList ++ ((moduleName ++ "." ++ service).toList ++ '/' :: method.toList) := by
    simp
  have hparts : (trimMatches (· = '/')
      (lead ++ (moduleName ++ "." ++ service ++ "/" ++ method)).toList).splitOn '/' =
        [(moduleName ++ "." ++ service).toList, method.toList] := by
    rw [hpath]
    refine splitOn_trimMatches ?_ (by simpa using hslash) (by simp) hmethod
      (by simpa using hmethodNe)
    rcases hlead with rfl | rfl <;> simp
  unfold parseGrpcPath
  rw [hparts]
  simp [String.append_assoc]

theorem isBlank_of_trimSpace {text : String} (htrim : trimSpace text = text) (hne : text ≠ "") :
    isBlank text = false := by
  have hlist : Text.trim text.toList = text.toList := by
    have h := congrArg String.toList htrim
    rwa [trimSpace, String.toList_ofList] at h
  unfold isBlank
  rw [hlist]
  simpa using hne

/-- The same question: contexts are compared by their members. -/
structure CedarRequest.Same (a b : CedarRequest V) : Prop where
  principal : a.principal = b.principal
  action : a.action = b.action
  resource : a.resource = b.resource
  context : ∀ member, member ∈ a.context ↔ member ∈ b.context

/-- Both sides can make a context of the call, and apart from the service the two contexts
have the same fields with the same values. -/
def SameFields (authorizer : Authorizer V M) (server : AgentServer V N) (call : Call)
    (message : AgentMessage N) (moduleName service method : String) : Prop :=
  ∃ json context record, authorizer.Context call (moduleName ++ "." ++ service) method json ∧
    authorizer.engine.context (withService service json) = .ok context ∧
    server.context message = .ok record ∧
    ∀ field, field.1 ≠ "service" → (field ∈ context ↔ field ∈ record)

section Same

variable {authorizer : Authorizer V M} {server : AgentServer V N} {service method : String}
  {json : Json} {context record : List (String × V)}

theorem mem_context_iff_mem_record
    (hstring : ∀ text, authorizer.engine.string text = server.engine.string text)
    (hcontext : authorizer.engine.context (withService service json) = .ok context) :
    (∀ field, field ∈ context ↔
        field ∈ setMember "service" (server.engine.string service) record) ↔
      ∀ field, field.1 ≠ "service" → (field ∈ context ↔ field ∈ record) := by
  have hservice := (Engine.context_withService hcontext).1
  have hrecord : ∀ field : String × V, field.1 ≠ "service" →
      (field ∈ setMember "service" (server.engine.string service) record ↔ field ∈ record) := by
    intro field hfield
    rw [mem_setMember]
    constructor
    · rintro (rfl | hin)
      · exact absurd rfl hfield
      · exact hin.1
    · exact fun hin => Or.inr ⟨hin, hfield⟩
  constructor
  · intro h field hfield
    rw [h, hrecord field hfield]
  · rintro h ⟨key, value⟩
    by_cases hkey : key = "service"
    · subst hkey
      rw [hservice, eq_of_mem_setMember, hstring]
    · rw [h _ hkey, hrecord _ hkey]

end Same

/-- Server and agent ask the same about a call exactly when the first name in the certificate
has no blanks around it, the path has three parts that are not blank, with one dot and one
slash between them and at most one slash in front, and both see the same fields. -/
theorem sameQuestion_iff {authorizer : Authorizer V M} {server : AgentServer V N}
    {cert : Certificate} {chain : List Certificate} {addr : Option Addr} {path : String}
    {body : Except String Frame.Bytes} {message : AgentMessage N}
    (hnew : ∀ request, authorizer.engine.newRequest request = .ok ())
    (hstring : ∀ text, authorizer.engine.string text = server.engine.string text) :
    (∃ asked asked', authorizer.Asks (some (.tryFrom cert)) ⟨path, body⟩ asked ∧
        server.Asks ⟨some ⟨addr, some (cert :: chain)⟩, path, message⟩ asked' ∧
        asked.Same asked') ↔
      (∃ caller, cert.dnsNames.head? = some caller ∧ trimSpace caller = caller ∧ caller ≠ "") ∧
        ∃ moduleName service method, Reads path moduleName service method ∧
          '/' ∉ method.toList ∧ (∀ part ∈ [moduleName, service, method], isBlank part = false) ∧
          SameFields authorizer server ⟨path, body⟩ message moduleName service method := by
  constructor
  · rintro ⟨asked, asked', ⟨caller, full, method, json, hcaller, hpath, hjson, hserver⟩,
      ⟨source, record, hsource, hrecord, hagent⟩, hsame⟩
    rcases agentQuestion_eq_ok.mp hagent with ⟨moduleName, service, rest, hreads, rfl⟩
    rcases question_eq_ok hserver with
      ⟨moduleName', service', hcut, hblank, hprincipal, haction, hresource, hcontext⟩
    cases hprincipal.symm.trans hsame.principal
    cases haction.symm.trans hsame.action
    cases hresource.symm.trans hsame.resource
    have hname : cert.dnsNames.head? = some caller := by
      rw [← SecurityInfo.hostname_tryFrom]
      exact hcaller
    rcases hsource with ⟨_, _, _, name, hpeer, hfirst, htrim, hne⟩
    cases hpeer
    cases hname.symm.trans hfirst
    have hslash := (parseGrpcPath_eq_some hpath).2.1
    cases hpath.symm.trans (parseGrpcPath_of_reads hreads hslash)
    cases hreads.cut.symm.trans hcut
    refine ⟨⟨caller, hname, htrim, hne⟩, moduleName, service, method, hreads, hslash, ?_,
      json, asked.context, record, hjson, hcontext, hrecord, ?_⟩
    · simp only [not_or, Bool.not_eq_true] at hblank
      simpa using ⟨hblank.1, hblank.2.1, hblank.2.2.1⟩
    · exact (mem_context_iff_mem_record hstring hcontext).mp hsame.context
  · rintro ⟨⟨caller, hcaller, htrim, hne⟩, moduleName, service, method, hreads, hslash, hblank,
      json, context, record, hjson, hcontext, hrecord, hfields⟩
    have hname : (some (SecurityInfo.tryFrom cert)).bind SecurityInfo.hostname = some caller := by
      rw [Option.bind_some, SecurityInfo.hostname_tryFrom, hcaller]
    have hparts : ¬ (isBlank moduleName ∨ isBlank service ∨ isBlank method ∨ isBlank caller) := by
      simpa [isBlank_of_trimSpace htrim hne] using hblank
    refine ⟨_, _, ⟨caller, _, method, json, hname, parseGrpcPath_of_reads hreads hslash, hjson,
        question_of_cut hnew hreads.cut hparts hcontext⟩,
      ⟨caller, record, ⟨addr, cert, chain, caller, rfl, hcaller, htrim, hne⟩, hrecord,
        agentQuestion_eq_ok.mpr ⟨moduleName, service, method, hreads, rfl⟩⟩,
      rfl, rfl, rfl, ?_⟩
    exact (mem_context_iff_mem_record hstring hcontext).mpr hfields

def unitAuthorizer : Authorizer Json String where
  pool service :=
    if service = "systemd.UnitControlService" then
      some [⟨"StartUnit", false, fun bytes => .ok (Text.latin1 bytes)⟩,
        ⟨"MonitorUnit", false, fun bytes => .ok (Text.latin1 bytes)⟩]
    else none
  toValue name := .ok (.object [("UnitName", .string name)])
  engine := guiPolicies

def unitServer : AgentServer Json String :=
  ⟨guiPolicies, fun name => .ok [("UnitName", .string name)], bareNet, true⟩

def unitCall (method : String) : Call :=
  ⟨"/systemd.UnitControlService/" ++ method, .ok (Frame.frame 0 [97] ++ [])⟩

theorem sameQuestion_iff_unitCall :
    ∃ asked asked', unitAuthorizer.Asks (some (.tryFrom guiCertificate)) (unitCall "StartUnit")
        asked ∧
      unitServer.Asks ⟨some (agentPeer guiCertificate [] plainPeer), (unitCall "StartUnit").path,
        .unary (some "a")⟩ asked' ∧ asked.Same asked' := by
  have hreads : Reads (unitCall "StartUnit").path "systemd" "UnitControlService" "StartUnit" :=
    ⟨⟨"/", Or.inr rfl, by decide +kernel⟩, by decide +kernel, by decide +kernel, by decide +kernel⟩
  have hjson : unitAuthorizer.Context (unitCall "StartUnit")
      ("systemd" ++ "." ++ "UnitControlService") "StartUnit"
      (.object [("UnitName", .string "a")]) :=
    .message rfl rfl (Frame.firstMessage_frame (by decide) 0 []) rfl
  refine (sameQuestion_iff (fun _ => rfl) fun _ => rfl).mpr
    ⟨⟨"gui-vm", by decide +kernel, by decide +kernel, by decide⟩, _, _, _, hreads,
      by decide +kernel, by decide +kernel, _, _, _, hjson, rfl, rfl, ?_⟩
  intro field hfield
  simp [setMember, hfield, Prod.ext_iff]

-- The method sends a stream back: the server has the message, the agent does not wait for it.
example : ¬ SameFields unitAuthorizer unitServer (unitCall "MonitorUnit") .stream "systemd"
    "UnitControlService" "MonitorUnit" := by
  rintro ⟨json, context, record, hjson, hcontext, hrecord, hfields⟩
  rcases hjson.exists_message rfl rfl (Frame.firstMessage_frame (by decide) 0 []) with
    ⟨message, hdecode, rfl⟩
  cases hdecode
  cases hcontext
  cases hrecord
  have hfield := (hfields ("UnitName", .string (Text.latin1 [97])) (by decide)).mp
    (by simp [setMember])
  cases hfield

end GhafGivc.Auth
