import GhafGivc.Auth.AccessControl
import GhafGivc.Core.Transition

/-! # Access control of the agents

The agents ask their policies the same kind of question as the admin server, from their own
readings of the certificate and of the path. The two readings agree on the paths that a gRPC
library builds, and where they differ a rule for the one is not a rule for the other.
-/

namespace GhafGivc.Auth

open Core

variable {V M : Type}

/-- `strings.TrimSpace` -/
def trimSpace (text : String) : String := String.ofList (Text.trim text.toList)

/-- `strings.TrimPrefix` with a slash -/
def trimSlash (text : String) : String :=
  match text.toList with
  | '/' :: rest => String.ofList rest
  | _ => text

/-- The name of the peer and the error, as the source returns them. -/
def getSource (peer : Option Peer) : String × Option String :=
  match peer with
  | none => ("", some "no peer info available in context")
  | some p =>
      match p.tls with
      | some (cert :: _) =>
          match cert.dnsNames with
          | name :: _ =>
              if trimSpace name = "" then ("", some "invalid DNS SAN: DNS name not found")
              else (trimSpace name, none)
          | [] => ("", some "unable to determine source principal from peer connection")
      | _ => ("", some "unable to determine source principal from peer connection")

/-- The request that `authorize` of the access controller puts to the policies. -/
def agentQuestion (engine : Engine V) (source fullMethod : String)
    (ctxMap : List (String × V)) : Except Denial (CedarRequest V) :=
  if trimSlash fullMethod = "" then
    .error ⟨.invalidArgument, "invalid gRPC method format: " ++ fullMethod⟩
  else
    match (cut '/' (trimSlash fullMethod)).filter fun p => p.1 ≠ "" && p.2 ≠ "" with
    | none => .error ⟨.invalidArgument, "failed to parse method from fullMethod: " ++ fullMethod⟩
    | some (servicePart, method) =>
        match (cut '.' servicePart).filter fun p => p.1 ≠ "" && p.2 ≠ "" with
        | none => .error ⟨.invalidArgument,
            "failed to parse module and service from fullMethod: " ++ fullMethod⟩
        | some (moduleName, grpcService) =>
            .ok ⟨⟨"Source", source⟩, ⟨"Command", method⟩, ⟨"Module", moduleName⟩,
              setMember "service" (engine.string grpcService) ctxMap⟩

inductive AgentMessage (M : Type) where
  | unary (req : Option M)
  | stream

structure AgentCall (M : Type) where
  peer : Option Peer
  fullMethod : String
  message : AgentMessage M

structure AgentServer (V M : Type) where
  engine : Engine V
  mapRequestToContext : M → Except String (List (String × V))
  net : Net
  useTls : Bool

abbrev Answer : Type := Outcome (Status ⊕ Denial) Unit

def Answer.ofExcept : Except Denial Unit → Answer
  | .ok () => .ok ()
  | .error denial => .err (.inr denial)

/-! ## Calls that share the error of `getSource`

`authorize` assigns the error to a variable that `NewAccessController` declared, so all calls
of an agent write and read the same one.
-/

inductive Progress (V : Type) where
  | arrived
  | assigned (source : String) (ctxMap : List (String × V))
  | refused
  | answered (answer : Answer)

structure AgentState (ι V : Type) where
  err : Option String
  progress : ι → Progress V

def AgentState.start (ι V : Type) : AgentState ι V := ⟨none, fun _ => .arrived⟩

section Move

variable {ι : Type} [DecidableEq ι]

def AgentState.move (s : AgentState ι V) (i : ι) (err : Option String) (progress : Progress V) :
    AgentState ι V :=
  ⟨err, Function.update s.progress i progress⟩

@[simp] theorem AgentState.err_move (s : AgentState ι V) (i : ι) (err : Option String)
    (progress : Progress V) : (s.move i err progress).err = err := rfl

@[simp] theorem AgentState.progress_move_self (s : AgentState ι V) (i : ι) (err : Option String)
    (progress : Progress V) : (s.move i err progress).progress i = progress :=
  Function.update_self ..

end Move

namespace AgentServer

variable (server : AgentServer V M)

/-- The context that the unary and the stream interceptor start from. The first message of a
stream is not there yet. -/
def context : AgentMessage M → Except Denial (List (String × V))
  | .unary none => .error ⟨.internal, "request is not a proto.Message"⟩
  | .unary (some req) =>
      match server.mapRequestToContext req with
      | .error _ => .error ⟨.internal, "failed to map request to cedar context"⟩
      | .ok record => .ok record
  | .stream => .ok []

/-- What the interceptors do with a call until `authorize` looks for its source, in the order
of `GetServerInterceptors`. -/
def arrive (call : AgentCall M) : Outcome (Status ⊕ Denial) (List (String × V)) :=
  match if server.useTls then certIPVerify server.net call.peer else .ok () with
  | .panicked => .panicked
  | .err status => .err (.inl status)
  | .ok () =>
      match server.context call.message with
      | .error denial => .err (.inr denial)
      | .ok record =>
          if call.fullMethod = "" then
            .err (.inr ⟨.invalidArgument, "fullMethod cannot be empty"⟩)
          else .ok record

/-- What `authorize` does once it took `source` for the caller. -/
def judge (source fullMethod : String) (ctxMap : List (String × V)) : Except Denial Unit := do
  let request ← agentQuestion server.engine source fullMethod ctxMap
  if server.engine.isAuthorized request then .ok ()
  else .error ⟨.permissionDenied, "permission denied by access control policy"⟩

def unknownSource (error : String) : Answer :=
  .err (.inr ⟨.permissionDenied, "Cedar: unknow source! error: " ++ error⟩)

variable {ι : Type} [DecidableEq ι] (calls : ι → AgentCall M)

/-- The next step of call `i`. The assignment to the error, the comparison with `nil` and the
text of the refusal are three accesses of the shared variable. -/
def step (s : AgentState ι V) (i : ι) : Option (AgentState ι V) :=
  match s.progress i with
  | .arrived =>
      match server.arrive (calls i) with
      | .panicked => some (s.move i s.err (.answered .panicked))
      | .err e => some (s.move i s.err (.answered (.err e)))
      | .ok ctxMap =>
          let (source, err) := getSource (calls i).peer
          some (s.move i err (.assigned source ctxMap))
  | .assigned source ctxMap =>
      match s.err with
      | some _ => some (s.move i s.err .refused)
      | none =>
          let answer := Answer.ofExcept (server.judge source (calls i).fullMethod ctxMap)
          some (s.move i s.err (.answered answer))
  | .refused =>
      let answer := unknownSource (s.err.getD "<nil>")
      some (s.move i s.err (.answered answer))
  | .answered _ => none

/-- The answer to a call that no other call gets in between. -/
def accept (call : AgentCall M) : Answer :=
  match server.arrive call with
  | .panicked => .panicked
  | .err e => .err e
  | .ok ctxMap =>
      match getSource call.peer with
      | (source, none) => Answer.ofExcept (server.judge source call.fullMethod ctxMap)
      | (_, some e) => unknownSource e

end AgentServer

/-! ## Readings of the path -/

theorem cut_filter_eq_some {sep : Char} {text left right : String} :
    ((cut sep text).filter fun p => p.1 ≠ "" && p.2 ≠ "") = some (left, right) ↔
      text = left ++ String.singleton sep ++ right ∧ sep ∉ left.toList ∧ left ≠ "" ∧
        right ≠ "" := by
  rw [Option.filter_eq_some_iff, cut_eq_some]
  simp [and_assoc]

/-- What an agent reads from a path: at most one slash in front, a module without dots, and
all that follows the service as the method. -/
structure Reads (path moduleName service method : String) : Prop where
  whole : ∃ lead, (lead = "" ∨ lead = "/") ∧
    path = lead ++ (moduleName ++ "." ++ service ++ "/" ++ method)
  dot : '.' ∉ moduleName.toList
  slash : '/' ∉ moduleName.toList ∧ '/' ∉ service.toList
  nonempty : moduleName ≠ "" ∧ service ≠ "" ∧ method ≠ ""

theorem Reads.cut {path moduleName service method : String}
    (h : Reads path moduleName service method) :
    cut '.' (moduleName ++ "." ++ service) = some (moduleName, service) :=
  cut_eq_some.mpr ⟨rfl, h.dot⟩

theorem trimSlash_spec (text : String) :
    ∃ lead, (lead = "" ∨ lead = "/") ∧ text = lead ++ trimSlash text := by
  unfold trimSlash
  split
  · rename_i rest h
    refine ⟨"/", Or.inr rfl, String.toList_inj.mp ?_⟩
    simpa using h
  · exact ⟨"", Or.inl rfl, by simp⟩

theorem trimSlash_append {lead text : String} (hlead : lead = "" ∨ lead = "/")
    (htext : ∃ c cs, text.toList = c :: cs ∧ c ≠ '/') : trimSlash (lead ++ text) = text := by
  rcases htext with ⟨c, cs, hcs, hc⟩
  rcases hlead with rfl | rfl
  · unfold trimSlash
    simp only [String.empty_append, hcs]
    split
    · rename_i heq
      exact absurd (List.cons.inj heq).1 hc
    · rfl
  · have hlist : ("/" ++ text).toList = '/' :: text.toList := by simp
    unfold trimSlash
    rw [hlist]
    exact String.ofList_toList

theorem exists_head {text : String} (hne : text ≠ "") (hslash : '/' ∉ text.toList)
    (rest : String) : ∃ c cs, (text ++ rest).toList = c :: cs ∧ c ≠ '/' := by
  cases htext : text.toList with
  | nil => exact absurd (String.toList_eq_nil_iff.mp htext) hne
  | cons c cs =>
      refine ⟨c, cs ++ rest.toList, by simp [htext], ?_⟩
      intro hc
      exact hslash (by simp [htext, hc])

theorem agentQuestion_eq_ok {engine : Engine V} {source path : String}
    {record : List (String × V)} {request : CedarRequest V} :
    agentQuestion engine source path record = .ok request ↔
      ∃ moduleName service method, Reads path moduleName service method ∧
        request = ⟨⟨"Source", source⟩, ⟨"Command", method⟩, ⟨"Module", moduleName⟩,
          setMember "service" (engine.string service) record⟩ := by
  constructor
  · intro h
    unfold agentQuestion at h
    split at h
    · cases h
    · split at h
      · cases h
      · rename_i servicePart method hmethod
        split at h
        · cases h
        · rename_i moduleName service hservice
          cases h
          rcases cut_filter_eq_some.mp hmethod with ⟨htrim, hslash, -, hmethodNe⟩
          rcases cut_filter_eq_some.mp hservice with ⟨rfl, hdot, hmoduleNe, hserviceNe⟩
          rcases trimSlash_spec path with ⟨lead, hlead, hpath⟩
          refine ⟨moduleName, service, method, ?_, rfl⟩
          exact ⟨⟨lead, hlead, htrim ▸ hpath⟩, hdot, by simpa using hslash, hmoduleNe,
            hserviceNe, hmethodNe⟩
  · intro h
    rcases h with ⟨moduleName, service, method, hreads, rfl⟩
    rcases hreads with ⟨⟨lead, hlead, rfl⟩, hdot, hslash, hmoduleNe, hserviceNe, hmethodNe⟩
    have htrim : trimSlash (lead ++ (moduleName ++ "." ++ service ++ "/" ++ method)) =
        moduleName ++ "." ++ service ++ "/" ++ method := by
      apply trimSlash_append hlead
      simpa only [String.append_assoc] using exists_head hmoduleNe hslash.1 _
    have hmethod : ((cut '/' (moduleName ++ "." ++ service ++ "/" ++ method)).filter
        fun p => p.1 ≠ "" && p.2 ≠ "") = some (moduleName ++ "." ++ service, method) :=
      cut_filter_eq_some.mpr ⟨rfl, by simpa using hslash, by simp [hmoduleNe], hmethodNe⟩
    have hservice : ((cut '.' (moduleName ++ "." ++ service)).filter
        fun p => p.1 ≠ "" && p.2 ≠ "") = some (moduleName, service) :=
      cut_filter_eq_some.mpr ⟨rfl, hdot, hmoduleNe, hserviceNe⟩
    unfold agentQuestion
    rw [htrim, if_neg (by simp [hmoduleNe]), hmethod]
    dsimp only
    rw [hservice]

/-! ## Who was asked about -/

/-- The first name in the certificate of the peer, without the blanks around it. -/
def AgentCall.Caller (call : AgentCall M) (source : String) : Prop :=
  ∃ addr cert chain name, call.peer = some ⟨addr, some (cert :: chain)⟩ ∧
    cert.dnsNames.head? = some name ∧ trimSpace name = source ∧ source ≠ ""

theorem getSource_eq {call : AgentCall M} {source : String} :
    getSource call.peer = (source, none) ↔ call.Caller source := by
  rcases call with ⟨peer, fullMethod, message⟩
  constructor
  · intro h
    unfold getSource at h
    split at h
    · cases h
    · rename_i p hpeer
      split at h
      · rename_i cert chain htls
        split at h
        · rename_i name names hnames
          split at h
          · cases h
          · rename_i hne
            cases h
            refine ⟨p.addr, cert, chain, name, ?_, by rw [hnames, List.head?_cons], rfl, hne⟩
            rw [hpeer, ← htls]
        · cases h
      · cases h
  · rintro ⟨addr, cert, chain, name, rfl, hname, rfl, hne⟩
    rcases List.head?_eq_some_iff.mp hname with ⟨names, hnames⟩
    unfold getSource
    dsimp only
    rw [hnames]
    exact if_neg hne

theorem getSource_cases (call : AgentCall M) :
    ((getSource call.peer).2 = none ∧ call.Caller (getSource call.peer).1) ∨
      ∃ e, getSource call.peer = ("", some e) ∧ ∀ source, ¬ call.Caller source := by
  cases herr : (getSource call.peer).2 with
  | none => exact Or.inl ⟨rfl, getSource_eq.mp (Prod.ext rfl herr)⟩
  | some e =>
      refine Or.inr ⟨e, Prod.ext ?_ herr, fun source hcaller => ?_⟩
      · revert herr
        unfold getSource
        repeat' split
        all_goals simp
      · rw [getSource_eq.mpr hcaller] at herr
        cases herr

namespace AgentServer

variable {server : AgentServer V M} {call : AgentCall M} {record : List (String × V)}

theorem arrive_eq_ok :
    server.arrive call = .ok record ↔
      (server.useTls = true → certIPVerify server.net call.peer = .ok ()) ∧
        server.context call.message = .ok record ∧ call.fullMethod ≠ "" := by
  have hverified : (if server.useTls then certIPVerify server.net call.peer else .ok ()) = .ok () ↔
      (server.useTls = true → certIPVerify server.net call.peer = .ok ()) := by
    cases server.useTls <;> simp
  unfold arrive
  rw [← hverified]
  split
  · simp_all
  · simp_all
  · rename_i hok
    rw [hok]
    split
    · simp_all
    · rename_i found hfound
      rw [hfound]
      split <;> simp_all

theorem judge_eq_ok {source path : String} :
    server.judge source path record = .ok () ↔
      ∃ request, agentQuestion server.engine source path record = .ok request ∧
        server.engine.isAuthorized request = true := by
  unfold judge
  rw [Fallible.bind_eq_ok]
  refine exists_congr fun request => and_congr_right fun _ => ?_
  cases server.engine.isAuthorized request <;> simp

/-- The policies allowed `source` the method of the path, with the fields of a unary call in
the context and the service of the path under its key. -/
def Allows (server : AgentServer V M) (call : AgentCall M) (source : String) : Prop :=
  ∃ moduleName service method record context, Reads call.fullMethod moduleName service method ∧
    server.context call.message = .ok record ∧
    server.engine.isAuthorized ⟨⟨"Source", source⟩, ⟨"Command", method⟩,
      ⟨"Module", moduleName⟩, context⟩ = true ∧
    (∀ value, ("service", value) ∈ context ↔ value = server.engine.string service) ∧
    ∀ field, field.1 ≠ "service" → (field ∈ context ↔ field ∈ record)

theorem allows_of_judge {source : String} (hrecord : server.context call.message = .ok record)
    (h : server.judge source call.fullMethod record = .ok ()) : server.Allows call source := by
  rcases judge_eq_ok.mp h with ⟨request, hquestion, hallowed⟩
  rcases agentQuestion_eq_ok.mp hquestion with ⟨moduleName, service, method, hreads, rfl⟩
  refine ⟨moduleName, service, method, record, _, hreads, hrecord, hallowed,
    fun value => eq_of_mem_setMember, fun field hfield => ?_⟩
  rw [mem_setMember]
  constructor
  · intro hin
    cases hin with
    | inl heq => exact absurd (heq ▸ rfl) hfield
    | inr hold => exact hold.1
  · intro hin
    exact Or.inr ⟨hin, hfield⟩

section Calls

variable {ι : Type}

/-- Call `i`, or another call that takes a step among `between`, has a caller. -/
def NamedIn (calls : ι → AgentCall M) (i : ι) (between : List ι) : Prop :=
  (∃ source, (calls i).Caller source) ∨ ∃ j ∈ between, j ≠ i ∧ ∃ source, (calls j).Caller source

theorem NamedIn.mono {calls : ι → AgentCall M} {i : ι} {between more : List ι}
    (h : NamedIn calls i between) (hsub : between ⊆ more) : NamedIn calls i more :=
  h.imp id fun hother => hother.imp fun _ hj => ⟨hsub hj.1, hj.2⟩

/-- What the steps up to now say about the progress of a call. -/
def Explained (server : AgentServer V M) (calls : ι → AgentCall M) (i : ι) (taken : List ι)
    (err : Option String) : Progress V → Prop
  | .assigned source ctxMap => source = (getSource (calls i).peer).1 ∧
      server.arrive (calls i) = .ok ctxMap ∧
      ∃ before after, taken = before ++ i :: after ∧ (err = none → NamedIn calls i after)
  | .answered (.ok ()) => ∃ ctxMap, server.arrive (calls i) = .ok ctxMap ∧
      server.judge (getSource (calls i).peer).1 (calls i).fullMethod ctxMap = .ok () ∧
      ∃ before between after, taken = before ++ i :: (between ++ i :: after) ∧
        NamedIn calls i between
  | _ => True

variable {taken : List ι} {ctxMap : List (String × V)}

/-- A step of another call leaves the progress of a call explained: if it clears the error it
has a caller itself. -/
theorem Explained.other {calls : ι → AgentCall M} {i j : ι} {err err' : Option String} (hne : j ≠ i)
    (herr : err' = none → err = none ∨ ∃ source, (calls j).Caller source) {progress : Progress V}
    (h : Explained server calls i taken err progress) :
    Explained server calls i (taken ++ [j]) err' progress := by
  cases progress with
  | arrived | refused => trivial
  | assigned source ctxMap =>
      rcases h with ⟨hsource, harrive, before, after, rfl, hnamed⟩
      refine ⟨hsource, harrive, before, after ++ [j], by simp, fun hnone => ?_⟩
      cases herr hnone with
      | inl hold => exact (hnamed hold).mono (List.subset_append_left after [j])
      | inr hcaller => exact Or.inr ⟨j, by simp, hne, hcaller⟩
  | answered answer =>
      cases answer with
      | ok u =>
          rcases h with ⟨ctxMap, harrive, hjudge, before, between, after, rfl, hnamed⟩
          exact ⟨ctxMap, harrive, hjudge, before, between, after ++ [j], by simp, hnamed⟩
      | err e => trivial
      | panicked => trivial

variable [DecidableEq ι] {calls : ι → AgentCall M} {s t : AgentState ι V} {i : ι}

/-- All that a step can do. -/
theorem step_cases (h : server.step calls s i = some t) :
    (∃ ctxMap, s.progress i = .arrived ∧ server.arrive (calls i) = .ok ctxMap ∧
        t = s.move i (getSource (calls i).peer).2
          (.assigned (getSource (calls i).peer).1 ctxMap)) ∨
      (∃ source ctxMap, s.progress i = .assigned source ctxMap ∧ s.err = none ∧
        t = s.move i none
          (.answered (Answer.ofExcept (server.judge source (calls i).fullMethod ctxMap)))) ∨
      t = s.move i s.err .refused ∨
      ∃ answer, answer ≠ .ok () ∧ t = s.move i s.err (.answered answer) := by
  unfold step at h
  split at h
  · rename_i harrived
    split at h
    · exact Or.inr (Or.inr (Or.inr ⟨_, by simp, (Option.some.inj h).symm⟩))
    · exact Or.inr (Or.inr (Or.inr ⟨_, by simp, (Option.some.inj h).symm⟩))
    · rename_i ctxMap harrive
      exact Or.inl ⟨ctxMap, harrived, harrive, (Option.some.inj h).symm⟩
  · rename_i source ctxMap hassigned
    split at h
    · exact Or.inr (Or.inr (Or.inl (Option.some.inj h).symm))
    · rename_i hnone
      refine Or.inr (Or.inl ⟨source, ctxMap, hassigned, hnone, ?_⟩)
      rw [← hnone]
      exact (Option.some.inj h).symm
  · exact Or.inr (Or.inr (Or.inr ⟨_, by simp [unknownSource], (Option.some.inj h).symm⟩))
  · cases h

theorem Explained.step {l : ι} (h : ∀ i, Explained server calls i taken s.err (s.progress i))
    (hs : server.step calls s l = some t) :
    ∀ i, Explained server calls i (taken ++ [l]) t.err (t.progress i) := by
  intro i
  by_cases hil : i = l
  · subst hil
    rcases step_cases hs with ⟨ctxMap, -, harrive, rfl⟩ |
      ⟨source, ctxMap, hassigned, hnone, rfl⟩ | rfl | ⟨answer, hanswer, rfl⟩
    · rw [AgentState.progress_move_self]
      refine ⟨rfl, harrive, taken, [], rfl, fun hnone => Or.inl ?_⟩
      exact ⟨_, getSource_eq.mp (Prod.ext rfl hnone)⟩
    · rw [AgentState.progress_move_self]
      have hold := h i
      rw [hassigned] at hold
      rcases hold with ⟨rfl, harrive, before, after, rfl, hnamed⟩
      cases hjudge : server.judge (getSource (calls i).peer).1 (calls i).fullMethod ctxMap with
      | ok u => exact ⟨ctxMap, harrive, hjudge, before, after, [], by simp, hnamed hnone⟩
      | error e => trivial
    · rw [AgentState.progress_move_self]
      trivial
    · rw [AgentState.progress_move_self]
      cases answer with
      | ok u => exact absurd rfl hanswer
      | err e => trivial
      | panicked => trivial
  · have hother : t.progress i = s.progress i := by
      rcases step_cases hs with ⟨_, -, -, rfl⟩ | ⟨_, _, -, -, rfl⟩ | rfl | ⟨_, -, rfl⟩
      all_goals exact Function.update_of_ne hil ..
    rw [hother]
    refine (h i).other (Ne.symm hil) fun hnone => ?_
    rcases step_cases hs with ⟨_, -, -, rfl⟩ | ⟨_, _, -, hclear, -⟩ | rfl | ⟨_, -, rfl⟩
    · exact Or.inr ⟨_, getSource_eq.mp (Prod.ext rfl hnone)⟩
    · exact Or.inl hclear
    · exact Or.inl hnone
    · exact Or.inl hnone

theorem explained_of_run (h : run (server.step calls) (.start ι V) taken = some s) (i : ι) :
    Explained server calls i taken s.err (s.progress i) := by
  refine run_history (P := fun taken s => ∀ i, Explained server calls i taken s.err (s.progress i))
    ?_ ?_ h i
  · intro i
    trivial
  · intro taken l s t hinv hs
    exact Explained.step hinv hs

theorem step_of_arrived (h : s.progress i = .arrived)
    (harrive : server.arrive (calls i) = .ok ctxMap) :
    server.step calls s i = some (s.move i (getSource (calls i).peer).2
      (.assigned (getSource (calls i).peer).1 ctxMap)) := by
  unfold step
  rw [h, harrive]

theorem step_of_assigned {source : String} (h : s.progress i = .assigned source ctxMap)
    (herr : s.err = none) :
    server.step calls s i = some (s.move i none
      (.answered (Answer.ofExcept (server.judge source (calls i).fullMethod ctxMap)))) := by
  unfold step
  rw [h, herr]

/-- A call whose steps follow each other is answered as if it were the only one. -/
theorem run_alone (h : s.progress i = .arrived) :
    ∃ n t, run (server.step calls) s (List.replicate n i) = some t ∧
      t.progress i = .answered (server.accept (calls i)) := by
  cases harrive : server.arrive (calls i) with
  | panicked =>
      refine ⟨1, s.move i s.err (.answered .panicked), ?_, by simp [accept, harrive]⟩
      simp [run, step, h, harrive]
  | err e =>
      refine ⟨1, s.move i s.err (.answered (.err e)), ?_, by simp [accept, harrive]⟩
      simp [run, step, h, harrive]
  | ok ctxMap =>
      have hfirst := step_of_arrived h harrive
      rcases getSource_cases (calls i) with ⟨hnone, -⟩ | ⟨e, hsource, -⟩
      · refine ⟨2, _, (run_cons_of_some _ hfirst).trans (run_cons_of_some _
          (step_of_assigned (AgentState.progress_move_self ..) hnone)), ?_⟩
        have hpair : getSource (calls i).peer = ((getSource (calls i).peer).1, none) :=
          Prod.ext rfl hnone
        rw [AgentState.progress_move_self]
        unfold accept
        rw [harrive]
        dsimp only
        rw [hpair]
      · rw [hsource] at hfirst
        refine ⟨3, ((s.move i (some e) (.assigned "" ctxMap)).move i (some e) .refused).move i
          (some e) (.answered (unknownSource e)), ?_, by simp [accept, harrive, hsource]⟩
        refine (run_cons_of_some _ hfirst).trans ?_
        simp [run, step]

end Calls

def Asks (server : AgentServer V M) (call : AgentCall M) (request : CedarRequest V) : Prop :=
  ∃ source record, call.Caller source ∧ server.context call.message = .ok record ∧
    agentQuestion server.engine source call.fullMethod record = .ok request

theorem accept_eq_ok :
    server.accept call = .ok () ↔
      (server.useTls = true → certIPVerify server.net call.peer = .ok ()) ∧
        ∃ request, server.Asks call request ∧ server.engine.isAuthorized request = true := by
  constructor
  · intro h
    unfold accept at h
    split at h
    · cases h
    · cases h
    · rename_i record harrive
      rcases arrive_eq_ok.mp harrive with ⟨hverified, hrecord, -⟩
      split at h
      · rename_i source hsource
        cases hjudge : server.judge source call.fullMethod record with
        | error denial =>
            rw [hjudge] at h
            cases h
        | ok u =>
            rcases judge_eq_ok.mp hjudge with ⟨request, hquestion, hallowed⟩
            exact ⟨hverified, request,
              ⟨source, record, getSource_eq.mp hsource, hrecord, hquestion⟩, hallowed⟩
      · cases h
  · rintro ⟨hverified, request, ⟨source, record, hcaller, hrecord, hquestion⟩, hallowed⟩
    have hpath : call.fullMethod ≠ "" := by
      intro hempty
      rw [hempty] at hquestion
      cases hquestion
    unfold accept
    rw [arrive_eq_ok.mpr ⟨hverified, hrecord, hpath⟩]
    dsimp only
    rw [getSource_eq.mpr hcaller]
    dsimp only
    rw [judge_eq_ok.mpr ⟨request, hquestion, hallowed⟩]
    rfl

end AgentServer

/-- With access control on, an agent calls a handler only after the policies allowed the
method of the path to the first name in the certificate of the peer. The exception is a peer
without such a name: while another call with a name is between the steps of its own, it is
judged under the empty name. -/
theorem agentCalls_permitted {ι : Type} [DecidableEq ι] {server : AgentServer V M}
    {calls : ι → AgentCall M} {taken : List ι} {s : AgentState ι V} {i : ι}
    (h : run (server.step calls) (.start ι V) taken = some s)
    (hok : s.progress i = .answered (.ok ())) :
    (server.useTls = true → certIPVerify server.net (calls i).peer = .ok ()) ∧
      ((∃ source, (calls i).Caller source ∧ server.Allows (calls i) source) ∨
        (∀ source, ¬ (calls i).Caller source) ∧ server.Allows (calls i) "" ∧
          ∃ before between after, taken = before ++ i :: (between ++ i :: after) ∧
            ∃ j ∈ between, j ≠ i ∧ ∃ source, (calls j).Caller source) := by
  have hexplained := AgentServer.explained_of_run h i
  rw [hok] at hexplained
  rcases hexplained with ⟨record, harrive, hjudge, before, between, after, htaken, hnamed⟩
  rcases AgentServer.arrive_eq_ok.mp harrive with ⟨hverified, hrecord, -⟩
  have hallows := AgentServer.allows_of_judge hrecord hjudge
  refine ⟨hverified, ?_⟩
  rcases getSource_cases (calls i) with ⟨-, hcaller⟩ | ⟨e, hsource, hnone⟩
  · exact Or.inl ⟨_, hcaller, hallows⟩
  · rw [hsource] at hallows
    refine Or.inr ⟨hnone, hallows, before, between, after, htaken, ?_⟩
    exact hnamed.resolve_left fun hcaller => hcaller.elim hnone

def namelessCertificate : Certificate where
  extensions := [.subjectAlternativeName [.ipAddress [192, 168, 101, 2]]]
  lengths := by
    intro b hb
    have heq : b = [192, 168, 101, 2] := by simpa [Extension.generalNames] using hb
    exact Or.inl (heq ▸ rfl)

def openServer : AgentServer Json Unit :=
  ⟨plainEngine fun _ => true, fun _ => .ok [], bareNet, true⟩

/-- Two calls to start a VM: of the GUI VM, and of a peer without a name. -/
def startCalls (named : Bool) : AgentCall Unit :=
  ⟨some (agentPeer (if named then guiCertificate else namelessCertificate) [] plainPeer),
    "/vm.Control/StartVM", .stream⟩

theorem startCalls_samples :
    (∀ named, certIPVerify bareNet (startCalls named).peer = .ok ()) ∧
      getSource (startCalls true).peer = ("gui-vm", none) ∧
      (getSource (startCalls false).peer).1 = "" ∧
      openServer.judge "" "/vm.Control/StartVM" [] = .ok () := by
  decide +kernel

theorem arrive_startCalls (named : Bool) : openServer.arrive (startCalls named) = .ok [] :=
  AgentServer.arrive_eq_ok.mpr
    ⟨fun _ => startCalls_samples.1 named, rfl, by simp [startCalls]⟩

/-- The call of the GUI VM clears the error before the other call looks at it. -/
theorem startCalls_race :
    ∃ s, run (openServer.step startCalls) (.start Bool Json) [false, true, false] = some s ∧
      s.progress false = .answered (.ok ()) := by
  rcases startCalls_samples with ⟨-, hgui, hempty, hjudge⟩
  have hfirst := AgentServer.step_of_arrived (s := .start Bool Json) (i := false) rfl
    (arrive_startCalls false)
  have hsecond := AgentServer.step_of_arrived (s := (AgentState.start Bool Json).move false
    (getSource (startCalls false).peer).2 (.assigned (getSource (startCalls false).peer).1 []))
    (i := true) rfl (arrive_startCalls true)
  refine ⟨_, (run_cons_of_some _ hfirst).trans ((run_cons_of_some _ hsecond).trans
    (run_cons_of_some _ (AgentServer.step_of_assigned rfl ?_))), ?_⟩
  · rw [hgui]
    rfl
  · rw [AgentState.progress_move_self, hempty]
    exact congrArg (fun x => Progress.answered (Answer.ofExcept x)) hjudge

theorem agentCalls_permitted_race :
    (∀ source, ¬ (startCalls false).Caller source) ∧ openServer.Allows (startCalls false) "" := by
  rcases startCalls_race with ⟨s, hrun, hok⟩
  rcases (agentCalls_permitted hrun hok).2 with ⟨source, hcaller, -⟩ | ⟨hnone, hallows, -⟩
  · rcases hcaller with ⟨_, _, _, _, hpeer, hname, -⟩
    cases hpeer
    cases hname
  · exact ⟨hnone, hallows⟩

end GhafGivc.Auth
