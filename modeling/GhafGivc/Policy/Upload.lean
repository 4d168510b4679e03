import GhafGivc.Core.Fallible
import GhafGivc.Policy.Controller

/-! # Uploading a policy file

`upload_policy` streams a file in chunks, and `StreamPolicy` collects them in a temporary
file that it hands to `UpdatePolicy`. The stream has no frame: its end is the end of the
policy, and only its first message carries the name.
-/

namespace GhafGivc.Policy.Agent

open Core

structure StreamPolicyRequest where
  policyName : String
  policyChunk : Content
deriving DecidableEq

/-- What a read of the file returns; the end of the file ends the list of reads. -/
inductive FileRead where
  | data (bytes : Content)
  | failed (err : String)

def bufferSize : Nat := 3 * 1024 * 1024

/-- The reads of a file: non-empty pieces of it in order, up to its end or a read error. -/
structure Reading (content : Content) where
  chunks : List Content
  error : Option String
  nonempty : ∀ chunk ∈ chunks, chunk ≠ []
  fits : ∀ chunk ∈ chunks, chunk.length ≤ bufferSize
  within : chunks.flatten <+: content
  complete : error = none → chunks.flatten = content

def Reading.reads {content : Content} (reading : Reading content) : List FileRead :=
  reading.chunks.map .data ++ reading.error.toList.map .failed

inductive Source (content : Content) where
  | openFailed (err : String)
  | opened (reading : Reading content)

/-- The loop of the outbound stream: a read error ends it like the end of the file does. -/
def outbound (name : String) (isFirstChunk : Bool) : List FileRead → List StreamPolicyRequest
  | [] => []
  | .data bytes :: reads =>
      ⟨if isFirstChunk then name else "", bytes⟩ :: outbound name false reads
  | .failed _ :: _ => []

def Source.requests {content : Content} (name : String) :
    Source content → List StreamPolicyRequest
  | .openFailed _ => []
  | .opened reading => outbound name true reading.reads

/-! ## The receiver -/

/-- What may fail on the way to the agent and on it. -/
structure Server where
  connect : Option String
  recv : Nat → Option String
  createTemp : Option String
  chmod : Option String
  write : Nat → Option String
  update : Faults
  reply : Option String

def check (failure : Option String) : Except String Unit :=
  match failure with
  | some err => .error err
  | none => .ok ()

structure Receiving where
  firstChunk : Bool
  policyName : String
  tempFile : Option Content

def Receiving.start : Receiving := ⟨true, "", none⟩

/-- The first message names the policy and opens the temporary file. -/
def Receiving.openFile (server : Server) (r : Receiving) (req : StreamPolicyRequest) :
    Except String Receiving :=
  if r.firstChunk then
    if req.policyName = "" then .error "policy-admin: policy name is nil"
    else do
      check server.createTemp
      check server.chmod
      return ⟨false, req.policyName, some []⟩
  else .ok r

def Receiving.chunk (server : Server) (i : Nat) (r : Receiving) (req : StreamPolicyRequest) :
    Except String Receiving := do
  let r ← r.openFile server req
  -- an empty chunk arrives as nil and is not written
  if req.policyChunk = [] then return r
  check (server.write i)
  return { r with tempFile := r.tempFile.map (· ++ req.policyChunk) }

def Receiving.loop (server : Server) : Nat → Receiving → List StreamPolicyRequest →
    Except String Receiving
  | i, r, [] => do
      check (server.recv i)
      return r
  | i, r, req :: reqs => do
      check (server.recv i)
      let r ← r.chunk server i req
      Receiving.loop server (i + 1) r reqs

/-- With no temporary file its path is empty and cannot be opened. -/
def Faults.missingFile (faults : Faults) : Faults :=
  { faults with
    answer := fun op =>
      if op = .hash then .failed "open : no such file or directory" else faults.answer op }

def Controller.updatePolicyFile (hash : Content → String) (c : Controller) (faults : Faults)
    (name : String) : Option Content → Controller × Result
  | some content => c.updatePolicy hash faults name content
  | none => c.updatePolicy hash faults.missingFile name []

/-- The end of a `StreamPolicy` call: the agent after it, the name and the file it passed to
`UpdatePolicy`, and the status it replied with. -/
structure Streamed where
  controller : Controller
  handed : Option (String × Option Content)
  status : Except String String

def Server.answer (server : Server) : Result → Except String String
  | .ok => do
      check server.reply
      return "Success"
  | .error message => .error message
  | .stopped => .error "transport error"

def streamPolicy (hash : Content → String) (c : Controller) (server : Server)
    (requests : List StreamPolicyRequest) : Streamed :=
  match Receiving.loop server 0 .start requests with
  | .error err => ⟨c, none, .error err⟩
  | .ok r =>
      let (c', result) := c.updatePolicyFile hash server.update r.policyName r.tempFile
      ⟨c', some (r.policyName, r.tempFile), server.answer result⟩

/-! ## The upload -/

structure Upload where
  handed : Option (String × Option Content)
  result : Except String Unit
deriving DecidableEq

def uploadPolicy (hash : Content → String) (c : Controller) (server : Server) (name : String)
    {content : Content} (source : Source content) : Upload :=
  match server.connect with
  | some err => ⟨none, .error err⟩
  | none =>
      let streamed := streamPolicy hash c server (source.requests name)
      ⟨streamed.handed,
        match streamed.status with
        | .error err => .error err
        | .ok status =>
            if status ≠ "Success" then .error ("Policy update failed: " ++ status) else .ok ()⟩

structure Server.Healthy (server : Server) : Prop where
  connect : server.connect = none
  recv : ∀ i, server.recv i = none
  createTemp : server.createTemp = none
  chmod : server.chmod = none
  write : ∀ i, server.write i = none
  update : ∀ op, server.update.answer op = .done
  reply : server.reply = none

/-- An upload that returns Ok has handed over the whole file under its name, and without a
read error the upload succeeds on a healthy agent that knows the policy. -/
def RoundTrip (hash : Content → String) (name : String) {content : Content}
    (source : Source content) : Prop :=
  (∀ c server, (uploadPolicy hash c server name source).result = .ok () →
    (uploadPolicy hash c server name source).handed = some (name, some content)) ∧
  ∀ reading, source = .opened reading → reading.error = none →
    ∀ c server, (c.policyMap name).isSome → server.Healthy →
      (uploadPolicy hash c server name source).result = .ok ()

/-- The file is read to its end and is not empty, or the reads fail before the first chunk or
after the last byte. -/
def Source.Framed {content : Content} : Source content → Prop
  | .openFailed _ => True
  | .opened reading =>
      match reading.error with
      | none => content ≠ []
      | some _ => reading.chunks = [] ∨ reading.chunks.flatten = content

section Stream

variable {server : Server} {content : Content} {name : String} {i : Nat} {req : StreamPolicyRequest}
  {r : Receiving} {reqs : List StreamPolicyRequest} {chunks : List Content}

@[simp] theorem check_none : check none = .ok () := rfl

theorem check_bind_eq_ok {failure : Option String} {β : Type} {f : Unit → Except String β} {b : β} :
    (check failure >>= f) = .ok b ↔ failure = none ∧ f () = .ok b := by
  cases failure <;> simp [check]

def messages (name : String) : List Content → List StreamPolicyRequest
  | [] => []
  | chunk :: chunks => ⟨name, chunk⟩ :: chunks.map (StreamPolicyRequest.mk "")

theorem outbound_false (chunks : List Content) (error : Option String) :
    outbound name false (chunks.map .data ++ error.toList.map .failed) =
      chunks.map (StreamPolicyRequest.mk "") := by
  induction chunks with
  | nil => cases error <;> rfl
  | cons chunk chunks ih => simpa [outbound] using ih

theorem outbound_true (chunks : List Content) (error : Option String) :
    outbound name true (chunks.map .data ++ error.toList.map .failed) =
      messages name chunks := by
  cases chunks with
  | nil => cases error <;> rfl
  | cons chunk chunks => simpa [outbound, messages] using outbound_false chunks error

theorem requests_opened (reading : Reading content) :
    (Source.opened reading).requests name = messages name reading.chunks :=
  outbound_true reading.chunks reading.error

theorem chunk_eq_ok {r r' opened : Receiving} (hopen : r.openFile server req = .ok opened)
    (h : r.chunk server i req = .ok r') :
    r' = { opened with tempFile := opened.tempFile.map (· ++ req.policyChunk) } := by
  have h : (if req.policyChunk = [] then pure opened else do
      check (server.write i)
      pure { opened with tempFile := opened.tempFile.map (· ++ req.policyChunk) }) =
        Except.ok r' := by
    simpa [Receiving.chunk, hopen] using h
  split at h
  · rename_i hempty
    obtain rfl : opened = r' := Except.ok.inj h
    simp [hempty]
  · exact (Except.ok.inj (check_bind_eq_ok.mp h).2).symm

theorem openFile_of_first {r opened : Receiving} (hfirst : r.firstChunk = true)
    (h : r.openFile server req = .ok opened) : opened = ⟨false, req.policyName, some []⟩ := by
  unfold Receiving.openFile at h
  rw [if_pos hfirst] at h
  split at h
  · cases h
  · exact (Except.ok.inj (check_bind_eq_ok.mp (check_bind_eq_ok.mp h).2).2).symm

theorem openFile_of_not_first (hfirst : r.firstChunk = false) : r.openFile server req = .ok r := by
  simp [Receiving.openFile, hfirst]

theorem loop_cons_eq_ok {r r' : Receiving} (h : Receiving.loop server i r (req :: reqs) = .ok r') :
    ∃ next, r.chunk server i req = .ok next ∧ Receiving.loop server (i + 1) next reqs = .ok r' := by
  obtain ⟨-, h⟩ := check_bind_eq_ok.mp h
  exact Fallible.bind_eq_ok.mp h

theorem loop_eq_ok {r r' : Receiving} (hfirst : r.firstChunk = false)
    (h : Receiving.loop server i r (chunks.map (StreamPolicyRequest.mk "")) = .ok r') :
    r'.policyName = r.policyName ∧ r'.tempFile = r.tempFile.map (· ++ chunks.flatten) := by
  induction chunks generalizing i r with
  | nil =>
      obtain rfl := Except.ok.inj (check_bind_eq_ok.mp h).2
      simp
  | cons chunk chunks ih =>
      obtain ⟨next, hchunk, hrest⟩ := loop_cons_eq_ok h
      obtain rfl := chunk_eq_ok (openFile_of_not_first hfirst) hchunk
      obtain ⟨hname, hfile⟩ := ih (by exact hfirst) hrest
      exact ⟨hname, by simp [hfile, Function.comp_def]⟩

theorem loop_messages_nil (h : Receiving.loop server 0 .start (messages name []) = .ok r) :
    r = .start :=
  (Except.ok.inj (check_bind_eq_ok.mp h).2).symm

theorem loop_messages_cons {chunk : Content}
    (h : Receiving.loop server 0 .start (messages name (chunk :: chunks)) = .ok r) :
    r.policyName = name ∧ r.tempFile = some (chunk :: chunks).flatten := by
  obtain ⟨next, hchunk, hrest⟩ := loop_cons_eq_ok h
  obtain ⟨opened, hopen, -⟩ := Fallible.bind_eq_ok.mp hchunk
  obtain rfl := openFile_of_first rfl hopen
  obtain rfl := chunk_eq_ok hopen hchunk
  simpa using loop_eq_ok rfl hrest

theorem Server.Healthy.openFile (h : server.Healthy) (hname : name ≠ "") (chunk : Content) :
    Receiving.start.openFile server ⟨name, chunk⟩ = .ok ⟨false, name, some []⟩ := by
  simp [Receiving.openFile, Receiving.start, hname, h.createTemp, h.chmod]

theorem Server.Healthy.chunk (h : server.Healthy) {r opened : Receiving}
    (hopen : r.openFile server req = .ok opened) : ∃ next, r.chunk server i req = .ok next := by
  by_cases hempty : req.policyChunk = [] <;>
    simp [Receiving.chunk, hopen, hempty, h.write i]

theorem Server.Healthy.loop_cons (h : server.Healthy) {r next : Receiving}
    (hchunk : r.chunk server i req = .ok next) :
    Receiving.loop server i r (req :: reqs) = Receiving.loop server (i + 1) next reqs := by
  simp [Receiving.loop, h.recv i, hchunk]

theorem Server.Healthy.loop (h : server.Healthy) (hfirst : r.firstChunk = false)
    (chunks : List Content) :
    ∃ r', Receiving.loop server i r (chunks.map (StreamPolicyRequest.mk "")) = .ok r' := by
  induction chunks generalizing i r with
  | nil => exact ⟨r, by simp [Receiving.loop, h.recv i]⟩
  | cons chunk chunks ih =>
      have hopen : r.openFile server ⟨"", chunk⟩ = .ok r := openFile_of_not_first hfirst
      obtain ⟨next, hnext⟩ := h.chunk (i := i) hopen
      obtain rfl := chunk_eq_ok hopen hnext
      rw [List.map_cons, h.loop_cons hnext]
      exact ih (by exact hfirst)

/-- A healthy agent receives every stream that has a message. -/
theorem Server.Healthy.loop_messages (h : server.Healthy) (hname : name ≠ "") (chunk : Content)
    (chunks : List Content) :
    ∃ r, Receiving.loop server 0 .start (messages name (chunk :: chunks)) = .ok r := by
  have hopen := h.openFile hname chunk
  obtain ⟨next, hnext⟩ := h.chunk (i := 0) hopen
  obtain rfl := chunk_eq_ok hopen hnext
  rw [messages, h.loop_cons hnext]
  exact h.loop rfl chunks

end Stream

section Upload

variable {hash : Content → String} {c : Controller} {server : Server} {name : String}
  {content : Content} {source : Source content}

theorem updatePolicy_of_all_done {faults : Faults} (h : ∀ op, faults.answer op = .done)
    (hknown : (c.policyMap name).isSome) : (c.updatePolicy hash faults name content).2 = .ok := by
  obtain ⟨policy, hpolicy⟩ := Option.isSome_iff_exists.mp hknown
  simp only [Controller.updatePolicy, hpolicy, h, ite_self, attempt, Controller.finish,
    Controller.copyPolicy, Controller.savePolicyMap]
  split_ifs <;> rfl

theorem updatePolicy_missingFile (faults : Faults) :
    (c.updatePolicy hash faults.missingFile name content).2 ≠ .ok := by
  unfold Controller.updatePolicy
  cases c.policyMap name with
  | none => simp
  | some policy =>
      refine Controller.attempt_cases (P := fun p => p.2 ≠ .ok) (fun _ => ?_) fun _ _ hne _ => hne
      simp [Faults.missingFile, attempt]

/-- An upload that returns Ok ended with an update that returned nil. -/
theorem uploadPolicy_eq_ok (h : (uploadPolicy hash c server name source).result = .ok ()) :
    ∃ r, Receiving.loop server 0 .start (source.requests name) = .ok r ∧
      (uploadPolicy hash c server name source).handed = some (r.policyName, r.tempFile) ∧
      (c.updatePolicyFile hash server.update r.policyName r.tempFile).2 = .ok := by
  unfold uploadPolicy at h ⊢
  cases hconnect : server.connect with
  | some err => simp [hconnect] at h
  | none =>
      simp only [hconnect, streamPolicy] at h ⊢
      cases hloop : Receiving.loop server 0 .start (source.requests name) with
      | error err => simp [hloop] at h
      | ok r =>
          refine ⟨r, rfl, rfl, ?_⟩
          simp only [hloop] at h
          cases hres : (c.updatePolicyFile hash server.update r.policyName r.tempFile).2 with
          | ok => rfl
          | error message => simp [hres, Server.answer] at h
          | stopped => simp [hres, Server.answer] at h

theorem uploadPolicy_of_healthy (hs : server.Healthy) {r : Receiving}
    (hloop : Receiving.loop server 0 .start (source.requests name) = .ok r)
    (hres : (c.updatePolicyFile hash server.update r.policyName r.tempFile).2 = .ok) :
    uploadPolicy hash c server name source = ⟨some (r.policyName, r.tempFile), .ok ()⟩ := by
  simp [uploadPolicy, streamPolicy, hs.connect, hloop, hres, Server.answer, hs.reply]

theorem Reading.chunks_eq_nil_iff (reading : Reading content) :
    reading.chunks = [] ↔ reading.chunks.flatten = [] := by
  refine ⟨fun h => by simp [h], fun h => List.eq_nil_iff_forall_not_mem.mpr fun chunk hc => ?_⟩
  exact reading.nonempty chunk hc (List.flatten_eq_nil_iff.mp h chunk hc)

theorem handed_of_ok (h : (uploadPolicy hash c server name source).result = .ok ()) :
    ∃ reading, source = .opened reading ∧ reading.chunks ≠ [] ∧
      (uploadPolicy hash c server name source).handed =
        some (name, some reading.chunks.flatten) := by
  obtain ⟨r, hloop, hhanded, hres⟩ := uploadPolicy_eq_ok h
  have hstart : r ≠ .start := by
    rintro rfl
    exact updatePolicy_missingFile _ hres
  cases source with
  | openFailed err =>
      have hloop : Receiving.loop server 0 .start (messages name []) = .ok r := hloop
      exact absurd (loop_messages_nil hloop) hstart
  | opened reading =>
      rw [requests_opened] at hloop
      cases hchunks : reading.chunks with
      | nil =>
          rw [hchunks] at hloop
          exact absurd (loop_messages_nil hloop) hstart
      | cons chunk chunks =>
          rw [hchunks] at hloop
          obtain ⟨hname, hfile⟩ := loop_messages_cons hloop
          rw [hname, hfile] at hhanded
          exact ⟨reading, rfl, by simp [hchunks], by rw [hhanded, hchunks]⟩

theorem ok_of_healthy (hs : server.Healthy) (hname : name ≠ "")
    (hknown : (c.policyMap name).isSome) {reading : Reading content}
    (hchunks : reading.chunks ≠ []) :
    uploadPolicy hash c server name (.opened reading) =
      ⟨some (name, some reading.chunks.flatten), .ok ()⟩ := by
  obtain ⟨chunk, chunks, hcons⟩ := List.exists_cons_of_ne_nil hchunks
  obtain ⟨r, hloop⟩ := hs.loop_messages hname chunk chunks
  obtain ⟨hpolicy, hfile⟩ := loop_messages_cons hloop
  have hres : (c.updatePolicyFile hash server.update r.policyName r.tempFile).2 = .ok := by
    rw [hpolicy, hfile]
    exact updatePolicy_of_all_done hs.update hknown
  rw [uploadPolicy_of_healthy hs (by rw [requests_opened, hcons]; exact hloop) hres, hpolicy,
    hfile, hcons]

def openAgent : Controller := ⟨⟨fun _ => none, fun _ => none, .absent⟩, fun _ => some ⟨"", ""⟩⟩

def steady : Server := ⟨none, fun _ => none, none, none, fun _ => none, noFaults, none⟩

theorem healthy_steady : steady.Healthy :=
  ⟨rfl, fun _ => rfl, rfl, rfl, fun _ => rfl, fun _ => rfl, rfl⟩

/-- Uploads are what they claim exactly when no stream without a message stands for an empty
file and no cut stream for a whole one. -/
theorem roundTrip_iff_framed (hash : Content → String) {content : Content}
    (source : Source content) {name : String} (hname : name ≠ "") :
    RoundTrip hash name source ↔ source.Framed := by
  constructor
  · rintro ⟨hwhole, haccept⟩
    cases source with
    | openFailed err => trivial
    | opened reading =>
        cases herror : reading.error with
        | none =>
            simp only [Source.Framed, herror]
            intro hempty
            have hok := haccept reading rfl herror openAgent steady rfl healthy_steady
            obtain ⟨_, hsource, hchunks, -⟩ := handed_of_ok hok
            obtain rfl := Source.opened.inj hsource
            exact hchunks (reading.chunks_eq_nil_iff.mpr ((reading.complete herror).trans hempty))
        | some err =>
            simp only [Source.Framed, herror]
            refine or_iff_not_imp_left.mpr fun hchunks => ?_
            have hupload : uploadPolicy hash openAgent steady name (.opened reading) = _ :=
              ok_of_healthy healthy_steady hname rfl hchunks
            have hhanded := hwhole openAgent steady (by rw [hupload])
            rw [hupload] at hhanded
            simpa using hhanded
  · intro hframed
    refine ⟨fun c server hok => ?_, fun reading hsource herror c server hknown hs => ?_⟩
    · obtain ⟨reading, rfl, hchunks, hhanded⟩ := handed_of_ok hok
      cases herror : reading.error with
      | none => rw [hhanded, reading.complete herror]
      | some err =>
          simp only [Source.Framed, herror] at hframed
          rw [hhanded, hframed.resolve_left hchunks]
    · subst hsource
      simp only [Source.Framed, herror] at hframed
      have hchunks : reading.chunks ≠ [] := fun hnil =>
        hframed (((reading.complete herror).symm.trans (reading.chunks_eq_nil_iff.mp hnil)))
      rw [ok_of_healthy hs hname hknown hchunks]

end Upload

def wholeReading : Reading [1, 2, 3] :=
  ⟨[[1, 2], [3]], none, by decide, by decide, by decide, by decide⟩

def cutReading : Reading [1, 2, 3] :=
  ⟨[[1, 2]], some "EIO", by decide, by decide, by decide, by decide⟩

def emptyReading : Reading [] :=
  ⟨[], none, by decide, by decide, by decide, by decide⟩

theorem roundTrip_iff_framed_wholeReading :
    RoundTrip spelledOut "firewall" (.opened wholeReading) :=
  (roundTrip_iff_framed spelledOut (.opened wholeReading) (by decide)).mpr
    (by simp [Source.Framed, wholeReading])

def firewallAgent : Controller := ⟨fresh.disk, loadPolicyMap .absent firewall⟩

/-- A cut stream is accepted as the policy, and an empty policy is refused. -/
theorem upload_accepts_cut_and_refuses_empty :
    uploadPolicy spelledOut firewallAgent steady "firewall" (.opened cutReading) =
        ⟨some ("firewall", some [1, 2]), .ok ()⟩ ∧
      uploadPolicy spelledOut firewallAgent steady "firewall" (.opened emptyReading) =
        ⟨some ("", none), .error "Unknown policy ."⟩ ∧
      ¬ RoundTrip spelledOut "firewall" (.opened cutReading) ∧
      ¬ RoundTrip spelledOut "firewall" (.opened emptyReading) := by
  have hcut : uploadPolicy spelledOut firewallAgent steady "firewall" (.opened cutReading) =
      ⟨some ("firewall", some [1, 2]), .ok ()⟩ := by decide +kernel
  have hempty : uploadPolicy spelledOut firewallAgent steady "firewall" (.opened emptyReading) =
      ⟨some ("", none), .error "Unknown policy ."⟩ := by decide +kernel
  refine ⟨hcut, hempty, fun h => ?_, fun h => ?_⟩
  · have := h.1 firewallAgent steady (by rw [hcut])
    rw [hcut] at this
    exact absurd this (by decide)
  · have := h.2 emptyReading rfl rfl firewallAgent steady rfl healthy_steady
    rw [hempty] at this
    cases this

end GhafGivc.Policy.Agent
