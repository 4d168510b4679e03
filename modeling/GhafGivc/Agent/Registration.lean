import GhafGivc.Admin.Managers
import GhafGivc.Core.Transition

/-! # Registration of agents and their services

Each agent has a worker that registers the agent with the admin service, again and again until
this is answered without error, and then each of its services, once. Then the worker ends. The
agents run beside each other and beside the other operations on the registry, requests and
answers may be lost, and both sides may be restarted.
-/

namespace GhafGivc.Agent

open Core
open Admin (Registry RegistryEntry RegistryRequest TransportConfig UnitStatus UnitType
  EndpointEntry Operation)

structure RegistrationConfig where
  serviceName : String
  type : Nat
  parent : String
  transport : TransportConfig
  units : List (String × Nat)
  distinct : (units.map Prod.fst).Nodup

namespace RegistrationConfig

variable (c : RegistrationConfig)

def agentRequest (status : UnitStatus) : RegistryRequest :=
  ⟨c.serviceName, c.type, c.parent, some c.transport, some status⟩

def serviceRequest (unit : String × Nat) (status : UnitStatus) : RegistryRequest :=
  ⟨unit.1, unit.2, c.serviceName, some c.transport, some status⟩

/-- Units of other kinds are passed over. -/
def services : List (String × Nat) :=
  c.units.filter fun unit => ".service".toList.isSuffixOf unit.1.toList

end RegistrationConfig

/-- Where the worker is: before the server runs, at the status of the agent, in the loop that
registers the agent, before the loop over the services, at the status of a service, and at its
registration. -/
inductive Worker where
  | waiting
  | asking
  | registering (request : RegistryRequest)
  | iterating
  | service (unit : String × Nat) (rest : List (String × Nat))
  | sending (request : RegistryRequest) (rest : List (String × Nat))
  | ended
deriving DecidableEq

/-- What becomes of a request: it does not reach the admin service, or its answer does not reach
the agent, or both do. -/
inductive Call where
  | lost
  | unanswered
  | answered
deriving DecidableEq

/-- An iteration over the map of the units has an order of its own. -/
inductive WorkerEvent where
  | started
  | cancelled
  | status (answer : Except String UnitStatus)
  | call (outcome : Call)
  | iterate (order : List (String × Nat))

def accepted (request : RegistryRequest) : Bool := (RegistryEntry.tryFrom request).isOk

namespace Worker

def services : List (String × Nat) → Worker
  | [] => ended
  | unit :: rest => service unit rest

/-- The next state, and the request that the admin service handles. -/
def step (c : RegistrationConfig) : Worker → WorkerEvent →
    Option (Worker × Option RegistryRequest)
  | waiting, .started => some (if c.serviceName = "" then ended else asking, none)
  | waiting, .cancelled => some (ended, none)
  | asking, .status (.ok status) => some (registering (c.agentRequest status), none)
  | asking, .status (.error _) => some (ended, none)
  | registering _, .cancelled => some (ended, none)
  | registering request, .call .lost => some (registering request, none)
  | registering request, .call .unanswered => some (registering request, some request)
  | registering request, .call .answered =>
      some (if accepted request then iterating else registering request, some request)
  | iterating, .iterate order =>
      if order.isPerm c.services then some (services order, none) else none
  | service _ _, .cancelled => some (ended, none)
  | service _ rest, .status (.error _) => some (services rest, none)
  | service unit rest, .status (.ok status) =>
      some (sending (c.serviceRequest unit status) rest, none)
  | sending _ rest, .call .lost => some (services rest, none)
  | sending request rest, .call _ => some (services rest, some request)
  | _, _ => none

end Worker

/-- The registry, the workers, and of each the requests that the admin service has handled since
the agent was started. -/
structure Site (ι : Type) where
  registry : Registry
  worker : ι → Worker
  handled : ι → List RegistryRequest

inductive SiteLabel (ι : Type) where
  | agent (i : ι) (event : WorkerEvent)
  | restartAgent (i : ι)
  | admin (op : Operation)
  | restartAdmin

namespace Site

variable {ι : Type} [DecidableEq ι]

def start : Site ι := ⟨Registry.empty, fun _ => .waiting, fun _ => []⟩

/-- The registry is not kept over a restart. -/
def step (configs : ι → RegistrationConfig) (s : Site ι) : SiteLabel ι → Option (Site ι)
  | .agent i event =>
      match (s.worker i).step (configs i) event with
      | none => none
      | some (worker, request) => some
          { registry := request.elim s.registry s.registry.registerService
            worker := Function.update s.worker i worker
            handled := Function.update s.handled i (s.handled i ++ request.toList) }
  | .restartAgent i => some
      { s with
        worker := Function.update s.worker i .waiting
        handled := Function.update s.handled i [] }
  | .admin op => (s.registry.operate op).map fun registry => { s with registry := registry }
  | .restartAdmin => some { s with registry := Registry.empty }

end Site

section Course

variable (c : RegistrationConfig)

/-- Requests for some of the units, each once and in their order. -/
def Requested (units : List (String × Nat)) (requests : List RegistryRequest) : Prop :=
  ∃ asked, asked.Sublist units ∧
    List.Forall₂ (fun request unit => ∃ status, request = c.serviceRequest unit status) requests
      asked

/-- The agent is requested first, each time with one and the same status; services follow only
after it was accepted, each at most once. -/
def Orderly (requests : List RegistryRequest) : Prop :=
  ∃ status n later order, requests = List.replicate n (c.agentRequest status) ++ later ∧
    order.Perm c.services ∧ Requested c order later ∧
    (later ≠ [] → 0 < n ∧ accepted (c.agentRequest status) = true)

/-- What the admin service has handled when the worker is at a point. -/
inductive Course : Worker → List RegistryRequest → Prop
  | waiting : Course .waiting []
  | asking : Course .asking []
  | registering (status : UnitStatus) (n : Nat) :
      Course (.registering (c.agentRequest status)) (List.replicate n (c.agentRequest status))
  | iterating {status : UnitStatus} {n : Nat}
      (haccepted : accepted (c.agentRequest status) = true) :
      Course .iterating (List.replicate (n + 1) (c.agentRequest status))
  | services {status : UnitStatus} {n : Nat} {done rest : List (String × Nat)}
      {later : List RegistryRequest} (haccepted : accepted (c.agentRequest status) = true)
      (hsplit : (done ++ rest).Perm c.services) (hlater : Requested c done later) :
      Course (.services rest) (List.replicate (n + 1) (c.agentRequest status) ++ later)
  | sending {status current : UnitStatus} {n : Nat} {unit : String × Nat}
      {done rest : List (String × Nat)} {later : List RegistryRequest}
      (haccepted : accepted (c.agentRequest status) = true)
      (hsplit : (done ++ unit :: rest).Perm c.services) (hlater : Requested c done later) :
      Course (.sending (c.serviceRequest unit current) rest)
        (List.replicate (n + 1) (c.agentRequest status) ++ later)
  | ended {requests : List RegistryRequest} (h : Orderly c requests) : Course .ended requests

end Course

section Steps

variable {c : RegistrationConfig} {w w' : Worker} {requests : List RegistryRequest}
  {request : Option RegistryRequest} {event : WorkerEvent} {status : UnitStatus}

theorem Requested.mono {units more : List (String × Nat)} (h : Requested c units requests) :
    Requested c (units ++ more) requests := by
  rcases h with ⟨asked, hasked, hforall⟩
  exact ⟨asked, hasked.trans (List.sublist_append_left units more), hforall⟩

theorem Requested.concat {units : List (String × Nat)} (h : Requested c units requests)
    (unit : String × Nat) (status : UnitStatus) :
    Requested c (units ++ [unit]) (requests ++ [c.serviceRequest unit status]) := by
  rcases h with ⟨asked, hasked, hforall⟩
  refine ⟨asked ++ [unit], hasked.append (List.Sublist.refl _), ?_⟩
  exact List.rel_append hforall (.cons ⟨status, rfl⟩ .nil)

theorem requested_nil (units : List (String × Nat)) : Requested c units [] :=
  ⟨[], List.nil_sublist units, .nil⟩

theorem orderly_nil : Orderly c [] :=
  ⟨⟨"", "", "", "", "", "", ""⟩, 0, [], _, rfl, .refl _, requested_nil _,
    fun hne => absurd rfl hne⟩

theorem orderly_agent (status : UnitStatus) (n : Nat) :
    Orderly c (List.replicate n (c.agentRequest status)) :=
  ⟨status, n, [], _, by simp, .refl _, requested_nil _, fun hne => absurd rfl hne⟩

theorem Course.orderly (h : Course c w requests) : Orderly c requests := by
  cases h with
  | waiting => exact orderly_nil
  | asking => exact orderly_nil
  | registering status n => exact orderly_agent status n
  | iterating => exact orderly_agent _ _
  | services haccepted hsplit hlater =>
      exact ⟨_, _, _, _, rfl, hsplit, hlater.mono, fun _ => ⟨Nat.succ_pos _, haccepted⟩⟩
  | sending haccepted hsplit hlater =>
      exact ⟨_, _, _, _, rfl, hsplit, hlater.mono, fun _ => ⟨Nat.succ_pos _, haccepted⟩⟩
  | ended h => exact h

theorem course_iterating_step {n : Nat} (haccepted : accepted (c.agentRequest status) = true)
    (hstep : Worker.iterating.step c event = some (w', request)) :
    Course c w' (List.replicate (n + 1) (c.agentRequest status) ++ request.toList) := by
  cases event with
  | started | cancelled | status | call => cases hstep
  | iterate order =>
      change (if _ then some (Worker.services order, none) else none) = _ at hstep
      split at hstep
      · rename_i horder
        cases hstep
        have hsplit : ([] ++ order).Perm c.services := List.isPerm_iff.mp horder
        exact .services haccepted hsplit (requested_nil _)
      · cases hstep

theorem course_registering_step {n : Nat}
    (hstep : (Worker.registering (c.agentRequest status)).step c event = some (w', request)) :
    Course c w' (List.replicate n (c.agentRequest status) ++ request.toList) := by
  have hagain : List.replicate n (c.agentRequest status) ++ [c.agentRequest status] =
      List.replicate (n + 1) (c.agentRequest status) := List.replicate_succ'.symm
  cases event with
  | started => cases hstep
  | cancelled =>
      cases hstep
      rw [Option.toList_none, List.append_nil]
      exact .ended (Course.registering status n).orderly
  | status answer => cases hstep
  | call outcome =>
      cases outcome with
      | lost =>
          cases hstep
          rw [Option.toList_none, List.append_nil]
          exact .registering status n
      | unanswered =>
          cases hstep
          rw [Option.toList_some, hagain]
          exact .registering status (n + 1)
      | answered =>
          cases hstep
          rw [Option.toList_some, hagain]
          cases haccepted : accepted (c.agentRequest status) with
          | true => exact .iterating haccepted
          | false => exact .registering status (n + 1)
  | iterate order => cases hstep

section Services

variable {status : UnitStatus} {n : Nat} {unit : String × Nat} {done rest : List (String × Nat)}
  {later : List RegistryRequest}

theorem append_unit (hsplit : (done ++ unit :: rest).Perm c.services) :
    ((done ++ [unit]) ++ rest).Perm c.services := by
  rw [List.append_assoc]
  exact hsplit

theorem course_service_step (haccepted : accepted (c.agentRequest status) = true)
    (hsplit : (done ++ unit :: rest).Perm c.services) (hlater : Requested c done later)
    (hstep : (Worker.service unit rest).step c event = some (w', request)) :
    Course c w' (List.replicate (n + 1) (c.agentRequest status) ++ later ++ request.toList) := by
  cases event with
  | started => cases hstep
  | cancelled =>
      cases hstep
      rw [Option.toList_none, List.append_nil]
      exact .ended (Course.services haccepted hsplit hlater).orderly
  | status answer =>
      cases answer with
      | ok current =>
          cases hstep
          rw [Option.toList_none, List.append_nil]
          exact .sending haccepted hsplit hlater
      | error e =>
          cases hstep
          rw [Option.toList_none, List.append_nil]
          exact .services haccepted (append_unit hsplit) hlater.mono
  | call outcome => cases hstep
  | iterate order => cases hstep

theorem course_sending_step {current : UnitStatus}
    (haccepted : accepted (c.agentRequest status) = true)
    (hsplit : (done ++ unit :: rest).Perm c.services) (hlater : Requested c done later)
    (hstep : (Worker.sending (c.serviceRequest unit current) rest).step c event =
      some (w', request)) :
    Course c w' (List.replicate (n + 1) (c.agentRequest status) ++ later ++ request.toList) := by
  have hsent : Course c (.services rest) (List.replicate (n + 1) (c.agentRequest status) ++
      (later ++ [c.serviceRequest unit current])) :=
    .services haccepted (append_unit hsplit) (hlater.concat unit current)
  rw [← List.append_assoc] at hsent
  cases event with
  | started => cases hstep
  | cancelled => cases hstep
  | status answer => cases hstep
  | call outcome =>
      cases outcome with
      | lost =>
          cases hstep
          rw [Option.toList_none, List.append_nil]
          exact .services haccepted (append_unit hsplit) hlater.mono
      | unanswered =>
          cases hstep
          exact hsent
      | answered =>
          cases hstep
          exact hsent
  | iterate order => cases hstep

end Services

theorem Course.step (h : Course c w requests) (hstep : w.step c event = some (w', request)) :
    Course c w' (requests ++ request.toList) := by
  cases h with
  | waiting =>
      cases event with
      | started =>
          cases hstep
          by_cases hname : c.serviceName = ""
          · rw [if_pos hname]
            exact .ended orderly_nil
          · rw [if_neg hname]
            exact .asking
      | cancelled =>
          cases hstep
          exact .ended orderly_nil
      | status answer => cases hstep
      | call outcome => cases hstep
      | iterate order => cases hstep
  | asking =>
      cases event with
      | started => cases hstep
      | cancelled => cases hstep
      | status answer =>
          cases answer with
          | ok status =>
              cases hstep
              exact .registering status 0
          | error e =>
              cases hstep
              exact .ended orderly_nil
      | call outcome => cases hstep
      | iterate order => cases hstep
  | registering status n => exact course_registering_step hstep
  | iterating haccepted => exact course_iterating_step haccepted hstep
  | @services status n done rest later haccepted hsplit hlater =>
      cases rest with
      | nil => cases hstep
      | cons unit rest => exact course_service_step haccepted hsplit hlater hstep
  | sending haccepted hsplit hlater => exact course_sending_step haccepted hsplit hlater hstep
  | ended h => cases hstep

end Steps

/-! ## Runs of all agents -/

namespace Site

variable {ι : Type} [DecidableEq ι] {configs : ι → RegistrationConfig} {s t : Site ι}
  {l : SiteLabel ι} {ls : List (SiteLabel ι)}

theorem step_agent {i : ι} {event : WorkerEvent} :
    s.step configs (.agent i event) = some t ↔ ∃ worker request,
      (s.worker i).step (configs i) event = some (worker, request) ∧
        t = ⟨request.elim s.registry s.registry.registerService,
          Function.update s.worker i worker,
          Function.update s.handled i (s.handled i ++ request.toList)⟩ := by
  unfold step
  dsimp only
  cases h : (s.worker i).step (configs i) event with
  | none => simp
  | some next => simp [eq_comm, Prod.ext_iff]

def Ordered (configs : ι → RegistrationConfig) (s : Site ι) : Prop :=
  ∀ i, Course (configs i) (s.worker i) (s.handled i)

theorem Ordered.step (hs : s.Ordered configs) (h : s.step configs l = some t) :
    t.Ordered configs := by
  intro j
  cases l with
  | agent i event =>
      rcases step_agent.mp h with ⟨worker, request, hworker, rfl⟩
      by_cases hj : j = i
      · subst hj
        simpa using (hs j).step hworker
      · simpa [hj] using hs j
  | restartAgent i =>
      cases h
      by_cases hj : j = i
      · subst hj
        simpa using Course.waiting
      · simpa [hj] using hs j
  | admin op =>
      rcases Option.map_eq_some_iff.mp h with ⟨registry, -, rfl⟩
      exact hs j
  | restartAdmin =>
      cases h
      exact hs j

theorem ordered_run (h : run (step configs) start ls = some s) : s.Ordered configs :=
  run_preserves (fun _ _ _ _ hs hstep => hs.step hstep) (fun _ => Course.waiting) h

end Site

def siteConfigs : Bool → RegistrationConfig
  | true => ⟨"givc-chrome-vm.service", 12, "microvm@chrome-vm.service",
      ⟨"tcp", "192.168.101.11", "9000", "chrome-vm"⟩, [("pulse.service", 13), ("user.slice", 13)],
      by decide⟩
  | false => ⟨"givc-zoom-vm.service", 12, "microvm@zoom-vm.service",
      ⟨"http", "192.168.101.12", "9000", "zoom-vm"⟩, [("pipewire.service", 13)], by decide⟩

def unitRunning : UnitStatus := ⟨"unit", "unit", "loaded", "active", "running", "", "running"⟩

def siteRun : List (SiteLabel Bool) :=
  [.agent true .started, .agent false .started, .agent true (.status (.ok unitRunning)),
    .agent false (.status (.ok unitRunning)), .agent true (.call .unanswered),
    .agent false (.call .answered), .agent true (.call .answered),
    .agent true (.iterate [("pulse.service", 13)]),
    .agent true (.status (.ok unitRunning)), .agent true (.call .answered)]

def siteRestart : List (SiteLabel Bool) := [.restartAdmin, .agent false (.call .answered)]

theorem exists_siteRun : ∃ s t, run (Site.step siteConfigs) Site.start siteRun = some s ∧
    s.worker true = .ended ∧
    s.worker false = .registering ((siteConfigs false).agentRequest unitRunning) ∧
    run (Site.step siteConfigs) s siteRestart = some t := by
  have hended : ((run (Site.step siteConfigs) Site.start siteRun).bind fun s =>
      (run (Site.step siteConfigs) s siteRestart).map fun _ => (s.worker true, s.worker false)) =
      some (.ended, .registering ((siteConfigs false).agentRequest unitRunning)) := by
    decide +kernel
  rcases Option.bind_eq_some_iff.mp hended with ⟨s, hs, hrestart⟩
  rcases Option.map_eq_some_iff.mp hrestart with ⟨t, ht, hworkers⟩
  rcases Prod.mk.inj hworkers with ⟨hchrome, hzoom⟩
  exact ⟨s, t, hs, hchrome, hzoom, ht⟩

/-- The admin service can read the type and the endpoint of the agent. -/
def RegistrationConfig.Readable (c : RegistrationConfig) : Prop :=
  UnitType.ofNat c.type ≠ none ∧ ∃ endpoint, EndpointEntry.tryFrom c.transport = .ok endpoint

theorem accepted_agentRequest {c : RegistrationConfig} {status : UnitStatus}
    (h : accepted (c.agentRequest status) = true) : c.Readable := by
  unfold accepted at h
  cases hentry : RegistryEntry.tryFrom (c.agentRequest status) with
  | error e =>
      rw [hentry] at h
      cases h
  | ok entry =>
      rcases Fallible.bind_eq_ok.mp hentry with ⟨ty, hty, hrest⟩
      rcases Fallible.bind_eq_ok.mp hrest with ⟨_, -, hrest⟩
      rcases Fallible.bind_eq_ok.mp hrest with ⟨transport, htransport, hrest⟩
      rcases Fallible.bind_eq_ok.mp hrest with ⟨endpoint, hendpoint, -⟩
      cases Fallible.elim_eq_ok.mp htransport
      have hsome : UnitType.ofNat c.type = some ty := Fallible.elim_eq_ok.mp hty
      exact ⟨by simp [hsome], endpoint, hendpoint⟩

theorem registerService_of_refused (r : Registry) {request : RegistryRequest}
    (h : accepted request = false) : r.registerService request = r := by
  unfold Registry.registerService
  unfold accepted at h
  cases hentry : RegistryEntry.tryFrom request with
  | error e => rfl
  | ok entry =>
      rw [hentry] at h
      cases h

section Unreadable

variable {c : RegistrationConfig} {w w' : Worker} {requests : List RegistryRequest}
  {request : Option RegistryRequest} {event : WorkerEvent}

theorem not_accepted (hrefused : ¬ c.Readable) (status : UnitStatus) :
    accepted (c.agentRequest status) = false := by
  cases haccepted : accepted (c.agentRequest status) with
  | true => exact absurd (accepted_agentRequest haccepted) hrefused
  | false => rfl

theorem Course.refused_step (h : Course c w requests) (hrefused : ¬ c.Readable) (r : Registry)
    (hstep : w.step c event = some (w', request)) : request.elim r r.registerService = r := by
  cases h with
  | waiting => cases event <;> cases hstep <;> rfl
  | asking =>
      cases event with
      | started | cancelled | call | iterate => cases hstep
      | status answer => cases answer <;> cases hstep <;> rfl
  | registering status n =>
      have hregister := registerService_of_refused r (not_accepted hrefused status)
      cases event with
      | started | status | iterate => cases hstep
      | cancelled =>
          cases hstep
          rfl
      | call outcome =>
          cases outcome with
          | lost =>
              cases hstep
              rfl
          | unanswered =>
              cases hstep
              exact hregister
          | answered =>
              cases hstep
              exact hregister
  | iterating haccepted => cases (not_accepted hrefused _).symm.trans haccepted
  | services haccepted => cases (not_accepted hrefused _).symm.trans haccepted
  | sending haccepted => cases (not_accepted hrefused _).symm.trans haccepted
  | ended => cases hstep

theorem Orderly.eq_agentRequest (h : Orderly c requests) (hrefused : ¬ c.Readable)
    {request : RegistryRequest} (hmem : request ∈ requests) :
    ∃ status, request = c.agentRequest status := by
  rcases h with ⟨status, n, later, order, rfl, -, -, hlater⟩
  cases List.mem_append.mp hmem with
  | inl hagent => exact ⟨status, List.eq_of_mem_replicate hagent⟩
  | inr hservice =>
      have haccepted := (hlater (List.ne_nil_of_mem hservice)).2
      cases (not_accepted hrefused status).symm.trans haccepted

theorem Course.asks_again {request : RegistryRequest} (h : Course c (.registering request) requests)
    (hrefused : ¬ c.Readable) (outcome : Call) :
    ∃ sent, (Worker.registering request).step c (.call outcome) =
      some (.registering request, sent) := by
  generalize hw : Worker.registering request = w at h
  cases h with
  | registering status n =>
      cases hw
      cases outcome with
      | lost => exact ⟨_, rfl⟩
      | unanswered => exact ⟨_, rfl⟩
      | answered =>
          refine ⟨some (c.agentRequest status), ?_⟩
          simp [Worker.step, not_accepted hrefused status]
  | @services _ _ _ rest =>
      cases rest <;> cases hw
  | waiting | asking | iterating | sending | ended => cases hw

end Unreadable

section Refused

variable {ι : Type} [DecidableEq ι] {configs : ι → RegistrationConfig} {s s' t : Site ι}
  {l : SiteLabel ι} {ls : List (SiteLabel ι)} {i : ι}

def SiteLabel.isBy (i : ι) : SiteLabel ι → Bool
  | .agent j _ => j = i
  | .restartAgent j => j = i
  | .admin _ => false
  | .restartAdmin => false

/-- The two differ at most in one agent's own state. -/
structure Site.AgreesBeside (i : ι) (s t : Site ι) : Prop where
  registry : t.registry = s.registry
  worker : ∀ j, j ≠ i → t.worker j = s.worker j
  handled : ∀ j, j ≠ i → t.handled j = s.handled j

theorem Site.AgreesBeside.own (hagrees : s.AgreesBeside i t) (hs : s.Ordered configs)
    (hrefused : ¬ (configs i).Readable) (hl : l.isBy i = true)
    (h : s.step configs l = some s') : s'.AgreesBeside i t := by
  cases l with
  | agent j event =>
      cases of_decide_eq_true hl
      rcases Site.step_agent.mp h with ⟨worker, request, hworker, rfl⟩
      refine ⟨?_, fun k hk => ?_, fun k hk => ?_⟩
      · rw [hagrees.registry]
        exact ((hs i).refused_step hrefused s.registry hworker).symm
      · rw [hagrees.worker k hk]
        exact (Function.update_of_ne hk _ _).symm
      · rw [hagrees.handled k hk]
        exact (Function.update_of_ne hk _ _).symm
  | restartAgent j =>
      cases of_decide_eq_true hl
      cases h
      refine ⟨hagrees.registry, fun k hk => ?_, fun k hk => ?_⟩
      · rw [hagrees.worker k hk]
        exact (Function.update_of_ne hk _ _).symm
      · rw [hagrees.handled k hk]
        exact (Function.update_of_ne hk _ _).symm
  | admin op => cases hl
  | restartAdmin => cases hl

theorem Site.AgreesBeside.other (hagrees : s.AgreesBeside i t) (hl : l.isBy i = false)
    (h : s.step configs l = some s') : ∃ t', t.step configs l = some t' ∧ s'.AgreesBeside i t' := by
  cases l with
  | agent j event =>
      have hj : j ≠ i := of_decide_eq_false hl
      rcases Site.step_agent.mp h with ⟨worker, request, hworker, rfl⟩
      have hworker' : (t.worker j).step (configs j) event = some (worker, request) := by
        rw [hagrees.worker j hj]
        exact hworker
      refine ⟨_, Site.step_agent.mpr ⟨worker, request, hworker', rfl⟩, ?_, fun k hk => ?_,
        fun k hk => ?_⟩
      · rw [hagrees.registry]
      · by_cases hkj : k = j
        · simp [hkj]
        · simp [hkj, hagrees.worker k hk]
      · by_cases hkj : k = j
        · simp [hkj, hagrees.handled j hj]
        · simp [hkj, hagrees.handled k hk]
  | restartAgent j =>
      cases h
      refine ⟨_, rfl, hagrees.registry, fun k hk => ?_, fun k hk => ?_⟩
      · by_cases hkj : k = j
        · simp [hkj]
        · simp [hkj, hagrees.worker k hk]
      · by_cases hkj : k = j
        · simp [hkj]
        · simp [hkj, hagrees.handled k hk]
  | admin op =>
      rcases Option.map_eq_some_iff.mp h with ⟨registry, hregistry, rfl⟩
      have hregistry' : t.registry.operate op = some registry := by
        rw [hagrees.registry]
        exact hregistry
      exact ⟨_, Option.map_eq_some_iff.mpr ⟨registry, hregistry', rfl⟩, rfl, hagrees.worker,
        hagrees.handled⟩
  | restartAdmin =>
      cases h
      exact ⟨_, rfl, rfl, hagrees.worker, hagrees.handled⟩

theorem Site.AgreesBeside.run (hagrees : s.AgreesBeside i t) (hs : s.Ordered configs)
    (hrefused : ¬ (configs i).Readable) (h : Core.run (Site.step configs) s ls = some s') :
    ∃ t', Core.run (Site.step configs) t (ls.filter fun l => !l.isBy i) = some t' ∧
      s'.AgreesBeside i t' := by
  induction ls generalizing s t with
  | nil =>
      cases h
      exact ⟨t, rfl, hagrees⟩
  | cons l ls ih =>
      rcases run_cons_eq_some.mp h with ⟨u, hu, hrest⟩
      cases hl : l.isBy i with
      | true =>
          rw [List.filter_cons_of_neg (by simp [hl])]
          exact ih (hagrees.own hs hrefused hl hu) (hs.step hu) hrest
      | false =>
          rw [List.filter_cons_of_pos (by simp [hl])]
          rcases hagrees.other hl hu with ⟨u', hu', hagrees'⟩
          rw [run_cons_of_some _ hu']
          exact ih hagrees' (hs.step hu) hrest

end Refused

/-- An agent whose type or endpoint the admin service cannot read is not there for the others:
it asks again and again, its services are never requested, and any run leaves the registry and
the other agents as the run without the steps of this agent does. -/
theorem refused_agent_invisible {ι : Type} [DecidableEq ι] {configs : ι → RegistrationConfig}
    {ls : List (SiteLabel ι)} {s : Site ι} {i : ι} (hrefused : ¬ (configs i).Readable)
    (h : run (Site.step configs) Site.start ls = some s) :
    (∃ t, run (Site.step configs) Site.start (ls.filter fun l => !l.isBy i) = some t ∧
      s.AgreesBeside i t) ∧
    (∀ request ∈ s.handled i, ∃ status, request = (configs i).agentRequest status) ∧
    ∀ request outcome, s.worker i = .registering request → ∃ sent,
      (s.worker i).step (configs i) (.call outcome) = some (.registering request, sent) := by
  have hstart : Site.AgreesBeside i Site.start Site.start := ⟨rfl, fun _ _ => rfl, fun _ _ => rfl⟩
  have hcourse := Site.ordered_run h i
  refine ⟨hstart.run (fun _ => Course.waiting) hrefused h, ?_, ?_⟩
  · intro request hrequest
    exact hcourse.orderly.eq_agentRequest hrefused hrequest
  · intro request outcome hworker
    rw [hworker] at hcourse ⊢
    exact hcourse.asks_again hrefused outcome

theorem refused_agent_invisible_site : ∃ s t,
    run (Site.step siteConfigs) Site.start siteRun = some s ∧
    run (Site.step siteConfigs) Site.start (siteRun.filter fun l => !l.isBy false) = some t ∧
    s.AgreesBeside false t := by
  rcases exists_siteRun with ⟨s, -, hs, -⟩
  have hrefused : ¬ (siteConfigs false).Readable := by
    intro h
    rcases h with ⟨-, endpoint, hendpoint⟩
    have hrefuses : EndpointEntry.tryFrom (siteConfigs false).transport =
        .error (.unknownProtocol "http") := by rfl
    cases hrefuses.symm.trans hendpoint
  rcases (refused_agent_invisible hrefused hs).1 with ⟨t, ht, hagrees⟩
  exact ⟨s, t, hs, ht, hagrees⟩

/-! ## Restarts of the admin service -/

def RegistrationConfig.names (c : RegistrationConfig) : List String :=
  c.serviceName :: c.services.map Prod.fst

def SpareNames (names : List String) : Operation → Prop
  | .registerService req => req.name ∉ names
  | .startApp status _ => status.name ∉ names
  | _ => True

/-- The agent is not restarted, and the admin service handles no request for one of its names. -/
def Site.Spares {ι : Type} (configs : ι → RegistrationConfig) (i : ι) (s : Site ι) :
    SiteLabel ι → Prop
  | .agent j event => ∀ worker request,
      (s.worker j).step (configs j) event = some (worker, some request) →
        request.name ∉ (configs i).names
  | .restartAgent j => j ≠ i
  | .admin op => SpareNames (configs i).names op
  | .restartAdmin => True

/-- The agent has finished, and nothing is registered under its names. -/
structure Site.Away {ι : Type} (configs : ι → RegistrationConfig) (i : ι) (s : Site ι) : Prop where
  ended : s.worker i = .ended
  absent : ∀ entry ∈ s.registry.entries, entry.name ∉ (configs i).names

section Away

variable {ι : Type} [DecidableEq ι] {configs : ι → RegistrationConfig} {s t : Site ι}
  {l : SiteLabel ι} {i : ι}

theorem Site.Away.step (haway : s.Away configs i) (hl : s.Spares configs i l)
    (h : s.step configs l = some t) : t.Away configs i := by
  cases l with
  | agent j event =>
      rcases Site.step_agent.mp h with ⟨worker, request, hworker, rfl⟩
      have hj : j ≠ i := by
        intro heq
        subst heq
        rw [haway.ended] at hworker
        cases hworker
      refine ⟨?_, ?_⟩
      · rw [← haway.ended]
        exact Function.update_of_ne hj.symm _ _
      · intro entry hentry
        cases request with
        | none => exact haway.absent entry hentry
        | some request =>
            cases Registry.mem_registerService hentry with
            | inl hold => exact haway.absent entry hold
            | inr hnew =>
                rw [(Admin.tryFrom_eq_ok hnew).1]
                exact hl worker request hworker
  | restartAgent j =>
      cases h
      refine ⟨?_, haway.absent⟩
      rw [← haway.ended]
      exact Function.update_of_ne (Ne.symm hl) _ _
  | admin op =>
      rcases Option.map_eq_some_iff.mp h with ⟨registry, hop, rfl⟩
      refine ⟨haway.ended, fun entry hentry => ?_⟩
      rcases Registry.mem_operate hop hentry with
        ⟨old, hold, heq⟩ | ⟨req, rfl, hnew⟩ | ⟨status, vm, rfl, rfl⟩
      · rw [heq]
        exact haway.absent old hold
      · rw [(Admin.tryFrom_eq_ok hnew).1]
        exact hl
      · exact hl
  | restartAdmin =>
      cases h
      exact ⟨haway.ended, fun entry hentry => absurd hentry (by simp [Registry.empty])⟩

end Away

/-- The admin service forgets an agent that has finished registering when it is restarted: from
then on nothing is registered under the names of the agent and its services, however the others
go on, unless the agent is restarted or someone else registers a name of it. -/
theorem restart_forgets_agent {ι : Type} [DecidableEq ι] {configs : ι → RegistrationConfig}
    {s t : Site ι} {i : ι} (hended : s.worker i = .ended)
    (hafter : Reach (Site.step configs) (Site.Spares configs i)
      (fun u => s.step configs .restartAdmin = some u) t) :
    ∀ name ∈ (configs i).names, t.registry.get name = none := by
  have haway : t.Away configs i := by
    refine Reach.invariant ?_ ?_ hafter
    · intro u hu
      cases hu
      exact ⟨hended, fun entry hentry => absurd hentry (by simp [Registry.empty])⟩
    · intro u l v hu hl hstep
      exact hu.step hl hstep
  intro name hname
  cases hget : t.registry.get name with
  | none => rfl
  | some entry =>
      rcases Registry.get_eq_some.mp hget with ⟨hentry, rfl⟩
      exact absurd hname (haway.absent entry hentry)

theorem restart_forgets_agent_site : ∃ s t,
    run (Site.step siteConfigs) Site.start siteRun = some s ∧
    run (Site.step siteConfigs) s siteRestart = some t ∧
    ∀ name ∈ (siteConfigs true).names, t.registry.get name = none := by
  rcases exists_siteRun with ⟨s, t, hs, hended, hzoom, ht⟩
  rcases run_cons_eq_some.mp ht with ⟨u, hu, hrest⟩
  rcases run_cons_eq_some.mp hrest with ⟨v, hv, hlast⟩
  cases hlast
  refine ⟨s, t, hs, ht, restart_forgets_agent hended (.step (.init hu) ?_ hv)⟩
  intro worker request hstep
  cases hu
  rw [hzoom] at hstep
  cases hstep
  decide

end GhafGivc.Agent
