import GhafGivc.Core.PartialKeys
import GhafGivc.Core.Transition
import GhafGivc.Policy.Manager

/-! # Monitoring policy URLs

The URL monitor runs one loop for each policy that has an updater. A loop asks the server
for the validator of the policy, downloads the file when it is not the recorded one, and
dispatches it to the VMs of the policy. The recorded heads are kept in `config.json`, which
at the next start is read instead of the configuration passed to the service.
-/

namespace GhafGivc.Policy

open Core Image

abbrev Body := List UInt8

structure ServerState where
  body : Body
  etag : Option String
  lastModified : Option String
deriving DecidableEq

/-- The validator that `poll_once` takes from the answer to its HEAD request. -/
def ServerState.head (state : ServerState) : Option String :=
  match state.etag, state.lastModified with
  | some etag, _ => some ("etag:" ++ etag)
  | none, some lastModified => some ("last-modified:" ++ lastModified)
  | none, none => none

inductive Response where
  | failed (err : String)
  | status (code : String)
  | success (state : ServerState)
deriving DecidableEq

/-- `fs::write` truncates the file and then writes it. -/
inductive FileWrite where
  | done
  | notOpened (err : String)
  | cut (written : Nat) (err : String)
deriving DecidableEq

/-- The requests of one poll, the directory made for the policy, and the write. -/
structure Exchange where
  head : Response
  get : Response
  mkdir : Option String
  write : FileWrite
deriving DecidableEq

inductive Polled where
  | upToDate
  | updated (head : String) (fileName : String)
  | error (message : String)
deriving DecidableEq

/-- The last segment of the URL. -/
def urlFileName (url : String) : String :=
  match (url.toList.splitOnP (· = '/')).getLast? with
  | some name => String.ofList name
  | none => "policy.bin"

/-- The last step of a poll: the file as it is afterwards, and the result. -/
def storeBody (exchange : Exchange) (url head : String) (body : Body)
    (file : Option Body) : Option Body × Polled :=
  match exchange.mkdir, exchange.write with
  | some err, _ => (file, .error err)
  | none, .done => (some body, .updated head (urlFileName url))
  | none, .notOpened err => (file, .error err)
  | none, .cut written err => (some (body.take written), .error err)

def pollOnce (sha : Body → String) (url currentHead : String) (exchange : Exchange)
    (file : Option Body) : Option Body × Polled :=
  match exchange.head with
  | .failed err => (file, .error err)
  | .status code => (file, .error ("HEAD request failed with status: " ++ code))
  | .success answered =>
      if answered.head = some currentHead then (file, .upToDate)
      else
        match exchange.get with
        | .failed err => (file, .error err)
        | .status code => (file, .error ("GET request failed with status: " ++ code))
        | .success served =>
            match answered.head with
            | some head => storeBody exchange url head served.body file
            | none =>
                -- without a validator the body itself is compared
                let hash := "sha256:" ++ sha served.body
                if hash = currentHead then (file, .upToDate)
                else storeBody exchange url hash served.body file

/-! ## The configuration -/

/-- `config.json` in the policy store; `broken` is one that was cut short. -/
inductive ConfigFile where
  | absent
  | saved (config : PolicyConfig)
  | broken

inductive ConfigWrite where
  | done
  | notOpened (err : String)
  | cut (err : String)
deriving DecidableEq

def ConfigFile.write (file : ConfigFile) (config : PolicyConfig) : ConfigWrite → ConfigFile
  | .done => .saved config
  | .notOpened _ => file
  | .cut _ => .broken

def defaultPollInterval : Nat := 60

namespace PolicyConfig

def readPolicyConfig (config : PolicyConfig) (name : String) :
    Except String (String × String × List String × Nat) :=
  match config.get name with
  | none => .error ("Policy " ++ name ++ " not found in config")
  | some policy =>
      match policy.perPolicyUpdater with
      | none => .error ("Policy " ++ name ++ " has no updater")
      | some updater =>
          .ok (updater.url, updater.head.getD "", policy.vms,
            updater.pollIntervalSecs.getD defaultPollInterval)

def setHead (config : PolicyConfig) (name head : String) : PolicyConfig where
  source := config.source
  policies := config.policies.map fun p =>
    if p.1 = name then
      (p.1, { p.2 with
        perPolicyUpdater := p.2.perPolicyUpdater.map fun updater =>
          { updater with head := some head } })
    else p
  names_nodup := by
    refine nodup_map_key (fun p => ?_) config.names_nodup
    split <;> rfl

end PolicyConfig

/-! ## The monitor -/

/-- One `monitor_loop`; `pending` is a head it has yet to pass to `update_head`. -/
structure Loop where
  url : String
  currentHead : String
  vms : List String
  interval : Nat
  pending : Option String
  ended : Bool
deriving DecidableEq

structure PolicyUrlMonitor where
  manager : PolicyManager
  configState : PolicyConfig
  outputDir : String
  loops : String → Option Loop

namespace PolicyUrlMonitor

/-- The loop started for a policy, unless it has no updater or no URL. -/
def startLoop (config : PolicyConfig) (name : String) : Option Loop :=
  match config.readPolicyConfig name with
  | .error _ => none
  | .ok (url, head, vms, interval) =>
      if url = "" then none else some ⟨url, head, vms, interval, none, false⟩

def new (root : String) (configFile : ConfigFile) (configs : PolicyConfig)
    (manager : PolicyManager) (write : ConfigWrite) :
    Except String (ConfigFile × PolicyUrlMonitor) :=
  let destination := joinPath (joinPath root "data") "vm-policies"
  match configFile with
  | .saved config => .ok (configFile, ⟨manager, config, destination, startLoop config⟩)
  | .broken => .error ("Failed to parse config " ++ joinPath root "config.json")
  | .absent =>
      .ok (configFile.write configs write, ⟨manager, configs, destination, startLoop configs⟩)

def setLoop (monitor : PolicyUrlMonitor) (name : String) (loop : Loop) : PolicyUrlMonitor :=
  { monitor with loops := Function.update monitor.loops name (some loop) }

/-- The calls of `send_to_vm` after a poll, with their results. -/
def dispatch (monitor : PolicyUrlMonitor) (name : String) (loop : Loop) :
    Polled → List (Send × Except String Unit)
  | .updated _ fileName =>
      loop.vms.map fun vm =>
        let send : Send := ⟨vm, name, joinPath (joinPath monitor.outputDir name) fileName⟩
        (send, monitor.manager.sendToVm send)
  | _ => []

end PolicyUrlMonitor

/-- The files of the policy store, and the monitor while the service runs with what it has
sent. Policy files are found by the name of the policy and of the file. -/
structure UrlState where
  configFile : ConfigFile
  files : String → String → Option Body
  monitor : Option PolicyUrlMonitor
  sends : List (Send × Except String Unit)

inductive UrlLabel where
  | start (configs : PolicyConfig) (write : ConfigWrite)
  | poll (name : String) (exchange : Exchange)
  | updateHead (name : String) (write : ConfigWrite)

/-- The state of a loop after a poll. -/
def Loop.polled (loop : Loop) : Polled → Loop
  | .upToDate => { loop with ended := loop.interval = 0 }
  | .updated head _ => { loop with currentHead := head, pending := some head }
  | .error _ => loop

def UrlState.setFile (s : UrlState) (name file : String) (content : Option Body) : UrlState :=
  { s with files := Function.update s.files name (Function.update (s.files name) file content) }

/-- `run_policy_admin` as far as URLs are monitored, the polls of the loops, and the record
of a new head. -/
def urlStep (sha : Body → String) (root : String) (s : UrlState) :
    UrlLabel → Option UrlState
  | .start configs write =>
      let manager := PolicyManager.new (joinPath (joinPath root "data") "vm-policies") configs
      match configs.source.kind with
      | .perPolicy =>
          match PolicyUrlMonitor.new root s.configFile configs manager write with
          | .error _ => some { s with monitor := none, sends := [] }
          | .ok (configFile, monitor) =>
              some { s with configFile := configFile, monitor := some monitor, sends := [] }
      | _ => some { s with monitor := none, sends := [] }
  | .poll name exchange => do
      let monitor ← s.monitor
      let loop ← monitor.loops name
      if loop.ended ∨ loop.pending.isSome then none
      else
        let (file, polled) := pollOnce sha loop.url loop.currentHead exchange
          (s.files name (urlFileName loop.url))
        some { s.setFile name (urlFileName loop.url) file with
          monitor := some (monitor.setLoop name (loop.polled polled))
          sends := s.sends ++ monitor.dispatch name loop polled }
  | .updateHead name write => do
      let monitor ← s.monitor
      let loop ← monitor.loops name
      let head ← loop.pending
      let config := monitor.configState.setHead name head
      let monitor := { monitor with configState := config }
      let loop := { loop with pending := none, ended := loop.interval = 0 }
      some { s with
        configFile := s.configFile.write config write
        monitor := some (monitor.setLoop name loop) }

def UrlLabel.isStart : UrlLabel → Bool
  | .start _ _ => true
  | _ => false

/-! ## What is monitored -/

/-- The configuration the URL monitor works on, if it is started. -/
def effectiveConfig (configFile : ConfigFile) (configs : PolicyConfig) : Option PolicyConfig :=
  match configs.source.kind, configFile with
  | .perPolicy, .saved config => some config
  | .perPolicy, .absent => some configs
  | _, _ => none

def PolicyConfig.vmNames (config : PolicyConfig) : List String :=
  config.policies.flatMap fun p => p.2.vms

/-- The loop of the policy goes on, with this URL and these VMs. -/
def UrlState.Monitors (s : UrlState) (name url : String) (vms : List String) : Prop :=
  ∃ monitor, s.monitor = some monitor ∧ ∃ loop, monitor.loops name = some loop ∧
    loop.ended = false ∧ loop.url = url ∧ loop.vms = vms

/-- The policies with an updater are monitored as configured, and no send failed for want of
a worker. -/
def UrlState.Serves (s : UrlState) (configs : PolicyConfig) : Prop :=
  (∀ name policy updater, configs.get name = some policy →
      policy.perPolicyUpdater = some updater → s.Monitors name updater.url policy.vms) ∧
    ∀ sent ∈ s.sends, sent.2 = .ok ()

/-- The policies with an updater are in the other configuration as well, with the same URL
and VMs, and are polled more than once. -/
def Covered (configs : PolicyConfig) (other : Option PolicyConfig) : Prop :=
  ∀ name policy updater, configs.get name = some policy →
    policy.perPolicyUpdater = some updater → ∃ config policy' updater', other = some config ∧
      config.get name = some policy' ∧ policy'.perPolicyUpdater = some updater' ∧
      updater'.url = updater.url ∧ updater.url ≠ "" ∧ policy'.vms = policy.vms ∧
      updater'.pollIntervalSecs ≠ some 0

/-- The VMs of the policies that are monitored occur in the configuration. -/
def Staffed (configs : PolicyConfig) (other : Option PolicyConfig) : Prop :=
  ∀ config, other = some config → ∀ name policy updater, config.get name = some policy →
    policy.perPolicyUpdater = some updater → updater.url ≠ "" →
      ∀ vm ∈ policy.vms, vm ∈ configs.vmNames

section Manager

variable {vm : String} {manager : PolicyManager}

theorem mem_workers_addWorker {vm' : String} :
    vm ∈ (manager.addWorker vm').workers ↔ vm ∈ manager.workers ∨ vm = vm' := by
  unfold PolicyManager.addWorker
  split
  · rename_i hmem
    refine ⟨Or.inl, fun h => h.elim id ?_⟩
    rintro rfl
    exact hmem
  · simp

theorem mem_workers_foldl_addWorker (vms : List String) :
    vm ∈ (vms.foldl PolicyManager.addWorker manager).workers ↔ vm ∈ manager.workers ∨ vm ∈ vms := by
  induction vms generalizing manager with
  | nil => simp
  | cons vm' vms ih => simp [ih, mem_workers_addWorker, or_assoc]

theorem mem_workers_new (dir : String) (configs : PolicyConfig) :
    vm ∈ (PolicyManager.new dir configs).workers ↔ vm ∈ configs.vmNames := by
  simp [PolicyManager.new, mem_workers_foldl_addWorker, PolicyConfig.vmNames, List.mem_eraseDups]

theorem sendToVm_eq_ok_iff {name file : String} :
    manager.sendToVm ⟨vm, name, file⟩ = .ok () ↔ vm ∈ manager.workers := by
  by_cases h : vm ∈ manager.workers <;> simp [PolicyManager.sendToVm, h]

end Manager

/-! ## Loops -/

theorem startLoop_eq_some_iff {config : PolicyConfig} {name : String} {loop : Loop} :
    PolicyUrlMonitor.startLoop config name = some loop ↔
      ∃ policy updater, config.get name = some policy ∧ policy.perPolicyUpdater = some updater ∧
        updater.url ≠ "" ∧
        loop = ⟨updater.url, updater.head.getD "", policy.vms,
          updater.pollIntervalSecs.getD defaultPollInterval, none, false⟩ := by
  unfold PolicyUrlMonitor.startLoop PolicyConfig.readPolicyConfig
  cases config.get name with
  | none => simp
  | some policy =>
      cases hupdater : policy.perPolicyUpdater with
      | none => simp [hupdater]
      | some updater =>
          simp only [hupdater, Option.ite_none_left_eq_some, Option.some.injEq]
          constructor
          · intro h
            exact ⟨policy, updater, rfl, hupdater, h.1, h.2.symm⟩
          · intro h
            obtain ⟨_, _, rfl, hsome, hurl, hloop⟩ := h
            obtain rfl := Option.some.inj (hupdater.symm.trans hsome)
            exact ⟨hurl, hloop.symm⟩

/-- What does not change in a loop, and when it ends. -/
structure Loop.Goes (first loop : Loop) : Prop where
  url : loop.url = first.url
  vms : loop.vms = first.vms
  interval : loop.interval = first.interval
  ended : loop.ended = true → first.interval = 0

theorem Loop.Goes.polled {first loop : Loop} (h : first.Goes loop) (polled : Polled) :
    first.Goes (loop.polled polled) := by
  cases polled with
  | upToDate => exact ⟨h.url, h.vms, h.interval, fun e => h.interval ▸ of_decide_eq_true e⟩
  | updated head fileName => exact ⟨h.url, h.vms, h.interval, h.ended⟩
  | error message => exact h

theorem Loop.Goes.recorded {first loop : Loop} (h : first.Goes loop) :
    first.Goes { loop with pending := none, ended := loop.interval = 0 } :=
  ⟨h.url, h.vms, h.interval, fun e => h.interval ▸ of_decide_eq_true e⟩

/-- The service as it is from a start on: its loops are those of `config`, and its sends go
through `manager` to the VMs of the loops. -/
structure Follows (config : Option PolicyConfig) (manager : PolicyManager) (s : UrlState) :
    Prop where
  monitor : ∀ monitor, s.monitor = some monitor → monitor.manager = manager
  started : s.monitor.isSome = config.isSome
  loops : ∀ monitor c, s.monitor = some monitor → config = some c → ∀ name,
    Option.Rel Loop.Goes (PolicyUrlMonitor.startLoop c name) (monitor.loops name)
  sends : ∀ sent ∈ s.sends, sent.2 = manager.sendToVm sent.1 ∧ ∃ c name first, config = some c ∧
    PolicyUrlMonitor.startLoop c name = some first ∧ sent.1.vm ∈ first.vms

section Runs

variable {sha : Body → String} {root : String} {s t : UrlState} {l : UrlLabel}
  {config : Option PolicyConfig} {configs : PolicyConfig} {manager : PolicyManager} {name : String}
  {monitor : PolicyUrlMonitor} {write : ConfigWrite} {loop : Loop} {exchange : Exchange}

theorem urlStep_poll (h : urlStep sha root s (.poll name exchange) = some t) :
    ∃ monitor loop, s.monitor = some monitor ∧ monitor.loops name = some loop ∧
      t = { s.setFile name (urlFileName loop.url) (pollOnce sha loop.url loop.currentHead exchange
          (s.files name (urlFileName loop.url))).1 with
        monitor := some (monitor.setLoop name (loop.polled (pollOnce sha loop.url
          loop.currentHead exchange (s.files name (urlFileName loop.url))).2))
        sends := s.sends ++ monitor.dispatch name loop (pollOnce sha loop.url
          loop.currentHead exchange (s.files name (urlFileName loop.url))).2 } := by
  obtain ⟨monitor, hmonitor, h⟩ := Option.bind_eq_some_iff.mp h
  obtain ⟨loop, hloop, h⟩ := Option.bind_eq_some_iff.mp h
  simp only [Option.ite_none_left_eq_some, Option.some.injEq] at h
  exact ⟨monitor, loop, hmonitor, hloop, h.2.symm⟩

theorem urlStep_updateHead (h : urlStep sha root s (.updateHead name write) = some t) :
    ∃ monitor loop head, s.monitor = some monitor ∧ monitor.loops name = some loop ∧
      loop.pending = some head ∧
      t = { s with
        configFile := s.configFile.write (monitor.configState.setHead name head) write
        monitor := some ({ monitor with
          configState := monitor.configState.setHead name head }.setLoop name
            { loop with pending := none, ended := loop.interval = 0 }) } := by
  obtain ⟨monitor, hmonitor, h⟩ := Option.bind_eq_some_iff.mp h
  obtain ⟨loop, hloop, h⟩ := Option.bind_eq_some_iff.mp h
  obtain ⟨head, hhead, h⟩ := Option.bind_eq_some_iff.mp h
  exact ⟨monitor, loop, head, hmonitor, hloop, hhead, (Option.some.inj h).symm⟩

theorem urlStep_start {configs : PolicyConfig}
    (h : urlStep sha root s (.start configs write) = some t) :
    t.files = s.files ∧ t.sends = [] ∧
      match effectiveConfig s.configFile configs with
      | none => t.monitor = none
      | some config => ∃ monitor, t.monitor = some monitor ∧
          monitor.manager =
            PolicyManager.new (joinPath (joinPath root "data") "vm-policies") configs ∧
          monitor.loops = PolicyUrlMonitor.startLoop config := by
  cases hkind : configs.source.kind <;> cases hfile : s.configFile <;>
    simp only [urlStep, PolicyUrlMonitor.new, hkind, hfile, Option.some.injEq] at h <;> subst h <;>
    simp [effectiveConfig, hkind]

theorem Follows.start {configs : PolicyConfig}
    (h : urlStep sha root s (.start configs write) = some t) :
    Follows (effectiveConfig s.configFile configs)
      (PolicyManager.new (joinPath (joinPath root "data") "vm-policies") configs) t := by
  obtain ⟨-, hsends, hmonitor⟩ := urlStep_start h
  cases heff : effectiveConfig s.configFile configs with
  | none =>
      simp only [heff] at hmonitor
      refine ⟨?_, by simp [hmonitor], ?_, by simp [hsends]⟩
      · intro monitor hm
        rw [hmonitor] at hm
        cases hm
      · intro _ _ _ hc
        cases hc
  | some config =>
      simp only [heff] at hmonitor
      obtain ⟨monitor, hm, hmanager, hloops⟩ := hmonitor
      refine ⟨?_, by simp [hm], ?_, by simp [hsends]⟩
      · intro monitor' hm'
        obtain rfl := Option.some.inj (hm.symm.trans hm')
        exact hmanager
      · intro monitor' c hm' hc name
        obtain rfl := Option.some.inj (hm.symm.trans hm')
        obtain rfl := Option.some.inj hc
        rw [hloops]
        cases hfirst : PolicyUrlMonitor.startLoop config name with
        | none => exact .none
        | some first =>
            obtain ⟨policy, updater, _, _, _, rfl⟩ := startLoop_eq_some_iff.mp hfirst
            exact .some ⟨rfl, rfl, rfl, fun e => absurd e (by simp)⟩

theorem rel_setLoop {c : PolicyConfig} {loop loop' : Loop} (hloop : monitor.loops name = some loop)
    (hgoes : ∀ first : Loop, first.Goes loop → first.Goes loop')
    (h : ∀ other, Option.Rel Loop.Goes (PolicyUrlMonitor.startLoop c other)
      (monitor.loops other)) (other : String) :
    Option.Rel Loop.Goes (PolicyUrlMonitor.startLoop c other)
      ((monitor.setLoop name loop').loops other) := by
  have hother := h other
  by_cases hname : other = name
  · subst hname
    rw [hloop] at hother
    cases hfirst : PolicyUrlMonitor.startLoop c other with
    | none =>
        rw [hfirst] at hother
        cases hother
    | some first =>
        rw [hfirst] at hother
        cases hother with
        | some hrel => simpa [PolicyUrlMonitor.setLoop] using Option.Rel.some (hgoes first hrel)
  · simpa [PolicyUrlMonitor.setLoop, Function.update_of_ne hname] using hother

theorem mem_dispatch {polled : Polled} {sent : Send × Except String Unit}
    (h : sent ∈ monitor.dispatch name loop polled) :
    sent.2 = monitor.manager.sendToVm sent.1 ∧ sent.1.vm ∈ loop.vms := by
  cases polled with
  | updated head fileName =>
      obtain ⟨vm, hvm, rfl⟩ := List.mem_map.mp h
      exact ⟨rfl, hvm⟩
  | upToDate => cases h
  | error message => cases h

theorem Follows.exists_first (hs : Follows config manager s) (hmonitor : s.monitor = some monitor)
    (hloop : monitor.loops name = some loop) :
    ∃ c first, config = some c ∧ PolicyUrlMonitor.startLoop c name = some first ∧
      first.Goes loop := by
  obtain ⟨c, hc⟩ := Option.isSome_iff_exists.mp (hs.started.symm.trans (by simp [hmonitor]))
  have hrel := hs.loops monitor c hmonitor hc name
  rw [hloop] at hrel
  cases hfirst : PolicyUrlMonitor.startLoop c name with
  | none =>
      rw [hfirst] at hrel
      cases hrel
  | some first =>
      rw [hfirst] at hrel
      cases hrel with
      | some hgoes => exact ⟨c, first, hc, hfirst, hgoes⟩

theorem Follows.poll (hs : Follows config manager s)
    (h : urlStep sha root s (.poll name exchange) = some t) : Follows config manager t := by
  obtain ⟨monitor, loop, hmonitor, hloop, rfl⟩ := urlStep_poll h
  refine ⟨?_, by simpa [hmonitor] using hs.started, ?_, ?_⟩
  · intro _ hm
    obtain rfl := Option.some.inj hm
    exact hs.monitor monitor hmonitor
  · intro _ c hm hc
    obtain rfl := Option.some.inj hm
    exact rel_setLoop hloop (fun first hfirst => hfirst.polled _) (hs.loops monitor c hmonitor hc)
  · intro sent hsent
    rcases List.mem_append.mp hsent with hold | hnew
    · exact hs.sends sent hold
    · obtain ⟨hresult, hvm⟩ := mem_dispatch hnew
      obtain ⟨c, first, hc, hfirst, hgoes⟩ := hs.exists_first hmonitor hloop
      rw [hs.monitor monitor hmonitor] at hresult
      exact ⟨hresult, c, name, first, hc, hfirst, hgoes.vms ▸ hvm⟩

theorem Follows.updateHead (hs : Follows config manager s)
    (h : urlStep sha root s (.updateHead name write) = some t) : Follows config manager t := by
  obtain ⟨monitor, loop, head, hmonitor, hloop, -, rfl⟩ := urlStep_updateHead h
  refine ⟨?_, by simpa [hmonitor] using hs.started, ?_, hs.sends⟩
  · intro _ hm
    obtain rfl := Option.some.inj hm
    exact hs.monitor monitor hmonitor
  · intro _ c hm hc
    obtain rfl := Option.some.inj hm
    have hloops := hs.loops monitor c hmonitor hc
    exact fun other => rel_setLoop hloop (fun first hfirst => hfirst.recorded) hloops other

theorem Follows.run {ls : List UrlLabel} (hs : Follows config manager s)
    (hls : ∀ l ∈ ls, l.isStart = false) (h : run (urlStep sha root) s ls = some t) :
    Follows config manager t := by
  refine run_preserves (fun l hl a b ha hstep => ?_) hs h
  cases l with
  | start configs write => cases hls _ hl
  | poll name exchange => exact ha.poll hstep
  | updateHead name write => exact ha.updateHead hstep

theorem Follows.serves (hs : Follows config
      (PolicyManager.new (joinPath (joinPath root "data") "vm-policies") configs) s)
    (hcovered : Covered configs config) (hstaffed : Staffed configs config) :
    s.Serves configs := by
  constructor
  · intro name policy updater hget hupdater
    obtain ⟨c, policy', updater', hc, hget', hupdater', hurl, hne, hvms, hinterval⟩ :=
      hcovered name policy updater hget hupdater
    obtain ⟨monitor, hmonitor⟩ := Option.isSome_iff_exists.mp (hs.started.trans (by simp [hc]))
    have hfirst := startLoop_eq_some_iff.mpr ⟨policy', updater', hget', hupdater', hurl ▸ hne, rfl⟩
    have hrel := hs.loops monitor c hmonitor hc name
    rw [hfirst] at hrel
    cases hloop : monitor.loops name with
    | none =>
        rw [hloop] at hrel
        cases hrel
    | some loop =>
        rw [hloop] at hrel
        cases hrel with
        | some hgoes =>
            refine ⟨monitor, hmonitor, loop, hloop, ?_, hgoes.url.trans hurl, hgoes.vms.trans hvms⟩
            refine Bool.eq_false_iff.mpr fun hended => ?_
            have hzero : updater'.pollIntervalSecs.getD defaultPollInterval = 0 :=
              hgoes.ended hended
            cases hsecs : updater'.pollIntervalSecs with
            | none => simp [hsecs, defaultPollInterval] at hzero
            | some secs => exact hinterval (by simpa [hsecs] using hzero)
  · intro sent hsent
    obtain ⟨hresult, c, name, first, hc, hfirst, hvm⟩ := hs.sends sent hsent
    obtain ⟨policy, updater, hget, hupdater, hurl, rfl⟩ := startLoop_eq_some_iff.mp hfirst
    rw [hresult]
    exact sendToVm_eq_ok_iff.mpr
      ((mem_workers_new _ _).mpr (hstaffed c hc name policy updater hget hupdater hurl _ hvm))

/-- The server has a version that the loop does not know. -/
def news (currentHead : String) : Exchange :=
  ⟨.success ⟨[], some currentHead, none⟩, .success ⟨[], some currentHead, none⟩, none, .done⟩

theorem pollOnce_news (url currentHead : String) (file : Option Body) :
    pollOnce sha url currentHead (news currentHead) file =
      (some [], .updated ("etag:" ++ currentHead) (urlFileName url)) := by
  have hne : "etag:" ++ currentHead ≠ currentHead := by
    intro h
    have hlength := congrArg String.length h
    rw [String.length_append] at hlength
    have hfive : "etag:".length = 5 := by decide
    omega
  simp [pollOnce, news, ServerState.head, hne, storeBody]

theorem urlStep_news (hmonitor : s.monitor = some monitor) (hloop : monitor.loops name = some loop)
    (hended : loop.ended = false) (hpending : loop.pending = none) :
    ∃ t, urlStep sha root s (.poll name (news loop.currentHead)) = some t ∧
      t.monitor = some (monitor.setLoop name { loop with
        currentHead := "etag:" ++ loop.currentHead
        pending := some ("etag:" ++ loop.currentHead) }) ∧
      ∀ vm ∈ loop.vms, ∃ send : Send, send.vm = vm ∧
        (send, monitor.manager.sendToVm send) ∈ t.sends := by
  have hsome : (urlStep sha root s (.poll name (news loop.currentHead))).isSome = true := by
    simp [urlStep, hmonitor, hloop, hended, hpending]
  obtain ⟨t, hstep⟩ := Option.isSome_iff_exists.mp hsome
  obtain ⟨monitor', loop', hmonitor', hloop', ht⟩ := urlStep_poll hstep
  obtain rfl := Option.some.inj (hmonitor.symm.trans hmonitor')
  obtain rfl := Option.some.inj (hloop.symm.trans hloop')
  rw [pollOnce_news] at ht
  subst ht
  refine ⟨_, hstep, rfl, fun vm hvm => ?_⟩
  exact ⟨⟨vm, name, _⟩, rfl, List.mem_append_right _ (List.mem_map.mpr ⟨vm, hvm, rfl⟩)⟩

/-- After news and its record, a loop without interval is over. -/
theorem exists_ended (sha : Body → String) (root : String) (hmonitor : s.monitor = some monitor)
    (hloop : monitor.loops name = some loop) (hended : loop.ended = false)
    (hpending : loop.pending = none) (hinterval : loop.interval = 0) :
    ∃ ls u, (∀ l ∈ ls, l.isStart = false) ∧ Core.run (urlStep sha root) s ls = some u ∧
      ∀ url vms, ¬ u.Monitors name url vms := by
  obtain ⟨t, hpoll, ht, -⟩ := urlStep_news hmonitor hloop hended hpending
  have hsome : (urlStep sha root t (.updateHead name .done)).isSome = true := by
    simp [urlStep, ht, PolicyUrlMonitor.setLoop]
  obtain ⟨u, hrecord⟩ := Option.isSome_iff_exists.mp hsome
  refine ⟨[.poll name (news loop.currentHead), .updateHead name .done], u,
    by simp [UrlLabel.isStart], ?_, ?_⟩
  · rw [run_cons_of_some _ hpoll, run_cons_of_some _ hrecord]
    rfl
  · intro url vms hmonitors
    obtain ⟨monitor', loop', head, hmonitor', hloop', -, rfl⟩ := urlStep_updateHead hrecord
    obtain rfl := Option.some.inj (ht.symm.trans hmonitor')
    obtain ⟨_, hm, final, hfinal, hgoing, -⟩ := hmonitors
    obtain rfl := Option.some.inj hm
    simp only [PolicyUrlMonitor.setLoop, Function.update_self, Option.some.injEq] at hfinal hloop'
    subst hfinal hloop'
    simp [hinterval] at hgoing

section Started

variable {write : ConfigWrite}

theorem loops_of_start (h : urlStep sha root s (.start configs write) = some t)
    {monitor : PolicyUrlMonitor} (hmonitor : t.monitor = some monitor) :
    ∃ c, effectiveConfig s.configFile configs = some c ∧
      monitor.manager = PolicyManager.new (joinPath (joinPath root "data") "vm-policies") configs ∧
      monitor.loops = PolicyUrlMonitor.startLoop c := by
  obtain ⟨-, -, hstarted⟩ := urlStep_start h
  cases heff : effectiveConfig s.configFile configs with
  | none =>
      simp only [heff] at hstarted
      rw [hstarted] at hmonitor
      cases hmonitor
  | some c =>
      simp only [heff] at hstarted
      obtain ⟨monitor', hm, hmanager, hloops⟩ := hstarted
      obtain rfl := Option.some.inj (hm.symm.trans hmonitor)
      exact ⟨c, rfl, hmanager, hloops⟩

theorem covered_of_serves (h : urlStep sha root s (.start configs write) = some t)
    (hserves : ∀ ls u, (∀ l ∈ ls, l.isStart = false) → Core.run (urlStep sha root) t ls = some u →
      u.Serves configs) : Covered configs (effectiveConfig s.configFile configs) := by
  intro name policy updater hget hupdater
  obtain ⟨monitor, hmonitor, loop, hloop, -, hurl, hvms⟩ :=
    (hserves [] t (by simp) rfl).1 name policy updater hget hupdater
  obtain ⟨c, hc, -, hloops⟩ := loops_of_start h hmonitor
  have hfirst := hloop
  rw [hloops] at hfirst
  obtain ⟨policy', updater', hget', hupdater', hne, rfl⟩ := startLoop_eq_some_iff.mp hfirst
  have hsame : updater'.url = updater.url := hurl
  refine ⟨c, policy', updater', hc, hget', hupdater', hsame, hsame ▸ hne, hvms, fun hzero => ?_⟩
  obtain ⟨ls, u, hls, hrun, hover⟩ :=
    exists_ended sha root hmonitor hloop rfl rfl (by simp [hzero])
  exact hover _ _ ((hserves ls u hls hrun).1 name policy updater hget hupdater)

theorem staffed_of_serves (h : urlStep sha root s (.start configs write) = some t)
    (hserves : ∀ ls u, (∀ l ∈ ls, l.isStart = false) → Core.run (urlStep sha root) t ls = some u →
      u.Serves configs) : Staffed configs (effectiveConfig s.configFile configs) := by
  intro c hc name policy updater hget hupdater hurl vm hvm
  obtain ⟨-, -, hstarted⟩ := urlStep_start h
  rw [hc] at hstarted
  obtain ⟨monitor, hmonitor, hmanager, hloops⟩ := hstarted
  have hloop := startLoop_eq_some_iff.mpr ⟨policy, updater, hget, hupdater, hurl, rfl⟩
  rw [← hloops] at hloop
  obtain ⟨u, hpoll, -, hsent⟩ := urlStep_news hmonitor hloop rfl rfl
  obtain ⟨⟨_, policyName, file⟩, rfl, hsend⟩ := hsent vm hvm
  have hok := (hserves [.poll name (news _)] u (by simp [UrlLabel.isStart])
    (by rw [run_cons_of_some _ hpoll]; rfl)).2 _ hsend
  rwa [sendToVm_eq_ok_iff, hmanager, mem_workers_new] at hok

/-- After a start, the policies of the passed configuration are monitored as configured and
every send finds a worker in all runs, exactly when the configuration that is in force has
them, with the same URLs and VMs, and no VM that the passed one does not have. -/
theorem monitor_serves_iff (hstart : urlStep sha root s (.start configs write) = some t) :
    (∀ ls u, (∀ l ∈ ls, l.isStart = false) → Core.run (urlStep sha root) t ls = some u →
        u.Serves configs) ↔
      Covered configs (effectiveConfig s.configFile configs) ∧
        Staffed configs (effectiveConfig s.configFile configs) := by
  constructor
  · intro hserves
    exact ⟨covered_of_serves hstart hserves, staffed_of_serves hstart hserves⟩
  · intro h ls u hls hrun
    exact ((Follows.start hstart).run hls hrun).serves h.1 h.2

end Started

end Runs

def singlePolicy (url : String) (vms : List String) : PolicyConfig where
  source := ⟨.perPolicy, none, none, none⟩
  policies := [("firewall", ⟨none, vms, some ⟨url, none, none⟩⟩)]
  names_nodup := by simp

def emptyStore : UrlState := ⟨.absent, fun _ _ => none, none, []⟩

def oldConfig : PolicyConfig := singlePolicy "https://old/rules" ["net-vm"]

def newConfig : PolicyConfig := singlePolicy "https://new/rules" ["chrome-vm"]

theorem get_singlePolicy {url name : String} {vms : List String} {policy : PolicyConfigPolicy}
    (h : (singlePolicy url vms).get name = some policy) :
    policy = ⟨none, vms, some ⟨url, none, none⟩⟩ := by
  obtain ⟨before, after, hpolicies, -⟩ := List.lookup_eq_some_iff.mp h
  have hmem : (name, policy) ∈ (singlePolicy url vms).policies := by simp [hpolicies]
  exact (Prod.mk.inj (List.mem_singleton.mp hmem)).2

theorem covered_singlePolicy {url : String} (hurl : url ≠ "") (vms : List String) :
    Covered (singlePolicy url vms) (some (singlePolicy url vms)) := by
  intro name policy updater hget hupdater
  obtain rfl := get_singlePolicy hget
  obtain rfl := Option.some.inj hupdater
  exact ⟨_, _, _, rfl, hget, rfl, rfl, hurl, rfl, by simp⟩

theorem staffed_singlePolicy (url : String) (vms : List String) :
    Staffed (singlePolicy url vms) (some (singlePolicy url vms)) := by
  intro c hc name policy updater hget hupdater _ vm hvm
  obtain rfl := Option.some.inj hc
  obtain rfl := get_singlePolicy hget
  simpa [PolicyConfig.vmNames, singlePolicy] using hvm

def restarted : UrlState :=
  { emptyStore with
    configFile := .saved oldConfig
    monitor := some ⟨PolicyManager.new "/etc/policies/data/vm-policies" oldConfig, oldConfig,
      "/etc/policies/data/vm-policies", PolicyUrlMonitor.startLoop oldConfig⟩ }

theorem monitor_serves_iff_restarted :
    (∀ sha, run (urlStep sha "/etc/policies") emptyStore
        [.start oldConfig .done, .start oldConfig .done] = some restarted) ∧
      ∀ sha ls u, (∀ l ∈ ls, l.isStart = false) →
        run (urlStep sha "/etc/policies") restarted ls = some u → u.Serves oldConfig := by
  have hdir : joinPath (joinPath "/etc/policies" "data") "vm-policies" =
      "/etc/policies/data/vm-policies" := by decide +kernel
  have hfirst : ∀ sha, urlStep sha "/etc/policies" emptyStore (.start oldConfig .done) =
      some restarted := by
    intro sha
    simp only [urlStep, PolicyUrlMonitor.new, emptyStore, ConfigFile.write, restarted, hdir]
    rfl
  have hsecond : ∀ sha, urlStep sha "/etc/policies" restarted (.start oldConfig .done) =
      some restarted := by
    intro sha
    simp only [urlStep, PolicyUrlMonitor.new, restarted, hdir]
    rfl
  refine ⟨fun sha => ?_, fun sha => (monitor_serves_iff (hsecond sha)).mpr
    ⟨covered_singlePolicy (by decide) _, staffed_singlePolicy _ _⟩⟩
  rw [run_cons_of_some _ (hfirst sha), run_cons_of_some _ (hsecond sha)]
  rfl

/-- The service is restarted with another URL and another VM: it polls the old URL and finds
no worker for the old VM. -/
theorem monitor_keeps_old_config :
    ∃ s monitor loop, (∀ sha, run (urlStep sha "/etc/policies") emptyStore
        [.start oldConfig .done, .start newConfig .done, .poll "firewall" (news "")] = some s) ∧
      s.monitor = some monitor ∧ monitor.loops "firewall" = some loop ∧
      loop.url = "https://old/rules" ∧ loop.vms = ["net-vm"] ∧
      s.sends = [(⟨"net-vm", "firewall", "/etc/policies/data/vm-policies/firewall/rules"⟩,
        .error "No worker found for VM: net-vm")] ∧ ¬ s.Serves newConfig := by
  refine ⟨_, _, _, fun _ => rfl, rfl, rfl, by decide +kernel, by decide +kernel, by decide +kernel,
    fun h => ?_⟩
  obtain ⟨monitor, hmonitor, loop, hloop, -, hurl, -⟩ := h.1 "firewall" _ _ rfl rfl
  cases hmonitor
  cases hloop
  exact absurd hurl (by decide +kernel)

end GhafGivc.Policy
