import GhafGivc.Core.Workers
import GhafGivc.Policy.Changeset
import GhafGivc.Policy.UrlMonitor

/-! # Workers of the policy manager

Each VM has a worker with a channel of its own. The workers hand their updates to one task,
which pushes them one after the other; a worker waits for the end of its push before it
takes the next update. Senders, workers and the task run concurrently.
-/

namespace GhafGivc.Policy

open Core Image

/-- What a policy directory answers; an entry is a path and whether it is a file. -/
inductive DirAnswer where
  | missing
  | unreadable (cause : String)
  | entries (entries : List (String × Bool))
deriving DecidableEq

namespace PolicyManager

def sendPolicy (manager : PolicyManager) (answer : DirAnswer) (vmName policy : String) :
    List Send :=
  match answer with
  | .entries entries =>
      if vmName ∈ manager.configs.subscribers policy then
        (entries.filter (·.2)).map fun entry => ⟨vmName, policy, entry.1⟩
      else []
  | _ => []

def sendAllPolicies (manager : PolicyManager) (dir : String → DirAnswer) (vmName : String) :
    List Send :=
  manager.configs.policies.flatMap fun policy =>
    manager.sendPolicy (dir (joinPath manager.policyDir policy.1)) vmName policy.1

/-- The directories are read once for each worker. -/
def forceUpdateAllVms (manager : PolicyManager) (dir : String → String → DirAnswer) : List Send :=
  manager.workers.flatMap fun vm => manager.sendAllPolicies (dir vm) vm

end PolicyManager

/-- A call of the manager, and what the file system answers meanwhile. -/
inductive Dispatch where
  | changeset (present : String → Bool) (text : List Char)
  | all (dir : String → DirAnswer) (vmName : String)
  | force (dir : String → String → DirAnswer)

def PolicyManager.sends (manager : PolicyManager) : Dispatch → List Send
  | .changeset present text => manager.processChangeset present text
  | .all dir vmName => manager.sendAllPolicies dir vmName
  | .force dir => manager.forceUpdateAllVms dir

section Dispatch

variable {manager : PolicyManager} {send : Send} {dispatch : Dispatch} {configs : PolicyConfig}

theorem subscribed_of_mem_sendAllPolicies {dir : String → DirAnswer} {vmName : String}
    (h : send ∈ manager.sendAllPolicies dir vmName) :
    send.vm ∈ manager.configs.subscribers send.policyName := by
  rcases List.mem_flatMap.mp h with ⟨policy, -, hsend⟩
  unfold PolicyManager.sendPolicy at hsend
  split at hsend
  · split at hsend
    · rename_i hvm
      rcases List.mem_map.mp hsend with ⟨entry, -, rfl⟩
      exact hvm
    · cases hsend
  · cases hsend

theorem subscribed_of_mem_processChangeset {present : String → Bool} {text : List Char}
    (h : send ∈ manager.processChangeset present text) :
    send.vm ∈ manager.configs.subscribers send.policyName := by
  rcases List.mem_flatMap.mp h with ⟨line, -, hsend⟩
  split at hsend
  · cases hsend
  · rename_i path _
    unfold PolicyManager.processPath at hsend
    split at hsend
    · cases hsend
    · dsimp only at hsend
      split at hsend
      · rcases List.mem_map.mp hsend with ⟨vm, hvm, rfl⟩
        exact hvm
      · cases hsend

theorem subscribed_of_mem_sends (h : send ∈ manager.sends dispatch) :
    send.vm ∈ manager.configs.subscribers send.policyName := by
  cases dispatch with
  | changeset present text => exact subscribed_of_mem_processChangeset h
  | all dir vmName => exact subscribed_of_mem_sendAllPolicies h
  | force dir =>
      rcases List.mem_flatMap.mp h with ⟨vm, -, hsend⟩
      exact subscribed_of_mem_sendAllPolicies hsend

theorem mem_vmNames_of_subscribed {vm policy : String} (h : vm ∈ configs.subscribers policy) :
    vm ∈ configs.vmNames := by
  unfold PolicyConfig.subscribers at h
  cases hget : configs.get policy with
  | none =>
      rw [hget] at h
      cases h
  | some found =>
      rw [hget] at h
      rcases List.lookup_eq_some_iff.mp hget with ⟨before, after, heq, -⟩
      exact List.mem_flatMap.mpr ⟨(policy, found), by simp [heq], h⟩

theorem configs_foldl_addWorker (vms : List String) :
    (vms.foldl PolicyManager.addWorker manager).configs = manager.configs := by
  induction vms generalizing manager with
  | nil => rfl
  | cons vm vms ih =>
      rw [List.foldl_cons, ih]
      unfold PolicyManager.addWorker
      split <;> rfl

theorem configs_new (dir : String) (configs : PolicyConfig) :
    (PolicyManager.new dir configs).configs = configs :=
  configs_foldl_addWorker _

theorem mem_workers_of_mem_sends {dir : String}
    (h : send ∈ (PolicyManager.new dir configs).sends dispatch) :
    send.vm ∈ (PolicyManager.new dir configs).workers := by
  have hvm := subscribed_of_mem_sends h
  rw [configs_new] at hvm
  exact (mem_workers_new dir configs).mpr (mem_vmNames_of_subscribed hvm)

end Dispatch

/-! ## Updates on their way -/

/-- The channels and the workers, by VM; an update is a policy and a file. -/
abbrev Updates := Workers.State String (String × String) (Except String Unit)

inductive UpdateLabel where
  | send (send : Send)
  | take (vm : String)
  | serve
  | answer (result : Except String Unit)
deriving DecidableEq

namespace PolicyManager

/-- What happens to the channels; a send to a VM without worker fails. -/
def label? (manager : PolicyManager) :
    UpdateLabel → Option (Workers.Label String (String × String) (Except String Unit))
  | .send send =>
      match manager.sendToVm send with
      | .ok _ => some (.send send.vm (send.policyName, send.file))
      | .error _ => none
  | .take vm => some (.take vm)
  | .serve => some .serve
  | .answer result => some (.answer result)

def step (manager : PolicyManager) (s : Updates) (l : UpdateLabel) : Option Updates :=
  match manager.label? l with
  | some label => Workers.step s label
  | none => some s

end PolicyManager

def UpdateLabel.send? : UpdateLabel → Option Send
  | send s => some s
  | _ => none

def sendsTo (vm : String) (ls : List UpdateLabel) : List (String × String) :=
  ((ls.filterMap UpdateLabel.send?).filter (·.vm = vm)).map fun send =>
    (send.policyName, send.file)

/-- The updates that were pushed to a VM, whatever became of the push. -/
def pushed (s : Updates) (vm : String) : List (String × String) :=
  Workers.jobs vm (s.served.map Prod.fst)

section Updates

variable {manager : PolicyManager} {s t : Updates} {ls : List UpdateLabel}

theorem run_step (manager : PolicyManager) (s : Updates) (ls : List UpdateLabel) :
    run manager.step s ls = run Workers.step s (ls.filterMap manager.label?) := by
  induction ls generalizing s with
  | nil => rfl
  | cons l ls ih =>
      cases hlabel : manager.label? l with
      | none =>
          have hstep : manager.step s l = some s := by simp [PolicyManager.step, hlabel]
          rw [run_cons_of_some ls hstep, List.filterMap_cons_none hlabel, ih]
      | some label =>
          have hstep : manager.step s l = Workers.step s label := by
            simp [PolicyManager.step, hlabel]
          rw [List.filterMap_cons_some hlabel]
          cases hnext : Workers.step s label with
          | none => simp [run, hstep, hnext]
          | some u =>
              rw [run_cons_of_some ls (hstep.trans hnext), run_cons_of_some _ hnext, ih]

theorem sendsTo_cons_send (vm : String) (send : Send) (ls : List UpdateLabel) :
    sendsTo vm (.send send :: ls) =
      if send.vm = vm then (send.policyName, send.file) :: sendsTo vm ls else sendsTo vm ls := by
  by_cases h : send.vm = vm <;> simp [sendsTo, UpdateLabel.send?, h]

theorem label?_send (manager : PolicyManager) (send : Send) :
    manager.label? (.send send) =
      if send.vm ∈ manager.workers then some (.send send.vm (send.policyName, send.file))
      else none := by
  by_cases h : send.vm ∈ manager.workers <;> simp [PolicyManager.label?, PolicyManager.sendToVm, h]

theorem jobs_sent (manager : PolicyManager) (vm : String) (ls : List UpdateLabel) :
    Workers.jobs vm ((ls.filterMap manager.label?).filterMap Workers.Label.sent?) =
      if vm ∈ manager.workers then sendsTo vm ls else [] := by
  induction ls with
  | nil => simp [sendsTo]
  | cons l ls ih =>
      cases l with
      | send send =>
          rw [sendsTo_cons_send]
          by_cases hworker : send.vm ∈ manager.workers
          · rw [List.filterMap_cons_some ((label?_send manager send).trans (if_pos hworker))]
            change Workers.jobs vm ((send.vm, (send.policyName, send.file)) ::
              (ls.filterMap manager.label?).filterMap Workers.Label.sent?) = _
            by_cases hvm : send.vm = vm
            · subst hvm
              rw [Workers.jobs_cons_self, ih, if_pos hworker, if_pos hworker, if_pos rfl]
            · rw [Workers.jobs_cons_of_ne hvm, ih, if_neg hvm]
          · rw [List.filterMap_cons_none ((label?_send manager send).trans (if_neg hworker)), ih]
            by_cases hvm : send.vm = vm
            · subst hvm
              rw [if_neg hworker, if_neg hworker]
            · rw [if_neg hvm]
      | take | serve | answer => exact ih

theorem sent_of_run (hrun : run manager.step Workers.start ls = some s) (vm : String) :
    Workers.jobs vm s.sent = if vm ∈ manager.workers then sendsTo vm ls else [] := by
  rw [run_step] at hrun
  rw [Workers.sent_of_run hrun, ← jobs_sent]
  rfl

theorem inv_of_run (hrun : run manager.step Workers.start ls = some s) : Workers.Inv s := by
  rw [run_step] at hrun
  exact Workers.inv_start.run hrun

/-- Nothing is sent in the run but what the calls of the manager send. -/
def Dispatched (manager : PolicyManager) (ls : List UpdateLabel) : Prop :=
  ∀ send, .send send ∈ ls → ∃ dispatch, send ∈ manager.sends dispatch

def UpdateLabel.Internal : UpdateLabel → Prop
  | .send _ => False
  | _ => True

/-- No worker and not the task can go on. -/
def AtRest (manager : PolicyManager) (s : Updates) : Prop :=
  ∀ l : UpdateLabel, l.Internal → manager.step s l = none

theorem atRest_iff_idle : AtRest manager s ↔ s.Idle := by
  constructor
  · intro h l hl
    cases l with
    | send k job => exact hl.elim
    | take vm => exact h (.take vm) trivial
    | serve => exact h .serve trivial
    | answer result => exact h (.answer result) trivial
  · intro h l hl
    cases l with
    | send send => exact hl.elim
    | take vm => exact h (.take vm) trivial
    | serve => exact h .serve trivial
    | answer result => exact h (.answer result) trivial

/-! A forced update of two VMs, the first push of which fails. -/

def rolloutDir (path : String) : DirAnswer :=
  .entries [(path ++ "/rules", true), (path ++ "/drafts", false)]

def rollout : List UpdateLabel :=
  [.send ⟨"net-vm", "firewall", "/etc/policies/data/vm-policies/firewall/rules"⟩, .take "net-vm",
    .send ⟨"gui-vm", "usb", "/etc/policies/data/vm-policies/usb/rules"⟩, .serve, .take "gui-vm",
    .answer (.error "no agent"), .serve, .answer (.ok ())]

def rolloutRun : Option Updates := run sampleManager.step Workers.start rollout

theorem rollout_samples :
    (rolloutRun.any fun s => 3 * s.sent.length ≤ s.steps) = true ∧
    (∀ send ∈ rollout.filterMap UpdateLabel.send?,
      send ∈ sampleManager.sends (.force fun _ => rolloutDir)) ∧
    "net-vm" ∈ sampleManager.workers := by
  decide +kernel

theorem exists_rollout : ∃ s, rolloutRun = some s ∧ AtRest sampleManager s := by
  have hsamples := rollout_samples.1
  cases hrun : rolloutRun with
  | none =>
      rw [hrun] at hsamples
      cases hsamples
  | some s =>
      rw [hrun] at hsamples
      have hsteps : 3 * s.sent.length ≤ s.steps := of_decide_eq_true hsamples
      exact ⟨s, rfl, atRest_iff_idle.mpr ((inv_of_run hrun).idle_of_steps hsteps)⟩

theorem dispatched_rollout : Dispatched sampleManager rollout := by
  intro send hsend
  have hin : send ∈ rollout.filterMap UpdateLabel.send? :=
    List.mem_filterMap.mpr ⟨.send send, hsend, rfl⟩
  exact ⟨_, rollout_samples.2.1 send hin⟩

/-- Whatever the interleaving: what was sent to a VM is what was pushed to it, then at most
one update on its way, then the updates in its channel, in the order in which they were
sent. A push is not repeated, however it ended, and a VM without worker gets nothing. -/
theorem pushes_in_order (hrun : run manager.step Workers.start ls = some s) (vm : String) :
    (if vm ∈ manager.workers then sendsTo vm ls else []) =
        pushed s vm ++ s.inFlight vm ++ s.mailbox vm ∧
      (s.inFlight vm).length ≤ 1 := by
  have hinv := inv_of_run hrun
  constructor
  · rw [← sent_of_run hrun, hinv.conserved]
    simp [pushed, Workers.State.taken, Workers.State.inFlight]
  · rw [hinv.inFlight]
    split <;> decide

theorem pushes_in_order_rollout : ∃ s, rolloutRun = some s ∧
    [("firewall", "/etc/policies/data/vm-policies/firewall/rules")] =
      pushed s "net-vm" ++ s.inFlight "net-vm" ++ s.mailbox "net-vm" := by
  rcases exists_rollout with ⟨s, hrun, -⟩
  have horder := (pushes_in_order hrun "net-vm").1
  rw [if_pos rollout_samples.2.2] at horder
  exact ⟨s, hrun, horder⟩

theorem sendsTo_of_worker {dir : String} {configs : PolicyConfig}
    (hdispatched : Dispatched (.new dir configs) ls) (vm : String) :
    (if vm ∈ (PolicyManager.new dir configs).workers then sendsTo vm ls else []) =
      sendsTo vm ls := by
  split
  · rfl
  · rename_i hworker
    refine (List.map_eq_nil_iff.mpr (List.filter_eq_nil_iff.mpr fun send hsend hvm => ?_)).symm
    rcases List.mem_filterMap.mp hsend with ⟨l, hl, hsend⟩
    cases l with
    | send found =>
        cases hsend
        rcases hdispatched send hl with ⟨dispatch, hin⟩
        exact hworker (of_decide_eq_true hvm ▸ mem_workers_of_mem_sends hin)
    | take | serve | answer => cases hsend

theorem length_sent_le (manager : PolicyManager) (ls : List UpdateLabel) :
    ((ls.filterMap manager.label?).filterMap Workers.Label.sent?).length ≤
      (ls.filterMap UpdateLabel.send?).length := by
  induction ls with
  | nil => exact Nat.le_refl 0
  | cons l ls ih =>
      cases l with
      | send send =>
          by_cases hworker : send.vm ∈ manager.workers
          · rw [List.filterMap_cons_some ((label?_send manager send).trans (if_pos hworker))]
            exact Nat.succ_le_succ ih
          · rw [List.filterMap_cons_none ((label?_send manager send).trans (if_neg hworker))]
            exact Nat.le_succ_of_le ih
      | take | serve | answer => exact ih

theorem internal_filterMap (h : ∀ l ∈ ls, l.Internal) :
    (ls.filterMap manager.label?).length = ls.length ∧
      ∀ label ∈ ls.filterMap manager.label?, label.Internal := by
  induction ls with
  | nil => simp
  | cons l ls ih =>
      rw [List.forall_mem_cons] at h
      rcases ih h.2 with ⟨hlength, hinternal⟩
      cases l with
      | send send => exact h.1.elim
      | take | serve | answer =>
          rw [List.filterMap_cons_some (by rfl), List.length_cons, List.length_cons, hlength]
          exact ⟨rfl, List.forall_mem_cons.mpr ⟨trivial, hinternal⟩⟩

/-- Nothing that the manager dispatches is lost or repeated: without further sends, the
workers come to rest after at most three steps for each send, and then each VM was pushed
what was sent to it, once and in this order. -/
theorem dispatches_pushed {dir : String} {configs : PolicyConfig}
    (hdispatched : Dispatched (.new dir configs) ls)
    (hrun : run (PolicyManager.new dir configs).step Workers.start ls = some s) :
    (∀ more t, (∀ l ∈ more, l.Internal) →
      run (PolicyManager.new dir configs).step s more = some t →
        more.length ≤ 3 * (ls.filterMap UpdateLabel.send?).length) ∧
    (AtRest (.new dir configs) s → ∀ vm, pushed s vm = sendsTo vm ls) := by
  have hinv := inv_of_run hrun
  constructor
  · intro more t hmore hrest
    rw [run_step] at hrun hrest
    rcases internal_filterMap hmore with ⟨hlength, hinternal⟩
    have hsteps := hinv.length_run_le hrest hinternal
    have hsent := length_sent_le (.new dir configs) ls
    rw [Workers.sent_of_run hrun, hlength] at hsteps
    exact hsteps.trans (Nat.mul_le_mul_left 3 hsent)
  · intro hrest vm
    rw [← sendsTo_of_worker hdispatched vm, ← sent_of_run hrun vm]
    exact hinv.served_of_idle (atRest_iff_idle.mp hrest) vm

theorem dispatches_pushed_rollout : ∃ s, rolloutRun = some s ∧ AtRest sampleManager s ∧
    pushed s "gui-vm" = [("usb", "/etc/policies/data/vm-policies/usb/rules")] := by
  rcases exists_rollout with ⟨s, hrun, hrest⟩
  exact ⟨s, hrun, hrest, (dispatches_pushed dispatched_rollout hrun).2 hrest "gui-vm"⟩

end Updates

end GhafGivc.Policy
