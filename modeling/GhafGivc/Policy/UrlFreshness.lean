import GhafGivc.Policy.UrlMonitor

/-! # Up-to-date answers of the URL monitor

A recorded head stands for the body that was stored with it. The validator is taken from
the answer to the HEAD request and the body from a later GET request, the file is written
before the head is recorded, and the head outlives the process, so a recorded head can come
to stand for another body than the one in the file.
-/

namespace GhafGivc.Policy

open Core

def Response.state? : Response → Option ServerState
  | .success state => some state
  | _ => none

def FileWrite.isCut : FileWrite → Bool
  | .cut _ _ => true
  | _ => false

/-- The states that each URL goes through; states with the same validator have one body. -/
def Validating (states : String → ServerState → Prop) : Prop :=
  ∀ url a b, states url a → states url b → a.head ≠ none → a.head = b.head → a.body = b.body

/-- Requests are answered by states of the server. -/
def Served (states : String → ServerState → Prop) (s : UrlState) : UrlLabel → Prop
  | .poll name exchange =>
      ∀ monitor ∈ s.monitor, ∀ loop ∈ monitor.loops name,
        (∀ state ∈ exchange.head.state?, states loop.url state) ∧
          ∀ state ∈ exchange.get.state?, states loop.url state
  | _ => True

/-- A GET request finds the body that the HEAD request before it was answered for, no write
is cut short while a head is recorded, and a start reads back no head but the ones the loops
had. -/
def Coherent (s : UrlState) : UrlLabel → Prop
  | .start configs _ =>
      ∀ config ∈ effectiveConfig s.configFile configs,
        ∀ p ∈ config.policies, ∀ updater ∈ p.2.perPolicyUpdater,
          updater.head.getD "" = "" ∨ ∃ monitor ∈ s.monitor, ∃ loop ∈ monitor.loops p.1,
            loop.url = updater.url ∧ loop.currentHead = updater.head.getD ""
  | .poll name exchange =>
      ∀ monitor ∈ s.monitor, ∀ loop ∈ monitor.loops name,
        (∀ answered ∈ exchange.head.state?, answered.head ≠ some loop.currentHead →
          ∀ served ∈ exchange.get.state?, served.body = answered.body) ∧
        (loop.currentHead = "" ∨ exchange.write.isCut = false)
  | .updateHead _ _ => True

instance (states : String → ServerState → Prop) [∀ url, DecidablePred (states url)]
    (s : UrlState) : (l : UrlLabel) → Decidable (Served states s l)
  | .start _ _ => by unfold Served; infer_instance
  | .poll _ _ => by unfold Served; infer_instance
  | .updateHead _ _ => by unfold Served; infer_instance

instance (s : UrlState) : (l : UrlLabel) → Decidable (Coherent s l)
  | .start _ _ => by unfold Coherent; infer_instance
  | .poll _ _ => by unfold Coherent; infer_instance
  | .updateHead _ _ => by unfold Coherent; infer_instance

def UrlState.Initial (s : UrlState) : Prop :=
  s.configFile = .absent ∧ s.monitor = none

/-! ## The outcomes of a poll -/

/-- What a poll does to the file, and what it returns. -/
inductive PollMove (sha : Body → String) (url currentHead : String) (exchange : Exchange)
    (file : Option Body) : Option Body × Polled → Prop
  | refused (message : String) : PollMove sha url currentHead exchange file (file, .error message)
  | sameHead (answered : ServerState) (hhead : exchange.head = .success answered)
      (hsame : answered.head = some currentHead) :
      PollMove sha url currentHead exchange file (file, .upToDate)
  | sameBody (answered served : ServerState) (hhead : exchange.head = .success answered)
      (hnone : answered.head = none) (hget : exchange.get = .success served)
      (hhash : "sha256:" ++ sha served.body = currentHead) :
      PollMove sha url currentHead exchange file (file, .upToDate)
  | stored (answered served : ServerState) (head : String)
      (hhead : exchange.head = .success answered) (hne : answered.head ≠ some currentHead)
      (hget : exchange.get = .success served)
      (hnew : answered.head = some head ∨
        answered.head = none ∧ head = "sha256:" ++ sha served.body) :
      PollMove sha url currentHead exchange file
        (some served.body, .updated head (urlFileName url))
  | cut (body : Body) (message : String) (hcut : exchange.write.isCut = true) :
      PollMove sha url currentHead exchange file (some body, .error message)

section Poll

variable {sha : Body → String} {url currentHead : String} {exchange : Exchange}
  {file : Option Body}

theorem pollMove_storeBody {answered served : ServerState} {head : String}
    (hhead : exchange.head = .success answered) (hne : answered.head ≠ some currentHead)
    (hget : exchange.get = .success served)
    (hnew : answered.head = some head ∨
      answered.head = none ∧ head = "sha256:" ++ sha served.body) :
    PollMove sha url currentHead exchange file
      (storeBody exchange url head served.body file) := by
  unfold storeBody
  split
  · exact .refused _
  · exact .stored answered served head hhead hne hget hnew
  · exact .refused _
  · rename_i hwrite
    exact .cut _ _ (by rw [hwrite]; rfl)

theorem pollMove_pollOnce (sha : Body → String) (url currentHead : String)
    (exchange : Exchange) (file : Option Body) :
    PollMove sha url currentHead exchange file
      (pollOnce sha url currentHead exchange file) := by
  unfold pollOnce
  cases hhead : exchange.head with
  | failed err => exact .refused _
  | status code => exact .refused _
  | success answered =>
      by_cases hsame : answered.head = some currentHead
      · simp only [hsame, if_true]
        exact .sameHead answered hhead hsame
      simp only [hsame, if_false]
      cases hget : exchange.get with
      | failed err => exact .refused _
      | status code => exact .refused _
      | success served =>
          cases hvalidator : answered.head with
          | some head => exact pollMove_storeBody hhead hsame hget (Or.inl hvalidator)
          | none =>
              simp only
              split
              · rename_i hhash
                exact .sameBody answered served hhead hvalidator hget hhash
              · exact pollMove_storeBody hhead hsame hget (Or.inr ⟨hvalidator, rfl⟩)

end Poll

/-! ## Heads stand for the file -/

/-- The file is the body of every server state with this head, and the body with this hash. -/
def Covers (states : ServerState → Prop) (sha : Body → String) (head : String)
    (file : Option Body) : Prop :=
  (∀ state, states state → state.head = some head → file = some state.body) ∧
    ∀ body, head = "sha256:" ++ sha body → file = some body

section Covers

variable {states : ServerState → Prop} {sha : Body → String} {file : Option Body} {head : String}

/-- The first letters tell a validator from a hash and from no head. -/
theorem head?_of_head {state : ServerState} (h : state.head = some head) :
    head.toList.head? = some 'e' ∨ head.toList.head? = some 'l' := by
  unfold ServerState.head at h
  split at h
  · obtain rfl := Option.some.inj h
    simp
  · obtain rfl := Option.some.inj h
    simp
  · cases h

theorem head_ne_sha (state : ServerState) (hash : String) :
    state.head ≠ some ("sha256:" ++ hash) := by
  intro h
  simpa using head?_of_head h

theorem head_ne_empty (state : ServerState) : state.head ≠ some "" := by
  intro h
  simpa using head?_of_head h

theorem covers_empty : Covers states sha "" file := by
  refine ⟨fun state _ h => absurd h (head_ne_empty state), fun body h => ?_⟩
  have := congrArg String.toList h
  simp at this

theorem covers_validator {answered : ServerState}
    (hvalid : ∀ state, states state → state.head = answered.head → state.body = answered.body)
    (hhead : answered.head = some head) : Covers states sha head (some answered.body) := by
  refine ⟨fun state hstate h => ?_, fun body h => ?_⟩
  · rw [hvalid state hstate (h.trans hhead.symm)]
  · subst h
    exact absurd hhead (head_ne_sha answered _)

theorem covers_hash (hinj : Function.Injective sha) (body : Body) :
    Covers states sha ("sha256:" ++ sha body) (some body) := by
  refine ⟨fun state _ h => absurd h (head_ne_sha state _), fun other h => ?_⟩
  have hchars := congrArg String.toList h
  rw [String.toList_append, String.toList_append, List.append_cancel_left_eq] at hchars
  rw [hinj (String.toList_inj.mp hchars)]

end Covers

/-! ## Every run -/

/-- The head of every loop covers the file of its policy. -/
def UrlState.Fresh (states : String → ServerState → Prop) (sha : Body → String)
    (s : UrlState) : Prop :=
  ∀ monitor, s.monitor = some monitor → ∀ name loop, monitor.loops name = some loop →
    Covers (states loop.url) sha loop.currentHead (s.files name (urlFileName loop.url))

section Runs

variable {states : String → ServerState → Prop} {sha : Body → String} {root : String}
  {s t : UrlState} {l : UrlLabel} {name : String} {write : ConfigWrite} {exchange : Exchange}

theorem loops_setLoop {monitor : PolicyUrlMonitor} {name other : String} {loop found : Loop}
    (h : (monitor.setLoop name loop).loops other = some found) :
    other = name ∧ found = loop ∨ other ≠ name ∧ monitor.loops other = some found := by
  by_cases hname : other = name
  · subst hname
    simp only [PolicyUrlMonitor.setLoop, Function.update_self, Option.some.injEq] at h
    exact Or.inl ⟨rfl, h.symm⟩
  · simp only [PolicyUrlMonitor.setLoop, Function.update_of_ne hname] at h
    exact Or.inr ⟨hname, h⟩

theorem mem_of_get {config : PolicyConfig} {policy : PolicyConfigPolicy}
    (h : config.get name = some policy) : (name, policy) ∈ config.policies := by
  obtain ⟨before, after, hpolicies, -⟩ := List.lookup_eq_some_iff.mp h
  simp [hpolicies]

theorem UrlState.Fresh.start (hs : s.Fresh states sha) {configs : PolicyConfig}
    (hok : Coherent s (.start configs write))
    (h : urlStep sha root s (.start configs write) = some t) : t.Fresh states sha := by
  intro monitor hm name loop hloop
  obtain ⟨config, hconfig, -, hloops⟩ := loops_of_start h hm
  rw [hloops] at hloop
  obtain ⟨policy, updater, hget, hupdater, -, rfl⟩ := startLoop_eq_some_iff.mp hloop
  rw [(urlStep_start h).1]
  rcases hok config hconfig _ (mem_of_get hget) updater hupdater with
    hempty | ⟨old, hold, oldLoop, holdLoop, hsame, hcurrent⟩
  · rw [hempty]
    exact covers_empty
  · rw [← hsame, ← hcurrent]
    exact hs old hold name oldLoop holdLoop

/-- One poll, seen from the loop that makes it. -/
theorem covers_polled (hinj : Function.Injective sha) (hvalid : Validating states) {loop : Loop}
    {file : Option Body} (hcovers : Covers (states loop.url) sha loop.currentHead file)
    (hserved : ∀ state ∈ exchange.head.state?, states loop.url state)
    (hget : ∀ answered ∈ exchange.head.state?, answered.head ≠ some loop.currentHead →
      ∀ served ∈ exchange.get.state?, served.body = answered.body) {result : Option Body × Polled}
    (hmove : PollMove sha loop.url loop.currentHead exchange file result)
    (hkeep : loop.currentHead = "" ∨ exchange.write.isCut = false) :
    Covers (states loop.url) sha (loop.polled result.2).currentHead result.1 := by
  cases hmove with
  | refused message => exact hcovers
  | sameHead => exact hcovers
  | sameBody => exact hcovers
  | stored answered served head hhead hne hgot hnew =>
      have hbody := hget answered (by simp [hhead, Response.state?]) hne served
        (by simp [hgot, Response.state?])
      rcases hnew with hvalidator | ⟨-, rfl⟩
      · rw [hbody]
        have hanswered := hserved answered (by simp [hhead, Response.state?])
        refine covers_validator (fun state hstate heq => ?_) hvalidator
        exact hvalid loop.url state answered hstate hanswered (by simp [heq, hvalidator]) heq
      · exact covers_hash hinj served.body
  | cut body message hcut =>
      rcases hkeep with hempty | hwhole
      · simp only [Loop.polled, hempty]
        exact covers_empty
      · rw [hcut] at hwhole
        cases hwhole

theorem UrlState.Fresh.poll (hinj : Function.Injective sha) (hvalid : Validating states)
    (hs : s.Fresh states sha) (hserved : Served states s (.poll name exchange))
    (hok : Coherent s (.poll name exchange))
    (h : urlStep sha root s (.poll name exchange) = some t) : t.Fresh states sha := by
  obtain ⟨monitor, loop, hmonitor, hloop, rfl⟩ := urlStep_poll h
  obtain ⟨hget, hkeep⟩ := hok monitor hmonitor loop hloop
  intro _ hm other otherLoop hother
  obtain rfl := Option.some.inj hm
  rcases loops_setLoop hother with ⟨rfl, rfl⟩ | ⟨hname, hother⟩
  · have hpolled := covers_polled hinj hvalid (hs monitor hmonitor other loop hloop)
      (hserved monitor hmonitor loop hloop).1 hget (pollMove_pollOnce ..) hkeep
    have hurl : ∀ polled, (loop.polled polled).url = loop.url := by
      intro polled
      cases polled <;> rfl
    simpa [UrlState.setFile, hurl] using hpolled
  · simpa [UrlState.setFile, Function.update_of_ne hname] using
      hs monitor hmonitor other otherLoop hother

theorem UrlState.Fresh.updateHead (hs : s.Fresh states sha)
    (h : urlStep sha root s (.updateHead name write) = some t) : t.Fresh states sha := by
  obtain ⟨monitor, loop, head, hmonitor, hloop, -, rfl⟩ := urlStep_updateHead h
  intro _ hm other otherLoop hother
  obtain rfl := Option.some.inj hm
  rcases loops_setLoop hother with ⟨rfl, rfl⟩ | ⟨-, hother⟩
  · exact hs monitor hmonitor other loop hloop
  · exact hs monitor hmonitor other otherLoop hother

theorem fresh_of_reach (hinj : Function.Injective sha) (hvalid : Validating states)
    (h : Reach (urlStep sha root) (fun s l => Served states s l ∧ Coherent s l)
      UrlState.Initial s) : s.Fresh states sha := by
  refine Reach.invariant (P := UrlState.Fresh states sha) (fun s hs monitor hm => ?_) ?_ h
  · exact absurd (hs.2.symm.trans hm) (by simp)
  · rintro s l t hs ⟨hserved, hok⟩ hstep
    cases l with
    | start configs write => exact hs.start hok hstep
    | poll name exchange => exact hs.poll hinj hvalid hserved hok hstep
    | updateHead name write => exact hs.updateHead hstep

/-- In every coherent run a poll that returns `Ok(None)` finds the body of the state that
answered its HEAD request in the file. -/
theorem upToDate_of_coherent (hinj : Function.Injective sha) (hvalid : Validating states)
    (h : Reach (urlStep sha root) (fun s l => Served states s l ∧ Coherent s l)
      UrlState.Initial s)
    {monitor : PolicyUrlMonitor} {name : String} {loop : Loop} {exchange : Exchange}
    (hmonitor : s.monitor = some monitor) (hloop : monitor.loops name = some loop)
    (hserved : Served states s (.poll name exchange))
    (hok : Coherent s (.poll name exchange))
    (hpoll : (pollOnce sha loop.url loop.currentHead exchange
      (s.files name (urlFileName loop.url))).2 = .upToDate) :
    ∃ answered, exchange.head = .success answered ∧
      s.files name (urlFileName loop.url) = some answered.body := by
  obtain ⟨hsame, hhash⟩ := fresh_of_reach hinj hvalid h monitor hmonitor name loop hloop
  obtain ⟨hget, -⟩ := hok monitor hmonitor loop hloop
  have hmove := pollMove_pollOnce sha loop.url loop.currentHead exchange
    (s.files name (urlFileName loop.url))
  generalize pollOnce sha loop.url loop.currentHead exchange
    (s.files name (urlFileName loop.url)) = result at hpoll hmove
  cases hmove with
  | refused message => cases hpoll
  | sameHead answered hhead hcurrent =>
      have hstate := (hserved monitor hmonitor loop hloop).1 answered
        (by simp [hhead, Response.state?])
      exact ⟨answered, hhead, hsame answered hstate hcurrent⟩
  | sameBody answered served hhead hnone hgot hequal =>
      have hbody := hget answered (by simp [hhead, Response.state?]) (by simp [hnone]) served
        (by simp [hgot, Response.state?])
      exact ⟨answered, hhead, by rw [hhash served.body hequal.symm, hbody]⟩
  | stored => cases hpoll
  | cut => cases hpoll

end Runs

def stateA : ServerState := ⟨[65], some "a", none⟩

def stateB : ServerState := ⟨[66], some "b", none⟩

def twoStates (_ : String) (state : ServerState) : Prop := state ∈ [stateA, stateB]

instance (url : String) : DecidablePred (twoStates url) := fun state => by
  unfold twoStates
  infer_instance

theorem validating_twoStates : Validating twoStates := by
  have hall : ∀ a ∈ [stateA, stateB], ∀ b ∈ [stateA, stateB], a.head ≠ none → a.head = b.head →
      a.body = b.body := by decide
  exact fun _ a b ha hb => hall a ha b hb

theorem initial_emptyStore : emptyStore.Initial := ⟨rfl, rfl⟩

def requests (a b : ServerState) : Exchange := ⟨.success a, .success b, none, .done⟩

def firewallView (s : UrlState) : Option (Option (String × String) × Option Body) :=
  s.monitor.map fun monitor =>
    ((monitor.loops "firewall").map fun loop => (loop.url, loop.currentHead),
      s.files "firewall" "rules")

theorem firewallView_eq_some {s : UrlState} {url head : String} {file : Option Body}
    (h : firewallView s = some (some (url, head), file)) :
    ∃ monitor loop, s.monitor = some monitor ∧ monitor.loops "firewall" = some loop ∧
      loop.url = url ∧ loop.currentHead = head ∧ s.files "firewall" "rules" = file := by
  obtain ⟨monitor, hmonitor, hview⟩ := Option.map_eq_some_iff.mp h
  obtain ⟨hloop, hfile⟩ := Prod.mk.inj hview
  obtain ⟨loop, hloop, htarget⟩ := Option.map_eq_some_iff.mp hloop
  obtain ⟨hurl, hhead⟩ := Prod.mk.inj htarget
  exact ⟨monitor, loop, hmonitor, hloop, hurl, hhead, hfile⟩

theorem served_requests_self (s : UrlState) :
    Served twoStates s (.poll "firewall" (requests stateB stateB)) := by
  intro _ _ loop _
  have hstate : ∀ state ∈ some stateB, twoStates loop.url state := by
    simp [twoStates]
  exact ⟨hstate, hstate⟩

/-- The policy is stored and its head recorded, and the service is restarted. -/
def restartRun : List UrlLabel :=
  [.start oldConfig .done, .poll "firewall" (requests stateB stateB),
    .updateHead "firewall" .done, .start oldConfig .done]

theorem upToDate_of_coherent_restartRun :
    ∃ s monitor loop, Reach (urlStep Text.latin1 "/etc/policies")
        (fun s l => Served twoStates s l ∧ Coherent s l) UrlState.Initial s ∧
      s.monitor = some monitor ∧ monitor.loops "firewall" = some loop ∧
      (pollOnce Text.latin1 loop.url loop.currentHead (requests stateB stateB)
        (s.files "firewall" (urlFileName loop.url))).2 = .upToDate ∧
      ∃ answered, (requests stateB stateB).head = .success answered ∧
        s.files "firewall" (urlFileName loop.url) = some answered.body := by
  have hrun : (run (fun s l => if Served twoStates s l ∧ Coherent s l then
      urlStep Text.latin1 "/etc/policies" s l else none) emptyStore restartRun).bind firewallView =
      some (some ("https://old/rules", "etag:b"), some [66]) := by
    decide +kernel
  obtain ⟨s, hs, hview⟩ := Option.bind_eq_some_iff.mp hrun
  have hreach := Reach.of_run (Reach.init initial_emptyStore) hs
  obtain ⟨monitor, loop, hmonitor, hloop, hurl, hhead, -⟩ := firewallView_eq_some hview
  have hpoll : pollOnce Text.latin1 loop.url loop.currentHead (requests stateB stateB)
      (s.files "firewall" (urlFileName loop.url)) =
        (s.files "firewall" (urlFileName loop.url), .upToDate) := by
    have hsame : stateB.head = some loop.currentHead := by
      rw [hhead]
      decide
    simp [pollOnce, requests, hsame]
  refine ⟨s, monitor, loop, hreach, hmonitor, hloop, by rw [hpoll], ?_⟩
  refine upToDate_of_coherent Text.latin1_injective validating_twoStates hreach hmonitor hloop
    (served_requests_self s) (fun monitor' hm loop' hl => ?_) (by rw [hpoll])
  obtain rfl := Option.some.inj (hmonitor.symm.trans hm)
  obtain rfl := Option.some.inj (hloop.symm.trans hl)
  refine ⟨fun answered ha _ served hg => ?_, Or.inr rfl⟩
  exact congrArg ServerState.body (Option.some.inj (hg.symm.trans ha))

/-- The server changes between the HEAD and the GET request. -/
def changedRun : List UrlLabel :=
  [.start oldConfig .done, .poll "firewall" (requests stateA stateB),
    .updateHead "firewall" .done]

/-- When the server has changed back, the policy is called up to date. -/
theorem upToDate_with_other_body :
    Validating twoStates ∧ ∃ s monitor loop,
      Reach (urlStep Text.latin1 "/etc/policies") (Served twoStates) UrlState.Initial s ∧
      s.monitor = some monitor ∧ monitor.loops "firewall" = some loop ∧
      pollOnce Text.latin1 loop.url loop.currentHead (requests stateA stateA)
        (s.files "firewall" (urlFileName loop.url)) = (some stateB.body, .upToDate) ∧
      stateA.body ≠ stateB.body := by
  have hrun : (run (fun s l => if Served twoStates s l then
      urlStep Text.latin1 "/etc/policies" s l else none) emptyStore changedRun).bind firewallView =
      some (some ("https://old/rules", "etag:a"), some [66]) := by
    decide +kernel
  obtain ⟨s, hs, hview⟩ := Option.bind_eq_some_iff.mp hrun
  obtain ⟨monitor, loop, hmonitor, hloop, hurl, hhead, hfile⟩ := firewallView_eq_some hview
  refine ⟨validating_twoStates, s, monitor, loop, Reach.of_run (Reach.init initial_emptyStore) hs,
    hmonitor, hloop, ?_, by decide⟩
  have hname : urlFileName "https://old/rules" = "rules" := by decide +kernel
  have hsame : stateA.head = some loop.currentHead := by
    rw [hhead]
    decide
  rw [hurl, hname, hfile]
  simp [pollOnce, requests, hsame, stateB]

end GhafGivc.Policy
