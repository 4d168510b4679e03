import GhafGivc.Core.Fallible
import GhafGivc.Core.Outcome

/-! # The address of a TLS peer

Over TCP the admin server and the agents both require that the address of the peer is
among the addresses in its certificate. The server compares typed addresses; the agents
compare byte slices, and take an IPv4 address and its IPv4-mapped IPv6 form for the same.
-/

namespace GhafGivc.Auth

open Core

inductive IpAddr where
  | v4 (octets : {b : List UInt8 // b.length = 4})
  | v6 (octets : {b : List UInt8 // b.length = 16})
deriving DecidableEq

def v4InV6Prefix : List UInt8 := [0, 0, 0, 0, 0, 0, 0, 0, 0, 0, 0xff, 0xff]

namespace IpAddr

def bytes : IpAddr → List UInt8
  | v4 octets => octets.1
  | v6 octets => octets.1

def ofBytes (b : List UInt8) : Option IpAddr :=
  if h : b.length = 4 then some (v4 ⟨b, h⟩)
  else if h : b.length = 16 then some (v6 ⟨b, h⟩)
  else none

/-- The other form of an IPv4 address, plain or IPv4-mapped. -/
def twin : IpAddr → Option IpAddr
  | v4 octets => some (v6 ⟨v4InV6Prefix ++ octets.1, by simp [v4InV6Prefix, octets.2]⟩)
  | v6 octets =>
      if octets.1.take 12 = v4InV6Prefix then
        some (v4 ⟨octets.1.drop 12, by simp [octets.2]⟩)
      else none

theorem ofBytes_bytes (ip : IpAddr) : ofBytes ip.bytes = some ip := by
  cases ip with
  | v4 octets => simp [ofBytes, bytes, octets.2]
  | v6 octets => simp [ofBytes, bytes, octets.2]

theorem ofBytes_eq_some {b : List UInt8} {ip : IpAddr} : ofBytes b = some ip ↔ b = ip.bytes := by
  constructor
  · intro h
    unfold ofBytes at h
    split at h
    · cases h
      rfl
    · split at h
      · cases h
        rfl
      · cases h
  · intro h
    rw [h, ofBytes_bytes]

end IpAddr

/-! ## Certificates -/

inductive GeneralName where
  | dnsName (name : String)
  | ipAddress (b : List UInt8)
  | other
deriving DecidableEq

inductive Extension where
  | subjectAlternativeName (names : List GeneralName)
  | other
deriving DecidableEq

def Extension.generalNames : Extension → List GeneralName
  | subjectAlternativeName names => names
  | other => []

/-- A certificate whose addresses have the length of an IPv4 or IPv6 address. -/
structure Certificate where
  extensions : List Extension
  lengths : ∀ b, .ipAddress b ∈ extensions.flatMap Extension.generalNames →
    b.length = 4 ∨ b.length = 16

def GeneralName.address : GeneralName → Option IpAddr
  | ipAddress b => IpAddr.ofBytes b
  | _ => none

def Certificate.addresses (cert : Certificate) : List IpAddr :=
  (cert.extensions.flatMap Extension.generalNames).filterMap GeneralName.address

variable {cert : Certificate} {ip : IpAddr} {b : List UInt8}

theorem Certificate.mem_addresses :
    ip ∈ cert.addresses ↔
      .ipAddress ip.bytes ∈ cert.extensions.flatMap Extension.generalNames := by
  unfold addresses
  rw [List.mem_filterMap]
  constructor
  · intro h
    rcases h with ⟨name, hin, heq⟩
    cases name with
    | dnsName name => cases heq
    | ipAddress b => exact IpAddr.ofBytes_eq_some.mp heq ▸ hin
    | other => cases heq
  · intro h
    exact ⟨_, h, ip.ofBytes_bytes⟩

inductive Code where
  | unauthenticated
  | permissionDenied
deriving DecidableEq

structure Status where
  code : Code
  message : String
deriving DecidableEq

/-! ## The admin server -/

structure SecurityInfo where
  enabled : Bool
  dnsNames : List String
  ipAddrs : List IpAddr
deriving DecidableEq

namespace SecurityInfo

def new : SecurityInfo := ⟨true, [], []⟩

def disabled : SecurityInfo := { new with enabled := false }

def checkAddress (info : SecurityInfo) (ia : IpAddr) : Bool :=
  !info.enabled || info.ipAddrs.any (· = ia)

def pushName (info : SecurityInfo) : GeneralName → SecurityInfo
  | .dnsName name => { info with dnsNames := info.dnsNames ++ [name] }
  | .ipAddress b =>
      match IpAddr.ofBytes b with
      | some ip => { info with ipAddrs := info.ipAddrs ++ [ip] }
      | none => info
  | .other => info

def tryFrom (cert : Certificate) : SecurityInfo :=
  cert.extensions.foldl (fun info ext => ext.generalNames.foldl pushName info) new

theorem foldl_pushName (info : SecurityInfo) (names : List GeneralName) :
    (names.foldl pushName info).enabled = info.enabled ∧
      (names.foldl pushName info).ipAddrs =
        info.ipAddrs ++ names.filterMap GeneralName.address := by
  induction names generalizing info with
  | nil => simp
  | cons name names ih =>
      rcases ih (info.pushName name) with ⟨henabled, haddrs⟩
      rw [List.foldl_cons, henabled, haddrs]
      cases name with
      | dnsName name => exact ⟨rfl, rfl⟩
      | ipAddress b =>
          cases hb : IpAddr.ofBytes b with
          | none => simp [pushName, GeneralName.address, hb]
          | some ip => simp [pushName, GeneralName.address, hb]
      | other => exact ⟨rfl, rfl⟩

theorem tryFrom_spec (cert : Certificate) :
    (tryFrom cert).enabled = true ∧ (tryFrom cert).ipAddrs = cert.addresses := by
  have hflat : tryFrom cert = (cert.extensions.flatMap Extension.generalNames).foldl pushName new :=
    List.foldl_flatMap.symm
  rw [hflat]
  exact foldl_pushName new _

theorem checkAddress_tryFrom {cert : Certificate} {ip : IpAddr} :
    (tryFrom cert).checkAddress ip = true ↔ ip ∈ cert.addresses := by
  simp [checkAddress, tryFrom_spec cert]

end SecurityInfo

inductive Transport where
  | tcp (remoteAddr : Option IpAddr)
  | other
deriving DecidableEq

/-- A certificate of the chain that cannot be parsed is `none`. -/
structure ConnectInfo where
  peerCerts : Option (List (Option Certificate))
  transport : Transport

structure HttpRequest where
  connectInfo : Option ConnectInfo

def securityInfoFromRequest (req : HttpRequest) : Except Status SecurityInfo :=
  match req.connectInfo.bind (·.peerCerts) with
  | none => .error ⟨.unauthenticated, "No peer certificate"⟩
  | some certs =>
      match certs.findSome? (·.map SecurityInfo.tryFrom) with
      | some info => .ok info
      | none => .error ⟨.unauthenticated, "Can't parse certificate"⟩

def transportInfoFromRequest (req : HttpRequest) : Option Transport :=
  req.connectInfo.map (·.transport)

/-- `Authenticator::intercept`; the request is passed on with the returned information. -/
def intercept (display : IpAddr → String) (useTls : Bool) (req : HttpRequest) :
    Except Status SecurityInfo :=
  if useTls then do
    let info ← securityInfoFromRequest req
    match transportInfoFromRequest req with
    | some (.tcp (some ip)) =>
        if info.checkAddress ip then .ok info
        else .error ⟨.permissionDenied, "IP " ++ display ip ++ " not in certificate SAN"⟩
    | some (.tcp none) => .error ⟨.unauthenticated, "Can't determine peer IP"⟩
    | some .other => .ok info
    | none => .error ⟨.unauthenticated, "No transport info"⟩
  else .ok SecurityInfo.disabled

/-! ## The agents -/

/-- `net.IP.Equal` -/
def ipEqual (ip x : List UInt8) : Bool :=
  if ip.length = x.length then ip = x
  else if ip.length = 4 ∧ x.length = 16 then x.take 12 = v4InV6Prefix ∧ ip = x.drop 12
  else if ip.length = 16 ∧ x.length = 4 then ip.take 12 = v4InV6Prefix ∧ ip.drop 12 = x
  else false

inductive Addr where
  | tcp (ip : List UInt8)
  | udp (ip : List UInt8)
  | other (network text : String)
deriving DecidableEq

def Addr.network : Addr → String
  | tcp _ => "tcp"
  | udp _ => "udp"
  | other network _ => network

/-- What is used of the packages `net` and `fmt`. -/
structure Net where
  splitHostPort : String → Except String String
  parseIP : String → Option (List UInt8)
  quote : String → String
  ipString : List UInt8 → String

def extractIPFromAddr (net : Net) : Option Addr → Except String (List UInt8)
  | none => .error "nil address"
  | some (.tcp ip) => .ok ip
  | some (.udp ip) => .ok ip
  | some (.other _ text) =>
      match net.splitHostPort text with
      | .error e =>
          match net.parseIP text with
          | some ip => .ok ip
          | none => .error ("cannot parse address " ++ net.quote text ++ ": " ++ e)
      | .ok host =>
          match net.parseIP host with
          | some ip => .ok ip
          | none => .error ("cannot parse IP from " ++ net.quote host)

def GeneralName.ipBytes : GeneralName → Option (List UInt8)
  | ipAddress b => some b
  | _ => none

def Certificate.ipAddresses (cert : Certificate) : List (List UInt8) :=
  (cert.extensions.flatMap Extension.generalNames).filterMap GeneralName.ipBytes

theorem Certificate.mem_ipAddresses :
    b ∈ cert.ipAddresses ↔ .ipAddress b ∈ cert.extensions.flatMap Extension.generalNames := by
  unfold ipAddresses
  rw [List.mem_filterMap]
  constructor
  · intro h
    rcases h with ⟨name, hin, heq⟩
    cases name with
    | dnsName name => cases heq
    | ipAddress c => exact Option.some.inj heq ▸ hin
    | other => cases heq
  · intro h
    exact ⟨_, h, rfl⟩

theorem Certificate.bytes_of_mem_ipAddresses (h : b ∈ cert.ipAddresses) :
    ∃ a : IpAddr, b = a.bytes := by
  cases cert.lengths b (mem_ipAddresses.mp h) with
  | inl h4 => exact ⟨.v4 ⟨b, h4⟩, rfl⟩
  | inr h16 => exact ⟨.v6 ⟨b, h16⟩, rfl⟩

def ipInCertSAN (cert : Certificate) (ip : List UInt8) : Bool :=
  cert.ipAddresses.any fun certIP => ipEqual certIP ip

structure Peer where
  addr : Option Addr
  tls : Option (List Certificate)

def verifyPeerIP (net : Net) (peer : Option Peer) (addr : Option Addr) : Outcome Status Unit :=
  match peer with
  | none => .err ⟨.unauthenticated, "no peer info available"⟩
  | some p =>
      match p.tls with
      | none => .ok ()
      | some [] => .err ⟨.unauthenticated, "no peer certificate provided"⟩
      | some (cert :: _) =>
          match addr with
          | none => .panicked
          | some a =>
              if a.network = "vsock" ∨ a.network = "unix" then .ok ()
              else
                match extractIPFromAddr net addr with
                | .error e => .err ⟨.unauthenticated, "cannot determine peer IP: " ++ e⟩
                | .ok ip =>
                    if ipInCertSAN cert ip then .ok ()
                    else .err ⟨.permissionDenied,
                      "peer IP " ++ net.ipString ip ++ " does not match any IP in certificate"⟩

/-- What both interceptors check before they call the handler. -/
def certIPVerify (net : Net) (peer : Option Peer) : Outcome Status Unit :=
  verifyPeerIP net peer (peer.bind (·.addr))

section Equal

variable {ip x : List UInt8}

theorem ipEqual_of_length_eq (h : ip.length = x.length) : ipEqual ip x = true ↔ ip = x := by
  simp [ipEqual, h]

end Equal

/-- Two addresses are equal to the agents when they are the same or each other's twins. -/
theorem ipEqual_bytes {a b : IpAddr} :
    ipEqual a.bytes b.bytes = true ↔ a = b ∨ b.twin = some a := by
  cases a with
  | v4 x =>
      cases b with
      | v4 y =>
          change ipEqual x.1 y.1 = true ↔ _
          rw [ipEqual_of_length_eq (x.2.trans y.2.symm)]
          simp [IpAddr.twin, Subtype.ext_iff]
      | v6 y =>
          change ipEqual x.1 y.1 = true ↔ _
          rw [show ipEqual x.1 y.1 = true ↔ y.1.take 12 = v4InV6Prefix ∧ x.1 = y.1.drop 12 by
            simp [ipEqual, x.2, y.2]]
          by_cases hy : y.1.take 12 = v4InV6Prefix
          · simp [IpAddr.twin, hy, Subtype.ext_iff, eq_comm]
          · simp [IpAddr.twin, hy]
  | v6 x =>
      cases b with
      | v4 y =>
          change ipEqual x.1 y.1 = true ↔ _
          rw [show ipEqual x.1 y.1 = true ↔ x.1.take 12 = v4InV6Prefix ∧ x.1.drop 12 = y.1 by
            simp [ipEqual, x.2, y.2]]
          have hsplit : v4InV6Prefix ++ y.1 = x.1 ↔
              x.1.take 12 = v4InV6Prefix ∧ x.1.drop 12 = y.1 := by
            constructor
            · intro h
              rw [← h]
              exact ⟨List.take_left' rfl, List.drop_left' rfl⟩
            · intro h
              rw [← h.1, ← h.2, List.take_append_drop]
          simp [IpAddr.twin, Subtype.ext_iff, hsplit]
      | v6 y =>
          change ipEqual x.1 y.1 = true ↔ _
          rw [ipEqual_of_length_eq (x.2.trans y.2.symm)]
          by_cases hy : y.1.take 12 = v4InV6Prefix
          · simp [IpAddr.twin, hy, Subtype.ext_iff]
          · simp [IpAddr.twin, hy, Subtype.ext_iff]

theorem ipInCertSAN_bytes :
    ipInCertSAN cert ip.bytes = true ↔
      ip ∈ cert.addresses ∨ ∃ q, ip.twin = some q ∧ q ∈ cert.addresses := by
  have hmem : ∀ a : IpAddr, a.bytes ∈ cert.ipAddresses ↔ a ∈ cert.addresses := by
    intro a
    rw [Certificate.mem_ipAddresses, Certificate.mem_addresses]
  unfold ipInCertSAN
  rw [List.any_eq_true]
  constructor
  · intro h
    rcases h with ⟨b, hb, hequal⟩
    rcases Certificate.bytes_of_mem_ipAddresses hb with ⟨a, rfl⟩
    have ha := (hmem a).mp hb
    cases ipEqual_bytes.mp hequal with
    | inl hsame => exact Or.inl (hsame ▸ ha)
    | inr htwin => exact Or.inr ⟨a, htwin, ha⟩
  · intro h
    rcases h with hin | ⟨q, htwin, hq⟩
    · exact ⟨ip.bytes, (hmem ip).mpr hin, ipEqual_bytes.mpr (Or.inl rfl)⟩
    · exact ⟨q.bytes, (hmem q).mpr hq, ipEqual_bytes.mpr (Or.inr htwin)⟩

/-! ## One rule or two -/

def serverRequest (cert : Certificate) (chain : List (Option Certificate)) (ip : IpAddr) :
    HttpRequest :=
  ⟨some ⟨some (some cert :: chain), .tcp (some ip)⟩⟩

def agentPeer (cert : Certificate) (chain : List Certificate) (ip : IpAddr) : Peer :=
  ⟨some (.tcp ip.bytes), some (cert :: chain)⟩

theorem intercept_accepts_iff {display : IpAddr → String} {chain : List (Option Certificate)} :
    (∃ info, intercept display true (serverRequest cert chain ip) = .ok info) ↔
      ip ∈ cert.addresses := by
  have hinfo : securityInfoFromRequest (serverRequest cert chain ip) =
      .ok (SecurityInfo.tryFrom cert) := rfl
  have hverdict : intercept display true (serverRequest cert chain ip) =
      if (SecurityInfo.tryFrom cert).checkAddress ip then .ok (SecurityInfo.tryFrom cert)
      else .error ⟨.permissionDenied, "IP " ++ display ip ++ " not in certificate SAN"⟩ := by
    unfold intercept
    rw [if_pos rfl, hinfo]
    rfl
  rw [hverdict, ← SecurityInfo.checkAddress_tryFrom]
  cases (SecurityInfo.tryFrom cert).checkAddress ip <;> simp

theorem certIPVerify_accepts_iff {net : Net} {chain : List Certificate} :
    certIPVerify net (some (agentPeer cert chain ip)) = .ok () ↔
      ip ∈ cert.addresses ∨ ∃ q, ip.twin = some q ∧ q ∈ cert.addresses := by
  have hverdict : certIPVerify net (some (agentPeer cert chain ip)) =
      if ipInCertSAN cert ip.bytes then .ok ()
      else .err ⟨.permissionDenied,
        "peer IP " ++ net.ipString ip.bytes ++ " does not match any IP in certificate"⟩ := by
    simp [certIPVerify, verifyPeerIP, agentPeer, Addr.network, extractIPFromAddr]
  rw [hverdict, ← ipInCertSAN_bytes]
  cases ipInCertSAN cert ip.bytes <;> simp

/-- What the server accepts the agents accept. The verdicts on a peer are the same exactly
when its certificate does not have the peer's address in the other form only. -/
theorem sameVerdict_iff (display : IpAddr → String) (net : Net) (cert : Certificate)
    (chain : List (Option Certificate)) (chain' : List Certificate) (ip : IpAddr) :
    (((∃ info, intercept display true (serverRequest cert chain ip) = .ok info) ↔
        certIPVerify net (some (agentPeer cert chain' ip)) = .ok ()) ↔
      ∀ q, ip.twin = some q → q ∈ cert.addresses → ip ∈ cert.addresses) ∧
    ((∃ info, intercept display true (serverRequest cert chain ip) = .ok info) →
      certIPVerify net (some (agentPeer cert chain' ip)) = .ok ()) := by
  rw [intercept_accepts_iff, certIPVerify_accepts_iff]
  constructor
  · constructor
    · intro hsame q htwin hq
      exact hsame.mpr (Or.inr ⟨q, htwin, hq⟩)
    · intro hforms
      constructor
      · exact Or.inl
      · intro haccepted
        rcases haccepted with hin | ⟨q, htwin, hq⟩
        · exact hin
        · exact hforms q htwin hq
  · exact Or.inl

def guiCertificate : Certificate where
  extensions := [.other, .subjectAlternativeName [.dnsName "gui-vm", .ipAddress [192, 168, 101, 2]]]
  lengths := by
    intro b hb
    have heq : b = [192, 168, 101, 2] := by simpa [Extension.generalNames] using hb
    exact Or.inl (heq ▸ rfl)

def mappedPeer : IpAddr :=
  .v6 ⟨[0, 0, 0, 0, 0, 0, 0, 0, 0, 0, 0xff, 0xff, 192, 168, 101, 2], rfl⟩

def plainPeer : IpAddr := .v4 ⟨[192, 168, 101, 2], rfl⟩

def bareNet : Net := ⟨.error, fun _ => none, id, fun _ => ""⟩

theorem sameVerdict_iff_plainPeer :
    (∃ info, intercept (fun _ => "") true (serverRequest guiCertificate [] plainPeer) = .ok info) ↔
      certIPVerify bareNet (some (agentPeer guiCertificate [] plainPeer)) = .ok () :=
  (sameVerdict_iff _ bareNet guiCertificate [] [] plainPeer).1.mpr fun _ _ _ =>
    List.mem_singleton.mpr rfl

/-- The server refuses the mapped form of an address that the agents accept. -/
theorem mappedPeer_verdicts_differ :
    intercept (fun _ => "") true (serverRequest guiCertificate [] mappedPeer) =
        .error ⟨.permissionDenied, "IP  not in certificate SAN"⟩ ∧
      certIPVerify bareNet (some (agentPeer guiCertificate [] mappedPeer)) = .ok () := by
  decide +kernel

end GhafGivc.Auth
