import DnsWrapper.IpClassify
import DnsWrapper.Receive

/-! The upstream servers, from the configuration to their endpoints. ConfigReader::addServer asks
the patterns for the family of a host, initUpstreamServers asks inet_pton. -/
namespace DnsWrapper.Dns
open NetCommon Util Net

inductive Protocol where
  | tcp | udp
  deriving DecidableEq

structure UpstreamServer where
  hostIp : List Char
  port : UInt16
  protocol : Protocol
  protocolVersion : IpProtocolVersion
  deriving DecidableEq

/- ConfigReader::addServer; an error is the text of the std::invalid_argument. -/
def addServer (servers : List UpstreamServer) (host : List Char) (port : UInt16)
    (protocol : List Char) : Except String (List UpstreamServer) :=
  if protocol ≠ "udp".toList ∧ protocol ≠ "tcp".toList then .error "Invalid protocol value"
  else
    let ipv := getIpAddressType host
    if ipv = .none then .error "Invalid server value"
    else .ok (servers ++ [⟨host, port, if protocol = "udp".toList then .udp else .tcp, ipv⟩])

/- The family of an address, as the configuration records it. -/
def familyOf : WireAddress → IpProtocolVersion
  | .v4 _ => .ipv4
  | .v6 _ => .ipv6

/- make_address_v4 and make_address_v6 where they do not throw. They call inet_pton; the second
   one takes a scope as well. -/
structure MakeAddress (inet : Inet) where
  v4 : List Char → Option (Vector UInt8 4)
  v6 : List Char → Option (Vector UInt8 16)
  v4_of_pton : ∀ s v, inet.pton4 (cStr s) = some v → v4 s = some v
  v6_of_pton : ∀ s v, inet.pton6 (cStr s) = some v → v6 s = some v

section Init
variable {inet : Inet} (make : MakeAddress inet)

def noStats : ServerStats := ⟨0, 0, 0, 0, 0, 0⟩

/- The address of a server; the host is what the exception is about. -/
def targetIP (server : UpstreamServer) : Except (List Char) WireAddress :=
  if server.protocolVersion = .ipv4 then
    match make.v4 server.hostIp with
    | some v => .ok (.v4 v)
    | none => .error server.hostIp
  else
    match make.v6 server.hostIp with
    | some v => .ok (.v6 v)
    | none => .error server.hostIp

/- The loop of initUpstreamServers: TCP servers are skipped, and those ToIpAddress refuses. -/
def initUpstreamServers :
    List UpstreamServer → Except (List Char) (List (UpstreamServerInfo Endpoint))
  | [] => .ok []
  | server :: rest =>
    if server.protocol = .tcp then initUpstreamServers rest
    else do
      let address ← targetIP make server
      let ipv4 := decide (server.protocolVersion = .ipv4)
      match toIpAddress inet server.hostIp ipv4 ⟨Vector.replicate 16 0⟩ with
      | none => initUpstreamServers rest
      | some _ =>
        let servers ← initUpstreamServers rest
        pure (⟨⟨address, server.port⟩, ipv4, noStats⟩ :: servers)

/- A host that inet_pton takes as of the family. -/
def Taken (inet : Inet) (host : List Char) (family : IpProtocolVersion) : Prop :=
  (toIpAddress inet host (decide (family = .ipv4)) ⟨Vector.replicate 16 0⟩).isSome = true

theorem targetIP_of_taken {server : UpstreamServer} (hfamily : server.protocolVersion ≠ .none)
    (h : Taken inet server.hostIp server.protocolVersion) :
    ∃ address, targetIP make server = .ok address ∧ familyOf address = server.protocolVersion := by
  rw [Taken, toIpAddress] at h
  cases hversion : server.protocolVersion with
  | none => exact absurd hversion hfamily
  | ipv4 =>
    rw [hversion] at h
    simp only [decide_true, ↓reduceIte, Option.isSome_map] at h
    obtain ⟨v, hv⟩ := Option.isSome_iff_exists.mp h
    refine ⟨.v4 v, ?_, rfl⟩
    rw [targetIP, if_pos hversion, make.v4_of_pton _ _ hv]
  | ipv6 =>
    rw [hversion] at h
    simp only [reduceCtorEq, decide_false, Bool.false_eq_true, ↓reduceIte, Option.isSome_map] at h
    obtain ⟨v, hv⟩ := Option.isSome_iff_exists.mp h
    refine ⟨.v6 v, ?_, rfl⟩
    rw [targetIP, if_neg (by rw [hversion]; decide), make.v6_of_pton _ _ hv]

theorem initUpstreamServers_taken (server : UpstreamServer) (rest : List UpstreamServer)
    (hudp : server.protocol = .udp) (hfamily : server.protocolVersion ≠ .none)
    (h : Taken inet server.hostIp server.protocolVersion) :
    ∃ usi : UpstreamServerInfo Endpoint,
      familyOf usi.endpoint.address = server.protocolVersion ∧ usi.endpoint.port = server.port ∧
      initUpstreamServers make (server :: rest) =
        (initUpstreamServers make rest).map (usi :: ·) := by
  obtain ⟨address, haddress, hof⟩ := targetIP_of_taken make hfamily h
  obtain ⟨a, ha⟩ := Option.isSome_iff_exists.mp h
  refine ⟨⟨⟨address, server.port⟩, decide (server.protocolVersion = .ipv4), noStats⟩, hof, rfl, ?_⟩
  rw [initUpstreamServers, if_neg (by rw [hudp]; nofun), haddress]
  simp only [bind, Except.bind, ha]
  cases initUpstreamServers make rest <;> rfl

/- A server that ToIpAddress refuses gives no endpoint. -/
theorem initUpstreamServers_refused (server : UpstreamServer) (hudp : server.protocol = .udp)
    (h : ¬ Taken inet server.hostIp server.protocolVersion)
    {usis : List (UpstreamServerInfo Endpoint)}
    (hinit : initUpstreamServers make [server] = .ok usis) : usis = [] := by
  rw [Taken, Option.not_isSome_iff_eq_none] at h
  rw [initUpstreamServers, if_neg (by rw [hudp]; nofun)] at hinit
  cases haddress : targetIP make server with
  | error e =>
    rw [haddress] at hinit
    cases hinit
  | ok address =>
    rw [haddress] at hinit
    simp only [bind, Except.bind, h, initUpstreamServers] at hinit
    cases hinit
    rfl

/- Every server starts with zeroed statistics. -/
theorem initUpstreamServers_stats {servers : List UpstreamServer}
    {usis : List (UpstreamServerInfo Endpoint)} (h : initUpstreamServers make servers = .ok usis) :
    ∀ usi ∈ usis, usi.stats = noStats := by
  induction servers generalizing usis with
  | nil =>
    cases h
    exact nofun
  | cons server rest ih =>
    rw [initUpstreamServers] at h
    split at h
    · exact ih h
    · cases haddress : targetIP make server with
      | error e =>
        rw [haddress] at h
        cases h
      | ok address =>
        rw [haddress] at h
        simp only [bind, Except.bind] at h
        split at h
        · exact ih h
        · cases hrest : initUpstreamServers make rest with
          | error e =>
            rw [hrest] at h
            cases h
          | ok others =>
            rw [hrest] at h
            cases h
            exact List.forall_mem_cons.mpr ⟨rfl, ih hrest⟩

/-- A configuration of hosts that are taken gives an endpoint for each server over UDP, in order
and of the recorded family. -/
theorem initUpstreamServers_all {servers : List UpstreamServer}
    (h : ∀ server ∈ servers, server.protocol = .udp → server.protocolVersion ≠ .none ∧
      Taken inet server.hostIp server.protocolVersion) :
    ∃ usis, initUpstreamServers make servers = .ok usis ∧
      usis.map (fun usi => (familyOf usi.endpoint.address, usi.endpoint.port)) =
        (servers.filter (·.protocol = .udp)).map fun server =>
          (server.protocolVersion, server.port) := by
  induction servers with
  | nil => exact ⟨[], rfl, rfl⟩
  | cons server rest ih =>
    rw [List.forall_mem_cons] at h
    obtain ⟨usis, hrest, hmap⟩ := ih h.2
    cases hprotocol : server.protocol with
    | tcp => exact ⟨usis, by rw [initUpstreamServers, if_pos hprotocol, hrest], by simpa [hprotocol]⟩
    | udp =>
      obtain ⟨hfamily, htaken⟩ := h.1 hprotocol
      obtain ⟨usi, hof, hport, heq⟩ := initUpstreamServers_taken make server rest hprotocol hfamily htaken
      refine ⟨usi :: usis, by rw [heq, hrest]; rfl, ?_⟩
      simp [hprotocol, hof, hport, hmap]

end Init

/-- The two recognisers agree on a text: each family is recorded exactly for what ToIpAddress
takes as of that family, and so exactly for what becomes an endpoint of it. -/
structure HostsAgree {inet : Inet} (make : MakeAddress inet) (s : List Char) : Prop where
  v4 : ∀ before, getIpAddressType s = .ipv4 ↔ (toIpAddress inet s true before).isSome = true
  v6 : ∀ before, getIpAddressType s = .ipv6 ↔ (toIpAddress inet s false before).isSome = true
  server : ∀ servers port family, family ≠ .none →
    (addServer servers s port "udp".toList = .ok (servers ++ [⟨s, port, .udp, family⟩]) ↔
      ∃ usi, initUpstreamServers make [⟨s, port, .udp, family⟩] = .ok [usi] ∧
        familyOf usi.endpoint.address = family)

section Agree
variable {inet : Inet} {s : List Char}

theorem getIpAddressType_eq_ipv4 : getIpAddressType s = .ipv4 ↔ LooseQuad s := by
  rw [← ipRegex4_iff, getIpAddressType]
  split_ifs <;> simp [*]

theorem getIpAddressType_eq_ipv6 :
    getIpAddressType s = .ipv6 ↔ Groups 8 (s.splitOn ':') ∧ ¬ WithF s := by
  rw [← ipRegex6_iff, getIpAddressType]
  split_ifs with h4 h6
  · refine iff_of_false (by decide) fun h6 => ?_
    have hno := ipRegex4_of_ipv6 (ipv6_of_groups (ipRegex6_iff.mp h6).1)
    rw [hno] at h4
    cases h4
  · exact iff_of_true rfl h6
  · exact iff_of_false (by decide) h6

theorem toIpAddress_isSome (hinet : inet.Posix) (hs : '\x00' ∉ s) (before : IpAddress) :
    ((toIpAddress inet s true before).isSome = true ↔ Ipv4Text s) ∧
    ((toIpAddress inet s false before).isSome = true ↔ Ipv6Text s) := by
  rw [← hinet.accepts4, ← hinet.accepts6]
  simp [toIpAddress, cStr_of_notMem hs]

theorem addServer_udp (servers : List UpstreamServer) (port : UInt16) {family : IpProtocolVersion}
    (hfamily : family ≠ .none) :
    addServer servers s port "udp".toList = .ok (servers ++ [⟨s, port, .udp, family⟩]) ↔
      getIpAddressType s = family := by
  rw [addServer, if_neg (by simp)]
  by_cases hnone : getIpAddressType s = .none
  · simp [hnone, hfamily.symm]
  · simp [hnone]

/-- For every text without a NUL, the recognisers agree exactly if the text, where it is four
numbers up to 255 with one character in between each, is a dotted quad, and where it is an IPv6
address, has all eight groups in hexadecimal and no digit f. -/
theorem hostsAgree_iff (hinet : inet.Posix) (make : MakeAddress inet) (hs : '\x00' ∉ s) :
    HostsAgree make s ↔ (LooseQuad s → Ipv4Text s) ∧
      (Ipv6Text s → Groups 8 (s.splitOn ':') ∧ ¬ WithF s) := by
  have htake := toIpAddress_isSome hinet hs
  constructor
  · intro h
    constructor
    · intro hloose
      exact (htake ⟨Vector.replicate 16 0⟩).1.mp ((h.v4 _).mp (getIpAddressType_eq_ipv4.mpr hloose))
    · intro htext
      exact getIpAddressType_eq_ipv6.mp ((h.v6 _).mpr ((htake ⟨Vector.replicate 16 0⟩).2.mpr htext))
  · rintro ⟨h4, h6⟩
    have hv4 : getIpAddressType s = .ipv4 ↔ Ipv4Text s := by
      rw [getIpAddressType_eq_ipv4]
      exact ⟨h4, fun htext => ipRegex4_iff.mp (ipRegex4_of_ipv4 htext)⟩
    have hv6 : getIpAddressType s = .ipv6 ↔ Ipv6Text s := by
      rw [getIpAddressType_eq_ipv6]
      exact ⟨fun hgroups => ipv6_of_groups hgroups.1, h6⟩
    refine ⟨fun before => ?_, fun before => ?_, fun servers port family hfamily => ?_⟩
    · rw [hv4, (htake before).1]
    · rw [hv6, (htake before).2]
    · have hrecorded : getIpAddressType s = family ↔ Taken inet s family := by
        rw [Taken]
        cases family with
        | ipv4 => exact hv4.trans (htake _).1.symm
        | ipv6 => exact hv6.trans (htake _).2.symm
        | none => exact absurd rfl hfamily
      rw [addServer_udp servers port hfamily, hrecorded]
      constructor
      · intro htaken
        obtain ⟨usi, hof, _, heq⟩ :=
          initUpstreamServers_taken make ⟨s, port, .udp, family⟩ [] rfl hfamily htaken
        exact ⟨usi, heq, hof⟩
      · rintro ⟨usi, hinit, _⟩
        by_contra hno
        cases initUpstreamServers_refused make ⟨s, port, .udp, family⟩ rfl hno hinit

end Agree

def posixMake : MakeAddress posixInet where
  v4 s := posixInet.pton4 (cStr s)
  v6 s := posixInet.pton6 (cStr s)
  v4_of_pton _ _ h := h
  v6_of_pton _ _ h := h

/-- A dotted quad is recorded and becomes an endpoint. -/
theorem hostsAgree_iff_quad : Ipv4Text "9.9.9.9".toList ∧ HostsAgree posixMake "9.9.9.9".toList := by
  have htext : Ipv4Text "9.9.9.9".toList := by decide +kernel
  have hother : ¬ Ipv6Text "9.9.9.9".toList := by
    rw [← addressOf_isSome]
    decide +kernel
  exact ⟨htext, (hostsAgree_iff posixInet_posix posixMake (by decide)).mpr
    ⟨fun _ => htext, fun h => absurd h hother⟩⟩

/-- Four numbers with colons in between are recorded as IPv4; an IPv6 address with a gap is not
recorded at all, nor is one with a digit f. -/
theorem hosts_disagree :
    getIpAddressType "1:2:3:4".toList = .ipv4 ∧
    toIpAddress posixInet "1:2:3:4".toList true ⟨Vector.replicate 16 0⟩ = none ∧
    getIpAddressType "2001:db8::1".toList = .none ∧
    (toIpAddress posixInet "2001:db8::1".toList false ⟨Vector.replicate 16 0⟩).isSome = true ∧
    getIpAddressType "2001:db8:0:0:0:0:0:f".toList = .none ∧
    (toIpAddress posixInet "2001:db8:0:0:0:0:0:f".toList false ⟨Vector.replicate 16 0⟩).isSome =
      true ∧
    ¬ HostsAgree posixMake "1:2:3:4".toList ∧ ¬ HostsAgree posixMake "2001:db8::1".toList ∧
    ¬ HostsAgree posixMake "2001:db8:0:0:0:0:0:f".toList := by
  have hquad : getIpAddressType "1:2:3:4".toList = .ipv4 := by decide +kernel
  have hrefused : toIpAddress posixInet "1:2:3:4".toList true ⟨Vector.replicate 16 0⟩ = none := by
    decide +kernel
  have hgap : getIpAddressType "2001:db8::1".toList = .none := by decide +kernel
  have htaken : (toIpAddress posixInet "2001:db8::1".toList false
      ⟨Vector.replicate 16 0⟩).isSome = true := by decide +kernel
  have hf : getIpAddressType "2001:db8:0:0:0:0:0:f".toList = .none := by decide +kernel
  have htakenF : (toIpAddress posixInet "2001:db8:0:0:0:0:0:f".toList false
      ⟨Vector.replicate 16 0⟩).isSome = true := by decide +kernel
  refine ⟨hquad, hrefused, hgap, htaken, hf, htakenF, fun h => ?_, fun h => ?_, fun h => ?_⟩
  · have hsome := (h.v4 ⟨Vector.replicate 16 0⟩).mp hquad
    rw [hrefused] at hsome
    cases hsome
  · have htype := (h.v6 _).mpr htaken
    rw [hgap] at htype
    cases htype
  · have htype := (h.v6 _).mpr htakenF
    rw [hf] at htype
    cases htype

end DnsWrapper.Dns
