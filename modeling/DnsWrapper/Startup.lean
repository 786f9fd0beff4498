import DnsWrapper.Daemon
import DnsWrapper.RuleSessions
import DnsWrapper.UpstreamHosts

/-! From the files to the running daemon. The configuration names the servers and a file of rules,
the rules are read before the first datagram, and what the daemon does from then on is decided by
the list that the file left and the calls after it. -/
namespace DnsWrapper.Dns
open NetCommon Net Util Shm TextSplit
open Runs (run Admits)
open scoped List

/- What the property tree holds below main: the texts of its keys, and those that are numbers.
   It is empty after a file that cannot be parsed. -/
structure PropertyTree where
  string : List Char → Option (List Char)
  long : List Char → Option Int

def maxServers : Nat := 3

/- The family is the one that the patterns find. -/
def UpstreamServer.Recorded (server : UpstreamServer) : Prop :=
  getIpAddressType server.hostIp = server.protocolVersion ∧ server.protocolVersion ≠ .none

structure ConfigReader where
  dnsPort : UInt16
  ruleFile : List Char
  servers : List UpstreamServer

def dnsPort : Int := 53
def serverIp1 : List Char := "1.1.1.1".toList
def rulesFile : List Char := "/etc/dns-wrapper/rules.txt".toList

section Configuration
variable (tree : PropertyTree)

def getStringValue (key : String) (defValue : List Char) : List Char :=
  (tree.string key.toList).getD defValue

/- With the conversion to uint16_t. -/
def getPort (key : String) : UInt16 := UInt16.ofInt ((tree.long key.toList).getD dnsPort)

/- The second and the third server are there if they have a host. -/
def addOptional (hostKey portKey protocolKey : String) (servers : List UpstreamServer) :
    Except String (List UpstreamServer) :=
  let host := getStringValue tree hostKey []
  if host = [] then .ok servers
  else addServer servers host (getPort tree portKey) (getStringValue tree protocolKey "udp".toList)

/- ConfigReader::LoadConfiguration. -/
def loadConfiguration : Except String ConfigReader := do
  let servers ← addServer [] (getStringValue tree "serverIp1" serverIp1)
    (getPort tree "serverPort1") (getStringValue tree "protocol1" "udp".toList)
  let servers ← addOptional tree "serverIp2" "serverPort2" "protocol2" servers
  let servers ← addOptional tree "serverIp3" "serverPort3" "protocol3" servers
  pure ⟨getPort tree "dnsPort", getStringValue tree "ruleFile" rulesFile, servers⟩

end Configuration

/- How the start can end: an invalid_argument of the configuration, a line of the rules file that
   throws, a host that is no address. -/
inductive StartFailure where
  | config (what : String)
  | rules (stop : Stop)
  | host (hostIp : List Char)

/-- The endpoint of a configured server. -/
structure Made {inet : Inet} (make : MakeAddress inet) (server : UpstreamServer)
    (usi : UpstreamServerInfo Endpoint) : Prop where
  address : targetIP make server = .ok usi.endpoint.address
  port : usi.endpoint.port = server.port
  ipv4 : usi.ipv4 = decide (server.protocolVersion = .ipv4)
  stats : usi.stats = noStats

section Start
variable (inet : Inet) (make : MakeAddress inet) (toIndex : Token → Option Nat)
  (po : ProgramOptions) (canWrite : Token → Bool) (locals : List Nat → Locals) (streams : Streams)
  (depth : Nat)

/- The text of a file that can be opened for reading and writing. -/
def fileText (fileName : Token) (w : World) : Option (List Char) :=
  if canWrite fileName then w.files fileName else none

/- Without the file the daemon goes on without rules. -/
def loadRules (fileName : Token) (w : World) : Except Stop World :=
  match fileText canWrite fileName w with
  | none => .ok w
  | some text => (readFile streams (parseInner inet toIndex po canWrite locals streams depth [])
      fileName text w).map Prod.snd

/- The calls of the lines of that file. -/
def fileCalls (fileName : Token) (w : World) : List Call :=
  match fileText canWrite fileName w with
  | none => []
  | some text => streamCalls streams (innerCalls inet toIndex po canWrite locals streams depth [])
      (parseInner inet toIndex po canWrite locals streams depth []) fileName text w

/- The calls of the rules file on the fresh table. -/
def ConfigReader.calls (config : ConfigReader) (files : Token → Option (List Char)) : List Call :=
  fileCalls inet toIndex po canWrite locals streams depth config.ruleFile ⟨files, RuleData.zeroed⟩

/- Daemon::Initialize with the constructor of DnsServer in Daemon::Start; the shared memory is
   fresh. -/
def Daemon.startUp (tree : PropertyTree) (files : Token → Option (List Char)) :
    Except StartFailure (ConfigReader × Daemon) := do
  let config ← (loadConfiguration tree).mapError .config
  let w ← (loadRules inet toIndex po canWrite locals streams depth config.ruleFile
    ⟨files, RuleData.zeroed⟩).mapError .rules
  let servers ← (initUpstreamServers make config.servers).mapError .host
  pure (config, { Daemon.start servers with rules := w.rd })

variable {inet make toIndex po canWrite locals streams depth} {tree : PropertyTree}
  {config : ConfigReader}

theorem loadRules_reach {fileName : Token} {w w' : World}
    (h : loadRules inet toIndex po canWrite locals streams depth fileName w = .ok w') :
    Reach w.rd w'.rd (fileCalls inet toIndex po canWrite locals streams depth fileName w) := by
  rw [loadRules] at h
  rw [fileCalls]
  cases htext : fileText canWrite fileName w with
  | none =>
    rw [htext] at h
    cases h
    exact reach_nil _
  | some text =>
    simp only [htext] at h
    cases hread : readFile streams (parseInner inet toIndex po canWrite locals streams depth [])
        fileName text w with
    | error e =>
      rw [hread] at h
      cases h
    | ok x =>
      rw [hread] at h
      cases h
      exact readStream_reach (fun n line w code w' hline =>
        parseInner_reach (fun _ _ _ _ _ => parseIn_reach) hline) hread

theorem addServer_ok {servers servers' : List UpstreamServer} {host protocol : List Char}
    {port : UInt16} (h : addServer servers host port protocol = .ok servers') :
    ∃ server : UpstreamServer, servers' = servers ++ [server] ∧ server.Recorded := by
  unfold addServer at h
  split at h
  · cases h
  simp only at h
  split at h
  · cases h
  · rename_i hnone
    cases h
    exact ⟨_, rfl, rfl, hnone⟩

theorem addOptional_ok {servers servers' : List UpstreamServer}
    {hostKey portKey protocolKey : String}
    (h : addOptional tree hostKey portKey protocolKey servers = .ok servers') :
    ∃ more, servers' = servers ++ more ∧ more.length ≤ 1 ∧ ∀ server ∈ more, server.Recorded := by
  rw [addOptional] at h
  split_ifs at h with hhost
  · cases h
    exact ⟨[], (List.append_nil _).symm, Nat.zero_le _, fun server hs => by cases hs⟩
  · obtain ⟨server, heq, hrecorded⟩ := addServer_ok h
    exact ⟨[server], heq, Nat.le_refl _, List.forall_mem_singleton.mpr hrecorded⟩

/-- A configuration has one to three servers, each with a host that a pattern takes. -/
theorem loadConfiguration_servers (h : loadConfiguration tree = .ok config) :
    config.servers ≠ [] ∧ config.servers.length ≤ maxServers ∧
      ∀ server ∈ config.servers, server.Recorded := by
  obtain ⟨first, h₁, h⟩ := of_bind_ok h
  obtain ⟨second, h₂, h⟩ := of_bind_ok h
  obtain ⟨third, h₃, h⟩ := of_bind_ok h
  cases h
  obtain ⟨server, rfl, hrecorded⟩ := addServer_ok h₁
  obtain ⟨more, rfl, hlen, hmore⟩ := addOptional_ok h₂
  obtain ⟨more', rfl, hlen', hmore'⟩ := addOptional_ok h₃
  refine ⟨by simp, ?_, ?_⟩
  · simp only [List.length_append, List.length_nil, List.length_singleton, maxServers]
    omega
  · simp only [List.nil_append, List.forall_mem_append, List.forall_mem_singleton]
    exact ⟨⟨hrecorded, hmore⟩, hmore'⟩

/-- Every endpoint is that of a server over UDP; a server is left out if ToIpAddress refuses it. -/
theorem initUpstreamServers_made {servers : List UpstreamServer}
    {usis : List (UpstreamServerInfo Endpoint)} (h : initUpstreamServers make servers = .ok usis) :
    ∃ kept, kept <+ servers.filter (·.protocol = .udp) ∧ List.Forall₂ (Made make) kept usis := by
  induction servers generalizing usis with
  | nil =>
    cases h
    exact ⟨[], List.Sublist.refl _, .nil⟩
  | cons server rest ih =>
    rw [initUpstreamServers] at h
    split_ifs at h with htcp
    · obtain ⟨kept, hsub, hall⟩ := ih h
      exact ⟨kept, by simpa [htcp] using hsub, hall⟩
    have hudp : server.protocol = .udp := by
      cases hp : server.protocol with
      | tcp => exact absurd hp htcp
      | udp => rfl
    rw [List.filter_cons_of_pos (by simpa using hudp)]
    obtain ⟨address, haddress, h⟩ := of_bind_ok h
    simp only at h
    split at h
    · obtain ⟨kept, hsub, hall⟩ := ih h
      exact ⟨kept, hsub.cons _, hall⟩
    · obtain ⟨others, hothers, h⟩ := of_bind_ok h
      cases h
      obtain ⟨kept, hsub, hall⟩ := ih hothers
      exact ⟨server :: kept, hsub.cons_cons _, .cons ⟨haddress, rfl, rfl, rfl⟩ hall⟩

/- Calls on the table are calls on the daemon, between datagrams. -/
theorem calls_run {order : ByteOrder} {port : UInt16} {s : Daemon} {calls : List Call}
    {rd : RuleData} {outs : List Bool} (h : run RuleData.exec s.rules calls = some (rd, outs)) :
    ∃ sent, run (Daemon.step order port) s (calls.map .call) =
      some ({ s with rules := rd }, sent) := by
  induction calls generalizing s outs with
  | nil =>
    cases h
    exact ⟨[], rfl⟩
  | cons c calls ih =>
    obtain ⟨rd₁, o, outs', hexec, hrest, rfl⟩ := Runs.run_cons h
    obtain ⟨sent, hsent⟩ := ih (s := { s with rules := rd₁ }) hrest
    have hstep : s.step order port (.call c) = some ({ s with rules := rd₁ }, []) := by
      rw [Daemon.step, hexec, Option.map_some]
    exact ⟨[] :: sent, Runs.run_of_step hstep hsent⟩

theorem of_mapError_ok {α ε ε' : Type} {x : Except ε α} {f : ε → ε'} {a : α}
    (h : x.mapError f = .ok a) : x = .ok a := by
  cases x with
  | error e => cases h
  | ok b =>
    cases h
    rfl

/-- The daemon that Initialize leaves: the servers of its configuration, and the table after the
calls of its rules file. -/
theorem startUp_ok {files : Token → Option (List Char)} {s : Daemon}
    (h : Daemon.startUp inet make toIndex po canWrite locals streams depth tree files =
      .ok (config, s)) :
    ∃ (w : World) (servers : List (UpstreamServerInfo Endpoint)),
      loadConfiguration tree = .ok config ∧ initUpstreamServers make config.servers = .ok servers ∧
      Reach RuleData.zeroed w.rd (config.calls inet toIndex po canWrite locals streams depth files) ∧
      s = { Daemon.start servers with rules := w.rd } := by
  obtain ⟨config', hconfig, h⟩ := of_bind_ok h
  obtain ⟨w, hw, h⟩ := of_bind_ok h
  obtain ⟨servers, hservers, h⟩ := of_bind_ok h
  cases h
  exact ⟨w, servers, of_mapError_ok hconfig, of_mapError_ok hservers,
    loadRules_reach (of_mapError_ok hw), rfl⟩

end Start

section Started
variable (inet : Inet) (make : MakeAddress inet) (toIndex : Token → Option Nat)
  (po : ProgramOptions) (canWrite : Token → Bool) (locals : List Nat → Locals) (streams : Streams)
  (depth : Nat)

end Started

/- No configuration, and a rules file that clears the rules. -/
def emptyTree : PropertyTree := ⟨fun _ => none, fun _ => none⟩

def clearFile (fileName : Token) : Option (List Char) :=
  if fileName = rulesFile then some "clear".toList else none

def defaultConfig : ConfigReader := ⟨53, rulesFile, [⟨serverIp1, 53, .udp, .ipv4⟩]⟩

theorem emptyTree_config : loadConfiguration emptyTree = .ok defaultConfig := by
  have hfamily : getIpAddressType serverIp1 = .ipv4 := by decide +kernel
  have hport : UInt16.ofInt dnsPort = 53 := rfl
  simp [loadConfiguration, addServer, addOptional, getStringValue, getPort, emptyTree, hfamily,
    hport, defaultConfig, bind, Except.bind, pure, Except.pure]

theorem clearFile_rules (rd : RuleData) :
    loadRules posixInet (fun _ => none) plainOptions (fun _ => true) (fun _ => filled 0)
        (.buffered 2) 0 rulesFile ⟨clearFile, rd⟩ = .ok ⟨clearFile, rd.clearRules.2⟩ ∧
      fileCalls posixInet (fun _ => none) plainOptions (fun _ => true) (fun _ => filled 0)
        (.buffered 2) 0 rulesFile ⟨clearFile, rd⟩ = [.clearRules] := ⟨rfl, rfl⟩

theorem defaultConfig_servers :
    ∃ servers, initUpstreamServers posixMake defaultConfig.servers = .ok servers := by
  have htaken : Taken posixInet serverIp1 .ipv4 := by
    rw [Taken]
    decide +kernel
  have hall : ∀ server ∈ defaultConfig.servers, server.protocol = .udp →
      server.protocolVersion ≠ .none ∧ Taken posixInet server.hostIp server.protocolVersion := by
    intro server hs _
    rw [List.mem_singleton.mp hs]
    exact ⟨by decide, htaken⟩
  obtain ⟨servers, hservers, _⟩ := initUpstreamServers_all posixMake hall
  exact ⟨servers, hservers⟩

theorem clear_runs (order : ByteOrder) (port : UInt16) (s : Daemon) :
    run (Daemon.step order port) s [.call .clearRules] =
      some ({ s with rules := s.rules.clearRules.2 }, [[]]) := rfl

end DnsWrapper.Dns
