import Dowse.FirewallAgreement
import Dowse.RuleChains

/-!
# The commands that build the firewall

`dowse-start` flushes the filter table and fills it line by line: the loopback
rules, the open services, the rules for the stored things, the protection against
malformed packets and, unless the gateway runs on the loopback device only, the rules of
`loopback-isolate`. Every line `iptables ..` of these functions is one command here, in
the order of the script, and the table is what the commands leave.

How `iptables` reads an address argument is a parameter, since the addresses of the
things come from the store as they are. The buckets of `-m limit` and the list
of `-m recent` live in the kernel, so a packet comes with what they answer for it. The
redirection in the `nat` table is not part of the filter table.
-/
namespace Dowse.FirewallRules
open CStrings KeyedHashes ThingStore RuleChains
open ThingFirewall (Mac Switch)

inductive ConnState
  | new
  | established
  | related
  | invalid
  | untracked
  deriving DecidableEq, Repr

inductive Flag
  | SYN
  | ACK
  | FIN
  | RST
  | URG
  | PSH
  deriving DecidableEq, Repr

structure Flags where
  syn : Bool
  ack : Bool
  fin : Bool
  rst : Bool
  urg : Bool
  psh : Bool
  deriving DecidableEq, Repr

def Flags.has (f : Flags) : Flag → Bool
  | .SYN => f.syn
  | .ACK => f.ack
  | .FIN => f.fin
  | .RST => f.rst
  | .URG => f.urg
  | .PSH => f.psh

inductive Transport
  | tcp (sport dport : ℕ) (flags : Flags) (options : List ℕ)
  | udp (sport dport : ℕ)
  | icmp (type : ℕ)
  | other (number : ℕ)
  deriving DecidableEq, Repr

/-- The four rules with a bucket of their own. -/
inductive Limit
  | xmas
  | furtive
  | reset
  | echo
  deriving DecidableEq, Repr

/-- A packet at the filter table. The output interface is known where it is forwarded. The
MAC is written as the store writes it. -/
structure Packet (A : Type*) where
  inInterface : Text
  outInterface : Text
  source : A
  destination : A
  mac : Option Mac
  transport : Transport
  state : ConnState
  listed : Bool
  token : Limit → Bool

inductive Protocol
  | tcp
  | udp
  | icmp
  deriving DecidableEq, Repr

inductive Test
  | inInterface (name : Text)
  | outInterface (name : Text)
  | source (addr : Text)
  | destination (addr : Text)
  | macSource (mac : Mac)
  | protocol (proto : Protocol)
  | sport (lo hi : ℕ)
  | dport (lo hi : ℕ)
  | icmpType (type : ℕ)
  | state (states : List ConnState)
  | tcpFlags (mask comp : List Flag)
  | notSyn
  | tcpOption (kind : ℕ)
  | limit (bucket : Limit)
  | recent
  deriving DecidableEq, Repr

def Transport.protocol : Transport → Option Protocol
  | .tcp .. => some .tcp
  | .udp .. => some .udp
  | .icmp _ => some .icmp
  | .other _ => none

def Transport.sport : Transport → Option ℕ
  | .tcp sport _ _ _ => some sport
  | .udp sport _ => some sport
  | _ => none

def Transport.dport : Transport → Option ℕ
  | .tcp _ dport _ _ => some dport
  | .udp _ dport => some dport
  | _ => none

/-- `--tcp-flags mask comp`: among the flags of `mask` exactly those of `comp` are set. -/
def Flags.examine (f : Flags) (mask comp : List Flag) : Bool :=
  mask.all fun flag => f.has flag == decide (flag ∈ comp)

section
variable {A : Type*} (covers : Text → A → Bool)

def holds (p : Packet A) : Test → Bool
  | .inInterface name => p.inInterface = name
  | .outInterface name => p.outInterface = name
  | .source addr => covers addr p.source
  | .destination addr => covers addr p.destination
  | .macSource mac => p.mac = some mac
  | .protocol proto => p.transport.protocol = some proto
  | .sport lo hi => p.transport.sport.any fun port => lo ≤ port ∧ port ≤ hi
  | .dport lo hi => p.transport.dport.any fun port => lo ≤ port ∧ port ≤ hi
  | .icmpType type => p.transport = .icmp type
  | .state states => p.state ∈ states
  | .tcpFlags mask comp =>
      match p.transport with
      | .tcp _ _ flags _ => flags.examine mask comp
      | _ => false
  | .notSyn =>
      match p.transport with
      | .tcp _ _ flags _ => !flags.examine [.SYN, .RST, .ACK, .FIN] [.SYN]
      | _ => false
  | .tcpOption kind =>
      match p.transport with
      | .tcp _ _ _ options => kind ∈ options
      | _ => false
  | .limit bucket => p.token bucket
  | .recent => p.listed

end

inductive Builtin
  | INPUT
  | FORWARD
  | OUTPUT
  deriving DecidableEq, Repr

inductive User
  | TCP
  | ICMP
  deriving DecidableEq, Repr

abbrev FilterRule := Rule Test User

/-- The filter table. The chains of the kernel are always there. -/
@[ext] structure Tables where
  builtin : Builtin → List FilterRule
  user : User → Option (List FilterRule)
  policy : Builtin → Verdict

inductive Command
  | append (chain : Builtin) (rule : FilterRule)
  | appendUser (chain : User) (rule : FilterRule)
  | delete (chain : Builtin) (rule : FilterRule)
  | newChain (chain : User)
  | flushChain (chain : User)
  | flush
  | deleteChains
  | policy (chain : Builtin) (verdict : Verdict)
  deriving DecidableEq, Repr

/-- Some rule of the table jumps to the chain. -/
def Tables.calls (t : Tables) (u : User) : Bool :=
  ([.INPUT, .FORWARD, .OUTPUT].any fun b => (t.builtin b).any (·.target = .jump u)) ||
    [.TCP, .ICMP].any fun u' => ((t.user u').getD []).any (·.target = .jump u)

/-- One call of `iptables`; a call that fails changes nothing. `-X` deletes the chains
that are empty and that no rule names. -/
def iptables (t : Tables) : Command → Tables
  | .append chain rule =>
      { t with builtin := Function.update t.builtin chain (t.builtin chain ++ [rule]) }
  | .appendUser chain rule =>
      { t with user := Function.update t.user chain ((t.user chain).map (· ++ [rule])) }
  | .delete chain rule =>
      { t with builtin := Function.update t.builtin chain ((t.builtin chain).erase rule) }
  | .newChain chain =>
      { t with user := Function.update t.user chain (some ((t.user chain).getD [])) }
  | .flushChain chain =>
      { t with user := Function.update t.user chain ((t.user chain).map fun _ => []) }
  | .flush => { t with builtin := fun _ => [], user := fun u => (t.user u).map fun _ => [] }
  | .deleteChains =>
      { t with user := fun u => if t.user u = some [] ∧ t.calls u = false then none else t.user u }
  | .policy chain verdict => { t with policy := Function.update t.policy chain verdict }

def run (t : Tables) (cmds : List Command) : Tables := cmds.foldl iptables t

section
variable {A : Type*} (covers : Text → A → Bool)

def Tables.call (t : Tables) (p : Packet A) (u : User) : Option Verdict :=
  (t.user u).bind (walk (holds covers p) (fun _ => none))

/-- What becomes of a packet that comes to a chain of the kernel. -/
def Tables.verdict (t : Tables) (b : Builtin) (p : Packet A) : Verdict :=
  (walk (holds covers p) (t.call covers p) (t.builtin b)).getD (t.policy b)

end

structure Settings where
  interface : Text
  dowseNet : Text
  wan : Text

def lo : Text := "lo".toList

def localhost : Text := "127.0.0.1".toList

def localhost' : Text := "127.0.1.1".toList

def iptablesStop : List Command :=
  [.flushChain .TCP, .flushChain .ICMP, .flush, .deleteChains,
    .policy .INPUT .accept, .policy .FORWARD .accept, .policy .OUTPUT .accept]

def accepting (tests : List Test) : FilterRule := ⟨tests, .verdict .accept⟩

def dropping (tests : List Test) : FilterRule := ⟨tests, .verdict .drop⟩

def loopbackOn : List Command :=
  [.append .INPUT (accepting [.inInterface lo]),
    .append .FORWARD (accepting [.inInterface lo]),
    .append .INPUT (accepting [.source localhost]),
    .append .INPUT (accepting [.destination localhost]),
    .append .INPUT (accepting [.source localhost']),
    .append .INPUT (accepting [.destination localhost'])]

section
variable (cfg : Settings)

def acceptRule (ip : Text) (mac : Mac) : FilterRule :=
  accepting [.inInterface cfg.interface, .source ip, .macSource mac]

def dropRule (mac : Mac) : FilterRule :=
  dropping [.inInterface cfg.interface, .macSource mac]

/-- The two lines of `iptables-set-thing` for each position of the switch. -/
def switchCommands : Switch → Text → Mac → List Command
  | .on, ip, mac =>
      [.delete .FORWARD (dropRule cfg mac), .append .FORWARD (acceptRule cfg ip mac)]
  | .off, ip, mac =>
      [.delete .FORWARD (acceptRule cfg ip mac), .append .FORWARD (dropRule cfg mac)]

/-- The loop of `iptables-restore-things` for one key. -/
def restoreThing (things : Things Mac) (mac : Mac) : List Command :=
  match hget things mac .enableToBrowse, (hget things mac .ip4).getD [] with
  | some state, ip =>
      if ip = [] then []
      else if state = yes then switchCommands cfg .on ip mac
      else if state = no then switchCommands cfg .off ip mac
      else []
  | none, _ => []

def iptablesRestoreThings (things : Things Mac) (order : List Mac) : List Command :=
  order.flatMap (restoreThing cfg things)

/-- The policies and the rules for the services, before the things. -/
def startRules : List Command :=
  [.policy .OUTPUT .accept, .policy .INPUT .drop, .policy .FORWARD .drop,
    .append .INPUT
      (accepting [.inInterface cfg.interface, .protocol .udp, .dport 53 53]),
    .append .INPUT
      (accepting [.inInterface cfg.interface, .protocol .udp, .sport 67 68, .dport 67 68]),
    .append .INPUT
      (accepting [.inInterface cfg.interface, .protocol .icmp, .icmpType 8]),
    .append .INPUT (accepting [.protocol .tcp, .dport 80 80]),
    .append .INPUT (accepting [.protocol .tcp, .dport 22 22]),
    .append .INPUT (accepting [.protocol .tcp, .dport 29999 29999]),
    .append .INPUT (accepting [.protocol .tcp, .dport 1888 1888]),
    .append .OUTPUT (accepting [.state [.new], .outInterface cfg.interface]),
    .append .FORWARD (accepting [.state [.new], .outInterface cfg.interface]),
    .append .FORWARD (accepting [.state [.established, .related]]),
    .append .INPUT (accepting [.state [.established, .related]])]

/-- `iptables-start`, except for the line about the `nat` table. -/
def iptablesStart (things : Things Mac) (order : List Mac) : List Command :=
  startRules cfg ++ iptablesRestoreThings cfg things order

end

def allFlags : List Flag := [.SYN, .ACK, .FIN, .RST, .URG, .PSH]

/-- The rules that drop a combination of flags. -/
def badFlags (mask comp : List Flag) : FilterRule :=
  dropping [.protocol .tcp, .tcpFlags mask comp]

/-- The rules that let a combination of flags pass at a limited rate. -/
def limitFlags (mask comp : List Flag) (bucket : Limit) : FilterRule :=
  ⟨[.protocol .tcp, .tcpFlags mask comp, .limit bucket], .back⟩

def tcpRules : List FilterRule :=
  [⟨[.protocol .tcp, .tcpFlags [.SYN, .ACK] [.SYN, .ACK], .state [.new]], .verdict .reject⟩,
    dropping [.protocol .tcp, .notSyn, .state [.new]],
    dropping [.protocol .tcp, .state [.new], .recent],
    dropping [.protocol .tcp, .tcpOption 128],
    dropping [.protocol .tcp, .tcpOption 64],
    badFlags [.ACK, .FIN] [.FIN],
    badFlags [.ACK, .PSH] [.PSH],
    badFlags [.ACK, .URG] [.URG],
    badFlags [.FIN, .RST] [.FIN, .RST],
    badFlags [.SYN, .ACK, .FIN, .RST] [.RST],
    badFlags [.SYN, .FIN] [.SYN, .FIN],
    badFlags [.SYN, .RST] [.SYN, .RST],
    badFlags allFlags allFlags,
    badFlags allFlags [],
    badFlags allFlags [.FIN, .PSH, .URG],
    badFlags allFlags [.SYN, .FIN, .PSH, .URG],
    badFlags allFlags [.SYN, .RST, .ACK, .FIN, .URG],
    limitFlags allFlags [.FIN, .URG, .PSH] .xmas,
    badFlags allFlags [.FIN, .URG, .PSH],
    limitFlags [.SYN, .ACK, .FIN, .RST] [.RST] .furtive,
    badFlags [.SYN, .ACK, .FIN, .RST] [.RST],
    limitFlags [.RST] [.RST] .reset,
    badFlags [.RST] [.RST]]

def acceptType (type : ℕ) : FilterRule := accepting [.protocol .icmp, .icmpType type]

def icmpRules : List FilterRule :=
  [acceptType 0, acceptType 3, acceptType 4, acceptType 5,
    accepting [.protocol .icmp, .icmpType 8, .limit .echo],
    dropping [.protocol .icmp, .icmpType 8],
    acceptType 9, acceptType 11, acceptType 12,
    dropping [.protocol .icmp]]

def jumping (proto : Protocol) (chain : User) : FilterRule := ⟨[.protocol proto], .jump chain⟩

def iptablesBaseProtection : List Command :=
  [.newChain .TCP, .flushChain .TCP] ++ tcpRules.map (.appendUser .TCP) ++
  [.append .INPUT (jumping .tcp .TCP), .append .FORWARD (jumping .tcp .TCP),
    .newChain .ICMP, .flushChain .ICMP] ++ icmpRules.map (.appendUser .ICMP) ++
  [.append .INPUT (jumping .icmp .ICMP)]

def loopbackOnly (cfg : Settings) : Bool :=
  cfg.wan = "localhost".toList ∨ cfg.wan = localhost ∨ cfg.wan = localhost'

def loopbackIsolate (cfg : Settings) : List Command :=
  [.append .INPUT (accepting [.inInterface cfg.interface, .source cfg.dowseNet]),
    .append .INPUT (dropping [.inInterface cfg.interface, .destination localhost]),
    .append .INPUT (dropping [.inInterface cfg.interface, .source localhost]),
    .append .FORWARD (dropping [.inInterface cfg.interface, .source localhost]),
    .append .FORWARD (dropping [.inInterface cfg.interface, .destination localhost])]

/-- The lines of `dowse-start` about the firewall. -/
def dowseStart (cfg : Settings) (things : Things Mac) (order : List Mac) : List Command :=
  iptablesStop ++ loopbackOn ++ iptablesStart cfg things order ++ iptablesBaseProtection ++
    if loopbackOnly cfg then [] else loopbackIsolate cfg

end Dowse.FirewallRules
