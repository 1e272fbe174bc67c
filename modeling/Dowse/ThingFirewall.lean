import Dowse.ThingStore
import Dowse.GuardedRuns

/-!
# The firewall and the switch that the panel shows

Whether a thing may browse is kept twice: as the field `enable_to_browse` of
its hash, and as a rule of the FORWARD chain that accepts its address and MAC or drops its
MAC. `iptables-set-thing` changes both and returns early where the field already
has the new value. The commands for all things set the field first, so that the early
return always fires and the chain is left behind. The addresses in the rules are
those of the time when the rule was made.

A `MAC` is a word without the separators of the shell code. `iptables -A` appends and
`-D` deletes the first equal rule.
-/
namespace Dowse.ThingFirewall
open CStrings KeyedHashes ThingStore GuardedRuns

structure Mac where
  text : Text
  word : text ≠ [] ∧ ∀ c ∈ text, c ∉ ['_', ',', ' ', '\t', '\n']
  deriving DecidableEq, Repr

/-- A rule for a thing, on the interface of the local network, or one of the
rules that stand in the chain from the start. -/
inductive Rule
  | accept (ip : Text) (mac : Mac)
  | drop (mac : Mac)
  | other (n : ℕ)
  deriving DecidableEq, Repr

structure State where
  things : Things Mac
  chain : List Rule

def State.flag (s : State) (mac : Mac) : Option Text := hget s.things mac .enableToBrowse

def State.ip4 (s : State) (mac : Mac) : Option Text := hget s.things mac .ip4

inductive Switch
  | on
  | off
  deriving DecidableEq, Repr

def Switch.value : Switch → Text
  | .on => yes
  | .off => no

/-- The two `iptables` commands that turn a thing on or off. -/
def switchRules : Switch → Text → Mac → List Rule → List Rule
  | .on, ip, mac, chain => chain.erase (.drop mac) ++ [.accept ip mac]
  | .off, ip, mac, chain => chain.erase (.accept ip mac) ++ [.drop mac]

/-- `iptables-set-thing`; a missing argument or a field that has the value already make
it return at once. -/
def iptablesSetThing (sw : Switch) (ip : Text) (mac : Mac) (s : State) : State :=
  if ip = [] then s
  else if s.flag mac = some sw.value then s
  else ⟨hset s.things mac .enableToBrowse sw.value, switchRules sw ip mac s.chain⟩

/-- The body of the loops of `ALL_THINGS_ON` and `ALL_THINGS_OFF` for one key. -/
def switchListed (sw : Switch) (s : State) (mac : Mac) : State :=
  let s : State := ⟨hset s.things mac .enableToBrowse sw.value, s.chain⟩
  iptablesSetThing sw ((s.ip4 mac).getD []) mac s

/-- The words of a line `CMD,<ip>,<action>,<epoch>,..` that `exec_next_cmd` acts on. The order
in which the server lists the things is given with the commands that ask for it. -/
inductive Command
  | thing (sw : Switch) (mac : Option Mac) (ip : Text)
  | allThingsOn (order : List Mac)
  | allThingsOff (ip : Text) (admin : Option Mac) (order : List Mac)
  | unknown

/-- `exec_next_cmd` with a line taken from the fifo. -/
def execNextCmd (s : State) : Command → State
  | .thing sw (some mac) ip => iptablesSetThing sw ip mac s
  | .thing _ none _ => s
  | .allThingsOn order => order.foldl (switchListed .on) s
  | .allThingsOff ip (some admin) order =>
      if ip = [] then s else (order.filter (· ≠ admin)).foldl (switchListed .off) s
  | .allThingsOff _ none _ => s
  | .unknown => s

/-- The loop of `iptables-restore-things` for one key. -/
def restoreThing (things : Things Mac) (chain : List Rule) (mac : Mac) : List Rule :=
  match hget things mac .enableToBrowse, (hget things mac .ip4).getD [] with
  | some state, ip =>
      if ip = [] then chain
      else if state = yes then switchRules .on ip mac chain
      else if state = no then switchRules .off ip mac chain
      else chain
  | none, _ => chain

/-- The chain as `iptables-start` leaves it, with the rules for the stored things. -/
def iptablesRestoreThings (things : Things Mac) (order : List Mac) (base : ℕ) : State :=
  ⟨things, order.foldl (restoreThing things) ((List.range base).map .other)⟩

inductive Event
  | command (c : Command)
  | pageNotFound (mac : Mac) (ip : Text) (now : ℕ)
  | discovered (mac : Mac) (ip : Text) (now : ℕ)

def Command.order : Command → Option (List Mac)
  | .allThingsOn order | .allThingsOff _ _ order => some order
  | _ => none

/-- One event. The server lists each key once, so a command with another order does not
occur. -/
def step (s : State) : Event → State
  | .command c =>
      if ∀ order ∈ c.order, order.Perm s.things.keys then execNextCmd s c else s
  | .pageNotFound mac ip now => ⟨resetUnlessEnabled Mac.text s.things mac ip now, s.chain⟩
  | .discovered mac ip now => ⟨fillThingInfo Mac.text s.things mac ip now false, s.chain⟩

/-- What the panel shows for the thing is what the chain does. -/
structure AgreesOn (s : State) (mac : Mac) : Prop where
  enabled : s.flag mac = some yes →
    ∃ ip, s.ip4 mac = some ip ∧ .accept ip mac ∈ s.chain ∧ .drop mac ∉ s.chain
  disabled : s.flag mac = some no → ∀ ip, .accept ip mac ∉ s.chain

def Agree (s : State) : Prop := ∀ mac, AgreesOn s mac

end Dowse.ThingFirewall
