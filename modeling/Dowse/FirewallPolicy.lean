import Dowse.FirewallRules

/-!
# What the started firewall lets through

The table that `dowse-start` leaves does not depend on what was there before. Packets for
the gateway itself are accepted exactly if they belong to one of five groups, and the rules
of `loopback-isolate` that drop loopback addresses decide about none, since such
packets were accepted at the top of the chain.

The FORWARD chain is the one of the agreement between firewall and panel, with
the rules that stand there from the start written out. So the runs of that model
are runs of the table.
-/
namespace Dowse.FirewallRules
open CStrings KeyedHashes ThingStore RuleChains GuardedRuns
open ThingFirewall (Mac Switch)

section Commands

/-- What a command does to one chain of the kernel. -/
def onBuiltin (b : Builtin) (rs : List FilterRule) : Command → List FilterRule
  | .append chain rule => if chain = b then rs ++ [rule] else rs
  | .delete chain rule => if chain = b then rs.erase rule else rs
  | .flush => []
  | _ => rs

/-- What a command other than `-X` does to a chain of the script. -/
def onUser (u : User) (rs : Option (List FilterRule)) : Command → Option (List FilterRule)
  | .appendUser chain rule => if chain = u then rs.map (· ++ [rule]) else rs
  | .newChain chain => if chain = u then some (rs.getD []) else rs
  | .flushChain chain => if chain = u then rs.map fun _ => [] else rs
  | .flush => rs.map fun _ => []
  | _ => rs

def onPolicy (b : Builtin) (v : Verdict) : Command → Verdict
  | .policy chain verdict => if chain = b then verdict else v
  | _ => v

theorem run_append (t : Tables) (cmds cmds' : List Command) :
    run t (cmds ++ cmds') = run (run t cmds) cmds' :=
  List.foldl_append

theorem update_apply_eq {α β : Type*} [DecidableEq α] (f : α → β) (a b : α) (v : β) :
    Function.update f a v b = if a = b then v else f b := by
  rw [Function.update_apply]
  exact if_congr eq_comm rfl rfl

theorem builtin_iptables (t : Tables) (cmd : Command) (b : Builtin) :
    (iptables t cmd).builtin b = onBuiltin b (t.builtin b) cmd := by
  cases cmd with
  | append chain rule =>
      simp only [iptables, onBuiltin, update_apply_eq]
      split_ifs with h
      · rw [h]
      · rfl
  | delete chain rule =>
      simp only [iptables, onBuiltin, update_apply_eq]
      split_ifs with h
      · rw [h]
      · rfl
  | _ => rfl

theorem user_iptables (t : Tables) {cmd : Command} (h : cmd ≠ .deleteChains) (u : User) :
    (iptables t cmd).user u = onUser u (t.user u) cmd := by
  cases cmd with
  | appendUser chain rule =>
      simp only [iptables, onUser, update_apply_eq]
      split_ifs with h
      · rw [h]
      · rfl
  | newChain chain =>
      simp only [iptables, onUser, update_apply_eq]
      split_ifs with h
      · rw [h]
      · rfl
  | flushChain chain =>
      simp only [iptables, onUser, update_apply_eq]
      split_ifs with h
      · rw [h]
      · rfl
  | deleteChains => exact absurd rfl h
  | _ => rfl

theorem policy_iptables (t : Tables) (cmd : Command) (b : Builtin) :
    (iptables t cmd).policy b = onPolicy b (t.policy b) cmd := by
  cases cmd with
  | policy chain verdict => exact update_apply_eq ..
  | _ => rfl

theorem builtin_run (t : Tables) (cmds : List Command) (b : Builtin) :
    (run t cmds).builtin b = cmds.foldl (onBuiltin b) (t.builtin b) :=
  (List.foldl_hom (fun t : Tables => t.builtin b) fun t cmd => (builtin_iptables t cmd b).symm).symm

theorem policy_run (t : Tables) (cmds : List Command) (b : Builtin) :
    (run t cmds).policy b = cmds.foldl (onPolicy b) (t.policy b) :=
  (List.foldl_hom (fun t : Tables => t.policy b) fun t cmd => (policy_iptables t cmd b).symm).symm

theorem user_run (t : Tables) {cmds : List Command} (h : .deleteChains ∉ cmds) (u : User) :
    (run t cmds).user u = cmds.foldl (onUser u) (t.user u) := by
  induction cmds generalizing t with
  | nil => rfl
  | cons cmd cmds ih =>
      obtain ⟨hcmd, hcmds⟩ := not_or.mp (mt List.mem_cons.mpr h)
      rw [List.foldl_cons, ← user_iptables t (Ne.symm hcmd)]
      exact ih _ hcmds

end Commands

/-- No rule, no chain of the script, and nothing is refused. -/
def flushed : Tables := ⟨fun _ => [], fun _ => none, fun _ => .accept⟩

theorem deleteChains_flush (t : Tables) :
    iptables (iptables t .flush) .deleteChains = { flushed with policy := t.policy } := by
  have hcalls : ∀ u, (iptables t .flush).calls u = false := by
    intro u
    cases htcp : t.user .TCP <;> cases hicmp : t.user .ICMP <;>
      simp [iptables, Tables.calls, htcp, hicmp]
  have huser : (iptables (iptables t .flush) .deleteChains).user = flushed.user := by
    funext u
    simp only [iptables] at hcalls ⊢
    simp only [hcalls]
    cases hu : t.user u <;> simp [flushed]
  exact congrArg (fun user => (⟨fun _ => [], user, t.policy⟩ : Tables)) huser

/-- `iptables-stop` forgets whatever the table held. -/
theorem run_iptablesStop (t : Tables) : run t iptablesStop = flushed := by
  have hpolicy : (run t iptablesStop).policy = flushed.policy := by
    funext b
    rw [policy_run]
    cases b <;> rfl
  simp only [run, iptablesStop, List.foldl_cons, List.foldl_nil, deleteChains_flush] at hpolicy ⊢
  exact congrArg (fun policy => (⟨fun _ => [], fun _ => none, policy⟩ : Tables)) hpolicy

section Started
variable (cfg : Settings)

def localRules : List FilterRule :=
  [accepting [.inInterface lo],
    accepting [.source localhost],
    accepting [.destination localhost],
    accepting [.source localhost'],
    accepting [.destination localhost']]

def serviceRules : List FilterRule :=
  [accepting [.inInterface cfg.interface, .protocol .udp, .dport 53 53],
    accepting [.inInterface cfg.interface, .protocol .udp, .sport 67 68, .dport 67 68],
    accepting [.inInterface cfg.interface, .protocol .icmp, .icmpType 8],
    accepting [.protocol .tcp, .dport 80 80],
    accepting [.protocol .tcp, .dport 22 22],
    accepting [.protocol .tcp, .dport 29999 29999],
    accepting [.protocol .tcp, .dport 1888 1888]]

/-- The rules of the INPUT chain before the protection. -/
def openRules : List FilterRule :=
  localRules ++ serviceRules cfg ++ [accepting [.state [.established, .related]]]

def isolatingRules : List FilterRule :=
  if loopbackOnly cfg then []
  else
    [accepting [.inInterface cfg.interface, .source cfg.dowseNet],
      dropping [.inInterface cfg.interface, .destination localhost],
      dropping [.inInterface cfg.interface, .source localhost]]

def inputRules : List FilterRule :=
  openRules cfg ++ [jumping .tcp .TCP, jumping .icmp .ICMP] ++ isolatingRules cfg

/-- The rules of the FORWARD chain that are about no thing. -/
def fixedRule : ℕ → FilterRule
  | 0 => accepting [.inInterface lo]
  | 1 => accepting [.state [.new], .outInterface cfg.interface]
  | 2 => accepting [.state [.established, .related]]
  | 3 => jumping .tcp .TCP
  | 4 => dropping [.inInterface cfg.interface, .source localhost]
  | _ => dropping [.inInterface cfg.interface, .destination localhost]

def forwardRule : ThingFirewall.Rule → FilterRule
  | .accept ip mac => acceptRule cfg ip mac
  | .drop mac => dropRule cfg mac
  | .other n => fixedRule cfg n

/-- The table with a FORWARD chain. -/
def tablesOf (chain : List ThingFirewall.Rule) : Tables where
  builtin
    | .INPUT => inputRules cfg
    | .FORWARD => chain.map (forwardRule cfg)
    | .OUTPUT => [accepting [.state [.new], .outInterface cfg.interface]]
  user
    | .TCP => some tcpRules
    | .ICMP => some icmpRules
  policy
    | .INPUT => .drop
    | .FORWARD => .drop
    | .OUTPUT => .accept

/-- The rules behind those of the stored things. -/
def laterRules : List ThingFirewall.Rule :=
  .other 3 :: if loopbackOnly cfg then [] else [.other 4, .other 5]

def started (things : Things Mac) (order : List Mac) : ThingFirewall.State :=
  ⟨things, (ThingFirewall.iptablesRestoreThings things order 3).chain ++ laterRules cfg⟩

variable {cfg}

variable (cfg) in
theorem macSource_notMem_fixedRule (n : ℕ) (mac : Mac) :
    .macSource mac ∉ (fixedRule cfg n).tests := by
  unfold fixedRule
  split <;> simp [accepting, dropping, jumping]

variable (cfg) in
/-- Deleting a rule for a thing is the same in both chains. -/
theorem map_erase_thing {r : ThingFirewall.Rule} (hr : ∀ n, r ≠ .other n)
    (chain : List ThingFirewall.Rule) :
    (chain.map (forwardRule cfg)).erase (forwardRule cfg r) =
      (chain.erase r).map (forwardRule cfg) := by
  have hinj : ∀ r', forwardRule cfg r' = forwardRule cfg r → r' = r := by
    intro r' heq
    cases r with
    | other n => exact absurd rfl (hr n)
    | accept ip mac =>
        cases r' with
        | accept ip' mac' => simpa [forwardRule, acceptRule, accepting] using heq
        | drop mac' => simp [forwardRule, acceptRule, dropRule, accepting, dropping] at heq
        | other n =>
            refine absurd ?_ (macSource_notMem_fixedRule cfg n mac)
            rw [show fixedRule cfg n = acceptRule cfg ip mac from heq]
            simp [acceptRule, accepting]
    | drop mac =>
        cases r' with
        | accept ip' mac' => simp [forwardRule, acceptRule, dropRule, accepting, dropping] at heq
        | drop mac' => simpa [forwardRule, dropRule, dropping] using heq
        | other n =>
            refine absurd ?_ (macSource_notMem_fixedRule cfg n mac)
            rw [show fixedRule cfg n = dropRule cfg mac from heq]
            simp [dropRule, dropping]
  induction chain with
  | nil => rfl
  | cons r' chain ih =>
      by_cases h : r' = r
      · rw [h, List.map_cons, List.erase_cons_head, List.erase_cons_head]
      · rw [List.map_cons, List.erase_cons_tail (by simpa using fun heq => h (hinj r' heq)),
          List.erase_cons_tail (by simpa using h), List.map_cons, ih]

theorem onBuiltin_switchCommands (sw : Switch) (ip : Text) (mac : Mac)
    (chain : List ThingFirewall.Rule) :
    (switchCommands cfg sw ip mac).foldl (onBuiltin .FORWARD) (chain.map (forwardRule cfg)) =
      (ThingFirewall.switchRules sw ip mac chain).map (forwardRule cfg) := by
  cases sw with
  | on =>
      have herase := map_erase_thing cfg (r := .drop mac) (by simp) chain
      simp only [switchCommands, ThingFirewall.switchRules, List.foldl_cons, List.foldl_nil,
        onBuiltin, if_true, List.map_append]
      exact congrArg (· ++ [acceptRule cfg ip mac]) herase
  | off =>
      have herase := map_erase_thing cfg (r := .accept ip mac) (by simp) chain
      simp only [switchCommands, ThingFirewall.switchRules, List.foldl_cons, List.foldl_nil,
        onBuiltin, if_true, List.map_append]
      exact congrArg (· ++ [dropRule cfg mac]) herase

theorem onBuiltin_restoreThing (things : Things Mac) (mac : Mac)
    (chain : List ThingFirewall.Rule) :
    (restoreThing cfg things mac).foldl (onBuiltin .FORWARD) (chain.map (forwardRule cfg)) =
      (ThingFirewall.restoreThing things chain mac).map (forwardRule cfg) := by
  unfold restoreThing ThingFirewall.restoreThing
  cases hget things mac .enableToBrowse with
  | none => rfl
  | some state =>
      dsimp only
      split_ifs
      · rfl
      · exact onBuiltin_switchCommands ..
      · exact onBuiltin_switchCommands ..
      · rfl

theorem onBuiltin_restoreThings (things : Things Mac) (order : List Mac)
    (chain : List ThingFirewall.Rule) :
    (iptablesRestoreThings cfg things order).foldl (onBuiltin .FORWARD)
        (chain.map (forwardRule cfg)) =
      (order.foldl (ThingFirewall.restoreThing things) chain).map (forwardRule cfg) := by
  induction order generalizing chain with
  | nil => rfl
  | cons mac order ih =>
      rw [iptablesRestoreThings, List.flatMap_cons, List.foldl_append, onBuiltin_restoreThing]
      exact ih _

/-- The commands for the things touch the FORWARD chain only. -/
theorem mem_restoreThings {things : Things Mac} {order : List Mac} {cmd : Command}
    (h : cmd ∈ iptablesRestoreThings cfg things order) :
    ∃ rule, cmd = .append .FORWARD rule ∨ cmd = .delete .FORWARD rule := by
  obtain ⟨mac, -, hcmd⟩ := List.mem_flatMap.mp h
  have hswitch : ∀ sw ip, cmd ∈ switchCommands cfg sw ip mac →
      ∃ rule, cmd = .append .FORWARD rule ∨ cmd = .delete .FORWARD rule := by
    intro sw ip hmem
    cases sw <;> rcases List.mem_pair.mp hmem with rfl | rfl
    · exact ⟨_, .inr rfl⟩
    · exact ⟨_, .inl rfl⟩
    · exact ⟨_, .inr rfl⟩
    · exact ⟨_, .inl rfl⟩
  unfold restoreThing at hcmd
  split at hcmd
  · split_ifs at hcmd
    · cases hcmd
    · exact hswitch _ _ hcmd
    · exact hswitch _ _ hcmd
    · cases hcmd
  · cases hcmd

/-- Commands that leave a view of the table alone. -/
theorem foldl_of_fixed {α β : Type*} {f : α → β → α} {a : α} {bs : List β}
    (h : ∀ b ∈ bs, f a b = a) : bs.foldl f a = a := by
  induction bs with
  | nil => rfl
  | cons b bs ih =>
      obtain ⟨hb, hbs⟩ := List.forall_mem_cons.mp h
      rw [List.foldl_cons, hb, ih hbs]

/-- The lines behind the things. -/
def lastCommands (cfg : Settings) : List Command :=
  iptablesBaseProtection ++ if loopbackOnly cfg then [] else loopbackIsolate cfg

theorem run_dowseStart_eq (t : Tables) (things : Things Mac) (order : List Mac) :
    run t (dowseStart cfg things order) =
      run (run (run flushed (loopbackOn ++ startRules cfg))
        (iptablesRestoreThings cfg things order)) (lastCommands cfg) := by
  simp only [dowseStart, iptablesStart, lastCommands, run_append, run_iptablesStop]

theorem builtin_dowseStart (t : Tables) (things : Things Mac) (order : List Mac) (b : Builtin) :
    (run t (dowseStart cfg things order)).builtin b =
      (tablesOf cfg (started cfg things order).chain).builtin b := by
  have hother : b ≠ .FORWARD →
      ∀ rs, (iptablesRestoreThings cfg things order).foldl (onBuiltin b) rs = rs := by
    intro hb rs
    refine foldl_of_fixed fun cmd hcmd => ?_
    obtain ⟨rule, rfl | rfl⟩ := mem_restoreThings hcmd
    · exact if_neg hb.symm
    · exact if_neg hb.symm
  rw [run_dowseStart_eq, builtin_run, builtin_run, builtin_run]
  cases b with
  | INPUT =>
      rw [hother (by decide)]
      simp only [lastCommands, tablesOf, inputRules, isolatingRules]
      cases loopbackOnly cfg <;> rfl
  | OUTPUT =>
      rw [hother (by decide)]
      simp only [lastCommands]
      cases loopbackOnly cfg <;> rfl
  | FORWARD =>
      have hfirst : (loopbackOn ++ startRules cfg).foldl (onBuiltin .FORWARD) [] =
          ((List.range 3).map ThingFirewall.Rule.other).map (forwardRule cfg) := rfl
      have hlast : ∀ rs, (lastCommands cfg).foldl (onBuiltin .FORWARD) rs =
          rs ++ (laterRules cfg).map (forwardRule cfg) := by
        intro rs
        rw [lastCommands, List.foldl_append,
          show iptablesBaseProtection.foldl (onBuiltin .FORWARD) rs = rs ++ [jumping .tcp .TCP]
            from rfl]
        cases h : loopbackOnly cfg
        · simp [laterRules, h, loopbackIsolate, onBuiltin, forwardRule, fixedRule]
        · simp [laterRules, h, forwardRule, fixedRule]
      rw [show flushed.builtin .FORWARD = [] from rfl, hfirst, onBuiltin_restoreThings, hlast,
        ← List.map_append]
      rfl

theorem user_dowseStart (t : Tables) (things : Things Mac) (order : List Mac) (u : User) :
    (run t (dowseStart cfg things order)).user u =
      (tablesOf cfg (started cfg things order).chain).user u := by
  have hfixed : (iptablesRestoreThings cfg things order).foldl (onUser u) none = none := by
    refine foldl_of_fixed fun cmd hcmd => ?_
    obtain ⟨rule, rfl | rfl⟩ := mem_restoreThings hcmd <;> rfl
  have hkept : .deleteChains ∉ iptablesRestoreThings cfg things order := by
    intro hcmd
    obtain ⟨rule, h | h⟩ := mem_restoreThings hcmd <;> cases h
  have hlast : .deleteChains ∉ lastCommands cfg := by
    unfold lastCommands
    cases loopbackOnly cfg <;>
      simp [iptablesBaseProtection, loopbackIsolate]
  have hfirst : .deleteChains ∉ loopbackOn ++ startRules cfg := by simp [loopbackOn, startRules]
  rw [run_dowseStart_eq, user_run _ hlast, user_run _ hkept, user_run _ hfirst,
    show (loopbackOn ++ startRules cfg).foldl (onUser u) (flushed.user u) = none from rfl, hfixed]
  unfold lastCommands
  cases loopbackOnly cfg <;> cases u <;> rfl

theorem policy_dowseStart (t : Tables) (things : Things Mac) (order : List Mac) (b : Builtin) :
    (run t (dowseStart cfg things order)).policy b =
      (tablesOf cfg (started cfg things order).chain).policy b := by
  have hfixed : ∀ v, (iptablesRestoreThings cfg things order).foldl (onPolicy b) v = v := by
    intro v
    refine foldl_of_fixed fun cmd hcmd => ?_
    obtain ⟨rule, rfl | rfl⟩ := mem_restoreThings hcmd <;> rfl
  rw [run_dowseStart_eq, policy_run, policy_run, policy_run, hfixed]
  unfold lastCommands
  cases loopbackOnly cfg <;> cases b <;> rfl

/-- The table after the start is the same whatever it was before. -/
theorem run_dowseStart (t : Tables) (things : Things Mac) (order : List Mac) :
    run t (dowseStart cfg things order) = tablesOf cfg (started cfg things order).chain :=
  Tables.ext (funext (builtin_dowseStart t things order))
    (funext (user_dowseStart t things order)) (funext (policy_dowseStart t things order))

/-- A switch of a thing is the same in the table and in the model of the agreement. -/
theorem run_switchCommands (sw : Switch) (ip : Text) (mac : Mac)
    (chain : List ThingFirewall.Rule) :
    run (tablesOf cfg chain) (switchCommands cfg sw ip mac) =
      tablesOf cfg (ThingFirewall.switchRules sw ip mac chain) := by
  refine Tables.ext (funext fun b => ?_) (funext fun u => ?_) (funext fun b => ?_)
  · rw [builtin_run]
    cases b with
    | FORWARD => exact onBuiltin_switchCommands sw ip mac chain
    | INPUT => cases sw <;> rfl
    | OUTPUT => cases sw <;> rfl
  · rw [user_run _ (by cases sw <;> simp [switchCommands])]
    cases sw <;> rfl
  · rw [policy_run]
    cases sw <;> rfl

end Started

section Verdicts
variable {A : Type*} {covers : Text → A → Bool} {p : Packet A}

/-- The flags of a packet that opens a connection. -/
def Flags.opening : Flags := ⟨true, false, false, false, false, false⟩

/-- The combinations that the chain TCP lets pass. A reset needs a token. -/
def Flags.Sane (f : Flags) (token : Bool) : Prop :=
  f = .opening ∨
    (f.ack ∧ ¬ (f.syn ∧ f.fin) ∧ ¬ (f.syn ∧ f.rst) ∧ ¬ (f.fin ∧ f.rst) ∧ (f.rst → token))

instance (f : Flags) (token : Bool) : Decidable (f.Sane token) := by
  unfold Flags.Sane
  infer_instance

def TcpPasses (p : Packet A) : Prop :=
  match p.transport with
  | .tcp _ _ flags options =>
      128 ∉ options ∧ 64 ∉ options ∧ flags.Sane (p.token .reset) ∧
        (p.state = .new → flags = .opening ∧ p.listed = false)
  | _ => True

/-- The combinations that the chain TCP drops, in its order. -/
def badCombinations : List (List Flag × List Flag) :=
  [([.ACK, .FIN], [.FIN]), ([.ACK, .PSH], [.PSH]), ([.ACK, .URG], [.URG]),
    ([.FIN, .RST], [.FIN, .RST]), ([.SYN, .ACK, .FIN, .RST], [.RST]),
    ([.SYN, .FIN], [.SYN, .FIN]), ([.SYN, .RST], [.SYN, .RST]), (allFlags, allFlags),
    (allFlags, []), (allFlags, [.FIN, .PSH, .URG]), (allFlags, [.SYN, .FIN, .PSH, .URG]),
    (allFlags, [.SYN, .RST, .ACK, .FIN, .URG])]

def Flags.Free (f : Flags) : Prop := ∀ c ∈ badCombinations, f.examine c.1 c.2 = false

instance (f : Flags) : Decidable f.Free := by
  unfold Flags.Free
  infer_instance

theorem sane_iff (f : Flags) (token : Bool) :
    f.Sane token ↔ f.Free ∧ (f.rst = true → token = true) := by
  obtain ⟨syn, ack, fin, rst, urg, psh⟩ := f
  revert syn ack fin rst urg psh token
  decide

theorem opening_iff {f : Flags} (h : f.Free) :
    f = .opening ↔ f.examine [.SYN, .ACK] [.SYN, .ACK] = false ∧
      f.examine [.SYN, .RST, .ACK, .FIN] [.SYN] = true := by
  obtain ⟨syn, ack, fin, rst, urg, psh⟩ := f
  revert syn ack fin rst urg psh
  decide

theorem examine_reset (f : Flags) : f.examine [.RST] [.RST] = f.rst := by
  simp [Flags.examine, Flags.has]

/-- The rules of the chain TCP before the limits. -/
theorem unhit_tcpRules {sport dport : ℕ} {f : Flags} {options : List ℕ}
    (hp : p.transport = .tcp sport dport f options) :
    (∀ r ∈ tcpRules.take 17, r.hit (holds covers p) = false) ↔
      128 ∉ options ∧ 64 ∉ options ∧ f.Free ∧
        (p.state = .new → f.examine [.SYN, .ACK] [.SYN, .ACK] = false ∧
          f.examine [.SYN, .RST, .ACK, .FIN] [.SYN] = true ∧ p.listed = false) := by
  simp only [tcpRules, dropping, badFlags, List.take_succ_cons, List.take_zero, List.mem_cons,
    List.not_mem_nil, or_false, Rule.hit, List.all_eq_false, holds, Transport.protocol, hp,
    reduceCtorEq, Bool.not_eq_true, forall_eq_or_imp, exists_eq_or_imp, decide_true,
    Bool.true_eq_false, exists_eq_left, decide_eq_false_iff_not, false_or,
    Bool.not_eq_eq_eq_not, Bool.not_false, forall_eq, Flags.Free, badCombinations]
  tauto

/-- Behind them a combination is known that the first two limits would let pass, so only
the last one decides. -/
theorem walk_limits {sport dport : ℕ} {f : Flags} {options : List ℕ}
    (hp : p.transport = .tcp sport dport f options) (h : f.Free) (call : User → Option Verdict) :
    walk (holds covers p) call (tcpRules.drop 17) = none ↔
      (f.rst = true → p.token .reset = true) := by
  have hxmas : f.examine allFlags [.FIN, .URG, .PSH] = false :=
    h (allFlags, [.FIN, .PSH, .URG]) (by decide)
  have hfurtive : f.examine [.SYN, .ACK, .FIN, .RST] [.RST] = false :=
    h ([.SYN, .ACK, .FIN, .RST], [.RST]) (by decide)
  have hreset := examine_reset f
  cases hrst : f.rst <;> cases htoken : p.token .reset <;>
    simp [tcpRules, walk, Rule.hit, holds, hp, dropping, badFlags, limitFlags,
      Transport.protocol, hxmas, hfurtive, hreset, hrst, htoken]

theorem walk_tcpRules (call : User → Option Verdict) :
    walk (holds covers p) call tcpRules = none ↔ TcpPasses p := by
  have hsplit : tcpRules = tcpRules.take 17 ++ tcpRules.drop 17 := rfl
  rw [hsplit, walk_append (by decide), Option.or_eq_none_iff,
    walk_eq_none_iff (by simp [tcpRules, dropping, badFlags])]
  cases hp : p.transport with
  | tcp sport dport f options =>
      rw [unhit_tcpRules hp]
      simp only [TcpPasses, hp, sane_iff]
      constructor
      · rintro ⟨⟨h128, h64, hfree, hnew⟩, hlimits⟩
        exact ⟨h128, h64, ⟨hfree, (walk_limits hp hfree call).mp hlimits⟩, fun hst =>
          ⟨(opening_iff hfree).mpr ⟨(hnew hst).1, (hnew hst).2.1⟩, (hnew hst).2.2⟩⟩
      · rintro ⟨h128, h64, ⟨hfree, hreset⟩, hnew⟩
        refine ⟨⟨h128, h64, hfree, fun hst => ?_⟩, (walk_limits hp hfree call).mpr hreset⟩
        obtain ⟨hopening, hlisted⟩ := hnew hst
        obtain ⟨hack, hsyn⟩ := (opening_iff hfree).mp hopening
        exact ⟨hack, hsyn, hlisted⟩
  | _ =>
      simp [TcpPasses, hp, tcpRules, Rule.hit, holds, walk, dropping, badFlags, limitFlags,
        Transport.protocol]

theorem walk_tcpRules_ne (call : User → Option Verdict) :
    walk (holds covers p) call tcpRules ≠ some .accept := by
  have htargets : ∀ r ∈ tcpRules, r.target ∈ [.verdict .drop, .verdict .reject, .back] := by decide
  intro h
  obtain ⟨r, hr, -, htarget | ⟨c, htarget, -⟩⟩ := exists_of_walk h
  · have hmem := htargets r hr
    rw [htarget] at hmem
    simp at hmem
  · have hmem := htargets r hr
    rw [htarget] at hmem
    simp at hmem

/-- The messages that the chain ICMP accepts. A request needs a token. -/
def IcmpAllowed (p : Packet A) : Prop :=
  match p.transport with
  | .icmp type => type ∈ [0, 3, 4, 5, 9, 11, 12] ∨ (type = 8 ∧ p.token .echo = true)
  | _ => False

instance : Decidable (IcmpAllowed p) := by
  unfold IcmpAllowed
  split <;> infer_instance

/-- The chain ICMP has a verdict for every message. -/
theorem walk_icmpRules {type : ℕ} (hp : p.transport = .icmp type)
    (call : User → Option Verdict) :
    walk (holds covers p) call icmpRules =
      some (if IcmpAllowed p then .accept else .drop) := by
  simp only [icmpRules, acceptType, accepting, dropping, walk_verdict, List.all_cons,
    List.all_nil, holds, hp, Transport.protocol, IcmpAllowed]
  by_cases h8 : type = 8
  · subst h8
    cases p.token .echo <;> rfl
  · simp only [Transport.icmp.injEq, h8, decide_true, decide_false, Bool.true_and, Bool.and_true,
      Bool.false_and, Bool.false_eq_true, false_and, or_false, if_false, List.mem_cons,
      List.not_mem_nil, decide_eq_true_eq, if_true]
    split_ifs <;> simp_all

section Input
variable (cfg : Settings)

/-- The packet stays on the gateway, or its addresses say so. -/
def Local (covers : Text → A → Bool) (p : Packet A) : Prop :=
  p.inInterface = lo ∨ covers localhost p.source ∨ covers localhost p.destination ∨
    covers localhost' p.source ∨ covers localhost' p.destination

/-- The packet is for one of the open services. -/
def Service (p : Packet A) : Prop :=
  match p.transport with
  | .tcp _ dport _ _ => dport ∈ [80, 22, 29999, 1888]
  | .udp sport dport =>
      p.inInterface = cfg.interface ∧
        (dport = 53 ∨ ((67 ≤ sport ∧ sport ≤ 68) ∧ 67 ≤ dport ∧ dport ≤ 68))
  | .icmp type => p.inInterface = cfg.interface ∧ type = 8
  | .other _ => False

def Known (p : Packet A) : Prop := p.state = .established ∨ p.state = .related

/-- The packet comes from the local network, and the protection has nothing against it. -/
def FromNet (covers : Text → A → Bool) (p : Packet A) : Prop :=
  loopbackOnly cfg = false ∧ p.inInterface = cfg.interface ∧ covers cfg.dowseNet p.source ∧
    TcpPasses p ∧ p.transport.protocol ≠ some .icmp

theorem hit_localRules :
    (∃ r ∈ localRules, r.hit (holds covers p) = true) ↔ Local covers p := by
  simp [localRules, Local, accepting, Rule.hit, holds]

theorem hit_serviceRules :
    (∃ r ∈ serviceRules cfg, r.hit (holds covers p) = true) ↔ Service cfg p := by
  have hport : ∀ port n : ℕ, n ≤ port ∧ port ≤ n ↔ port = n :=
    fun port n => ⟨fun h => h.2.antisymm h.1, fun h => ⟨h.ge, h.le⟩⟩
  unfold Service
  cases hp : p.transport <;>
    simp [serviceRules, accepting, Rule.hit, holds, hp, Transport.protocol, Transport.dport,
      Transport.sport, hport, and_or_left]

theorem hit_known :
    (accepting [.state [.established, .related]] : FilterRule).hit (holds covers p) = true ↔
      Known p := by
  simp [accepting, Rule.hit, holds, Known]

theorem hit_openRules :
    (∃ r ∈ openRules cfg, r.hit (holds covers p) = true) ↔
      Local covers p ∨ Service cfg p ∨ Known p := by
  simp only [openRules, List.mem_append, or_and_right, exists_or, hit_localRules, hit_serviceRules,
    List.mem_singleton, exists_eq_left, hit_known, or_assoc]

variable (covers p) in
theorem call_tcp (chain : List ThingFirewall.Rule) :
    (tablesOf cfg chain).call covers p .TCP = none ↔ TcpPasses p :=
  walk_tcpRules _

variable (covers p) in
theorem walk_isolatingRules (call : User → Option Verdict) :
    walk (holds covers p) call (isolatingRules cfg) = some .accept ↔
      loopbackOnly cfg = false ∧ p.inInterface = cfg.interface ∧ covers cfg.dowseNet p.source := by
  unfold isolatingRules
  cases loopbackOnly cfg
  · simp only [Bool.false_eq_true, if_false, accepting, dropping, walk_verdict, List.all_cons,
      List.all_nil, holds, Bool.and_true, walk_nil, Bool.and_eq_true, decide_eq_true_eq,
      true_and]
    split_ifs <;> simp_all
  · simp

variable (covers p) in
theorem walk_protectedRules (chain : List ThingFirewall.Rule) :
    walk (holds covers p) ((tablesOf cfg chain).call covers p)
        ([jumping .tcp .TCP, jumping .icmp .ICMP] ++ isolatingRules cfg) = some .accept ↔
      IcmpAllowed p ∨ FromNet cfg covers p := by
  have hrest := walk_isolatingRules covers p cfg ((tablesOf cfg chain).call covers p)
  have htcp := call_tcp covers p cfg chain
  simp only [jumping, List.cons_append, List.nil_append, walk_jump, List.all_cons, List.all_nil,
    holds, Bool.and_true, decide_eq_true_eq]
  cases hp : p.transport with
  | tcp sport dport f options =>
      have hicmp : ¬ IcmpAllowed p := by simp [IcmpAllowed, hp]
      by_cases hpass : TcpPasses p
      · rw [htcp.mpr hpass]
        simpa [Transport.protocol, hicmp, FromNet, hp, hpass] using hrest
      · obtain ⟨v, hv⟩ := Option.ne_none_iff_exists'.mp (mt htcp.mp hpass)
        have hne : v ≠ .accept := fun h => walk_tcpRules_ne _ (h ▸ hv)
        simp [Transport.protocol, hv, hne, hicmp, FromNet, hpass]
  | icmp type =>
      have hcall : (tablesOf cfg chain).call covers p .ICMP =
          some (if IcmpAllowed p then .accept else .drop) := walk_icmpRules hp _
      rw [hcall]
      by_cases hallowed : IcmpAllowed p <;> simp [Transport.protocol, hallowed, FromNet, hp]
  | _ =>
      have hpass : TcpPasses p := by simp [TcpPasses, hp]
      simpa [Transport.protocol, IcmpAllowed, hp, FromNet, hpass] using hrest

/-- What the gateway accepts for itself, whatever the table was before the start. -/
theorem input_policy (t : Tables) (things : Things Mac) (order : List Mac) :
    (run t (dowseStart cfg things order)).verdict covers .INPUT p = .accept ↔
      Local covers p ∨ Service cfg p ∨ Known p ∨ IcmpAllowed p ∨ FromNet cfg covers p := by
  have haccept : ∀ r ∈ openRules cfg, r.target = .verdict .accept := by
    simp [openRules, localRules, serviceRules, accepting]
  have hrest := walk_protectedRules covers p cfg (started cfg things order).chain
  rw [run_dowseStart]
  change (walk _ _ (inputRules cfg)).getD .drop = .accept ↔ _
  rw [Option.getD_eq_iff, inputRules, List.append_assoc,
    walk_append fun r hr => by simp [haccept r hr], walk_uniform haccept,
    Option.or_eq_some_iff, hrest]
  by_cases hopen : ∃ r ∈ openRules cfg, r.hit (holds covers p) = true
  · have hopen' := (hit_openRules cfg).mp hopen
    simp only [if_pos hopen, true_or, true_iff]
    tauto
  · have hopen' := mt (hit_openRules cfg).mpr hopen
    simp only [not_or] at hopen'
    simp [if_neg hopen, hopen']

end Input

section Forward
variable (cfg : Settings)

/-- The packet is forwarded whoever sent it: it comes from the loopback device, opens a
connection towards the local network, or belongs to a known one. -/
def Passes (p : Packet A) : Prop :=
  p.inInterface = lo ∨ (p.state = .new ∧ p.outInterface = cfg.interface) ∨ Known p

/-- The packet comes from an enabled thing at its stored address. -/
def Browses (covers : Text → A → Bool) (s : ThingFirewall.State) (p : Packet A) : Prop :=
  p.inInterface = cfg.interface ∧ ∃ mac ip, p.mac = some mac ∧ s.flag mac = some yes ∧
    s.ip4 mac = some ip ∧ covers ip p.source

/-- The rules between those of the stored things and those of later commands do not
refuse the packet. -/
def Shielded (covers : Text → A → Bool) (p : Packet A) : Prop :=
  TcpPasses p ∧ (loopbackOnly cfg = false →
    covers localhost p.source = false ∧ covers localhost p.destination = false)

/-- The chain is three rules that accept, and behind them rules for things and the later
ones of the start. -/
def Shaped (chain : List ThingFirewall.Rule) : Prop :=
  ∃ rest, chain = [.other 0, .other 1, .other 2] ++ rest ∧ ∀ n, .other n ∈ rest →
    .other n ∈ laterRules cfg

variable {cfg}

theorem Shaped.switchRules {chain : List ThingFirewall.Rule} (h : Shaped cfg chain) (sw : Switch)
    (ip : Text) (mac : Mac) : Shaped cfg (ThingFirewall.switchRules sw ip mac chain) := by
  obtain ⟨rest, rfl, hrest⟩ := h
  have hkept : ∀ r r' : ThingFirewall.Rule, ∀ n, .other n ∈ rest.erase r ++ [r'] →
      (∀ m, r' ≠ .other m) → .other n ∈ laterRules cfg := by
    intro r r' n hmem hr'
    rcases List.mem_append.mp hmem with hold | hnew
    · exact hrest n (List.mem_of_mem_erase hold)
    · exact absurd (List.mem_singleton.mp hnew).symm (hr' n)
  cases sw with
  | on =>
      exact ⟨rest.erase (.drop mac) ++ [.accept ip mac], rfl, fun n hn => hkept _ _ n hn (by simp)⟩
  | off =>
      exact ⟨rest.erase (.accept ip mac) ++ [.drop mac], rfl, fun n hn => hkept _ _ n hn (by simp)⟩

theorem Shaped.iptablesSetThing {s : ThingFirewall.State} (h : Shaped cfg s.chain) (sw : Switch)
    (ip : Text) (mac : Mac) : Shaped cfg (ThingFirewall.iptablesSetThing sw ip mac s).chain := by
  unfold ThingFirewall.iptablesSetThing
  split_ifs
  · exact h
  · exact h
  · exact h.switchRules sw ip mac

theorem Shaped.step {s : ThingFirewall.State} (h : Shaped cfg s.chain) (ev : ThingFirewall.Event) :
    Shaped cfg (ThingFirewall.step s ev).chain := by
  cases ev with
  | command c =>
      simp only [ThingFirewall.step]
      split_ifs
      · cases c with
        | thing sw mac ip =>
            cases mac with
            | none => exact h
            | some mac => exact h.iptablesSetThing sw ip mac
        | allThingsOn order =>
            simpa only [ThingFirewall.execNextCmd, ThingFirewall.foldl_switchListed_chain] using h
        | allThingsOff ip admin order =>
            cases admin with
            | none => exact h
            | some admin =>
                simp only [ThingFirewall.execNextCmd]
                split_ifs
                · exact h
                · rwa [ThingFirewall.foldl_switchListed_chain]
        | unknown => exact h
      · exact h
  | pageNotFound mac ip now => exact h
  | discovered mac ip now => exact h

theorem shaped_started (things : Things Mac) (order : List Mac) :
    Shaped cfg (started cfg things order).chain := by
  have hrestored : ∀ chain, Shaped cfg chain →
      Shaped cfg (order.foldl (ThingFirewall.restoreThing things) chain) := by
    intro chain hchain
    induction order generalizing chain with
    | nil => exact hchain
    | cons mac order ih =>
        refine ih _ ?_
        unfold ThingFirewall.restoreThing
        split
        · split_ifs
          · exact hchain
          · exact hchain.switchRules _ _ _
          · exact hchain.switchRules _ _ _
          · exact hchain
        · exact hchain
  obtain ⟨rest, hrest, hother⟩ := hrestored ((List.range 3).map .other)
    ⟨[], rfl, fun n hn => absurd hn List.not_mem_nil⟩
  refine ⟨rest ++ laterRules cfg, ?_, fun n hn => ?_⟩
  · rw [started, ThingFirewall.iptablesRestoreThings, hrest, List.append_assoc]
  · exact (List.mem_append.mp hn).elim (hother n) id

theorem settled_started {things : Things Mac} {order : List Mac} (horder : order.Perm things.keys)
    (hc : ThingFirewall.Complete things) : ThingFirewall.Settled (started cfg things order) := by
  intro mac
  have hrestored : ThingFirewall.Settled (ThingFirewall.iptablesRestoreThings things order 3) :=
    ThingFirewall.settled_restored horder hc
  refine (hrestored mac).congr rfl rfl ?_
  have hlater : ThingFirewall.rulesFor (laterRules cfg) mac = [] := by
    unfold laterRules
    cases loopbackOnly cfg <;> rfl
  rw [started, ThingFirewall.rulesFor, List.filter_append]
  exact (congrArg _ hlater).trans (List.append_nil _)

theorem Shaped.mem_other {chain : List ThingFirewall.Rule} (h : Shaped cfg chain) {n : ℕ}
    (hmem : .other n ∈ chain) : n ∈ [0, 1, 2] ∨ .other n ∈ laterRules cfg := by
  obtain ⟨rest, rfl, hrest⟩ := h
  rcases List.mem_append.mp hmem with hfirst | hlast
  · exact .inl (by simpa using hfirst)
  · exact .inr (hrest n hlast)

theorem mem_laterRules {n : ℕ} (h : .other n ∈ laterRules cfg) :
    n = 3 ∨ (loopbackOnly cfg = false ∧ (n = 4 ∨ n = 5)) := by
  unfold laterRules at h
  cases hlo : loopbackOnly cfg <;> simpa [hlo] using h

theorem hit_acceptRule {ip : Text} {mac : Mac} :
    (acceptRule cfg ip mac).hit (holds covers p) = true ↔
      p.inInterface = cfg.interface ∧ covers ip p.source ∧ p.mac = some mac := by
  simp [acceptRule, accepting, Rule.hit, holds]

theorem hit_dropRule {mac : Mac} :
    (dropRule cfg mac).hit (holds covers p) = true ↔
      p.inInterface = cfg.interface ∧ p.mac = some mac := by
  simp [dropRule, dropping, Rule.hit, holds]

/-- The rules that accept whoever sent the packet. -/
theorem hit_firstRules :
    (∃ r ∈ [ThingFirewall.Rule.other 0, .other 1, .other 2].map (forwardRule cfg),
      r.hit (holds covers p) = true) ↔ Passes cfg p := by
  simp [forwardRule, fixedRule, accepting, Rule.hit, holds, Passes, Known]

theorem verdict_forward (chain : List ThingFirewall.Rule) :
    (tablesOf cfg chain).verdict covers .FORWARD p = .accept ↔
      walk (holds covers p) ((tablesOf cfg chain).call covers p)
        (chain.map (forwardRule cfg)) = some .accept := by
  change (walk _ _ (chain.map (forwardRule cfg))).getD .drop = .accept ↔ _
  rw [Option.getD_eq_iff]
  simp

/-- The settled rule for a thing tells its switch. -/
theorem browses_of_accept {s : ThingFirewall.State} (hsettled : ThingFirewall.Settled s) {ip : Text}
    {mac : Mac} (hmem : .accept ip mac ∈ s.chain)
    (hhit : (acceptRule cfg ip mac).hit (holds covers p) = true) : Browses cfg covers s p := by
  obtain ⟨hin, hcovers, hmac⟩ := hit_acceptRule.mp hhit
  have hyes : s.flag mac = some yes := by
    by_contra hno
    exact (hsettled mac).not_accept hno ip hmem
  obtain ⟨ip', hip', hrules⟩ := (hsettled mac).enabled hyes
  rw [← ThingFirewall.accept_mem_rulesFor, hrules] at hmem
  simp only [List.mem_singleton, ThingFirewall.Rule.accept.injEq, and_true] at hmem
  exact ⟨hin, mac, ip, hmac, hyes, hmem ▸ hip', hcovers⟩

/-- Only the first three rules and those of enabled things accept. -/
theorem of_forwarded {s : ThingFirewall.State} (hsettled : ThingFirewall.Settled s)
    (haccept : (tablesOf cfg s.chain).verdict covers .FORWARD p = .accept) :
    Passes cfg p ∨ Browses cfg covers s p := by
  obtain ⟨r, hr, hhit, htarget⟩ := exists_of_walk ((verdict_forward s.chain).mp haccept)
  obtain ⟨r', hmem, rfl⟩ := List.mem_map.mp hr
  have htcp : (tablesOf cfg s.chain).call covers p .TCP ≠ some .accept := walk_tcpRules_ne _
  cases r' with
  | accept ip mac => exact .inr (browses_of_accept hsettled hmem hhit)
  | drop mac => simp [forwardRule, dropRule, dropping] at htarget
  | other n =>
      rcases n with _ | _ | _ | _ | _ | n
      · exact .inl (hit_firstRules.mp ⟨_, by simp, hhit⟩)
      · exact .inl (hit_firstRules.mp ⟨_, by simp, hhit⟩)
      · exact .inl (hit_firstRules.mp ⟨_, by simp, hhit⟩)
      · simp [forwardRule, fixedRule, jumping, htcp] at htarget
      · simp [forwardRule, fixedRule, dropping] at htarget
      · simp [forwardRule, fixedRule, dropping] at htarget

theorem forwarded_of_passes {chain : List ThingFirewall.Rule} (hshaped : Shaped cfg chain)
    (h : Passes cfg p) : (tablesOf cfg chain).verdict covers .FORWARD p = .accept := by
  obtain ⟨rest, hrest, -⟩ := hshaped
  rw [verdict_forward]
  nth_rewrite 2 [hrest]
  rw [List.map_append, walk_append (by simp [forwardRule, fixedRule, accepting]),
    walk_uniform (v := .accept) (by simp [forwardRule, fixedRule, accepting]),
    if_pos (hit_firstRules.mpr h), Option.some_or]

/-- Where the later rules do not refuse the packet, every rule that describes a packet
of an enabled thing accepts it. -/
theorem forwarded_of_browses {s : ThingFirewall.State} (hsettled : ThingFirewall.Settled s)
    (hshaped : Shaped cfg s.chain) (hshield : Shielded cfg covers p)
    (h : Browses cfg covers s p) : (tablesOf cfg s.chain).verdict covers .FORWARD p = .accept := by
  obtain ⟨hin, mac, ip, hmac, hyes, hip, hcovers⟩ := h
  obtain ⟨ip', hip', hrules⟩ := (hsettled mac).enabled hyes
  obtain rfl : ip = ip' := Option.some.inj (hip.symm.trans hip')
  have hmem : .accept ip mac ∈ s.chain := by
    rw [← ThingFirewall.accept_mem_rulesFor, hrules]
    exact List.mem_singleton_self _
  rw [verdict_forward]
  refine walk_of_agree ?_ ⟨_, List.mem_map_of_mem hmem, hit_acceptRule.mpr ⟨hin, hcovers, hmac⟩,
    rfl⟩
  intro r hr hhit
  obtain ⟨r', hmem', rfl⟩ := List.mem_map.mp hr
  cases r' with
  | accept ip' mac' => exact .inl rfl
  | drop mac' =>
      obtain ⟨-, hmac'⟩ := hit_dropRule.mp hhit
      obtain rfl : mac = mac' := Option.some.inj (hmac.symm.trans hmac')
      rw [← ThingFirewall.drop_mem_rulesFor, hrules] at hmem'
      simp at hmem'
  | other n =>
      rcases hshaped.mem_other hmem' with hfirst | hlater
      · simp only [List.mem_cons, List.not_mem_nil, or_false] at hfirst
        rcases hfirst with rfl | rfl | rfl <;> exact .inl rfl
      rcases mem_laterRules hlater with rfl | ⟨hisolate, rfl | rfl⟩
      · exact .inr ⟨.TCP, rfl, (call_tcp covers p cfg _).mpr hshield.1⟩
      · have hsource := (hshield.2 hisolate).1
        simp [forwardRule, fixedRule, dropping, Rule.hit, holds, hsource] at hhit
      · have hdestination := (hshield.2 hisolate).2
        simp [forwardRule, fixedRule, dropping, Rule.hit, holds, hdestination] at hhit

/-- From any table, `dowse-start` leaves the one of the restored things, and the commands of a
switch change it as the rules of the things change. Along every run that keeps firewall and panel
in agreement, a packet is forwarded only if it passes whoever sent it or comes from an enabled
thing at its stored address; the former always are, and the latter unless the later rules of the
start refuse them. -/
theorem forward_policy {things : Things Mac} {order : List Mac} (horder : order.Perm things.keys)
    (hc : ThingFirewall.Complete things) {evs : List ThingFirewall.Event}
    (hok : Along ThingFirewall.step ThingFirewall.EventOk (started cfg things order) evs) :
    (∀ t, run t (dowseStart cfg things order) = tablesOf cfg (started cfg things order).chain) ∧
    (∀ sw ip mac chain, run (tablesOf cfg chain) (switchCommands cfg sw ip mac) =
      tablesOf cfg (ThingFirewall.switchRules sw ip mac chain)) ∧
    Throughout ThingFirewall.step (fun s => ∀ p : Packet A,
      ((tablesOf cfg s.chain).verdict covers .FORWARD p = .accept →
        Passes cfg p ∨ Browses cfg covers s p) ∧
      (Passes cfg p → (tablesOf cfg s.chain).verdict covers .FORWARD p = .accept) ∧
      (Browses cfg covers s p → Shielded cfg covers p →
        (tablesOf cfg s.chain).verdict covers .FORWARD p = .accept))
      (started cfg things order) evs := by
  refine ⟨fun t => run_dowseStart t things order, run_switchCommands, ?_⟩
  refine (throughout_of_along (I := fun s => ThingFirewall.Settled s ∧ Shaped cfg s.chain)
    (fun s ev h hev => ⟨h.1.step hev, h.2.step ev⟩)
    ⟨settled_started horder hc, shaped_started things order⟩ hok).mono ?_
  rintro s ⟨hsettled, hshaped⟩ p
  exact ⟨of_forwarded hsettled, forwarded_of_passes hshaped, fun hbrowses hshield =>
    forwarded_of_browses hsettled hshaped hshield hbrowses⟩

end Forward

end Verdicts

/-- A network with one thing, whose addresses are compared as texts. -/
def home : Settings := ⟨"eth0".toList, "10.0.0.0/24".toList, "192.168.1.1".toList⟩

theorem complete_enabledPhone : ThingFirewall.Complete ThingFirewall.enabledPhone := by
  intro mac hyes
  by_cases hmac : mac = ThingFirewall.phone
  · subst hmac
    exact ⟨"10.0.0.2".toList, by decide, by decide⟩
  · rw [ThingFirewall.enabledPhone, hget_hmset_of_key_ne hmac] at hyes
    cases hyes

/-- The phone is turned off. -/
def phoneOff : List ThingFirewall.Event :=
  [.command (.thing .off (some ThingFirewall.phone) "10.0.0.2".toList)]

theorem along_phoneOff : Along ThingFirewall.step ThingFirewall.EventOk
    (started home ThingFirewall.enabledPhone [ThingFirewall.phone]) phoneOff :=
  ⟨fun _ => .inr (.inr (.inr (by decide))), trivial⟩

theorem forward_policy_phone :
    Throughout ThingFirewall.step (fun s => ∀ p : Packet Text,
      ((tablesOf home s.chain).verdict (· = ·) .FORWARD p = .accept →
        Passes home p ∨ Browses home (· = ·) s p) ∧
      (Passes home p → (tablesOf home s.chain).verdict (· = ·) .FORWARD p = .accept) ∧
      (Browses home (· = ·) s p → Shielded home (· = ·) p →
        (tablesOf home s.chain).verdict (· = ·) .FORWARD p = .accept))
      (started home ThingFirewall.enabledPhone [ThingFirewall.phone])
      phoneOff :=
  (forward_policy (by decide) complete_enabledPhone along_phoneOff).2.2

end Dowse.FirewallRules
