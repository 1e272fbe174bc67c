import Dowse.CommandPipe
import Dowse.ThingFirewall

/-!
# What a line of the command pipe does

`exec_next_cmd` takes a line apart at its commas, as the shell counts words, and changes the
store and the FORWARD chain. Everything is text here: the keys of the store, the MAC
that is cut out of a key at the underscore, the arguments of `iptables`. The list of keys is
what the server answers, in its order.

A text of letters, digits, colons, dots and slashes is plain. Neither the separators of the
shell nor those of redis can take it apart.
-/
namespace Dowse.CommandActions
open CStrings KeyedHashes ThingStore Splitting CommandPipe
open ThingFirewall (Switch Mac)

inductive Rule
  | accept (ip mac : Text)
  | drop (mac : Text)
  | other (n : ℕ)
  deriving DecidableEq, Repr

structure State where
  things : Things Text
  chain : List Rule

def switchRules : Switch → Text → Text → List Rule → List Rule
  | .on, ip, mac, chain => chain.erase (.drop mac) ++ [.accept ip mac]
  | .off, ip, mac, chain => chain.erase (.accept ip mac) ++ [.drop mac]

/-- `iptables-set-thing`. The arguments are not quoted by its callers, so an empty one is
missing. -/
def iptablesSetThing (sw : Switch) (ip mac : Text) (s : State) : State :=
  if ip = [] ∨ mac = [] then s
  else if hget s.things mac .enableToBrowse = some sw.value then s
  else ⟨hset s.things mac .enableToBrowse sw.value, switchRules sw ip mac s.chain⟩

/-- The second word of a key at the underscores. -/
def listedMac (mac : Text) : Text := shellWord '_' 2 ("thing_".toList ++ mac)

/-- The body of the loops of `ALL_THINGS_ON` and `ALL_THINGS_OFF`. -/
def switchListed (sw : Switch) (s : State) (mac : Text) : State :=
  let s : State := ⟨hset s.things mac .enableToBrowse sw.value, s.chain⟩
  iptablesSetThing sw ((hget s.things mac .ip4).getD []) (listedMac mac) s

/-- What `exec_next_cmd` makes of a line. -/
inductive Action
  | thing (sw : Switch) (mac ip : Text)
  | allThingsOn
  | allThingsOff (mac : Text)
  | none
  deriving DecidableEq, Repr

def actionOf (line : Text) : Action :=
  let action := word 3 line
  if action = "ALL_THINGS_OFF".toList then
    if word 5 line = [] then .none
    else if word 2 line = [] then .none
    else .allThingsOff (word 5 line)
  else if action = "ALL_THINGS_ON".toList then .allThingsOn
  else if action = "THING_OFF".toList then .thing .off (word 5 line) (word 6 line)
  else if action = "THING_ON".toList then .thing .on (word 5 line) (word 6 line)
  else .none

def act (order : List Text) (s : State) : Action → State
  | .thing sw mac ip => iptablesSetThing sw ip mac s
  | .allThingsOn => order.foldl (switchListed .on) s
  | .allThingsOff mac => (order.filter (· ≠ mac)).foldl (switchListed .off) s
  | .none => s

/-- One cycle with a message, and the keys as the server lists them. -/
def execute (order : List Text) (s : State) (msg : Text) : State :=
  match execNextCmd msg with
  | some line => act order s (actionOf line)
  | none => s

def Plain (text : Text) : Prop :=
  text ≠ [] ∧ ∀ c ∈ text, c.isAlphanum ∨ c = ':' ∨ c = '.' ∨ c = '/'

theorem Plain.notMem {text : Text} (h : Plain text) {c : Char}
    (hc : ¬ (c.isAlphanum ∨ c = ':' ∨ c = '.' ∨ c = '/')) : c ∉ text :=
  fun hmem => hc (h.2 c hmem)

theorem Plain.comma {text : Text} (h : Plain text) : ',' ∉ text := h.notMem (by decide)

theorem Plain.nul {text : Text} (h : Plain text) : '\x00' ∉ text := h.notMem (by decide)

theorem Plain.getLast {text : Text} (h : Plain text) : text.getLast? ≠ some '\n' :=
  fun hlast => h.notMem (by decide) (List.mem_of_getLast? hlast)

section Lines
variable {ip oper mac ipb : Text} {now : ℕ}

/-- The words of a line whose first fields are plain. -/
theorem words_commandLine (hip : Plain ip) (hoper : oper ∈ operations) (hmac : Plain mac) :
    words ',' (WebUi.commandLine ip oper now mac ipb) =
      ["CMD".toList, ip, oper, Nat.toDigits 10 now, mac] ++ words ',' ipb := by
  have hdigits : ',' ∉ Nat.toDigits 10 now := by
    intro hmem
    exact absurd (Nat.isDigit_of_mem_toDigits (by decide) (by decide) hmem) (by decide)
  have hword : ∀ oper ∈ operations, oper ≠ [] ∧ ',' ∉ oper := by decide
  rw [commandLine_eq, words_append, words_append, words_append, words_append, words_append,
    words_singleton (by decide) (by decide), words_singleton hip.1 hip.comma,
    words_singleton (hword oper hoper).1 (hword oper hoper).2,
    words_singleton Nat.toDigits_ne_nil hdigits, words_singleton hmac.1 hmac.comma]
  simp

/-- The first five words of such a line are its fields. -/
theorem word_commandLine (hip : Plain ip) (hoper : oper ∈ operations) (hmac : Plain mac) {n : ℕ}
    (hpos : 0 < n) (hn : n ≤ 5) :
    word n (WebUi.commandLine ip oper now mac ipb) =
      ordinal ["CMD".toList, ip, oper, Nat.toDigits 10 now, mac] n := by
  rw [word, shellWord, words_commandLine hip hoper hmac, List.append_assoc]
  have hlen : n ≤ ["CMD".toList, ip, oper, Nat.toDigits 10 now, mac].length := hn
  exact ordinal_append hpos hlen _

theorem word_six_commandLine (hip : Plain ip) (hoper : oper ∈ operations) (hmac : Plain mac)
    (hipb : Plain ipb) : word 6 (WebUi.commandLine ip oper now mac ipb) = ipb := by
  rw [word, shellWord, words_commandLine hip hoper hmac, words_singleton hipb.1 hipb.comma]
  have hlen : 6 ≤ ["CMD".toList, ip, oper, Nat.toDigits 10 now, mac, ipb].length := Nat.le_refl 6
  exact ordinal_append (by decide) hlen _

theorem execNextCmd_plain (hip : Plain ip) (hoper : oper ∈ operations) (hmac : Plain mac)
    (hipb : ipb = [] ∨ Plain ipb) :
    execNextCmd (WebUi.commandLine ip oper now mac ipb) =
      some (WebUi.commandLine ip oper now mac ipb) := by
  have hword : ∀ oper ∈ operations, oper ≠ [] ∧ ',' ∉ oper ∧ '\x00' ∉ oper := by decide
  have hlast : '\x00' ∉ ipb ∧ ipb.getLast? ≠ some '\n' := by
    rcases hipb with rfl | hipb
    · exact ⟨List.not_mem_nil, by decide⟩
    · exact ⟨hipb.nul, hipb.getLast⟩
  exact execNextCmd_commandLine hip.nul hmac.nul hlast.1 hlast.2 (hword oper hoper).1
    (hword oper hoper).2

def operation : Switch → Text
  | .on => "THING_ON".toList
  | .off => "THING_OFF".toList

theorem operation_mem (sw : Switch) : operation sw ∈ operations := by
  cases sw <;> decide

theorem actionOf_thing (sw : Switch) (hip : Plain ip) (hmac : Plain mac) (hipb : Plain ipb) :
    actionOf (WebUi.commandLine ip (operation sw) now mac ipb) = .thing sw mac ipb := by
  have hthird : word 3 (WebUi.commandLine ip (operation sw) now mac ipb) = operation sw :=
    word_commandLine hip (operation_mem sw) hmac (by decide) (by decide)
  have hfifth : word 5 (WebUi.commandLine ip (operation sw) now mac ipb) = mac :=
    word_commandLine hip (operation_mem sw) hmac (by decide) (by decide)
  have hsixth : word 6 (WebUi.commandLine ip (operation sw) now mac ipb) = ipb :=
    word_six_commandLine hip (operation_mem sw) hmac hipb
  simp only [actionOf, hthird, hfifth, hsixth]
  cases sw
  · rw [if_neg (by decide), if_neg (by decide), if_neg (by decide), if_pos (by decide)]
  · rw [if_neg (by decide), if_neg (by decide), if_pos (by decide)]

def bulkOperation : Switch → Text
  | .on => "ALL_THINGS_ON".toList
  | .off => "ALL_THINGS_OFF".toList

theorem bulkOperation_mem (sw : Switch) : bulkOperation sw ∈ operations := by
  cases sw <;> decide

def bulkAction : Switch → Text → Action
  | .on, _ => .allThingsOn
  | .off, mac => .allThingsOff mac

theorem actionOf_bulk (sw : Switch) (hip : Plain ip) (hmac : Plain mac) :
    actionOf (WebUi.commandLine ip (bulkOperation sw) now mac ipb) = bulkAction sw mac := by
  have hthird : word 3 (WebUi.commandLine ip (bulkOperation sw) now mac ipb) = bulkOperation sw :=
    word_commandLine hip (bulkOperation_mem sw) hmac (by decide) (by decide)
  have hsecond : word 2 (WebUi.commandLine ip (bulkOperation sw) now mac ipb) = ip :=
    word_commandLine hip (bulkOperation_mem sw) hmac (by decide) (by decide)
  have hfifth : word 5 (WebUi.commandLine ip (bulkOperation sw) now mac ipb) = mac :=
    word_commandLine hip (bulkOperation_mem sw) hmac (by decide) (by decide)
  simp only [actionOf, hthird, hsecond, hfifth, if_neg hip.1, if_neg hmac.1]
  cases sw
  · rw [if_neg (by decide), if_pos (by decide)]
    rfl
  · rw [if_pos (by decide)]
    rfl

end Lines

section Listed
variable {key : Text}

/-- A key without an underscore is the MAC that is cut out of it. -/
theorem listedMac_eq (hne : key ≠ []) (h : '_' ∉ key) : listedMac key = key := by
  have hthing : "thing_".toList ++ key = "thing".toList ++ '_' :: key := rfl
  have hwords : words '_' ("thing_".toList ++ key) = ["thing".toList, key] := by
    rw [hthing, words_append, words_singleton (by decide) (by decide), words_singleton hne h]
    rfl
  rw [listedMac, shellWord, hwords, ordinal_append (by decide) (Nat.le_refl 2)]
  rfl

/-- The field is set first, so that `iptables-set-thing` returns early. -/
theorem switchListed_plain (sw : Switch) (s : State) (h : Plain key) :
    switchListed sw s key = ⟨hset s.things key .enableToBrowse sw.value, s.chain⟩ := by
  unfold switchListed iptablesSetThing
  rw [listedMac_eq h.1 (h.notMem (by decide))]
  dsimp only
  rw [hget_hset_same, if_pos rfl, ite_self]

theorem foldl_switchListed (sw : Switch) {order : List Text} (h : ∀ key ∈ order, Plain key)
    (s : State) : (order.foldl (switchListed sw) s).chain = s.chain ∧
      ∀ key f, hget (order.foldl (switchListed sw) s).things key f =
        if key ∈ order ∧ f = .enableToBrowse then some sw.value else hget s.things key f := by
  induction order generalizing s with
  | nil => simp
  | cons mac order ih =>
      obtain ⟨hmac, horder⟩ := List.forall_mem_cons.mp h
      obtain ⟨hchain, hfields⟩ := ih horder (switchListed sw s mac)
      rw [switchListed_plain sw s hmac] at hchain hfields
      rw [List.foldl_cons, switchListed_plain sw s hmac]
      refine ⟨hchain, fun key f => ?_⟩
      rw [hfields key f, hget_hset]
      by_cases hkey : key = mac
      · by_cases hf : f = .enableToBrowse <;> simp [hkey, hf]
      · simp [hkey]

end Listed

section Views

/-- A rule of the firewall as text. -/
def ruleText : ThingFirewall.Rule → Rule
  | .accept ip mac => .accept ip mac.text
  | .drop mac => .drop mac.text
  | .other n => .other n

theorem text_injective : Function.Injective Mac.text := by
  intro a b h
  cases a
  cases b
  cases h
  rfl

theorem ruleText_injective : Function.Injective ruleText := by
  intro a b h
  cases a <;> cases b <;> simp [ruleText, text_injective.eq_iff] at h ⊢ <;> exact h

/-- The store and the chain as the firewall sees them, by the MACs of the things. -/
structure Views (t : State) (s : ThingFirewall.State) : Prop where
  things : ∀ (mac : Mac) (f : ThingField), hget t.things mac.text f = hget s.things mac f
  keys : ∀ key, key ∈ t.things ↔ ∃ mac ∈ s.things, mac.text = key
  chain : t.chain = s.chain.map ruleText

theorem switchRules_map (sw : Switch) (ip : Text) (mac : Mac) (chain : List ThingFirewall.Rule) :
    switchRules sw ip mac.text (chain.map ruleText) =
      (ThingFirewall.switchRules sw ip mac chain).map ruleText := by
  have herase (r : ThingFirewall.Rule) :
      (chain.map ruleText).erase (ruleText r) = (chain.erase r).map ruleText :=
    (List.map_erase ruleText_injective chain).symm
  cases sw with
  | on => simpa [switchRules, ThingFirewall.switchRules, ruleText] using herase (.drop mac)
  | off => simpa [switchRules, ThingFirewall.switchRules, ruleText] using herase (.accept ip mac)

variable {t : State} {s : ThingFirewall.State}

theorem Views.hset (h : Views t s) (mac : Mac) (f : ThingField) (v : Text) :
    Views ⟨hset t.things mac.text f v, t.chain⟩ ⟨hset s.things mac f v, s.chain⟩ where
  things mac' f' := by
    rw [hget_hset, hget_hset, h.things]
    simp [text_injective.eq_iff]
  keys key := by
    simp only [KeyedHashes.hset, AList.mem_insert, h.keys]
    constructor
    · rintro (rfl | ⟨mac', hmem, rfl⟩)
      · exact ⟨mac, .inl rfl, rfl⟩
      · exact ⟨mac', .inr hmem, rfl⟩
    · rintro ⟨mac', rfl | hmem, rfl⟩
      · exact .inl rfl
      · exact .inr ⟨mac', hmem, rfl⟩
  chain := h.chain

theorem Views.iptablesSetThing (h : Views t s) (sw : Switch) (ip : Text) (mac : Mac) :
    Views (CommandActions.iptablesSetThing sw ip mac.text t)
      (ThingFirewall.iptablesSetThing sw ip mac s) := by
  have hmac : mac.text ≠ [] := mac.word.1
  unfold CommandActions.iptablesSetThing ThingFirewall.iptablesSetThing ThingFirewall.State.flag
  rw [h.things]
  simp only [hmac, or_false]
  split_ifs
  · exact h
  · exact h
  · have hset := h.hset mac .enableToBrowse sw.value
    refine ⟨hset.things, hset.keys, ?_⟩
    rw [h.chain, switchRules_map]

theorem listedMac_text (mac : Mac) : listedMac mac.text = mac.text :=
  listedMac_eq mac.word.1 fun hmem => mac.word.2 '_' hmem (by decide)

theorem Views.switchListed (h : Views t s) (sw : Switch) (mac : Mac) :
    Views (CommandActions.switchListed sw t mac.text) (ThingFirewall.switchListed sw s mac) := by
  unfold CommandActions.switchListed ThingFirewall.switchListed ThingFirewall.State.ip4
  have hset := h.hset mac .enableToBrowse sw.value
  dsimp only
  rw [listedMac_text, hset.things]
  exact hset.iptablesSetThing sw _ mac

theorem Views.foldl_switchListed (h : Views t s) (sw : Switch) (order : List Mac) :
    Views ((order.map Mac.text).foldl (CommandActions.switchListed sw) t)
      (order.foldl (ThingFirewall.switchListed sw) s) := by
  induction order generalizing t s with
  | nil => exact h
  | cons mac order ih => exact ih (h.switchListed sw mac)

/-- What a line asks for, in the words of the firewall. -/
def actionText : ThingFirewall.Command → Action
  | .thing sw mac ip => .thing sw (mac.elim [] Mac.text) ip
  | .allThingsOn _ => .allThingsOn
  | .allThingsOff ip (some mac) _ => if ip = [] then .none else .allThingsOff mac.text
  | .allThingsOff _ none _ => .none
  | .unknown => .none

/-- On a store whose keys are MACs, the actions on texts are those of the firewall. -/
theorem Views.act (h : Views t s) (c : ThingFirewall.Command) :
    Views (CommandActions.act ((c.order.getD []).map Mac.text) t (actionText c))
      (ThingFirewall.execNextCmd s c) := by
  cases c with
  | thing sw mac ip =>
      cases mac with
      | none =>
          have hsame : CommandActions.iptablesSetThing sw ip [] t = t := if_pos (.inr rfl)
          simpa only [actionText, CommandActions.act, ThingFirewall.execNextCmd, Option.elim_none,
            hsame] using h
      | some mac => exact h.iptablesSetThing sw ip mac
  | allThingsOn order => exact h.foldl_switchListed .on order
  | allThingsOff ip mac order =>
      cases mac with
      | none => exact h
      | some mac =>
          simp only [actionText, ThingFirewall.execNextCmd, ThingFirewall.Command.order,
            Option.getD_some]
          split_ifs
          · exact h
          · have hothers : (order.map Mac.text).filter (· ≠ mac.text) =
                (order.filter (· ≠ mac)).map Mac.text := by
              rw [List.filter_map]
              congr 2
              funext m
              simp [text_injective.eq_iff]
            rw [CommandActions.act, hothers]
            exact h.foldl_switchListed .off _
  | unknown => exact h

end Views

section Requests
variable {s : WebUi.State} {req : WebUi.Request}

/-- The request comes from an admin whose address is known. -/
structure FromAdmin (s : WebUi.State) (req : WebUi.Request) (ip : Text) : Prop where
  route : req.route = .cmd
  isadmin : WebUi.callerInfo s req .isadmin = some yes
  ip4 : WebUi.callerInfo s req .ip4 = some ip
  plain : Plain ip

theorem FromAdmin.step {ip : Text} (h : FromAdmin s req ip) : WebUi.step s req =
    (WebUi.cmd s req).2 := by
  simp [WebUi.step, WebUi.serve, h.route, WebUi.Route.allows]

theorem FromAdmin.publishCommand {ip : Text} (h : FromAdmin s req ip) (oper mac ipb : Text) :
    (WebUi.publishCommand s req oper mac ipb).2 =
      { s with published := s.published ++ [WebUi.commandLine ip oper req.now mac ipb] } := by
  rw [WebUi.publishCommand, h.ip4]

theorem published_thing {ip mac ipb addr : Text} (h : FromAdmin s req ip) {sw : Switch}
    (hop : WebUi.arg req "op" = some (operation sw))
    (hmac : WebUi.arg req "macaddr" = some mac) (hmacne : mac ≠ [])
    (haddr : WebUi.arg req "ip4" = some addr) (hne : addr ≠ [])
    (hipb : hget s.things mac .ip4 = some ipb) :
    (WebUi.step s req).published =
      s.published ++ [WebUi.commandLine ip (operation sw) req.now mac ipb] := by
  have hthing : operation sw = "THING_OFF".toList ∨ operation sw = "THING_ON".toList := by
    cases sw <;> decide
  rw [h.step, WebUi.cmd, WebUi.asAdmin, h.isadmin]
  simp only [hop, hthing, if_true, hmac, haddr, Option.getD_some, hne, hmacne, if_false,
    WebUi.pyStr, hipb]
  rw [h.publishCommand]

theorem published_bulk {ip mac : Text} (h : FromAdmin s req ip) {sw : Switch}
    (hop : WebUi.arg req "op" = some (bulkOperation sw))
    (hmac : WebUi.callerInfo s req .macaddr = some mac) :
    (WebUi.step s req).published =
      s.published ++ [WebUi.commandLine ip (bulkOperation sw) req.now mac []] := by
  have hthing : ¬ (bulkOperation sw = "THING_OFF".toList ∨
      bulkOperation sw = "THING_ON".toList) := by
    cases sw <;> decide
  have hall : bulkOperation sw = "ALL_THINGS_OFF".toList ∨
      bulkOperation sw = "ALL_THINGS_ON".toList := by
    cases sw <;> decide
  rw [h.step, WebUi.cmd, WebUi.asAdmin, h.isadmin]
  simp only [hop, hthing, if_true, if_false, hall, hmac]
  rw [h.publishCommand]

end Requests

/-- An admin's command for one thing, with an address in the form and one in the store, is
published as one line, and in whatever state the store and the chain are when it is executed it
does what `iptables-set-thing` does. -/
theorem thing_command_executed {web : WebUi.State} {req : WebUi.Request} {ip mac ipb addr : Text}
    (h : FromAdmin web req ip) {sw : Switch} (hop : WebUi.arg req "op" = some (operation sw))
    (hmac : WebUi.arg req "macaddr" = some mac) (hplain : Plain mac)
    (haddr : WebUi.arg req "ip4" = some addr) (hne : addr ≠ [])
    (hipb : hget web.things mac .ip4 = some ipb) (hipbPlain : Plain ipb) :
    ∃ line, (WebUi.step web req).published = web.published ++ [line] ∧
      ∀ (order : List Text) (t : State), execute order t line = iptablesSetThing sw ipb mac t := by
  refine ⟨_, published_thing h hop hmac hplain.1 haddr hne hipb, fun order t => ?_⟩
  rw [execute, execNextCmd_plain h.plain (operation_mem sw) hplain (.inr hipbPlain)]
  dsimp only
  rw [actionOf_thing sw h.plain hplain hipbPlain]
  rfl

/-- A store with the thing of an admin and a lamp. -/
def office : WebUi.State :=
  ⟨hmset (hmset ∅ "02:00:00:00:00:01".toList
      [(.isadmin, yes), (.macaddr, "02:00:00:00:00:01".toList), (.ip4, "192.168.0.2".toList)])
    "02:00:00:00:00:09".toList [(.ip4, "192.168.0.9".toList)], none, fun _ => none, []⟩

def officeCommand (op : Text) : WebUi.Request :=
  ⟨.cmd, .get, [("op".toList, op), ("macaddr".toList, "02:00:00:00:00:09".toList),
    ("ip4".toList, "192.168.0.9".toList)], [], "192.168.0.2".toList,
    [("192.168.0.2".toList, "02:00:00:00:00:01".toList)], 0⟩

theorem fromAdmin_office (op : Text) :
    FromAdmin office (officeCommand op) "192.168.0.2".toList := by
  have hcaller : (officeCommand op).callerMac = "02:00:00:00:00:01".toList := by
    simp [WebUi.Request.callerMac, WebUi.ip2mac, officeCommand]
  refine ⟨rfl, ?_, ?_, by simp [Plain]⟩
  · rw [WebUi.callerInfo, hcaller]
    decide
  · rw [WebUi.callerInfo, hcaller]
    decide

theorem plain_lamp : Plain "02:00:00:00:00:09".toList := by
  simp [Plain]

theorem plain_desk : Plain "02:00:00:00:00:01".toList := by
  simp [Plain]

/-- The things of the office with the lamp switched off by a rule. -/
def officeStore : State := ⟨office.things, [.drop "02:00:00:00:00:09".toList]⟩

theorem thing_command_executed_lamp :
    ∃ line, (WebUi.step office (officeCommand (operation .on))).published = [line] ∧
      (execute [] officeStore line).chain =
        [.accept "192.168.0.9".toList "02:00:00:00:00:09".toList] := by
  have hop : WebUi.arg (officeCommand (operation .on)) "op" = some (operation .on) := by decide
  have hmac : WebUi.arg (officeCommand (operation .on)) "macaddr" =
      some "02:00:00:00:00:09".toList := by decide
  have haddr : WebUi.arg (officeCommand (operation .on)) "ip4" = some "192.168.0.9".toList := by
    decide
  have hipb : hget office.things "02:00:00:00:00:09".toList .ip4 = some "192.168.0.9".toList := by
    decide
  obtain ⟨line, hline, hexecuted⟩ := thing_command_executed (fromAdmin_office (operation .on)) hop
    hmac plain_lamp haddr (by decide) hipb (by simp [Plain])
  exact ⟨line, hline, by rw [hexecuted]; decide⟩

/-- An admin's command for all things is published as one line. On a store of plain keys its
execution sets the field of every thing, or of every one but the admin's own, and leaves the
chain as it is: when `iptables-set-thing` is called, the field has the value already. -/
theorem bulk_command_executed {web : WebUi.State} {req : WebUi.Request} {ip mac : Text}
    (h : FromAdmin web req ip) {sw : Switch} (hop : WebUi.arg req "op" = some (bulkOperation sw))
    (hmac : WebUi.callerInfo web req .macaddr = some mac) (hplain : Plain mac) :
    ∃ line, (WebUi.step web req).published = web.published ++ [line] ∧
      ∀ (order : List Text) (t : State), order.Perm t.things.keys →
        (∀ key ∈ t.things, Plain key) →
        (execute order t line).chain = t.chain ∧
        ∀ key f, hget (execute order t line).things key f =
          if (key ∈ t.things ∧ (sw = .off → key ≠ mac)) ∧ f = .enableToBrowse then some sw.value
          else hget t.things key f := by
  refine ⟨_, published_bulk h hop hmac, fun order t horder hkeys => ?_⟩
  have hmem : ∀ key, key ∈ order ↔ key ∈ t.things := fun key => horder.mem_iff
  rw [execute, execNextCmd_plain h.plain (bulkOperation_mem sw) hplain (.inl rfl)]
  dsimp only
  rw [actionOf_bulk sw h.plain hplain]
  cases sw with
  | on =>
      have hloop := foldl_switchListed .on (fun key hkey => hkeys key ((hmem key).mp hkey)) t
      simpa [bulkAction, act, hmem] using hloop
  | off =>
      have hothers : ∀ key ∈ order.filter (· ≠ mac), Plain key :=
        fun key hkey => hkeys key ((hmem key).mp (List.mem_of_mem_filter hkey))
      simpa [bulkAction, act, hmem] using foldl_switchListed .off hothers t

/-- The lamp loses its field, the desk of the admin keeps it, and no rule changes. -/
theorem bulk_command_executed_office :
    ∃ line, (WebUi.step office (officeCommand (bulkOperation .off))).published = [line] ∧
      ∀ order : List Text, order.Perm office.things.keys →
        (execute order officeStore line).chain = officeStore.chain ∧
        hget (execute order officeStore line).things "02:00:00:00:00:09".toList .enableToBrowse =
          some no ∧
        hget (execute order officeStore line).things "02:00:00:00:00:01".toList .enableToBrowse =
          none := by
  have hop : WebUi.arg (officeCommand (bulkOperation .off)) "op" = some (bulkOperation .off) := by
    decide
  have hmac : WebUi.callerInfo office (officeCommand (bulkOperation .off)) .macaddr =
      some "02:00:00:00:00:01".toList := by decide
  have hkeys : ∀ key ∈ office.things, Plain key := by
    intro key hkey
    have hlist : key ∈ ["02:00:00:00:00:09".toList, "02:00:00:00:00:01".toList] := hkey
    rcases List.mem_pair.mp hlist with rfl | rfl
    · exact plain_lamp
    · exact plain_desk
  obtain ⟨line, hline, hexecuted⟩ := bulk_command_executed (fromAdmin_office (bulkOperation .off))
    hop hmac plain_desk
  refine ⟨line, hline, fun order horder => ?_⟩
  obtain ⟨hchain, hfields⟩ := hexecuted order officeStore horder hkeys
  refine ⟨hchain, ?_, ?_⟩
  · rw [hfields, if_pos (by decide)]
    rfl
  · rw [hfields, if_neg (by decide)]
    decide

end Dowse.CommandActions
