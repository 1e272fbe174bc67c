import Dowse.ThingFirewall

/-!
# When the firewall and the panel agree

The rules for one MAC are at most one: an accepting rule with the stored address for a
thing that is enabled, at most a dropping one for a thing that is disabled, and none for a
thing without the field. From a restored chain this holds as long as no single
command carries another address than the stored one, no bulk command changes a
switch and no address of an enabled thing changes; and each of these breaks the
agreement at once.
-/
namespace Dowse.ThingFirewall
open CStrings KeyedHashes ThingStore GuardedRuns

def Rule.concerns (mac : Mac) : Rule → Bool
  | .accept _ m => m = mac
  | .drop m => m = mac
  | .other _ => false

def rulesFor (chain : List Rule) (mac : Mac) : List Rule := chain.filter (Rule.concerns mac)

theorem accept_mem_rulesFor {chain : List Rule} {ip : Text} {mac : Mac} :
    .accept ip mac ∈ rulesFor chain mac ↔ .accept ip mac ∈ chain := by
  simp [rulesFor, Rule.concerns]

theorem drop_mem_rulesFor {chain : List Rule} {mac : Mac} :
    .drop mac ∈ rulesFor chain mac ↔ .drop mac ∈ chain := by
  simp [rulesFor, Rule.concerns]

section Rules

variable (ip : Text) (chain : List Rule)

theorem rulesFor_on (mac : Mac) :
    rulesFor (switchRules .on ip mac chain) mac =
      (rulesFor chain mac).erase (.drop mac) ++ [.accept ip mac] := by
  simp [rulesFor, switchRules, Rule.concerns, List.erase_filter]

theorem rulesFor_off (mac : Mac) :
    rulesFor (switchRules .off ip mac chain) mac =
      (rulesFor chain mac).erase (.accept ip mac) ++ [.drop mac] := by
  simp [rulesFor, switchRules, Rule.concerns, List.erase_filter]

theorem rulesFor_switch_ne {mac mac' : Mac} (h : mac' ≠ mac) (sw : Switch) :
    rulesFor (switchRules sw ip mac chain) mac' = rulesFor chain mac' := by
  have herase : ∀ r : Rule, r.concerns mac' = false →
      rulesFor (chain.erase r) mac' = rulesFor chain mac' := by
    intro r hr
    rw [rulesFor, ← List.erase_filter, List.erase_of_not_mem (by simp [hr])]
    rfl
  cases sw with
  | on =>
      have hdrop := herase (.drop mac) (by simpa [Rule.concerns] using h.symm)
      simpa [rulesFor, switchRules, Rule.concerns, h.symm] using hdrop
  | off =>
      have haccept := herase (.accept ip mac) (by simpa [Rule.concerns] using h.symm)
      simpa [rulesFor, switchRules, Rule.concerns, h.symm] using haccept

end Rules

/-- The rules for a MAC are what its thing asks for. -/
structure SettledOn (s : State) (mac : Mac) : Prop where
  enabled : s.flag mac = some yes →
    ∃ ip, s.ip4 mac = some ip ∧ rulesFor s.chain mac = [.accept ip mac]
  disabled : s.flag mac = some no → rulesFor s.chain mac = [] ∨ rulesFor s.chain mac = [.drop mac]
  unset : s.flag mac ≠ some yes → s.flag mac ≠ some no → rulesFor s.chain mac = []

def Settled (s : State) : Prop := ∀ mac, SettledOn s mac

theorem SettledOn.congr {s t : State} {mac : Mac} (h : SettledOn s mac)
    (hflag : t.flag mac = s.flag mac) (hip : t.ip4 mac = s.ip4 mac)
    (hrules : rulesFor t.chain mac = rulesFor s.chain mac) : SettledOn t mac := by
  constructor
  · rw [hflag, hip, hrules]
    exact h.enabled
  · rw [hflag, hrules]
    exact h.disabled
  · rw [hflag, hrules]
    exact h.unset

theorem settledOn_of_yes {s : State} {mac : Mac} {ip : Text} (hflag : s.flag mac = some yes)
    (hip : s.ip4 mac = some ip) (hrules : rulesFor s.chain mac = [.accept ip mac]) :
    SettledOn s mac where
  enabled _ := ⟨ip, hip, hrules⟩
  disabled hno := absurd (hflag.symm.trans hno) (by decide)
  unset hne _ := absurd hflag hne

theorem settledOn_of_no {s : State} {mac : Mac} (hflag : s.flag mac = some no)
    (hrules : rulesFor s.chain mac = [] ∨ rulesFor s.chain mac = [.drop mac]) :
    SettledOn s mac where
  enabled hyes := absurd (hflag.symm.trans hyes) (by decide)
  disabled _ := hrules
  unset _ hne := absurd hflag hne

theorem SettledOn.not_enabled {s : State} {mac : Mac} (h : SettledOn s mac)
    (hflag : s.flag mac ≠ some yes) :
    rulesFor s.chain mac = [] ∨ rulesFor s.chain mac = [.drop mac] := by
  by_cases hno : s.flag mac = some no
  · exact h.disabled hno
  · exact Or.inl (h.unset hflag hno)

theorem SettledOn.not_accept {s : State} {mac : Mac} (h : SettledOn s mac)
    (hflag : s.flag mac ≠ some yes) (ip : Text) : .accept ip mac ∉ s.chain := by
  rw [← accept_mem_rulesFor]
  rcases h.not_enabled hflag with hr | hr <;> simp [hr]

theorem SettledOn.agreesOn {s : State} {mac : Mac} (h : SettledOn s mac) : AgreesOn s mac where
  enabled hyes := by
    obtain ⟨ip, hip, hr⟩ := h.enabled hyes
    refine ⟨ip, hip, ?_, ?_⟩
    · rw [← accept_mem_rulesFor, hr]
      exact List.mem_singleton_self _
    · rw [← drop_mem_rulesFor, hr]
      simp
  disabled hno := h.not_accept (by rw [hno]; decide)

/-- A single command that changes the switch carries the stored address, unless the thing
was not enabled and is turned off. -/
def SwitchOk (s : State) (sw : Switch) (mac : Mac) (ip : Text) : Prop :=
  ip = [] ∨ s.flag mac = some sw.value ∨ (sw = .off ∧ s.flag mac ≠ some yes) ∨ s.ip4 mac = some ip

section Switched

variable {s : State} {sw : Switch} {mac : Mac} {ip : Text}

theorem iptablesSetThing_same (h : ip = [] ∨ s.flag mac = some sw.value) :
    iptablesSetThing sw ip mac s = s := by
  unfold iptablesSetThing
  rcases h with h | h <;> simp [h]

theorem iptablesSetThing_changed (hip : ip ≠ []) (hflag : s.flag mac ≠ some sw.value) :
    iptablesSetThing sw ip mac s =
      ⟨hset s.things mac .enableToBrowse sw.value, switchRules sw ip mac s.chain⟩ := by
  simp [iptablesSetThing, hip, hflag]

theorem ip4_hset_enable (chain : List Rule) (mac' : Mac) (v : Text) :
    State.ip4 ⟨hset s.things mac .enableToBrowse v, chain⟩ mac' = s.ip4 mac' :=
  hget_hset_of_field_ne (by decide) _ _ _ _

theorem flag_hset_enable (chain : List Rule) (v : Text) :
    State.flag ⟨hset s.things mac .enableToBrowse v, chain⟩ mac = some v :=
  hget_hset_same _ _ _ _

theorem flag_hset_enable_ne {mac' : Mac} (h : mac' ≠ mac) (chain : List Rule) (v : Text) :
    State.flag ⟨hset s.things mac .enableToBrowse v, chain⟩ mac' = s.flag mac' :=
  hget_hset_of_key_ne h _ _ _ _

/-- The rules for a MAC after its thing was switched. -/
theorem SettledOn.switched (h : SettledOn s mac) (hflag : s.flag mac ≠ some sw.value)
    (hok : (sw = .off ∧ s.flag mac ≠ some yes) ∨ s.ip4 mac = some ip) :
    SettledOn ⟨hset s.things mac .enableToBrowse sw.value, switchRules sw ip mac s.chain⟩ mac := by
  cases sw with
  | on =>
      have hip : s.ip4 mac = some ip := hok.resolve_left (by simp)
      have hrules : rulesFor (switchRules .on ip mac s.chain) mac = [.accept ip mac] := by
        rw [rulesFor_on]
        rcases h.not_enabled hflag with hr | hr <;> simp [hr]
      exact settledOn_of_yes (flag_hset_enable _ _) (by rwa [ip4_hset_enable]) hrules
  | off =>
      have hrules : rulesFor (switchRules .off ip mac s.chain) mac = [.drop mac] := by
        rw [rulesFor_off]
        by_cases hyes : s.flag mac = some yes
        · obtain ⟨ip', hip', hr⟩ := h.enabled hyes
          obtain rfl : ip' = ip :=
            Option.some.inj (hip'.symm.trans (hok.resolve_left fun hne => hne.2 hyes))
          simp [hr]
        · simp [h.unset hyes hflag]
      exact settledOn_of_no (flag_hset_enable _ _) (Or.inr hrules)

theorem Settled.iptablesSetThing (h : Settled s) (hok : SwitchOk s sw mac ip) :
    Settled (iptablesSetThing sw ip mac s) := by
  by_cases hsame : ip = [] ∨ s.flag mac = some sw.value
  · rwa [iptablesSetThing_same hsame]
  · obtain ⟨hip, hflag⟩ := not_or.mp hsame
    rw [iptablesSetThing_changed hip hflag]
    intro mac'
    by_cases hm : mac' = mac
    · subst hm
      exact (h mac').switched hflag ((hok.resolve_left hip).resolve_left hflag)
    · exact (h mac').congr (flag_hset_enable_ne hm _ _) (ip4_hset_enable _ _ _)
        (rulesFor_switch_ne ip s.chain hm sw)

/-- A switch with another address leaves the rule that the thing had, or adds one that
its address does not match. -/
theorem Settled.switchOk (h : Settled s)
    (ha : AgreesOn (ThingFirewall.iptablesSetThing sw ip mac s) mac) : SwitchOk s sw mac ip := by
  by_contra hnot
  simp only [SwitchOk, not_or, not_and, not_not] at hnot
  obtain ⟨hip, hflag, hoff, hne⟩ := hnot
  rw [iptablesSetThing_changed hip hflag] at ha
  cases sw with
  | on =>
      obtain ⟨ip', hip', hmem, -⟩ := ha.enabled (flag_hset_enable _ _)
      rw [ip4_hset_enable] at hip'
      rw [← accept_mem_rulesFor, rulesFor_on] at hmem
      have hold : .accept ip' mac ∉ rulesFor s.chain mac :=
        fun hm => (h mac).not_accept hflag ip' (accept_mem_rulesFor.mp hm)
      rcases List.mem_append.mp hmem with hmem | hmem
      · exact hold (List.mem_of_mem_erase hmem)
      · simp only [List.mem_singleton, Rule.accept.injEq, and_true] at hmem
        exact hne (hmem ▸ hip')
  | off =>
      obtain ⟨ip', hip', hr⟩ := (h mac).enabled (hoff rfl)
      have hkept := ha.disabled (flag_hset_enable _ _) ip'
      rw [← accept_mem_rulesFor, rulesFor_off, hr] at hkept
      have hdiff : ip' ≠ ip := fun heq => hne (heq ▸ hip')
      simp [hdiff] at hkept

end Switched

section Bulk

variable {s : State} {sw : Switch}

/-- The field is set before `iptables-set-thing` looks at it, so the chain stays. -/
theorem switchListed_eq (mac : Mac) :
    switchListed sw s mac = ⟨hset s.things mac .enableToBrowse sw.value, s.chain⟩ :=
  iptablesSetThing_same (Or.inr (flag_hset_enable _ _))

theorem foldl_switchListed_chain (order : List Mac) :
    (order.foldl (switchListed sw) s).chain = s.chain := by
  induction order generalizing s with
  | nil => rfl
  | cons mac order ih => rw [List.foldl_cons, ih, switchListed_eq]

theorem foldl_switchListed_ip4 (order : List Mac) (mac : Mac) :
    (order.foldl (switchListed sw) s).ip4 mac = s.ip4 mac := by
  induction order generalizing s with
  | nil => rfl
  | cons k order ih => rw [List.foldl_cons, ih, switchListed_eq, ip4_hset_enable]

theorem foldl_switchListed_flag (order : List Mac) (mac : Mac) :
    (order.foldl (switchListed sw) s).flag mac =
      if mac ∈ order then some sw.value else s.flag mac := by
  induction order generalizing s with
  | nil => rfl
  | cons k order ih =>
      rw [List.foldl_cons, ih, switchListed_eq]
      by_cases hk : mac = k
      · subst hk
        simp [flag_hset_enable]
      · simp [flag_hset_enable_ne hk, hk]

theorem Settled.all_on (h : Settled s) {order : List Mac}
    (hall : ∀ mac ∈ order, s.flag mac = some yes) : Settled (order.foldl (switchListed .on) s) := by
  intro mac
  refine (h mac).congr ?_ (foldl_switchListed_ip4 _ _) (by rw [foldl_switchListed_chain])
  rw [foldl_switchListed_flag]
  split_ifs with hmem
  · exact (hall mac hmem).symm
  · rfl

/-- A thing that a bulk command enables has no rule that accepts it. -/
theorem Settled.all_on_of_agree (h : Settled s) {order : List Mac}
    (ha : Agree (order.foldl (switchListed .on) s)) : ∀ mac ∈ order, s.flag mac = some yes := by
  intro mac hmem
  by_contra hne
  obtain ⟨ip, -, hacc, -⟩ :=
    (ha mac).enabled (by simp [foldl_switchListed_flag, hmem, Switch.value])
  rw [foldl_switchListed_chain] at hacc
  exact (h mac).not_accept hne ip hacc

theorem Settled.all_off (h : Settled s) {order : List Mac}
    (hall : ∀ mac ∈ order, s.flag mac ≠ some yes) :
    Settled (order.foldl (switchListed .off) s) := by
  intro mac
  by_cases hmem : mac ∈ order
  · have hflag : (order.foldl (switchListed .off) s).flag mac = some no := by
      simp [foldl_switchListed_flag, hmem, Switch.value]
    refine settledOn_of_no hflag ?_
    rw [foldl_switchListed_chain]
    exact (h mac).not_enabled (hall mac hmem)
  · refine (h mac).congr ?_ (foldl_switchListed_ip4 _ _) (by rw [foldl_switchListed_chain])
    simp [foldl_switchListed_flag, hmem]

/-- A thing that a bulk command disables keeps the rule that accepts it. -/
theorem Settled.all_off_of_agree (h : Settled s) {order : List Mac}
    (ha : Agree (order.foldl (switchListed .off) s)) : ∀ mac ∈ order, s.flag mac ≠ some yes := by
  intro mac hmem hyes
  obtain ⟨ip, -, hr⟩ := (h mac).enabled hyes
  have hno := (ha mac).disabled (by simp [foldl_switchListed_flag, hmem, Switch.value]) ip
  rw [foldl_switchListed_chain, ← accept_mem_rulesFor, hr] at hno
  exact hno (List.mem_singleton_self _)

end Bulk

/-- The commands that keep firewall and panel in agreement. -/
def CommandOk (s : State) : Command → Prop
  | .thing sw (some mac) ip => SwitchOk s sw mac ip
  | .allThingsOn order => ∀ mac ∈ order, s.flag mac = some yes
  | .allThingsOff ip (some admin) order =>
      ip = [] ∨ ∀ mac ∈ order, mac ≠ admin → s.flag mac ≠ some yes
  | _ => True

/-- Single commands carry the stored address, bulk commands change no switch, and an enabled
thing keeps its address. -/
def EventOk (s : State) : Event → Prop
  | .command c => (∀ order ∈ c.order, order.Perm s.things.keys) → CommandOk s c
  | .pageNotFound _ _ _ => True
  | .discovered mac ip _ => s.flag mac = some yes → s.ip4 mac = some ip

theorem Settled.execNextCmd {s : State} (h : Settled s) {c : Command} (hok : CommandOk s c) :
    Settled (execNextCmd s c) := by
  cases c with
  | thing sw mac ip =>
      cases mac with
      | none => exact h
      | some mac => exact h.iptablesSetThing hok
  | allThingsOn order => exact h.all_on hok
  | allThingsOff ip admin order =>
      cases admin with
      | none => exact h
      | some admin =>
          simp only [ThingFirewall.execNextCmd]
          split_ifs with hip
          · exact h
          · refine h.all_off fun mac hmem => ?_
            obtain ⟨hmem, hne⟩ := List.mem_filter.mp hmem
            exact hok.resolve_left hip mac hmem (by simpa using hne)
  | unknown => exact h

theorem Settled.commandOk {s : State} (h : Settled s) {c : Command}
    (ha : Agree (ThingFirewall.execNextCmd s c)) : CommandOk s c := by
  cases c with
  | thing sw mac ip =>
      cases mac with
      | none => trivial
      | some mac => exact h.switchOk (ha mac)
  | allThingsOn order => exact h.all_on_of_agree ha
  | allThingsOff ip admin order =>
      cases admin with
      | none => trivial
      | some admin =>
          simp only [ThingFirewall.execNextCmd] at ha
          split_ifs at ha with hip
          · exact Or.inl hip
          · refine Or.inr fun mac hmem hne => ?_
            exact h.all_off_of_agree ha mac (List.mem_filter.mpr ⟨hmem, by simpa using hne⟩)
  | unknown => trivial

/-- The handler of unknown pages only disables things that no rule accepts. -/
theorem Settled.pageNotFound {s : State} (h : Settled s) (mac : Mac) (ip : Text) (now : ℕ) :
    Settled ⟨resetUnlessEnabled Mac.text s.things mac ip now, s.chain⟩ := by
  intro mac'
  by_cases hm : mac' = mac
  · subst hm
    by_cases hyes : s.flag mac' = some yes
    · rw [resetUnlessEnabled_of_enabled hyes]
      exact h mac'
    · exact settledOn_of_no (hget_resetUnlessEnabled_enable hyes) ((h mac').not_enabled hyes)
  · exact (h mac').congr (hget_resetUnlessEnabled_ne hm _) (hget_resetUnlessEnabled_ne hm _) rfl

theorem Settled.discovered {s : State} (h : Settled s) {mac : Mac} {ip : Text}
    (hok : s.flag mac = some yes → s.ip4 mac = some ip) (now : ℕ) :
    Settled ⟨fillThingInfo Mac.text s.things mac ip now false, s.chain⟩ := by
  intro mac'
  by_cases hm : mac' = mac
  · subst hm
    by_cases hmem : mac' ∈ s.things
    · rw [fillThingInfo_of_mem hmem]
      have hflag : State.flag ⟨hset s.things mac' .ip4 ip, s.chain⟩ mac' = s.flag mac' :=
        hget_hset_of_field_ne (by decide) _ _ _ _
      have hip : State.ip4 ⟨hset s.things mac' .ip4 ip, s.chain⟩ mac' = some ip :=
        hget_hset_same _ _ _ _
      by_cases hyes : s.flag mac' = some yes
      · exact (h mac').congr hflag (hip.trans (hok hyes).symm) rfl
      · exact ⟨fun hy => absurd (hflag ▸ hy) hyes, hflag ▸ (h mac').disabled,
          hflag ▸ (h mac').unset⟩
    · have hnone : s.flag mac' = none := hget_of_notMem hmem _
      refine settledOn_of_no (hget_fillThingInfo_enable hmem) ((h mac').not_enabled ?_)
      simp [hnone]
  · exact (h mac').congr (hget_fillThingInfo_ne hm _ _) (hget_fillThingInfo_ne hm _ _) rfl

/-- An enabled thing that is found at a new address has no rule for it. -/
theorem Settled.discovered_of_agree {s : State} (h : Settled s) {mac : Mac} {ip : Text} {now : ℕ}
    (ha : Agree ⟨fillThingInfo Mac.text s.things mac ip now false, s.chain⟩)
    (hyes : s.flag mac = some yes) : s.ip4 mac = some ip := by
  rw [fillThingInfo_of_mem (mem_of_hget hyes)] at ha
  obtain ⟨ip', hip', hmem, -⟩ :=
    (ha mac).enabled ((hget_hset_of_field_ne (by decide) _ _ _ _).trans hyes)
  obtain rfl : ip = ip' := Option.some.inj ((hget_hset_same _ _ _ _).symm.trans hip')
  obtain ⟨ip'', hip'', hr⟩ := (h mac).enabled hyes
  rw [← accept_mem_rulesFor, hr] at hmem
  simp only [List.mem_singleton, Rule.accept.injEq, and_true] at hmem
  exact hmem ▸ hip''

theorem Settled.step {s : State} (h : Settled s) {ev : Event} (hok : EventOk s ev) :
    Settled (step s ev) := by
  cases ev with
  | command c =>
      simp only [ThingFirewall.step]
      split_ifs with horder
      · exact h.execNextCmd (hok horder)
      · exact h
  | pageNotFound mac ip now => exact h.pageNotFound mac ip now
  | discovered mac ip now => exact h.discovered hok now

theorem Settled.eventOk {s : State} (h : Settled s) {ev : Event}
    (ha : Agree (ThingFirewall.step s ev)) : EventOk s ev := by
  cases ev with
  | command c =>
      intro horder
      simp only [ThingFirewall.step, if_pos horder] at ha
      exact h.commandOk ha
  | pageNotFound mac ip now => trivial
  | discovered mac ip now => exact h.discovered_of_agree ha

/-- The rules that `iptables-restore-things` makes for one thing. -/
def restoredRules (things : Things Mac) (mac : Mac) : List Rule :=
  restoreThing things [] mac

theorem rulesFor_restoreThing_ne {mac mac' : Mac} (h : mac' ≠ mac) (things : Things Mac)
    (chain : List Rule) : rulesFor (restoreThing things chain mac) mac' = rulesFor chain mac' := by
  unfold restoreThing
  split
  · split_ifs
    · rfl
    · exact rulesFor_switch_ne _ _ h _
    · exact rulesFor_switch_ne _ _ h _
    · rfl
  · rfl

theorem rulesFor_restoreThing {things : Things Mac} {chain : List Rule} {mac : Mac}
    (h : rulesFor chain mac = []) :
    rulesFor (restoreThing things chain mac) mac = restoredRules things mac := by
  unfold restoredRules restoreThing
  split
  · split_ifs
    · exact h
    · rw [rulesFor_on, h]
      rfl
    · rw [rulesFor_off, h]
      rfl
    · exact h
  · exact h

theorem rulesFor_foldl_restoreThing_notMem {order : List Mac} {mac : Mac} (h : mac ∉ order)
    (things : Things Mac) (chain : List Rule) :
    rulesFor (order.foldl (restoreThing things) chain) mac = rulesFor chain mac := by
  induction order generalizing chain with
  | nil => rfl
  | cons k order ih =>
      rw [List.mem_cons, not_or] at h
      rw [List.foldl_cons, ih h.2, rulesFor_restoreThing_ne h.1]

theorem rulesFor_foldl_restoreThing {things : Things Mac} {order : List Mac} (hn : order.Nodup)
    {chain : List Rule} {mac : Mac} (h : rulesFor chain mac = []) (hmem : mac ∈ order) :
    rulesFor (order.foldl (restoreThing things) chain) mac = restoredRules things mac := by
  induction order generalizing chain with
  | nil => simp at hmem
  | cons k order ih =>
      obtain ⟨hk, hn⟩ := List.nodup_cons.mp hn
      rw [List.foldl_cons]
      by_cases hkm : mac = k
      · subst hkm
        rw [rulesFor_foldl_restoreThing_notMem hk, rulesFor_restoreThing h]
      · refine ih hn ?_ ((List.mem_cons.mp hmem).resolve_left hkm)
        rw [rulesFor_restoreThing_ne hkm, h]

section Restored

variable {things : Things Mac} {order : List Mac} {base : ℕ}

/-- Every enabled thing has an address. -/
def Complete (things : Things Mac) : Prop :=
  ∀ mac, hget things mac .enableToBrowse = some yes → ∃ ip, ip ≠ [] ∧ hget things mac .ip4 = some ip

theorem rulesFor_base (base : ℕ) (mac : Mac) :
    rulesFor ((List.range base).map .other) mac = [] := by
  simp [rulesFor, Rule.concerns]

theorem rulesFor_restored (horder : order.Perm things.keys) {mac : Mac} (hmem : mac ∈ things) :
    rulesFor (iptablesRestoreThings things order base).chain mac = restoredRules things mac :=
  rulesFor_foldl_restoreThing (horder.nodup_iff.mpr things.keys_nodup) (rulesFor_base base mac)
    (horder.mem_iff.mpr (AList.mem_keys.mp hmem))

theorem settled_restored (horder : order.Perm things.keys) (hc : Complete things) :
    Settled (iptablesRestoreThings things order base) := by
  intro mac
  by_cases hmem : mac ∈ things
  · have hrules : rulesFor (iptablesRestoreThings things order base).chain mac =
      restoredRules things mac := rulesFor_restored horder hmem
    by_cases hyes : hget things mac .enableToBrowse = some yes
    · obtain ⟨ip, hne, hip⟩ := hc mac hyes
      refine settledOn_of_yes hyes hip (hrules.trans ?_)
      simp [restoredRules, restoreThing, hyes, hip, hne, switchRules]
    · by_cases hno : hget things mac .enableToBrowse = some no
      · refine settledOn_of_no hno ?_
        rw [hrules]
        by_cases hip : (hget things mac .ip4).getD [] = []
        · exact Or.inl (by simp [restoredRules, restoreThing, hno, hip])
        · refine Or.inr ?_
          simp [restoredRules, restoreThing, hno, hip, switchRules, yes, no]
      · refine ⟨fun hy => absurd hy hyes, fun hn => absurd hn hno, fun _ _ => hrules.trans ?_⟩
        unfold restoredRules restoreThing
        split
        · rename_i state heq
          have hsy : state ≠ yes := fun h => hyes (h ▸ heq)
          have hsn : state ≠ no := fun h => hno (h ▸ heq)
          simp [hsy, hsn]
        · rfl
  · have hnone : (iptablesRestoreThings things order base).flag mac = none := hget_of_notMem hmem _
    have hnot : mac ∉ order := fun h => hmem (AList.mem_keys.mpr (horder.mem_iff.mp h))
    have hrules : rulesFor (iptablesRestoreThings things order base).chain mac = [] :=
      (rulesFor_foldl_restoreThing_notMem hnot _ _).trans (rulesFor_base base mac)
    exact ⟨by simp [hnone], by simp [hnone], fun _ _ => hrules⟩

theorem complete_of_agree (horder : order.Perm things.keys)
    (ha : Agree (iptablesRestoreThings things order base)) : Complete things := by
  intro mac hyes
  obtain ⟨ip, hip, hmem, -⟩ := (ha mac).enabled hyes
  refine ⟨ip, ?_, hip⟩
  rintro rfl
  have hip' : hget things mac .ip4 = some [] := hip
  rw [← accept_mem_rulesFor, rulesFor_restored horder (mem_of_hget hyes)] at hmem
  simp [restoredRules, restoreThing, hyes, hip'] at hmem

/-- From the restored chain, what the panel shows is what the firewall does in every state
of a run, if and only if every enabled thing had an address, no single command carries
another address than the stored one, no bulk command changes a switch and no enabled
thing changes its address. -/
theorem agree_iff (horder : order.Perm things.keys) (evs : List Event) :
    Throughout step Agree (iptablesRestoreThings things order base) evs ↔
      Complete things ∧ Along step EventOk (iptablesRestoreThings things order base) evs := by
  have hrun : Complete things →
      (Throughout step Agree (iptablesRestoreThings things order base) evs ↔
        Along step EventOk (iptablesRestoreThings things order base) evs) := by
    intro hc
    refine throughout_iff_along (I := Settled) (A := fun _ _ => True)
      (fun _ h mac => (h mac).agreesOn) ?_ (fun _ _ h _ hok => h.step hok)
      (settled_restored horder hc) (along_of_forall (fun _ _ => trivial) _ evs)
    exact fun s ev h _ => ⟨h.eventOk, fun hok mac => (h.step hok mac).agreesOn⟩
  constructor
  · intro h
    have hc := complete_of_agree horder h.start
    exact ⟨hc, (hrun hc).mp h⟩
  · rintro ⟨hc, h⟩
    exact (hrun hc).mpr h

end Restored

/-- The only thing of a small network. -/
def phone : Mac := ⟨"aa:bb:cc:dd:ee:ff".toList, by simp⟩

/-- A device that is not in the store. -/
def router : Mac := ⟨"00:11:22:33:44:55".toList, by simp⟩

def enabledPhone : Things Mac :=
  hmset ∅ phone [(.enableToBrowse, yes), (.ip4, "10.0.0.2".toList)]

theorem agree_iff_enabled_phone :
    [phone].Perm enabledPhone.keys ∧
    (Throughout step Agree (iptablesRestoreThings enabledPhone [phone] 2)
        [.command (.thing .off (some phone) "10.0.0.2".toList)] ↔
      Complete enabledPhone ∧ Along step EventOk (iptablesRestoreThings enabledPhone [phone] 2)
        [.command (.thing .off (some phone) "10.0.0.2".toList)]) :=
  ⟨by decide, agree_iff (by decide) _⟩

/-- All things are turned off. The phone is shown as disabled and its packets flow. -/
theorem all_things_off_still_accepted :
    (step (iptablesRestoreThings enabledPhone [phone] 2)
      (.command (.allThingsOff "10.0.0.1".toList (some router) [phone]))).flag phone = some no ∧
    .accept "10.0.0.2".toList phone ∈ (step (iptablesRestoreThings enabledPhone [phone] 2)
      (.command (.allThingsOff "10.0.0.1".toList (some router) [phone]))).chain := by
  decide

end Dowse.ThingFirewall
