import Dowse.RedisServer
import Dowse.WebUi

/-!
# The party mode between the panel and the resolver

An admin switches the party mode on and off with a request to the web server, which stores
the last part of the operation's name, and the resolver asks for the stored value with
every packet. The server writes `on` and `off` and its own pages test for these words. The
resolver looks for a value that begins with `yes`, which nobody ever writes.
-/
namespace Dowse.PartyMode
open CStrings DnsPlugin GuardedRuns

/-- The two programs, and the last party-mode command that was accepted. -/
structure Panel where
  web : WebUi.State
  data : PluginData
  last : Option Bool

inductive Event
  | request (req : WebUi.Request)
  | packet (env : Env) (packet : Packet)

/-- A request of an admin that switches the party mode on or off. -/
def accepted (s : WebUi.State) (req : WebUi.Request) : Option Bool :=
  if req.route = .cmd ∧ WebUi.callerInfo s req .isadmin = some ThingStore.yes then
    if WebUi.arg req "op" = some "PARTY_MODE_ON".toList then some true
    else if WebUi.arg req "op" = some "PARTY_MODE_OFF".toList then some false
    else none
  else none

def step (s : Panel) : Event → Panel
  | .request req => ⟨WebUi.step s.web req, s.data, (accepted s.web req).or s.last⟩
  | .packet env packet => ⟨s.web, DnsPlugin.step s.data (env, packet), s.last⟩

/-- The storage holds what the web server has written. -/
structure Mirrors (db : Database) (s : WebUi.State) : Prop where
  partyMode : db.get "party_mode".toList = s.partyMode
  enable : ∀ mac, db.hget ("thing_".toList ++ mac) "enable_to_browse".toList =
    KeyedHashes.hget s.things mac .enableToBrowse

/-- A packet from another host, whose address is known and whose thing is not enabled. -/
structure Guest (s : Panel) (env : Env) (packet : Packet) : Prop where
  client : packet.client ≠ localhost
  storage : ∃ db, Serves env .storage db ∧ Mirrors db s.web
  thing : ∃ addr, env.arp (s.data.interface.take 15) packet.client = some addr ∧
    ¬ beginsYes (some (bulk
      (KeyedHashes.hget s.web.things (ethernetMactoa addr) .enableToBrowse)))

/-- A guest's packet passes the portal exactly when the party mode was switched on last. The
call that the portal is reached with is any that knows the client and the interface. -/
def Agrees (s : Panel) (ev : Event) : Prop :=
  ∀ env packet, ev = .packet env packet → Guest s env packet →
    ∀ id question ip4 c, inetNtoa packet.client = some ip4 → c.data.ip4Addr = packet.client →
      c.data.interface = s.data.interface →
        (((captivePortal env id question ip4).run c).1 = none ↔ s.last = some true)

/-- No guest's packet comes while the party mode is switched on. -/
def Sober (s : Panel) (ev : Event) : Prop :=
  ∀ env packet, ev = .packet env packet → Guest s env packet → s.last ≠ some true

section Requests
variable (s : WebUi.State) (req : WebUi.Request)

theorem modifyThings_partyMode : (WebUi.modifyThings s req).2.partyMode = s.partyMode := by
  unfold WebUi.modifyThings WebUi.updateThing WebUi.deleteThing
  repeat' split
  all_goals rfl

theorem asAdmin_partyMode (k : WebUi.Response × WebUi.State) :
    (WebUi.asAdmin s req k).2.partyMode =
      if WebUi.callerInfo s req .isadmin = some ThingStore.yes then k.2.partyMode
      else s.partyMode := by
  unfold WebUi.asAdmin
  split
  · rename_i hnone
    rw [if_neg (by rw [hnone]; exact nofun)]
  · rename_i isadmin hsome
    by_cases hyes : isadmin = ThingStore.yes <;> simp [hsome, hyes]

theorem modifyPrivThings_partyMode : (WebUi.modifyPrivThings s req).2.partyMode = s.partyMode := by
  unfold WebUi.modifyPrivThings
  rw [asAdmin_partyMode]
  repeat' split
  all_goals rfl

theorem testAdmin_partyMode : (WebUi.testAdmin s req).2.partyMode = s.partyMode := by
  unfold WebUi.testAdmin
  dsimp only
  repeat' split
  all_goals rfl

theorem resetAdmin_partyMode : (WebUi.resetAdmin s req).2.partyMode = s.partyMode := by
  unfold WebUi.resetAdmin
  rw [asAdmin_partyMode, ite_self]

theorem pageNotFound_partyMode : (WebUi.pageNotFound s req).2.partyMode = s.partyMode := by
  unfold WebUi.pageNotFound
  split <;> rfl

/-- What the server writes for a command. -/
def word (on : Bool) : Text := if on then "on".toList else "off".toList

theorem publishCommand_partyMode (oper mac ipb : Text) :
    (WebUi.publishCommand s req oper mac ipb).2.partyMode = s.partyMode := by
  unfold WebUi.publishCommand
  split <;> rfl

theorem cmd_partyMode (h : req.route = .cmd) :
    (WebUi.cmd s req).2.partyMode = ((accepted s req).map word).or s.partyMode := by
  unfold WebUi.cmd accepted
  rw [asAdmin_partyMode]
  by_cases hadmin : WebUi.callerInfo s req .isadmin = some ThingStore.yes
  · rw [if_pos hadmin, if_pos ⟨h, hadmin⟩]
    cases hop : WebUi.arg req "op" with
    | none => rfl
    | some oper =>
        simp only [Option.some_inj]
        by_cases hon : oper = "PARTY_MODE_ON".toList
        · subst hon
          rw [if_neg (by decide), if_neg (by decide), if_neg (by decide), if_pos rfl, if_pos rfl]
          rfl
        · by_cases hoff : oper = "PARTY_MODE_OFF".toList
          · subst hoff
            rw [if_neg (by decide), if_neg (by decide), if_pos rfl, if_neg (by decide), if_pos rfl]
            rfl
          · rw [if_neg hon, if_neg hoff, if_neg hon, if_neg hoff]
            repeat' split
            all_goals first | rfl | exact publishCommand_partyMode s req _ _ _
  · rw [if_neg hadmin, if_neg (fun hboth => hadmin hboth.2)]
    rfl

/-- The party mode changes with the commands that are accepted, and with nothing else. -/
theorem step_partyMode :
    (WebUi.step s req).partyMode = ((accepted s req).map word).or s.partyMode := by
  by_cases hcmd : req.route = .cmd
  · have hserve : WebUi.serve s req = WebUi.cmd s req := by
      simp [WebUi.serve, hcmd, WebUi.Route.allows]
    rw [WebUi.step, hserve, cmd_partyMode s req hcmd]
  · have hnone : accepted s req = none := by
      rw [accepted, if_neg (fun h => hcmd h.1)]
    rw [hnone, Option.map_none, Option.none_or, WebUi.step, WebUi.serve]
    split_ifs
    · split
      · rfl
      · rfl
      · rfl
      · exact modifyThings_partyMode s req
      · exact modifyPrivThings_partyMode s req
      · exact testAdmin_partyMode s req
      · exact resetAdmin_partyMode s req
      · rfl
      · contradiction
      · rfl
      · rfl
      · rfl
      · exact pageNotFound_partyMode s req
    · rfl

end Requests

/-- The party mode is not a word that opens the portal. -/
def Closed (s : Panel) : Prop := ¬ beginsYes (some (bulk s.web.partyMode))

theorem closed_step {s : Panel} (h : Closed s) (ev : Event) : Closed (step s ev) := by
  cases ev with
  | packet env packet => exact h
  | request req =>
      unfold Closed
      rw [step, step_partyMode]
      cases accepted s.web req with
      | none => exact h
      | some on => cases on <;> exact of_decide_eq_true rfl

/-- The portal is closed to a guest whatever the last command was. -/
theorem portal_closed {s : Panel} (h : Closed s) {env : Env} {packet : Packet}
    (hguest : Guest s env packet) (id : UInt16) (question : Question) {ip4 : Text} {c : Call}
    (hip : inetNtoa packet.client = some ip4) (hclient : c.data.ip4Addr = packet.client)
    (hinterface : c.data.interface = s.data.interface) :
    ((captivePortal env id question ip4).run c).1 ≠ none := by
  obtain ⟨db, hserves, hmirrors⟩ := hguest.storage
  obtain ⟨addr, harp, hthing⟩ := hguest.thing
  have hexact : ((captivePortal env id question ip4).run c).1 = none ↔ _ :=
    captivePortal_exact hserves id question ip4 c c rfl
  rw [ne_eq, hexact]
  rintro (hlocal | ⟨addr', harp', hopen⟩)
  · refine hguest.client (inetNtoa_injective ?_)
    rw [hip, hlocal]
    decide
  · rw [derived, hclient, hinterface, harp, Option.some_inj] at harp'
    subst harp'
    rw [Open, hmirrors.partyMode, hmirrors.enable] at hopen
    exact hopen.elim h hthing

theorem agrees_iff_sober {s : Panel} (h : Closed s) (ev : Event) : Agrees s ev ↔ Sober s ev := by
  constructor
  · intro hagrees env packet hev hguest hlast
    obtain ⟨ip4, hip⟩ : ∃ ip4, inetNtoa packet.client = some ip4 := ⟨_, rfl⟩
    let c : Call := ⟨{ s.data with ip4Addr := packet.client }, []⟩
    have hpasses := (hagrees env packet hev hguest 0 ⟨none, 0, 0⟩ ip4 c hip rfl rfl).mpr hlast
    exact portal_closed h hguest 0 ⟨none, 0, 0⟩ hip rfl rfl hpasses
  · intro hsober env packet hev hguest id question ip4 c hip hclient hinterface
    exact iff_of_false (portal_closed h hguest id question hip hclient hinterface)
      (hsober env packet hev hguest)

/-- In every run from a state where the party mode is not set or off, every guest's packet is
treated as the last party-mode command demands, if and only if none comes while that command is
the one to switch it on. -/
theorem partyMode_agrees_iff {web : WebUi.State} (data : PluginData)
    (h : web.partyMode = none ∨ web.partyMode = some "off".toList) (evs : List Event) :
    Along step Agrees ⟨web, data, none⟩ evs ↔ Along step Sober ⟨web, data, none⟩ evs := by
  have hclosed : Closed ⟨web, data, none⟩ := by
    obtain h | h := h
    · unfold Closed
      rw [h]
      decide
    · unfold Closed
      rw [h]
      decide
  constructor
  · exact Along.imp (I := Closed) (fun _ ev hs _ => closed_step hs ev)
      (fun _ ev hs => (agrees_iff_sober hs ev).mp) hclosed
  · exact Along.imp (I := Closed) (fun _ ev hs _ => closed_step hs ev)
      (fun _ ev hs => (agrees_iff_sober hs ev).mpr) hclosed

/-- A house with one admin and nothing else in the store. -/
def house : WebUi.State :=
  ⟨KeyedHashes.hset ∅ "02:00:00:00:00:01".toList .isadmin ThingStore.yes, none, fun _ => none, []⟩

def switchOn : WebUi.Request :=
  ⟨.cmd, .get, [("op".toList, "PARTY_MODE_ON".toList)], [], "192.168.0.2".toList,
    [("192.168.0.2".toList, "02:00:00:00:00:01".toList)], 0⟩

/-- What the storage of the house answers for a value of the party mode. -/
def houseDatabase (partyMode : Option Text) : Database where
  get key := if key = "party_mode".toList then partyMode else none
  hget _ _ := none

def houseEnv (partyMode : Option Text) : Env :=
  { lanEnv with redis := fun _ command => (houseDatabase partyMode).reply command }

/-- A device of the house that has no thing yet. -/
def visitor : Packet := ⟨[], ⟨192, 168, 0, 7⟩⟩

theorem guest_visitor {s : Panel} (hthings : s.web.things = house.things)
    (hinterface : s.data.interface = "eth0".toList) :
    Guest s (houseEnv s.web.partyMode) visitor := by
  have hmirrors : Mirrors (houseDatabase s.web.partyMode) s.web := by
    have hmode : (if "party_mode".toList = "party_mode".toList then s.web.partyMode else none) =
      s.web.partyMode := if_pos rfl
    refine ⟨hmode, fun mac => ?_⟩
    rw [hthings, house, KeyedHashes.hget_hset_of_field_ne (by decide),
      KeyedHashes.hget_of_notMem (AList.notMem_empty mac)]
    rfl
  refine ⟨by decide, ⟨_, serves_of_reply fun _ => rfl, hmirrors⟩,
    ⟨[2, 0, 0, 0, 0, 7], rfl⟩, ?_, ?_⟩
  · rw [hinterface]
    rfl
  · rw [← hmirrors.enable]
    exact Bool.false_ne_true

theorem partyMode_agrees_iff_visitor :
    house.partyMode = none ∧
      Along step Agrees ⟨house, lanData, none⟩ [.packet (houseEnv none) visitor] := by
  refine ⟨rfl, (partyMode_agrees_iff lanData (.inl rfl) _).mpr ⟨?_, trivial⟩⟩
  intro _ _ _ _ hlast
  cases hlast

/-- The admin switches the party mode on and the request is accepted, and the next guest is
still sent to the portal. -/
theorem party_closed_to_guest :
    accepted house switchOn = some true ∧
      (step ⟨house, lanData, none⟩ (.request switchOn)).web.partyMode = some "on".toList ∧
      Guest (step ⟨house, lanData, none⟩ (.request switchOn)) (houseEnv (some "on".toList))
        visitor ∧
      ¬ Along step Agrees ⟨house, lanData, none⟩
        [.request switchOn, .packet (houseEnv (some "on".toList)) visitor] := by
  have haccepted : accepted house switchOn = some true := by decide
  have hmode : (step ⟨house, lanData, none⟩ (.request switchOn)).web.partyMode =
      some "on".toList := by
    rw [step, step_partyMode, haccepted]
    rfl
  have hguest : Guest (step ⟨house, lanData, none⟩ (.request switchOn))
      (houseEnv (some "on".toList)) visitor := by
    rw [← hmode]
    exact guest_visitor rfl rfl
  refine ⟨haccepted, hmode, hguest, ?_⟩
  rintro ⟨-, hagrees, -⟩
  have hclosed : Closed (step ⟨house, lanData, none⟩ (.request switchOn)) := by
    unfold Closed
    rw [hmode]
    decide
  refine (agrees_iff_sober hclosed _).mp hagrees _ _ rfl hguest ?_
  rw [step, haccepted]
  rfl

end Dowse.PartyMode
