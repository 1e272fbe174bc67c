import Dowse.CommandActions
import Dowse.Discovery
import Dowse.WebUiAdmins

/-!
# What requests and scans write into the store of things

The scripts put keys and addresses of the store into lines for the shell and for redis, which
take a text apart at blanks, quotes and backslashes. The lines mean what they say as long as
these texts are plain, and plain requests and scans keep them so. Every write of theirs is of a
field other than `enable_to_browse`, or of `no` into it.

The lines that such requests publish have plain words, and each of them is one of two kinds: for
one thing or for all of them.
-/
namespace Dowse.AccessControl
open CStrings KeyedHashes ThingStore CommandActions
open ThingFirewall (Switch)

/-- The address and the MAC of a caller are plain, and so are the MACs in its forms. -/
structure PlainRequest (req : WebUi.Request) : Prop where
  remoteAddr : Plain req.remoteAddr
  callerMac : Plain req.callerMac
  macaddr : ∀ mac, WebUi.arg req "macaddr" = some mac ∨ WebUi.formField req "macaddr" = some mac ∨
    WebUi.formField req "curmac" = some mac → Plain mac

/-- A host of a scan whose values can be quoted, and whose addresses are plain or missing. -/
structure PlainHost (host : Discovery.Host) : Prop where
  quotable : host.Plain
  mac : Discovery.lower host.mac ≠ [] → Plain (Discovery.lower host.mac)
  address : ∀ item ∈ ["macaddr".toList, "ip4".toList], host.value item ≠ [] →
    Plain (Discovery.lower (host.value item))

structure PlainStore (t : Things Text) : Prop where
  keys : ∀ key ∈ t, Plain key
  fields : ∀ key f v, f = .ip4 ∨ f = .macaddr → hget t key f = some v → Plain v

/-- The write of a field that turns no thing on. -/
structure Allowed (key : Text) (f : ThingField) (v : Text) : Prop where
  key : Plain key
  flag : f = .enableToBrowse → v = no
  value : f = .ip4 ∨ f = .macaddr → Plain v

/-- A store and what such writes and deletions make of it. -/
inductive Written : Things Text → Things Text → Prop
  | refl (t : Things Text) : Written t t
  | hset {t t' : Things Text} {key : Text} {f : ThingField} {v : Text} :
      Written t t' → Allowed key f v → Written t (hset t' key f v)
  | touch {t t' : Things Text} {key : Text} :
      Written t t' → Plain key → Written t (t'.insert key (hgetall t' key))
  | erase {t t' : Things Text} (key : Text) : Written t t' → Written t (t'.erase key)

section Writes
variable {t t' t'' : Things Text} {key : Text}

theorem Written.trans (h : Written t t') (h' : Written t' t'') : Written t t'' := by
  induction h' with
  | refl => exact h
  | hset _ hok ih => exact ih.hset hok
  | touch _ hkey ih => exact ih.touch hkey
  | erase key _ ih => exact ih.erase key

theorem Written.hmset (h : Written t t') {vals : List (ThingField × Text)}
    (hok : ∀ p ∈ vals, Allowed key p.1 p.2) : Written t (hmset t' key vals) := by
  induction vals generalizing t' with
  | nil => exact h
  | cons p vals ih =>
      obtain ⟨hp, hvals⟩ := List.forall_mem_cons.mp hok
      exact ih (h.hset hp) hvals

/-- The field is as before, or it is gone or `no`. -/
def Lowered (t t' : Things Text) : Prop :=
  ∀ mac, hget t' mac .enableToBrowse = hget t mac .enableToBrowse ∨
    hget t' mac .enableToBrowse = none ∨ hget t' mac .enableToBrowse = some no

theorem Written.lowered (h : Written t t') : Lowered t t' := by
  intro mac
  induction h with
  | refl => exact .inl rfl
  | hset _ hok ih =>
      rw [hget_hset]
      split_ifs with hwritten
      · exact .inr (.inr (congrArg some (hok.flag hwritten.2.symm)))
      · exact ih
  | touch _ _ ih =>
      rw [hget, hgetall_insert]
      split_ifs with hmac
      · rw [hmac] at ih
        exact hmac ▸ ih
      · exact ih
  | erase key _ ih =>
      rw [hget_erase]
      split_ifs
      · exact .inr (.inl rfl)
      · exact ih

theorem PlainStore.hset (h : PlainStore t) {f : ThingField} {v : Text} (hkey : Plain key)
    (hv : f = .ip4 ∨ f = .macaddr → Plain v) : PlainStore (hset t key f v) where
  keys mac hmac := (Discovery.mem_hset.mp hmac).elim (fun heq => heq ▸ hkey) (h.keys mac)
  fields mac g w hg hw := by
    rw [hget_hset] at hw
    split_ifs at hw with hwritten
    · obtain rfl := Option.some.inj hw
      exact hv (hwritten.2 ▸ hg)
    · exact h.fields mac g w hg hw

theorem Written.plain (h : Written t t') (ht : PlainStore t) : PlainStore t' := by
  induction h with
  | refl => exact ht
  | hset _ hok ih => exact ih.hset hok.key hok.value
  | @touch t' key _ hkey ih =>
      refine ⟨fun mac hmac => ?_, fun mac f v hf hv => ?_⟩
      · rcases (AList.mem_insert t').mp hmac with rfl | hmem
        · exact hkey
        · exact ih.keys mac hmem
      · rw [hget, hgetall_insert] at hv
        split_ifs at hv with hmac
        · exact ih.fields key f v hf hv
        · exact ih.fields mac f v hf hv
  | @erase t' key _ ih =>
      refine ⟨fun mac hmac => ih.keys mac (AList.mem_erase.mp hmac).2, fun mac f v hf hv => ?_⟩
      rw [hget_erase] at hv
      split_ifs at hv
      exact ih.fields mac f v hf hv

end Writes

section Requests
variable (s : WebUi.State) {req : WebUi.Request}

theorem allowed_of_field {key v : Text} {f : ThingField} (hkey : Plain key)
    (hf : f = .isadmin ∨ f = .name ∨ f = .age ∨ f = .last) : Allowed key f v := by
  refine ⟨hkey, ?_, ?_⟩
  · rintro rfl
    simp at hf
  · rintro (rfl | rfl) <;> simp at hf

theorem written_asAdmin {k : WebUi.Response × WebUi.State} (h : Written s.things k.2.things) :
    Written s.things (WebUi.asAdmin s req k).2.things := by
  unfold WebUi.asAdmin
  repeat' split
  all_goals first | exact .refl _ | exact h

theorem written_modifyThings (h : PlainRequest req) :
    Written s.things (WebUi.modifyThings s req).2.things := by
  unfold WebUi.modifyThings
  split
  · rename_i mac name hmac _
    have hkey : Plain mac := h.macaddr mac (.inr (.inl hmac))
    unfold WebUi.updateThing WebUi.deleteThing
    repeat' split
    all_goals first
      | exact .refl _
      | exact .hset (.refl _) (allowed_of_field hkey (by simp))
      | exact .erase _ (.refl _)
  · exact .refl _

theorem written_modifyPrivThings (h : PlainRequest req) :
    Written s.things (WebUi.modifyPrivThings s req).2.things := by
  refine written_asAdmin s ?_
  split
  · rename_i mac column hmac _
    have hkey : Plain mac := h.macaddr mac (.inr (.inl hmac))
    repeat' split
    all_goals first
      | exact .refl _
      | exact .hset (.refl _) (allowed_of_field hkey (by simp))
  · exact .refl _

theorem written_testAdmin (h : PlainRequest req) :
    Written s.things (WebUi.testAdmin s req).2.things := by
  unfold WebUi.testAdmin
  split
  · exact .refl _
  · split
    · rename_i mac name hmac _
      have hkey : Plain mac := h.macaddr mac (.inr (.inr hmac))
      dsimp only
      split_ifs
      · exact .refl _
      · refine (Written.refl _).hmset fun p hp => ?_
        rcases List.mem_pair.mp hp with rfl | rfl <;> exact allowed_of_field hkey (by simp)
    · exact .refl _

theorem written_foldl_isadmin {keys : List Text} (h : ∀ key ∈ keys, Plain key) (t : Things Text) :
    Written t (keys.foldl (fun t mac => hset t mac .isadmin no) t) := by
  induction keys generalizing t with
  | nil => exact .refl t
  | cons key keys ih =>
      obtain ⟨hkey, hkeys⟩ := List.forall_mem_cons.mp h
      exact ((Written.refl t).hset (allowed_of_field hkey (by simp))).trans (ih hkeys _)

theorem written_cmd : Written s.things (WebUi.cmd s req).2.things := by
  refine written_asAdmin s ?_
  unfold WebUi.publishCommand
  dsimp only
  repeat' split
  all_goals exact .refl _

theorem written_pageNotFound (h : PlainRequest req) :
    Written s.things (WebUi.pageNotFound s req).2.things := by
  have hallowed : ∀ p ∈ thingDefaults id req.callerMac req.remoteAddr req.now no,
      Allowed req.callerMac p.1 p.2 := by
    simp only [thingDefaults, List.forall_mem_cons, List.not_mem_nil, false_implies, implies_true,
      and_true]
    exact ⟨allowed_of_field h.callerMac (by simp), ⟨h.callerMac, fun _ => rfl, by simp⟩,
      ⟨h.callerMac, by simp, fun _ => h.callerMac⟩, ⟨h.callerMac, by simp, fun _ => h.remoteAddr⟩,
      allowed_of_field h.callerMac (by simp), allowed_of_field h.callerMac (by simp)⟩
  have hreset : Written s.things
      (resetUnlessEnabled id s.things req.callerMac req.remoteAddr req.now) := by
    unfold resetUnlessEnabled
    split_ifs
    · exact .refl _
    · exact ((Written.refl _).hmset hallowed).hset ⟨h.callerMac, fun _ => rfl, by simp⟩
  unfold WebUi.pageNotFound
  split_ifs
  · exact .refl _
  · exact hreset

/-- No request of anybody turns a thing on in the store. -/
theorem written_request (h : PlainRequest req) (hs : PlainStore s.things) :
    Written s.things (WebUi.step s req).things := by
  unfold WebUi.step WebUi.serve
  split_ifs
  · split
    case h_4 => exact written_modifyThings s h
    case h_5 => exact written_modifyPrivThings s h
    case h_6 => exact written_testAdmin s h
    case h_7 => exact written_asAdmin s (written_foldl_isadmin hs.keys s.things)
    case h_9 => exact written_cmd s
    case h_13 => exact written_pageNotFound s h
    all_goals exact .refl _
  · exact .refl _

end Requests

section Scans

theorem written_foldl_writeField {key : Text} (hkey : Plain key) {fields : List (Text × Text)}
    (h : ∀ p ∈ fields, ∀ f, Discovery.fieldOf p.1 = some f → Allowed key f p.2)
    (t : Things Text) : Written t (fields.foldl (Discovery.writeField key) t) := by
  induction fields generalizing t with
  | nil => exact .refl t
  | cons p fields ih =>
      obtain ⟨hp, hfields⟩ := List.forall_mem_cons.mp h
      refine Written.trans ?_ (ih hfields _)
      unfold Discovery.writeField
      split
      · rename_i f hf
        exact .hset (.refl t) (hp f hf)
      · exact .touch (.refl t) hkey

/-- The fields that a scan writes for a host. -/
theorem allowed_itemFields {host : Discovery.Host} (h : PlainHost host) {key : Text}
    (hkey : Plain key) {aged : Bool} {item : Text} (hitem : item ∈ Discovery.nmapArray) :
    ∀ p ∈ Discovery.itemFields aged host item, ∀ f, Discovery.fieldOf p.1 = some f →
      Allowed key f p.2.text := by
  have htime : ∀ name ∈ ["age".toList, "last".toList], ∀ f, Discovery.fieldOf name = some f →
      f = .isadmin ∨ f = .name ∨ f = .age ∨ f = .last := by decide
  intro p hp f hf
  simp only [Discovery.itemFields, List.mem_append, List.mem_singleton] at hp
  rcases hp with (hp | hp) | rfl
  · split_ifs at hp with hvalue
    · cases hp
    · obtain rfl := List.mem_singleton.mp hp
      have hfields : ∀ name ∈ Discovery.nmapArray, ∀ f, Discovery.fieldOf name = some f →
          f ≠ .enableToBrowse ∧ name ∈ ["macaddr".toList, "ip4".toList] := by decide
      obtain ⟨hflag, hname⟩ := hfields item hitem f hf
      exact ⟨hkey, fun heq => absurd heq hflag, fun _ => h.address item hname hvalue⟩
  · split_ifs at hp
    · cases hp
    · obtain rfl := List.mem_singleton.mp hp
      exact allowed_of_field hkey (htime _ (by simp) f hf)
  · exact allowed_of_field hkey (htime _ (by simp) f hf)

theorem allowed_hostFields {host : Discovery.Host} (h : PlainHost host) {key : Text}
    (hkey : Plain key) (known aged : Bool) :
    ∀ p ∈ Discovery.sentFields (Discovery.hostFields known aged host), ∀ f,
      Discovery.fieldOf p.1 = some f → Allowed key f p.2 := by
  intro p hp f hf
  obtain ⟨q, hq, rfl⟩ := List.mem_map.mp hp
  rcases List.mem_append.mp hq with hq | hq
  · split_ifs at hq
    · cases hq
    · have hname : f = .isadmin ∨ f = .enableToBrowse := by
        rcases List.mem_pair.mp hq with rfl | rfl
        · exact .inl (Option.some.inj hf).symm
        · exact .inr (Option.some.inj hf).symm
      have hvalue : q.2.text = no := by
        rcases List.mem_pair.mp hq with rfl | rfl <;> rfl
      exact ⟨hkey, fun _ => hvalue, by rcases hname with rfl | rfl <;> simp⟩
  · obtain ⟨item, hitem, hmem⟩ := List.mem_flatMap.mp hq
    exact allowed_itemFields h hkey hitem q hmem f hf

theorem written_scan {cli : Text → Option (List Text)} (hcli : Discovery.Reads cli)
    {hosts : List Discovery.Host} (h : ∀ host ∈ hosts, PlainHost host) (t : Things Text) :
    Written t (Discovery.nmapParse cli t hosts) := by
  unfold Discovery.nmapParse
  induction hosts generalizing t with
  | nil => exact .refl t
  | cons host hosts ih =>
      obtain ⟨hhost, hhosts⟩ := List.forall_mem_cons.mp h
      refine Written.trans ?_ (ih hhosts _)
      by_cases hmac : Discovery.lower host.mac = []
      · unfold Discovery.nmapHost
        rw [if_pos hmac]
        exact .refl t
      · rw [Discovery.nmapHost_eq hcli hhost.quotable t hmac]
        exact written_foldl_writeField (hhost.mac hmac)
          (allowed_hostFields hhost (hhost.mac hmac) _ _) t

end Scans

section Lines

/-- A line of plain words, for one thing or for all. -/
inductive PlainLine : Text → Action → Prop
  | thing (sw : Switch) {ip mac ipb : Text} (now : ℕ) : Plain ip → Plain mac → Plain ipb →
      PlainLine (WebUi.commandLine ip (operation sw) now mac ipb) (.thing sw mac ipb)
  | bulk (sw : Switch) {ip mac : Text} (now : ℕ) : Plain ip → Plain mac →
      PlainLine (WebUi.commandLine ip (bulkOperation sw) now mac []) (bulkAction sw mac)

/-- The action that reaches the store is the one of the line. -/
theorem PlainLine.action {line : Text} {a : Action} (h : PlainLine line a) :
    CommandPipe.execNextCmd line = some line ∧ actionOf line = a := by
  cases h with
  | thing sw now hip hmac hipb =>
      exact ⟨execNextCmd_plain hip (operation_mem sw) hmac (.inr hipb),
        actionOf_thing sw hip hmac hipb⟩
  | bulk sw now hip hmac =>
      exact ⟨execNextCmd_plain hip (bulkOperation_mem sw) hmac (.inl rfl),
        actionOf_bulk sw hip hmac⟩

variable {s : WebUi.State} {req : WebUi.Request}

/-- What a request adds to the published lines: one of an admin, or one for the caller that turns
it off. -/
inductive Publishes (s : WebUi.State) (req : WebUi.Request) : WebUi.State → Prop
  | nothing {s' : WebUi.State} : s'.published = s.published → Publishes s req s'
  | command {s' : WebUi.State} {line : Text} {a : Action} :
      req.route = .cmd → WebUi.callerInfo s req .isadmin = some yes → PlainLine line a →
      s'.published = s.published ++ [line] → Publishes s req s'
  | off {s' : WebUi.State} {line ip : Text} : PlainLine line (.thing .off req.callerMac ip) →
      s'.published = s.published ++ [line] → Publishes s req s'

theorem publishes_asAdmin {k : WebUi.Response × WebUi.State} (h : Publishes s req k.2) :
    Publishes s req (WebUi.asAdmin s req k).2 := by
  unfold WebUi.asAdmin
  repeat' split
  all_goals first | exact .nothing rfl | exact h

theorem publishes_publishCommand (hs : PlainStore s.things) {oper mac ipb : Text} {a : Action}
    (hcmd : req.route = .cmd) (hadmin : WebUi.callerInfo s req .isadmin = some yes)
    (hline : ∀ ip, Plain ip → PlainLine (WebUi.commandLine ip oper req.now mac ipb) a) :
    Publishes s req (WebUi.publishCommand s req oper mac ipb).2 := by
  unfold WebUi.publishCommand
  split
  · exact .nothing rfl
  · rename_i ip hip
    exact .command hcmd hadmin (hline ip (hs.fields _ .ip4 ip (.inl rfl) hip)) rfl

theorem publishes_cmd (h : PlainRequest req) (hs : PlainStore s.things) (hcmd : req.route = .cmd) :
    Publishes s req (WebUi.cmd s req).2 := by
  by_cases hadmin : WebUi.callerInfo s req .isadmin = some yes
  · unfold WebUi.cmd
    refine publishes_asAdmin ?_
    split
    · exact .nothing rfl
    · rename_i oper hoper
      dsimp only
      split_ifs with hthing hmac haddr hall
      · exact .nothing rfl
      · exact .nothing rfl
      · obtain ⟨sw, rfl⟩ : ∃ sw, oper = operation sw := by
          rcases hthing with rfl | rfl
          · exact ⟨.off, rfl⟩
          · exact ⟨.on, rfl⟩
        cases harg : WebUi.arg req "macaddr" with
        | none => simp [harg] at hmac
        | some mac =>
            have hplain : Plain mac := h.macaddr mac (.inl harg)
            have hipb : Plain (WebUi.pyStr (hget s.things mac .ip4)) := by
              cases hget : hget s.things mac .ip4 with
              | none => simp [WebUi.pyStr, Plain]
              | some ipb => exact hs.fields mac .ip4 ipb (.inl rfl) hget
            exact publishes_publishCommand hs hcmd hadmin fun ip hip =>
              .thing sw req.now hip hplain hipb
      · obtain ⟨sw, rfl⟩ : ∃ sw, oper = bulkOperation sw := by
          rcases hall with rfl | rfl
          · exact ⟨.off, rfl⟩
          · exact ⟨.on, rfl⟩
        split
        · exact .nothing rfl
        · rename_i mac hmacaddr
          exact publishes_publishCommand hs hcmd hadmin fun ip hip =>
            .bulk sw req.now hip (hs.fields _ .macaddr mac (.inr rfl) hmacaddr)
      all_goals exact .nothing rfl
  · exact .nothing (by rw [show (WebUi.cmd s req).2 = s from WebUi.asAdmin_of_nonAdmin hadmin _])

/-- The routes that change a thing publish nothing. -/
theorem published_of_form (s : WebUi.State) (req : WebUi.Request) :
    (WebUi.modifyThings s req).2.published = s.published ∧
      (WebUi.testAdmin s req).2.published = s.published := by
  constructor
  · unfold WebUi.modifyThings WebUi.updateThing WebUi.deleteThing
    repeat' split
    all_goals rfl
  · unfold WebUi.testAdmin
    dsimp only
    repeat' split
    all_goals rfl

theorem publishes_request (h : PlainRequest req) (hs : PlainStore s.things) :
    Publishes s req (WebUi.step s req) := by
  unfold WebUi.step WebUi.serve
  split_ifs
  · split
    case h_4 => exact .nothing (published_of_form s req).1
    case h_5 =>
      refine publishes_asAdmin ?_
      repeat' split
      all_goals exact .nothing rfl
    case h_6 => exact .nothing (published_of_form s req).2
    case h_7 => exact publishes_asAdmin (.nothing rfl)
    case h_9 hcmd => exact publishes_cmd h hs hcmd
    case h_13 =>
      unfold WebUi.pageNotFound
      split_ifs
      · exact .nothing rfl
      · exact .off (PlainLine.thing .off req.now h.remoteAddr h.callerMac h.remoteAddr) rfl
    all_goals exact .nothing rfl
  · exact .nothing rfl

end Lines

end Dowse.AccessControl
