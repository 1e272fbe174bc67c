import Dowse.WebUi
import Dowse.NameTables

/-!
# The names of things and their leases

The web server keeps the name of a thing in the storage and an entry for the name in the
table of the resolver. A thing gets a name on two routes, and the entry of the name that it
had before stays on both. The only test for a name in use looks the address of its entry
up in the ARP table, and `test_admin` has none.
-/
namespace Dowse.WebUi
open CStrings KeyedHashes ThingStore GuardedRuns NameTables

/-- The two stores as one table. -/
def State.table (s : State) : Table Text Text Text :=
  ⟨fun mac => hget s.things mac .name, fun mac => hget s.things mac .ip4, s.leases⟩

/-- What a request does to the names. -/
inductive Change
  | keep
  | rename (mac name ip : Text)
  | remove (mac : Text)
  deriving DecidableEq, Repr

def updateChange (s : State) (req : Request) (mac name : Text) : Change :=
  if mac = [] ∨ name = [] then .keep
  else if (s.leases name).any fun ip => ip ≠ [] ∧ ip2mac req.arp ip ≠ mac then .keep
  else .rename mac name (pyStr (hget s.things mac .ip4))

def modifyChange (s : State) (req : Request) : Change :=
  match formField req "macaddr", formField req "name" with
  | some mac, some name =>
      if formField req "action" = some "update".toList then
        updateChange s req mac (underscored name)
      else if formField req "action" = some "delete".toList ∧ mac ≠ [] then .remove mac
      else .keep
  | _, _ => .keep

def adminChange (s : State) (req : Request) : Change :=
  if hasAdmin s.things then .keep
  else
    match formField req "curmac", formField req "name" with
    | some mac, some name =>
        if mac = [] ∨ underscored name = [] then .keep
        else .rename mac (underscored name) req.remoteAddr
    | _, _ => .keep

def change (s : State) (req : Request) : Change :=
  if req.method = .post then
    match req.route with
    | .modifyThings => modifyChange s req
    | .testAdmin => adminChange s req
    | _ => .keep
  else .keep

def Change.apply (t : Table Text Text Text) : Change → Table Text Text Text
  | .keep => t
  | .rename mac name ip => t.rename mac name ip
  | .remove mac => t.remove mac (pyStr (t.name mac))

/-- A request to one of the two routes that write names. -/
def Naming (_ : State) (req : Request) : Prop :=
  req.route = .modifyThings ∨ req.route = .testAdmin

/-- A new name is free, the entry that is written for it is the address of the thing, and the
thing had no other name before, or one of at least three things with that name. A
deletion does not leave a single thing with the name whose entry it deletes. -/
def Orderly (names : Set Text) (s : State) (req : Request) : Prop :=
  match change s req with
  | .keep => True
  | .rename mac name ip => MayRename names s.table mac name ip
  | .remove mac => pyStr (s.table.name mac) ∈ names →
      ¬ OneOther s.table mac (pyStr (s.table.name mac))

section Refinement
variable (s : State) (req : Request)

theorem table_rename {things : Things Text} {mac name ip : Text}
    (hname : ∀ mac', hget things mac' .name =
      if mac' = mac then some name else hget s.things mac' .name)
    (hip : ∀ mac', hget things mac' .ip4 = hget s.things mac' .ip4) :
    State.table { s with things := things, leases := Function.update s.leases name (some ip) } =
      s.table.rename mac name ip := by
  have hnames : (fun mac' => hget things mac' .name) =
      Function.update (fun mac' => hget s.things mac' .name) mac (some name) := by
    funext mac'
    rw [hname, Function.update_apply]
  have haddrs : (fun mac' => hget things mac' .ip4) = fun mac' => hget s.things mac' .ip4 :=
    funext hip
  simp only [State.table, Table.rename, hnames, haddrs]

theorem table_updateThing (mac name : Text) :
    (updateThing s req mac name).2.table = (updateChange s req mac name).apply s.table := by
  unfold updateThing updateChange
  split_ifs
  · rfl
  · rfl
  · have hip : ∀ mac', hget (hset s.things mac .name name) mac' .ip4 = hget s.things mac' .ip4 :=
      fun mac' => hget_hset_of_field_ne (by decide) _ _ _ _
    have hname : ∀ mac', hget (hset s.things mac .name name) mac' .name =
        if mac' = mac then some name else hget s.things mac' .name := by
      intro mac'
      simp [hget_hset]
    dsimp only [Change.apply]
    rw [hip, table_rename s hname hip]

theorem table_deleteThing {mac : Text} (h : mac ≠ []) :
    (deleteThing s req mac).2.table = (Change.remove mac).apply s.table := by
  have hnames : ∀ f, (fun mac' => hget (s.things.erase mac) mac' f) =
      Function.update (fun mac' => hget s.things mac' f) mac none := by
    intro f
    funext mac'
    rw [hget_erase, Function.update_apply]
  unfold deleteThing
  rw [if_neg h]
  simp only [State.table, Change.apply, Table.remove, hnames]

theorem table_modifyThings :
    (modifyThings s req).2.table = (modifyChange s req).apply s.table := by
  unfold modifyThings modifyChange
  cases formField req "macaddr" with
  | none => rfl
  | some mac =>
      cases formField req "name" with
      | none => rfl
      | some name =>
          dsimp only
          cases formField req "action" with
          | none => rfl
          | some act =>
              simp only [Option.getD_some, Option.some_inj]
              split
              · rfl
              · by_cases hupdate : act = "update".toList
                · rw [if_pos hupdate, if_pos hupdate]
                  exact table_updateThing s req mac (underscored name)
                · rw [if_neg hupdate, if_neg hupdate]
                  by_cases hdelete : act = "delete".toList
                  · rw [if_pos hdelete]
                    by_cases hmac : mac = []
                    · rw [if_neg fun h => h.2 hmac, deleteThing, if_pos hmac]
                      rfl
                    · rw [if_pos ⟨hdelete, hmac⟩]
                      exact table_deleteThing s req hmac
                  · rw [if_neg hdelete, if_neg fun h => hdelete h.1]
                    rfl

theorem table_testAdmin : (testAdmin s req).2.table = (adminChange s req).apply s.table := by
  unfold testAdmin adminChange
  split_ifs with hadmin
  · rfl
  · cases formField req "curmac" with
    | none => rfl
    | some mac =>
        cases formField req "name" with
        | none => rfl
        | some name =>
            dsimp only
            split_ifs
            · rfl
            · refine table_rename s (fun mac' => ?_) fun mac' => ?_
              · by_cases hmac : mac' = mac <;> simp [hmset, hget_hset, hmac]
              · simp [hmset, hget_hset]

/-- On the routes that write names, the two stores change as the table does. -/
theorem table_step (h : Naming s req) : (step s req).table = (change s req).apply s.table := by
  by_cases hpost : req.method = .post
  · obtain hroute | hroute := h
    · have hstep : step s req = (modifyThings s req).2 := by
        simp only [step, serve, hroute, hpost, Route.allows, decide_true, if_true]
      have hchange : change s req = modifyChange s req := by
        simp only [change, hroute, hpost, if_true]
      rw [hstep, hchange, table_modifyThings]
    · have hstep : step s req = (testAdmin s req).2 := by
        simp only [step, serve, hroute, hpost, Route.allows, decide_true, if_true]
      have hchange : change s req = adminChange s req := by
        simp only [change, hroute, hpost, if_true]
      rw [hstep, hchange, table_testAdmin]
  · have hstep : step s req = s := by
      obtain hroute | hroute := h <;>
        simp only [step, serve, hroute, hpost, Route.allows, decide_false, Bool.false_eq_true,
          if_false]
    rw [hstep, change, if_neg hpost]
    rfl

end Refinement

theorem consistent_step_iff {names : Set Text} {s : State} {req : Request} (h : Naming s req)
    (hs : Consistent names s.table) :
    Consistent names (step s req).table ↔ Orderly names s req := by
  rw [table_step s req h, Orderly]
  cases change s req with
  | keep => exact iff_of_true hs trivial
  | rename mac name ip => exact consistent_rename_iff hs
  | remove mac =>
      refine consistent_remove_iff (fun o ho => ?_) hs
      rw [ho]
      rfl

/-- From stores that agree on a set of names, and for every run of requests that write names,
the stores agree in every state reached if and only if every request is orderly. -/
theorem consistent_iff_orderly (names : Set Text) {s : State} (hs : Consistent names s.table)
    {reqs : List Request} (hreqs : Along step Naming s reqs) :
    Throughout step (fun t => Consistent names t.table) s reqs ↔
      Along step (Orderly names) s reqs :=
  throughout_iff_along (I := fun t => Consistent names t.table) (A := Naming) (fun _ h => h)
    (fun _ _ ht hreq => consistent_step_iff hreq ht)
    (fun _ _ ht hreq hok => (consistent_step_iff hreq ht).mpr hok) hs hreqs

def deskMac : Text := "aa".toList

def deskIp : Text := "10.0.0.2".toList

/-- A thing with an address and maybe a name, and the entry of the name. -/
def oneThing (name : Option Text) : State where
  things := AList.insert deskMac
    (fun | .ip4 => some deskIp | .name => name | _ => none) ∅
  partyMode := none
  leases n := if some n = name then some deskIp else none
  published := []

theorem oneThing_name (name : Option Text) (mac : Text) :
    (oneThing name).table.name mac = if mac = deskMac then name else none := by
  change hgetall (oneThing name).things mac .name = _
  rw [oneThing, hgetall_insert]
  split_ifs
  · rfl
  · rfl

theorem consistent_oneThing (name : Option Text) : Consistent Set.univ (oneThing name).table := by
  intro n _
  have hholder : ∀ mac, (oneThing name).table.name mac = some n ↔
      mac = deskMac ∧ some n = name := by
    intro mac
    rw [oneThing_name]
    split_ifs with hmac
    · simp [hmac, eq_comm]
    · simp [hmac]
  have hentry : (oneThing name).table.entry n =
      if some n = name then some deskIp else none := rfl
  have haddr : (oneThing name).table.addr deskMac = some deskIp := rfl
  simp only [ConsistentAt, hholder, hentry]
  by_cases hn : some n = name
  · simp [hn, haddr]
  · simp [hn]

def namesThing (name : Text) : Request :=
  ⟨.modifyThings, .post, [], [("macaddr".toList, deskMac), ("name".toList, name),
    ("action".toList, "update".toList), ("url_from".toList, ['/'])], deskIp,
    [(deskIp, deskMac)], 0⟩

/-- A thing without a name gets one. -/
theorem consistent_iff_orderly_firstName :
    Consistent Set.univ (oneThing none).table ∧
      Along step Naming (oneThing none) [namesThing "desk".toList] ∧
      Throughout step (fun t => Consistent Set.univ t.table) (oneThing none)
        [namesThing "desk".toList] := by
  have hnaming : Along step Naming (oneThing none) [namesThing "desk".toList] :=
    ⟨.inl rfl, trivial⟩
  have hnone : ∀ mac, (oneThing none).table.name mac = none := by
    intro mac
    rw [oneThing_name, ite_self]
  refine ⟨consistent_oneThing none, hnaming,
    (consistent_iff_orderly Set.univ (consistent_oneThing none) hnaming).mpr ⟨?_, trivial⟩⟩
  have hchange : change (oneThing none) (namesThing "desk".toList) =
      .rename deskMac "desk".toList deskIp := by decide
  rw [Orderly, hchange]
  refine ⟨fun _ => ⟨fun mac hmac => ?_, by decide⟩, fun o _ ho => ?_⟩
  · rw [hnone] at hmac
    cases hmac
  · rw [hnone] at ho
    cases ho

/-- The thing is renamed, and the entry of its old name stays. -/
theorem renamed_keeps_old_lease :
    Consistent Set.univ (oneThing (some "desk".toList)).table ∧
      ∃ s, step (oneThing (some "desk".toList)) (namesThing "lamp".toList) = s ∧
        hget s.things deskMac .name = some "lamp".toList ∧
        s.leases "desk".toList = some deskIp ∧
        ¬ Consistent Set.univ s.table := by
  refine ⟨consistent_oneThing _, _, rfl, by decide, by decide, fun h => ?_⟩
  obtain ⟨mac, hmac, -⟩ := (h "desk".toList (Set.mem_univ _)).1.mp (by decide)
  have hchange : change (oneThing (some "desk".toList)) (namesThing "lamp".toList) =
      .rename deskMac "lamp".toList deskIp := by decide
  rw [table_step _ _ (.inl rfl), hchange, Change.apply, rename_name_iff (by decide),
    oneThing_name, if_neg] at hmac
  · cases hmac.2
  · exact hmac.1

end Dowse.WebUi
