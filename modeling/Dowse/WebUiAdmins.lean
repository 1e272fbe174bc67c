import Dowse.WebUi

/-!
# Who is an admin

Requests of callers that are not admins leave the set of admins alone on every route
but one: `modify_things` deletes any thing for anybody. While an admin exists
`test_admin` refuses, so the set changes exactly when such a request deletes an admin.
-/
namespace Dowse.WebUi
open CStrings KeyedHashes ThingStore GuardedRuns

def IsAdmin (s : State) (mac : Text) : Prop := hget s.things mac .isadmin = some yes

instance (s : State) (mac : Text) : Decidable (IsAdmin s mac) := inferInstanceAs (Decidable (_ = _))

/-- The caller is not an admin when the request is served. -/
def ByNonAdmin (s : State) (req : Request) : Prop := ¬ IsAdmin s req.callerMac

instance (s : State) (req : Request) : Decidable (ByNonAdmin s req) :=
  inferInstanceAs (Decidable (¬ _))

/-- The form deletes the thing of an admin. -/
def DeletesAdmin (s : State) (req : Request) : Prop :=
  req.route = .modifyThings ∧ req.method = .post ∧ formField req "action" = some "delete".toList ∧
    (formField req "name").isSome ∧
    ∃ mac, formField req "macaddr" = some mac ∧ mac ≠ [] ∧ IsAdmin s mac

/-- The things that are admins in `s` are those of `s₀`. -/
def SameAdmins (s₀ s : State) : Prop := ∀ mac, IsAdmin s mac ↔ IsAdmin s₀ mac

theorem hasAdmin_of_isAdmin {s : State} {mac : Text} (h : IsAdmin s mac) : hasAdmin s.things := by
  rw [hasAdmin, List.any_eq_true]
  exact ⟨mac, AList.mem_keys.mp (mem_of_hget h), decide_eq_true h⟩

theorem asAdmin_of_nonAdmin {s : State} {req : Request} (h : ByNonAdmin s req)
    (k : Response × State) : (asAdmin s req k).2 = s := by
  unfold asAdmin
  split
  · rfl
  · rename_i isadmin heq
    have hne : isadmin ≠ yes := by
      rintro rfl
      exact h heq
    rw [if_neg hne]

section Modify

variable (s : State) (req : Request)

theorem updateThing_isAdmin (mac name mac' : Text) :
    IsAdmin (updateThing s req mac name).2 mac' ↔ IsAdmin s mac' := by
  unfold updateThing
  split_ifs
  · exact Iff.rfl
  · exact Iff.rfl
  · exact Eq.congr_left (hget_hset_of_field_ne (by decide) _ _ _ _)

theorem deleteThing_isAdmin (mac mac' : Text) :
    IsAdmin (deleteThing s req mac).2 mac' ↔ (mac ≠ [] → mac' ≠ mac) ∧ IsAdmin s mac' := by
  unfold deleteThing
  split_ifs with hmac
  · simp [hmac]
  · simp only [IsAdmin, hget_erase]
    split_ifs with hm
    · simp [hm, hmac]
    · simp [hm]

/-- Of the forms of `modify_things` only a deletion touches an admin. -/
theorem modifyThings_isAdmin (mac' : Text) :
    IsAdmin (modifyThings s req).2 mac' ↔ IsAdmin s mac' ∧
      ¬ (formField req "action" = some "delete".toList ∧ (formField req "name").isSome ∧
        formField req "macaddr" = some mac' ∧ mac' ≠ []) := by
  unfold modifyThings
  split
  · rename_i mac name hmac hname
    have hsome : (formField req "name").isSome := by simp [hname]
    have heq : formField req "macaddr" = some mac' ↔ mac' = mac := by
      rw [hmac, Option.some_inj, eq_comm]
    split
    · rename_i hact
      have hnot : formField req "action" ≠ some "delete".toList := by
        intro h
        simp [h] at hact
      exact (and_iff_left fun h => hnot h.1).symm
    · rename_i hne
      have hact : formField req "action" = some ((formField req "action").getD []) := by
        cases h : formField req "action" with
        | none => exact absurd (by simp [h]) hne
        | some a => rfl
      split_ifs with hupdate hdelete
      · have hnot : formField req "action" ≠ some "delete".toList := by
          rw [hact, hupdate]
          decide
        rw [updateThing_isAdmin]
        exact (and_iff_left fun h => hnot h.1).symm
      · rw [deleteThing_isAdmin, hact, hdelete, heq]
        constructor
        · rintro ⟨hdel, hadm⟩
          refine ⟨hadm, ?_⟩
          rintro ⟨-, -, rfl, hmac'⟩
          exact hdel hmac' rfl
        · rintro ⟨hadm, hnot⟩
          refine ⟨?_, hadm⟩
          rintro hmac' rfl
          exact hnot ⟨rfl, hsome, rfl, hmac'⟩
      · have hnot : formField req "action" ≠ some "delete".toList := by
          intro h
          exact hdelete (Option.some.inj (hact.symm.trans h))
        exact (and_iff_left fun h => hnot h.1).symm
  · rename_i hnot
    have hno : ¬ ((formField req "name").isSome ∧ formField req "macaddr" = some mac') := by
      rintro ⟨hname, hmac⟩
      obtain ⟨name, hname⟩ := Option.isSome_iff_exists.mp hname
      exact hnot mac' name hmac hname
    exact (and_iff_left fun h => hno ⟨h.2.1, h.2.2.1⟩).symm

end Modify

/-- The handler of unknown pages resets a thing that is not an admin. -/
theorem pageNotFound_isAdmin {s : State} {req : Request} (hby : ByNonAdmin s req) (mac : Text) :
    IsAdmin (pageNotFound s req).2 mac ↔ IsAdmin s mac := by
  unfold pageNotFound
  split_ifs with hyes
  · exact Iff.rfl
  · by_cases hm : mac = req.callerMac
    · subst hm
      refine iff_of_false ?_ hby
      simp only [IsAdmin, hget_resetUnlessEnabled_isadmin hyes]
      decide
    · exact Eq.congr_left (hget_resetUnlessEnabled_ne hm _)

/-- The routes other than `modify_things` leave the admins alone, as long as there is one. -/
theorem step_isAdmin_of_route_ne {s : State} {req : Request} (hadmin : ∃ mac, IsAdmin s mac)
    (hby : ByNonAdmin s req) (hroute : req.route ≠ .modifyThings) (mac : Text) :
    IsAdmin (step s req) mac ↔ IsAdmin s mac := by
  obtain ⟨admin, hadmin⟩ := hadmin
  have hpriv : (modifyPrivThings s req).2 = s := asAdmin_of_nonAdmin hby _
  have htest : (testAdmin s req).2 = s := by rw [testAdmin, if_pos (hasAdmin_of_isAdmin hadmin)]
  have hreset : (resetAdmin s req).2 = s := asAdmin_of_nonAdmin hby _
  have hcmd : (cmd s req).2 = s := asAdmin_of_nonAdmin hby _
  unfold step serve
  split_ifs
  · split
    case h_4 heq => exact absurd heq hroute
    case h_5 => rw [hpriv]
    case h_6 => rw [htest]
    case h_7 => rw [hreset]
    case h_9 => rw [hcmd]
    case h_13 => exact pageNotFound_isAdmin hby mac
    all_goals exact Iff.rfl
  · exact Iff.rfl

/-- While an admin exists, a request of a caller that is not one leaves the admins alone
unless it deletes one. -/
theorem step_isAdmin {s : State} {req : Request} (hadmin : ∃ mac, IsAdmin s mac)
    (hby : ByNonAdmin s req) (mac : Text) :
    IsAdmin (step s req) mac ↔ IsAdmin s mac ∧
      ¬ (req.route = .modifyThings ∧ req.method = .post ∧
        formField req "action" = some "delete".toList ∧ (formField req "name").isSome ∧
        formField req "macaddr" = some mac ∧ mac ≠ []) := by
  by_cases hroute : req.route = .modifyThings
  · by_cases hpost : req.method = .post
    · have hstep : step s req = (modifyThings s req).2 := by
        simp only [step, serve, hroute, hpost, Route.allows, decide_true, if_true]
      rw [hstep, modifyThings_isAdmin]
      simp only [hroute, hpost, true_and]
    · have hstep : step s req = s := by
        simp only [step, serve, hroute, hpost, Route.allows, decide_false, Bool.false_eq_true,
          if_false]
      rw [hstep]
      exact (and_iff_left fun h => hpost h.2.1).symm
  · rw [step_isAdmin_of_route_ne hadmin hby hroute]
    exact (and_iff_left fun h => hroute h.1).symm

theorem sameAdmins_step_iff {s₀ s : State} {req : Request} (hs : SameAdmins s₀ s)
    (hadmin : ∃ mac, IsAdmin s mac) (hby : ByNonAdmin s req) :
    SameAdmins s₀ (step s req) ↔ ¬ DeletesAdmin s req := by
  constructor
  · rintro h ⟨hroute, hpost, hact, hname, mac, hmac, hne, hadm⟩
    have hstill : IsAdmin (step s req) mac := (h mac).mpr ((hs mac).mp hadm)
    exact ((step_isAdmin hadmin hby mac).mp hstill).2 ⟨hroute, hpost, hact, hname, hmac, hne⟩
  · intro hnot mac
    rw [step_isAdmin hadmin hby, ← hs mac, and_iff_left_iff_imp]
    rintro hadm ⟨hroute, hpost, hact, hname, hmac, hne⟩
    exact hnot ⟨hroute, hpost, hact, hname, mac, hmac, hne, hadm⟩

/-- From a store with an admin, requests of callers that are not admins never change the set
of admins, if and only if none of them deletes the thing of an admin. -/
theorem sameAdmins_iff {s : State} (hadmin : ∃ mac, IsAdmin s mac) {reqs : List Request}
    (hby : Along step ByNonAdmin s reqs) :
    Throughout step (SameAdmins s) s reqs ↔
      Along step (fun t req => ¬ DeletesAdmin t req) s reqs := by
  have hcarry : ∀ t, SameAdmins s t → ∃ mac, IsAdmin t mac := by
    intro t ht
    obtain ⟨mac, hmac⟩ := hadmin
    exact ⟨mac, (ht mac).mpr hmac⟩
  refine throughout_iff_along (I := SameAdmins s) (A := ByNonAdmin) (fun _ h => h) ?_ ?_
    (fun _ => Iff.rfl) hby
  · exact fun t req ht hreq => sameAdmins_step_iff ht (hcarry t ht) hreq
  · exact fun t req ht hreq hok => (sameAdmins_step_iff ht (hcarry t ht) hreq).mpr hok

/-- One admin, and a guest that the store does not know. -/
def oneAdmin : State :=
  ⟨hmset ∅ "aa".toList [(.isadmin, yes), (.name, "desk".toList)], none, fun _ => none, []⟩

def guestPost (route : Route) (form : List (Text × Text)) : Request :=
  ⟨route, .post, [], form, "10.0.0.9".toList, [("10.0.0.9".toList, "bb".toList)], 0⟩

def guestDeletes : Request :=
  guestPost .modifyThings [("macaddr".toList, "aa".toList), ("name".toList, []),
    ("action".toList, "delete".toList), ("url_from".toList, ['/'])]

def guestApplies : Request :=
  guestPost .testAdmin [("curmac".toList, "bb".toList), ("name".toList, "guest".toList)]

theorem sameAdmins_iff_guestApplies :
    IsAdmin oneAdmin "aa".toList ∧ Along step ByNonAdmin oneAdmin [guestApplies] ∧
    (Throughout step (SameAdmins oneAdmin) oneAdmin [guestApplies] ↔
      Along step (fun t req => ¬ DeletesAdmin t req) oneAdmin [guestApplies]) :=
  ⟨by decide, by decide, sameAdmins_iff ⟨"aa".toList, by decide⟩ (by decide)⟩

/-- The guest deletes the admin's thing and then becomes the initial admin. -/
theorem guest_becomes_admin :
    Along step ByNonAdmin oneAdmin [guestDeletes, guestApplies] ∧
    ¬ IsAdmin ([guestDeletes, guestApplies].foldl step oneAdmin) "aa".toList ∧
    IsAdmin ([guestDeletes, guestApplies].foldl step oneAdmin) "bb".toList := by
  decide

end Dowse.WebUi
