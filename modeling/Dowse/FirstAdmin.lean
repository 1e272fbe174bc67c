import Dowse.WebUi

/-!
# The first admin under concurrent requests

The web server runs each request in a thread of its own. A request for the first admin lists
the things, asks for each of them whether it is an admin, looks at its form, and then writes
two keys. Between two of these commands other requests go on, so a request is cut here where
it talks to redis.

A request that is not interrupted does what `testAdmin` says. Two that overlap may both find
no admin and both write. When no request writes while another one is still looking, the
first that writes is the only one: all that start later find its thing in their list.
-/
namespace Dowse.FirstAdmin
open CStrings KeyedHashes ThingStore WebUi GuardedRuns

variable {P : Type}

/-- Where a request is: before its `KEYS`, before the `HGET` of the first thing in the list,
before its `HMSET`, before its `SET`, or done. -/
inductive Phase
  | waiting
  | scanning (todo : List Text)
  | writing (mac name : Text)
  | naming (name : Text)
  | answered (response : Response)
  deriving DecidableEq, Repr

structure State (P : Type) where
  things : Things Text
  leases : Text → Option Text
  phase : P → Phase

/-- `KEYS` with the order in which the server lists the things, or the next command. -/
inductive Event (P : Type)
  | keys (p : P) (listing : List Text)
  | next (p : P)

def alreadyExists : Response := .text "An admin device already exists. Sorry.\n".toList

/-- The form is looked at when no admin was found. -/
def afterScan (req : Request) : Phase :=
  match formField req "curmac", formField req "name" with
  | some mac, some name =>
      let name := underscored name
      if mac = [] ∨ name = [] then .answered badRequestText' else .writing mac name
  | _, _ => .answered .badRequest

def goOn (req : Request) (todo : List Text) : Phase :=
  if todo = [] then afterScan req else .scanning todo

/-- The request has looked for an admin and may still become one. -/
def Phase.InProgress : Phase → Prop
  | .scanning _ => True
  | .writing _ _ => True
  | _ => False

/-- The request has made its thing an admin. -/
def Phase.Made : Phase → Prop
  | .naming _ => True
  | .answered (.redirect _) => True
  | _ => False

/-- At most one request has made its thing an admin, and every other one that has an answer
was told that there is an admin. -/
structure OneAdmin (s : State P) : Prop where
  unique : ∀ p q, (s.phase p).Made → (s.phase q).Made → p = q
  others : ∀ p r, s.phase p = .answered r → ¬ (s.phase p).Made → r = alreadyExists

/-- The form names a thing. -/
def Complete (req : Request) : Prop :=
  ∃ mac name, formField req "curmac" = some mac ∧ formField req "name" = some name ∧
    mac ≠ [] ∧ name ≠ []

/-- No request has found or made an admin so far. -/
def Open (s : State P) : Prop :=
  ¬ hasAdmin s.things ∧ ∀ p, s.phase p = .waiting ∨ (s.phase p).InProgress

/-- What a request that has not become the admin may be doing. -/
def Late (mac : Text) (phase : Phase) : Prop :=
  phase = .waiting ∨ phase = .answered alreadyExists ∨ ∃ todo, phase = .scanning todo ∧ mac ∈ todo

/-- One request has made its thing an admin, and every other one that is under way has this
thing before it. -/
def Settled (s : State P) : Prop :=
  ∃ m mac, (s.phase m).Made ∧ hget s.things mac .isadmin = some yes ∧
    ∀ p, p ≠ m → Late mac (s.phase p)

theorem Open.oneAdmin {s : State P} (h : Open s) : OneAdmin s := by
  have hnot : ∀ p, ¬ (s.phase p).Made ∧ ∀ r, s.phase p ≠ .answered r := by
    intro p
    obtain hp | hp := h.2 p
    · rw [hp]
      exact ⟨id, nofun⟩
    · constructor
      · cases hphase : s.phase p <;> simp_all [Phase.Made, Phase.InProgress]
      · rintro r hr
        rw [hr] at hp
        exact hp
  exact ⟨fun p _ hp => absurd hp (hnot p).1, fun p r hr => absurd hr ((hnot p).2 r)⟩

theorem Settled.oneAdmin {s : State P} (h : Settled s) : OneAdmin s := by
  obtain ⟨m, mac, hm, -, hothers⟩ := h
  have hnot : ∀ p, p ≠ m →
      ¬ (s.phase p).Made ∧ ∀ r, s.phase p = .answered r → r = alreadyExists := by
    intro p hp
    obtain heq | heq | ⟨todo, heq, -⟩ := hothers p hp <;> rw [heq]
    · exact ⟨id, nofun⟩
    · exact ⟨id, fun r hr => (Phase.answered.inj hr).symm⟩
    · exact ⟨id, nofun⟩
  constructor
  · intro p q hp hq
    have hpm : p = m := by
      by_contra hne
      exact (hnot p hne).1 hp
    have hqm : q = m := by
      by_contra hne
      exact (hnot q hne).1 hq
    rw [hpm, hqm]
  · intro p r hr hmade
    have hne : p ≠ m := by
      rintro rfl
      exact hmade hm
    exact (hnot p hne).2 r hr

section
variable [DecidableEq P] (requests : P → Request)

def State.setPhase (s : State P) (p : P) (phase : Phase) : State P :=
  { s with phase := Function.update s.phase p phase }

def step (s : State P) : Event P → State P
  | .keys p listing =>
      match s.phase p with
      | .waiting =>
          if listing.Perm s.things.keys then s.setPhase p (goOn (requests p) listing) else s
      | _ => s
  | .next p =>
      match s.phase p with
      | .scanning (mac :: todo) =>
          if hget s.things mac .isadmin = some yes then s.setPhase p (.answered alreadyExists)
          else s.setPhase p (goOn (requests p) todo)
      | .writing mac name =>
          { s.setPhase p (.naming name) with
            things := hmset s.things mac [(.isadmin, yes), (.name, name)] }
      | .naming name =>
          { s.setPhase p (.answered (.redirect ['/'])) with
            leases := Function.update s.leases name (some (requests p).remoteAddr) }
      | _ => s

/-- The form of the request is complete, and a request writes only when no other one has
begun to look for an admin and is still without an answer. -/
def Undisturbed (s : State P) : Event P → Prop
  | .keys p _ => Complete (requests p)
  | .next p => Complete (requests p) ∧ ∀ mac name, s.phase p = .writing mac name →
      ∀ q, q ≠ p → ¬ (s.phase q).InProgress

/-- The commands of one request, one right after the other. -/
def uninterrupted (s : State P) (p : P) : State P :=
  (List.replicate (s.things.keys.length + 2) (.next p)).foldl (step requests)
    (step requests s (.keys p s.things.keys))

variable {requests}

theorem afterScan_of_complete {req : Request} (h : Complete req) :
    ∃ mac name, afterScan req = .writing mac name := by
  obtain ⟨mac, name, hmac, hname, hne, hne'⟩ := h
  have hunder : underscored name ≠ [] := by simpa [underscored] using hne'
  refine ⟨mac, underscored name, ?_⟩
  simp [afterScan, hmac, hname, hne, hunder]

theorem goOn_inProgress {req : Request} (h : Complete req) (todo : List Text) :
    (goOn req todo).InProgress := by
  unfold goOn
  split_ifs
  · obtain ⟨mac, name, heq⟩ := afterScan_of_complete h
    rw [heq]
    trivial
  · trivial

theorem isadmin_ne_yes {things : Things Text} (h : ¬ hasAdmin things) (mac : Text) :
    hget things mac .isadmin ≠ some yes := by
  intro hyes
  refine h (List.any_eq_true.mpr ⟨mac, AList.mem_keys.mp (mem_of_hget hyes), ?_⟩)
  exact decide_eq_true hyes

theorem open_setPhase {s : State P} (h : Open s) (p : P) {phase : Phase}
    (hphase : phase.InProgress) : Open (s.setPhase p phase) := by
  refine ⟨h.1, fun q => ?_⟩
  by_cases hq : q = p
  · subst hq
    right
    simpa [State.setPhase] using hphase
  · simpa [State.setPhase, hq] using h.2 q

/-- The first `HMSET` settles who is the admin. -/
theorem settled_write {s : State P} (h : Open s) {p : P} {mac name : Text}
    (halone : ∀ q, q ≠ p → ¬ (s.phase q).InProgress) :
    Settled { s.setPhase p (.naming name) with
      things := hmset s.things mac [(.isadmin, yes), (.name, name)] } := by
  refine ⟨p, mac, ?_, ?_, fun q hq => .inl ?_⟩
  · simp [State.setPhase, Phase.Made]
  · simp [hmset, hget_hset]
  · simpa [State.setPhase, hq] using (h.2 q).resolve_right (halone q hq)

theorem open_step {s : State P} (h : Open s) {ev : Event P} (hev : Undisturbed requests s ev) :
    Open (step requests s ev) ∨ Settled (step requests s ev) := by
  cases ev with
  | keys p listing =>
      simp only [step]
      split
      · split_ifs
        · exact .inl (open_setPhase h p (goOn_inProgress hev listing))
        · exact .inl h
      · exact .inl h
  | next p =>
      simp only [step]
      split
      · rw [if_neg (isadmin_ne_yes h.1 _)]
        exact .inl (open_setPhase h p (goOn_inProgress hev.1 _))
      · exact .inr (settled_write h (hev.2 _ _ ‹_›))
      · obtain hp | hp := h.2 p <;> simp_all [Phase.InProgress]
      · exact .inl h

theorem late_goOn {req : Request} {mac : Text} {todo : List Text} (h : mac ∈ todo) :
    Late mac (goOn req todo) :=
  .inr (.inr ⟨todo, if_neg (List.ne_nil_of_mem h), h⟩)

theorem settled_step {s : State P} (h : Settled s) (ev : Event P) :
    Settled (step requests s ev) := by
  obtain ⟨m, mac, hm, hadmin, hothers⟩ := h
  -- A request other than the admin's stays late, and nothing is written.
  have hlate : ∀ p phase, p ≠ m → Late mac phase → Settled (s.setPhase p phase) := by
    intro p phase hp hphase
    refine ⟨m, mac, ?_, hadmin, fun q hq => ?_⟩
    · simpa [State.setPhase, Ne.symm hp] using hm
    · by_cases hqp : q = p
      · subst hqp
        simpa [State.setPhase] using hphase
      · simpa [State.setPhase, hqp] using hothers q hq
  have hne : ∀ p, ¬ (s.phase p).Made → p ≠ m := by
    rintro p hp rfl
    exact hp hm
  cases ev with
  | keys p listing =>
      simp only [step]
      split
      · rename_i hwaiting
        have hp : p ≠ m := hne p (by rw [hwaiting]; exact id)
        split_ifs with hperm
        · refine hlate p _ hp (late_goOn ?_)
          exact hperm.mem_iff.mpr (AList.mem_keys.mp (mem_of_hget hadmin))
        · exact ⟨m, mac, hm, hadmin, hothers⟩
      · exact ⟨m, mac, hm, hadmin, hothers⟩
  | next p =>
      simp only [step]
      split
      · rename_i mac' todo hscan
        have hp : p ≠ m := hne p (by rw [hscan]; exact id)
        split_ifs with hyes
        · exact hlate p _ hp (.inr (.inl rfl))
        · refine hlate p _ hp (late_goOn ?_)
          obtain heq | heq | ⟨rest, heq, hmem⟩ := hothers p hp
          · rw [hscan] at heq
            cases heq
          · rw [hscan] at heq
            cases heq
          · rw [hscan] at heq
            obtain rfl := Phase.scanning.inj heq
            refine (List.mem_cons.mp hmem).resolve_left ?_
            rintro rfl
            exact hyes hadmin
      · rename_i hwriting
        have hp : p ≠ m := hne p (by rw [hwriting]; exact id)
        obtain heq | heq | ⟨rest, heq, -⟩ := hothers p hp <;> rw [hwriting] at heq <;> cases heq
      · rename_i name hnaming
        have hp : p = m := by
          by_contra hp
          obtain heq | heq | ⟨rest, heq, -⟩ := hothers p hp <;> rw [hnaming] at heq <;> cases heq
        subst hp
        refine ⟨p, mac, ?_, hadmin, fun q hq => ?_⟩
        · simp [State.setPhase, Phase.Made]
        · simpa [State.setPhase, hq] using hothers q hq
      · exact ⟨m, mac, hm, hadmin, hothers⟩

/-- In every run from a store without an admin in which no request writes while another one
is still looking, at most one request becomes the admin, and every other one is told so. -/
theorem oneAdmin_of_undisturbed {things : Things Text} (leases : Text → Option Text)
    (h : ¬ hasAdmin things) {evs : List (Event P)}
    (hrun : Along (step requests) (Undisturbed requests) ⟨things, leases, fun _ => .waiting⟩ evs) :
    Throughout (step requests) OneAdmin ⟨things, leases, fun _ => .waiting⟩ evs := by
  have hstart : Open (⟨things, leases, fun _ => .waiting⟩ : State P) := ⟨h, fun _ => .inl rfl⟩
  refine Throughout.mono (I := fun s => Open s ∨ Settled s)
    (fun s hs => hs.elim Open.oneAdmin Settled.oneAdmin) ?_
  refine throughout_of_along (fun s ev hs hev => ?_) (.inl hstart) hrun
  exact hs.elim (fun hopen => open_step hopen hev) fun hsettled => .inr (settled_step hsettled ev)

theorem foldl_next_of_answered {s : State P} {p : P} {r : Response} (h : s.phase p = .answered r)
    (n : ℕ) : (List.replicate n (.next p)).foldl (step requests) s = s := by
  induction n with
  | zero => rfl
  | succ n ih =>
      have hstep : step requests s (.next p) = s := by simp [step, h]
      rw [List.replicate_succ, List.foldl_cons, hstep, ih]

@[simp] theorem setPhase_setPhase (s : State P) (p : P) (phase phase' : Phase) :
    (s.setPhase p phase).setPhase p phase' = s.setPhase p phase' := by
  simp [State.setPhase]

/-- The look at all things that are left. -/
theorem foldl_next_goOn (s : State P) (p : P) (todo : List Text) (n : ℕ) :
    (List.replicate (todo.length + n) (.next p)).foldl (step requests)
        (s.setPhase p (goOn (requests p) todo)) =
      if todo.any fun mac => hget s.things mac .isadmin = some yes then
        s.setPhase p (.answered alreadyExists)
      else (List.replicate n (.next p)).foldl (step requests)
        (s.setPhase p (afterScan (requests p))) := by
  induction todo with
  | nil => simp [goOn]
  | cons mac todo ih =>
      have hphase : (s.setPhase p (goOn (requests p) (mac :: todo))).phase p =
          .scanning (mac :: todo) := by simp [State.setPhase, goOn]
      rw [List.length_cons, Nat.add_right_comm, List.replicate_succ, List.foldl_cons]
      by_cases hyes : hget s.things mac .isadmin = some yes
      · have hstep : step requests (s.setPhase p (goOn (requests p) (mac :: todo))) (.next p) =
            s.setPhase p (.answered alreadyExists) := by
          simp only [step, hphase]
          exact (if_pos hyes).trans (setPhase_setPhase s p _ _)
        rw [hstep, foldl_next_of_answered (r := alreadyExists) (by simp [State.setPhase])]
        simp [hyes]
      · have hstep : step requests (s.setPhase p (goOn (requests p) (mac :: todo))) (.next p) =
            s.setPhase p (goOn (requests p) todo) := by
          simp only [step, hphase]
          exact (if_neg hyes).trans (setPhase_setPhase s p _ _)
        rw [hstep, ih]
        simp [hyes]

/-- A request that is not interrupted does what `testAdmin` says. -/
theorem uninterrupted_eq (s : WebUi.State) {phase : P → Phase} {p : P} (h : phase p = .waiting) :
    uninterrupted requests ⟨s.things, s.leases, phase⟩ p =
      ⟨(testAdmin s (requests p)).2.things, (testAdmin s (requests p)).2.leases,
        Function.update phase p (.answered (testAdmin s (requests p)).1)⟩ := by
  have hkeys : step requests ⟨s.things, s.leases, phase⟩ (.keys p s.things.keys) =
      State.setPhase ⟨s.things, s.leases, phase⟩ p (goOn (requests p) s.things.keys) := by
    simp [step, h]
  rw [uninterrupted, hkeys, foldl_next_goOn]
  have hanswered : ∀ r, (State.setPhase ⟨s.things, s.leases, phase⟩ p (.answered r)).phase p =
      .answered r := fun r => Function.update_self p _ phase
  unfold testAdmin hasAdmin
  split_ifs with hany
  · rfl
  · unfold afterScan
    cases hmac : formField (requests p) "curmac" with
    | none => exact foldl_next_of_answered (hanswered _) 2
    | some mac =>
        cases hname : formField (requests p) "name" with
        | none => exact foldl_next_of_answered (hanswered _) 2
        | some name =>
            dsimp only
            split_ifs
            · exact foldl_next_of_answered (hanswered _) 2
            · simp [step, State.setPhase, List.replicate_succ]

/-- The store is empty, and two devices apply at once. -/
def applications (p : Bool) : Request :=
  ⟨.testAdmin, .post, [], [("curmac".toList, if p then "aa".toList else "bb".toList),
    ("name".toList, if p then "anna".toList else "bob".toList)],
    if p then "10.0.0.1".toList else "10.0.0.2".toList, [], 0⟩

def emptyStore : State Bool := ⟨∅, fun _ => none, fun _ => .waiting⟩

theorem complete_applications (p : Bool) : Complete (applications p) := by
  cases p
  · exact ⟨"bb".toList, "bob".toList, by decide, by decide, by decide, by decide⟩
  · exact ⟨"aa".toList, "anna".toList, by decide, by decide, by decide, by decide⟩

/-- One after the other, the second device is told that there is an admin. -/
theorem oneAdmin_of_undisturbed_inTurn :
    ¬ hasAdmin emptyStore.things ∧
      Throughout (step applications) OneAdmin emptyStore
        [.keys true [], .next true, .next true, .keys false ["aa".toList], .next false] := by
  have hempty : ¬ hasAdmin emptyStore.things := by decide
  refine ⟨hempty, oneAdmin_of_undisturbed _ hempty ?_⟩
  refine ⟨complete_applications true, ⟨complete_applications true, ?_⟩,
    ⟨complete_applications true, ?_⟩, complete_applications false,
    ⟨complete_applications false, ?_⟩, trivial⟩
  all_goals
    intro _ _ _ q hq hlooking
    cases q <;> first | exact hq rfl | exact hlooking

/-- Both devices look before one of them writes, and both become admins. -/
theorem two_first_admins :
    ¬ hasAdmin emptyStore.things ∧
      ∃ s, [.keys true [], .keys false [], .next true, .next false].foldl (step applications)
          emptyStore = s ∧
        hget s.things "aa".toList .isadmin = some yes ∧
        hget s.things "bb".toList .isadmin = some yes ∧
        ¬ OneAdmin s := by
  refine ⟨by decide, _, rfl, by decide, by decide, fun h => ?_⟩
  have hsame : true = false := h.unique true false (by trivial) (by trivial)
  cases hsame

end

end Dowse.FirstAdmin
