import Dowse.WebUi

/-!
# The discovery of things

Three programs write what they see on the network into the store of things: the reader of
the kernel's neighbour table, the parser of nmap scans, and the handler of unknown pages for
the device that asks. Each has a test of its own for a thing that is already there. The
reader of the neighbour table also has a database of its own; which one it is does not
matter for what follows, and the number is a parameter.

The parser of scans builds a line for `redis-cli`. How that program splits a line is a
parameter too, and only what it does with plain words and quoted values is assumed.
-/
namespace Dowse.Discovery
open CStrings KeyedHashes ThingStore GuardedRuns

/-- The fields by the names that are stored; the others are read by no modelled program. -/
def fieldOf (name : Text) : Option ThingField :=
  if name = "isadmin".toList then some .isadmin
  else if name = "enable_to_browse".toList then some .enableToBrowse
  else if name = "macaddr".toList then some .macaddr
  else if name = "ip4".toList then some .ip4
  else if name = "age".toList then some .age
  else if name = "last".toList then some .last
  else if name = "name".toList then some .name
  else none

/-- One line of the neighbour table, split at blanks. -/
def neighbourLine (things : Things Text) (thing : List Text) (now : ℕ) : Things Text :=
  match thing with
  | [ip, _, _, _, mac, state] =>
      if (state = "REACHABLE".toList ∨ state = "STALE".toList) ∧ mac.length = 17 then
        fillThingInfo id things mac ip now false
      else things
  | _ => things

/-- A host of a scan. A value that the scan does not have is empty. -/
structure Host where
  mac : Text
  value : Text → Text
  starttime : Text

/-- A word of a line, or a value between single quotes. -/
inductive Token
  | word (text : Text)
  | quoted (text : Text)
  deriving DecidableEq, Repr

def Token.text : Token → Text
  | .word text => text
  | .quoted text => text

def Token.render : Token → Text
  | .word text => text
  | .quoted text => '\'' :: text ++ ['\'']

def lower (text : Text) : Text := text.map Char.toLower

/-- The items of the index that have an address in the output of nmap. -/
def nmapArray : List Text :=
  ["macaddr".toList, "ip4".toList, "hostname".toList, "os".toList, "vendor".toList]

/-- The fields for one item. The times are added again with each of them. -/
def itemFields (aged : Bool) (host : Host) (item : Text) : List (Text × Token) :=
  (if host.value item = [] then [] else [(item, .quoted (lower (host.value item)))]) ++
    (if aged then [] else [("age".toList, .word host.starttime)]) ++
    [("last".toList, .word host.starttime)]

/-- The fields that are written for a host, with the defaults when the thing is new. -/
def hostFields (known aged : Bool) (host : Host) : List (Text × Token) :=
  (if known then [] else
    [("isadmin".toList, .quoted no), ("enable_to_browse".toList, .quoted no)]) ++
    nmapArray.flatMap (itemFields aged host)

def redisQuery (key : Text) (fields : List (Text × Token)) : List Token :=
  .word "hmset".toList :: .word ("thing_".toList ++ key) ::
    fields.flatMap fun p => [.word p.1, p.2]

def line (tokens : List Token) : Text := [' '].intercalate (tokens.map Token.render)

def writeField (key : Text) (things : Things Text) (p : Text × Text) : Things Text :=
  match fieldOf p.1 with
  | some f => hset things key f p.2
  | none => things.insert key (hgetall things key)

/-- The fields and values of an `HMSET`, which come in pairs. -/
def pairs : List Text → List (Text × Text)
  | f :: v :: rest => (f, v) :: pairs rest
  | _ => []

/-- What the server does with the arguments of a line. -/
def execute (things : Things Text) : Option (List Text) → Things Text
  | some (cmd :: key :: args) =>
      if cmd = "hmset".toList ∧ "thing_".toList <+: key ∧ args.length % 2 = 0 then
        (pairs args).foldl (writeField (key.drop 6)) things
      else things
  | _ => things

/-- The loop of `nmap-parse` for one host. -/
def nmapHost (cli : Text → Option (List Text)) (things : Things Text) (host : Host) :
    Things Text :=
  let key := lower host.mac
  if key = [] then things
  else execute things <| cli <| line <| redisQuery key <|
    hostFields (key ∈ things) ((hget things key .age).any (· ≠ [])) host

def nmapParse (cli : Text → Option (List Text)) (things : Things Text) (hosts : List Host) :
    Things Text := hosts.foldl (nmapHost cli) things

/-- The databases of the storage by number. -/
abbrev Storage := ℕ → Things Text

inductive Event
  | neighbour (thing : List Text) (now : ℕ)
  | scan (hosts : List Host)
  | pageNotFound (req : WebUi.Request)

/-- The handler of unknown pages and the parser of scans use the database 0, the reader of
the neighbour table the database 2. -/
def step (neighbours : ℕ) (cli : Text → Option (List Text)) (s : Storage) : Event → Storage
  | .neighbour thing now =>
      Function.update s neighbours (neighbourLine (s neighbours) thing now)
  | .scan hosts => Function.update s 0 (nmapParse cli (s 0) hosts)
  | .pageNotFound req => Function.update s 0
      (resetUnlessEnabled id (s 0) req.callerMac req.remoteAddr req.now)

/-- The privileges of the things that were there are as before, and new things have none. -/
structure SamePrivileges (s₀ s : Storage) : Prop where
  kept : ∀ db, ∀ mac ∈ s₀ db, hget (s db) mac .isadmin = hget (s₀ db) mac .isadmin
  created : ∀ db, ∀ mac ∈ s db, mac ∉ s₀ db →
    hget (s db) mac .isadmin = some no ∧ hget (s db) mac .enableToBrowse = some no

/-- An unknown page is asked for by a device that is enabled, that has no thing yet, or whose
thing is marked as no admin. -/
def Harmless (s : Storage) : Event → Prop
  | .pageNotFound req => hget (s 0) req.callerMac .enableToBrowse = some yes ∨
      req.callerMac ∉ s 0 ∨ hget (s 0) req.callerMac .isadmin = some no
  | _ => True

/-- Neither a blank nor a quote, a backslash or a line end. -/
def wordChar (c : Char) : Bool := c ∉ [' ', '\t', '\'', '"', '\\', '\n', '\r']

def quotedChar (c : Char) : Bool := c ∉ ['\'', '\\', '\n', '\r']

/-- What can stand in a line as it is. -/
def Token.plain : Token → Bool
  | .word text => text ≠ [] && text.all wordChar
  | .quoted text => text.all quotedChar

/-- `redis-cli` reads a line of plain words and values. -/
def Reads (cli : Text → Option (List Text)) : Prop :=
  ∀ tokens, (∀ t ∈ tokens, Token.plain t) → cli (line tokens) = some (tokens.map Token.text)

/-- The address and the time of a host are words, and its values can be quoted. -/
structure Host.Plain (host : Host) : Prop where
  mac : (lower host.mac).all wordChar
  value : ∀ item ∈ nmapArray, Token.plain (.quoted (lower (host.value item)))
  starttime : Token.plain (.word host.starttime)

def PlainScan (_ : Storage) : Event → Prop
  | .scan hosts => ∀ host ∈ hosts, host.Plain
  | _ => True

/-- A store before and after a discovery. -/
structure Discovers (t t' : Things Text) : Prop where
  kept : ∀ mac ∈ t, mac ∈ t' ∧ hget t' mac .isadmin = hget t mac .isadmin ∧
    (hget t mac .enableToBrowse = some no → hget t' mac .enableToBrowse = some no)
  created : ∀ mac ∈ t', mac ∉ t →
    hget t' mac .isadmin = some no ∧ hget t' mac .enableToBrowse = some no

theorem Discovers.refl (t : Things Text) : Discovers t t :=
  ⟨fun _ h => ⟨h, rfl, id⟩, fun _ h hnot => absurd h hnot⟩

theorem Discovers.trans {t t' t'' : Things Text} (h : Discovers t t') (h' : Discovers t' t'') :
    Discovers t t'' := by
  constructor
  · intro mac hmac
    obtain ⟨hmem, hadmin, henable⟩ := h.kept mac hmac
    obtain ⟨hmem', hadmin', henable'⟩ := h'.kept mac hmem
    exact ⟨hmem', hadmin'.trans hadmin, fun hno => henable' (henable hno)⟩
  · intro mac hmac hnot
    by_cases hmem : mac ∈ t'
    · obtain ⟨hadmin, henable⟩ := h.created mac hmem hnot
      obtain ⟨-, hadmin', henable'⟩ := h'.kept mac hmem
      exact ⟨hadmin'.trans hadmin, henable' henable⟩
    · exact h'.created mac hmac hmem

/-- A writer that touches one thing only has to be looked at there. -/
theorem discovers_of_key {t t' : Things Text} {key : Text}
    (hother : ∀ mac, mac ≠ key → (mac ∈ t' ↔ mac ∈ t) ∧ ∀ f, hget t' mac f = hget t mac f)
    (hmem : key ∈ t') (hkept : key ∈ t → hget t' key .isadmin = hget t key .isadmin ∧
      (hget t key .enableToBrowse = some no → hget t' key .enableToBrowse = some no))
    (hcreated : key ∉ t → hget t' key .isadmin = some no ∧
      hget t' key .enableToBrowse = some no) : Discovers t t' := by
  constructor
  · intro mac hmac
    by_cases hkey : mac = key
    · subst hkey
      exact ⟨hmem, hkept hmac⟩
    · obtain ⟨hiff, hfields⟩ := hother mac hkey
      exact ⟨hiff.mpr hmac, hfields _, fun hno => (hfields _).trans hno⟩
  · intro mac hmac hnot
    by_cases hkey : mac = key
    · subst hkey
      exact hcreated hnot
    · exact absurd ((hother mac hkey).1.mp hmac) hnot

theorem mem_hset {t : Things Text} {mac key : Text} {f : ThingField} {v : Text} :
    mac ∈ hset t key f v ↔ mac = key ∨ mac ∈ t := AList.mem_insert t

theorem mem_hmset {t : Things Text} {mac key : Text} {vals : List (ThingField × Text)}
    (h : vals ≠ []) : mac ∈ hmset t key vals ↔ mac = key ∨ mac ∈ t := by
  induction vals generalizing t with
  | nil => exact absurd rfl h
  | cons p vals ih =>
      cases vals with
      | nil => exact mem_hset
      | cons q vals =>
          change mac ∈ hmset (hset t key p.1 p.2) key (q :: vals) ↔ _
          rw [ih (List.cons_ne_nil q vals), mem_hset, ← or_assoc, or_self]

theorem discovers_fillThingInfo (t : Things Text) (mac ip : Text) (now : ℕ) :
    Discovers t (fillThingInfo id t mac ip now false) := by
  by_cases hmac : mac ∈ t
  · rw [fillThingInfo_of_mem hmac]
    refine discovers_of_key (fun mac' hne => ⟨?_, ?_⟩) (mem_hset.mpr (.inl rfl)) (fun _ => ?_)
      (fun hnot => absurd hmac hnot)
    · rw [mem_hset, or_iff_right hne]
    · exact fun f => hget_hset_of_key_ne hne _ _ _ _
    · rw [hget_hset_of_field_ne (by decide), hget_hset_of_field_ne (by decide)]
      exact ⟨rfl, id⟩
  · unfold fillThingInfo
    rw [if_neg hmac]
    refine discovers_of_key (fun mac' hne => ⟨?_, ?_⟩)
      ((mem_hmset (by simp [thingDefaults])).mpr (.inl rfl)) (fun hmem => absurd hmem hmac)
      fun _ => ?_
    · rw [mem_hmset (by simp [thingDefaults]), or_iff_right hne]
    · exact fun f => hget_hmset_of_key_ne hne _ _ _
    · exact ⟨hget_hmset_thingDefaults_isadmin, hget_hmset_thingDefaults_enable⟩

theorem discovers_neighbourLine (t : Things Text) (thing : List Text) (now : ℕ) :
    Discovers t (neighbourLine t thing now) := by
  unfold neighbourLine
  split
  · split_ifs
    · exact discovers_fillThingInfo t _ _ now
    · exact .refl t
  · exact .refl t

/-- The field is neither of the privileges. -/
def Neutral (name : Text) : Prop :=
  name ≠ "isadmin".toList ∧ name ≠ "enable_to_browse".toList

theorem mem_writeField {t : Things Text} {mac key : Text} {p : Text × Text} :
    mac ∈ writeField key t p ↔ mac = key ∨ mac ∈ t := by
  unfold writeField
  split
  · exact mem_hset
  · exact AList.mem_insert t

theorem hget_writeField_ne {t : Things Text} {mac key : Text} (h : mac ≠ key) (p : Text × Text)
    (f : ThingField) : hget (writeField key t p) mac f = hget t mac f := by
  unfold writeField
  split
  · exact hget_hset_of_key_ne h _ _ _ _
  · rw [hget, hgetall_insert, if_neg h]
    rfl

theorem fieldOf_neutral {name : Text} (h : Neutral name) :
    fieldOf name ≠ some .isadmin ∧ fieldOf name ≠ some .enableToBrowse := by
  unfold fieldOf
  rw [if_neg h.1, if_neg h.2]
  split_ifs <;> exact ⟨nofun, nofun⟩

theorem hget_writeField_neutral {t : Things Text} {key : Text} {p : Text × Text}
    (h : Neutral p.1) (mac : Text) {f : ThingField} (hf : f = .isadmin ∨ f = .enableToBrowse) :
    hget (writeField key t p) mac f = hget t mac f := by
  have hname := fieldOf_neutral h
  unfold writeField
  split
  · rename_i g hg
    rw [hg] at hname
    refine hget_hset_of_field_ne ?_ _ _ _ _
    rintro rfl
    exact hf.elim (fun hf => hname.1 (congrArg some hf)) fun hf => hname.2 (congrArg some hf)
  · rw [hget, hgetall_insert]
    split_ifs with hmac
    · rw [hmac]
      rfl
    · rfl

section Fields
variable {t : Things Text} {key : Text} {fields : List (Text × Text)}

theorem mem_foldl_writeField (h : fields ≠ []) {mac : Text} :
    mac ∈ fields.foldl (writeField key) t ↔ mac = key ∨ mac ∈ t := by
  induction fields generalizing t with
  | nil => exact absurd rfl h
  | cons p fields ih =>
      cases fields with
      | nil => exact mem_writeField
      | cons q fields =>
          rw [List.foldl_cons, ih (List.cons_ne_nil q fields), mem_writeField, ← or_assoc, or_self]

theorem hget_foldl_writeField_ne {mac : Text} (h : mac ≠ key) (f : ThingField) :
    hget (fields.foldl (writeField key) t) mac f = hget t mac f := by
  induction fields generalizing t with
  | nil => rfl
  | cons p fields ih => rw [List.foldl_cons, ih, hget_writeField_ne h]

theorem hget_foldl_writeField_neutral (h : ∀ p ∈ fields, Neutral p.1) (mac : Text)
    {f : ThingField} (hf : f = .isadmin ∨ f = .enableToBrowse) :
    hget (fields.foldl (writeField key) t) mac f = hget t mac f := by
  induction fields generalizing t with
  | nil => rfl
  | cons p fields ih =>
      rw [List.foldl_cons, ih fun q hq => h q (List.mem_cons_of_mem p hq),
        hget_writeField_neutral (h p List.mem_cons_self) mac hf]

end Fields

/-- The fields of a host with the values that are sent. -/
def sentFields (fields : List (Text × Token)) : List (Text × Text) :=
  fields.map fun p => (p.1, p.2.text)

theorem pairs_redisQuery (fields : List (Text × Token)) :
    pairs ((fields.flatMap fun p => [Token.word p.1, p.2]).map Token.text) = sentFields fields := by
  induction fields with
  | nil => rfl
  | cons p fields ih =>
      rw [List.flatMap_cons, List.map_append]
      exact congrArg ((p.1, p.2.text) :: ·) ih

/-- The names and values of a host can stand in a line, and they are neutral but for the
defaults. -/
theorem itemFields_plain {host : Host} (h : host.Plain) {aged : Bool} {item : Text}
    (hitem : item ∈ nmapArray) :
    ∀ p ∈ itemFields aged host item, Neutral p.1 ∧ Token.plain (.word p.1) ∧ p.2.plain := by
  have hname : Neutral item ∧ Token.plain (.word item) := by
    simp only [nmapArray, List.mem_cons, List.not_mem_nil, or_false] at hitem
    rcases hitem with rfl | rfl | rfl | rfl | rfl <;>
      exact ⟨⟨by decide, by decide⟩, by decide⟩
  have hage : Neutral "age".toList ∧ Token.plain (.word "age".toList) :=
    ⟨⟨by decide, by decide⟩, by decide⟩
  have hlast : Neutral "last".toList ∧ Token.plain (.word "last".toList) :=
    ⟨⟨by decide, by decide⟩, by decide⟩
  intro p hp
  simp only [itemFields, List.mem_append, List.mem_singleton] at hp
  rcases hp with (hp | hp) | rfl
  · split_ifs at hp
    · cases hp
    · rw [List.mem_singleton.mp hp]
      exact ⟨hname.1, hname.2, h.value item hitem⟩
  · split_ifs at hp
    · cases hp
    · rw [List.mem_singleton.mp hp]
      exact ⟨hage.1, hage.2, h.starttime⟩
  · exact ⟨hlast.1, hlast.2, h.starttime⟩

theorem plain_hostFields {host : Host} (h : host.Plain) (known aged : Bool) :
    ∀ p ∈ hostFields known aged host, Token.plain (.word p.1) ∧ p.2.plain := by
  intro p hp
  rcases List.mem_append.mp hp with hp | hp
  · split_ifs at hp
    · cases hp
    · simp only [List.mem_cons, List.not_mem_nil, or_false] at hp
      rcases hp with rfl | rfl <;> exact ⟨by decide, by decide⟩
  · obtain ⟨item, hitem, hmem⟩ := List.mem_flatMap.mp hp
    exact (itemFields_plain h hitem p hmem).2

theorem plain_redisQuery {key : Text} {fields : List (Text × Token)} (hkey : key.all wordChar)
    (hfields : ∀ p ∈ fields, Token.plain (.word p.1) ∧ p.2.plain) :
    ∀ t ∈ redisQuery key fields, t.plain := by
  have hverb : Token.plain (.word "hmset".toList) := by decide
  have hthing : Token.plain (.word ("thing_".toList ++ key)) := by
    have hstem : "thing_".toList.all wordChar := by decide
    have hne : "thing_".toList ++ key ≠ [] := List.append_ne_nil_of_left_ne_nil (by decide) key
    change (decide ("thing_".toList ++ key ≠ []) && ("thing_".toList ++ key).all wordChar) = true
    rw [List.all_append, hstem, hkey, decide_eq_true hne]
    rfl
  intro t ht
  simp only [redisQuery, List.mem_cons] at ht
  rcases ht with rfl | rfl | ht
  · exact hverb
  · exact hthing
  · obtain ⟨p, hp, ht⟩ := List.mem_flatMap.mp ht
    rcases List.mem_pair.mp ht with rfl | rfl
    · exact (hfields p hp).1
    · exact (hfields p hp).2

theorem length_flatMap_pair (fields : List (Text × Token)) :
    (fields.flatMap fun p => [Token.word p.1, p.2]).length = 2 * fields.length := by
  induction fields with
  | nil => rfl
  | cons p fields ih =>
      rw [List.flatMap_cons, List.length_append, ih, List.length_cons]
      simp
      omega

/-- The server writes the fields of a line that was read as it was meant. -/
theorem execute_redisQuery (t : Things Text) (key : Text) (fields : List (Text × Token)) :
    execute t (some ((redisQuery key fields).map Token.text)) =
      (sentFields fields).foldl (writeField key) t := by
  have hcond : "hmset".toList = "hmset".toList ∧ "thing_".toList <+: "thing_".toList ++ key ∧
      ((fields.flatMap fun p => [Token.word p.1, p.2]).map Token.text).length % 2 = 0 := by
    refine ⟨rfl, List.prefix_append _ _, ?_⟩
    rw [List.length_map, length_flatMap_pair]
    omega
  have hkey : ("thing_".toList ++ key).drop 6 = key := rfl
  rw [← pairs_redisQuery]
  exact (if_pos hcond).trans (by rw [Token.text, hkey])

theorem sentFields_hostFields (known aged : Bool) (host : Host) :
    sentFields (hostFields known aged host) =
      (if known then [] else [("isadmin".toList, no), ("enable_to_browse".toList, no)]) ++
        sentFields (nmapArray.flatMap (itemFields aged host)) := by
  cases known <;> rfl

theorem sentFields_ne_nil (known aged : Bool) (host : Host) :
    sentFields (hostFields known aged host) ≠ [] := by
  have hitem : ("last".toList, Token.word host.starttime) ∈ hostFields known aged host := by
    refine List.mem_append_right _ (List.mem_flatMap.mpr ⟨_, List.mem_cons_self, ?_⟩)
    exact List.mem_append_right _ (List.mem_singleton_self _)
  exact List.ne_nil_of_mem (List.mem_map_of_mem hitem)

theorem neutral_items {host : Host} (h : host.Plain) (aged : Bool) :
    ∀ p ∈ sentFields (nmapArray.flatMap (itemFields aged host)), Neutral p.1 := by
  intro p hp
  obtain ⟨q, hq, rfl⟩ := List.mem_map.mp hp
  obtain ⟨item, hitem, hmem⟩ := List.mem_flatMap.mp hq
  exact (itemFields_plain h hitem q hmem).1

/-- The defaults of a new thing. -/
theorem hget_defaults (t : Things Text) (key : Text) :
    hget ([("isadmin".toList, no), ("enable_to_browse".toList, no)].foldl (writeField key) t) key
        .isadmin = some no ∧
      hget ([("isadmin".toList, no), ("enable_to_browse".toList, no)].foldl (writeField key) t) key
        .enableToBrowse = some no := by
  have hadmin : fieldOf "isadmin".toList = some .isadmin := by decide
  have henable : fieldOf "enable_to_browse".toList = some .enableToBrowse := by decide
  have hfold : [("isadmin".toList, no), ("enable_to_browse".toList, no)].foldl (writeField key) t =
      hset (hset t key .isadmin no) key .enableToBrowse no := by
    simp only [List.foldl_cons, List.foldl_nil, writeField, hadmin, henable]
  rw [hfold]
  exact ⟨(hget_hset_of_field_ne (by decide) _ _ _ _).trans (hget_hset_same _ _ _ _),
    hget_hset_same _ _ _ _⟩

section Scan
variable {cli : Text → Option (List Text)} (hcli : Reads cli)
include hcli

/-- The line for a plain host writes its fields. -/
theorem nmapHost_eq {host : Host} (h : host.Plain) (t : Things Text) (hmac : lower host.mac ≠ []) :
    nmapHost cli t host =
      (sentFields (hostFields (lower host.mac ∈ t) ((hget t (lower host.mac) .age).any (· ≠ []))
        host)).foldl (writeField (lower host.mac)) t := by
  have hplain := plain_redisQuery h.mac (plain_hostFields h (lower host.mac ∈ t)
    ((hget t (lower host.mac) .age).any (· ≠ [])))
  unfold nmapHost
  rw [if_neg hmac, hcli _ hplain, execute_redisQuery]

theorem discovers_nmapHost {host : Host} (h : host.Plain) (t : Things Text) :
    Discovers t (nmapHost cli t host) := by
  by_cases hmac : lower host.mac = []
  · unfold nmapHost
    rw [if_pos hmac]
    exact .refl t
  · rw [nmapHost_eq hcli h t hmac]
    have hne := sentFields_ne_nil (lower host.mac ∈ t) ((hget t (lower host.mac) .age).any (· ≠ []))
      host
    refine discovers_of_key (fun mac hother => ⟨?_, ?_⟩) ((mem_foldl_writeField hne).mpr (.inl rfl))
      (fun hmem => ?_) (fun hnot => ?_)
    · rw [mem_foldl_writeField hne, or_iff_right hother]
    · exact hget_foldl_writeField_ne hother
    · rw [sentFields_hostFields, if_pos (decide_eq_true hmem), List.nil_append]
      have hneutral := neutral_items h ((hget t (lower host.mac) .age).any (· ≠ []))
      rw [hget_foldl_writeField_neutral hneutral _ (.inl rfl),
        hget_foldl_writeField_neutral hneutral _ (.inr rfl)]
      exact ⟨rfl, id⟩
    · rw [sentFields_hostFields, if_neg (by simpa using hnot), List.foldl_append]
      have hneutral := neutral_items h ((hget t (lower host.mac) .age).any (· ≠ []))
      rw [hget_foldl_writeField_neutral hneutral _ (.inl rfl),
        hget_foldl_writeField_neutral hneutral _ (.inr rfl)]
      exact hget_defaults t (lower host.mac)

theorem discovers_nmapParse {hosts : List Host} (h : ∀ host ∈ hosts, host.Plain)
    (t : Things Text) : Discovers t (nmapParse cli t hosts) := by
  unfold nmapParse
  induction hosts generalizing t with
  | nil => exact .refl t
  | cons host hosts ih =>
      rw [List.foldl_cons]
      exact (discovers_nmapHost hcli (h host List.mem_cons_self) t).trans
        (ih (fun other hother => h other (List.mem_cons_of_mem host hother)) _)

end Scan

theorem discovers_resetUnlessEnabled {t : Things Text} {mac : Text} (ip : Text) (now : ℕ)
    (h : hget t mac .enableToBrowse = some yes ∨ mac ∉ t ∨ hget t mac .isadmin = some no) :
    Discovers t (resetUnlessEnabled id t mac ip now) := by
  by_cases henable : hget t mac .enableToBrowse = some yes
  · rw [resetUnlessEnabled_of_enabled henable]
    exact .refl t
  · have hmem : mac ∈ resetUnlessEnabled id t mac ip now :=
      mem_of_hget (hget_resetUnlessEnabled_enable henable)
    refine discovers_of_key (fun mac' hne => ⟨?_, hget_resetUnlessEnabled_ne hne⟩) hmem
      (fun hold => ?_) fun _ => ?_
    · rw [resetUnlessEnabled, if_neg henable, mem_hset, mem_hmset (by simp [thingDefaults]),
        ← or_assoc, or_self, or_iff_right hne]
    · have hadmin := (h.resolve_left henable).resolve_left (not_not_intro hold)
      rw [hget_resetUnlessEnabled_isadmin henable, hadmin]
      exact ⟨rfl, fun _ => hget_resetUnlessEnabled_enable henable⟩
    · exact ⟨hget_resetUnlessEnabled_isadmin henable, hget_resetUnlessEnabled_enable henable⟩

/-- An unknown page changes the things as the handler of the web interface does. -/
theorem pageNotFound_things (s : WebUi.State) (req : WebUi.Request) :
    (WebUi.pageNotFound s req).2.things =
      resetUnlessEnabled id s.things req.callerMac req.remoteAddr req.now := by
  unfold WebUi.pageNotFound
  split_ifs with h
  · exact (resetUnlessEnabled_of_enabled h).symm
  · rfl

/-- Every database was only discovered into. -/
def AllDiscovered (s₀ s : Storage) : Prop := ∀ db, Discovers (s₀ db) (s db)

theorem AllDiscovered.samePrivileges {s₀ s : Storage} (h : AllDiscovered s₀ s) :
    SamePrivileges s₀ s :=
  ⟨fun db mac hmac => ((h db).kept mac hmac).2.1, fun db => (h db).created⟩

theorem AllDiscovered.update {s₀ s : Storage} (h : AllDiscovered s₀ s) {db : ℕ} {t : Things Text}
    (ht : Discovers (s db) t) : AllDiscovered s₀ (Function.update s db t) := by
  intro db'
  by_cases hdb : db' = db
  · subst hdb
    rw [Function.update_self]
    exact (h db').trans ht
  · rw [Function.update_of_ne hdb]
    exact h db'

section Runs
variable {cli : Text → Option (List Text)} (hcli : Reads cli) {neighbours : ℕ}
include hcli

theorem allDiscovered_step {s₀ s : Storage} (h : AllDiscovered s₀ s) {ev : Event}
    (hplain : PlainScan s ev) (hev : Harmless s ev) :
    AllDiscovered s₀ (step neighbours cli s ev) := by
  cases ev with
  | neighbour thing now => exact h.update (discovers_neighbourLine _ thing now)
  | scan hosts => exact h.update (discovers_nmapParse hcli hplain _)
  | pageNotFound req => exact h.update (discovers_resetUnlessEnabled _ _ hev)

/-- A page that resets a thing which is not marked as no admin breaks the frame. -/
theorem samePrivileges_step_iff {s₀ s : Storage} (h : AllDiscovered s₀ s) {ev : Event}
    (hplain : PlainScan s ev) :
    SamePrivileges s₀ (step neighbours cli s ev) ↔ Harmless s ev := by
  refine ⟨fun hsame => ?_, fun hev =>
    (allDiscovered_step hcli h hplain hev).samePrivileges⟩
  cases ev with
  | neighbour thing now => trivial
  | scan hosts => trivial
  | pageNotFound req =>
      by_cases henable : hget (s 0) req.callerMac .enableToBrowse = some yes
      · exact .inl henable
      · by_cases hmem : req.callerMac ∈ s 0
        · refine .inr (.inr ?_)
          by_cases hold : req.callerMac ∈ s₀ 0
          · have hkept := hsame.kept 0 req.callerMac hold
            rw [step, Function.update_self, hget_resetUnlessEnabled_isadmin henable] at hkept
            rw [((h 0).kept _ hold).2.1, ← hkept]
          · exact ((h 0).created _ hmem hold).1
        · exact .inr (.inl hmem)

/-- In every run of discoveries whose scans can be quoted, the privileges of all things stay
as they were in every state reached, and new things have none, if and only if no unknown
page is asked for by a thing that is not enabled and not marked as no admin. -/
theorem samePrivileges_iff_harmless (s₀ : Storage) {evs : List Event}
    (hplain : Along (step neighbours cli) PlainScan s₀ evs) :
    Throughout (step neighbours cli) (SamePrivileges s₀) s₀ evs ↔
      Along (step neighbours cli) Harmless s₀ evs :=
  throughout_iff_along (I := AllDiscovered s₀) (fun _ hs => hs.samePrivileges)
    (fun _ _ hs hev => samePrivileges_step_iff hcli hs hev)
    (fun _ _ hs hev => allDiscovered_step hcli hs hev) (fun db => .refl (s₀ db)) hplain

end Runs

/-- Where a reader of lines is: between two words, in a word, between single quotes, or
behind the closing quote. -/
inductive Reading
  | blank
  | word (text : Text)
  | quoted (text : Text)
  | closed (text : Text)

/-- The splitting of a line into words and quoted values. Double quotes and backslashes have
no meaning of their own here; they are in no plain line. -/
def splitFrom : Reading → Text → Option (List Text)
  | .blank, [] => some []
  | .blank, c :: rest =>
      if c = ' ' then splitFrom .blank rest
      else if c = '\'' then splitFrom (.quoted []) rest
      else splitFrom (.word [c]) rest
  | .word text, [] => some [text]
  | .word text, c :: rest =>
      if c = ' ' then (text :: ·) <$> splitFrom .blank rest
      else splitFrom (.word (text ++ [c])) rest
  | .quoted _, [] => none
  | .quoted text, c :: rest =>
      if c = '\'' then splitFrom (.closed text) rest
      else splitFrom (.quoted (text ++ [c])) rest
  | .closed text, [] => some [text]
  | .closed text, c :: rest =>
      if c = ' ' then (text :: ·) <$> splitFrom .blank rest else none

def splitArgs (text : Text) : Option (List Text) := splitFrom .blank text

theorem ne_of_wordChar {c : Char} (h : wordChar c) : c ≠ ' ' ∧ c ≠ '\'' := by
  constructor <;> rintro rfl <;> exact absurd h (by decide)

theorem splitFrom_word {text : Text} (h : text.all wordChar) (done rest : Text) :
    splitFrom (.word done) (text ++ rest) = splitFrom (.word (done ++ text)) rest := by
  induction text generalizing done with
  | nil => rw [List.nil_append, List.append_nil]
  | cons c text ih =>
      obtain ⟨hc, htext⟩ := Bool.and_eq_true_iff.mp (List.all_cons ▸ h)
      rw [List.cons_append, splitFrom, if_neg (ne_of_wordChar hc).1, ih htext, List.append_assoc]
      rfl

theorem splitFrom_quoted {text : Text} (h : text.all quotedChar) (done rest : Text) :
    splitFrom (.quoted done) (text ++ '\'' :: rest) = splitFrom (.closed (done ++ text)) rest := by
  induction text generalizing done with
  | nil => rw [List.nil_append, List.append_nil, splitFrom, if_pos rfl]
  | cons c text ih =>
      obtain ⟨hc, htext⟩ := Bool.and_eq_true_iff.mp (List.all_cons ▸ h)
      have hquote : c ≠ '\'' := by
        rintro rfl
        exact absurd hc (by decide)
      rw [List.cons_append, splitFrom, if_neg hquote, ih htext, List.append_assoc]
      rfl

/-- A plain token is read up to the blank behind it or the end of the line. -/
theorem splitFrom_token {t : Token} (h : t.plain) {rest : Text}
    (hrest : rest = [] ∨ ∃ more, rest = ' ' :: more) :
    splitFrom .blank (t.render ++ rest) = splitFrom (.closed t.text) rest := by
  cases t with
  | word text =>
      cases text with
      | nil => exact absurd h (by decide)
      | cons c text =>
          simp only [Token.plain, Bool.and_eq_true, List.all_cons] at h
          obtain ⟨-, hc, htext⟩ := h
          obtain ⟨hblank, hquote⟩ := ne_of_wordChar hc
          change splitFrom .blank (c :: (text ++ rest)) = _
          rw [splitFrom, if_neg hblank, if_neg hquote, splitFrom_word htext]
          rcases hrest with rfl | ⟨more, rfl⟩
          · rfl
          · rw [splitFrom, splitFrom, if_pos rfl, if_pos rfl]
            rfl
  | quoted text =>
      change splitFrom .blank ('\'' :: (text ++ ['\''] ++ rest)) = _
      rw [splitFrom, if_neg (by decide), if_pos rfl, List.append_assoc]
      exact splitFrom_quoted h [] rest

theorem reads_splitArgs : Reads splitArgs := by
  intro tokens
  induction tokens with
  | nil => exact fun _ => rfl
  | cons t tokens ih =>
      intro h
      have ht : t.plain := h t List.mem_cons_self
      have htokens := ih fun u hu => h u (List.mem_cons_of_mem t hu)
      cases tokens with
      | nil =>
          have hline : line [t] = t.render ++ [] := by
            rw [line, List.map_singleton, List.intercalate_singleton, List.append_nil]
          rw [hline, splitArgs, splitFrom_token ht (.inl rfl)]
          rfl
      | cons u tokens =>
          have hline : line (t :: u :: tokens) = t.render ++ ' ' :: line (u :: tokens) := by
            rw [line, List.map_cons, List.map_cons, List.intercalate_cons_cons, List.append_assoc]
            rfl
          rw [hline, splitArgs, splitFrom_token ht (.inr ⟨_, rfl⟩), splitFrom, if_pos rfl]
          change (t.text :: ·) <$> splitArgs (line (u :: tokens)) = _
          rw [htokens]
          rfl

/-- An admin that is not enabled to browse. -/
def adminHouse : Storage := fun _ =>
  hset (hset ∅ "02:00:00:00:00:01".toList .isadmin yes) "02:00:00:00:00:01".toList
    .enableToBrowse no

/-- A device asks for a page that does not exist. -/
def strayRequest (ip mac : Text) : WebUi.Request :=
  ⟨.unknown, .get, [], [], ip, [(ip, mac)], 0⟩

def scannedHost : Host :=
  ⟨"02:00:00:00:00:09".toList,
    fun item => if item = "vendor".toList then "Acme Ltd.".toList else [], "1500000000".toList⟩

/-- A new device asks for an unknown page, the admin is seen in the neighbour table, and a
scan finds a host. -/
def discoveries : List Event :=
  [.pageNotFound (strayRequest "10.0.0.7".toList "02:00:00:00:00:07".toList),
    .neighbour ["10.0.0.2".toList, "dev".toList, "eth0".toList, "lladdr".toList,
      "02:00:00:00:00:01".toList, "STALE".toList] 5,
    .scan [scannedHost]]

theorem plain_scannedHost : scannedHost.Plain := by
  refine ⟨by decide, ?_, by decide⟩
  simp only [nmapArray, List.forall_mem_cons]
  refine ⟨by decide, by decide, by decide, by decide, by decide, nofun⟩

theorem samePrivileges_iff_harmless_discoveries :
    Reads splitArgs ∧ Along (step 2 splitArgs) PlainScan adminHouse discoveries ∧
      Throughout (step 2 splitArgs) (SamePrivileges adminHouse) adminHouse discoveries := by
  have hplain : Along (step 2 splitArgs) PlainScan adminHouse discoveries := by
    refine ⟨trivial, trivial, fun host hhost => ?_, trivial⟩
    rw [List.mem_singleton.mp hhost]
    exact plain_scannedHost
  refine ⟨reads_splitArgs, hplain, (samePrivileges_iff_harmless reads_splitArgs _ hplain).mpr ?_⟩
  exact ⟨.inr (.inl (by decide)), trivial, trivial, trivial⟩

/-- The admin asks for a page that does not exist, and is no admin any more. -/
theorem stray_admin_degraded :
    hget (adminHouse 0) "02:00:00:00:00:01".toList .isadmin = some yes ∧
      ∃ s, step 2 splitArgs adminHouse
          (.pageNotFound (strayRequest "10.0.0.2".toList "02:00:00:00:00:01".toList)) = s ∧
        hget (s 0) "02:00:00:00:00:01".toList .isadmin = some no ∧
        ¬ SamePrivileges adminHouse s := by
  have hbefore : hget (adminHouse 0) "02:00:00:00:00:01".toList .isadmin = some yes := by decide
  refine ⟨hbefore, _, rfl, by decide, fun h => ?_⟩
  exact absurd (h.kept 0 "02:00:00:00:00:01".toList (by decide)) (by decide)

end Dowse.Discovery
