import Dowse.CStrings
import Dowse.KeyedHashes

/-!
# Things

A thing is a device of the local network. Redis keeps a hash for each of them
under the key `thing_<mac>`. Two programs create things: the discovery that
reads the neighbour table of the kernel, and the web server when a device asks for a page
that does not exist.

The type of the keys is a parameter with the text that is stored for it.
-/
namespace Dowse.ThingStore
open CStrings KeyedHashes

/-- The fields of a thing that the modelled programs read or write. -/
inductive ThingField
  | isadmin
  | enableToBrowse
  | macaddr
  | ip4
  | age
  | last
  | name
  deriving DecidableEq, Repr

abbrev Things (κ : Type) := Store κ ThingField Text

def yes : Text := ['y', 'e', 's']

def no : Text := ['n', 'o']

variable {κ : Type} [DecidableEq κ] (macText : κ → Text)

/-- `thing_defaults`, the same in the web server and in the discovery of a device that is
not a router. -/
def thingDefaults (mac : κ) (ip : Text) (now : ℕ) (enable : Text) : List (ThingField × Text) :=
  [(.isadmin, no), (.enableToBrowse, enable), (.macaddr, macText mac), (.ip4, ip),
   (.age, Nat.toDigits 10 now), (.last, Nat.toDigits 10 now)]

/-- `fill_thing_info` of the discovery. -/
def fillThingInfo (things : Things κ) (mac : κ) (ip : Text) (now : ℕ) (router : Bool) : Things κ :=
  if mac ∈ things then hset things mac .ip4 ip
  else hmset things mac (thingDefaults macText mac ip now (if router then yes else no))

/-- What the handler of unknown pages does to the thing of its caller. -/
def resetUnlessEnabled (things : Things κ) (mac : κ) (ip : Text) (now : ℕ) : Things κ :=
  if hget things mac .enableToBrowse = some yes then things
  else hset (hmset things mac (thingDefaults macText mac ip now no)) mac .enableToBrowse no

section Lemmas

variable {macText} {things : Things κ} {mac : κ} {ip enable : Text} {now : ℕ}

theorem hget_hmset_thingDefaults_enable :
    hget (hmset things mac (thingDefaults macText mac ip now enable)) mac .enableToBrowse =
      some enable := by
  simp [hmset, thingDefaults, hget_hset]

theorem hget_hmset_thingDefaults_isadmin :
    hget (hmset things mac (thingDefaults macText mac ip now enable)) mac .isadmin = some no := by
  simp [hmset, thingDefaults, hget_hset]

theorem hget_fillThingInfo_ne {mac' : κ} (h : mac' ≠ mac) (router : Bool) (f : ThingField) :
    hget (fillThingInfo macText things mac ip now router) mac' f = hget things mac' f := by
  unfold fillThingInfo
  split_ifs
  · exact hget_hset_of_key_ne h _ _ _ _
  all_goals exact hget_hmset_of_key_ne h _ _ _

theorem hget_resetUnlessEnabled_ne {mac' : κ} (h : mac' ≠ mac) (f : ThingField) :
    hget (resetUnlessEnabled macText things mac ip now) mac' f = hget things mac' f := by
  unfold resetUnlessEnabled
  split_ifs
  · rfl
  · rw [hget_hset_of_key_ne h, hget_hmset_of_key_ne h]

theorem resetUnlessEnabled_of_enabled (h : hget things mac .enableToBrowse = some yes) :
    resetUnlessEnabled macText things mac ip now = things := by
  rw [resetUnlessEnabled, if_pos h]

theorem hget_resetUnlessEnabled_enable (h : hget things mac .enableToBrowse ≠ some yes) :
    hget (resetUnlessEnabled macText things mac ip now) mac .enableToBrowse = some no := by
  rw [resetUnlessEnabled, if_neg h]
  exact hget_hset_same _ _ _ _

theorem hget_resetUnlessEnabled_isadmin (h : hget things mac .enableToBrowse ≠ some yes) :
    hget (resetUnlessEnabled macText things mac ip now) mac .isadmin = some no := by
  rw [resetUnlessEnabled, if_neg h, hget_hset_of_field_ne (by decide)]
  exact hget_hmset_thingDefaults_isadmin

theorem fillThingInfo_of_mem (h : mac ∈ things) (router : Bool) :
    fillThingInfo macText things mac ip now router = hset things mac .ip4 ip := by
  rw [fillThingInfo, if_pos h]

theorem hget_fillThingInfo_enable (h : mac ∉ things) :
    hget (fillThingInfo macText things mac ip now false) mac .enableToBrowse = some no := by
  rw [fillThingInfo, if_neg h]
  exact hget_hmset_thingDefaults_enable

end Lemmas

end Dowse.ThingStore
