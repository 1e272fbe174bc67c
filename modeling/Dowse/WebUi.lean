import Mathlib.Data.List.DropRight
import Dowse.ElapsedTime
import Dowse.ThingStore
import Dowse.GuardedRuns

/-!
# The web server of Dowse

Each route is a function from the two redis databases and a request to a response
and the databases after it. A missing form field ends a request with status 400 and
a missing field of the caller's hash with status 500; what was written before stays. The
caller is known by the MAC that the ARP table has for its address. The pages that
templates render are kept only by name.
-/
namespace Dowse.WebUi
open CStrings KeyedHashes ThingStore

/-- The things, the party mode, the `dns-lease-` keys of the volatile database by name, and
the messages published to the command fifo. -/
structure State where
  things : Things Text
  partyMode : Option Text
  leases : Text → Option Text
  published : List Text

inductive Route
  | main
  | things
  | thingShow
  | modifyThings
  | modifyPrivThings
  | testAdmin
  | resetAdmin
  | captivePortal
  | cmd
  | help
  | websocket
  | nmap
  | unknown
  deriving DecidableEq, Repr

inductive Method
  | get
  | post
  deriving DecidableEq, Repr

/-- A request with the ARP table and the time at which it is served. -/
structure Request where
  route : Route
  method : Method
  args : List (Text × Text)
  form : List (Text × Text)
  remoteAddr : Text
  arp : List (Text × Text)
  now : ℕ

inductive Response
  | text (body : Text)
  | redirect (url : Text)
  | template (name : Text) (status : ℕ)
  | badRequest
  | methodNotAllowed
  | serverError
  deriving DecidableEq, Repr

def unauthorized : Response := .text "You are unauthorized to perform this action.\n".toList

def badRequestText : Response := .text "<h1>400 - Bad Request</h1>\n".toList

def badRequestText' : Response := .text "<h1>400 - Bad request</h1>\n".toList

def arg (req : Request) (key : String) : Option Text := req.args.lookup key.toList

def formField (req : Request) (key : String) : Option Text := req.form.lookup key.toList

/-- What `%s` makes of a value that may be missing. -/
def pyStr (v : Option Text) : Text := v.getD "None".toList

def underscored (name : Text) : Text := name.map fun c => if c = ' ' then '_' else c

/-- The last line for an address counts. -/
def ip2mac (arp : List (Text × Text)) (ip : Text) : Text :=
  (arp.reverse.lookup ip).getD "n/a".toList

def Request.callerMac (req : Request) : Text := ip2mac req.arp req.remoteAddr

/-- A field of `get_caller_info`. -/
def callerInfo (s : State) (req : Request) (f : ThingField) : Option Text :=
  hget s.things req.callerMac f

def hasAdmin (things : Things Text) : Bool :=
  things.keys.any fun mac => hget things mac .isadmin = some yes

def main (s : State) (req : Request) : Response :=
  if callerInfo s req .enableToBrowse ≠ some yes ∧ callerInfo s req .isadmin ≠ some yes ∧
      hasAdmin s.things then .redirect "http://dowse.it/captive_portal".toList
  else .template "welcome.html".toList 200

def pySpace (c : Char) : Bool :=
  c ∈ [' ', '\t', '\n', '\r', '\x0b', '\x0c', '\x1c', '\x1d', '\x1e', '\x1f']

/-- `int` of a string: digits, which single underscores may separate, behind a sign and between
white space. -/
def pyInt (text : Text) : Option ℤ :=
  let stripped := (text.dropWhile pySpace).rdropWhile pySpace
  let digits := match stripped with
    | '-' :: rest => rest
    | '+' :: rest => rest
    | rest => rest
  if (digits.splitOn '_').all fun group => group ≠ [] ∧ group.all Char.isDigit then
    let value : ℤ := Nat.ofDigitChars 10 (digits.filter (· ≠ '_')) 0
    some (if stripped.head? = some '-' then - value else value)
  else none

/-- Whether `parsetime` raises for the time that a thing was last seen at. -/
def parsetimeRaises (now : ℕ) (last : Text) : Bool :=
  match pyInt last with
  | none => true
  | some seen =>
      -- a time in the future is one of few seconds ago
      if seen ≤ now then !(ElapsedTime.parsetime (now - seen).toNat).isOk else false

/-- A complete thing without the time of its last sight makes the sort fail, and a time that
cannot be printed makes the list fail. -/
def things (s : State) (req : Request) : Response :=
  let listed := s.things.keys.filter fun mac =>
    (hget s.things mac .macaddr).any (· ≠ [])
  if listed.any fun mac => (hget s.things mac .last).isNone then .serverError
  else if listed.any fun mac => (hget s.things mac .last).any (parsetimeRaises req.now) then
    .serverError
  else if (callerInfo s req .isadmin).isNone then .serverError
  else .template "things.html".toList 200

def thingShow (s : State) (req : Request) : Response :=
  if (arg req "mac").getD [] = [] then .text "Invalid MAC address\n".toList
  else if (callerInfo s req .isadmin).isNone then .serverError
  else .template "thing_show.html".toList 200

/-- The last line of the routes that go back to the page of the form. -/
def redirectBack (req : Request) : Response :=
  match formField req "url_from" with
  | some url => .redirect url
  | none => .badRequest

def updateThing (s : State) (req : Request) (mac name : Text) : Response × State :=
  if mac = [] ∨ name = [] then (badRequestText, s)
  else if (s.leases name).any fun ip => ip ≠ [] ∧ ip2mac req.arp ip ≠ mac then
    (.text "<h1>This name already exists and is not yours. Choose another one.</h1>\n".toList, s)
  else
    let things := hset s.things mac .name name
    (redirectBack req, { s with
      things := things
      leases := Function.update s.leases name (some (pyStr (hget things mac .ip4))) })

/-- Deletes without asking who the caller is. -/
def deleteThing (s : State) (req : Request) (mac : Text) : Response × State :=
  if mac = [] then (badRequestText, s)
  else
    let name := pyStr (hget s.things mac .name)
    (redirectBack req, { s with
      things := s.things.erase mac
      leases := Function.update s.leases name none })

def modifyThings (s : State) (req : Request) : Response × State :=
  match formField req "macaddr", formField req "name" with
  | some mac, some name =>
      match (formField req "action").getD [] with
      | [] => (badRequestText, s)
      | act =>
          if act = "update".toList then updateThing s req mac (underscored name)
          else if act = "delete".toList then deleteThing s req mac
          else (badRequestText, s)
  | _, _ => (.badRequest, s)

/-- The check that the privileged routes start with. -/
def asAdmin (s : State) (req : Request) (k : Response × State) : Response × State :=
  match callerInfo s req .isadmin with
  | none => (.serverError, s)
  | some isadmin => if isadmin = yes then k else (unauthorized, s)

def modifyPrivThings (s : State) (req : Request) : Response × State :=
  asAdmin s req <|
    match formField req "macaddr", formField req "column" with
    | some mac, some column =>
        if column ≠ "admin".toList then (badRequestText', s)
        else
          match formField req "value" with
          | none => (.badRequest, s)
          | some [] => (badRequestText', s)
          | some state => (redirectBack req, { s with things := hset s.things mac .isadmin state })
    | _, _ => (.badRequest, s)

def testAdmin (s : State) (req : Request) : Response × State :=
  if hasAdmin s.things then (.text "An admin device already exists. Sorry.\n".toList, s)
  else
    match formField req "curmac", formField req "name" with
    | some mac, some name =>
        let name := underscored name
        if mac = [] ∨ name = [] then (badRequestText', s)
        else
          (.redirect ['/'], { s with
            things := hmset s.things mac [(.isadmin, yes), (.name, name)]
            leases := Function.update s.leases name (some req.remoteAddr) })
    | _, _ => (.badRequest, s)

def resetAdmin (s : State) (req : Request) : Response × State :=
  asAdmin s req (.redirect ['/'], { s with
    things := s.things.keys.foldl (fun t mac => hset t mac .isadmin no) s.things })

/-- The line that `cmd` and the handler of unknown pages publish. -/
def commandLine (ip oper : Text) (now : ℕ) (mac ipb : Text) : Text :=
  "CMD,".toList ++ ip ++ [','] ++ oper ++ [','] ++ Nat.toDigits 10 now ++ [','] ++ mac ++ [','] ++
    ipb

def publishCommand (s : State) (req : Request) (oper : Text) (mac ipb : Text) : Response × State :=
  match callerInfo s req .ip4 with
  | none => (.serverError, s)
  | some ip =>
      (.redirect "/things".toList,
        { s with published := s.published ++ [commandLine ip oper req.now mac ipb] })

def cmd (s : State) (req : Request) : Response × State :=
  asAdmin s req <|
    match arg req "op" with
    | none => (.text "Invalid request.\n".toList, s)
    | some oper =>
        if oper = "THING_OFF".toList ∨ oper = "THING_ON".toList then
          let mac := arg req "macaddr"
          let ipb := hget s.things (pyStr mac) .ip4
          if mac.getD [] = [] then (.text "Missing MAC address in request.\n".toList, s)
          else if (arg req "ip4").getD [] = [] then
            (.text "Missing IP address in request.\n".toList, s)
          else publishCommand s req oper (pyStr mac) (pyStr ipb)
        else if oper = "ALL_THINGS_OFF".toList ∨ oper = "ALL_THINGS_ON".toList then
          match callerInfo s req .macaddr with
          | none => (.serverError, s)
          | some mac => publishCommand s req oper mac []
        else if oper = "PARTY_MODE_OFF".toList then
          (.redirect "/things".toList, { s with partyMode := some "off".toList })
        else if oper = "PARTY_MODE_ON".toList then
          (.redirect "/things".toList, { s with partyMode := some "on".toList })
        else (.text "Invalid request.\n".toList, s)

/-- The handler of unknown pages. A caller that is not enabled gets its thing reset to the
defaults of a new one. -/
def pageNotFound (s : State) (req : Request) : Response × State :=
  let mac := req.callerMac
  if callerInfo s req .enableToBrowse = some yes then (.template "404.html".toList 404, s)
  else
    (.redirect "http://dowse.it/captive_portal".toList, { s with
      things := resetUnlessEnabled id s.things mac req.remoteAddr req.now
      published := s.published ++
        [commandLine req.remoteAddr "THING_OFF".toList req.now mac req.remoteAddr] })

/-- The methods that a route is declared with. -/
def Route.allows (r : Route) (m : Method) : Bool :=
  match r with
  | .modifyThings | .modifyPrivThings | .testAdmin | .resetAdmin => m = .post
  | .cmd | .unknown => true
  | _ => m = .get

def serve (s : State) (req : Request) : Response × State :=
  if req.route.allows req.method then
    match req.route with
    | .main => (main s req, s)
    | .things => (things s req, s)
    | .thingShow => (thingShow s req, s)
    | .modifyThings => modifyThings s req
    | .modifyPrivThings => modifyPrivThings s req
    | .testAdmin => testAdmin s req
    | .resetAdmin => resetAdmin s req
    | .captivePortal => (.template "captive_portal.html".toList 200, s)
    | .cmd => cmd s req
    | .help => (.template "help.html".toList 200, s)
    | .websocket => (.template "websocket.html".toList 200, s)
    | .nmap => (.template "nmap.html".toList 200, s)
    | .unknown => pageNotFound s req
  else (.methodNotAllowed, s)

def step (s : State) (req : Request) : State := (serve s req).2

end Dowse.WebUi
