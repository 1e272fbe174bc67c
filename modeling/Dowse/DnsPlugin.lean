import Dowse.CStrings
import Dowse.Hashmap

/-!
# The dnscrypt plugin of Dowse

One call of the filter is a program over the plugin data and the redis commands it has
sent so far. What the plugin does not compute itself comes from an environment that may
differ from packet to packet: the replies of the two redis servers, the ARP table, the
results of ldns, the clock, and what the stack holds in buffers that are read before they
are written.

The arrays `domain`, `tld` and `from` stand next to each other in the plugin data, and
`extract_domain` has no bound for the first. A long name therefore runs over into the
other two. They are one region of memory here, so that this is what the model does.
-/
namespace Dowse.DnsPlugin
open CStrings Hashmap

/-- The volatile and the permanent redis, and the connection kept for a cache. -/
inductive Conn
  | dynamic
  | storage
  | runtime
  deriving DecidableEq, Repr

inductive ReplyType
  | string
  | array
  | integer
  | nil
  | status
  | error
  deriving DecidableEq, Repr

structure Reply where
  type : ReplyType
  integer : ℤ
  len : ℕ
  str : Option Text
  deriving DecidableEq, Repr

/-- A command and what `cmd_redis` returned for it. -/
structure Exchange where
  conn : Conn
  command : Text
  reply : Option Reply
  deriving DecidableEq, Repr

/-- An IPv4 address in network order. -/
structure InAddr where
  a : UInt8
  b : UInt8
  c : UInt8
  d : UInt8
  deriving DecidableEq, Repr

def byteText (b : UInt8) : Text := Nat.toDigits 10 b.toNat

/-- The conversion never fails, but the filter has a branch for a null result. -/
def inetNtoa (addr : InAddr) : Option Text :=
  some (byteText addr.a ++ '.' :: (byteText addr.b ++ '.' :: (byteText addr.c ++ '.' ::
    byteText addr.d)))

def localhost : InAddr := ⟨127, 0, 0, 1⟩

structure Hwaddr where
  octets : List UInt8
  length_octets : octets.length = 6
  deriving DecidableEq, Repr

def ethernetMactoa (addr : Hwaddr) : Text := [':'].intercalate (addr.octets.map hexByte)

abbrev Wire := List UInt8

/-- A question record: the text of its owner when ldns can print it, its type and class. -/
structure Question where
  owner : Option Text
  qtype : ℕ
  qclass : ℕ
  deriving DecidableEq, Repr

/-- A parsed packet, with its first question if it has one. -/
structure LdnsPkt where
  id : UInt16
  question : Option Question
  deriving DecidableEq, Repr

structure Packet where
  wire : Wire
  client : InAddr
  deriving DecidableEq, Repr

/-- A resource record, which the plugin only hands on. -/
abbrev Rr := List UInt8

/-- The fields of an answer packet that the plugin sets. -/
structure AnswerPkt where
  id : UInt16
  qr : Bool
  aa : Bool
  ad : Bool
  question : List Question
  answer : List Rr
  deriving DecidableEq, Repr

/-- What the plugin meets while it filters one packet. No command is sent twice for a packet,
so the reply of a server is a function of the command. `dname` says whether ldns reads a text
as a name, and `reversed` prints the reversed name without its first two labels. -/
structure Env where
  redis : Conn → Text → Option Reply
  arp : Text → InAddr → Option Hwaddr
  wire2pkt : Wire → Option LdnsPkt
  dname : Text → Option Bool
  reversed : Text → Option Text
  rrNewFrmStr : Text → Option Rr
  pkt2wire : AnswerPkt → Option Wire
  time : ℕ
  questionBuffer : Text
  belowQuestion : ℕ → Char
  outnewBuffer : Text

def maxQuery : ℕ := 512
def maxDomain : ℕ := 256
def maxTld : ℕ := 32
def maxDns : ℕ := 512
def maxOutput : ℕ := 512
def niMaxhost : ℕ := 1025
def dnsHitExpire : ℕ := 21600

/-- The adjacent arrays `domain`, `tld` and `from`. -/
abbrev Names := ℕ → Char

def tldOffset : ℕ := maxDomain
def fromOffset : ℕ := maxDomain + maxTld
def namesEnd : ℕ := maxDomain + maxTld + niMaxhost

/-- The string that starts at a position of the region. -/
def Names.stringAt (m : Names) (i : ℕ) : Text := cstr ((List.range' i (namesEnd - i)).map m)

def Names.poke (m : Names) (i : ℕ) (c : Char) : Names := fun j => if j = i then c else m j

/-- `strncpy` of `n` bytes: the text, or what fits of it, and zeros up to `n`. -/
def Names.strncpy (m : Names) (i n : ℕ) (s : Text) : Names :=
  fun j => if i ≤ j ∧ j < i + n then s.getD (j - i) '\x00' else m j

/-- A string and its terminator. -/
def Names.write (m : Names) (i : ℕ) (s : Text) : Names := m.strncpy i (s.length + 1) s

structure PluginData where
  query : Text
  queryLen : ℕ
  names : Names
  mac : Text
  ip4 : Text
  ip4Addr : InAddr
  ownip4 : Text
  interface : Text
  listpath : Option Text
  domainlist : Map Text
  cache : Option Conn
  reverse : Bool
  offline : Bool

structure Call where
  data : PluginData
  sent : List Exchange

def okredis : Option Reply → Bool
  | none => false
  | some res => res.type ≠ .error

def cmdRedis (env : Env) (conn : Conn) (command : Text) : StateM Call (Option Reply) := do
  let call ← get
  let command := snprintf 511 command
  let res := env.redis conn command
  let reply := if okredis res then res else none
  set (Call.mk call.data (call.sent ++ [⟨conn, command, reply⟩]))
  return reply

def modifyData (f : PluginData → PluginData) : StateM Call Unit :=
  modify fun call => { call with data := f call.data }

/-- The next token between dots, and the buffer with the terminator behind it. -/
def strtok (address : Text) (i : ℕ) : Option (Text × Text) :=
  let s := cstr (address.drop i)
  let leading := (s.takeWhile (· = '.')).length
  let token := (s.drop leading).takeWhile (· ≠ '.')
  if token = [] then none
  else some (token, address.set (i + leading + token.length) '\x00')

/-- The variables of the loop in `extract_domain`. -/
structure Extraction where
  address : Text
  dots : ℕ
  first : Bool
  positions : ℕ
  names : Names

/-- The rounds for the positions below the argument, from the right. The result is the
position after the one at which the loop stops, and `none` when it takes the length of a
null token. -/
def extractLoop (x : Extraction) : ℕ → Option (ℕ × Names)
  | 0 => some (0, x.names)
  | c + 1 =>
      let last := x.address.getD c '\x00'
      let dots := if last = '.' then x.dots + 1 else x.dots
      let names := if last = '.' ∧ x.first then
        x.names.strncpy tldOffset maxTld (cstr (x.address.drop c)) else x.names
      let first := x.first && last ≠ '.'
      if dots ≥ x.positions then
        match strtok x.address (c + 1) with
        | none => none
        | some (test, address) =>
            if test.length > 3 then some (c + 1, names)
            else extractLoop ⟨address, dots, first, x.positions + 1, names.poke c last⟩ c
      else extractLoop ⟨x.address, dots, first, x.positions, names.poke c last⟩ c

inductive Extracted
  | crash
  | null
  | found (position : ℕ) (names : Names)

def extractDomain (data : PluginData) : Extracted :=
  let address := data.query
  let len := address.length
  if len < 3 then .null
  else
    match extractLoop ⟨address, 0, true, 2, data.names.poke (len + 1) '\x00'⟩ (len + 1) with
    | some (position, names) => .found position names
    | none => .crash

/-- How `%d` prints an `int`. -/
def intText (n : ℤ) : Text :=
  if n < 0 then '-' :: Nat.toDigits 10 n.natAbs else Nat.toDigits 10 n.natAbs

def eventText (who : Text) (val : ℤ) (epoch : ℕ) (extracted tld : Text) : Text :=
  snprintf maxOutput ("DNS,".toList ++ who ++ [','] ++ intText val ++ [','] ++
    Nat.toDigits 10 epoch ++ [','] ++ extracted ++ [','] ++ tld)

/-- The group that the domain list has for the domain, behind a comma. It is `none` when
the key is a null pointer or the text does not fit into `outnew`. -/
def addGroup (data : PluginData) (extracted : Option Text) (outnew : Text) : Option Text :=
  if data.listpath.isSome then
    match extracted with
    | none => none
    | some key =>
        match hashmapGet data.domainlist key with
        | (.ok, some sval) =>
            let grouped := outnew ++ [','] ++ (cstr sval).take (maxOutput - 128)
            if grouped.length < maxOutput then some grouped else none
        | _ => some outnew
  else some outnew

/-- The result is `false` when the call does not return: it reads through a null pointer or
writes behind a buffer on the stack. -/
def publishQuery (env : Env) : StateM Call Bool := do
  let call ← get
  let mut extracted : Option Text := none
  match extractDomain call.data with
  | .crash => return false
  | .null => pure ()
  | .found position names =>
      modifyData fun data => { data with names }
      extracted := some (names.stringAt position)
  let reply ← cmdRedis env .dynamic ("INCR dns-query-".toList ++ printed extracted)
  let val := match reply with
    | some reply => reply.integer.bmod (2 ^ 32)
    | none => 1
  let _ ← cmdRedis env .dynamic ("EXPIRE dns-query-".toList ++ printed extracted ++ [' '] ++
    Nat.toDigits 10 dnsHitExpire)
  let data := (← get).data
  let reply ← cmdRedis env .storage ("HGET thing_".toList ++ data.mac ++ " name".toList)
  let tld := data.names.stringAt tldOffset
  let outnew := match reply with
    | some reply =>
        match reply.str with
        | some name => eventText (cstr name) val env.time (printed extracted) tld
        | none => eventText (data.names.stringAt fromOffset) val env.time (printed extracted) tld
    | none => env.outnewBuffer
  match addGroup data extracted outnew with
  | none => return false
  | some outnew =>
      let _ ← cmdRedis env .dynamic ("PUBLISH dns-query-channel ".toList ++ outnew)
      return true

/-- The client's hardware address goes into the plugin data. The result is that of the
source, 0 for success. -/
def ip4DeriveMac (env : Env) : StateM Call ℕ := do
  let data := (← get).data
  match env.arp (data.interface.take 15) data.ip4Addr with
  | none => return 1
  | some addr =>
      modifyData fun data => { data with mac := ethernetMactoa addr }
      return 0

/-- A local answer, with the record it was rendered from. -/
inductive Answer
  | reverse (record : Text)
  | portal (record : Text)
  | lease (record : Text)
  | cached
  deriving DecidableEq, Repr

/-- What a call comes to. `direct` is the answer that is sent to the client at once, `ok`
forwards the query, and `crash` is a call that does not return. -/
inductive Result
  | ok
  | kill
  | direct (answer : Answer) (wire : Wire)
  | crash
  deriving DecidableEq, Repr

/-- The packet that answers a question with a record, in wire format, or a null pointer if it
cannot be rendered. The call does not return for a record that ldns cannot parse, because the
pointer to it was never set. -/
def answerToQuestion (env : Env) (pktid : UInt16) (question : Question) (answer : Text) :
    Option (Option Wire) :=
  match env.rrNewFrmStr answer with
  | none => none
  | some rr => some (env.pkt2wire ⟨pktid, true, true, false, [question], [rr]⟩)

/-- What the filter makes of a record: it is rendered and sent, or the packet is dropped. -/
def respond (env : Env) (id : UInt16) (question : Question) (answer : Answer) (record : Text) :
    Result :=
  match answerToQuestion env id question record with
  | none => .crash
  | some none => .kill
  | some (some wire) => .direct answer wire

/-- A byte of the question; the test for a reverse query may look below its first one. -/
def questionAt (env : Env) (question : Text) (back : ℕ) : Char :=
  if back ≤ question.length then question.getD (question.length - back) '\x00'
  else env.belowQuestion (back - question.length)

def isReverse (env : Env) (question : Text) : Bool :=
  questionAt env question 1 = '.' && questionAt env question 5 = 'a' &&
    questionAt env question 4 = 'r' && questionAt env question 3 = 'p' &&
    questionAt env question 2 = 'a'

def ptrRecord (question : Text) (name : Option Text) : Text :=
  snprintf 1024 (question ++ " 0 IN PTR ".toList ++ printed name)

def aRecord (query address : Text) : Text := snprintf 1024 (query ++ " 0 IN A ".toList ++ address)

def beginsYes (reply : Option Reply) : Bool :=
  match reply with
  | some reply =>
      match reply.str with
      | some s => (cstr s).take 3 = "yes".toList
      | none => false
  | none => false

/-- The part of the filter for names under `arpa.`; `none` goes on with the query. -/
def reverseResolution (env : Env) (id : UInt16) (question : Question) (text : Text) :
    StateM Call (Option Result) := do
  modifyData fun data => { data with reverse := false }
  if !isReverse env text then
    return none
  modifyData fun data => { data with reverse := true }
  match env.dname text with
  | none => return some .crash
  | some false => return some .kill
  | some true =>
      let reverse := (snprintf maxQuery (printed (env.reversed text))).dropLast
      let reply ← cmdRedis env .storage ("GET dns-reverse-".toList ++ reverse)
      match reply with
      | some reply =>
          if reply.len ≠ 0 then
            let record := ptrRecord text reply.str
            return some (respond env id question (.reverse record) record)
          else return none
      | none => return none

/-- The checks for a client other than the host itself; `none` lets the query pass. -/
def captivePortal (env : Env) (id : UInt16) (question : Question) (ip4 : Text) :
    StateM Call (Option Result) := do
  if ip4 = "127.0.0.1".toList then
    return none
  let status ← ip4DeriveMac env
  let data := (← get).data
  let record := aRecord data.query data.ownip4
  if status ≠ 0 then
    return some (respond env id question (.portal record) record)
  let party ← cmdRedis env .storage "GET party_mode".toList
  if beginsYes party then
    return none
  let browse ← cmdRedis env .storage
    ("HGET thing_".toList ++ data.mac ++ " enable_to_browse".toList)
  if beginsYes browse then
    return none
  return some (respond env id question (.portal record) record)

/-- A name that has a lease is answered from the volatile redis. -/
def localLease (env : Env) (id : UInt16) (question : Question) : StateM Call (Option Result) := do
  let data := (← get).data
  let reply ← cmdRedis env .dynamic ("GET dns-lease-".toList ++ data.query)
  match reply with
  | some reply =>
      if reply.len ≠ 0 then
        let record := aRecord data.query (printed reply.str)
        return some (respond env id question (.lease record) record)
      else return none
  | none => return none

/-- The cached packet gets the identifier of the query. The pointer to it is not checked. -/
def cachedPacket (wire : Wire) (reply : Reply) : Result :=
  match reply.str with
  | none => .crash
  | some str =>
      let stored := str.map fun c => UInt8.ofNat c.toNat
      .direct .cached ((wire.take 2 ++ stored.drop 2).take reply.len)

def cachedAnswer (env : Env) (wire : Wire) : StateM Call (Option Result) := do
  let data := (← get).data
  match data.cache with
  | none => return none
  | some conn =>
      let reply ← cmdRedis env conn ("GET dns-cache-".toList ++ data.query)
      match reply with
      | some reply =>
          if reply.len ≠ 0 then return some (cachedPacket wire reply)
          else return none
      | none => return none

/-- What the offline mode answers: the local host, by its name or by its address. -/
def offlineRecord (reverse : Bool) (text query : Text) : Text :=
  if reverse then ptrRecord text (some "localhost".toList)
  else aRecord query "127.0.0.1".toList

/-- The test for a rendered answer has no braces in the offline mode, so the packet is dropped
whether or not there is one. -/
def offlineAnswer (env : Env) (id : UInt16) (question : Question) (record : Text) : Result :=
  match answerToQuestion env id question record with
  | none => .crash
  | some _ => .kill

/-- What happens to a query that has passed the portal. -/
def directEndpoint (env : Env) (id : UInt16) (question : Question) (text : Text) (wire : Wire) :
    StateM Call Result := do
  if let some result ← localLease env id question then
    return result
  if let some result ← cachedAnswer env wire then
    return result
  let data := (← get).data
  if data.offline then
    return offlineAnswer env id question (offlineRecord data.reverse text data.query)
  return .ok

/-- The query without its terminating dot, and the address of the client. -/
def saveQuery (text : Text) (client : InAddr) (data : PluginData) : PluginData :=
  { data with
    query := (text.take maxQuery).dropLast
    queryLen := (text.take maxQuery).length
    ip4Addr := client }

def saveFrom (ip4 : Text) (data : PluginData) : PluginData :=
  { data with ip4, names := data.names.write fromOffset ip4 }

def dcpluginSyncPreFilter (env : Env) (packet : Packet) : StateM Call Result := do
  if packet.wire.length > maxDns then
    return .kill
  let some pkt := env.wire2pkt packet.wire | return .kill
  let some question := pkt.question | return .crash
  let text := match question.owner with
    | some tmp => snprintf maxQuery (cstr tmp)
    | none => cstr env.questionBuffer
  if text.length = 0 then
    return .kill
  if let some result ← reverseResolution env pkt.id question text then
    return result
  modifyData (saveQuery text packet.client)
  let some ip4 := inetNtoa packet.client | return .kill
  modifyData (saveFrom ip4)
  if !(← publishQuery env) then
    return .crash
  if let some result ← captivePortal env pkt.id question ip4 then
    return result
  directEndpoint env pkt.id question text packet.wire

/-- The data of a plugin that starts. The list of domains is read from the directory that
the environment names, and the arguments say whether the socket and the two connections
could be opened. No connection is made for a cache. -/
def dcpluginInit (argv : List Text) (getenv : String → Option Text)
    (loadDomainlist : Text → Map Text) (sock redis redisStor : Bool) : Option PluginData := do
  let listpath := getenv "DOWSE_DOMAINLIST"
  let interface ← getenv "interface"
  guard (sock && redis && redisStor)
  return {
    query := []
    queryLen := 0
    names := fun _ => '\x00'
    mac := []
    ip4 := []
    ip4Addr := ⟨0, 0, 0, 0⟩
    ownip4 := ((getenv "DOWSE_LAN_ADDRESS_IP4").getD []).take niMaxhost
    interface
    listpath
    domainlist := (listpath.map loadDomainlist).getD hashmapNew
    cache := none
    reverse := false
    offline := argv.any fun arg => arg.take 7 = "offline".toList }

end Dowse.DnsPlugin
