import MiniJvm.Number.Literal

/-!
# Network addresses

An address is a host and a service with a colon between them; a host that holds colons stands in
brackets. A service is given by its number or by a name, and so is a host. No network is at hand,
so an address that can be read is one that cannot be had.

A host can be given by numbers. They are eight groups of hexadecimal digits with colons between
them, where two colons in a row stand for as many groups of zeros as are missing, or four octets
with dots between them. Octets may also take the place of the last two groups. The network in which
the numbers hold may follow groups behind a percent sign.
-/

namespace MiniJvm.Command

/-- A host that is given by numbers: eight groups of sixteen bits, and its network. -/
structure HostNumber where
  groups : List Nat
  network : Bytes := []
  deriving DecidableEq, Repr

namespace HostNumber

def size : Nat := 8

def beforeOctets : List Nat := [0, 0, 0, 0, 0, 65535]

def octet? (s : Bytes) : Option Nat :=
  if 1 < s.length && s.head? == some 48 then none else (Literal.unsigned false 255 s).toOption

def octets? (s : Bytes) : Option (List Nat) := do
  match ← (Bytes.splitOn 46 s).mapM octet? with
  | [a, b, c, d] => return [a * 256 + b, c * 256 + d]
  | _ => none

def group? (s : Bytes) : Option Nat :=
  if s.isEmpty || 4 < s.length then none else (Literal.digits 16 65535 false 0 s).toOption

/-- Groups with colons between them, if any. Octets may stand last when `atEnd`. -/
def groups? (atEnd : Bool) (s : Bytes) : Option (List Nat) := do
  if s.isEmpty then return []
  let parts := Bytes.splitOn 58 s
  let last := parts.getLast?.getD []
  if atEnd && last.contains 46 then return (← parts.dropLast.mapM group?) ++ (← octets? last)
  else parts.mapM group?

/-- The text before and behind the first two colons in a row. -/
def cutGap? : Bytes → Option (Bytes × Bytes)
  | 58 :: 58 :: rest => some ([], rest)
  | b :: rest => (cutGap? rest).map fun (before, behind) => (b :: before, behind)
  | [] => none

/-- Eight groups; two colons in a row stand for at least one that is missing. -/
def allGroups? (s : Bytes) : Option (List Nat) :=
  match cutGap? s with
  | none => (groups? true s).filter fun groups => groups.length = size
  | some (before, behind) => do
    let before ← groups? false before
    let behind ← groups? true behind
    let known := before.length + behind.length
    if known < size then return before ++ List.replicate (size - known) 0 ++ behind else none

def read? (s : Bytes) : Option HostNumber :=
  if s.contains 58 then
    match Bytes.cut? 37 s with
    | none => (allGroups? s).map fun groups => { groups }
    | some (s, network) =>
      if network.isEmpty then none else (allGroups? s).map fun groups => { groups, network }
  else (octets? s).map fun groups => { groups := beforeOctets ++ groups }

def groupsText (groups : List Nat) : Bytes :=
  Bytes.join ":" (groups.map fun n => (Nat.toDigits 16 n).map fun c => c.toNat.toUInt8)

/-- The first longest run of zeros: where it starts, and how long it is. -/
def longestZeros (groups : List Nat) : Nat × Nat :=
  let runs := (List.range groups.length).map fun i =>
    (i, ((groups.drop i).takeWhile (· == 0)).length)
  runs.foldl (fun best run => if best.2 < run.2 then run else best) (0, 0)

/-- The shortest text of the numbers: octets where the groups before them allow it, else groups
with the longest zeros left out. A single group of zeros is kept. -/
def numbersText (groups : List Nat) : Bytes :=
  match groups.drop beforeOctets.length with
  | [a, b] =>
    if groups.take beforeOctets.length = beforeOctets then
      Bytes.join "." ([a / 256, a % 256, b / 256, b % 256].map Bytes.ofNat)
    else
      let (start, count) := longestZeros groups
      if count < 2 then groupsText groups
      else groupsText (groups.take start) ++ "::" ++ groupsText (groups.drop (start + count))
  | _ => groupsText groups

def text (h : HostNumber) : Bytes :=
  numbersText h.groups ++ if h.network.isEmpty then [] else 37 :: h.network

def isEvery (h : HostNumber) : Bool := h.groups.all (· == 0)

end HostNumber

/-! ## Network addresses -/

inductive AddressError where
  | missingService
  | tooManyColons
  | missingBracket
  | strayOpening
  | strayClosing
  | invalidService (service : Bytes)
  | unknownService (name : Bytes)
  /-- The host is no number, and no name either. -/
  | unknownHost (host : Bytes)
  /-- The service is kept for the owner of the machine. -/
  | reserved (host : Bytes) (service : Nat)
  /-- The address itself cannot be had. -/
  | unavailable (host : Bytes) (service : Nat)
  deriving DecidableEq, Repr

def addressText (host : Bytes) (service : Nat) : Bytes :=
  (if host.contains 58 then "[" ++ host ++ "]" else host) ++ ":" ++ Bytes.ofNat service

def AddressError.message (address : Bytes) (e : AddressError) : Bytes :=
  let about (a why : Bytes) : Bytes := "listen tcp: address " ++ a ++ ": " ++ why
  match e with
  | .missingService => about address "missing port in address"
  | .tooManyColons => about address "too many colons in address"
  | .missingBracket => about address "missing ']' in address"
  | .strayOpening => about address "unexpected '[' in address"
  | .strayClosing => about address "unexpected ']' in address"
  | .invalidService service => about service "invalid port"
  | .unknownService name => "listen tcp: lookup tcp/" ++ name ++ ": unknown port"
  | .unknownHost host => "listen tcp: lookup " ++ host ++ ": no such host"
  | .reserved host service =>
    "listen tcp " ++ addressText host service ++ ": bind: permission denied"
  | .unavailable host service =>
    "listen tcp " ++ addressText host service ++ ": bind: cannot assign requested address"

def checkBrackets (afterOpening afterClosing : Bytes) : Except AddressError Unit :=
  if afterOpening.contains 91 then .error .strayOpening
  else if afterClosing.contains 93 then .error .strayClosing
  else .ok ()

def splitAddress (address : Bytes) : Except AddressError (Bytes × Bytes) := do
  let service := (address.reverse.takeWhile (· != 58)).reverse
  if !address.contains 58 then throw .missingService
  match address with
  | 91 :: inner =>
    match Bytes.cut? 93 inner with
    | none => throw .missingBracket
    | some (host, 58 :: rest) =>
      if rest.contains 58 then throw .tooManyColons
      checkBrackets inner rest
      return (host, service)
    | some _ => throw .missingService
  | _ =>
    let host := address.take (address.length - service.length - 1)
    if host.contains 58 then throw .tooManyColons
    checkBrackets address address
    return (host, service)

/-- The value of digits in 32 bits, on top of `n`; what is large already is as large as can be. -/
def serviceDigits (n : UInt32) : Bytes → Option UInt32
  | [] => some n
  | b :: rest =>
    if b < 48 || 57 < b then none
    else if 1073741824 ≤ n then some 4294967295
    else
      let tens := n * 10
      let next := tens + (b - 48).toUInt32
      if next < tens then some 4294967295 else serviceDigits next rest

def services : List (Bytes × Nat) :=
  [("ftp", 21), ("ftps", 990), ("gopher", 70), ("http", 80), ("https", 443), ("imap2", 143),
    ("imap3", 220), ("imaps", 993), ("pop3", 110), ("pop3s", 995), ("smtp", 25),
    ("submissions", 465), ("ssh", 22), ("telnet", 23)]

def namedService? (name : Bytes) : Option Nat :=
  (services.find? fun s => s.1 == name.map Bytes.lower).map Prod.snd

def serviceNumber (service : Bytes) : Except AddressError Nat :=
  let (negative, digits) := Literal.splitSign service
  match serviceDigits 0 digits with
  | none =>
    match namedService? service with
    | none => .error (.unknownService service)
    | some n => .ok n
  | some n =>
    if 65535 < n || (negative && 0 < n) then .error (.invalidService service) else .ok n.toNat

def ownHost : Bytes × Bytes := ("localhost", "127.0.0.1")

def everyHost : Bytes := "0.0.0.0"

/-- The host that a text means, as it is shown; no text at all means every host. -/
def hostText (host : Bytes) : Except AddressError Bytes :=
  match HostNumber.read? host with
  | some h => .ok (if h.isEvery then everyHost else h.text)
  | none =>
    if host.isEmpty then .ok []
    else if host.map Bytes.lower = ownHost.1 then .ok ownHost.2
    else .error (.unknownHost host)

def readAddress (address : Bytes) : Except AddressError (Bytes × Nat) := do
  let (host, service) ← splitAddress address
  let n ← serviceNumber service
  return (← hostText host, n)

def firstFreeService : Nat := 1024

def listenError (address : Bytes) : AddressError :=
  match readAddress address with
  | .error e => e
  | .ok (host, service) =>
    if 0 < service && service < firstFreeService then .reserved host service
    else .unavailable host service

end MiniJvm.Command
