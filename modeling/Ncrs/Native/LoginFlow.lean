import Ncrs.ForStd.PercentEncoding
import Ncrs.ForStd.Substring
import Ncrs.ForStd.WebUrl
import Ncrs.Native.IpcLines
import Ncrs.Native.RemoteWipe

/-!
# Server addresses

Model of the address functions of `login_flow.rs`. An address is text and is cut as text; only where
the code asks the `url` crate is it taken apart. That crate and `percent-encoding` are parameters
(`WebUrl.Parser`, `PercentEncoding.Coder`). Of an error the data it is made of is kept, not the
sentence.
-/

namespace Ncrs

open PercentEncoding (Coder)

/-- `str::trim`. -/
def trim (t : Line) : Line := t.strip isWhitespace

/-- What `base_server` looks for, in this order. -/
def serverSuffixes : List Line :=
  ["/remote.php".toList, "/index.php".toList, "/webdav".toList, "/dav/".toList]

/-- `base_server`. -/
def baseServer (serverUrl : Line) : Line :=
  let s := serverUrl.rdropWhile (· = '/')
  (serverSuffixes.findSome? fun suffix => List.before? suffix s).getD s

/-- `NON_ALPHANUMERIC`, the characters that are not ASCII apart. -/
def nonAlphanumeric (c : Char) : Bool := !c.isAlphanum

/-- `webdav_url`. -/
def webdavUrl (k : Coder) (server loginName : Line) : Line :=
  baseServer server ++ "/remote.php/dav/files/".toList ++ k.encode nonAlphanumeric loginName ++ ['/']

/-- `normalize_webdav_url`. -/
def normalizeWebdavUrl (k : Coder) (url username : Line) : Line :=
  let url := trim url
  if url = [] || trim username = [] then url else webdavUrl k url username

/-! ## Loopback hosts -/

/-- `Parser::read_number` of `std::net`. -/
def readNumber (digit : Char → Option Nat) (radix maxDigits : Nat) (zeroPrefix : Bool) (t : Line) :
    Option (Nat × Line) :=
  let digits := t.takeWhile fun c => (digit c).isSome
  if digits = [] || maxDigits < digits.length then none
  else if !zeroPrefix && digits.head? = some '0' && 1 < digits.length then none
  else some ((digits.filterMap digit).foldl (fun n d => n * radix + d) 0, t.drop digits.length)

def decDigit (c : Char) : Option Nat := if c.isDigit then some (c.toNat - '0'.toNat) else none

def hexDigit (c : Char) : Option Nat :=
  if c.isDigit then some (c.toNat - '0'.toNat)
  else if 'a' ≤ c.toLower && c.toLower ≤ 'f' then some (c.toLower.toNat - 'a'.toNat + 10) else none

/-- `read_separator`: nothing to read in front of the first item. -/
def readSeparator {α : Type} (sep : Char) (first : Bool) (read : Line → Option (α × Line)) (t : Line) :
    Option (α × Line) :=
  if first then read t
  else
    match t with
    | c :: t => if c = sep then read t else none
    | [] => none

/-- `read_ipv4_addr`, over the octets left to read. -/
def readIpv4 : Nat → Bool → Line → Option (List Nat × Line)
  | 0, _, t => some ([], t)
  | n + 1, first, t =>
    match readSeparator '.' first (readNumber decDigit 10 3 false) t with
    | some (octet, t) =>
      if octet < 256 then (readIpv4 n false t).map fun r => (octet :: r.1, r.2) else none
    | none => none

/-- `read_groups`, over the groups left to read: the groups, and whether an IPv4 address ends them. -/
def readGroups : Nat → Bool → Line → List Nat × Bool × Line
  | 0, _, t => ([], false, t)
  | n + 1, first, t =>
    match if 0 < n then readSeparator ':' first (readIpv4 4 true) t else none with
    | some (octets, t) => ([octets.getD 0 0 * 256 + octets.getD 1 0, octets.getD 2 0 * 256 + octets.getD 3 0], true, t)
    | none =>
      match readSeparator ':' first (readNumber hexDigit 16 4 true) t with
      | some (group, t) =>
        let r := readGroups n false t
        (group :: r.1, r.2)
      | none => ([], false, t)

/-- `read_ipv6_addr`. -/
def readIpv6 (t : Line) : Option (List Nat × Line) :=
  let (head, ipv4, t) := readGroups 8 true t
  if head.length = 8 then some (head, t)
  else if ipv4 then none
  else
    match t with
    | ':' :: ':' :: t =>
      let (tail, _, t) := readGroups (8 - (head.length + 1)) true t
      some (head ++ List.replicate (8 - head.length - tail.length) 0 ++ tail, t)
    | _ => none

/-- `parse::<IpAddr>()` with `is_loopback`. -/
def isLoopbackIp (t : Line) : Bool :=
  match readIpv4 4 true t with
  | some (octets, rest) => rest = [] && octets.head? = some 127
  | none =>
    match readIpv6 t with
    | some (groups, rest) => rest = [] && groups = [0, 0, 0, 0, 0, 0, 0, 1]
    | none => false

/-- `eq_ignore_ascii_case`. -/
def eqIgnoreAsciiCase (s t : Line) : Bool := s.map Char.toLower = t.map Char.toLower

/-- `is_loopback_host`. -/
def isLoopbackHost (host : Line) : Bool :=
  if eqIgnoreAsciiCase host "localhost".toList then true
  else isLoopbackIp ((host.dropWhile (· = '[')).rdropWhile (· = ']'))

/-! ## The checks -/

inductive ServerError where
  | notAUrl (serverUrl : Line)
  | plaintext (serverUrl : Line)
  | unsupportedScheme (scheme serverUrl : Line)
  | requestedNotAUrl
  | unparseable (returned : Line)
  | downgrade (returned scheme requested : Line)
  | otherHost (returned requested : Line)
  deriving DecidableEq, Repr

/-- `validate_server_scheme`. -/
def validateServerScheme (p : WebUrl.Parser) (serverUrl : Line) (allowInsecureHttp : Bool) :
    Except ServerError Unit :=
  match p.parse (baseServer serverUrl) with
  | none => .error (.notAUrl serverUrl)
  | some url =>
    if url.scheme = "https".toList then .ok ()
    else if url.scheme = "http".toList then
      if isLoopbackHost (url.host.getD []) || allowInsecureHttp then .ok ()
      else .error (.plaintext serverUrl)
    else .error (.unsupportedScheme url.scheme serverUrl)

/-- `validate_login_server`. -/
def validateLoginServer (p : WebUrl.Parser) (returnedServer requestedServer : Line) :
    Except ServerError Unit := do
  validateServerScheme p returnedServer false
  match p.parse (baseServer requestedServer) with
  | none => throw .requestedNotAUrl
  | some requested =>
    match p.parse (baseServer returnedServer) with
    | none => throw (.unparseable returnedServer)
    | some returned =>
      if requested.scheme = "https".toList && returned.scheme ≠ "https".toList then
        throw (.downgrade returnedServer returned.scheme requestedServer)
      let requestedHost := requested.host.getD []
      let returnedHost := returned.host.getD []
      if requestedHost = [] || !eqIgnoreAsciiCase returnedHost requestedHost then
        throw (.otherHost returnedHost requestedHost)

end Ncrs
