import ProxyCache.Python.Text

/-!
# `urllib.parse`

The functions of `urllib.parse` that the code uses, step by step as CPython 3.11
has them: `urlsplit`, `urlparse`, `urlunsplit`, `urlunparse`, `urljoin` and the
`hostname` and `port` of a split URL.
-/

namespace ProxyCache.Python

open ProxyCache.Lib

structure SplitResult where
  scheme : Str
  netloc : Str
  path : Str
  query : Str
  fragment : Str
  deriving DecidableEq, Repr

structure ParseResult where
  scheme : Str
  netloc : Str
  path : Str
  params : Str
  query : Str
  fragment : Str
  deriving DecidableEq, Repr

def usesRelative : List Str :=
  ["".toList, "ftp".toList, "http".toList, "gopher".toList, "nntp".toList, "imap".toList,
    "wais".toList, "file".toList, "https".toList, "shttp".toList, "mms".toList,
    "prospero".toList, "rtsp".toList, "rtsps".toList, "rtspu".toList, "sftp".toList,
    "svn".toList, "svn+ssh".toList, "ws".toList, "wss".toList]

def usesNetloc : List Str :=
  ["".toList, "ftp".toList, "http".toList, "gopher".toList, "nntp".toList, "telnet".toList,
    "imap".toList, "wais".toList, "file".toList, "mms".toList, "https".toList, "shttp".toList,
    "snews".toList, "prospero".toList, "rtsp".toList, "rtsps".toList, "rtspu".toList,
    "rsync".toList, "svn".toList, "svn+ssh".toList, "sftp".toList, "nfs".toList, "git".toList,
    "git+ssh".toList, "ws".toList, "wss".toList]

def usesParams : List Str :=
  ["".toList, "ftp".toList, "hdl".toList, "prospero".toList, "http".toList, "imap".toList,
    "https".toList, "shttp".toList, "rtsp".toList, "rtsps".toList, "rtspu".toList,
    "sip".toList, "sips".toList, "mms".toList, "sftp".toList, "tel".toList]

def isC0OrSpace (c : Char) : Bool := c.toNat ≤ 0x20

/-- The characters that `urlsplit` removes wherever they stand. -/
def isUnsafeUrlChar (c : Char) : Bool := c = '\t' || c = '\r' || c = '\n'

def isSchemeChar (c : Char) : Bool := c.isAlphanum || c = '+' || c = '-' || c = '.'

def isNetlocEnd (c : Char) : Bool := c = '/' || c = '?' || c = '#'

/-! ## Bracketed hosts -/

def isHexDigit (c : Char) : Bool :=
  c.isDigit || ('a' ≤ c && c ≤ 'f') || ('A' ≤ c && c ≤ 'F')

/-- One octet of a dotted IPv4 address. -/
def octetOk (o : Str) : Bool :=
  o != [] && o.all Char.isDigit && o.length ≤ 3 && !(o.length > 1 && o.head? == some '0')
    && ofDigits (o.map fun c => c.toNat - 48) ≤ 255

def ipv4Ok (s : Str) : Bool :=
  let octets := s.splitOn '.'
  octets.length == 4 && octets.all octetOk

/-- The groups of an IPv6 address, the `::` and the dotted tail already
accounted for. -/
def hextetsOk (parts : List Str) : Bool :=
  let gaps := (parts.tail.dropLast).filter (· == [])
  let groups := parts.filter (· != [])
  groups.all (fun h => h.all isHexDigit && h.length ≤ 4) &&
    match gaps with
    | [] => parts.length == 8 && parts.head? != some [] && parts.getLast? != some []
    | [_] =>
      -- a leading or trailing empty group is part of the `::`
      (parts.head? != some [] || parts.tail.head? == some []) &&
      (parts.getLast? != some [] || parts.dropLast.getLast? == some []) &&
      groups.length < 8
    | _ => false

/-- `ipaddress.IPv6Address` accepts the text. -/
def ipv6Ok (s : Str) : Bool :=
  let (addr, zone) := cut '%' s
  let zoneOk := match zone with
    | none => true
    | some z => z != [] && !z.contains '%'
  let parts := addr.splitOn ':'
  zoneOk && !addr.contains '/' && 3 ≤ parts.length && parts.length ≤ 9 &&
    match parts.getLast? with
    | some last =>
      if last.contains '.' then
        ipv4Ok last && hextetsOk (parts.dropLast ++ ["0".toList, "0".toList])
      else hextetsOk parts
    | none => false

/-- `_check_bracketed_host` does not raise. -/
def bracketedHostOk (host : Str) : Bool :=
  match host with
  | 'v' :: rest =>
    match cut '.' rest with
    | (version, some (_ :: _)) => version != [] && version.all isHexDigit
    | _ => false
  | _ => ipv6Ok host

/-! ## Splitting -/

/-- The scheme in front of the first colon, and what follows it. -/
def splitScheme (url : Str) : Option (Str × Str) :=
  match cut ':' url with
  | (c :: cs, some rest) =>
    if c.isAlpha && (c :: cs).all isSchemeChar then some ((c :: cs).map Char.toLower, rest)
    else none
  | _ => none

/-- `_checknetloc` does not raise. -/
def netlocOk (U : Unicode) (netloc : Str) : Bool :=
  netloc.all isAscii ||
    let n := netloc.filter fun c => !(c = '@' || c = ':' || c = '#' || c = '?')
    let n' := U.nfkc n
    n' == n || !n'.any fun c => c = '/' || c = '?' || c = '#' || c = '@' || c = ':'

/-- The checks on the brackets of a network location do not raise. Later versions of CPython, with
`_check_bracketed_netloc`, also refuse text in front of the brackets of the host, and text behind
them that is no port. -/
def bracketsOk (netloc : Str) : Bool :=
  netloc.contains '[' == netloc.contains ']' &&
    (!netloc.contains '[' ||
      bracketedHostOk (cut ']' ((cut '[' netloc).2.getD [])).1)

/-- The network location when the rest of the URL starts with `//`. -/
def splitNetloc (url : Str) : Str × Str :=
  match url with
  | '/' :: '/' :: rest =>
    (rest.takeWhile fun c => !isNetlocEnd c, rest.dropWhile fun c => !isNetlocEnd c)
  | _ => ([], url)

/-- What `urlsplit` removes before it looks at the URL. -/
def cleanUrl (url : Str) : Str :=
  (url.dropWhile isC0OrSpace).filter fun c => !isUnsafeUrlChar c

/-- `urlsplit(url, scheme)`. -/
def urlsplit (U : Unicode) (url : Str) (scheme : Str) : Except Raised SplitResult :=
  let url := cleanUrl url
  let (scheme, url) := (splitScheme url).getD (scheme, url)
  let (netloc, url) := splitNetloc url
  let (url, fragment) := cut '#' url
  let (path, query) := cut '?' url
  if bracketsOk netloc && netlocOk U netloc then
    .ok { scheme, netloc, path, query := query.getD [], fragment := fragment.getD [] }
  else .error .valueError

/-- The parameters behind the first `;` of the last path segment. -/
def splitParams (url : Str) : Str × Str :=
  match rcut '/' url with
  | (some dir, last) =>
    match cut ';' last with
    | (segment, some params) => (dir ++ '/' :: segment, params)
    | (_, none) => (url, [])
  | (none, _) =>
    match cut ';' url with
    | (segment, some params) => (segment, params)
    | (_, none) => (url, [])

/-- `urlparse(url, scheme)`. -/
def urlparse (U : Unicode) (url : Str) (scheme : Str) : Except Raised ParseResult := do
  let s ← urlsplit U url scheme
  let (path, params) :=
    if s.scheme ∈ usesParams && s.path.contains ';' then splitParams s.path else (s.path, [])
  return { scheme := s.scheme, netloc := s.netloc, path, params, query := s.query,
           fragment := s.fragment }

/-- `_hostinfo`: the host and the port as they stand in the network location. -/
def hostinfo (netloc : Str) : Str × Option Str :=
  let info := (rcut '@' netloc).2
  let (host, port) := match cut '[' info with
    | (_, some bracketed) =>
      let (host, after) := cut ']' bracketed
      (host, (cut ':' (after.getD [])).2)
    | (_, none) => cut ':' info
  (host, port.filter (· != []))

/-- `.hostname`. -/
def hostnameOf (U : Unicode) (netloc : Str) : Option Str :=
  match hostinfo netloc with
  | ([], _) => none
  | (host, _) =>
    match cut '%' host with
    | (name, some zone) => some (lower U name ++ '%' :: zone)
    | (name, none) => some (lower U name)

/-- `.port`. -/
def portOf (netloc : Str) : Except Raised (Option ℕ) :=
  match (hostinfo netloc).2 with
  | none => .ok none
  | some p =>
    if p.all Char.isDigit then
      match intOfDigits p with
      | some n => if n ≤ 65535 then .ok (some n) else .error .valueError
      | none => .error .valueError
    else .error .valueError

/-! ## Joining -/

/-- `urlunsplit`. -/
def urlunsplit (s : SplitResult) : Str :=
  let url := s.path
  let url :=
    if s.netloc ≠ [] ∨ (s.scheme ≠ [] ∧ s.scheme ∈ usesNetloc) ∨ "//".toList <+: url then
      "//".toList ++ s.netloc ++ (if url ≠ [] ∧ url.head? ≠ some '/' then '/' :: url else url)
    else url
  let url := if s.scheme ≠ [] then s.scheme ++ ':' :: url else url
  let url := if s.query ≠ [] then url ++ '?' :: s.query else url
  if s.fragment ≠ [] then url ++ '#' :: s.fragment else url

/-- `urlunparse`. -/
def urlunparse (p : ParseResult) : Str :=
  urlunsplit { scheme := p.scheme, netloc := p.netloc,
               path := if p.params ≠ [] then p.path ++ ';' :: p.params else p.path,
               query := p.query, fragment := p.fragment }

/-- The segments of a path after `.` and `..` have been resolved; a `..` at the
top is dropped. -/
def resolveSegments (segments : List Str) : List Str :=
  let resolved := segments.foldl (fun out seg =>
    if seg = "..".toList then out.dropLast
    else if seg = ".".toList then out
    else out ++ [seg]) []
  if segments.getLast? = some ".".toList ∨ segments.getLast? = some "..".toList then
    resolved ++ [[]]
  else resolved

/-- The segments that `urljoin` resolves for a path that is not empty. -/
def joinSegments (basePath path : Str) : List Str :=
  let baseParts := basePath.splitOn '/'
  let baseParts := if baseParts.getLast? ≠ some [] then baseParts.dropLast else baseParts
  if path.head? = some '/' then path.splitOn '/'
  else
    let segments := baseParts ++ path.splitOn '/'
    -- segments[1:-1] loses its empty elements
    match segments with
    | first :: rest@(_ :: _) =>
      first :: (rest.dropLast.filter (· ≠ []) ++ [rest.getLastD []])
    | _ => segments

/-- `urljoin(base, url)`. -/
def urljoin (U : Unicode) (base url : Str) : Except Raised Str := do
  if base = [] then return url
  if url = [] then return base
  let b ← urlparse U base []
  let p ← urlparse U url b.scheme
  if p.scheme ≠ b.scheme ∨ p.scheme ∉ usesRelative then return url
  if p.scheme ∈ usesNetloc ∧ p.netloc ≠ [] then return urlunparse p
  let p := if p.scheme ∈ usesNetloc then { p with netloc := b.netloc } else p
  if p.path = [] ∧ p.params = [] then
    return urlunparse { p with
      path := b.path, params := b.params, query := if p.query = [] then b.query else p.query }
  let path := List.intercalate ['/'] (resolveSegments (joinSegments b.path p.path))
  return urlunparse { p with path := if path = [] then ['/'] else path }

end ProxyCache.Python
