import BloomServer.Library.DecimalText
import BloomServer.Library.TextSearch
import BloomServer.Library.Tokens
import BloomServer.UrlNode

/-! `CUrl::parse`: a URL taken apart into protocol, user, host, port and path, and put together again. -/
namespace BloomServer
open DecimalText TextSearch Tokens

/-- The bytes of an ASCII text. -/
def ascii (s : String) : List UInt8 := s.toList.map fun c => UInt8.ofNat c.toNat

inductive UrlScheme
  | http
  | https
  | ftp
  | invalid
  deriving DecidableEq

/-- `CUrl`, without the two members that `parse` leaves alone. -/
structure CUrl where
  scheme : UrlScheme
  host : List UInt8
  sUrl : List UInt8
  port : ℤ
  path : List UInt8
  user : List UInt8
  protocol : List UInt8
  url : List UInt8

/-- The constructor. -/
def CUrl.new : CUrl := ⟨.invalid, [], [], 80, [], [], [], []⟩

def lower (b : UInt8) : UInt8 := if 65 ≤ b ∧ b ≤ 90 then b + 32 else b

def toLowercase (str : List UInt8) : List UInt8 := str.map lower

/-- `strncasecmp(url, lead, strlen(lead)) == 0`. -/
def leads (lead url : List UInt8) : Bool := toLowercase (url.take lead.length) = toLowercase lead

def parseScheme (url : List UInt8) : UrlScheme :=
  if leads (ascii "http://") url then .http
  else if leads (ascii "https://") url then .https
  else .invalid

/-- The loop over the text up to its NUL: a blank becomes `%20`, unless nothing but blanks follows it. -/
def escapeSpaces (temp : List UInt8) : List UInt8 → List UInt8
  | [] => temp
  | b :: rest =>
      if b = 32 ∧ temp ≠ [] then
        escapeSpaces (if rest.dropWhile isBlank ≠ [] then temp ++ ascii "%20" else temp) rest
      else escapeSpaces (temp ++ [b]) rest

/-- `atoi`, which narrows what `strtol` gives. -/
def atoi (text : List UInt8) : ℤ :=
  let z := ((scanInt none text).map Prod.fst).getD 0
  Int.bmod (max (-2 ^ 63) (min (2 ^ 63 - 1) z)) (2 ^ 32)

/-- Digits that denote an `int` are read as it. -/
theorem atoi_digits {text : List UInt8} (digits : ∀ b ∈ text, isDigit b = true) (some : text ≠ [])
    (small : value text < 2 ^ 31) : atoi text = value text := by
  have scanned := scanInt_digits digits some []
  rw [List.takeWhile_nil, List.append_nil] at scanned
  rw [atoi, scanned]
  change Int.bmod (max (-2 ^ 63) (min (2 ^ 63 - 1) (value text : ℤ))) (2 ^ 32) = _
  rw [min_eq_right (by omega), max_eq_right (by omega), Int.bmod_eq_of_le (by omega) (by omega)]

def slashes (protocol : List UInt8) : ℕ :=
  if protocol = ascii "mailto" ∨ protocol = ascii "news" then 0 else 2

def CUrl.defaultPort (c : CUrl) : ℤ :=
  if c.protocol = ascii "http" then 80
  else if c.protocol = ascii "https" then 443
  else if c.protocol = ascii "ftp" then 21
  else if c.protocol = ascii "gopher" then 70
  else if c.protocol = ascii "file" then 0
  else if c.protocol = ascii "news" then 119
  else 80

/-! ### The path -/

/-- A path, and where its query starts or it ends; `npos`, here `none`, once it has been looked up again
in a path without a query. -/
structure PathState where
  path : List UInt8
  pathend : Option ℕ

/-- The rewritten path, with its query looked up again: `pathend` has no sign, and is never found to be
below zero. -/
def PathState.of (path : List UInt8) : PathState := ⟨path, find (ascii "?") path⟩

/-- `i < pathend`. -/
def PathState.inPath (s : PathState) (i : ℕ) : Bool := s.pathend.elim true (i < ·)

/-- A loop that rewrites the first occurrence of a pattern while it lies in front of the query. -/
def rewriteLoop (pattern : List UInt8) (edit : List UInt8 → ℕ → List UInt8) :
    ℕ → PathState → Option PathState
  | 0, _ => none
  | rounds + 1, s =>
      match find pattern s.path with
      | some i => if s.inPath i then rewriteLoop pattern edit rounds (.of (edit s.path i)) else some s
      | none => some s

/-- `find_last_of('/', i - 1)`. -/
def lastSlash (path : List UInt8) (i : ℕ) : Option ℕ :=
  (strchr 47 (path.take i).reverse).map (i - 1 - ·)

/-- `"//"` becomes `"/"`. -/
def dropSlash (path : List UInt8) (i : ℕ) : List UInt8 := path.take i ++ path.drop (i + 1)

/-- `"/./"` becomes `"/"`. -/
def dropDot (path : List UInt8) (i : ℕ) : List UInt8 := path.take i ++ path.drop (i + 2)

/-- The component in front of `"/../"` goes with it. Where there is none, `limit` is `npos` and the whole
path is kept. -/
def dropDotDot (path : List UInt8) (i : ℕ) : List UInt8 :=
  if i > 0 then ((lastSlash path i).elim path path.take) ++ path.drop (i + 3) else path.drop (i + 3)

/-- `"%7E"` becomes `"~"`. -/
def tilde (path : List UInt8) (i : ℕ) : List UInt8 := path.take i ++ ascii "~" ++ path.drop (i + 3)

/-- A `"/."` at the end loses its dot. -/
def PathState.lastDot (s : PathState) : PathState :=
  match find (ascii "/.") s.path with
  | some i =>
      if s.pathend = some (i + 2) then
        ⟨s.path.take (i + 1) ++ s.path.drop (i + 2), s.pathend.map (· - 1)⟩
      else s
  | none => s

/-- A `"/.."` at the end goes, with the component in front of it. -/
def PathState.lastDotDot (s : PathState) : PathState :=
  match find (ascii "/..") s.path with
  | some i =>
      if s.pathend = some (i + 3) then
        .of ((if i > 0 then s.path.take (((lastSlash s.path i).map (· + 1)).getD 0) else ascii "/") ++
          s.path.drop (i + 3))
      else s
  | none => s

/-- Each loop is given so many rounds. A path is cut off a C string: it has no NUL in it. -/
def normalizePath (rounds : ℕ) (path : List UInt8) : Option (List UInt8) := do
  let s ← rewriteLoop (ascii "//") dropSlash rounds
    ⟨path, some ((find (ascii "?") path).getD path.length)⟩
  let s ← rewriteLoop (ascii "/./") dropDot rounds s
  let s ← rewriteLoop (ascii "/../") dropDotDot rounds s.lastDot
  let s ← rewriteLoop (ascii "%7E") tilde rounds s.lastDotDot
  return s.path

/-! ### The authority -/

/-- The rest of the input is the path, behind the slash that is there already. -/
def CUrl.restOfPath (c : CUrl) (rest : List UInt8) : CUrl :=
  { c with path := c.path ++ (strtokR 10 rest).1.getD [] }

/-- A port and what follows it. -/
def CUrl.takePort (c : CUrl) (host rest : List UInt8) : CUrl :=
  let c := { c with host := host, port := (strtokR 47 rest).1.elim c.port atoi }
  let c := if (strtokR 47 rest).1 = none ∨ c.port ≤ 0 then { c with port := c.defaultPort } else c
  c.restOfPath (strtokR 47 rest).2

/-- A host with no port behind it. -/
def CUrl.takeHost (c : CUrl) (p : List UInt8) : CUrl :=
  { c with host := (strtokR 47 p).1.getD c.host }.restOfPath (strtokR 47 p).2

/-- What is behind the user. The length of `p` differs from the one before where `strtok_r` has
overwritten a colon; without a port, the port is left as it is. -/
def CUrl.parseBehindUser (c : CUrl) (p : List UInt8) : CUrl :=
  match strtokR 58 p with
  | (some host, rest) =>
      if 58 ∈ p.dropWhile (· = 58) then c.takePort host rest else c.takeHost p
  | (none, _) => c.takeHost p

/-- The branch of an authority with an `'@'`. -/
def CUrl.parseWithAt (c : CUrl) (p : List UInt8) : CUrl :=
  if before (strchr 64 p) (strchr 47 p) || strchr 47 p = none then
    { c with user := p.take ((strchr 64 p).getD 0) }.parseBehindUser (p.drop ((strchr 64 p).getD 0 + 1))
  else c.parseBehindUser p

/-- The other branch. -/
def CUrl.parseWithout (c : CUrl) (p : List UInt8) : CUrl :=
  if before (strchr 58 p) (strchr 47 p) && (strchr 58 p).isSome then
    match strtokR 58 p with
    | (some host, rest) => c.takePort host rest
    | (none, _) => { c with port := c.defaultPort }.takeHost p
  else { c with port := c.defaultPort }.takeHost p

/-- `file:///`, without a host. -/
def CUrl.parseFile (c : CUrl) (p : List UInt8) : CUrl :=
  let t := if p.head? = some 47 then (strtokR 10 (p.drop 1)).1 else (strtokR 10 (strtokR 47 p).2).1
  { c with protocol := c.protocol ++ t.getD [], host := ascii "localhost", port := 0 }

/-- What follows `"//"`. -/
def CUrl.parseHost (c : CUrl) (p : List UInt8) : CUrl :=
  let q := strchr 58 p
  let slash := strchr 47 p
  let c := { c with path := ascii "/" }
  if c.protocol = ascii "file" then c.parseFile p
  else if (strchr 64 p).isSome && (before q slash || slash = none) then c.parseWithAt p
  else c.parseWithout p

/-- No host: all a path, that loses its slashes if it has as many as the protocol says. -/
def CUrl.parsePath (c : CUrl) (p : List UInt8) : CUrl :=
  let count := slashes c.protocol
  let lead := List.replicate count 47 <+: p
  { c with
    port := 0
    path := if lead then p.drop count else p
    host := if c.protocol = ascii "file" ∨ count < 2 then ascii "localhost" else c.host }

/-- `constructURL`. A port of ten digits does not fit `portstr`, with its NUL. -/
def CUrl.constructURL (c : CUrl) : Option CUrl :=
  if c.protocol ≠ ascii "file" ∧ c.host = [] then some { c with url := [] }
  else
    let front := c.protocol ++ ascii ":" ++ List.replicate (slashes c.protocol) 47
    if slashes c.protocol = 2 then
      let name := if c.protocol = ascii "file" then []
        else (if c.user = [] then [] else c.user ++ ascii "@") ++ c.host
      if c.port ≠ c.defaultPort ∧ c.port ≠ 0 then
        let portstr := decimal (Int.toNat (c.port % 2 ^ 64))
        if portstr.length < 10 then some { c with url := front ++ name ++ ascii ":" ++ portstr ++ c.path }
        else none
      else some { c with url := front ++ name ++ c.path }
    else some { c with url := front ++ c.path }

/-- `parse`. There is no result when a loop goes on, or when a path that is null is copied. -/
def CUrl.parse (c : CUrl) (rounds : ℕ) (urlToParse : List UInt8) : Option CUrl :=
  if urlToParse.length > maxUrlLen then some c
  else
    let nurl := (escapeSpaces [] (urlToParse.takeWhile (· ≠ 0))).takeWhile (· ≠ 35)
    let c := { c with sUrl := urlToParse, scheme := parseScheme nurl }
    if c.scheme ≠ .http ∧ c.scheme ≠ .https then some c
    else do
      let (protocol, rest) := if 58 ∈ nurl then strtokR 58 nurl else (some (ascii "http"), nurl)
      let c := { c with protocol := toLowercase (protocol.getD c.protocol) }
      let p ← (strtokR 10 rest).1
      let c := if ascii "//" <+: p then c.parseHost (p.drop 2) else c.parsePath p
      let path ← normalizePath rounds c.path
      { c with path := path }.constructURL

end BloomServer
