import SelectionGrowth.Address.Uri
import SelectionGrowth.Table

/-!
# Document keys

Two addresses name one document when they have the same normal form. The normal
form lowers scheme and host, drops what says nothing (a default port number, the
host `localhost` of a file), resolves dot segments and escapes characters that
an address must not hold. It serves as the key of a document and is what
messages show.

## Main definitions

- `Url` — an address in normal form
- `Url.parse?` — the normal form of a text; not every well-formed URI has one
- `Url.key` — the normal form as a text
- `Url.filePath` — the path, which decides the file type

## Design notes

Some schemes are special: they always have an authority and a path of segments,
and a backslash divides segments like a slash. An address of another scheme
whose part after the scheme does not start with a slash is opaque and is kept
as it is.
-/

namespace SelectionGrowth

/-- An address in normal form. -/
structure Url where
  scheme : List Char
  authority : Option (List Char)
  path : List Char
  query : Option (List Char)
  fragment : Option (List Char)
deriving DecidableEq

namespace Url

-- ════════════════════════════════════════════════════════════════════════
-- Characters kept in each part
-- ════════════════════════════════════════════════════════════════════════

/-- Printable ASCII characters and the space. -/
def isPrintable (c : Char) : Bool :=
  0x20 ≤ c.toNat && c.toNat < 0x7F

def keptInFragment (c : Char) : Bool :=
  isPrintable c && !([' ', '"', '<', '>', '\x60'].contains c)

def keptInPath (c : Char) : Bool :=
  keptInFragment c && !(['#', '?', '\x7b', '\x7d'].contains c)

def keptInUser (c : Char) : Bool :=
  keptInPath c && !(['/', ':', ';', '=', '@', '[', '\\', ']', '^', '|'].contains c)

/-- Characters kept in a query; special schemes also escape the apostrophe. -/
def keptInQuery (special : Bool) (c : Char) : Bool :=
  isPrintable c && !([' ', '"', '#', '<', '>'].contains c) && !(special && c = '\x27')

-- ════════════════════════════════════════════════════════════════════════
-- Schemes
-- ════════════════════════════════════════════════════════════════════════

/-- The special schemes, each with its default port number if it has one. -/
def specialSchemes : List (List Char × Option Nat) :=
  [("ftp".toList, some 21), ("http".toList, some 80), ("https".toList, some 443),
    ("ws".toList, some 80), ("wss".toList, some 443), ("file".toList, none)]

def isSpecial (scheme : List Char) : Bool :=
  specialSchemes.any fun entry => entry.1 = scheme

def defaultPort? (scheme : List Char) : Option Nat :=
  (Table.find? scheme specialSchemes).join

def isFile (scheme : List Char) : Bool :=
  scheme = "file".toList

/-- The scheme in lower case, and what follows its colon. -/
def splitScheme? (cs : List Char) : Option (List Char × List Char) :=
  match Text.cutAt (· = ':') cs with
  | (first :: more, some rest) =>
    if first.isAlpha && more.all Uri.isSchemeChar then
      some ((first :: more).map Char.toLower, rest)
    else none
  | _ => none

-- ════════════════════════════════════════════════════════════════════════
-- Authorities
-- ════════════════════════════════════════════════════════════════════════

def isForbiddenInHost (c : Char) : Bool :=
  ['\x00', '\t', '\n', '\r', ' ', '#', '/', ':', '<', '>', '?', '@', '[', '\\', ']', '^',
    '|'].contains c

def isForbiddenInDomain (c : Char) : Bool :=
  isForbiddenInHost c || c.toNat < 0x20 || 0x7F ≤ c.toNat || c = '%'

def bracketedHost? (cs : List Char) : Option (List Char) :=
  match cs with
  | '[' :: rest =>
    if rest.getLast? = some ']' then
      (Address.v6? rest.dropLast).map fun pieces => '[' :: Address.renderV6 pieces ++ [']']
    else none
  | _ => none

/-- The host of a special scheme: a numeric address or a domain in lower case. -/
def specialHost? (cs : List Char) : Option (List Char) :=
  if cs.head? = some '[' then bracketedHost? cs
  else
    let domain := (Address.decodeLossy (Address.unescape cs)).map Char.toLower
    if domain.isEmpty || domain.any isForbiddenInDomain then none
    else if Address.endsInNumber domain then (Address.v4? domain).map Address.renderV4
    else some domain

/-- The host of any other scheme, kept as it is. -/
def opaqueHost? (cs : List Char) : Option (List Char) :=
  if cs.head? = some '[' then bracketedHost? cs
  else if cs.any isForbiddenInHost then none
  else some (Address.escape isPrintable cs)

/-- User name and password, followed by the sign that ends them. -/
def userPart (cs : List Char) : List Char :=
  let (name, password) := Text.cutAt (· = ':') cs
  let name := Address.escape keptInUser name
  let password := Address.escape keptInUser (password.getD [])
  if name.isEmpty && password.isEmpty then []
  else if password.isEmpty then name ++ ['@']
  else name ++ ':' :: password ++ ['@']

/-- Cuts the port number off a host; a colon in brackets does not count. -/
def splitPort (cs : List Char) : List Char × List Char :=
  match Text.cutAtLast? (· = ':') cs with
  | none => (cs, [])
  | some (host, digits) => if digits.contains ']' then (cs, []) else (host, digits)

/-- A port number after its colon, unless it is the default one. -/
def portPart? (scheme : List Char) (digits : List Char) : Option (List Char) :=
  if digits.isEmpty then some []
  else if !digits.all Char.isDigit then none
  else
    match Text.number? 10 digits with
    | none => none
    | some number =>
      if 65535 < number then none
      else if defaultPort? scheme = some number then some []
      else some (':' :: (toString number).toList)

/-- The normal form of an authority. Only schemes that are not special may lack a host. -/
def authority? (scheme cs : List Char) : Option (List Char) :=
  let (user, hostAndPort) := (Text.cutAtLast? (· = '@') cs).getD ([], cs)
  let (host, digits) := splitPort hostAndPort
  let user := userPart user
  let host? := if isSpecial scheme then specialHost? host else opaqueHost? host
  match host?, portPart? scheme digits with
  | some host, some portPart =>
    if host.isEmpty && !(user.isEmpty && portPart.isEmpty) then none
    else some (user ++ host ++ portPart)
  | _, _ => none

-- ════════════════════════════════════════════════════════════════════════
-- Paths
-- ════════════════════════════════════════════════════════════════════════

/-- A dot as such or as an escape. -/
def dots : List Char → Option Nat
  | [] => some 0
  | '.' :: rest => (dots rest).map (· + 1)
  | '%' :: '2' :: 'e' :: rest => (dots rest).map (· + 1)
  | '%' :: '2' :: 'E' :: rest => (dots rest).map (· + 1)
  | _ => none

/-- A drive: a letter with a colon or a bar. -/
def isDrive (segment : List Char) : Bool :=
  match segment with
  | [letter, mark] => letter.isAlpha && (mark = ':' || mark = '|')
  | _ => false

/-- Drops the last segment; the drive of a file stays. -/
def shorten (file : Bool) (segments : List (List Char)) : List (List Char) :=
  match segments with
  | [only] => if file && isDrive only then [only] else []
  | _ => segments.dropLast

/-- Adds the segments of a path to those before it, dot segments resolved. -/
def resolve (file : Bool) : (done : List (List Char)) → List (List Char) → List (List Char)
  | done, [] => done
  | done, segment :: rest =>
    let isLast := rest.isEmpty
    match dots segment with
    | some 2 =>
      let shorter := shorten file done
      resolve file (if isLast then shorter ++ [[]] else shorter) rest
    | some 1 => resolve file (if isLast then done ++ [[]] else done) rest
    | _ =>
      let kept := Address.escape keptInPath segment
      let kept :=
        match file && done.isEmpty && isDrive kept, kept with
        | true, letter :: _ => [letter, ':']
        | _, _ => kept
      resolve file (done ++ [kept]) rest

/-- Segments as a path, each after a slash. -/
def joinSegments (segments : List (List Char)) : List Char :=
  segments.flatMap ('/' :: ·)

/-- Whether a character divides segments. -/
def isSlash (special : Bool) (c : Char) : Bool :=
  c = '/' || (special && c = '\\')

/-- The normal form of a path, whose leading slash may be missing. -/
def segmentPath (scheme cs : List Char) : List Char :=
  let special := isSpecial scheme
  let relative :=
    match cs with
    | c :: rest => if isSlash special c then rest else cs
    | [] => []
  let segments := resolve (isFile scheme) [] (Text.splitOn (isSlash special) relative)
  let segments :=
    if isFile scheme then
      match segments.dropWhile List.isEmpty with
      | [] => [[]]
      | kept => kept
    else segments
  joinSegments segments

/-- The authority up to the next slash, and the path after it. -/
def cutAuthority (special : Bool) (cs : List Char) : List Char × List Char :=
  (cs.takeWhile (fun c => !isSlash special c), cs.dropWhile (fun c => !isSlash special c))

-- ════════════════════════════════════════════════════════════════════════
-- Addresses
-- ════════════════════════════════════════════════════════════════════════

/-- Authority and path of a file. The local host need not be named, and a drive has no host. -/
def fileParts? (cs : List Char) : Option (List Char × List Char) :=
  let scheme := "file".toList
  match cs with
  | a :: b :: rest =>
    if isSlash true a && isSlash true b then
      let (host, path) := cutAuthority true rest
      if isDrive host then some ([], segmentPath scheme rest)
      else if host.isEmpty then some ([], segmentPath scheme path)
      else
        match specialHost? host with
        | none => none
        | some name =>
          let path := segmentPath scheme path
          let startsWithDrive := isDrive ((path.drop 1).takeWhile (· ≠ '/'))
          if name = "localhost".toList || startsWithDrive then some ([], path)
          else some (name, path)
    else some ([], segmentPath scheme cs)
  | _ => some ([], segmentPath scheme cs)

/-- Authority and path of what follows the scheme. -/
def parts? (scheme cs : List Char) : Option (Option (List Char) × List Char) :=
  if isFile scheme then
    (fileParts? cs).map fun parts => (some parts.1, parts.2)
  else if isSpecial scheme then
    let (authority, path) := cutAuthority true (cs.dropWhile (isSlash true))
    (authority? scheme authority).map fun a => (some a, segmentPath scheme path)
  else
    match cs with
    | '/' :: '/' :: rest =>
      let (authority, path) := cutAuthority false rest
      (authority? scheme authority).map fun a =>
        (some a, if path.isEmpty then [] else segmentPath scheme path)
    | '/' :: _ => some (none, segmentPath scheme cs)
    | _ => some (none, Address.escape isPrintable cs)

/-- Drops blanks and control characters at both ends, and line breaks and tabs everywhere. -/
def clean (cs : List Char) : List Char :=
  (Text.trimEnds (fun c => c.toNat ≤ 0x20) cs).filter fun c => !(c = '\t' || c = '\n' || c = '\r')

/-- The normal form of an address. -/
def parse? (text : String) : Option Url :=
  let (body, fragment) := Text.cutAt (· = '#') (clean text.toList)
  match splitScheme? body with
  | none => none
  | some (scheme, rest) =>
    let (hierarchy, query) := Text.cutAt (· = '?') rest
    (parts? scheme hierarchy).map fun (authority, path) =>
      { scheme
        authority
        path
        query := query.map (Address.escape (keptInQuery (isSpecial scheme)))
        fragment := fragment.map (Address.escape keptInFragment) }

/-- The normal form as a text. -/
def key (u : Url) : String :=
  let authority :=
    match u.authority with
    | some a => '/' :: '/' :: a
    | none => if u.path.take 2 = ['/', '/'] then ['/', '.'] else []
  let query := (u.query.map ('?' :: ·)).getD []
  let fragment := (u.fragment.map ('#' :: ·)).getD []
  String.ofList (u.scheme ++ ':' :: authority ++ u.path ++ query ++ fragment)

def filePath (u : Url) : String :=
  String.ofList u.path

end Url

end SelectionGrowth
