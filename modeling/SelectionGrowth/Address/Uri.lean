import SelectionGrowth.Address.Ip

/-!
# Well-formed URIs

Clients name documents and folders by absolute URIs. A message with a text in
that place that is not one is refused.

## Main definitions

- `Uri` — the parts of a URI
- `Uri.parse?` — the parts of a text, if it is an absolute URI
- `Uri.filePath` — the path of a URI with its escapes resolved
-/

namespace SelectionGrowth

/-- The parts of an absolute URI as they are written. -/
structure Uri where
  scheme : List Char
  authority : Option (List Char)
  path : List Char
  query : Option (List Char)
  fragment : Option (List Char)
deriving DecidableEq

namespace Uri

/-- Characters without a role of their own. -/
def isUnreserved (c : Char) : Bool :=
  c.isAlphanum || c = '-' || c = '.' || c = '_' || c = '~'

/-- Characters that may divide a part further. -/
def isSubDelimiter (c : Char) : Bool :=
  ['!', '$', '&', '\x27', '(', ')', '*', '+', ',', ';', '='].contains c

/-- Whether a text consists of characters of a class and of complete escapes. -/
def consistsOf (allowed : Char → Bool) : List Char → Bool
  | [] => true
  | '%' :: a :: b :: rest => Text.isHex a && Text.isHex b && consistsOf allowed rest
  | c :: rest => allowed c && consistsOf allowed rest

def isSegmentChar (c : Char) : Bool :=
  isUnreserved c || isSubDelimiter c || c = ':' || c = '@'

def isPathChar (c : Char) : Bool :=
  isSegmentChar c || c = '/'

def isQueryChar (c : Char) : Bool :=
  isPathChar c || c = '?'

def isSchemeChar (c : Char) : Bool :=
  c.isAlphanum || c = '+' || c = '-' || c = '.'

/-- A host in brackets: an eight-piece address or one of a future version. -/
def isBracketed (cs : List Char) : Bool :=
  match cs with
  | 'v' :: rest | 'V' :: rest =>
    match Text.cutAt (· = '.') rest with
    | (version, some tail) =>
      !version.isEmpty && version.all Text.isHex && !tail.isEmpty &&
        tail.all fun c => isUnreserved c || isSubDelimiter c || c = ':'
    | _ => false
  | _ => (Address.v6? cs).isSome

/-- A host, and after a colon a port number if there is one. -/
def isHostAndPort (cs : List Char) : Bool :=
  match cs with
  | '[' :: rest =>
    match Text.cutAt (· = ']') rest with
    | (inside, some after) =>
      isBracketed inside &&
        (match after with
          | [] => true
          | ':' :: digits => digits.all Char.isDigit
          | _ => false)
    | _ => false
  | _ =>
    match Text.cutAt (· = ':') cs with
    | (host, digits) =>
      consistsOf (fun c => isUnreserved c || isSubDelimiter c) host &&
        (digits.getD []).all Char.isDigit

/-- An authority: an optional user, then host and port number. -/
def isAuthority (cs : List Char) : Bool :=
  match Text.cutAt (· = '@') cs with
  | (_, none) => isHostAndPort cs
  | (user, some rest) =>
    consistsOf (fun c => isUnreserved c || isSubDelimiter c || c = ':') user && isHostAndPort rest

/-- The authority after two slashes, if any, and the path. -/
def splitAuthority (cs : List Char) : Option (List Char) × List Char :=
  match cs with
  | '/' :: '/' :: rest =>
    (some (rest.takeWhile (· ≠ '/')), rest.dropWhile (· ≠ '/'))
  | _ => (none, cs)

/-- The parts of an absolute URI. -/
def parse? (text : String) : Option Uri :=
  let (body, fragment) := Text.cutAt (· = '#') text.toList
  let (hierarchy, query) := Text.cutAt (· = '?') body
  match Text.cutAt (· = ':') hierarchy with
  | (first :: more, some rest) =>
    let (authority, path) := splitAuthority rest
    if first.isAlpha && more.all isSchemeChar && authority.all isAuthority &&
        consistsOf isPathChar path && query.all (consistsOf isQueryChar) &&
        fragment.all (consistsOf isQueryChar) then
      some ⟨first :: more, authority, path, query, fragment⟩
    else none
  | _ => none

/-- The path with its escapes resolved; an empty path names no file. -/
def filePath (u : Uri) : Option String :=
  if u.path.isEmpty then none
  else some (String.ofList (Address.decodeLossy (Address.unescape u.path)))

end Uri

end SelectionGrowth
