import Workflow.Server.Address.Host

/-!
# Addresses

An address is read into its parts and has one written form. Blanks around it are
dropped, the scheme is in small letters, and so is the host of an address of the web,
the port that the scheme stands for is left out, steps to the same and to the parent
folder are taken, and what may not stand in a part is escaped.

The schemes of the web have a host in any case, and a backslash is a slash there. What
follows another scheme is a host only behind two slashes, and folders only behind a
slash; else it is taken as it is.
-/

namespace Workflow

/-- The host of an address and what belongs to it. -/
structure Authority where
  /-- The name and the password of the user, with the sign that ends them, in written form. -/
  user : List Char
  /-- The host in written form, which may be empty where the scheme is none of the web. -/
  host : List Char
  /-- The port, if it is not the one that the scheme stands for. -/
  port : Option Nat
  deriving DecidableEq, Repr

/-- An address. -/
structure Address where
  /-- The scheme. -/
  scheme : List Char
  /-- The host and what belongs to it. -/
  authority : Option Authority
  /-- The path in written form. -/
  path : List Char
  /-- The query and the fragment in written form. -/
  query : List Char
  deriving DecidableEq, Repr

/-- The written form of an authority. -/
def Authority.text (a : Authority) : List Char :=
  "//".toList ++ a.user ++ a.host ++ (a.port.elim [] fun n => ':' :: Nat.toDigits 10 n)

namespace Address

/-- The written form of an address. A path that looks like a host has a step to the same
folder in front. -/
def text (a : Address) : String :=
  let front : List Char :=
    match a.authority, a.path with
    | some authority, _ => authority.text
    | none, '/' :: '/' :: _ => ['/', '.']
    | none, _ => []
  String.ofList (a.scheme ++ ':' :: front ++ a.path ++ a.query)

/-- Whether an address has a host. -/
def hasHost (a : Address) : Bool := a.authority.any fun authority => !authority.host.isEmpty

/-- An address without the name and the password of the user. -/
def withoutUser (a : Address) : Address :=
  { a with authority := a.authority.map fun authority => { authority with user := [] } }

/-- The ports that the schemes of the web stand for. -/
def standardPorts : List (List Char × Nat) :=
  [("http", 80), ("https", 443), ("ws", 80), ("wss", 443), ("ftp", 21)].map fun p =>
    (p.1.toList, p.2)

/-- The scheme of addresses of files. -/
def fileScheme : List Char := "file".toList

/-- Whether an address is one to ask for documents at. -/
def isWeb (a : Address) : Bool := a.scheme == "http".toList || a.scheme == "https".toList

/-- Whether a character separates the folders of a path on the web. -/
def isSlash (c : Char) : Bool := c == '/' || c == '\\'

/-- Whether a character separates the folders of a path elsewhere. -/
def isPlainSlash (c : Char) : Bool := c == '/'

/-- Whether a character ends a path. -/
def endsPath (c : Char) : Bool := c == '?' || c == '#'

/-- A part of a path with escaped dots written as dots. -/
def plainDots : List Char → List Char
  | '%' :: '2' :: 'e' :: rest | '%' :: '2' :: 'E' :: rest => '.' :: plainDots rest
  | c :: rest => c :: plainDots rest
  | [] => []

/-- The folders that a path leads through, after those in `taken`, the last one first. -/
def walk (taken : List (List Char)) : List (List Char) → List (List Char)
  | [] => taken.reverse
  | part :: rest =>
    match plainDots part with
    | ['.', '.'] => walk (if rest.isEmpty then [] :: taken.tail else taken.tail) rest
    | ['.'] => walk (if rest.isEmpty then [] :: taken else taken) rest
    | _ => walk (escape pathEscaped part :: taken) rest

/-- The written form of a path with folders. -/
def writePath (slash : Char → Bool) (path : List Char) : List Char :=
  let parts := (if path.head?.any slash then path.tail else path).splitOnP slash
  (walk [] parts).flatMap ('/' :: ·)

/-- The written form of a fragment, which begins with a hash. -/
def writeFragment : List Char → List Char
  | [] => []
  | c :: cs => c :: escape fragmentEscaped cs

/-- The written form of a query and a fragment. -/
def writeQuery (escaped : List Char) : List Char → List Char
  | [] => []
  | c :: cs =>
    if c = '?' then
      c :: (escape escaped (cs.takeWhile (· != '#')) ++ writeFragment (cs.dropWhile (· != '#')))
    else writeFragment (c :: cs)

/-- The name and the password of a user. There is no colon before an empty password, and
nothing is written of nobody. -/
def writeUser (cs : List Char) : List Char :=
  let name := escape userEscaped (cs.takeWhile (· != ':'))
  let password := escape userEscaped (cs.dropWhile (· != ':')).tail
  let both := if password.isEmpty then name else name ++ ':' :: password
  if both.isEmpty then [] else both ++ ['@']

/-- The port that characters write, where `standard` is the one to leave out. No digits
write no port. -/
def readPort? (standard : Option Nat) (cs : List Char) : Option (Option Nat) :=
  if cs.isEmpty then some none
  else do
    let n ← Text.numberIn? 10 cs
    if 65535 < n then none else return if standard = some n then none else some n

/-- What stands before and behind the colon that ends a host. A colon in brackets does not
end it. -/
def splitHost (inBrackets : Bool) : List Char → List Char × Option (List Char)
  | [] => ([], none)
  | c :: rest =>
    if c = ':' && !inBrackets then ([], some rest)
    else
      let (host, port) := splitHost (c == '[' || inBrackets && c != ']') rest
      (c :: host, port)

/-- The authority that characters write on the web. -/
def readAuthority? (host? : List Char → Option Host) (standard : Option Nat) (cs : List Char) :
    Option Authority := do
  let user := (cs.reverse.dropWhile (· != '@')).reverse.dropLast
  let (host, port) := splitHost false (cs.reverse.takeWhile (· != '@')).reverse
  if host.isEmpty && (port.isSome || cs.contains '@') then none
  else
    return ⟨writeUser user, (← host? host).text, (← readPort? standard (port.getD []))⟩

/-- The characters of an address without those that are ignored. -/
def significant (url : String) : List Char :=
  let blank (c : Char) : Bool := c.toNat ≤ 0x20
  let trimmed := ((url.toList.dropWhile blank).reverse.dropWhile blank).reverse
  trimmed.filter fun c => c != '\t' && c != '\n' && c != '\r'

/-- The scheme of an address and what stands behind it. -/
def scheme? (cs : List Char) : Option (List Char × List Char) :=
  let isSchemeChar (c : Char) : Bool := c.isAlphanum || c == '+' || c == '-' || c == '.'
  match cs.takeWhile isSchemeChar, cs.dropWhile isSchemeChar with
  | c :: scheme, ':' :: rest =>
    if c.isAlpha then some ((c :: scheme).map Char.toLower, rest) else none
  | _, _ => none

/-- The address of the web that a scheme and the rest of the characters write. -/
def readWeb? (scheme : List Char) (standard : Nat) (cs : List Char) : Option Address := do
  let cs := cs.dropWhile isSlash
  let ends (c : Char) : Bool := isSlash c || endsPath c
  let authority ← readAuthority? Host.read? (some standard) (cs.takeWhile (!ends ·))
  let rest := cs.dropWhile (!ends ·)
  return ⟨scheme, some authority, writePath isSlash (rest.takeWhile (!endsPath ·)),
    writeQuery ('\'' :: queryEscaped) (rest.dropWhile (!endsPath ·))⟩

/-- The address of a file that the characters behind its scheme write. The host of the
machine itself is left out. -/
def readFile? (cs : List Char) : Option Address := do
  let ends (c : Char) : Bool := isSlash c || endsPath c
  let (host, rest) :=
    match cs with
    | a :: b :: rest =>
      if isSlash a && isSlash b then (rest.takeWhile (!ends ·), rest.dropWhile (!ends ·))
      else ([], cs)
    | _ => ([], cs)
  let host ← if host.isEmpty then some (.name []) else Host.read? host
  let host := if host = .name "localhost".toList then [] else host.text
  return ⟨fileScheme, some ⟨[], host, none⟩, writePath isSlash (rest.takeWhile (!endsPath ·)),
    writeQuery ('\'' :: queryEscaped) (rest.dropWhile (!endsPath ·))⟩

/-- The path outside of the web that characters write. -/
def readPath (cs : List Char) : List Char :=
  if cs.head? = some '/' then writePath isPlainSlash cs else escape [] cs

/-- The address outside of the web that a scheme and the rest of the characters write. -/
def readElsewhere? (scheme cs : List Char) : Option Address := do
  let ends (c : Char) : Bool := isPlainSlash c || endsPath c
  let (authority, rest) ←
    match cs with
    | '/' :: '/' :: rest => do
      let authority ← readAuthority? Host.readElsewhere? none (rest.takeWhile (!ends ·))
      pure (some authority, rest.dropWhile (!ends ·))
    | _ => some (none, cs)
  return ⟨scheme, authority, readPath (rest.takeWhile (!endsPath ·)),
    writeQuery queryEscaped (rest.dropWhile (!endsPath ·))⟩

/-- The address that a text writes. -/
def read? (url : String) : Option Address := do
  let (scheme, rest) ← scheme? (significant url)
  if scheme = fileScheme then readFile? rest
  else
    match standardPorts.lookup scheme with
    | some port => readWeb? scheme port rest
    | none => readElsewhere? scheme rest

end Address

end Workflow
