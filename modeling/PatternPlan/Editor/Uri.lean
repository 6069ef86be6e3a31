import PatternPlan.Json.Reader
import PatternPlan.Text.Glyph

/-!
# Names of documents

An editor names a document by a URI.  In place of the name of a host an address of 128 bits may stand in
brackets: up to eight groups of hexadecimal digits between colons.  Two colons stand for groups of
zeros, at least one, and may occur once; the last two groups may be written as four decimal numbers.

* `Address.isDotted` — four decimal numbers between dots;
* `Address.isGroups` — the groups, given how many there is room for;
* `Address.isAddress` — a whole address, with or without the name of a zone;
* `Uri.unescape?` — a text with its `%` escapes replaced by the bytes they stand for;
* `Uri.filePath?` — the path of a `file` URI, if the URI is well formed;
* `Uri.path` — the path of any name: a name of another scheme is taken as it stands, and so is what
  follows the scheme of a malformed one.
-/

namespace PatternPlan

namespace Editor

/-! ### Numeric addresses -/

namespace Address

def isHexDigit (c : Char) : Bool := (Json.hexValue? c).isSome

/-- The parts of a text between dots. -/
def splitDots : List Char → List (List Char)
  | [] => [[]]
  | c :: cs =>
    if c = '.' then [] :: splitDots cs
    else match splitDots cs with
      | p :: ps => (c :: p) :: ps
      | [] => [[c]]

/-- A number below 256 without leading zeros. -/
def isOctet (ds : List Char) : Bool :=
  !ds.isEmpty && ds.all Decimal.isDigit && (ds.length = 1 || ds.head? ≠ some '0')
    && Decimal.value ds < 256

/-- Four decimal numbers between dots. -/
def isDotted (cs : List Char) : Bool :=
  (splitDots cs).length = 4 && (splitDots cs).all isOctet

/-- The groups of an address, for as many as there is room; `elided` tells whether two colons stood
for some already.  All room is used up exactly when none are elided. -/
def isGroups : (room : Nat) → (elided : Bool) → List Char → Bool
  | 0, _, _ => false
  | room + 1, elided, cs =>
    let group := cs.takeWhile isHexDigit
    if group.isEmpty || 4 < group.length then false
    else match cs.drop group.length with
      | [] => elided = decide (0 < room)
      | '.' :: _ => 0 < room && (elided = decide (1 < room)) && isDotted cs
      | [':'] => false
      | ':' :: ':' :: rest =>
        !elided && (if rest.isEmpty then decide (0 < room) else isGroups room true rest)
      | ':' :: rest => isGroups room elided rest
      | _ => false

/-- The groups of an address that may start with two colons. -/
def isBare : List Char → Bool
  | [':', ':'] => true
  | ':' :: ':' :: cs => isGroups 8 true cs
  | cs => isGroups 8 false cs

/-- An address.  What follows a percent sign names a zone and is not empty. -/
def isAddress (cs : List Char) : Bool :=
  isBare (cs.takeWhile (· ≠ '%')) && cs.dropWhile (· ≠ '%') ≠ ['%']

end Address

namespace Uri

/-- What precedes the first `c`, and what follows it. -/
def cut (c : Char) (cs : List Char) : List Char × List Char :=
  (cs.takeWhile (· ≠ c), (cs.dropWhile (· ≠ c)).drop 1)

/-- The bytes of a text whose escapes are replaced; `none` if an escape is malformed. -/
def unescape? : List Char → Option (List UInt8)
  | '%' :: a :: b :: rest => do
    let x ← Json.hexValue? a
    let y ← Json.hexValue? b
    let bs ← unescape? rest
    some (UInt8.ofNat (16 * x + y) :: bs)
  | '%' :: _ => none
  | c :: rest => (unescape? rest).map fun bs => String.utf8EncodeChar c ++ bs
  | [] => some []

/-! ### Hosts -/

/-- A letter or a digit of ASCII. -/
def isAlphanumeric (c : Char) : Bool :=
  ('a' ≤ c && c ≤ 'z') || ('A' ≤ c && c ≤ 'Z') || Decimal.isDigit c

/-- A character that a host may hold unescaped. -/
def isHostChar (c : Char) : Bool :=
  128 ≤ c.toNat || isAlphanumeric c || c ∈ "-_.~!$&'()*+,;=:[]<>\"".toList

/-- Whether the escapes of a host stand for bytes outside ASCII or a percent sign, and all else may
stand unescaped. -/
def isHost : List Char → Bool
  | '%' :: a :: b :: rest =>
    (match Json.hexValue? a, Json.hexValue? b with
      | some x, some _ => 8 ≤ x || (a = '2' && b = '5')
      | _, _ => false) && isHost rest
  | '%' :: _ => false
  | c :: rest => isHostChar c && isHost rest
  | [] => true

/-- A character of the part of an address that names a zone, after its first percent sign. -/
def isZone : List Char → Bool
  | '%' :: a :: b :: rest =>
    (match Json.hexValue? a, Json.hexValue? b with
      | some x, some y =>
        let v := Char.ofNat (16 * x + y)
        (a = '2' && b = '5') || v = ' ' || (v.toNat < 128 && isHostChar v)
      | _, _ => false) && isZone rest
  | '%' :: _ => false
  | c :: rest => isHostChar c && isZone rest
  | [] => true

/-- Nothing, or a colon and digits. -/
def isColonNumber : List Char → Bool
  | [] => true
  | ':' :: ds => ds.all Decimal.isDigit
  | _ => false

/-- What follows the last `c`, if there is one. -/
def afterLast? (c : Char) (cs : List Char) : Option (List Char) :=
  if cs.contains c then some (cs.reverse.takeWhile (· ≠ c)).reverse else none

/-- What precedes the last `c`. -/
def beforeLast (c : Char) (cs : List Char) : List Char :=
  ((cs.reverse.dropWhile (· ≠ c)).drop 1).reverse

/-- Where a text holds `%25`: what precedes it, and it with what follows. -/
def splitZone? : List Char → Option (List Char × List Char)
  | '%' :: '2' :: '5' :: rest => some ([], '%' :: '2' :: '5' :: rest)
  | c :: rest => (splitZone? rest).map fun r => (c :: r.1, r.2)
  | [] => none

/-- Whether what stands in brackets is an address.  Its zone follows an escaped percent sign; no
other escape stands for a character of an address. -/
def isBracketed (cs : List Char) : Bool :=
  match splitZone? cs with
  | some (address, zone) =>
    Address.isAddress (address ++ '%' :: zone.drop 3) && !address.contains '%' && isZone zone
  | none => Address.isAddress cs && !cs.contains '%'

/-- Whether a host, with or without a number after a colon, is well formed.  A bracket opens nothing
but an address, and only at the start. -/
def isServer (host : List Char) : Bool :=
  match host with
  | '[' :: rest =>
    match afterLast? ']' rest with
    | none => false
    | some number => !rest.contains '[' && isColonNumber number && isBracketed (beforeLast ']' rest)
  | _ =>
    !host.contains '[' && (match afterLast? ':' host with
      | some number => number.all Decimal.isDigit
      | none => true) && isHost host

/-- A character that a user name may hold. -/
def isUserChar (c : Char) : Bool := isAlphanumeric c || c ∈ "-._:~!$&'()*+,;=%@".toList

/-- Whether the part between `//` and the path is well formed. -/
def isAuthority (cs : List Char) : Bool :=
  match afterLast? '@' cs with
  | none => isServer cs
  | some host =>
    let user := beforeLast '@' cs
    isServer host && user.all isUserChar && (unescape? user).isSome

/-! ### Paths -/

/-- A control character. -/
def isControl (c : Char) : Bool := c.toNat < 0x20 || c.toNat = 0x7F

/-- The path of a `file` URI, given what follows its two slashes. -/
def filePath? (cs : List Char) : Option Text :=
  let (body, fragment) := cut '#' cs
  let hierarchy := (cut '?' body).1
  let authority := hierarchy.takeWhile (· ≠ '/')
  if body.any isControl || !isAuthority authority || (unescape? fragment).isNone then none
  else (unescape? (hierarchy.dropWhile (· ≠ '/'))).map Text.ofBytes

/-- The path that a name stands for. -/
def path (uri : String) : String :=
  match uri.toList with
  | 'f' :: 'i' :: 'l' :: 'e' :: ':' :: '/' :: '/' :: rest =>
    match filePath? rest with
    | some t => t.shown
    | none => String.ofList rest
  | _ => uri

end Uri

end Editor

end PatternPlan
