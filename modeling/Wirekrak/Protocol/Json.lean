import Mathlib.Algebra.Group.Int.Defs
import Wirekrak.Protocol.DataPlane

/-!
# Wirekrak.Protocol.Json — JSON documents, the helpers and the adapters of the DOM parser

A document is what the DOM parser hands over: a tree whose objects keep their fields in order, with repeated keys if the
text had them (a lookup finds the first).  A string is the list of its bytes, each written as a character; `D` is the
type of the floating-point numbers.  The helpers check structure, the adapters turn texts into the enumerations and the
timestamps of the protocol; both end with a value or with a result code.
-/

namespace Wirekrak.Protocol

abbrev Text := List Char

/-- The field names that the parsers look up, and all others. -/
inductive Key
  | method | channel | result | symbol | success | error | reqId | timeIn | timeOut
  | snapshot | warnings | depth
  | type | data | side | qty | price | tradeId | timestamp | ordType
  | asks | bids | checksum
  | system | apiVersion | connectionId | version
  | other (name : Text)
  deriving DecidableEq

inductive Json (D : Type)
  | null
  | bool (b : Bool)
  | int (n : ℤ)
  | double (x : D)
  | string (s : Text)
  | array (elems : List (Json D))
  | object (fields : List (Key × Json D))

/-- A parsing step: its value, or the result code it ends with. -/
abbrev Parse (α : Type) := Except MessageResult α

namespace Json

variable {D : Type}

def object? : Json D → Option (Json D)
  | .object fields => some (.object fields)
  | _ => none

def bool? : Json D → Option Bool
  | .bool b => some b
  | _ => none

def string? : Json D → Option Text
  | .string s => some s
  | _ => none

/-- A number is read as `uint64_t` when it is an integer in range. -/
def uint64? : Json D → Option ℕ
  | .int n => if 0 ≤ n ∧ n < 2 ^ 64 then some n.toNat else none
  | _ => none

/-- Every number is read as a `double`. -/
def double? [IntCast D] : Json D → Option D
  | .double x => some x
  | .int n => some n
  | _ => none

def array? : Json D → Option (List (Json D))
  | .array elems => some elems
  | _ => none

def strings? : Json D → Option (List Text)
  | .array elems => elems.mapM string?
  | _ => none

/-- `element[key]`: nothing for a missing field and for a value that is no object. -/
def field? : Json D → Key → Option (Json D)
  | .object fields, k => (fields.find? (fun f => f.1 = k)).map Prod.snd
  | _, _ => none

/-! ## Helpers -/

def requireObject (j : Json D) : Parse Unit :=
  match j.object? with
  | some _ => .ok ()
  | none => .error .invalidSchema

/-- A field that must be there and have the type that `get` reads. -/
def required {α : Type} (get : Json D → Option α) (obj : Json D) (key : Key) : Parse α :=
  match (obj.field? key).bind get with
  | some a => .ok a
  | none => .error .invalidSchema

/-- A field that may be missing, but has its type when it is there. -/
def optional {α : Type} (get : Json D → Option α) (obj : Json D) (key : Key) : Parse (Option α) := do
  requireObject obj
  match obj.field? key with
  | none => .ok none
  | some v =>
    match get v with
    | some a => .ok (some a)
    | none => .error .invalidSchema

def parseObjectRequired : Json D → Key → Parse (Json D) := required object?

def parseArrayRequired : Json D → Key → Parse (List (Json D)) := required array?

def parseBoolRequired : Json D → Key → Parse Bool := required bool?

def parseUint64Required : Json D → Key → Parse ℕ := required uint64?

def parseDoubleRequired [IntCast D] : Json D → Key → Parse D := required double?

def parseStringRequired : Json D → Key → Parse Text := required string?

def parseStringOptional : Json D → Key → Parse (Option Text) := optional string?

def parseBoolOptional : Json D → Key → Parse (Option Bool) := optional bool?

def parseUint64Optional : Json D → Key → Parse (Option ℕ) := optional uint64?

def parseStringListOptional : Json D → Key → Parse (Option (List Text)) := optional strings?

end Json

/-! ## Enumerations -/

/-- The first four bytes; a shorter text is followed by zeros. -/
def pack4 (s : Text) : Text := (s ++ ['\x00', '\x00', '\x00', '\x00']).take 4

/-- The first eight bytes. -/
def pack8 (s : Text) : Text :=
  (s ++ ['\x00', '\x00', '\x00', '\x00', '\x00', '\x00', '\x00', '\x00']).take 8

inductive Method
  | subscribe
  | unsubscribe
  | ping
  | pong
  deriving DecidableEq

/-- `kraken::Channel`, the channels of the wire; the session subscribes to trade and book. -/
inductive Feed
  | trade
  | ticker
  | book
  | heartbeat
  | status
  deriving DecidableEq

inductive Side
  | buy
  | sell
  deriving DecidableEq

inductive OrderType
  | limit
  | market
  deriving DecidableEq

inductive PayloadType
  | snapshot
  | update
  deriving DecidableEq

inductive SystemState
  | online
  | cancelOnly
  | maintenance
  | postOnly
  deriving DecidableEq

/-- The first entry whose tag is the packed text; `none` is the enumeration's `Unknown`. -/
def ofTag {α : Type} (table : List (Text × α)) (packed : Text) : Option α :=
  (table.find? (fun e => e.1 = packed)).map Prod.snd

def toMethodEnumFast (s : Text) : Option Method :=
  ofTag [(['s', 'u', 'b', 's'], .subscribe), (['u', 'n', 's', 'u'], .unsubscribe), (['p', 'i', 'n', 'g'], .ping),
    (['p', 'o', 'n', 'g'], .pong)] (pack4 s)

def toChannelEnumFast (s : Text) : Option Feed :=
  ofTag [(['t', 'r', 'a', 'd'], .trade), (['t', 'i', 'c', 'k'], .ticker), (['b', 'o', 'o', 'k'], .book),
    (['h', 'e', 'a', 'r'], .heartbeat), (['s', 't', 'a', 't'], .status)] (pack4 s)

def toSideEnumFast (s : Text) : Option Side :=
  ofTag [(['b', 'u', 'y', '\x00'], .buy), (['s', 'e', 'l', 'l'], .sell)] (pack4 s)

def toOrderTypeEnumFast (s : Text) : Option OrderType :=
  ofTag [(['l', 'i', 'm', 'i'], .limit), (['m', 'a', 'r', 'k'], .market)] (pack4 s)

def toPayloadTypeEnumFast (s : Text) : Option PayloadType :=
  ofTag [(['u', 'p', 'd', 'a', 't', 'e', '\x00', '\x00'], .update),
    (['s', 'n', 'a', 'p', 's', 'h', 'o', 't'], .snapshot)] (pack8 s)

def toSystemStateEnumFast (s : Text) : Option SystemState :=
  ofTag [(['o', 'n', 'l', 'i'], .online), (['c', 'a', 'n', 'c'], .cancelOnly), (['m', 'a', 'i', 'n'], .maintenance),
    (['p', 'o', 's', 't'], .postOnly)] (pack4 s)

/-! ## Timestamps -/

/-- Nanoseconds since 1970. -/
abbrev Timestamp := ℤ

def isSpace (c : Char) : Bool := c = ' ' || c = '\t' || c = '\n' || c = '\x0b' || c = '\x0c' || c = '\r'

def digitsValue (ds : Text) : ℕ := ds.foldl (fun v c => 10 * v + (c.toNat - '0'.toNat)) 0

/-- `strtol` and `strtoll`: the value and the number of bytes read; white space and a sign may come first. -/
def strtol (s : Text) : ℤ × ℕ :=
  let spaces := (s.takeWhile isSpace).length
  let rest := s.drop spaces
  let signed := decide (rest.head? = some '-' ∨ rest.head? = some '+')
  let digits := (rest.drop (if signed then 1 else 0)).takeWhile Char.isDigit
  if digits = [] then (0, 0)
  else
    let v : ℤ := min (digitsValue digits : ℤ) (2 ^ 63 - 1)
    (if rest.head? = some '-' then -v else v, spaces + (if signed then 1 else 0) + digits.length)

/-- `parse_int` and `parse_ll` on `len` bytes from `pos` on: the number ends just there. -/
def parseInt (s : Text) (pos len : ℕ) : Option ℤ :=
  if len ≠ 0 ∧ (strtol (s.drop pos)).2 = len then some (strtol (s.drop pos)).1 else none

def isLeap (year : ℤ) : Bool := year % 4 = 0 && (year % 100 ≠ 0 || year % 400 = 0)

/-- `year_month_day::ok`. -/
def dateOk (year month day : ℤ) : Bool :=
  let last : ℤ :=
    if month = 2 then (if isLeap year then 29 else 28)
    else if month = 4 ∨ month = 6 ∨ month = 9 ∨ month = 11 then 30 else 31
  1 ≤ month && month ≤ 12 && 1 ≤ day && day ≤ last

/-- `sys_days`: the days from 1970-01-01, counted in years that begin in March. -/
def sysDays (year month day : ℤ) : ℤ :=
  let y := if month ≤ 2 then year - 1 else year
  let m := if month > 2 then month - 3 else month + 9
  365 * y + y / 4 - y / 100 + y / 400 + (153 * m + 2) / 5 + day - 1 - 719468

/-- The optional fraction from position 19 on: the nanoseconds, and where it ends. -/
def parseFraction (s : Text) : Option (ℤ × ℕ) :=
  if s[19]? = some '.' then
    let digits := ((s.drop 20).takeWhile Char.isDigit).length
    if digits = 0 then some (0, 20)
    else
      match parseInt s 20 digits with
      | none => none
      | some frac =>
        some (if digits ≤ 9 then frac * 10 ^ (9 - digits) else frac / 10 ^ (digits - 9), 20 + digits)
  else some (0, 19)

def parseRfc3339 (s : Text) : Option Timestamp := do
  guard (20 ≤ s.length)
  let year ← parseInt s 0 4
  guard (s[4]? = some '-')
  let month ← parseInt s 5 2
  guard (s[7]? = some '-')
  let day ← parseInt s 8 2
  guard (s[10]? = some 'T' ∨ s[10]? = some 't')
  let hour ← parseInt s 11 2
  guard (s[13]? = some ':')
  let minute ← parseInt s 14 2
  guard (s[16]? = some ':')
  let sec ← parseInt s 17 2
  let (ns, pos) ← parseFraction s
  guard (s[pos]? = some 'Z')
  guard (dateOk year month day)
  return ((sysDays year month day * 24 + hour) * 60 + minute) * 60000000000 + sec * 1000000000 + ns

/-! ## Adapters -/

namespace Json

variable {D : Type}

/-- A required text that stands for a value.  An empty text stands for none, with or without a check of its own. -/
def parseEnumRequired {α : Type} (convert : Text → Option α) (obj : Json D) (key : Key) : Parse α := do
  let sv ← parseStringRequired obj key
  match convert sv with
  | some a => .ok a
  | none => .error .invalidValue

def parseMethodRequired (root : Json D) : Parse Method := parseEnumRequired toMethodEnumFast root .method

def parseChannelRequired (root : Json D) : Parse Feed := parseEnumRequired toChannelEnumFast root .channel

def parseSideRequired : Json D → Key → Parse Side := parseEnumRequired toSideEnumFast

def parsePayloadTypeRequired : Json D → Key → Parse PayloadType := parseEnumRequired toPayloadTypeEnumFast

def parseSystemStateRequired : Json D → Key → Parse SystemState := parseEnumRequired toSystemStateEnumFast

def parseTimestampRequired : Json D → Key → Parse Timestamp := parseEnumRequired parseRfc3339

/-- An optional text that stands for a value. -/
def parseEnumOptional {α : Type} (convert : Text → Option α) (obj : Json D) (key : Key) : Parse (Option α) := do
  match ← parseStringOptional obj key with
  | none => .ok none
  | some sv =>
    match convert sv with
    | some a => .ok (some a)
    | none => .error .invalidValue

def parseOrderTypeOptional : Json D → Key → Parse (Option OrderType) := parseEnumOptional toOrderTypeEnumFast

def parseTimestampOptional : Json D → Key → Parse (Option Timestamp) := parseEnumOptional parseRfc3339

/-- The text of `parse_symbol_required`, before a symbol is made of it. -/
def symbolTextRequired (obj : Json D) (key : Key) : Parse Text := do
  let sv ← parseStringRequired obj key
  if sv = [] then .error .invalidValue else .ok sv

/-- The text of `parse_symbol_optional`. -/
def symbolTextOptional (obj : Json D) (key : Key) : Parse (Option Text) := do
  match ← parseStringOptional obj key with
  | none => .ok none
  | some sv => if sv = [] then .error .invalidValue else .ok (some sv)

end Json

example : parseRfc3339 ['2', '0', '2', '5', '-', '1', '2', '-', '2', '0', 'T', '0', '8', ':', '3', '9', ':', '2', '8',
    '.', '8', 'Z'] = some 1766219968800000000 := by decide

end Wirekrak.Protocol
