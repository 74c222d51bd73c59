import Wirekrak.Lib.JsonText
import Mathlib.Tactic.IntervalCases

/-!
# Wirekrak.Protocol.Encoding — the JSON texts of subscription requests, and reading them back

A text is the list of its bytes, each written as a character.  The writers put a request together from literals, the
escaper and the digit writer; a request type has its own fields, the order of the parts is the same for all.

* `append_eq`: the digit writer's buffer suffices, and what it writes is the number in base ten.
* `escapes_escapeChar`: every byte is written so that a JSON reader gets it back.
* `decode_writeJson`: a JSON reader gets one object from the text, and from the object every field of the
  request; an option that is absent from the request is absent from the object.
-/

namespace Wirekrak.Protocol.Schema

open Wirekrak.Lib

/-! ## `lcr::json` -/

/-- The bytes of a literal. -/
@[irreducible] def literal (s : String) : List Char := s.toList

/-- The digits, written backwards into a buffer with `room` bytes left. -/
def appendLoop : ℕ → UInt64 → List Char → Option (List Char)
  | 0, _, _ => none
  | room + 1, value, buf =>
    let buf := Char.ofNat ('0'.toNat + (value % 10).toNat) :: buf
    if 0 < value / 10 then appendLoop room (value / 10) buf else some buf

/-- The text of a number; `buf` has 32 bytes. -/
def append (value : UInt64) : List Char := (appendLoop 32 value []).getD []

def HEX : List Char := "0123456789ABCDEF".toList

def escapeChar (c : Char) : List Char :=
  if c = '"' then ['\\', '"']
  else if c = '\\' then ['\\', '\\']
  else if c = '\x08' then ['\\', 'b']
  else if c = '\x0c' then ['\\', 'f']
  else if c = '\n' then ['\\', 'n']
  else if c = '\r' then ['\\', 'r']
  else if c = '\t' then ['\\', 't']
  else if c.toNat ≤ 0x1F then ['\\', 'u', '0', '0', HEX.getD (c.toNat / 16 % 16) '0', HEX.getD (c.toNat % 16) '0']
  else [c]

/-- What `json::escape` writes for a string. -/
def escape (s : List Char) : List Char := s.flatMap escapeChar

theorem appendLoop_eq : ∀ (room : ℕ) (value : UInt64) (buf : List Char), value.toNat < 10 ^ room → 0 < room →
    appendLoop room value buf = some (Nat.toDigits 10 value.toNat ++ buf)
  | 0, _, _, _, h => absurd h (by decide)
  | room + 1, value, buf, hv, _ => by
    have hd : Char.ofNat ('0'.toNat + (value % 10).toNat) = (value.toNat % 10).digitChar := by
      have h10 : value.toNat % 10 < 10 := Nat.mod_lt _ (by decide)
      rw [show (value % 10).toNat = value.toNat % 10 from by simp]
      generalize value.toNat % 10 = d at h10
      interval_cases d <;> rfl
    have hq : (value / 10).toNat = value.toNat / 10 := by simp
    have hpos : 0 < value / 10 ↔ 10 ≤ value.toNat := by
      rw [UInt64.lt_iff_toNat_lt, hq]
      simp
    rw [appendLoop]
    by_cases h : 10 ≤ value.toNat
    · have hroom : 0 < room := by
        rcases room with _ | room
        · simp at hv
          omega
        · exact Nat.succ_pos room
      have ih := appendLoop_eq room (value / 10) (Char.ofNat ('0'.toNat + (value % 10).toNat) :: buf)
        (by rw [hq, Nat.div_lt_iff_lt_mul (by decide)]; rwa [Nat.pow_succ] at hv) hroom
      rw [if_pos (hpos.mpr h), ih, hq, Nat.toDigits_of_base_le (by decide) h, hd, List.append_assoc]
      rfl
    · rw [if_neg (fun h' => h (hpos.mp h')), Nat.toDigits_of_lt_base (Nat.not_le.mp h), hd,
        Nat.mod_eq_of_lt (by omega)]
      rfl

/-- **The digit writer** never runs out of its buffer, and writes the number in base ten. -/
theorem append_eq (value : UInt64) : append value = Nat.toDigits 10 value.toNat := by
  have := appendLoop_eq 32 value [] (by have := value.toNat_lt; omega) (by decide)
  rw [append, this, List.append_nil]
  rfl

/-- **The escaper** writes every byte so that a reader gets it back. -/
theorem escapes_escapeChar : JsonText.Escapes escapeChar := by
  intro c
  rcases Nat.lt_or_ge c.toNat 0x20 with h | h
  · right
    rw [← Char.ofNat_toNat c]
    generalize c.toNat = n at h
    interval_cases n <;> exact ⟨_, rfl, fun r => rfl⟩
  · have hc : ∀ d : Char, d.toNat < 0x20 → c ≠ d := by
      rintro d hd rfl
      omega
    by_cases hq : c = '"'
    · right
      subst hq
      exact ⟨_, rfl, fun r => rfl⟩
    by_cases hb : c = '\\'
    · right
      subst hb
      exact ⟨_, rfl, fun r => rfl⟩
    left
    refine ⟨?_, hq, hb, h⟩
    rw [escapeChar, if_neg hq, if_neg hb, if_neg (hc _ (by decide)), if_neg (hc _ (by decide)),
      if_neg (hc _ (by decide)), if_neg (hc _ (by decide)), if_neg (hc _ (by decide)), if_neg (by omega)]

/-! ## The writers -/

/-- The loop over the symbols: each in quotes, with a comma behind it unless it is the last. -/
def writeSymbols : List (List Char) → List Char
  | [] => []
  | s :: rest => '"' :: (escape s ++ '"' :: ((if rest = [] then [] else [',']) ++ writeSymbols rest))

/-- A part that is written if the option is there. -/
def writeOption {α : Type} (key : String) (write : α → List Char) : Option α → List Char
  | some a => literal key ++ write a
  | none => []

def writeBool (b : Bool) : List Char := if b then literal "true" else literal "false"

/-- The common shape of the writers: the prefix with method and channel, the symbols, and the parts that are present. -/
def writeRequest (method channel : String) (symbols : List (List Char)) (depth : Option UInt32)
    (snapshot : Option Bool) (reqId : Option UInt64) : List Char :=
  literal "\x7b\"method\":\"" ++ literal method ++ literal "\",\"params\":\x7b\"channel\":\"" ++ literal channel ++
    literal "\",\"symbol\":[" ++ writeSymbols symbols ++ [']'] ++
    writeOption ",\"depth\":" (fun d => append d.toUInt64) depth ++
    writeOption ",\"snapshot\":" writeBool snapshot ++
    ['}'] ++
    writeOption ",\"req_id\":" append reqId ++
    ['}']

namespace Trade

structure Subscribe where
  symbols : List (List Char)
  snapshot : Option Bool := none
  reqId : Option UInt64 := none

structure Unsubscribe where
  symbols : List (List Char)
  reqId : Option UInt64 := none

def Subscribe.writeJson (r : Subscribe) : List Char :=
  writeRequest "subscribe" "trade" r.symbols none r.snapshot r.reqId

def Unsubscribe.writeJson (r : Unsubscribe) : List Char :=
  writeRequest "unsubscribe" "trade" r.symbols none none r.reqId

end Trade

namespace Book

structure Subscribe where
  symbols : List (List Char)
  depth : Option UInt32 := none
  snapshot : Option Bool := none
  reqId : Option UInt64 := none

structure Unsubscribe where
  symbols : List (List Char)
  depth : Option UInt32 := none
  reqId : Option UInt64 := none

def Subscribe.writeJson (r : Subscribe) : List Char :=
  writeRequest "subscribe" "book" r.symbols r.depth r.snapshot r.reqId

def Unsubscribe.writeJson (r : Unsubscribe) : List Char :=
  writeRequest "unsubscribe" "book" r.symbols r.depth none r.reqId

end Book

/-- The requests whose text has no fixed bound. -/
inductive DynamicRequest
  | tradeSubscribe (r : Trade.Subscribe)
  | tradeUnsubscribe (r : Trade.Unsubscribe)
  | bookSubscribe (r : Book.Subscribe)
  | bookUnsubscribe (r : Book.Unsubscribe)

def DynamicRequest.writeJson : DynamicRequest → List Char
  | .tradeSubscribe r => r.writeJson
  | .tradeUnsubscribe r => r.writeJson
  | .bookSubscribe r => r.writeJson
  | .bookUnsubscribe r => r.writeJson

/-! ## What a request says -/

/-- What a request says, and what a reader finds in its text. -/
structure Content where
  method : List Char
  channel : List Char
  symbols : List (List Char)
  depth : Option ℤ
  snapshot : Option Bool
  reqId : Option ℤ
  deriving DecidableEq

def DynamicRequest.content : DynamicRequest → Content
  | .tradeSubscribe r => ⟨"subscribe".toList, "trade".toList, r.symbols, none, r.snapshot,
      r.reqId.map fun n => n.toNat⟩
  | .tradeUnsubscribe r => ⟨"unsubscribe".toList, "trade".toList, r.symbols, none, none,
      r.reqId.map fun n => n.toNat⟩
  | .bookSubscribe r => ⟨"subscribe".toList, "book".toList, r.symbols, r.depth.map fun n => n.toNat, r.snapshot,
      r.reqId.map fun n => n.toNat⟩
  | .bookUnsubscribe r => ⟨"unsubscribe".toList, "book".toList, r.symbols, r.depth.map fun n => n.toNat, none,
      r.reqId.map fun n => n.toNat⟩

/-- What the fields of an object say: the names of a request's fields are looked up, a missing optional field is absent,
and a field of a wrong type is an error. -/
def decode (v : JsonText.Value) : Option Content := do
  let method ← (← v.field? "method".toList).string?
  let params ← v.field? "params".toList
  let channel ← (← params.field? "channel".toList).string?
  let symbols ← (← params.field? "symbol".toList).array?
  return {
    method, channel
    symbols := ← symbols.mapM JsonText.Value.string?
    depth := ← (params.field? "depth".toList).mapM JsonText.Value.int?
    snapshot := ← (params.field? "snapshot".toList).mapM JsonText.Value.bool?
    reqId := ← (v.field? "req_id".toList).mapM JsonText.Value.int? }

/-- The fields of `params`. -/
def requestParams (channel : String) (symbols : List (List Char)) (depth : Option UInt32) (snapshot : Option Bool) :
    List (List Char × JsonText.Value) :=
  ("channel".toList, .string channel.toList) :: ("symbol".toList, .array (symbols.map .string)) ::
    ((depth.map fun d => ("depth".toList, JsonText.Value.number d.toNat 0)).toList ++
      (snapshot.map fun b => ("snapshot".toList, JsonText.Value.bool b)).toList)

/-- The JSON value that `writeRequest` writes. -/
def requestValue (method channel : String) (symbols : List (List Char)) (depth : Option UInt32)
    (snapshot : Option Bool) (reqId : Option UInt64) : JsonText.Value :=
  .object (("method".toList, .string method.toList) ::
    ("params".toList, .object (requestParams channel symbols depth snapshot)) ::
    (reqId.map fun n => ("req_id".toList, JsonText.Value.number n.toNat 0)).toList)

theorem printElements_strings : ∀ symbols : List (List Char),
    JsonText.printElements escapeChar (symbols.map JsonText.Value.string) =
      (if symbols = [] then [] else [',']) ++ writeSymbols symbols ++ [']']
  | [] => rfl
  | s :: rest => by
    rw [List.map_cons, JsonText.printElements, printElements_strings rest]
    simp [JsonText.print, JsonText.quote, writeSymbols, escape]

theorem print_strings (symbols : List (List Char)) :
    JsonText.print escapeChar (.array (symbols.map JsonText.Value.string)) =
      '[' :: (writeSymbols symbols ++ [']']) := by
  cases symbols with
  | nil => rfl
  | cons s rest =>
    rw [List.map_cons, JsonText.print, printElements_strings rest]
    simp [JsonText.print, JsonText.quote, writeSymbols, escape]

theorem print_number (n : ℕ) : JsonText.print escapeChar (.number n 0) = Nat.toDigits 10 n := by
  rw [JsonText.print, JsonText.printNumber, JsonText.printInt]
  simp

theorem print_bool (b : Bool) : JsonText.print escapeChar (.bool b) = writeBool b := by
  cases b <;> simp [writeBool, literal, JsonText.print]

theorem quote_plain {k : List Char} (hk : escape k = k) : JsonText.quote escapeChar k = '"' :: (k ++ ['"']) := by
  rw [escape] at hk
  rw [JsonText.quote, hk]

/-- A member that may be absent. -/
theorem printMembers_option {α : Type} {k : List Char} (hk : escape k = k) (f : α → JsonText.Value)
    {key : String} (hkey : literal key = ',' :: '"' :: (k ++ ['"', ':'])) (write : α → List Char)
    (hf : ∀ a, JsonText.print escapeChar (f a) = write a) (o : Option α) (ms : List (List Char × JsonText.Value)) :
    JsonText.printMembers escapeChar ((o.map fun a => (k, f a)).toList ++ ms) =
      writeOption key write o ++ JsonText.printMembers escapeChar ms := by
  cases o with
  | none => rfl
  | some a => simp [JsonText.printMembers, quote_plain hk, writeOption, hkey, hf]

/-- The writers put together the compact text of that value. -/
theorem writeRequest_eq {method channel : String} (hm : escape method.toList = method.toList)
    (hc : escape channel.toList = channel.toList) (symbols : List (List Char)) (depth : Option UInt32)
    (snapshot : Option Bool) (reqId : Option UInt64) :
    writeRequest method channel symbols depth snapshot reqId =
      JsonText.print escapeChar (requestValue method channel symbols depth snapshot reqId) := by
  have hd := printMembers_option (k := "depth".toList) (by decide +kernel) (fun d : UInt32 => .number d.toNat 0)
    (show literal ",\"depth\":" = _ by decide +kernel) (fun d => append d.toUInt64)
    (fun d => by rw [print_number, append_eq, UInt32.toNat_toUInt64]) depth
  have hs := printMembers_option (k := "snapshot".toList) (by decide +kernel) JsonText.Value.bool
    (show literal ",\"snapshot\":" = _ by decide +kernel) writeBool print_bool snapshot []
  have hr := printMembers_option (k := "req_id".toList) (by decide +kernel) (fun n : UInt64 => .number n.toNat 0)
    (show literal ",\"req_id\":" = _ by decide +kernel) append (fun n => by rw [print_number, append_eq]) reqId []
  rw [List.append_nil] at hs hr
  rw [requestValue, requestParams, JsonText.print, JsonText.printMembers, hr, JsonText.print, JsonText.print,
    JsonText.printMembers, JsonText.printMembers, print_strings, hd, hs, JsonText.print, quote_plain hm, quote_plain hc,
    quote_plain (k := "method".toList) (by decide +kernel), quote_plain (k := "params".toList) (by decide +kernel),
    quote_plain (k := "channel".toList) (by decide +kernel), quote_plain (k := "symbol".toList) (by decide +kernel)]
  simp [writeRequest, literal, JsonText.printMembers]

theorem mapM_string (symbols : List (List Char)) :
    (symbols.map JsonText.Value.string).mapM JsonText.Value.string? = some symbols := by
  induction symbols with
  | nil => rfl
  | cons s rest ih => simp [List.mapM_cons, ih, JsonText.Value.string?]

theorem field_params (channel : String) (symbols : List (List Char)) (depth : Option UInt32) (snapshot : Option Bool) :
    (JsonText.Value.object (requestParams channel symbols depth snapshot)).field? "channel".toList =
        some (.string channel.toList) ∧
      (JsonText.Value.object (requestParams channel symbols depth snapshot)).field? "symbol".toList =
        some (.array (symbols.map .string)) ∧
      (JsonText.Value.object (requestParams channel symbols depth snapshot)).field? "depth".toList =
        depth.map (fun d => .number d.toNat 0) ∧
      (JsonText.Value.object (requestParams channel symbols depth snapshot)).field? "snapshot".toList =
        snapshot.map .bool := by
  unfold requestParams
  refine ⟨JsonText.Value.field?_cons_self _ _ _, ?_, ?_, ?_⟩
  · rw [JsonText.Value.field?_cons_of_ne (by decide +kernel)]
    exact JsonText.Value.field?_cons_self _ _ _
  · rw [JsonText.Value.field?_cons_of_ne (by decide +kernel), JsonText.Value.field?_cons_of_ne (by decide +kernel)]
    cases depth with
    | none =>
      cases snapshot with
      | none => rfl
      | some b => exact JsonText.Value.field?_cons_of_ne (by decide +kernel) _ _
    | some d => exact JsonText.Value.field?_cons_self _ _ _
  · rw [JsonText.Value.field?_cons_of_ne (by decide +kernel), JsonText.Value.field?_cons_of_ne (by decide +kernel)]
    have hdepth : ∀ ms, (JsonText.Value.object ((depth.map fun d => ("depth".toList,
        JsonText.Value.number d.toNat 0)).toList ++ ms)).field? "snapshot".toList =
        (JsonText.Value.object ms).field? "snapshot".toList := by
      intro ms
      cases depth with
      | none => rfl
      | some d => exact JsonText.Value.field?_cons_of_ne (by decide +kernel) _ _
    rw [hdepth]
    cases snapshot with
    | none => rfl
    | some b => exact JsonText.Value.field?_cons_self _ _ _

theorem decode_requestValue (method channel : String) (symbols : List (List Char)) (depth : Option UInt32)
    (snapshot : Option Bool) (reqId : Option UInt64) :
    decode (requestValue method channel symbols depth snapshot reqId) =
      some ⟨method.toList, channel.toList, symbols, depth.map fun n => n.toNat, snapshot,
        reqId.map fun n => n.toNat⟩ := by
  obtain ⟨hc, hs, hd, hn⟩ := field_params channel symbols depth snapshot
  have hm : (requestValue method channel symbols depth snapshot reqId).field? "method".toList =
      some (.string method.toList) := JsonText.Value.field?_cons_self _ _ _
  have hp : (requestValue method channel symbols depth snapshot reqId).field? "params".toList =
      some (.object (requestParams channel symbols depth snapshot)) := by
    unfold requestValue
    rw [JsonText.Value.field?_cons_of_ne (by decide +kernel)]
    exact JsonText.Value.field?_cons_self _ _ _
  have hr : (requestValue method channel symbols depth snapshot reqId).field? "req_id".toList =
      reqId.map fun n => .number n.toNat 0 := by
    unfold requestValue
    rw [JsonText.Value.field?_cons_of_ne (by decide +kernel), JsonText.Value.field?_cons_of_ne (by decide +kernel)]
    cases reqId with
    | none => rfl
    | some n => exact JsonText.Value.field?_cons_self _ _ _
  have hint : ∀ n : ℕ, (JsonText.Value.number n 0).int? = some (n : ℤ) := fun n => by simp [JsonText.Value.int?]
  simp only [decode, hm, hp, hc, hs, hd, hn, hr, Option.bind_eq_bind, Option.bind_some, JsonText.Value.string?,
    JsonText.Value.array?, mapM_string]
  cases depth <;> cases snapshot <;> cases reqId <;> simp [hint, JsonText.Value.bool?]

theorem DynamicRequest.writeJson_eq (r : DynamicRequest) :
    ∃ method channel symbols depth snapshot reqId,
      r.writeJson = JsonText.print escapeChar (requestValue method channel symbols depth snapshot reqId) ∧
      r.content = ⟨method.toList, channel.toList, symbols, depth.map fun n => n.toNat, snapshot,
        reqId.map fun n => n.toNat⟩ := by
  cases r <;> exact ⟨_, _, _, _, _, _, writeRequest_eq (by decide +kernel) (by decide +kernel) _ _ _ _, rfl⟩

/-- **Requests can be read back.**  A JSON reader takes the text of a request as one object and nothing else, and finds
in it the method, the channel, the symbols in order and the options of the request, no more and no less. -/
theorem decode_writeJson (r : DynamicRequest) :
    ∃ ms, JsonText.read r.writeJson = some (.object ms) ∧ decode (.object ms) = some r.content := by
  obtain ⟨method, channel, symbols, depth, snapshot, reqId, hw, hc⟩ := r.writeJson_eq
  have hr := JsonText.read_print escapes_escapeChar (requestValue method channel symbols depth snapshot reqId)
  have hd := decode_requestValue method channel symbols depth snapshot reqId
  rw [← hw] at hr
  rw [← hc] at hd
  exact ⟨_, hr, hd⟩

end Wirekrak.Protocol.Schema
