import Wirekrak.Protocol.MarketData

/-!
# Wirekrak.Protocol.ControlPlane — the control-plane parsers against the schema of their messages

The parsers of ACKs, rejection notices, pongs and status updates, with all that they write into their output.  An ACK
and a pong are written into an output that is not reset, and what a message does not say stays what it was: `item` is
what the message says.

* `AckDoc`, `NoticeDoc`, `PongDoc`, `StatusDoc`: the schema, in a given reading of the texts and the numbers.
* `parseAckInto_ok`, `parseNoticeInto_ok`, `parsePongInto_ok`, `parseStatusInto_ok`: the parsers follow it, in the
  code's reading; `parseAckInto_eq` and the like: they are those of the router.
* `control_plane_exact_iff`: where the parsers are exact.
-/

namespace Wirekrak.Protocol

open Wirekrak.Lib Json

variable {D : Type}

/-! ## The messages -/

/-- What ACKs, notices and pongs have in common. -/
structure Envelope where
  reqId : Option ReqId
  timeIn : Option Timestamp
  timeOut : Option Timestamp

/-- The four ACKs in one record: a trade ACK has no depth, and an ACK of an unsubscription neither snapshot nor
warnings. -/
structure AckMessage extends Envelope where
  success : Bool
  symbol : Symbol
  depth : BitVec 32
  snapshot : Option Bool
  warnings : List Text
  error : Option Text

/-- `schema::rejection::Notice`. -/
structure NoticeMessage extends Envelope where
  error : Text
  symbol : Option Symbol

/-- `schema::system::Pong`. -/
structure PongMessage extends Envelope where
  success : Option Bool
  warnings : List Text
  error : Option Text

/-- `schema::status::Update`. -/
structure StatusMessage where
  system : SystemState
  apiVersion : Text
  connectionId : Option ℕ
  version : Option Text

/-! ## The parsers -/

/-- `time_in` and `time_out`, as they are stored. -/
def parseStamps (root : Json D) : Parse (Option Timestamp × Option Timestamp) := do
  let timeIn ← parseTimestampOptional root .timeIn
  let timeOut ← parseTimestampOptional root .timeOut
  return (timeIn.map fun t => Int.bmod t (2 ^ 64), timeOut.map fun t => Int.bmod t (2 ^ 64))

def parseEnvelope (root : Json D) : Parse Envelope := do
  let reqId ← parseUint64Optional root .reqId
  let (timeIn, timeOut) ← parseStamps root
  return ⟨reqId, timeIn, timeOut⟩

/-- Only a book ACK has a depth; it is stored in 32 bits. -/
def parseAckDepth (ch : Channel) (result : Json D) (out : AckMessage) : Parse AckMessage :=
  match ch with
  | .trade => .ok out
  | .book => do return { out with depth := BitVec.ofNat 32 (← parseUint64Required result .depth) }

/-- The fields that only a subscribe ACK has. -/
def parseAckOptions (kind : Kind) (result : Json D) (out : AckMessage) : Parse AckMessage :=
  match kind with
  | .unsubscribe => .ok out
  | .subscribe => do
    let snapshot ← parseBoolOptional result .snapshot
    let warnings ← parseStringListOptional result .warnings
    return { out with snapshot, warnings := warnings.getD [] }

/-- An ACK that reports success. -/
def parseAckResult (ch : Channel) (kind : Kind) (root : Json D) (out : AckMessage) : Exec AckMessage := do
  let result ← (parseObjectRequired root .result).lift
  let symbol ← Symbol.ofText (← (symbolTextRequired result .symbol).lift)
  let out ← (parseAckDepth ch result { out with symbol }).lift
  let out ← (parseAckOptions kind result out).lift
  (fieldAbsent root .error).lift
  return out

/-- Only a trade ACK that reports failure must not have a `result`. -/
def resultAbsent (ch : Channel) (root : Json D) : Parse Unit :=
  match ch with
  | .trade => fieldAbsent root .result
  | .book => .ok ()

/-- An ACK that reports failure. -/
def parseAckError (ch : Channel) (root : Json D) (out : AckMessage) : Parse AckMessage := do
  let error ← parseStringRequired root .error
  resultAbsent ch root
  return { out with error := some error }

def parseAckBody (ch : Channel) (kind : Kind) (root : Json D) (out : AckMessage) : Exec AckMessage :=
  if out.success then parseAckResult ch kind root out else (parseAckError ch root out).lift

/-- `parse_ack_common` of the trade and of the book channel. -/
def parseAckInto (ch : Channel) (kind : Kind) (root : Json D) (out : AckMessage) : Exec AckMessage := do
  (requireObject root).lift
  let success ← (parseBoolRequired root .success).lift
  let out ← parseAckBody ch kind root { out with success }
  let envelope ← (parseEnvelope root).lift
  return { out with toEnvelope := envelope }

/-- `rejection_notice::parse`: the output is reset. -/
def parseNoticeInto (root : Json D) (_out : NoticeMessage) : Exec NoticeMessage := do
  (requireObject root).lift
  let error ← (parseStringRequired root .error).lift
  let reqId ← (parseUint64Optional root .reqId).lift
  let symbol ← Symbol.ofOption (← (symbolTextOptional root .symbol).lift)
  let (timeIn, timeOut) ← (parseStamps root).lift
  return ⟨⟨reqId, timeIn, timeOut⟩, error, symbol⟩

/-- `pong::parse`: a pong may come without `success`. -/
def parsePongInto (root : Json D) (out : PongMessage) : Parse PongMessage := do
  requireObject root
  let envelope ← parseEnvelope root
  let success ← parseBoolOptional root .success
  let out := { out with toEnvelope := envelope, success }
  match success with
  | none => return out
  | some true =>
    let result ← parseObjectRequired root .result
    let warnings ← parseStringListOptional result .warnings
    return { out with warnings := warnings.getD [] }
  | some false =>
    let error ← parseStringRequired root .error
    return { out with error := some error }

def parseStatusFields (obj : Json D) : Parse StatusMessage := do
  let system ← parseSystemStateRequired obj .system
  let apiVersion ← parseStringRequired obj .apiVersion
  let connectionId ← parseUint64Optional obj .connectionId
  let version ← parseStringOptional obj .version
  return ⟨system, apiVersion, connectionId, version⟩

/-- `status::update::parse`, every field of which is written; elements behind the first are not looked at. -/
def parseStatusInto (root : Json D) (_out : StatusMessage) : Exec StatusMessage := do
  let first ← (statusHead root).lift
  match first.object? with
  | none => .error (.trap .uncaught)
  | some obj => (parseStatusFields obj).lift

/-! ## What a message says -/

/-- An ACK without its envelope. -/
inductive AckBody
  | accepted (symbol : Text) (depth : Option (BitVec 32)) (options : Option (Option Bool × List Text))
  | refused (error : Text)

/-- What only the ACKs of the book channel have. -/
def Channel.ofBook {α : Type} (ch : Channel) (a : α) : Option α :=
  match ch with
  | .trade => none
  | .book => some a

/-- What only the ACKs of a subscription have. -/
def Kind.ofSubscribe {α : Type} (kind : Kind) (a : α) : Option α :=
  match kind with
  | .subscribe => some a
  | .unsubscribe => none

def AckMessage.body (ch : Channel) (kind : Kind) (a : AckMessage) : AckBody :=
  if a.success then .accepted a.symbol.text (ch.ofBook a.depth) (kind.ofSubscribe (a.snapshot, a.warnings))
  else .refused (a.error.getD [])

def AckMessage.item (ch : Channel) (kind : Kind) (a : AckMessage) : AckBody × Envelope := (a.body ch kind, a.toEnvelope)

/-- A notice with the text of its symbol. -/
structure NoticeItem extends Envelope where
  error : Text
  symbol : Option Text

def NoticeMessage.item (n : NoticeMessage) : NoticeItem := ⟨n.toEnvelope, n.error, n.symbol.map Symbol.text⟩

inductive PongBody
  | bare
  | accepted (warnings : List Text)
  | refused (error : Text)

def PongMessage.body (p : PongMessage) : PongBody :=
  match p.success with
  | none => .bare
  | some true => .accepted p.warnings
  | some false => .refused (p.error.getD [])

def PongMessage.item (p : PongMessage) : PongBody × Envelope := (p.body, p.toEnvelope)

/-! ## The schema -/

/-- How the texts and the numbers of the control plane are read. -/
structure ControlReadings extends Readings where
  system : Text → SystemState → Prop
  depth : ℕ → BitVec 32 → Prop

def ControlReadings.schema : ControlReadings where
  toReadings := .schema
  system s v := SystemState.toString (some v) = s
  depth n d := d.toNat = n

def ControlReadings.code : ControlReadings where
  toReadings := .code
  system s v := toSystemStateEnumFast s = some v
  depth n d := d = BitVec.ofNat 32 n

/-- A field that may be missing, and has its type when it is there. -/
def Given {α : Type} (get : Json D → Option α) (obj : Json D) (key : Key) (o : Option α) : Prop :=
  (obj.field? key = none ∧ o = none) ∨ ∃ a, (obj.field? key).bind get = some a ∧ o = some a

structure EnvelopeDoc (R : Readings) (root : Json D) (e : Envelope) : Prop where
  reqId : Given uint64? root .reqId e.reqId
  timeIn : FieldOpt root .timeIn R.time e.timeIn
  timeOut : FieldOpt root .timeOut R.time e.timeOut

def DepthDoc (R : ControlReadings) (ch : Channel) (result : Json D) (depth : Option (BitVec 32)) : Prop :=
  match ch with
  | .trade => depth = none
  | .book => ∃ n d, (result.field? .depth).bind uint64? = some n ∧ R.depth n d ∧ depth = some d

def OptionsDoc (kind : Kind) (result : Json D) (options : Option (Option Bool × List Text)) : Prop :=
  match kind with
  | .unsubscribe => options = none
  | .subscribe => ∃ snapshot warnings, Given bool? result .snapshot snapshot ∧
    Given strings? result .warnings warnings ∧ options = some (snapshot, warnings.getD [])

/-- An ACK has a `result` and no `error`, or an `error`. -/
inductive AckBodyDoc (R : ControlReadings) (ch : Channel) (kind : Kind) (root : Json D) : AckBody → Prop
  | accepted {result : Json D} {symbol : Text} {depth : Option (BitVec 32)}
      {options : Option (Option Bool × List Text)} : (root.field? .success).bind bool? = some true →
      (root.field? .result).bind object? = some result → Field result .symbol R.symbol symbol →
      DepthDoc R ch result depth → OptionsDoc kind result options → root.field? .error = none →
      AckBodyDoc R ch kind root (.accepted symbol depth options)
  | refused {error : Text} : (root.field? .success).bind bool? = some false → text? root .error = some error →
      (ch = .trade → root.field? .result = none) → AckBodyDoc R ch kind root (.refused error)

def AckDoc (R : ControlReadings) (ch : Channel) (kind : Kind) (root : Json D) (m : AckBody × Envelope) : Prop :=
  AckBodyDoc R ch kind root m.1 ∧ EnvelopeDoc R.toReadings root m.2

structure NoticeDoc (R : ControlReadings) (root : Json D) (n : NoticeItem) : Prop where
  error : text? root .error = some n.error
  symbol : FieldOpt root .symbol R.symbol n.symbol
  envelope : EnvelopeDoc R.toReadings root n.toEnvelope

/-- The body of a pong does not depend on a reading. -/
inductive PongBodyDoc (root : Json D) : PongBody → Prop
  | bare : root.field? .success = none → PongBodyDoc root .bare
  | accepted {result : Json D} {warnings : Option (List Text)} : (root.field? .success).bind bool? = some true →
      (root.field? .result).bind object? = some result → Given strings? result .warnings warnings →
      PongBodyDoc root (.accepted (warnings.getD []))
  | refused {error : Text} : (root.field? .success).bind bool? = some false → text? root .error = some error →
      PongBodyDoc root (.refused error)

def PongDoc (R : ControlReadings) (root : Json D) (m : PongBody × Envelope) : Prop :=
  root.object?.isSome = true ∧ PongBodyDoc root m.1 ∧ EnvelopeDoc R.toReadings root m.2

structure StatusElem (R : ControlReadings) (obj : Json D) (u : StatusMessage) : Prop where
  system : Field obj .system R.system u.system
  apiVersion : text? obj .apiVersion = some u.apiVersion
  connectionId : Given uint64? obj .connectionId u.connectionId
  version : Given string? obj .version u.version

/-- The first element of `data` is the update. -/
def StatusDoc (R : ControlReadings) (root : Json D) (u : StatusMessage) : Prop :=
  ∃ first rest, (root.field? .data).bind array? = some (first :: rest) ∧ StatusElem R first u

/-! ## The parsers in the code's reading -/

section Parsers

theorem optional_ok {α : Type} {get : Json D → Option α} {obj : Json D} (hobj : obj.object?.isSome = true) {key : Key}
    {o : Option α} : Json.optional get obj key = .ok o ↔ Given get obj key o := by
  have hreq : requireObject obj = .ok () := requireObject_ok.mpr hobj
  unfold Json.optional Given
  rw [hreq]
  cases obj.field? key with
  | none => simp [bind, Except.bind, eq_comm]
  | some v => cases hv : get v <;> simp [bind, Except.bind, hv, eq_comm]

theorem fieldAbsent_ok {obj : Json D} {key : Key} {u : Unit} : fieldAbsent obj key = .ok u ↔ obj.field? key = none := by
  unfold fieldAbsent
  cases obj.field? key <;> simp

theorem symbolOption_ok {obj : Json D} (hobj : obj.object?.isSome = true) {key : Key} {o : Option Symbol} :
    (∃ t, symbolTextOptional obj key = .ok t ∧ Symbol.ofOption t = .ok o) ↔
      FieldOpt obj key Readings.code.symbol (o.map Symbol.text) := by
  simp only [symbolTextOptional, parseStringOptional, except_bind_ok, optional_ok hobj, ofOption_ok]
  constructor
  · rintro ⟨t, ⟨_, ⟨habsent, rfl⟩ | ⟨s, hs, rfl⟩, h⟩, ht⟩
    · cases h
      exact Or.inl ⟨habsent, ht⟩
    · by_cases hnil : s = []
      · simp [hnil] at h
      · simp only [hnil, if_false] at h
        cases h
        obtain ⟨y, rfl, rfl⟩ := Option.map_eq_some_iff.mp ht
        exact Or.inr ⟨y.text, y.text, hs, ⟨⟨hnil, y.property⟩, rfl⟩, rfl⟩
  · rintro (⟨habsent, ho⟩ | ⟨s, y, hs, ⟨⟨hnil, -⟩, hy⟩, ho⟩)
    · exact ⟨none, ⟨none, Or.inl ⟨habsent, rfl⟩, rfl⟩, ho⟩
    · rw [hy] at ho
      exact ⟨some s, ⟨some s, Or.inr ⟨s, hs, rfl⟩, if_neg hnil⟩, ho⟩

section Object

variable {root : Json D} (hobj : root.object?.isSome = true)

include hobj

theorem parseStamps_ok {times : Option Timestamp × Option Timestamp} : parseStamps root = .ok times ↔
    FieldOpt root .timeIn Readings.code.time times.1 ∧ FieldOpt root .timeOut Readings.code.time times.2 := by
  simp only [parseStamps, except_bind_ok, parseTimestampOptional, parseEnumOptional_ok hobj, fieldOpt_stored]
  constructor
  · rintro ⟨t, ht, u, hu, h⟩
    cases h
    exact ⟨⟨t, ht, rfl⟩, u, hu, rfl⟩
  · rintro ⟨⟨t, ht, h1⟩, u, hu, h2⟩
    exact ⟨t, ht, u, hu, congrArg Except.ok (Prod.ext h1 h2)⟩

theorem parseEnvelope_ok {e : Envelope} : parseEnvelope root = .ok e ↔ EnvelopeDoc .code root e := by
  simp only [parseEnvelope, except_bind_ok, parseUint64Optional, optional_ok hobj, parseStamps_ok hobj]
  constructor
  · rintro ⟨reqId, hid, times, ⟨hin, hout⟩, h⟩
    cases h
    exact ⟨hid, hin, hout⟩
  · rintro ⟨hid, hin, hout⟩
    exact ⟨e.reqId, hid, (e.timeIn, e.timeOut), ⟨hin, hout⟩, rfl⟩

end Object

theorem object_of_object? {root result : Json D} {key : Key} (h : (root.field? key).bind object? = some result) :
    result.object?.isSome = true := by
  obtain ⟨v, -, hv⟩ := Option.bind_eq_some_iff.mp h
  cases v with
  | object fields => cases hv; rfl
  | _ => cases hv

theorem ofBook_of_doc {R : ControlReadings} {ch : Channel} {result : Json D} {depth : Option (BitVec 32)}
    (h : DepthDoc R ch result depth) (x : BitVec 32) : ch.ofBook (depth.getD x) = depth := by
  cases ch with
  | trade => exact (Eq.symm h)
  | book =>
    obtain ⟨n, d, -, -, rfl⟩ := h
    rfl

theorem ofSubscribe_of_doc {kind : Kind} {result : Json D} {options : Option (Option Bool × List Text)}
    (h : OptionsDoc kind result options) (x : Option Bool) (y : List Text) :
    kind.ofSubscribe ((options.map Prod.fst).getD x, (options.map Prod.snd).getD y) = options := by
  cases kind with
  | unsubscribe => exact (Eq.symm h)
  | subscribe =>
    obtain ⟨snapshot, warnings, -, -, rfl⟩ := h
    rfl

theorem parseAckDepth_ok {ch : Channel} {result : Json D} {out r : AckMessage} :
    parseAckDepth ch result out = .ok r ↔
      ∃ depth, DepthDoc .code ch result depth ∧ r = { out with depth := depth.getD out.depth } := by
  cases ch with
  | trade =>
    simp only [parseAckDepth, DepthDoc, exists_eq_left, Except.ok.injEq]
    exact eq_comm
  | book =>
    simp only [parseAckDepth, DepthDoc, except_bind_ok, parseUint64Required, required_ok]
    constructor
    · rintro ⟨n, hn, h⟩
      cases h
      exact ⟨_, ⟨n, _, hn, rfl, rfl⟩, rfl⟩
    · rintro ⟨_, ⟨n, _, hn, rfl, rfl⟩, rfl⟩
      exact ⟨n, hn, rfl⟩

theorem parseAckOptions_ok {kind : Kind} {result : Json D} (hobj : result.object?.isSome = true)
    {out r : AckMessage} : parseAckOptions kind result out = .ok r ↔
      ∃ options, OptionsDoc kind result options ∧
        r = { out with snapshot := (options.map Prod.fst).getD out.snapshot,
                       warnings := (options.map Prod.snd).getD out.warnings } := by
  cases kind with
  | unsubscribe =>
    simp only [parseAckOptions, OptionsDoc, exists_eq_left, Except.ok.injEq]
    exact eq_comm
  | subscribe =>
    simp only [parseAckOptions, OptionsDoc, except_bind_ok, parseBoolOptional, parseStringListOptional,
      optional_ok hobj]
    constructor
    · rintro ⟨snapshot, hsnap, warnings, hwarn, h⟩
      cases h
      exact ⟨_, ⟨snapshot, warnings, hsnap, hwarn, rfl⟩, rfl⟩
    · rintro ⟨_, ⟨snapshot, warnings, hsnap, hwarn, rfl⟩, rfl⟩
      exact ⟨snapshot, hsnap, warnings, hwarn, rfl⟩

/-- An ACK that reports success; `r` is still without its envelope. -/
theorem parseAckResult_ok {ch : Channel} {kind : Kind} {root : Json D} (out : AckMessage) (hout : out.success = true)
    (hs : (root.field? .success).bind bool? = some true) {b : AckBody} :
    (∃ r, parseAckResult ch kind root out = .ok r ∧ r.body ch kind = b) ↔ AckBodyDoc .code ch kind root b := by
  simp only [parseAckResult, except_bind_ok, lift_ok, parseObjectRequired, required_ok, parseAckDepth_ok, fieldAbsent_ok]
  constructor
  · rintro ⟨r, ⟨result, hr, text, htext, symbol, hsymbol, _, ⟨depth, hdepth, rfl⟩, a, ha, -, herr, h⟩, rfl⟩
    obtain ⟨options, hopt, rfl⟩ := (parseAckOptions_ok (object_of_object? hr)).mp ha
    cases h
    simp only [AckMessage.body, hout, if_true, ofBook_of_doc hdepth, ofSubscribe_of_doc hopt]
    exact .accepted hs hr (symbol_ok.mp ⟨text, htext, hsymbol⟩) hdepth hopt herr
  · rintro (⟨-, hr, hsym, hdepth, hopt, herr⟩ | ⟨hs', -, -⟩)
    · obtain ⟨y, rfl⟩ : ∃ y : Symbol, y.text = _ := by
        obtain ⟨s, -, ⟨-, hlen⟩, hs⟩ := hsym
        exact ⟨⟨s, hlen⟩, hs.symm⟩
      obtain ⟨text, htext, hsymbol⟩ := symbol_ok.mpr hsym
      refine ⟨_, ⟨_, hr, text, htext, y, hsymbol, _, ⟨_, hdepth, rfl⟩, _,
        (parseAckOptions_ok (object_of_object? hr)).mpr ⟨_, hopt, rfl⟩, (), herr, rfl⟩, ?_⟩
      simp only [AckMessage.body, hout, if_true, ofBook_of_doc hdepth, ofSubscribe_of_doc hopt]
    · rw [hs] at hs'
      cases hs'

/-- An ACK that reports failure. -/
theorem parseAckError_ok {ch : Channel} {kind : Kind} {root : Json D} (out : AckMessage) (hout : out.success = false)
    (hs : (root.field? .success).bind bool? = some false) {b : AckBody} :
    (∃ r, parseAckError ch root out = .ok r ∧ r.body ch kind = b) ↔ AckBodyDoc .code ch kind root b := by
  have habsent : resultAbsent ch root = .ok () ↔ (ch = .trade → root.field? .result = none) := by
    cases ch with
    | trade => simp [resultAbsent, fieldAbsent_ok]
    | book => simp [resultAbsent]
  simp only [parseAckError, except_bind_ok, parseStringRequired, required_ok]
  constructor
  · rintro ⟨r, ⟨error, herror, u, hu, h⟩, rfl⟩
    cases h
    simp only [AckMessage.body, hout, Bool.false_eq_true, if_false]
    exact .refused hs herror (habsent.mp hu)
  · rintro (⟨hs', -, -, -, -, -⟩ | ⟨-, herror, hres⟩)
    · rw [hs] at hs'
      cases hs'
    · refine ⟨_, ⟨_, herror, (), habsent.mpr hres, rfl⟩, ?_⟩
      simp only [AckMessage.body, hout, Bool.false_eq_true, if_false, Option.getD_some]

/-- **The ACK parsers follow the schema in the code's reading**, whatever the output held. -/
theorem parseAckInto_ok {ch : Channel} {kind : Kind} {root : Json D} {out : AckMessage} {v : AckBody × Envelope} :
    (∃ r, parseAckInto ch kind root out = .ok r ∧ r.item ch kind = v) ↔ AckDoc .code ch kind root v := by
  have hbody : ∀ success, (root.field? .success).bind bool? = some success → ∀ b,
      ((∃ r, parseAckBody ch kind root { out with success } = .ok r ∧ r.body ch kind = b) ↔
        AckBodyDoc .code ch kind root b) := by
    intro success hs b
    unfold parseAckBody
    cases success with
    | true => exact parseAckResult_ok { out with success := true } rfl hs
    | false =>
      simp only [Bool.false_eq_true, if_false, lift_ok]
      exact parseAckError_ok { out with success := false } rfl hs
  simp only [parseAckInto, except_bind_ok, lift_ok, requireObject_ok, parseBoolRequired, required_ok]
  constructor
  · rintro ⟨r, ⟨-, hobj, success, hs, a, ha, e, he, h⟩, rfl⟩
    cases h
    exact ⟨(hbody success hs _).mp ⟨a, ha, rfl⟩, (parseEnvelope_ok hobj).mp he⟩
  · obtain ⟨b, e⟩ := v
    rintro ⟨hb, he⟩
    dsimp only at hb he
    obtain ⟨success, hs⟩ : ∃ success, (root.field? .success).bind bool? = some success := by
      rcases hb with ⟨hs, -⟩ | ⟨hs, -⟩
      · exact ⟨true, hs⟩
      · exact ⟨false, hs⟩
    have hobj := object_of_bind hs
    obtain ⟨a, ha, hab⟩ := (hbody success hs _).mpr hb
    exact ⟨{ a with toEnvelope := e }, ⟨(), hobj, success, hs, a, ha, e, (parseEnvelope_ok hobj).mpr he, rfl⟩,
      Prod.ext hab rfl⟩

/-- **The parser of notices follows the schema in the code's reading.** -/
theorem parseNoticeInto_ok {root : Json D} {out : NoticeMessage} {v : NoticeItem} :
    (∃ r, parseNoticeInto root out = .ok r ∧ r.item = v) ↔ NoticeDoc .code root v := by
  simp only [parseNoticeInto, except_bind_ok, lift_ok, requireObject_ok, parseStringRequired, required_ok, parseUint64Optional]
  constructor
  · rintro ⟨r, ⟨-, hobj, error, herror, reqId, hid, text, htext, symbol, hsymbol, times, htimes, h⟩, rfl⟩
    cases h
    obtain ⟨hin, hout⟩ := (parseStamps_ok hobj).mp htimes
    exact ⟨herror, (symbolOption_ok hobj).mp ⟨text, htext, hsymbol⟩, (optional_ok hobj).mp hid, hin, hout⟩
  · rintro ⟨herror, hsym, hid, hin, hout⟩
    have hobj := object_of_bind herror
    obtain ⟨symbol, hv⟩ : ∃ symbol : Option Symbol, symbol.map Symbol.text = v.symbol := by
      rcases hsym with ⟨-, hv⟩ | ⟨s, y, -, ⟨⟨-, hlen⟩, rfl⟩, hv⟩
      · exact ⟨none, hv.symm⟩
      · exact ⟨some ⟨_, hlen⟩, hv.symm⟩
    rw [← hv] at hsym
    obtain ⟨text, htext, hsymbol⟩ := (symbolOption_ok hobj).mpr hsym
    refine ⟨⟨v.toEnvelope, v.error, symbol⟩, ⟨(), hobj, v.error, herror, v.reqId, (optional_ok hobj).mpr hid, text,
      htext, symbol, hsymbol, (v.timeIn, v.timeOut), (parseStamps_ok hobj).mpr ⟨hin, hout⟩, rfl⟩, ?_⟩
    rw [NoticeMessage.item, hv]

/-- **The parser of pongs follows the schema in the code's reading**, whatever the output held. -/
theorem parsePongInto_ok {root : Json D} {out : PongMessage} {v : PongBody × Envelope} :
    (∃ r, parsePongInto root out = .ok r ∧ r.item = v) ↔ PongDoc .code root v := by
  simp only [parsePongInto, except_bind_ok, requireObject_ok, parseBoolOptional]
  constructor
  · rintro ⟨r, ⟨-, hobj, e, he, success, hs, h⟩, rfl⟩
    rw [parseEnvelope_ok hobj] at he
    rw [optional_ok hobj] at hs
    rcases hs with ⟨habsent, rfl⟩ | ⟨success, hs, rfl⟩
    · cases h
      exact ⟨hobj, .bare habsent, he⟩
    · cases success with
      | true =>
        simp only [except_bind_ok, parseObjectRequired, required_ok, parseStringListOptional] at h
        obtain ⟨result, hr, warnings, hw, h⟩ := h
        cases h
        exact ⟨hobj, .accepted hs hr ((optional_ok (object_of_object? hr)).mp hw), he⟩
      | false =>
        simp only [except_bind_ok, parseStringRequired, required_ok] at h
        obtain ⟨error, herror, h⟩ := h
        cases h
        exact ⟨hobj, .refused hs herror, he⟩
  · obtain ⟨b, e⟩ := v
    rintro ⟨hobj, hb, henv⟩
    have he : parseEnvelope root = .ok e := (parseEnvelope_ok hobj).mpr henv
    dsimp only at hb
    rcases hb with habsent | @⟨result, warnings, hs, hr, hw⟩ | @⟨error, hs, herror⟩
    · exact ⟨_, ⟨(), hobj, e, he, none, (optional_ok hobj).mpr (Or.inl ⟨habsent, rfl⟩), rfl⟩, rfl⟩
    · refine ⟨⟨e, some true, warnings.getD [], out.error⟩,
        ⟨(), hobj, e, he, some true, (optional_ok hobj).mpr (Or.inr ⟨true, hs, rfl⟩), ?_⟩, rfl⟩
      simp only [except_bind_ok, parseObjectRequired, required_ok, parseStringListOptional]
      exact ⟨result, hr, warnings, (optional_ok (object_of_object? hr)).mpr hw, rfl⟩
    · refine ⟨⟨e, some false, out.warnings, some error⟩,
        ⟨(), hobj, e, he, some false, (optional_ok hobj).mpr (Or.inr ⟨false, hs, rfl⟩), ?_⟩, rfl⟩
      simp only [except_bind_ok, parseStringRequired, required_ok]
      exact ⟨error, herror, rfl⟩

/-- **The parser of status updates follows the schema in the code's reading.** -/
theorem parseStatusInto_ok {root : Json D} {out v : StatusMessage} :
    parseStatusInto root out = .ok v ↔ StatusDoc .code root v := by
  have hhead : ∀ first, statusHead root = .ok first ↔
      ∃ rest, (root.field? .data).bind array? = some (first :: rest) := by
    intro first
    simp only [statusHead, except_bind_ok, requireObject_ok, parseArrayRequired, required_ok]
    constructor
    · rintro ⟨-, -, data, hdata, h⟩
      cases data with
      | nil => cases h
      | cons elem rest =>
        cases h
        exact ⟨rest, hdata⟩
    · rintro ⟨rest, hdata⟩
      exact ⟨(), object_of_bind hdata, first :: rest, hdata, rfl⟩
  have hfields : ∀ obj : Json D, obj.object?.isSome = true →
      (parseStatusFields obj = .ok v ↔ StatusElem .code obj v) := by
    intro obj hobj
    simp only [parseStatusFields, except_bind_ok, parseSystemStateRequired, parseEnumRequired_ok, parseStringRequired,
      required_ok, parseUint64Optional, parseStringOptional, optional_ok hobj]
    constructor
    · rintro ⟨system, hsys, api, hapi, id, hid, version, hversion, h⟩
      cases h
      exact ⟨hsys, hapi, hid, hversion⟩
    · rintro ⟨hsys, hapi, hid, hversion⟩
      exact ⟨v.system, hsys, v.apiVersion, hapi, v.connectionId, hid, v.version, hversion, rfl⟩
  simp only [parseStatusInto, except_bind_ok, lift_ok, hhead]
  constructor
  · rintro ⟨first, ⟨rest, hdata⟩, h⟩
    cases hobj : first.object? with
    | none =>
      rw [hobj] at h
      cases h
    | some obj =>
      rw [hobj] at h
      obtain rfl : first = obj := by
        cases first with
        | object fields => exact Option.some.inj hobj
        | _ => cases hobj
      exact ⟨first, rest, hdata, (hfields first (by rw [hobj]; rfl)).mp (lift_ok.mp h)⟩
  · rintro ⟨first, rest, hdata, helem⟩
    refine ⟨first, ⟨rest, hdata⟩, ?_⟩
    obtain ⟨fields, rfl⟩ : ∃ fields, first = .object fields := by
      cases first with
      | object fields => exact ⟨fields, rfl⟩
      | _ => cases helem.apiVersion
    exact lift_ok.mpr ((hfields _ rfl).mpr helem)

end Parsers

/-! ## The parsers of the router -/

section Router

/-- What the router reads of an ACK. -/
def AckMessage.ack (a : AckMessage) : Ack := ⟨a.success, a.symbol, a.reqId⟩

def NoticeMessage.notice (n : NoticeMessage) : Notice Symbol := ⟨n.error, n.reqId, n.symbol⟩

theorem parseStamps_eq (root : Json D) : timestamps root = (parseStamps root).map fun _ => () := by
  unfold timestamps parseStamps
  cases parseTimestampOptional root .timeIn with
  | error e => rfl
  | ok t => cases parseTimestampOptional root .timeOut <;> rfl

theorem parseAckOptions_eq (kind : Kind) (result : Json D) (out : AckMessage) :
    subscribeOnly kind result = (parseAckOptions kind result out).map fun _ => () := by
  unfold subscribeOnly parseAckOptions
  cases kind with
  | unsubscribe => rfl
  | subscribe =>
    simp only
    cases parseBoolOptional result .snapshot with
    | error e => rfl
    | ok o => cases parseStringListOptional result .warnings <;> rfl

theorem parseEnvelope_eq (root : Json D) : (do
    let reqId ← parseUint64Optional root .reqId
    timestamps root
    return reqId) = (parseEnvelope root).map Envelope.reqId := by
  unfold parseEnvelope
  rw [parseStamps_eq]
  cases parseUint64Optional root .reqId with
  | error e => rfl
  | ok id => cases parseStamps root <;> rfl

/-- An ACK from its symbol on. -/
theorem ackTail_eq (ch : Channel) (kind : Kind) (root result : Json D) (text : Text) (out : AckMessage) :
    ackTail ch kind root (some (result, text)) = (do
      let a ← parseAckDepth ch result out
      let _ ← parseAckOptions kind result a
      fieldAbsent root .error
      (parseEnvelope root).map Envelope.reqId) := by
  rw [← parseEnvelope_eq]
  unfold ackTail
  cases ch with
  | trade =>
    simp only [parseAckDepth, parseAckOptions_eq kind result out, bind, Except.bind]
    cases parseAckOptions kind result out <;> rfl
  | book =>
    simp only [parseAckDepth, bind, Except.bind]
    cases parseUint64Required result .depth with
    | error e => rfl
    | ok n =>
      simp only [pure, Except.pure]
      rw [parseAckOptions_eq kind result { out with depth := BitVec.ofNat 32 n }]
      cases parseAckOptions kind result { out with depth := BitVec.ofNat 32 n } <;> rfl

theorem parseAckFields_keep {ch : Channel} {kind : Kind} {result : Json D} {out a r : AckMessage}
    (ha : parseAckDepth ch result out = .ok a) (hr : parseAckOptions kind result a = .ok r) :
    r.success = out.success ∧ r.symbol = out.symbol := by
  obtain ⟨depth, -, rfl⟩ := parseAckDepth_ok.mp ha
  cases kind with
  | unsubscribe =>
    cases hr
    exact ⟨rfl, rfl⟩
  | subscribe =>
    simp only [parseAckOptions, except_bind_ok] at hr
    obtain ⟨snapshot, -, warnings, -, h⟩ := hr
    cases h
    exact ⟨rfl, rfl⟩

/-- Into an output with an empty symbol, the ACK is that of `parseAckCommon`. -/
theorem parseAckInto_eq (ch : Channel) (kind : Kind) (root : Json D) {out : AckMessage}
    (hout : out.symbol = Symbol.empty) :
    parseAckCommon ch kind root = (parseAckInto ch kind root out).map AckMessage.ack := by
  unfold parseAckCommon parseAckInto ackHead
  cases requireObject root with
  | error e => rfl
  | ok u =>
    cases parseBoolRequired root .success with
    | error e => rfl
    | ok success =>
      cases success with
      | false =>
        have htail : ackTail ch kind root none = (do
            let _ ← parseAckError ch root { out with success := false }
            (parseEnvelope root).map Envelope.reqId) := by
          rw [← parseEnvelope_eq]
          unfold ackTail parseAckError resultAbsent
          cases parseStringRequired root .error with
          | error e => cases ch <;> rfl
          | ok text =>
            cases ch with
            | book => rfl
            | trade => cases fieldAbsent root .result <;> simp [bind, Except.bind, pure, Except.pure]
        simp only [bind, Except.bind, Parse.lift, pure, Except.pure, Bool.false_eq_true, if_false, Option.map_none,
          Symbol.ofOption, htail, parseAckBody]
        cases herr : parseAckError ch root { out with success := false } with
        | error e => rfl
        | ok a =>
          have ha : a.success = false ∧ a.symbol = Symbol.empty := by
            simp only [parseAckError, except_bind_ok] at herr
            obtain ⟨text, -, u, -, h⟩ := herr
            cases h
            exact ⟨rfl, hout⟩
          cases parseEnvelope root with
          | error e => rfl
          | ok env => simp [Except.map, AckMessage.ack, ha]
      | true =>
        simp only [bind, Except.bind, Parse.lift, pure, Except.pure, if_true, parseAckBody, parseAckResult]
        cases parseObjectRequired root .result with
        | error e => rfl
        | ok result =>
          simp only
          cases symbolTextRequired result .symbol with
          | error e => rfl
          | ok text =>
            simp only [Option.map_some, ofOption_some, bind, Except.bind]
            cases Symbol.ofText text with
            | error e => rfl
            | ok symbol =>
              simp only [ackTail_eq ch kind root result text { out with success := true, symbol }, bind, Except.bind]
              cases hdepth : parseAckDepth ch result { out with success := true, symbol } with
              | error e => rfl
              | ok a =>
                simp only
                cases hopt : parseAckOptions kind result a with
                | error e => rfl
                | ok r =>
                  obtain ⟨h1, h2⟩ := parseAckFields_keep hdepth hopt
                  simp only
                  cases fieldAbsent root .error with
                  | error e => rfl
                  | ok u =>
                    cases parseEnvelope root with
                    | error e => rfl
                    | ok env => simp [Except.map, AckMessage.ack, h1, h2]

theorem parseNoticeInto_eq (root : Json D) (out : NoticeMessage) :
    parseRejectionNotice root = (parseNoticeInto root out).map NoticeMessage.notice := by
  unfold parseRejectionNotice parseNoticeInto noticeHead
  rw [parseStamps_eq]
  cases requireObject root with
  | error e => rfl
  | ok u =>
    cases parseStringRequired root .error with
    | error e => rfl
    | ok error =>
      cases parseUint64Optional root .reqId with
      | error e => rfl
      | ok reqId =>
        cases symbolTextOptional root .symbol with
        | error e => rfl
        | ok text =>
          simp only [bind, Except.bind, Parse.lift, pure, Except.pure]
          cases Symbol.ofOption text with
          | error e => rfl
          | ok symbol => cases parseStamps root <;> rfl

theorem parsePongInto_eq (root : Json D) (out : PongMessage) :
    parsePong root = (parsePongInto root out).map fun _ => () := by
  unfold parsePong parsePongInto parseEnvelope
  rw [parseStamps_eq]
  cases requireObject root with
  | error e => rfl
  | ok u =>
    cases parseUint64Optional root .reqId with
    | error e => rfl
    | ok reqId =>
      cases parseStamps root with
      | error e => rfl
      | ok times =>
        simp only [bind, Except.bind, Except.map, pure, Except.pure]
        cases parseBoolOptional root .success with
        | error e => rfl
        | ok success =>
          simp only
          obtain _ | success := success
          · rfl
          · cases success with
            | true =>
              simp only
              cases parseObjectRequired root .result with
              | error e => rfl
              | ok result =>
                simp only
                cases parseStringListOptional result .warnings <;> rfl
            | false =>
              simp only
              cases parseStringRequired root .error <;> rfl

theorem parseStatusInto_eq (root : Json D) (out : StatusMessage) :
    parseStatusUpdate root = (parseStatusInto root out).map fun _ => () := by
  have hfields : ∀ obj : Json D, statusTail obj = (parseStatusFields obj).map fun _ => () := by
    intro obj
    unfold statusTail parseStatusFields
    cases parseSystemStateRequired obj .system with
    | error e => rfl
    | ok system =>
      cases parseStringRequired obj .apiVersion with
      | error e => rfl
      | ok api =>
        cases parseUint64Optional obj .connectionId with
        | error e => rfl
        | ok id => cases parseStringOptional obj .version <;> rfl
  unfold parseStatusUpdate parseStatusInto
  cases statusHead root with
  | error e => rfl
  | ok first =>
    simp only [bind, Except.bind, Parse.lift]
    cases first.object? with
    | none => rfl
    | some obj =>
      simp only [hfields]
      cases parseStatusFields obj <;> rfl

end Router

/-! ## Where the readings agree -/

theorem faithful_system : Faithful ControlReadings.code.system ControlReadings.schema.system
    (IsName SystemState.toString) := faithful_tags systemStateTags_spec

theorem faithful_depth : Faithful ControlReadings.code.depth ControlReadings.schema.depth fun n => n < 2 ^ 32 :=
  faithful_checksum

section Documents

/-- An ACK without a symbol that does not fit and without a depth that is cut off; only an ACK that reports success is
asked for them. -/
def AckBodyClean (ch : Channel) (root : Json D) : Prop :=
  (root.field? .success).bind bool? = some true → ∀ result, (root.field? .result).bind object? = some result →
    FieldClean result .symbol (fun s => s.length ≤ maxSymbolLength) ∧
    (ch = .book → ∀ n, (result.field? .depth).bind uint64? = some n → n < 2 ^ 32)

structure StampsClean (root : Json D) : Prop where
  timeIn : FieldClean root .timeIn CleanTime
  timeOut : FieldClean root .timeOut CleanTime

def AckClean (ch : Channel) (root : Json D) : Prop := AckBodyClean ch root ∧ StampsClean root

def NoticeClean (root : Json D) : Prop :=
  FieldClean root .symbol (fun s => s.length ≤ maxSymbolLength) ∧ StampsClean root

def StatusClean (root : Json D) : Prop := ∀ first rest, (root.field? .data).bind array? = some (first :: rest) →
  FieldClean first .system (IsName SystemState.toString)

theorem faithful_envelope : Faithful (EnvelopeDoc (D := D) ControlReadings.code.toReadings)
    (EnvelopeDoc ControlReadings.schema.toReadings) StampsClean where
  agree := by
    intro root e hclean
    have hin := (faithful_fieldOpt faithful_time .timeIn).agree (y := e.timeIn) hclean.timeIn
    have hout := (faithful_fieldOpt faithful_time .timeOut).agree (y := e.timeOut) hclean.timeOut
    constructor
    · rintro ⟨h1, h2, h3⟩
      exact ⟨h1, hin.mp h2, hout.mp h3⟩
    · rintro ⟨h1, h2, h3⟩
      exact ⟨h1, hin.mpr h2, hout.mpr h3⟩
  clean_of ha hi :=
    ⟨(faithful_fieldOpt faithful_time .timeIn).clean_of ha.timeIn hi.timeIn,
      (faithful_fieldOpt faithful_time .timeOut).clean_of ha.timeOut hi.timeOut⟩

theorem faithful_depthDoc (ch : Channel) : Faithful (DepthDoc (D := D) .code ch) (DepthDoc .schema ch)
    fun result => ch = .book → ∀ n, (result.field? .depth).bind uint64? = some n → n < 2 ^ 32 := by
  cases ch with
  | trade => exact ⟨fun _ => Iff.rfl, fun _ _ hb => by cases hb⟩
  | book =>
    constructor
    · intro result depth hclean
      constructor
      · rintro ⟨n, d, hn, hd, rfl⟩
        exact ⟨n, d, hn, (faithful_depth.agree (hclean rfl n hn)).mp hd, rfl⟩
      · rintro ⟨n, d, hn, hd, rfl⟩
        exact ⟨n, d, hn, (faithful_depth.agree (hclean rfl n hn)).mpr hd, rfl⟩
    · rintro result depth ⟨n, d, hn, hd, rfl⟩ ⟨m, d', hm, hd', heq⟩ - k hk
      obtain rfl : d = d' := Option.some.inj heq
      obtain rfl : n = m := Option.some.inj (hn.symm.trans hm)
      obtain rfl : n = k := Option.some.inj (hn.symm.trans hk)
      exact faithful_depth.clean_of hd hd'

theorem faithful_ackBody (ch : Channel) (kind : Kind) : Faithful (AckBodyDoc (D := D) .code ch kind)
    (AckBodyDoc .schema ch kind) (AckBodyClean ch) where
  agree := by
    intro root b hclean
    constructor
    · rintro (⟨hs, hr, hsym, hd, ho, he⟩ | ⟨hs, he, hr⟩)
      · obtain ⟨h1, h2⟩ := hclean hs _ hr
        exact .accepted hs hr (((faithful_field faithful_symbol .symbol).agree h1).mp hsym)
          (((faithful_depthDoc ch).agree h2).mp hd) ho he
      · exact .refused hs he hr
    · rintro (⟨hs, hr, hsym, hd, ho, he⟩ | ⟨hs, he, hr⟩)
      · obtain ⟨h1, h2⟩ := hclean hs _ hr
        exact .accepted hs hr (((faithful_field faithful_symbol .symbol).agree h1).mpr hsym)
          (((faithful_depthDoc ch).agree h2).mpr hd) ho he
      · exact .refused hs he hr
  clean_of := by
    rintro root b ha hi hs result hr
    rcases ha with ⟨-, hr1, hsym1, hd1, -, -⟩ | ⟨hf, -, -⟩
    · rcases hi with ⟨-, hr2, hsym2, hd2, -, -⟩
      obtain rfl := Option.some.inj (hr1.symm.trans hr)
      obtain rfl := Option.some.inj (hr2.symm.trans hr)
      exact ⟨(faithful_field faithful_symbol .symbol).clean_of hsym1 hsym2, (faithful_depthDoc ch).clean_of hd1 hd2⟩
    · rw [hs] at hf
      cases hf

theorem faithful_ack (ch : Channel) (kind : Kind) : Faithful (AckDoc (D := D) .code ch kind)
    (AckDoc .schema ch kind) (AckClean ch) where
  agree hclean := and_congr ((faithful_ackBody ch kind).agree hclean.1) (faithful_envelope.agree hclean.2)
  clean_of ha hi :=
    ⟨(faithful_ackBody ch kind).clean_of ha.1 hi.1, faithful_envelope.clean_of ha.2 hi.2⟩

theorem faithful_notice : Faithful (NoticeDoc (D := D) .code) (NoticeDoc .schema) NoticeClean where
  agree := by
    intro root n hclean
    have hsym := (faithful_fieldOpt faithful_symbol .symbol).agree (y := n.symbol) hclean.1
    have henv := faithful_envelope.agree (y := n.toEnvelope) hclean.2
    constructor
    · rintro ⟨h1, h2, h3⟩
      exact ⟨h1, hsym.mp h2, henv.mp h3⟩
    · rintro ⟨h1, h2, h3⟩
      exact ⟨h1, hsym.mpr h2, henv.mpr h3⟩
  clean_of ha hi :=
    ⟨(faithful_fieldOpt faithful_symbol .symbol).clean_of ha.symbol hi.symbol,
      faithful_envelope.clean_of ha.envelope hi.envelope⟩

theorem faithful_pong : Faithful (PongDoc (D := D) .code) (PongDoc .schema) StampsClean where
  agree hclean := and_congr_right fun _ => and_congr_right fun _ => faithful_envelope.agree hclean
  clean_of ha hi := faithful_envelope.clean_of ha.2.2 hi.2.2

theorem faithful_status : Faithful (StatusDoc (D := D) .code) (StatusDoc .schema) StatusClean where
  agree := by
    intro root u hclean
    refine exists_congr fun first => exists_congr fun rest => and_congr_right fun hdata => ?_
    have hsys := (faithful_field faithful_system .system).agree (y := u.system) (hclean first rest hdata)
    constructor
    · rintro ⟨h1, h2, h3, h4⟩
      exact ⟨hsys.mp h1, h2, h3, h4⟩
    · rintro ⟨h1, h2, h3, h4⟩
      exact ⟨hsys.mpr h1, h2, h3, h4⟩
  clean_of := by
    rintro root u ⟨first, rest, hdata, ha⟩ ⟨first', rest', hdata', hi⟩ first'' rest'' hdata''
    cases hdata.symm.trans hdata'
    cases hdata.symm.trans hdata''
    exact (faithful_field faithful_system .system).clean_of ha.system hi.system

end Documents

/-! ## Exactness -/

/-- **The control-plane parsers return what the document says, whatever the output held, just where no text or number of
it is misread**, or it is no message in either reading: the symbol has at most 16 bytes, a depth 32 bits, the time
stamps are none that the parser slips on, and the state of the system has its full name. -/
theorem control_plane_exact_iff (root : Json D) :
    (∀ ch kind out, (∀ v, (∃ r, parseAckInto ch kind root out = .ok r ∧ r.item ch kind = v) ↔
        AckDoc .schema ch kind root v) ↔
      AckClean ch root ∨ ∀ v, ¬ AckDoc .code ch kind root v ∧ ¬ AckDoc .schema ch kind root v) ∧
    (∀ out, (∀ v, (∃ r, parseNoticeInto root out = .ok r ∧ r.item = v) ↔ NoticeDoc .schema root v) ↔
      NoticeClean root ∨ ∀ v, ¬ NoticeDoc .code root v ∧ ¬ NoticeDoc .schema root v) ∧
    (∀ out, (∀ v, (∃ r, parsePongInto root out = .ok r ∧ r.item = v) ↔ PongDoc .schema root v) ↔
      StampsClean root ∨ ∀ v, ¬ PongDoc .code root v ∧ ¬ PongDoc .schema root v) ∧
    (∀ out, (∀ v, parseStatusInto root out = .ok v ↔ StatusDoc .schema root v) ↔
      StatusClean root ∨ ∀ v, ¬ StatusDoc .code root v ∧ ¬ StatusDoc .schema root v) := by
  refine ⟨fun ch kind out => ?_, fun out => ?_, fun out => ?_, fun out => ?_⟩
  · simp only [parseAckInto_ok]
    exact (faithful_ack ch kind).exact_iff root
  · simp only [parseNoticeInto_ok]
    exact faithful_notice.exact_iff root
  · simp only [parsePongInto_ok]
    exact faithful_pong.exact_iff root
  · simp only [parseStatusInto_ok]
    exact faithful_status.exact_iff root

end Wirekrak.Protocol
