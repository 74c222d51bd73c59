import Wirekrak.Protocol.Encoding

/-!
# Wirekrak.Protocol.Capacity — how long a request's text is, and where it is written to

The writers are given a buffer and no bound.  What keeps them inside it is a size that other code computes beforehand
(`maxJsonSize`), or a test of the length afterwards (`Scheduler.enqueue`).

* `length_writeJson`: the exact length of a text, from the fields of the request.
* `size_bounded_iff`: it is within `maxJsonSize`, except for a trade subscription with `snapshot = false` that uses up
  the whole allowance for escapes and for the request id.
* `send_bounded`: the transmit buffer is never overrun.
* `writes_bounded_iff`: all is well exactly for the requests of that size and shape that a queue slot holds.
-/

namespace Wirekrak.Protocol.Schema

/-- `config::protocol` -/
def TX_BUFFER_CAPACITY : ℕ := 2 ^ 18
def TX_BATCH_QUEUE_CAPACITY : ℕ := 2 ^ 8
def TX_BATCH_BUFFER_CAPACITY : ℕ := 2 ^ 10

/-! ## The bounds -/

/-- The symbols: quotes, escapes of six bytes, commas. -/
def maxSymbolsSize (symbols : List (List Char)) : ℕ := (symbols.map fun s => 2 + 6 * s.length + 1).sum

def Trade.Subscribe.maxJsonSize (r : Trade.Subscribe) : ℕ :=
  (literal "\x7b\"method\":\"subscribe\",\"params\":\x7b\"channel\":\"trade\",\"symbol\":[").length +
    (literal "]").length + (literal "\x7d").length + (literal "\x7d").length + maxSymbolsSize r.symbols -
    (if r.symbols = [] then 0 else 1) +
    (if r.snapshot.isSome then (literal ",\"snapshot\":true").length else 0) +
    (if r.reqId.isSome then (literal ",\"req_id\":").length + 20 else 0)

def Trade.Unsubscribe.maxJsonSize (r : Trade.Unsubscribe) : ℕ :=
  88 + maxSymbolsSize r.symbols + (if r.reqId.isSome then 24 else 0) + 4

def Book.Subscribe.maxJsonSize (r : Book.Subscribe) : ℕ :=
  96 + maxSymbolsSize r.symbols + (if r.depth.isSome then 16 else 0) + (if r.snapshot.isSome then 20 else 0) +
    (if r.reqId.isSome then 24 else 0) + 4

def Book.Unsubscribe.maxJsonSize (r : Book.Unsubscribe) : ℕ :=
  88 + maxSymbolsSize r.symbols + (if r.depth.isSome then 16 else 0) + (if r.reqId.isSome then 24 else 0) + 4

def DynamicRequest.maxJsonSize : DynamicRequest → ℕ
  | .tradeSubscribe r => r.maxJsonSize
  | .tradeUnsubscribe r => r.maxJsonSize
  | .bookSubscribe r => r.maxJsonSize
  | .bookUnsubscribe r => r.maxJsonSize

/-- The only request with a fixed bound. -/
structure Ping where
  reqId : Option UInt64 := none

def Ping.maxJsonSize : ℕ := 64

def Ping.writeJson (r : Ping) : List Char :=
  literal "\x7b\"method\":\"ping\"" ++ writeOption ",\"req_id\":" append r.reqId ++ ['}']

/-! ## The paths of a request -/

/-- What a path leaves: whether it went through, and the bytes it wrote behind the end of its buffer. -/
structure Outcome where
  ok : Bool
  past : List Char := []
  deriving DecidableEq

/-- `write_json(buffer)`, for a buffer of that capacity. -/
def writeInto (capacity : ℕ) (text : List Char) (ok : Bool) : Outcome := ⟨ok, text.drop capacity⟩

/-- A missing request id is taken from the sequence. -/
def DynamicRequest.assignReqId (next : UInt64) : DynamicRequest → DynamicRequest
  | .tradeSubscribe r => .tradeSubscribe { r with reqId := some (r.reqId.getD next) }
  | .tradeUnsubscribe r => .tradeUnsubscribe { r with reqId := some (r.reqId.getD next) }
  | .bookSubscribe r => .bookSubscribe { r with reqId := some (r.reqId.getD next) }
  | .bookUnsubscribe r => .bookUnsubscribe { r with reqId := some (r.reqId.getD next) }

/-- The bound is compared before anything is written. -/
def sendDynamicRequest (next : UInt64) (accept : List Char → Bool) (r : DynamicRequest) : Outcome :=
  if TX_BUFFER_CAPACITY < (r.assignReqId next).maxJsonSize then ⟨false, []⟩
  else writeInto TX_BUFFER_CAPACITY (r.assignReqId next).writeJson (accept (r.assignReqId next).writeJson)

/-- The buffer on the stack has the size of the bound. -/
def sendStaticRequest (next : UInt64) (accept : List Char → Bool) (r : Ping) : Outcome :=
  writeInto Ping.maxJsonSize (Ping.writeJson ⟨some (r.reqId.getD next)⟩)
    (accept (Ping.writeJson ⟨some (r.reqId.getD next)⟩))

/-- The texts in the queue of the paced mode; its ring keeps one slot free. -/
abbrev Scheduler := List (List Char)

/-- The text is written into the slot first, then its length is compared with the slot's capacity. -/
def Scheduler.enqueue (queue : Scheduler) (r : DynamicRequest) : Scheduler × Outcome :=
  if queue.length + 1 < TX_BATCH_QUEUE_CAPACITY then
    if TX_BATCH_BUFFER_CAPACITY < r.writeJson.length then
      (queue, writeInto TX_BATCH_BUFFER_CAPACITY r.writeJson false)
    else (queue ++ [r.writeJson], writeInto TX_BATCH_BUFFER_CAPACITY r.writeJson true)
  else (queue, ⟨false, []⟩)

/-- `to_json`, through a buffer on the stack. -/
def DynamicRequest.toJson (r : DynamicRequest) : Outcome := writeInto 4096 r.writeJson true

def Ping.toJson (r : Ping) : Outcome := writeInto 64 r.writeJson true

/-- A request of any type. -/
inductive Request
  | dynamic (r : DynamicRequest)
  | ping (r : Ping)

def Request.writeJson : Request → List Char
  | .dynamic r => r.writeJson
  | .ping r => r.writeJson

def Request.maxJsonSize : Request → ℕ
  | .dynamic r => r.maxJsonSize
  | .ping _ => Ping.maxJsonSize

/-- What the paths write behind the ends of their buffers; only the requests without a fixed bound are queued. -/
def Request.pasts (next : UInt64) (accept : List Char → Bool) (queue : Scheduler) : Request → List (List Char)
  | .dynamic r => [(sendDynamicRequest next accept r).past, (queue.enqueue r).2.past, r.toJson.past]
  | .ping r => [(sendStaticRequest next accept r).past, r.toJson.past]

/-- The text is within the bound, and no path writes behind the end of its buffer. -/
def Request.Bounded (r : Request) : Prop :=
  r.writeJson.length ≤ r.maxJsonSize ∧ ∀ next accept queue, ∀ past ∈ r.pasts next accept queue, past = []

/-! ## The length of a text -/

/-- The bytes that a byte takes behind the escaper. -/
def charSize (c : Char) : ℕ :=
  if c ∈ ['"', '\\', '\x08', '\x0c', '\n', '\r', '\t'] then 2 else if c.toNat ≤ 0x1F then 6 else 1

/-- The symbols with their quotes, and the commas between them. -/
def symbolsSize (symbols : List (List Char)) : ℕ :=
  (symbols.map fun s => 2 + (s.map charSize).sum).sum + (symbols.length - 1)

def digitCount (n : ℕ) : ℕ := (Nat.toDigits 10 n).length

/-- The size of a part that may be absent: its key and what it writes. -/
def optionSize {α : Type} (key : ℕ) (size : α → ℕ) (o : Option α) : ℕ := o.elim 0 fun a => key + size a

/-- The length of the text, from the fields of the request. -/
def DynamicRequest.encodedSize : DynamicRequest → ℕ
  | .tradeSubscribe r => 63 + symbolsSize r.symbols + optionSize 12 (fun b => if b then 4 else 5) r.snapshot +
      optionSize 10 (fun n => digitCount n.toNat) r.reqId
  | .tradeUnsubscribe r => 65 + symbolsSize r.symbols + optionSize 10 (fun n => digitCount n.toNat) r.reqId
  | .bookSubscribe r => 62 + symbolsSize r.symbols + optionSize 9 (fun n => digitCount n.toNat) r.depth +
      optionSize 12 (fun b => if b then 4 else 5) r.snapshot + optionSize 10 (fun n => digitCount n.toNat) r.reqId
  | .bookUnsubscribe r => 64 + symbolsSize r.symbols + optionSize 9 (fun n => digitCount n.toNat) r.depth +
      optionSize 10 (fun n => digitCount n.toNat) r.reqId

theorem length_escapeChar (c : Char) : (escapeChar c).length = charSize c := by
  rw [escapeChar, charSize]
  simp only [List.mem_cons, List.not_mem_nil, or_false]
  by_cases h1 : c = '"'
  · simp [h1]
  by_cases h2 : c = '\\'
  · simp [h2]
  by_cases h3 : c = '\x08'
  · simp [h3]
  by_cases h4 : c = '\x0c'
  · simp [h4]
  by_cases h5 : c = '\n'
  · simp [h5]
  by_cases h6 : c = '\r'
  · simp [h6]
  by_cases h7 : c = '\t'
  · simp [h7]
  rw [if_neg h1, if_neg h2, if_neg h3, if_neg h4, if_neg h5, if_neg h6, if_neg h7]
  by_cases h8 : c.toNat ≤ 0x1F <;> simp [h1, h2, h3, h4, h5, h6, h7, h8]

theorem length_escape (s : List Char) : (escape s).length = (s.map charSize).sum := by
  rw [escape, List.length_flatMap]
  simp [length_escapeChar]

theorem length_writeSymbols : ∀ symbols : List (List Char), (writeSymbols symbols).length = symbolsSize symbols
  | [] => rfl
  | s :: rest => by
    have ih := length_writeSymbols rest
    rw [symbolsSize] at ih ⊢
    rcases rest with _ | ⟨t, rest⟩
    · simp [writeSymbols, length_escape]
      omega
    · rw [writeSymbols]
      simp [ih, length_escape]
      omega

theorem length_append (n : UInt64) : (append n).length = digitCount n.toNat := by rw [append_eq, digitCount]

theorem length_writeOption {α : Type} (key : String) (write : α → List Char) (size : α → ℕ)
    (h : ∀ a, (write a).length = size a) (o : Option α) :
    (writeOption key write o).length = optionSize (literal key).length size o := by
  cases o <;> simp [writeOption, optionSize, h]

theorem length_writeBool (b : Bool) : (writeBool b).length = if b then 4 else 5 := by
  cases b <;> simp [writeBool, literal]

theorem length_writeRequest (method channel : String) (symbols : List (List Char)) (depth : Option UInt32)
    (snapshot : Option Bool) (reqId : Option UInt64) :
    (writeRequest method channel symbols depth snapshot reqId).length =
      49 + (literal method).length + (literal channel).length + symbolsSize symbols +
        optionSize 9 (fun n => digitCount n.toNat) depth + optionSize 12 (fun b => if b then 4 else 5) snapshot +
        optionSize 10 (fun n => digitCount n.toNat) reqId := by
  have hd := length_writeOption ",\"depth\":" (fun d : UInt32 => append d.toUInt64) (fun n => digitCount n.toNat)
    (fun d => by rw [length_append, UInt32.toNat_toUInt64]) depth
  have hs := length_writeOption ",\"snapshot\":" writeBool _ length_writeBool snapshot
  have hr := length_writeOption ",\"req_id\":" append _ length_append reqId
  have k1 : (literal "\x7b\"method\":\"").length = 11 := by decide +kernel
  have k2 : (literal "\",\"params\":\x7b\"channel\":\"").length = 23 := by decide +kernel
  have k3 : (literal "\",\"symbol\":[").length = 12 := by decide +kernel
  have k4 : (literal ",\"depth\":").length = 9 := by decide +kernel
  have k5 : (literal ",\"snapshot\":").length = 12 := by decide +kernel
  have k6 : (literal ",\"req_id\":").length = 10 := by decide +kernel
  rw [k4] at hd
  rw [k5] at hs
  rw [k6] at hr
  simp only [writeRequest, List.length_append, hd, hs, hr, k1, k2, k3, length_writeSymbols, List.length_cons,
    List.length_nil]
  omega

/-- **The length of a request's text.** -/
theorem length_writeJson (r : DynamicRequest) : r.writeJson.length = r.encodedSize := by
  have k1 : (literal "subscribe").length = 9 := by decide +kernel
  have k2 : (literal "unsubscribe").length = 11 := by decide +kernel
  have k3 : (literal "trade").length = 5 := by decide +kernel
  have k4 : (literal "book").length = 4 := by decide +kernel
  cases r with
  | tradeSubscribe r => exact (length_writeRequest _ _ _ _ _ _).trans (by rw [k1, k3]; rfl)
  | tradeUnsubscribe r => exact (length_writeRequest _ _ _ _ _ _).trans (by rw [k2, k3]; rfl)
  | bookSubscribe r => exact (length_writeRequest _ _ _ _ _ _).trans (by rw [k1, k4]; rfl)
  | bookUnsubscribe r => exact (length_writeRequest _ _ _ _ _ _).trans (by rw [k2, k4]; rfl)

/-! ## The bound -/

/-- The bytes that the escaper writes as six. -/
def SixBytes (c : Char) : Prop := c.toNat ≤ 0x1F ∧ c ∉ ['\x08', '\x0c', '\n', '\r', '\t']

/-- The request uses up everything that its bound allows for escapes and digits, and `false` takes one byte more than
the bound has for the flag. -/
def DynamicRequest.Exhausts : DynamicRequest → Prop
  | .tradeSubscribe r => r.snapshot = some false ∧ (∀ s ∈ r.symbols, ∀ c ∈ s, SixBytes c) ∧
      ∀ n ∈ r.reqId, 10 ^ 19 ≤ n.toNat
  | _ => False

theorem charSize_le (c : Char) : charSize c ≤ 6 := by
  rw [charSize]
  split_ifs <;> decide

theorem charSize_eq_six (c : Char) : charSize c = 6 ↔ SixBytes c := by
  have hq : c.toNat ≤ 0x1F → c ≠ '"' ∧ c ≠ '\\' := by
    intro h
    constructor <;> (rintro rfl; exact absurd h (by decide))
  simp only [charSize, SixBytes, List.mem_cons, List.not_mem_nil, or_false]
  split_ifs with h1 h2
  · refine iff_of_false (by decide) ?_
    rintro ⟨h2, h3⟩
    rcases h1 with h1 | h1 | h1
    · exact (hq h2).1 h1
    · exact (hq h2).2 h1
    · exact h3 h1
  · refine iff_of_true rfl ⟨h2, fun h3 => h1 (Or.inr (Or.inr h3))⟩
  · exact iff_of_false (by decide) fun h3 => h2 h3.1

theorem sum_charSize (s : List Char) :
    (s.map charSize).sum ≤ 6 * s.length ∧ ((s.map charSize).sum = 6 * s.length ↔ ∀ c ∈ s, SixBytes c) := by
  induction s with
  | nil => simp
  | cons c s ih =>
    have hc := charSize_le c
    have h6 := charSize_eq_six c
    simp only [List.map_cons, List.sum_cons, List.length_cons, List.forall_mem_cons]
    refine ⟨by omega, ?_⟩
    rw [← ih.2, ← h6]
    omega

/-- The symbols stay below their share of the bound, and reach it only with escapes of six bytes throughout. -/
theorem symbolsSize_le (symbols : List (List Char)) :
    symbolsSize symbols + (if symbols = [] then 0 else 1) ≤ maxSymbolsSize symbols ∧
      (symbolsSize symbols + (if symbols = [] then 0 else 1) = maxSymbolsSize symbols ↔
        ∀ s ∈ symbols, ∀ c ∈ s, SixBytes c) ∧
      maxSymbolsSize symbols % 3 = 0 := by
  have h1 : ∀ l : List (List Char), (l.map fun s => 2 + (s.map charSize).sum).sum =
      2 * l.length + (l.flatten.map charSize).sum := by
    intro l
    induction l with
    | nil => rfl
    | cons s l ih =>
      simp [ih]
      omega
  have h2 : ∀ l : List (List Char), maxSymbolsSize l = 3 * l.length + 6 * l.flatten.length := by
    intro l
    induction l with
    | nil => rfl
    | cons s l ih =>
      rw [maxSymbolsSize] at ih ⊢
      simp only [List.map_cons, List.sum_cons, ih, List.flatten_cons, List.length_cons, List.length_append]
      omega
  have h3 := sum_charSize symbols.flatten
  have h4 : (if symbols = [] then 0 else 1) + (symbols.length - 1) = symbols.length := by
    cases symbols <;> simp
    omega
  rw [symbolsSize, h1, h2]
  refine ⟨by omega, ?_, by omega⟩
  rw [show (∀ s ∈ symbols, ∀ c ∈ s, SixBytes c) ↔ ∀ c ∈ symbols.flatten, SixBytes c from by
    simp only [List.mem_flatten]
    exact ⟨fun h c ⟨s, hs, hc⟩ => h s hs c hc, fun h s hs c hc => h c ⟨s, hs, hc⟩⟩, ← h3.2]
  omega

theorem digitCount_le {n k : ℕ} (hk : 0 < k) (h : n < 10 ^ k) : digitCount n ≤ k :=
  (Nat.length_toDigits_le_iff (by decide) hk).mpr h

theorem digitCount_reqId (n : UInt64) : digitCount n.toNat ≤ 20 ∧ (digitCount n.toNat = 20 ↔ 10 ^ 19 ≤ n.toNat) := by
  have h := digitCount_le (n := n.toNat) (k := 20) (by decide) (by have := n.toNat_lt; omega)
  have h' : digitCount n.toNat ≤ 19 ↔ n.toNat < 10 ^ 19 := Nat.length_toDigits_le_iff (by decide) (by decide)
  exact ⟨h, by omega⟩

theorem digitCount_depth (n : UInt32) : digitCount n.toNat ≤ 10 :=
  digitCount_le (by decide) (by have := n.toNat_lt; omega)

theorem optionSize_reqId (o : Option UInt64) :
    optionSize 10 (fun n => digitCount n.toNat) o ≤ (if o.isSome then 30 else 0) ∧
      (optionSize 10 (fun n => digitCount n.toNat) o = (if o.isSome then 30 else 0) ↔ ∀ n ∈ o, 10 ^ 19 ≤ n.toNat) := by
  cases o with
  | none => simp [optionSize]
  | some n =>
    have h := digitCount_reqId n
    simp only [optionSize, Option.elim_some, Option.isSome_some, if_true, Option.mem_def, Option.some.injEq,
      forall_eq']
    exact ⟨by omega, by rw [← h.2]; omega⟩

theorem optionSize_depth (o : Option UInt32) :
    optionSize 9 (fun n => digitCount n.toNat) o ≤ if o.isSome then 19 else 0 := by
  cases o with
  | none => rfl
  | some n =>
    have h := digitCount_depth n
    simp only [optionSize, Option.elim_some, Option.isSome_some, if_true]
    omega

theorem optionSize_snapshot (o : Option Bool) :
    optionSize 12 (fun b => if b then 4 else 5) o = (if o.isSome then 16 else 0) + if o = some false then 1 else 0 := by
  rcases o with _ | _ | _ <;> rfl

theorem Trade.Subscribe.maxJsonSize_eq (r : Trade.Subscribe) :
    r.maxJsonSize = 63 + maxSymbolsSize r.symbols - (if r.symbols = [] then 0 else 1) +
      (if r.snapshot.isSome then 16 else 0) + (if r.reqId.isSome then 30 else 0) := by
  have k1 : (literal "\x7b\"method\":\"subscribe\",\"params\":\x7b\"channel\":\"trade\",\"symbol\":[").length =
      60 := by decide +kernel
  have k2 : (literal "]").length = 1 := by decide +kernel
  have k3 : (literal "\x7d").length = 1 := by decide +kernel
  have k4 : (literal ",\"snapshot\":true").length = 16 := by decide +kernel
  have k5 : (literal ",\"req_id\":").length = 10 := by decide +kernel
  rw [maxJsonSize, k1, k2, k3, k4, k5]

/-- A trade subscription: how far its text is from its bound. -/
theorem Trade.Subscribe.encodedSize_le (r : Trade.Subscribe) :
    (DynamicRequest.tradeSubscribe r).encodedSize ≤ r.maxJsonSize + (if r.snapshot = some false then 1 else 0) ∧
      ((DynamicRequest.tradeSubscribe r).encodedSize = r.maxJsonSize + (if r.snapshot = some false then 1 else 0) ↔
        (∀ s ∈ r.symbols, ∀ c ∈ s, SixBytes c) ∧ ∀ n ∈ r.reqId, 10 ^ 19 ≤ n.toNat) := by
  have h1 := symbolsSize_le r.symbols
  have h2 := optionSize_reqId r.reqId
  rw [r.maxJsonSize_eq, DynamicRequest.encodedSize, optionSize_snapshot, ← h1.2.1, ← h2.2]
  constructor <;> omega

/-- **The bound holds** of every text but those of the requests that exhaust it. -/
theorem size_bounded_iff (r : DynamicRequest) : r.writeJson.length ≤ r.maxJsonSize ↔ ¬ r.Exhausts := by
  rw [length_writeJson]
  cases r with
  | tradeSubscribe r =>
    have h := r.encodedSize_le
    rw [DynamicRequest.Exhausts, ← h.2, DynamicRequest.maxJsonSize]
    by_cases hs : r.snapshot = some false
    · simp only [hs, if_true, true_and] at h ⊢
      omega
    · simp only [hs, if_false, false_and, not_false_eq_true, iff_true] at h ⊢
      omega
  | tradeUnsubscribe r =>
    have h1 := symbolsSize_le r.symbols
    have h2 := optionSize_reqId r.reqId
    simp only [DynamicRequest.Exhausts, not_false_eq_true, iff_true, DynamicRequest.encodedSize,
      DynamicRequest.maxJsonSize, Trade.Unsubscribe.maxJsonSize]
    split_ifs at h2 ⊢ <;> omega
  | bookSubscribe r =>
    have h1 := symbolsSize_le r.symbols
    have h2 := optionSize_reqId r.reqId
    have h3 := optionSize_depth r.depth
    simp only [DynamicRequest.Exhausts, not_false_eq_true, iff_true, DynamicRequest.encodedSize,
      DynamicRequest.maxJsonSize, Book.Subscribe.maxJsonSize, optionSize_snapshot]
    split_ifs at h2 h3 ⊢ <;> omega
  | bookUnsubscribe r =>
    have h1 := symbolsSize_le r.symbols
    have h2 := optionSize_reqId r.reqId
    have h3 := optionSize_depth r.depth
    simp only [DynamicRequest.Exhausts, not_false_eq_true, iff_true, DynamicRequest.encodedSize,
      DynamicRequest.maxJsonSize, Book.Unsubscribe.maxJsonSize]
    split_ifs at h2 h3 ⊢ <;> omega

/-! ## The paths -/

/-- A text that exhausts its bound is one byte longer; a bound with a snapshot flag and a request id is not the size of
the transmit buffer. -/
theorem exhausts_fits {r : DynamicRequest} {next : UInt64} (h : (r.assignReqId next).Exhausts)
    (hb : (r.assignReqId next).maxJsonSize ≤ TX_BUFFER_CAPACITY) :
    (r.assignReqId next).encodedSize ≤ TX_BUFFER_CAPACITY := by
  cases r with
  | tradeSubscribe r =>
    have h1 := (symbolsSize_le r.symbols).2.2
    have h2 := (Trade.Subscribe.mk r.symbols r.snapshot (some (r.reqId.getD next))).encodedSize_le.1
    have hsnap : r.snapshot = some false := h.1
    simp only [DynamicRequest.assignReqId, DynamicRequest.maxJsonSize, Trade.Subscribe.maxJsonSize_eq, hsnap,
      Option.isSome_some, if_true, TX_BUFFER_CAPACITY] at h2 hb ⊢
    by_cases hn : r.symbols = []
    · rw [hn] at h2 ⊢
      exact h2.trans (by decide)
    · rw [if_neg hn] at h2 hb
      omega
  | tradeUnsubscribe r => exact h.elim
  | bookSubscribe r => exact h.elim
  | bookUnsubscribe r => exact h.elim

/-- **The transmit buffer** is never overrun: the bound is off by at most one, and never by the last byte of the
buffer. -/
theorem send_bounded (next : UInt64) (accept : List Char → Bool) (r : DynamicRequest) :
    (sendDynamicRequest next accept r).past = [] := by
  rw [sendDynamicRequest]
  by_cases hb : TX_BUFFER_CAPACITY < (r.assignReqId next).maxJsonSize
  · rw [if_pos hb]
  · rw [if_neg hb, writeInto, List.drop_eq_nil_iff]
    rcases Classical.em (r.assignReqId next).Exhausts with h | h
    · rw [length_writeJson]
      exact exhausts_fits h (Nat.not_lt.mp hb)
    · exact ((size_bounded_iff _).mpr h).trans (Nat.not_lt.mp hb)

theorem Ping.length_writeJson_le (r : Ping) : r.writeJson.length ≤ Ping.maxJsonSize := by
  have h1 := length_writeOption ",\"req_id\":" append _ length_append r.reqId
  have h2 := optionSize_reqId r.reqId
  have k1 : (literal "\x7b\"method\":\"ping\"").length = 16 := by decide +kernel
  have k2 : (literal ",\"req_id\":").length = 10 := by decide +kernel
  rw [k2] at h1
  rw [writeJson, List.length_append, List.length_append, k1, h1, maxJsonSize, List.length_singleton]
  split_ifs at h2 <;> omega

theorem ping_bounded (next : UInt64) (accept : List Char → Bool) (r : Ping) :
    (sendStaticRequest next accept r).past = [] := by
  rw [sendStaticRequest, writeInto, List.drop_eq_nil_iff]
  exact Ping.length_writeJson_le _

/-- A slot is overrun by the texts that are longer than it, unless none is free. -/
theorem enqueue_past (queue : Scheduler) (r : DynamicRequest) :
    (queue.enqueue r).2.past =
      if queue.length + 1 < TX_BATCH_QUEUE_CAPACITY then r.writeJson.drop TX_BATCH_BUFFER_CAPACITY else [] := by
  rw [Scheduler.enqueue]
  split_ifs <;> rfl

/-- The request's text fits a queue slot, and is within its bound. -/
def Request.Fits : Request → Prop
  | .dynamic r => r.encodedSize ≤ TX_BATCH_BUFFER_CAPACITY ∧ ¬ r.Exhausts
  | .ping _ => True

/-- **The sizes are right** exactly for the requests whose text fits a queue slot and that do not exhaust their
bound. -/
theorem writes_bounded_iff (r : Request) : r.Bounded ↔ r.Fits := by
  cases r with
  | ping r =>
    refine iff_of_true ⟨r.length_writeJson_le, fun next accept queue past hp => ?_⟩ trivial
    rcases List.mem_cons.mp hp with rfl | hp
    · exact ping_bounded next accept r
    · rw [List.mem_singleton.mp hp, Ping.toJson, writeInto, List.drop_eq_nil_iff]
      exact r.length_writeJson_le
  | dynamic r =>
    rw [Request.Bounded, Request.Fits]
    constructor
    · rintro ⟨hsize, hpast⟩
      refine ⟨?_, (size_bounded_iff r).mp hsize⟩
      have := hpast 0 (fun _ => true) [] _ (List.mem_cons_of_mem _ List.mem_cons_self)
      rw [enqueue_past, if_pos (by decide), List.drop_eq_nil_iff, length_writeJson] at this
      exact this
    · rintro ⟨hfit, hex⟩
      refine ⟨(size_bounded_iff r).mpr hex, fun next accept queue past hp => ?_⟩
      rcases List.mem_cons.mp hp with rfl | hp
      · exact send_bounded next accept r
      rcases List.mem_cons.mp hp with rfl | hp
      · rw [enqueue_past]
        split_ifs
        · rw [List.drop_eq_nil_iff, length_writeJson]
          exact hfit
        · rfl
      · rw [List.mem_singleton.mp hp, DynamicRequest.toJson, writeInto, List.drop_eq_nil_iff, length_writeJson]
        exact hfit.trans (by decide)

/-- One symbol of one control byte, without a snapshot. -/
def oneByteRequest : DynamicRequest := .tradeSubscribe { symbols := [['\x01']], snapshot := some false }

/-- A batch of a hundred symbols. -/
def hundredSymbols : DynamicRequest :=
  .tradeSubscribe { symbols := List.replicate 100 "BTC/USD".toList, reqId := some 10 }

/-- The first request's text has 88 bytes and its bound is 87; the second one's has 1074, and 50 of them are written
behind the end of its slot. -/
theorem bounds_exceeded :
    (¬ (Request.dynamic oneByteRequest).Bounded ∧
      oneByteRequest.writeJson.length = 88 ∧ oneByteRequest.maxJsonSize = 87) ∧
    (¬ (Request.dynamic hundredSymbols).Bounded ∧
      (Scheduler.enqueue [] hundredSymbols).2.ok = false ∧
      (Scheduler.enqueue [] hundredSymbols).2.past.length = 50) := by
  have hlong : (Scheduler.enqueue [] hundredSymbols).2.past.length = 50 := by decide +kernel
  refine ⟨⟨fun h => absurd h.1 (by decide +kernel), by decide +kernel, by decide +kernel⟩, ?_, by decide +kernel, hlong⟩
  intro h
  have := h.2 0 (fun _ => true) [] _ (List.mem_cons_of_mem _ List.mem_cons_self)
  rw [this] at hlong
  exact absurd hlong (by decide)

end Wirekrak.Protocol.Schema
