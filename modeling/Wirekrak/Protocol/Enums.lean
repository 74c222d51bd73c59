import Wirekrak.Protocol.Json

/-!
# Wirekrak.Protocol.Enums — the three ways from a text to an enumeration

An enumeration of the protocol has a name for each value, a plain conversion that compares the whole text, and a fast
one that compares a packed word.  `pack4` takes four bytes from the start of the view and does not ask how long it is;
`pack8` pads with zeros.

* `bytesFrom`: what stands in memory from the start of a view on.
* `TagsOf`: the tags are the packed names; `ofTag_eq_some_iff`.
* `Apart4`, `Apart8`: a text that is not mistaken for a name (`fast4_exact_iff`, `fast8_exact_iff`).
* `ProtocolEnum.agrees_iff`: the texts on which the three agree, whatever follows them in memory.
-/

namespace Wirekrak.Protocol

/-! ## Packed words -/

/-- The bytes from the start of a view on: its text, and what follows it in memory. -/
def bytesFrom (s : Text) (behind : ℕ → Char) (i : ℕ) : Char := s[i]?.getD (behind (i - s.length))

/-- `pack4` of a view: four bytes, whatever its length. -/
def pack4View (bytes : ℕ → Char) : Text := [bytes 0, bytes 1, bytes 2, bytes 3]

theorem pack4View_zeros (s : Text) : pack4View (bytesFrom s fun _ => '\x00') = pack4 s := by
  unfold pack4View bytesFrom pack4
  match s with
  | [] => rfl
  | [a] => rfl
  | [a, b] => rfl
  | [a, b, c] => rfl
  | a :: b :: c :: d :: s => rfl

/-- Four bytes of the text are all that is read of a longer one. -/
theorem pack4View_of_le {s : Text} (h : 4 ≤ s.length) (behind : ℕ → Char) :
    pack4View (bytesFrom s behind) = s.take 4 := by
  match s with
  | a :: b :: c :: d :: s => rfl

theorem pack4_of_le {s : Text} (h : 4 ≤ s.length) : pack4 s = s.take 4 := by
  rw [← pack4View_zeros, pack4View_of_le h]

/-- A text begins what is read of it, or is longer. -/
theorem prefix_pack4View {s : Text} (h : s.length ≤ 4) (behind : ℕ → Char) : s <+: pack4View (bytesFrom s behind) := by
  match s with
  | [] => exact List.nil_prefix
  | [a] => exact ⟨_, rfl⟩
  | [a, b] => exact ⟨_, rfl⟩
  | [a, b, c] => exact ⟨_, rfl⟩
  | [a, b, c, d] => exact ⟨[], rfl⟩

/-- Any word that begins with a short text is read somewhere. -/
theorem exists_behind {s w : Text} (hw : w.length = 4) (h : s <+: w) :
    ∃ behind, pack4View (bytesFrom s behind) = w := by
  obtain ⟨t, rfl⟩ := h
  refine ⟨fun i => t[i]?.getD '\x00', ?_⟩
  have hbyte : ∀ i, i < 4 → bytesFrom s (fun i => t[i]?.getD '\x00') i = (s ++ t)[i]?.getD '\x00' := by
    intro i hi
    unfold bytesFrom
    by_cases hs : i < s.length
    · simp [List.getElem?_append_left hs, hs]
    · simp [List.getElem?_append_right (not_lt.mp hs), List.getElem?_eq_none (not_lt.mp hs)]
  generalize s ++ t = w at hw hbyte
  match w with
  | [a, b, c, d] =>
    simp only [pack4View, hbyte 0 (by decide), hbyte 1 (by decide), hbyte 2 (by decide), hbyte 3 (by decide)]
    rfl

/-! ## Tags -/

/-- The tags of an enumeration are its packed names. -/
structure TagsOf {α : Type} (pack : Text → Text) (name : α → Text) (tags : List (Text × α)) : Prop where
  nodup : (tags.map Prod.fst).Nodup
  complete : ∀ a, (pack (name a), a) ∈ tags
  sound : ∀ e ∈ tags, e.1 = pack (name e.2)

section Tags

variable {α : Type} {pack : Text → Text} {name : α → Text} {tags : List (Text × α)}

theorem ofTag_of_mem (hn : (tags.map Prod.fst).Nodup) {w : Text} {a : α} (h : (w, a) ∈ tags) :
    ofTag tags w = some a := by
  unfold ofTag
  induction tags with
  | nil => cases h
  | cons e tags ih =>
    rw [List.map_cons, List.nodup_cons] at hn
    by_cases he : e.1 = w
    · have hea : e = (w, a) := by
        rcases List.mem_cons.mp h with rfl | h
        · rfl
        · exact absurd (List.mem_map_of_mem h) (he ▸ hn.1)
      simp [hea]
    · rw [List.find?_cons_of_neg (by simpa using he)]
      refine ih hn.2 ((List.mem_cons.mp h).resolve_left ?_)
      rintro rfl
      exact he rfl

theorem ofTag_eq_some_iff (h : TagsOf pack name tags) {w : Text} {a : α} :
    ofTag tags w = some a ↔ w = pack (name a) := by
  constructor
  · intro hw
    obtain ⟨e, he, rfl⟩ := Option.map_eq_some_iff.mp hw
    have hew : e.1 = w := by simpa using List.find?_some he
    rw [← hew, h.sound e (List.mem_of_find?_eq_some he)]
  · rintro rfl
    exact ofTag_of_mem h.nodup (h.complete a)

theorem TagsOf.pack_inj (h : TagsOf pack name tags) {a b : α} (hab : pack (name a) = pack (name b)) : a = b := by
  have ha := ofTag_of_mem h.nodup (h.complete a)
  rw [hab, ofTag_of_mem h.nodup (h.complete b)] at ha
  exact (Option.some.inj ha).symm

/-- The text is a name that fills the word, or neither begins with a tag nor begins one. -/
def Apart4 (name : α → Text) (s : Text) : Prop :=
  (∃ a, name a = s ∧ 4 ≤ s.length) ∨ ∀ a, ¬ pack4 (name a) <+: s ∧ ¬ s <+: pack4 (name a)

/-- The text is a name, or does not pack to the word of one. -/
def Apart8 (name : α → Text) (s : Text) : Prop := (∃ a, name a = s) ∨ ∀ a, pack8 (name a) ≠ pack8 s

theorem pack4_length (s : Text) : (pack4 s).length = 4 := by
  simp [pack4]

theorem pack4_isPrefix {s : Text} (h : 4 ≤ s.length) : pack4 s <+: s := by
  rw [pack4_of_le h]
  exact List.take_prefix 4 s

theorem prefix_pack4 {s : Text} (h : s.length ≤ 4) : s <+: pack4 s := by
  rw [← pack4View_zeros]
  exact prefix_pack4View h _

/-- What is read of a text begins it or is begun by it. -/
theorem pack4View_comparable (s : Text) (behind : ℕ → Char) :
    pack4View (bytesFrom s behind) <+: s ∨ s <+: pack4View (bytesFrom s behind) := by
  rcases le_total 4 s.length with h | h
  · rw [pack4View_of_le h]
    exact Or.inl (List.take_prefix 4 s)
  · exact Or.inr (prefix_pack4View h behind)

/-- **The four bytes read give the name's value, whatever stands behind the text, where the text is apart.** -/
theorem fast4_exact_iff (h : TagsOf pack4 name tags) (s : Text) :
    (∀ behind a, ofTag tags (pack4View (bytesFrom s behind)) = some a ↔ name a = s) ↔ Apart4 name s := by
  simp only [ofTag_eq_some_iff h]
  constructor
  · intro hexact
    by_contra hno
    simp only [Apart4, not_or, not_exists, not_and, not_forall] at hno
    obtain ⟨hshort, a, ha⟩ := hno
    have hlike : pack4 (name a) <+: s ∨ s <+: pack4 (name a) := by
      by_contra hnot
      exact ha (fun h1 => hnot (Or.inl h1)) fun h2 => hnot (Or.inr h2)
    by_cases hs : 4 ≤ s.length
    · -- the tag begins the text, and the text is taken for the name
      have htag : s.take 4 = pack4 (name a) := by
        rcases hlike with hp | hp
        · rw [List.prefix_iff_eq_take.mp hp, pack4_length]
        · have := hp.length_le
          rw [pack4_length] at this
          rw [List.take_of_length_le this]
          exact hp.eq_of_length (by rw [pack4_length]; omega)
      exact hshort a ((hexact (fun _ => '\x00') a).mp (by rw [pack4View_of_le hs, htag])) hs
    · -- the text is short: other bytes behind it make another word
      have hpre : s <+: pack4 (name a) := by
        rcases hlike with hp | hp
        · have := hp.length_le
          rw [pack4_length] at this
          omega
        · exact hp
      obtain ⟨behind, hb⟩ := exists_behind (pack4_length _) hpre
      have hname := (hexact behind a).mp hb
      have hall : ∀ behind', pack4View (bytesFrom s behind') = pack4 (name a) := fun b => (hexact b a).mpr hname
      have hlast : ∀ c : Char, (pack4View (bytesFrom s fun _ => c))[3]? = some c := by
        intro c
        simp [pack4View, bytesFrom, List.getElem?_eq_none (show s.length ≤ 3 by omega)]
      have hx := hlast 'x'
      have hy := hlast 'y'
      rw [hall] at hx hy
      rw [hx] at hy
      exact absurd (Option.some.inj hy) (by decide)
  · rintro (⟨a, rfl, hlen⟩ | hapart) behind b
    · rw [pack4View_of_le hlen, ← pack4_of_le hlen]
      exact ⟨fun hab => by rw [h.pack_inj hab], fun hab => by rw [hab]⟩
    · refine iff_of_false (fun hb => ?_) ?_
      · have := pack4View_comparable s behind
        rw [hb] at this
        exact this.elim (hapart b).1 (hapart b).2
      · rintro rfl
        rcases le_total 4 (name b).length with hlen | hlen
        · exact (hapart b).1 (pack4_isPrefix hlen)
        · exact (hapart b).2 (prefix_pack4 hlen)

theorem fast8_exact_iff (h : TagsOf pack8 name tags) (s : Text) :
    (∀ a, ofTag tags (pack8 s) = some a ↔ name a = s) ↔ Apart8 name s := by
  simp only [ofTag_eq_some_iff h]
  constructor
  · intro hexact
    by_contra hno
    simp only [Apart8, not_or, not_exists, not_forall, not_not] at hno
    obtain ⟨hnone, a, ha⟩ := hno
    exact hnone a ((hexact a).mp ha.symm)
  · rintro (⟨a, rfl⟩ | hapart) b
    · exact ⟨fun hab => by rw [h.pack_inj hab], fun hab => by rw [hab]⟩
    · exact iff_of_false (fun hb => hapart b hb.symm) fun hb => hapart b (by rw [hb])

end Tags

/-! ## The enumerations -/

def unknownText : Text := ['u', 'n', 'k', 'n', 'o', 'w', 'n']

/-- The plain conversions: the cases of `switch (s.size())` with the text compared and the value.  Where one character
is tested before the text, the test says no more than the comparison. -/
def ofSize {α : Type} (cases : List (ℕ × Text × α)) (s : Text) : Option α :=
  (cases.find? fun c => c.1 = s.length ∧ c.2.1 = s).map fun c => c.2.2

def Feed.toString : Option Feed → Text
  | some .trade => ['t', 'r', 'a', 'd', 'e']
  | some .ticker => ['t', 'i', 'c', 'k', 'e', 'r']
  | some .book => ['b', 'o', 'o', 'k']
  | some .heartbeat => ['h', 'e', 'a', 'r', 't', 'b', 'e', 'a', 't']
  | some .status => ['s', 't', 'a', 't', 'u', 's']
  | none => unknownText

def channelCases : List (ℕ × Text × Feed) :=
  [(4, ['b', 'o', 'o', 'k'], .book), (5, ['t', 'r', 'a', 'd', 'e'], .trade),
    (6, ['t', 'i', 'c', 'k', 'e', 'r'], .ticker), (6, ['s', 't', 'a', 't', 'u', 's'], .status),
    (9, ['h', 'e', 'a', 'r', 't', 'b', 'e', 'a', 't'], .heartbeat)]

def toChannelEnum : Text → Option Feed := ofSize channelCases

def channelTags : List (Text × Feed) :=
  [(['t', 'r', 'a', 'd'], .trade), (['t', 'i', 'c', 'k'], .ticker), (['b', 'o', 'o', 'k'], .book),
    (['h', 'e', 'a', 'r'], .heartbeat), (['s', 't', 'a', 't'], .status)]

def Method.toString : Option Method → Text
  | some .subscribe => ['s', 'u', 'b', 's', 'c', 'r', 'i', 'b', 'e']
  | some .unsubscribe => ['u', 'n', 's', 'u', 'b', 's', 'c', 'r', 'i', 'b', 'e']
  | some .ping => ['p', 'i', 'n', 'g']
  | some .pong => ['p', 'o', 'n', 'g']
  | none => unknownText

def methodCases : List (ℕ × Text × Method) :=
  [(4, ['p', 'i', 'n', 'g'], .ping), (4, ['p', 'o', 'n', 'g'], .pong),
    (9, ['s', 'u', 'b', 's', 'c', 'r', 'i', 'b', 'e'], .subscribe),
    (11, ['u', 'n', 's', 'u', 'b', 's', 'c', 'r', 'i', 'b', 'e'], .unsubscribe)]

def toMethodEnum : Text → Option Method := ofSize methodCases

def methodTags : List (Text × Method) :=
  [(['s', 'u', 'b', 's'], .subscribe), (['u', 'n', 's', 'u'], .unsubscribe), (['p', 'i', 'n', 'g'], .ping),
    (['p', 'o', 'n', 'g'], .pong)]

def Side.toString : Option Side → Text
  | some .buy => ['b', 'u', 'y']
  | some .sell => ['s', 'e', 'l', 'l']
  | none => unknownText

def sideCases : List (ℕ × Text × Side) :=
  [(3, ['b', 'u', 'y'], .buy), (4, ['s', 'e', 'l', 'l'], .sell)]

def toSideEnum : Text → Option Side := ofSize sideCases

def sideTags : List (Text × Side) :=
  [(['b', 'u', 'y', '\x00'], .buy), (['s', 'e', 'l', 'l'], .sell)]

def OrderType.toString : Option OrderType → Text
  | some .limit => ['l', 'i', 'm', 'i', 't']
  | some .market => ['m', 'a', 'r', 'k', 'e', 't']
  | none => unknownText

def orderTypeCases : List (ℕ × Text × OrderType) :=
  [(5, ['l', 'i', 'm', 'i', 't'], .limit), (6, ['m', 'a', 'r', 'k', 'e', 't'], .market)]

def toOrderTypeEnum : Text → Option OrderType := ofSize orderTypeCases

def orderTypeTags : List (Text × OrderType) :=
  [(['l', 'i', 'm', 'i'], .limit), (['m', 'a', 'r', 'k'], .market)]

def PayloadType.toString : Option PayloadType → Text
  | some .snapshot => ['s', 'n', 'a', 'p', 's', 'h', 'o', 't']
  | some .update => ['u', 'p', 'd', 'a', 't', 'e']
  | none => unknownText

def payloadTypeCases : List (ℕ × Text × PayloadType) :=
  [(6, ['u', 'p', 'd', 'a', 't', 'e'], .update), (8, ['s', 'n', 'a', 'p', 's', 'h', 'o', 't'], .snapshot)]

def toPayloadTypeEnum : Text → Option PayloadType := ofSize payloadTypeCases

def payloadTypeTags : List (Text × PayloadType) :=
  [(['u', 'p', 'd', 'a', 't', 'e', '\x00', '\x00'], .update), (['s', 'n', 'a', 'p', 's', 'h', 'o', 't'], .snapshot)]

def SystemState.toString : Option SystemState → Text
  | some .online => ['o', 'n', 'l', 'i', 'n', 'e']
  | some .cancelOnly => ['c', 'a', 'n', 'c', 'e', 'l', '_', 'o', 'n', 'l', 'y']
  | some .maintenance => ['m', 'a', 'i', 'n', 't', 'e', 'n', 'a', 'n', 'c', 'e']
  | some .postOnly => ['p', 'o', 's', 't', '_', 'o', 'n', 'l', 'y']
  | none => unknownText

def systemStateCases : List (ℕ × Text × SystemState) :=
  [(6, ['o', 'n', 'l', 'i', 'n', 'e'], .online), (9, ['p', 'o', 's', 't', '_', 'o', 'n', 'l', 'y'], .postOnly),
    (11, ['c', 'a', 'n', 'c', 'e', 'l', '_', 'o', 'n', 'l', 'y'], .cancelOnly),
    (12, ['m', 'a', 'i', 'n', 't', 'e', 'n', 'a', 'n', 'c', 'e'], .maintenance)]

def toSystemStateEnum : Text → Option SystemState := ofSize systemStateCases

def systemStateTags : List (Text × SystemState) :=
  [(['o', 'n', 'l', 'i'], .online), (['c', 'a', 'n', 'c'], .cancelOnly), (['m', 'a', 'i', 'n'], .maintenance),
    (['p', 'o', 's', 't'], .postOnly)]

/-- A case whose label is not the length of its text is never taken. -/
theorem ofSize_eq_ofTag {α : Type} {cases : List (ℕ × Text × α)} {s : Text}
    (h : ∀ c ∈ cases, c.2.1 = s → c.1 = s.length) : ofSize cases s = ofTag (cases.map Prod.snd) s := by
  unfold ofSize ofTag
  induction cases with
  | nil => rfl
  | cons c cases ih =>
    have hrest := ih fun c' hc' => h c' (List.mem_cons_of_mem _ hc')
    by_cases hc : c.2.1 = s
    · simp [hc, h c List.mem_cons_self hc]
    · rw [List.map_cons, List.find?_cons_of_neg (by simp [hc]), List.find?_cons_of_neg (by simp [hc]), hrest]

theorem ofSize_eq_some_iff {α : Type} {name : α → Text} {cases : List (ℕ × Text × α)} {s : Text}
    (h : ∀ c ∈ cases, c.2.1 = s → c.1 = s.length) (ht : TagsOf id name (cases.map Prod.snd)) (a : α) :
    ofSize cases s = some a ↔ name a = s := by
  rw [ofSize_eq_ofTag h, ofTag_eq_some_iff ht]
  exact eq_comm

/-- The enumerations that are read from the wire. -/
inductive ProtocolEnum
  | channel
  | method
  | side
  | orderType
  | payloadType
  | systemState
  deriving DecidableEq

namespace ProtocolEnum

def Value : ProtocolEnum → Type
  | .channel => Feed
  | .method => Method
  | .side => Side
  | .orderType => OrderType
  | .payloadType => PayloadType
  | .systemState => SystemState

def toString : (e : ProtocolEnum) → Option e.Value → Text
  | .channel => Feed.toString
  | .method => Method.toString
  | .side => Side.toString
  | .orderType => OrderType.toString
  | .payloadType => PayloadType.toString
  | .systemState => SystemState.toString

def plain : (e : ProtocolEnum) → Text → Option e.Value
  | .channel => toChannelEnum
  | .method => toMethodEnum
  | .side => toSideEnum
  | .orderType => toOrderTypeEnum
  | .payloadType => toPayloadTypeEnum
  | .systemState => toSystemStateEnum

/-- The fast conversion of a text, and what follows it in memory. -/
def fast : (e : ProtocolEnum) → Text → (ℕ → Char) → Option e.Value
  | .channel, s, behind => ofTag channelTags (pack4View (bytesFrom s behind))
  | .method, s, behind => ofTag methodTags (pack4View (bytesFrom s behind))
  | .side, s, behind => ofTag sideTags (pack4View (bytesFrom s behind))
  | .orderType, s, behind => ofTag orderTypeTags (pack4View (bytesFrom s behind))
  | .payloadType, s, _ => ofTag payloadTypeTags (pack8 s)
  | .systemState, s, behind => ofTag systemStateTags (pack4View (bytesFrom s behind))

/-- Where zeros follow the text, these are the conversions of the parsers. -/
theorem fast_zeros (s : Text) :
    fast .channel s (fun _ => '\x00') = toChannelEnumFast s ∧ fast .method s (fun _ => '\x00') = toMethodEnumFast s ∧
    fast .side s (fun _ => '\x00') = toSideEnumFast s ∧ fast .orderType s (fun _ => '\x00') = toOrderTypeEnumFast s ∧
    fast .payloadType s (fun _ => '\x00') = toPayloadTypeEnumFast s ∧
    fast .systemState s (fun _ => '\x00') = toSystemStateEnumFast s := by
  simp only [fast, pack4View_zeros]
  exact ⟨rfl, rfl, rfl, rfl, rfl, rfl⟩

/-- Whatever follows the text, both conversions are the inverse of `to_string`. -/
def Agrees (e : ProtocolEnum) (s : Text) : Prop :=
  ∀ (behind : ℕ → Char) (a : e.Value),
    (e.fast s behind = some a ↔ e.toString (some a) = s) ∧ (e.plain s = some a ↔ e.toString (some a) = s)

/-- The texts that neither are mistaken for a name nor run into a wrong label. -/
def Apart : ProtocolEnum → Text → Prop
  | .channel, s => Apart4 (fun a => Feed.toString (some a)) s
  | .method, s => Apart4 (fun a => Method.toString (some a)) s
  | .side, s => Apart4 (fun a => Side.toString (some a)) s
  | .orderType, s => Apart4 (fun a => OrderType.toString (some a)) s
  | .payloadType, s => Apart8 (fun a => PayloadType.toString (some a)) s
  | .systemState, s =>
    Apart4 (fun a => SystemState.toString (some a)) s ∧ s ≠ SystemState.toString (some .maintenance)

end ProtocolEnum

/-! ## Agreement -/

theorem channelCases_spec : TagsOf id (fun a => Feed.toString (some a)) (channelCases.map Prod.snd) :=
  ⟨by decide, fun a => by cases a <;> decide, by decide⟩

theorem channelTags_spec : TagsOf pack4 (fun a => Feed.toString (some a)) channelTags :=
  ⟨by decide, fun a => by cases a <;> decide, by decide⟩

theorem methodCases_spec : TagsOf id (fun a => Method.toString (some a)) (methodCases.map Prod.snd) :=
  ⟨by decide, fun a => by cases a <;> decide, by decide⟩

theorem methodTags_spec : TagsOf pack4 (fun a => Method.toString (some a)) methodTags :=
  ⟨by decide, fun a => by cases a <;> decide, by decide⟩

theorem sideCases_spec : TagsOf id (fun a => Side.toString (some a)) (sideCases.map Prod.snd) :=
  ⟨by decide, fun a => by cases a <;> decide, by decide⟩

theorem sideTags_spec : TagsOf pack4 (fun a => Side.toString (some a)) sideTags :=
  ⟨by decide, fun a => by cases a <;> decide, by decide⟩

theorem orderTypeCases_spec : TagsOf id (fun a => OrderType.toString (some a)) (orderTypeCases.map Prod.snd) :=
  ⟨by decide, fun a => by cases a <;> decide, by decide⟩

theorem orderTypeTags_spec : TagsOf pack4 (fun a => OrderType.toString (some a)) orderTypeTags :=
  ⟨by decide, fun a => by cases a <;> decide, by decide⟩

theorem payloadTypeCases_spec : TagsOf id (fun a => PayloadType.toString (some a)) (payloadTypeCases.map Prod.snd) :=
  ⟨by decide, fun a => by cases a <;> decide, by decide⟩

theorem payloadTypeTags_spec : TagsOf pack8 (fun a => PayloadType.toString (some a)) payloadTypeTags :=
  ⟨by decide, fun a => by cases a <;> decide, by decide⟩

theorem systemStateCases_spec : TagsOf id (fun a => SystemState.toString (some a)) (systemStateCases.map Prod.snd) :=
  ⟨by decide, fun a => by cases a <;> decide, by decide⟩

theorem systemStateTags_spec : TagsOf pack4 (fun a => SystemState.toString (some a)) systemStateTags :=
  ⟨by decide, fun a => by cases a <;> decide, by decide⟩

theorem plain_exact {α : Type} {name : α → Text} {cases : List (ℕ × Text × α)}
    (h : TagsOf id name (cases.map Prod.snd)) (hlabel : ∀ c ∈ cases, c.1 = c.2.1.length) (s : Text) (a : α) :
    ofSize cases s = some a ↔ name a = s := by
  refine ofSize_eq_some_iff ?_ h a
  rintro c hc rfl
  exact hlabel c hc

/-- The label of `maintenance` is 12, and it has eleven letters. -/
theorem toSystemStateEnum_maintenance : toSystemStateEnum (SystemState.toString (some .maintenance)) = none := by
  decide

theorem toSystemStateEnum_exact {s : Text} (hs : s ≠ SystemState.toString (some .maintenance)) (a : SystemState) :
    ofSize systemStateCases s = some a ↔ SystemState.toString (some a) = s := by
  refine ofSize_eq_some_iff ?_ systemStateCases_spec a
  rintro c hc rfl
  revert c
  decide

theorem forall_exact_iff {ι α : Type} {fast : ι → α → Prop} {plain exact : α → Prop} [Nonempty ι]
    (h : ∀ a, plain a ↔ exact a) : (∀ i a, (fast i a ↔ exact a) ∧ (plain a ↔ exact a)) ↔ ∀ i a, fast i a ↔ exact a := by
  simp [h]

theorem both_exact_iff {α : Type} {name : α → Text} {tags : List (Text × α)} {cases : List (ℕ × Text × α)}
    (hc : TagsOf id name (cases.map Prod.snd)) (hlabel : ∀ c ∈ cases, c.1 = c.2.1.length)
    (ht : TagsOf pack4 name tags) (s : Text) :
    (∀ behind a, (ofTag tags (pack4View (bytesFrom s behind)) = some a ↔ name a = s) ∧
      (ofSize cases s = some a ↔ name a = s)) ↔ Apart4 name s :=
  (forall_exact_iff (plain_exact hc hlabel s)).trans (fast4_exact_iff ht s)

/-- **The fast conversion, the plain one and the inverse of `to_string` agree on a text, whatever follows it in memory,
just where the text is apart.** -/
theorem ProtocolEnum.agrees_iff (e : ProtocolEnum) (s : Text) : e.Agrees s ↔ e.Apart s := by
  cases e with
  | channel => exact both_exact_iff channelCases_spec (by decide) channelTags_spec s
  | method => exact both_exact_iff methodCases_spec (by decide) methodTags_spec s
  | side => exact both_exact_iff sideCases_spec (by decide) sideTags_spec s
  | orderType => exact both_exact_iff orderTypeCases_spec (by decide) orderTypeTags_spec s
  | payloadType =>
    refine (forall_exact_iff (plain_exact payloadTypeCases_spec (by decide) s)).trans ?_
    exact (forall_const _).trans (fast8_exact_iff payloadTypeTags_spec s)
  | systemState =>
    by_cases hs : s = SystemState.toString (some .maintenance)
    · refine iff_of_false (fun hagree => ?_) fun hapart => hapart.2 hs
      have hplain := ((hagree (fun _ => '\x00') .maintenance).2).mpr hs.symm
      rw [hs] at hplain
      cases hplain.symm.trans toSystemStateEnum_maintenance
    · refine (forall_exact_iff (toSystemStateEnum_exact hs)).trans ?_
      exact (fast4_exact_iff systemStateTags_spec s).trans (and_iff_left hs).symm

/-- The wrong label keeps the plain conversion from `maintenance`; and `buy` is a side only before a zero. -/
theorem ProtocolEnum.maintenance_disagrees :
    ProtocolEnum.fast .systemState ['m', 'a', 'i', 'n', 't', 'e', 'n', 'a', 'n', 'c', 'e'] (fun _ => '\x00') =
      some SystemState.maintenance ∧
    ProtocolEnum.plain .systemState ['m', 'a', 'i', 'n', 't', 'e', 'n', 'a', 'n', 'c', 'e'] = none ∧
    ProtocolEnum.fast .side ['b', 'u', 'y'] (fun _ => '\x00') = some Side.buy ∧
    ProtocolEnum.fast .side ['b', 'u', 'y'] (fun _ => 'Z') = none ∧
    ¬ ∀ e s, ProtocolEnum.Agrees e s := by
  refine ⟨rfl, toSystemStateEnum_maintenance, rfl, rfl, fun hall => ?_⟩
  have hagree := (hall .side ['b', 'u', 'y'] (fun _ => 'Z') Side.buy).1
  cases hagree.mpr rfl

end Wirekrak.Protocol
