import Wirekrak.Flashstrike.Quantities

/-!
# Wirekrak.Flashstrike.Ledger — what has become of the quantity of an order

An account is opened for every order that `process_order` accepts.  The quantity of a trade event is booked on both
accounts it names, that of the maker and that of the taker; an account is closed when its order has gone.

* `Step.settles`: what a request does to the quantity of a resting order; `post_holds`, `opened_holds`: its account.
* `exchange_step`: where a trade event takes its quantity from.  That it is positive needs new quantities in range; the
  accounts agree with the book without that.
* `quantity_conserved`: both, and numbers without gaps, in every run.
-/

namespace Wirekrak.Flashstrike

open Wirekrak.Lib Engine

/-- The order a request is about. -/
def Request.orderId : Request → OrderId
  | .newOrder id _ _ _ _ => id
  | .modifyPrice id _ => id
  | .modifyQuantity id _ => id
  | .cancel id => id

/-! ## Accounts -/

/-- The quantity of the trade events that name an order. -/
def volume (id : OrderId) (evs : List TradeEvent) : ℤ :=
  (evs.map (fun t => if t.makerOrderId = id ∨ t.takerOrderId = id then t.qty else 0)).sum

/-- What is left of the order with an id, if it rests. -/
def OrderBook.remaining (cfg : Config) (b : OrderBook) (id : OrderId) : ℤ :=
  match (b.live cfg).find? (fun i => decide ((b.order i).id = id)) with
  | some i => (b.order i).qty
  | none => 0

/-- The account of an order; `left` is what was left of it when it has gone. -/
structure Account where
  id : OrderId
  submitted : ℤ
  traded : ℤ
  left : Option ℤ
  deriving DecidableEq

namespace Engine

variable (cfg : Config)

/-- The trade events since an earlier state. -/
def newTrades (e e' : Engine) : List TradeEvent := e'.trades.drop e.trades.length

/-- What an accepted resize adds to the quantity of an order. -/
def resized (e : Engine) (req : Request) (st : OperationStatus) (id : OrderId) : ℤ :=
  match req with
  | .modifyQuantity id' newQty => if st = .success ∧ id' = id then newQty - e.book.remaining cfg id else 0
  | _ => 0

/-- A request is booked on an account.  An order that has gone is filled, unless it was cancelled. -/
def post (e : Engine) (req : Request) (st : OperationStatus) (e' : Engine) (a : Account) : Account :=
  if a.left = none then
    { a with
      submitted := a.submitted + e.resized cfg req st a.id
      traded := a.traded + volume a.id (e.newTrades e')
      left := if a.id ∈ e'.book.liveIds cfg then none
        else some (if req = .cancel a.id then e.book.remaining cfg a.id else 0) }
  else a

/-- The account of an accepted order, after its own request.  What does not rest is discarded. -/
def opened (e : Engine) : Request → List Account
  | .newOrder id type side price qty =>
    match processOrder cfg e id type side price qty with
    | .ok (_, _, o, e') =>
      if validateOrder cfg (incoming id type side price qty) = true then
        [⟨id, qty, volume id (e.newTrades e'), if id ∈ e'.book.liveIds cfg then none else some o.qty⟩]
      else []
    | .error _ => []
  | _ => []

end Engine

/-- The engine and the accounts of the orders it has accepted. -/
structure Ledger where
  engine : Engine
  accounts : List Account

namespace Ledger

variable (cfg : Config)

def new : Ledger := ⟨.new cfg, []⟩

/-- The ledger after an answered request. -/
def booked (s : Ledger) (req : Request) (st : OperationStatus) (e' : Engine) : Ledger :=
  ⟨e', s.accounts.map (s.engine.post cfg req st e') ++ s.engine.opened cfg req⟩

/-- One request, whatever its status. -/
def Steps (s : Ledger) (req : Request) (s' : Ledger) : Prop :=
  ∃ st e', Engine.step cfg s.engine req = .ok (st, e') ∧ s' = s.booked cfg req st e'

/-- What is left of the order of an account: it rests, or it has gone. -/
def remaining (s : Ledger) (a : Account) : ℤ := a.left.getD (s.engine.book.remaining cfg a.id)

/-- **Conservation**: the submitted quantity of every order has been traded or is left. -/
def Balanced (s : Ledger) : Prop := ∀ a ∈ s.accounts, a.submitted = a.traded + s.remaining cfg a

instance (s : Ledger) : Decidable (s.Balanced cfg) := inferInstanceAs (Decidable (∀ a ∈ s.accounts, _))

end Ledger

namespace Engine

variable (cfg : Config)

/-- The trade events are numbered from 1 on. -/
def Numbered (e : Engine) : Prop := ∀ k t, e.trades[k]? = some t → t.seqNum = UInt64.ofNat (k + 1)

/-- **A trade**: a positive quantity is taken from one live order of the other side, and from the taker. -/
structure Exchange (e : Engine) (req : Request) (e' : Engine) (t : TradeEvent) : Prop where
  pos : 0 < t.qty
  taker : t.takerOrderId = req.orderId
  maker : ∃ i, e.book.Rests cfg t.takerSide.opp i ∧ (e.book.order i).id = t.makerOrderId ∧
    ∀ j ∈ e.book.live cfg, (e.book.order j).id = t.makerOrderId → j = i
  paid : e'.book.remaining cfg t.makerOrderId = e.book.remaining cfg t.makerOrderId - t.qty

/-- The id of an accepted order, limit or market, is neither reserved nor that of an order that rests. -/
def Distinct (e : Engine) : Request → Prop
  | .newOrder id type side price qty => validateOrder cfg (incoming id type side price qty) = true →
    OrderIdMap.Usable id ∧ id ∉ e.book.liveIds cfg
  | _ => True

instance (e : Engine) : ∀ req : Request, Decidable (e.Distinct cfg req)
  | .newOrder _ _ _ _ _ => inferInstanceAs (Decidable (_ → _ ∧ _))
  | .modifyPrice _ _ => inferInstanceAs (Decidable True)
  | .modifyQuantity _ _ => inferInstanceAs (Decidable True)
  | .cancel _ => inferInstanceAs (Decidable True)

end Engine

/-! ## What the trade events name -/

section Volume

variable {data : ℕ → OrderData} {id tid : OrderId} {s : Side} {n : UInt64} {fs : List (ℕ × ℤ)}

/-- A sum with one summand. -/
theorem sum_map_single {α : Type*} {L : List α} {a : α} {g : α → ℤ} (hnd : L.Nodup) (ha : a ∈ L)
    (h0 : ∀ b ∈ L, b ≠ a → g b = 0) : (L.map g).sum = g a := by
  obtain ⟨A, B, rfl⟩ := List.append_of_mem ha
  have hzero : ∀ C : List α, (∀ b ∈ C, g b = 0) → (C.map g).sum = 0 := by
    intro C hC
    refine List.sum_eq_zero (fun y hy => ?_)
    obtain ⟨b, hb, rfl⟩ := List.mem_map.mp hy
    exact hC b hb
  have hna := List.nodup_middle.mp hnd
  have hA : ((A ++ B).map g).sum = 0 := by
    refine hzero _ (fun b hb => h0 b ?_ (fun he => (List.nodup_cons.mp hna).1 (he ▸ hb)))
    exact (List.perm_middle (a := a)).mem_iff.mpr (List.mem_cons_of_mem a hb)
  rw [(List.perm_middle.map g).sum_eq, List.map_cons, List.sum_cons, hA, add_zero]

theorem volume_nil (id : OrderId) : volume id [] = 0 := rfl

theorem volume_events : volume id (events data tid s n fs) =
    (fs.map (fun f => if (data f.1).id = id ∨ tid = id then f.2 else 0)).sum := by
  unfold volume
  rw [← map_events (fun m _ q => if m = id ∨ tid = id then q else 0) data tid s n fs]
  congr 1
  refine List.map_congr_left (fun t ht => ?_)
  rw [(taker_events ht).1]

/-- All of them name the taker. -/
theorem volume_taker : volume tid (events data tid s n fs) = traded fs := by
  rw [volume_events]
  congr 1
  refine List.map_congr_left (fun f _ => ?_)
  exact if_pos (Or.inr rfl)

theorem exists_fill {t : TradeEvent} (ht : t ∈ events data tid s n fs) :
    ∃ f ∈ fs, t.makerOrderId = (data f.1).id ∧ t.qty = f.2 := by
  have hm : (t.makerOrderId, t.qty) ∈ (events data tid s n fs).map (fun t => (t.makerOrderId, t.qty)) :=
    List.mem_map.mpr ⟨t, ht, rfl⟩
  rw [map_events (fun m _ q => (m, q)) data tid s n fs] at hm
  obtain ⟨f, hf, he⟩ := List.mem_map.mp hm
  exact ⟨f, hf, (Prod.mk.inj he).1.symm, (Prod.mk.inj he).2.symm⟩

theorem seqNum_events {k : ℕ} {t : TradeEvent} (ht : (events data tid s n fs)[k]? = some t) :
    t.seqNum = n + UInt64.ofNat k := by
  induction fs generalizing n k with
  | nil => cases ht
  | cons f fs ih =>
    cases k with
    | zero =>
      cases ht
      exact (UInt64.add_zero n).symm
    | succ k =>
      rw [ih ht, UInt64.ofNat_add, UInt64.add_assoc, UInt64.add_comm 1]
      rfl

end Volume

namespace View

variable {cfg : Config} {V V' : View} {b : OrderBook} {d : OrderData} {i j : ℕ} {tid : OrderId} {s : Side} {n : UInt64}
  {x : ℤ}

section Takes

variable (h : b.Abs cfg V) (hj : V.queues.Resting j) (hid : (V.data j).id ≠ tid)

include h hj hid

/-- An order that does not take is named as a maker. -/
theorem named_iff {f : ℕ × ℤ} (hf : f ∈ V.takes cfg d) : ((V.data f.1).id = (V.data j).id ∨ tid = (V.data j).id) ↔
    f.1 = j := by
  have hr := (resting_of_takes (lined_fresh h.weak h.mem.queued d) hf).1
  constructor
  · rintro (he | he)
    · exact h.id_inj hr hj he
    · exact absurd he.symm hid
  · rintro rfl
    exact Or.inl rfl

/-- The events name a maker with what is taken from it. -/
theorem volume_maker (hx : (j, x) ∈ V.takes cfg d) :
    volume (V.data j).id (events V.data tid s n (V.takes cfg d)) = x := by
  have hl := lined_fresh h.weak h.mem.queued d
  have hnd : (V.takes cfg d).Nodup := (hl.nodup.sublist (fills_makers _ _ _).sublist).of_map _
  have hothers : ∀ f ∈ V.takes cfg d, f ≠ (j, x) →
      (if (V.data f.1).id = (V.data j).id ∨ tid = (V.data j).id then f.2 else 0) = 0 := by
    intro f hf hne
    refine if_neg (fun hc => hne ?_)
    obtain ⟨k, y⟩ := f
    obtain rfl : k = j := (named_iff h hj hid hf).mp hc
    rw [takes_unique hl hx hf]
  rw [volume_events, sum_map_single hnd hx hothers, if_pos (Or.inl rfl)]

theorem volume_other (hno : ∀ x, (j, x) ∉ V.takes cfg d) :
    volume (V.data j).id (events V.data tid s n (V.takes cfg d)) = 0 := by
  rw [volume_events]
  refine List.sum_eq_zero (fun y hy => ?_)
  obtain ⟨f, hf, rfl⟩ := List.mem_map.mp hy
  refine if_neg (fun hc => hno f.2 ?_)
  have he := (named_iff h hj hid hf).mp hc
  rw [← he]
  exact hf

end Takes

/-- What a request adds to the quantity of an order. -/
def gain (V : View) (req : Request) (j : ℕ) : ℤ :=
  match req with
  | .modifyQuantity id newQty => if id = (V.data j).id ∧ newQty ≠ 0 then newQty - (V.data j).qty else 0
  | _ => 0

/-- No resting order has the id of an accepted one. -/
def Apart (cfg : Config) (V : View) : Request → Prop
  | .newOrder id type side price qty => validateOrder cfg (incoming id type side price qty) = true →
    ∀ j, V.queues.Resting j → (V.data j).id ≠ id
  | _ => True

/-- **An order and a request**: it rests on with what is left of it; or no order rests under its id, and it was cancelled
or all of it was traded. -/
def Settles (V V' : View) (req : Request) (evs : List TradeEvent) (j : ℕ) : Prop :=
  (V.Keeps V' j ∧ (V'.data j).qty = (V.data j).qty + V.gain req j - volume (V.data j).id evs) ∨
  ((∀ i, V'.queues.Resting i → (V'.data i).id ≠ (V.data j).id) ∧ V.gain req j = 0 ∧
    (V.data j).qty = volume (V.data j).id evs + if req = .cancel (V.data j).id then (V.data j).qty else 0)

theorem Settles.keep {W : View} {req : Request} {evs : List TradeEvent} (hW : V.Settles W req evs j)
    (hold : ∀ k, W.queues.Resting k → V'.queues.Resting k ∧ V'.data k = W.data k)
    (hnew : ∀ k, V'.queues.Resting k → W.queues.Resting k ∨ (V'.data k).id ≠ (V.data j).id) :
    V.Settles V' req evs j := by
  rcases hW with ⟨⟨h1, h2, h3⟩, h4⟩ | ⟨h1, h2⟩
  · obtain ⟨hr, hd⟩ := hold j h1
    refine Or.inl ⟨⟨hr, ?_, ?_⟩, ?_⟩
    all_goals rw [hd]
    · exact h2
    · exact h3
    · exact h4
  · refine Or.inr ⟨fun k hk => ?_, h2⟩
    rcases hnew k hk with hr | hne
    · rw [(hold k hr).2]
      exact h1 k hr
    · exact hne

/-- The resting orders, when a new one takes. -/
theorem settles_swept (h : b.Abs cfg V) (hj : V.queues.Resting j) {id : OrderId} (hid : (V.data j).id ≠ id)
    {type : OrderType} {side : Side} {price qty : ℤ} : V.Settles (V.swept cfg none d)
      (.newOrder id type side price qty) (events V.data id s n (V.takes cfg d)) j := by
  have hl := lined_fresh h.weak h.mem.queued d
  by_cases hm : (j, (V.data j).qty) ∈ V.takes cfg d
  · refine Or.inr ⟨fun i hi he => ?_, rfl, ?_⟩
    · obtain ⟨hr, hno⟩ := (resting_swept_iff hl).mp hi
      rw [(same_swept hl i).1] at he
      obtain rfl := h.id_inj hr hj he
      exact hno hm
    · rw [volume_maker h hj hid hm, if_neg (fun hc => by cases hc), add_zero]
  · refine Or.inl ⟨keeps_swept h d hj hm, ?_⟩
    show _ = (V.data j).qty + 0 - _
    rw [add_zero]
    by_cases hx : ∃ x, (j, x) ∈ V.takes cfg d
    · obtain ⟨x, hx⟩ := hx
      rw [data_swept_maker hl hx, volume_maker h hj hid hx]
      rfl
    · have hno : ∀ x, (j, x) ∉ V.takes cfg d := fun x hc => hx ⟨x, hc⟩
      rw [data_swept_other hl hno (fun hc => by cases hc), volume_other h hj hid hno, sub_zero]

/-- The order of a price change. -/
theorem settles_requote_self (h : b.Abs cfg V) {newPrice : ℤ} (hmv : V.Movable cfg i newPrice d) :
    V.Settles (V.requote cfg i newPrice) (.modifyPrice (V.data i).id newPrice)
      (events V.data (V.data i).id s n (V.takes cfg d)) i := by
  have hqty : (V.taken cfg d).qty = (V.data i).qty - traded (V.takes cfg d) := by
    rw [qty_taken, hmv.data]
  by_cases hspent : V.Spent cfg d
  · refine Or.inr ⟨fun k hk he => ?_, rfl, ?_⟩
    · rcases hmv.resting_requote.mp hk with ⟨hr, hne, -⟩ | ⟨-, hns⟩
      · have hsame := same_swept hmv.lined k
        rw [data_reprice, if_neg hne, ← hmv.data_requote] at hsame
        exact hne (h.id_inj hr ⟨_, _, hmv.mem⟩ (by rw [← hsame.1, he]))
      · exact hns hspent
    · rw [volume_taker, if_neg (fun hc => by cases hc)]
      have h0 := hspent.2.2
      omega
  · have hsame := same_swept hmv.lined i
    rw [hmv.data_reprice_self, ← hmv.data_requote] at hsame
    refine Or.inl ⟨⟨hmv.resting_requote.mpr (Or.inr ⟨rfl, hspent⟩), ?_, ?_⟩, ?_⟩
    · rw [hsame.1, hmv.data]
    · rw [hsame.2.2.2, hmv.data]
    · rw [hmv.data_self, hqty, volume_taker]
      show _ = (V.data i).qty + 0 - _
      rw [add_zero]

/-- The other orders, at a price change. -/
theorem settles_requote_other (h : b.Abs cfg V) {newPrice : ℤ} (hmv : V.Movable cfg i newPrice d)
    (hj : V.queues.Resting j) (hji : j ≠ i) :
    V.Settles (V.requote cfg i newPrice) (.modifyPrice (V.data i).id newPrice)
      (events V.data (V.data i).id s n (V.takes cfg d)) j := by
  have hi : V.queues.Resting i := ⟨_, _, hmv.mem⟩
  have hid : (V.data j).id ≠ (V.data i).id := fun he => hji (h.id_inj hj hi he)
  have hsame : ∀ k, k ≠ i → ((V.requote cfg i newPrice).data k).id = (V.data k).id ∧
      ((V.requote cfg i newPrice).data k).side = (V.data k).side := by
    intro k hk
    have hs := same_swept hmv.lined k
    rw [data_reprice, if_neg hk, ← hmv.data_requote] at hs
    exact ⟨hs.1, hs.2.2.2⟩
  have hself : ((V.requote cfg i newPrice).data i).id = (V.data i).id := by
    have hs := same_swept hmv.lined i
    rw [hmv.data_reprice_self, ← hmv.data_requote] at hs
    rw [hs.1, hmv.data]
  by_cases hm : (j, (V.data j).qty) ∈ V.takes cfg d
  · refine Or.inr ⟨fun k hk he => ?_, rfl, ?_⟩
    · rcases hmv.resting_requote.mp hk with ⟨hr, hne, hno⟩ | ⟨rfl, -⟩
      · rw [(hsame k hne).1] at he
        obtain rfl := h.id_inj hr hj he
        exact hno hm
      · rw [hself] at he
        exact hid he.symm
    · rw [volume_maker h hj hid hm, if_neg (fun hc => by cases hc), add_zero]
  · refine Or.inl ⟨⟨hmv.resting_requote.mpr (Or.inl ⟨hj, hji, hm⟩), hsame j hji⟩, ?_⟩
    show _ = (V.data j).qty + 0 - _
    rw [add_zero]
    by_cases hx : ∃ x, (j, x) ∈ V.takes cfg d
    · obtain ⟨x, hx⟩ := hx
      rw [hmv.data_maker hx, volume_maker h hj hid hx]
      rfl
    · have hno : ∀ x, (j, x) ∉ V.takes cfg d := fun x hc => hx ⟨x, hc⟩
      rw [hmv.data_other hno hji, volume_other h hj hid hno, sub_zero]

theorem gain_of_refused {req : Request} (href : V.Refusable cfg req) (hj : V.queues.Resting j) : V.gain req j = 0 := by
  cases req with
  | modifyQuantity id newQty =>
    unfold gain
    dsimp only
    split_ifs with hc
    · have hq := (href.resolve_left hc.2) j hj hc.1.symm
      omega
    · rfl
  | _ => rfl

/-- **Every resting order settles.** -/
theorem Step.settles {req : Request} {evs : List TradeEvent} {idx : OrderIdx} (hS : V.Step cfg n req evs idx V')
    (h : b.Abs cfg V) (hap : V.Apart cfg req) (hj : V.queues.Resting j) : V.Settles V' req evs j := by
  cases hS with
  | idle href =>
    refine Or.inl ⟨⟨hj, rfl, rfl⟩, ?_⟩
    rw [gain_of_refused href hj, volume_nil, add_zero, sub_zero]
  | done hd hval hend => exact settles_swept h hj (hap hval j hj)
  | rest hd hval hnew hlt hfree hi =>
    rename_i id side price qty d i rest
    have hid : d.id = id := by rw [hd]; rfl
    refine (settles_swept h hj (hap hval j hj)).keep (fun k hk => ?_) (fun k hk => ?_)
    · refine ⟨(resting_enter rest).mpr (Or.inl hk), ?_⟩
      rw [data_enter, if_neg (fun he : k = i => hi (he ▸ hk))]
    · rcases (resting_enter rest).mp hk with hr | rfl
      · exact Or.inl hr
      · rw [data_enter, if_pos rfl]
        refine Or.inr (fun he => hap hval j hj ?_)
        rw [← he]
        exact hid
  | lost hd hval hlt hi =>
    rename_i d i f
    refine (settles_swept h hj (hap hval j hj)).keep (fun k hk => ⟨hk, ?_⟩) (fun k hk => Or.inl hk)
    rw [data_setData, if_neg (fun he : k = i => hi (he ▸ hk))]
  | reprice hi hid hne hplan hd =>
    rename_i newPrice i d
    subst hid
    have hmv := h.movable hi hplan hd
    by_cases hji : j = i
    · subst hji
      exact settles_requote_self h hmv
    · exact settles_requote_other h hmv hj hji
  | resize hi hid hne hq =>
    rename_i id newQty i
    refine Or.inl ⟨⟨hj, ?_, ?_⟩, ?_⟩
    all_goals
      rw [data_setData]
      split_ifs with hji
    · rw [hji]
    · rfl
    · rw [hji]
    · rfl
    · subst hji
      show newQty = (V.data j).qty + (if id = (V.data j).id ∧ newQty ≠ 0 then newQty - (V.data j).qty else 0) - 0
      rw [if_pos ⟨hid.symm, by omega⟩]
      omega
    · have hno : ¬ (id = (V.data j).id ∧ newQty ≠ 0) := fun hc => hji (h.id_inj hj hi (by rw [hid, hc.1]))
      show (V.data j).qty = (V.data j).qty + (if id = (V.data j).id ∧ newQty ≠ 0 then newQty - (V.data j).qty else 0) - 0
      rw [if_neg hno]
      omega
  | cancel hi hid =>
    rename_i id i
    have hleft : ∀ k, (V.leave cfg i).queues.Resting k ↔ V.queues.Resting k ∧ k ≠ i :=
      fun k => resting_leave h.mem.queued (h.mem_queues hi)
    by_cases hji : j = i
    · subst hji
      refine Or.inr ⟨fun k hk he => ?_, rfl, ?_⟩
      · obtain ⟨hr, hne⟩ := (hleft k).mp hk
        exact hne (h.id_inj hr hj he)
      · rw [hid, if_pos rfl, volume_nil, zero_add]
    · refine Or.inl ⟨⟨(hleft j).mpr ⟨hj, hji⟩, rfl, rfl⟩, ?_⟩
      show (V.data j).qty = (V.data j).qty + 0 - 0
      omega

/-- Where the trade events of a request come from. -/
theorem Step.trades {req : Request} {evs : List TradeEvent} {idx : OrderIdx} (hS : V.Step cfg n req evs idx V')
    (h : b.Abs cfg V) (hap : V.Apart cfg req) : evs = [] ∨ ∃ d : OrderData,
      evs = events V.data req.orderId d.side n (V.takes cfg d) ∧ (∀ j, V.gain req j = 0) ∧ (∀ id, req ≠ .cancel id) ∧
      ∀ j x, (j, x) ∈ V.takes cfg d → (V.data j).id ≠ req.orderId := by
  have hrest : ∀ {d : OrderData} {j x}, (j, x) ∈ V.takes cfg d → V.queues.Resting j :=
    fun hx => (resting_of_takes (lined_fresh h.weak h.mem.queued _) hx).1
  cases hS with
  | idle _ => exact Or.inl rfl
  | done hd hval hend =>
    subst hd
    exact Or.inr ⟨requested _ _ _ _ _, rfl, fun _ => rfl, fun _ hc => (by cases hc), fun j x hx => hap hval j (hrest hx)⟩
  | rest hd hval hnew hlt hfree hi =>
    subst hd
    exact Or.inr ⟨requested _ _ _ _ _, rfl, fun _ => rfl, fun _ hc => (by cases hc), fun j x hx => hap hval j (hrest hx)⟩
  | lost hd hval hlt hi =>
    subst hd
    exact Or.inr ⟨requested _ _ _ _ _, rfl, fun _ => rfl, fun _ hc => (by cases hc), fun j x hx => hap hval j (hrest hx)⟩
  | reprice hi hid hne hplan hd =>
    refine Or.inr ⟨_, rfl, fun _ => rfl, fun _ hc => (by cases hc), fun j x hx he => ?_⟩
    exact (h.movable hi hplan hd).takes_ne hx (h.id_inj (hrest hx) hi (he.trans hid.symm))
  | resize _ _ _ _ => exact Or.inl rfl
  | cancel _ _ => exact Or.inl rfl

end View

/-! ## The accounts after a request -/

namespace OrderBook.Abs

variable {cfg : Config} {b : OrderBook} {V : View} {i : ℕ} {id : OrderId}

theorem remaining_eq (h : b.Abs cfg V) (hi : V.queues.Resting i) : b.remaining cfg (V.data i).id = (V.data i).qty := by
  unfold remaining
  cases hf : (b.live cfg).find? (fun j => decide ((b.order j).id = (V.data i).id)) with
  | none =>
    have hno := List.find?_eq_none.mp hf i (h.mem_live.mpr hi)
    rw [decide_eq_true_eq] at hno
    exact absurd (h.mem.id_eq i) hno
  | some j =>
    have hj := h.mem_live.mp (List.mem_of_find?_eq_some hf)
    have he := List.find?_some hf
    rw [decide_eq_true_eq, h.mem.id_eq] at he
    obtain rfl := h.id_inj hj hi he
    exact h.mem.qty_eq j

theorem remaining_eq_zero (h : b.Abs cfg V) (hno : ∀ i, V.queues.Resting i → (V.data i).id ≠ id) :
    b.remaining cfg id = 0 := by
  unfold remaining
  cases hf : (b.live cfg).find? (fun j => decide ((b.order j).id = id)) with
  | none => rfl
  | some j =>
    have he := List.find?_some hf
    rw [decide_eq_true_eq, h.mem.id_eq] at he
    exact absurd he (hno j (h.mem_live.mp (List.mem_of_find?_eq_some hf)))

end OrderBook.Abs

/-- The account agrees with the book: an open one is that of a resting order. -/
def Account.Holds (cfg : Config) (b : OrderBook) (a : Account) : Prop :=
  match a.left with
  | some r => a.submitted = a.traded + r
  | none => a.id ∈ b.liveIds cfg ∧ a.submitted = a.traded + b.remaining cfg a.id

namespace Engine

variable {cfg : Config} {e e' : Engine} {V V' : View} {req : Request} {st : OperationStatus} {evs : List TradeEvent}
  {a : Account}

theorem Distinct.view (h : e.book.Abs cfg V) (hd : e.Distinct cfg req) : V.Apart cfg req := by
  cases req with
  | newOrder id type side price qty => exact fun hval j hj he => (hd hval).2 (h.mem_liveIds.mpr ⟨j, hj, he⟩)
  | _ => trivial

theorem newTrades_eq (htr : e'.trades = e.trades ++ evs) : e.newTrades e' = evs := by
  unfold newTrades
  rw [htr, List.drop_left]

/-- The status tells whether the quantity was changed. -/
theorem resized_eq (h : e.book.Abs cfg V) (hadm : e.Admissible cfg req) (hstep : step cfg e req = .ok (st, e')) {i : ℕ}
    (hi : V.queues.Resting i) : e.resized cfg req st (V.data i).id = V.gain req i := by
  cases req with
  | modifyQuantity id newQty =>
    obtain ⟨st', e1, hm, -, -, hcases⟩ := modifyOrderQuantity_spec h id hadm
    change modifyOrderQuantity cfg e id newQty = _ at hstep
    rw [hm] at hstep
    cases hstep
    unfold resized View.gain
    dsimp only
    rw [h.remaining_eq hi]
    obtain ⟨hst, -, hun⟩ | ⟨rfl, k, -, -, -, h0, -⟩ := hcases
    · rw [if_neg (fun hc => hst hc.1)]
      split_ifs with hc
      · have hq := (hun.resolve_left hc.2) i hi hc.1.symm
        omega
      · rfl
    · by_cases hid : id = (V.data i).id
      · rw [if_pos ⟨rfl, hid⟩, if_pos ⟨hid, h0⟩]
      · rw [if_neg (fun hc => hid hc.2), if_neg (fun hc => hid hc.1)]
  | _ => rfl

/-- **An account stays right.** -/
theorem post_holds (h : e.book.Abs cfg V) (h' : e'.book.Abs cfg V') (htr : e.newTrades e' = evs)
    (hset : ∀ i, V.queues.Resting i → V.Settles V' req evs i)
    (hres : ∀ i, V.queues.Resting i → e.resized cfg req st (V.data i).id = V.gain req i)
    (ha : a.Holds cfg e.book) : (e.post cfg req st e' a).Holds cfg e'.book := by
  unfold post
  obtain ⟨id, submitted, tradedQty, left⟩ := a
  cases left with
  | some r => exact ha
  | none =>
    obtain ⟨hlive, hsum⟩ := ha
    obtain ⟨i, hi, rfl⟩ := h.mem_liveIds.mp hlive
    rw [if_pos rfl]
    dsimp only at hsum ⊢
    rw [h.remaining_eq hi] at hsum
    rw [htr, hres i hi]
    rcases hset i hi with ⟨⟨hr, hid, -⟩, hq⟩ | ⟨hgone, hgain, hq⟩
    · have hmem : (V.data i).id ∈ e'.book.liveIds cfg := h'.mem_liveIds.mpr ⟨i, hr, hid⟩
      rw [if_pos hmem]
      refine ⟨hmem, ?_⟩
      dsimp only
      rw [← hid, h'.remaining_eq hr, hq, hid]
      omega
    · have hmem : (V.data i).id ∉ e'.book.liveIds cfg := by
        intro hc
        obtain ⟨k, hk, he⟩ := h'.mem_liveIds.mp hc
        exact hgone k hk he
      rw [if_neg hmem, h.remaining_eq hi]
      show submitted + V.gain req i = tradedQty + volume (V.data i).id evs + _
      omega

/-- The account of an order that rests with what is left of it, or does not rest. -/
theorem holds_new (h' : e'.book.Abs cfg V') {id : OrderId} {qty vol left : ℤ} (hsum : qty = vol + left)
    (hrest : (∃ i, V'.queues.Resting i ∧ (V'.data i).id = id ∧ (V'.data i).qty = left) ∨
      ∀ i, V'.queues.Resting i → (V'.data i).id ≠ id) :
    Account.Holds cfg e'.book ⟨id, qty, vol, if id ∈ e'.book.liveIds cfg then none else some left⟩ := by
  rcases hrest with ⟨i, hi, rfl, hq⟩ | hno
  · have hmem : (V'.data i).id ∈ e'.book.liveIds cfg := h'.mem_liveIds.mpr ⟨i, hi, rfl⟩
    rw [if_pos hmem]
    refine ⟨hmem, ?_⟩
    rw [h'.remaining_eq hi, hq]
    exact hsum
  · have hmem : id ∉ e'.book.liveIds cfg := by
      intro hc
      obtain ⟨i, hi, he⟩ := h'.mem_liveIds.mp hc
      exact hno i hi he
    rw [if_neg hmem]
    exact hsum

/-- **A new account is right.** -/
theorem opened_holds (h : e.book.Abs cfg V) (hadm : e.Admissible cfg req) (hap : V.Apart cfg req)
    (hstep : step cfg e req = .ok (st, e')) (ha : a ∈ e.opened cfg req) : a.Holds cfg e'.book := by
  cases req with
  | newOrder id type side price qty =>
    unfold step at hstep
    unfold opened at ha
    dsimp only at hstep ha
    cases hp : processOrder cfg e id type side price qty with
    | error f => rw [hp] at hstep; cases hstep
    | ok r =>
      obtain ⟨st', idx, o, e1⟩ := r
      rw [hp] at hstep ha
      cases hstep
      dsimp only at ha
      by_cases hval : validateOrder cfg (incoming id type side price qty) = true
      swap
      · rw [if_neg hval] at ha
        exact absurd ha List.not_mem_nil
      rw [if_pos hval] at ha
      rw [List.mem_singleton.mp ha]
      have hadm' : type = .limit → validateOrder cfg (incoming id type side price qty) = true →
          OrderIdMap.Usable id ∧ e.book.idMap.find id = none ∧ cfg.Fits price := by
        intro h1 h2
        obtain ⟨h3, h4, h5⟩ := hadm h1 h2
        exact ⟨h3, h.find_none h4, h5⟩
      obtain ⟨d, hd⟩ : ∃ d, d = requested id type side price qty := ⟨_, rfl⟩
      obtain ⟨hbad, -⟩ | ⟨-, -, -, ho, htr, -, hcases⟩ := processOrder_spec h hadm' hd hp
      · rw [hval] at hbad
        cases hbad
      have hid : d.id = id := by rw [hd]; rfl
      have hq : o.qty = qty - traded (V.takes cfg d) := congrArg OrderData.qty ho
      have hl := lined_fresh h.weak h.mem.queued d
      have hno : ∀ i, (V.swept cfg none d).queues.Resting i → ((V.swept cfg none d).data i).id ≠ id := by
        intro i hi
        rw [(same_swept hl i).1]
        exact hap hval i ((View.resting_swept_iff hl).mp hi).1
      have hsum : qty = volume id (e.newTrades e1) + o.qty := by
        rw [newTrades_eq htr, volume_taker, hq]
        omega
      obtain ⟨-, -, hA⟩ | ⟨-, -, ⟨i, rest, -, -, -, hA⟩ | ⟨-, i, f, hi, hA⟩⟩ := hcases
      · exact holds_new hA hsum (Or.inr hno)
      · refine holds_new hA hsum (Or.inl ⟨i, (View.resting_enter rest).mpr (Or.inr rfl), ?_, ?_⟩)
        all_goals rw [View.data_enter, if_pos rfl]
        · exact hid
        · exact hq.symm
      · refine holds_new hA hsum (Or.inr (fun k hk => ?_))
        rw [View.data_setData, if_neg (fun he : k = i => hi (he ▸ hk))]
        exact hno k hk
  | _ => exact absurd ha List.not_mem_nil

/-! ## The trades of a request -/

/-- **Each trade is an exchange**, if the resting orders are sound. -/
theorem exchange_step (h : e.book.Abs cfg V) (h' : e'.book.Abs cfg V') (hs : V.Sound) {n : UInt64} {idx : OrderIdx}
    (hS : V.Step cfg n req evs idx V') (hap : V.Apart cfg req) {t : TradeEvent} (ht : t ∈ evs) :
    Exchange cfg e req e' t := by
  obtain rfl | ⟨d, rfl, hgain, hcancel, hids⟩ := hS.trades h hap
  · exact absurd ht List.not_mem_nil
  have hl := lined_fresh h.weak h.mem.queued d
  obtain ⟨⟨j, x⟩, hf, hmaker, hqty⟩ := exists_fill ht
  obtain ⟨htaker, hside⟩ := taker_events ht
  obtain ⟨hj, hopp, -⟩ := View.resting_of_takes hl hf
  dsimp only at hmaker hqty
  have hvol := View.volume_maker (s := d.side) (n := n) h hj (hids j x hf) hf
  have hpos : 0 < x := by
    refine fills_pos (fun r hr => ?_) hf
    obtain ⟨p, hp⟩ := hl.rest r hr
    exact (hs r ⟨_, p, hp⟩).1
  refine ⟨by rw [hqty]; exact hpos, htaker, ⟨j, ?_, ?_, fun k hk he => ?_⟩, ?_⟩
  · rw [h.rests_iff, hside]
    exact ⟨hj, hopp⟩
  · rw [h.mem.id_eq, hmaker]
  · rw [h.mem.id_eq, hmaker] at he
    exact h.id_inj (h.mem_live.mp hk) hj he
  · rw [hmaker, hqty, h.remaining_eq hj]
    rcases hS.settles h hap hj with ⟨⟨hr, hid, -⟩, hq⟩ | ⟨hgone, -, hq⟩
    · rw [← hid, h'.remaining_eq hr, hq, hgain j, hvol]
      omega
    · rw [if_neg (hcancel _), hvol] at hq
      rw [h'.remaining_eq_zero hgone]
      omega

/-- The number of the next trade event. -/
def Sequenced (e : Engine) : Prop := e.Numbered ∧ e.seqGen = UInt64.ofNat (e.trades.length + 1)

theorem sequenced_step (hc : e.Sequenced) (h : e.book.Abs cfg V) (hap : V.Apart cfg req) {idx : OrderIdx}
    (hS : V.Step cfg e.seqGen req evs idx V') (htr : e'.trades = e.trades ++ evs)
    (hseq : e'.seqGen = e.seqGen + UInt64.ofNat evs.length) : e'.Sequenced := by
  have hevs : ∀ k t, evs[k]? = some t → t.seqNum = e.seqGen + UInt64.ofNat k := by
    intro k t hk
    obtain rfl | ⟨d, rfl, -⟩ := hS.trades h hap
    · cases hk
    · exact seqNum_events hk
  obtain ⟨hnum, hgen⟩ := hc
  constructor
  · intro k t hk
    rw [htr] at hk
    rcases lt_or_ge k e.trades.length with hlt | hge
    · rw [List.getElem?_append_left hlt] at hk
      exact hnum k t hk
    · rw [List.getElem?_append_right hge] at hk
      rw [hevs _ t hk, hgen, ← UInt64.ofNat_add]
      congr 1
      omega
  · rw [hseq, hgen, htr, ← UInt64.ofNat_add, List.length_append]
    congr 1
    omega

end Engine

/-! ## Runs -/

namespace Ledger

variable {cfg : Config} {s s' : Ledger} {req : Request} {reqs : List Request}

/-- What a run keeps. -/
structure Kept (cfg : Config) (s : Ledger) : Prop where
  abs : s.engine.book.Abs cfg (s.engine.book.view cfg)
  sound : (s.engine.book.view cfg).Sound
  sequenced : s.engine.Sequenced
  accounts : ∀ a ∈ s.accounts, a.Holds cfg s.engine.book

theorem kept_new (cfg : Config) : (new cfg).Kept cfg := by
  have h0 := OrderBook.abs_new cfg
  refine ⟨h0.view, View.Sound.view h0 (fun i hi => absurd hi (OrderBook.not_resting_empty i)), ⟨?_, rfl⟩, ?_⟩
  · intro k t hk
    cases hk
  · intro a ha
    exact absurd ha List.not_mem_nil

/-- The condition on the requests. -/
def Requested (cfg : Config) (s : Ledger) (req : Request) : Prop :=
  s.engine.Admissible cfg req ∧ s.engine.Distinct cfg req ∧ s.engine.Sized cfg req

instance (s : Ledger) (req : Request) : Decidable (s.Requested cfg req) := inferInstanceAs (Decidable (_ ∧ _ ∧ _))

theorem Kept.step (hk : s.Kept cfg) (hreq : s.Requested cfg req) (hstep : s.Steps cfg req s') :
    s'.Kept cfg ∧ ∀ t ∈ s.engine.newTrades s'.engine, Exchange cfg s.engine req s'.engine t := by
  obtain ⟨st, e', hs, rfl⟩ := hstep
  obtain ⟨hadm, hdis, hsz⟩ := hreq
  have h := hk.abs
  have hap := hdis.view h
  obtain ⟨evs, V', hS, hA, htr, hseq⟩ := step_refines h hadm ⟨st, hs⟩
  have hnew := newTrades_eq htr
  refine ⟨⟨hA.view, View.Sound.view hA (View.sound_step h hk.sound hS (hsz.view h)),
    sequenced_step hk.sequenced h hap hS htr hseq, fun a ha => ?_⟩, fun t ht => ?_⟩
  · rcases List.mem_append.mp ha with ha | ha
    · obtain ⟨a', ha', rfl⟩ := List.mem_map.mp ha
      exact post_holds h hA hnew (fun i hi => hS.settles h hap hi) (fun i hi => resized_eq h hadm hs hi)
        (hk.accounts a' ha')
    · exact opened_holds h hadm hap hs ha
  · change t ∈ s.engine.newTrades e' at ht
    rw [hnew] at ht
    exact exchange_step h hA hk.sound hS hap ht

theorem Kept.balanced (hk : s.Kept cfg) : s.Balanced cfg := by
  intro a ha
  have hh := hk.accounts a ha
  unfold Account.Holds at hh
  unfold remaining
  cases hl : a.left with
  | some r => rw [hl] at hh; exact hh
  | none => rw [hl] at hh; exact hh.2

/-- **Quantity is conserved** in every run whose ids are distinct and whose new quantities are in range: what was
submitted has been traded or is left, the trades are numbered without gaps, and each of them takes a positive quantity
from one live order of the other side. -/
theorem quantity_conserved (hrun : Run (Steps cfg) (Requested cfg) (new cfg) reqs s) :
    s.Balanced cfg ∧ s.engine.Numbered ∧ ∀ req s', s.Requested cfg req → s.Steps cfg req s' →
      ∀ t ∈ s.engine.newTrades s'.engine, Exchange cfg s.engine req s'.engine t := by
  have hk : s.Kept cfg := hrun.invariant (I := Kept cfg) (kept_new cfg)
    (fun _ _ _ hk hreq hstep => (hk.step hreq hstep).1)
  exact ⟨hk.balanced, hk.sequenced.1, fun req s' hreq hstep => (hk.step hreq hstep).2⟩

variable (cfg) in
/-- The ledger after a request. -/
def after (s : Ledger) (req : Request) : Ledger :=
  match Engine.step cfg s.engine req with
  | .ok (st, e') => s.booked cfg req st e'
  | .error _ => s

theorem steps_after (h : s.engine.Answers cfg req) : s.Steps cfg req (s.after cfg req) := by
  unfold Answers at h
  unfold Steps after
  cases hs : Engine.step cfg s.engine req with
  | error f => rw [hs] at h; cases h
  | ok r => exact ⟨r.1, r.2, rfl, rfl⟩

theorem run_after {ok : Ledger → Request → Prop}
    (h : Admitted (after cfg) (fun s req => ok s req ∧ s.engine.Answers cfg req) s reqs) :
    Run (Steps cfg) ok s reqs (reqs.foldl (after cfg) s) :=
  (Run.of_admitted (fun _ _ hreq => steps_after hreq.2) h).mono (fun _ _ hreq => hreq.1)

/-- The ledger of the small engine after the requests. -/
def afterAll (reqs : List Request) : Ledger := reqs.foldl (after small) (new small)

/-- Partial fills, a resize below what was filled, a market order that is not filled, a price change and a cancel. -/
def settled : List Request :=
  [.newOrder 1 .limit .bid 2 10, .newOrder 2 .limit .ask 2 4, .modifyQuantity 1 3, .newOrder 3 .market .ask 2 5,
   .newOrder 3 .limit .bid 3 7, .newOrder 4 .limit .ask 6 5, .modifyPrice 3 7, .cancel 3]

theorem quantity_conserved_settled :
    (afterAll settled).Balanced small ∧ (afterAll settled).engine.Numbered ∧
    ∀ req s', (afterAll settled).Requested small req → (afterAll settled).Steps small req s' →
      ∀ t ∈ (afterAll settled).engine.newTrades s'.engine, Exchange small (afterAll settled).engine req s'.engine t :=
  quantity_conserved (run_after (by decide +kernel))

/-- Two resizes and two asks, after which the filled quantity of order 1 has wrapped; then all that is left of it is
taken. -/
def wrapped : List Request :=
  [.newOrder 1 .limit .bid 2 1, .modifyQuantity 1 (2 ^ 62 + 1), .newOrder 2 .limit .ask 1 (2 ^ 62),
   .modifyQuantity 1 (2 ^ 62 + 1), .newOrder 3 .limit .ask 1 (2 ^ 62), .newOrder 4 .limit .ask 3 1, .modifyPrice 1 3]

/-- Nothing is left of order 1, but it rests on, and a trade takes nothing from it. -/
theorem empty_trade :
    Run (Steps small) (fun s req => s.engine.Admissible small req ∧ s.engine.Distinct small req) (new small) wrapped
      (afterAll wrapped) ∧
    (afterAll wrapped).engine.Admissible small (.newOrder 5 .limit .ask 3 1) ∧
    (afterAll wrapped).engine.Distinct small (.newOrder 5 .limit .ask 3 1) ∧
    (afterAll wrapped).Steps small (.newOrder 5 .limit .ask 3 1)
      ((afterAll wrapped).after small (.newOrder 5 .limit .ask 3 1)) ∧
    (afterAll wrapped).engine.newTrades ((afterAll wrapped).after small (.newOrder 5 .limit .ask 3 1)).engine =
      [⟨4, 1, 5, 3, 0, .ask⟩] :=
  ⟨run_after (by decide +kernel), by decide +kernel, by decide +kernel, steps_after (by decide +kernel),
    by decide +kernel⟩

end Ledger

end Wirekrak.Flashstrike
