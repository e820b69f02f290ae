import Std.Data.TreeMap.Lemmas
import MarketDepth.Proofs.Settlement

/-! Netting files its deltas under their own prices, so the deltas of a batch stand at different
prices, and the ledger holds no price that was not reported. -/

namespace MarketDepth

variable {S : Set Price}

namespace Ledger

variable {P : Resting → Prop} {ledger : Ledger}

theorem get?_empty (index : Int64) : Ledger.empty.get? index = none := by
  simp [Ledger.empty, get?]

theorem get?_insert (ledger : Ledger) (order : Resting) (index : Int64) :
    (ledger.insert order).get? index =
      if order.index = index then some order else ledger.get? index := by
  simp [insert, get?, Std.TreeMap.getElem?_insert]

theorem get?_erase (ledger : Ledger) (gone index : Int64) :
    (ledger.erase gone).get? index = if gone = index then none else ledger.get? index := by
  simp [erase, get?, Std.TreeMap.getElem?_erase]

def All (P : Resting → Prop) (ledger : Ledger) : Prop :=
  ∀ index order, ledger.get? index = some order → P order

theorem all_empty : Ledger.empty.All P := by
  intro index order h
  rw [get?_empty] at h
  cases h

theorem All.insert (h : ledger.All P) {order : Resting} (ho : P order) : (ledger.insert order).All P := by
  intro index other hget
  rw [get?_insert] at hget
  split_ifs at hget
  · obtain rfl := Option.some.inj hget
    exact ho
  · exact h index other hget

theorem All.erase (h : ledger.All P) (index : Int64) : (ledger.erase index).All P := by
  intro other order hget
  rw [get?_erase] at hget
  split_ifs at hget
  exact h other order hget

def Known (S : Set Price) (ledger : Ledger) : Prop :=
  ∀ index order, ledger.get? index = some order → ∀ price ∈ order.price, price ∈ S

theorem known_empty : Ledger.empty.Known S :=
  all_empty

theorem Known.insert (h : ledger.Known S) {order : Resting} (hp : ∀ price ∈ order.price, price ∈ S) :
    (ledger.insert order).Known S :=
  All.insert h hp

theorem Known.erase (h : ledger.Known S) (index : Int64) : (ledger.erase index).Known S :=
  All.erase h index

end Ledger

def Reported (S : Set Price) (reports : List Report) : Prop :=
  ∀ report ∈ reports, ∀ price ∈ report.price?, price ∈ S

def Netting.on (net : Netting) : (side : Side) → Ladder side Delta
  | .ask => net.asks
  | .bid => net.bids

def NetDeltas.on (deltas : NetDeltas) : Side → List Delta
  | .ask => deltas.asks
  | .bid => deltas.bids

namespace Netting

theorem deltas_on (net : Netting) (side : Side) :
    net.deltas.on side = (net.on side).values.filter fun delta => !negligible delta.size := by
  cases side <;> rfl

theorem contribute_here (net : Netting) (interest : Interest) (price : Price) (size : Float)
    (time : Int64) : (net.contribute interest (some price) size time).on interest.side =
      (net.on interest.side).upsert price (gather price size time) := by
  cases interest <;> rfl

theorem contribute_there (net : Netting) {interest : Interest} {side : Side}
    (h : interest.side ≠ side) (price : Option Price) (size : Float) (time : Int64) :
    (net.contribute interest price size time).on side = net.on side := by
  cases price with
  | none => rfl
  | some price => cases interest <;> cases side <;> first | rfl | exact absurd rfl h

@[simp]
theorem ledger_contribute (net : Netting) (interest : Interest) (price : Option Price)
    (size : Float) (time : Int64) : (net.contribute interest price size time).ledger =
      net.ledger := by
  cases price with
  | none => rfl
  | some price => cases interest <;> rfl

@[simp]
theorem ignored_contribute (net : Netting) (interest : Interest) (price : Option Price)
    (size : Float) (time : Int64) :
    (net.contribute interest price size time).ignored = net.ignored := by
  cases price with
  | none => rfl
  | some price => cases interest <;> rfl

@[simp]
theorem ledger_withdraw (net : Netting) (order : Resting) (time : Int64) :
    (net.withdraw order time).ledger = net.ledger :=
  ledger_contribute ..

@[simp]
theorem ledger_book (net : Netting) (report : Report) :
    (net.book report).ledger = net.ledger.insert report.resting := by
  simp [book]

/-- What a report comes to: whether its order is live decides what is taken back, and whether it is
a removal decides what is added. -/
theorem add_cases (net : Netting) (report : Report) :
    (net.ledger.get? report.index = none ∧ report.isRemoval = true ∧
      net.add report = { net with ignored := net.ignored + 1 }) ∨
    (net.ledger.get? report.index = none ∧ report.isRemoval = false ∧
      net.add report = net.book report) ∨
    (∃ order, net.ledger.get? report.index = some order ∧ report.isRemoval = true ∧
      net.add report =
        { net.withdraw order report.time with ledger := net.ledger.erase report.index }) ∨
    ∃ order, net.ledger.get? report.index = some order ∧ report.isRemoval = false ∧
      net.add report = (net.withdraw order report.time).book report := by
  unfold Netting.add
  cases net.ledger.get? report.index with
  | none => cases report.isRemoval <;> simp
  | some order => cases report.isRemoval <;> simp

theorem ignored_add (net : Netting) (report : Report) : (net.add report).ignored =
    net.ignored + (report.isRemoval && (net.ledger.get? report.index).isNone).toNat := by
  rcases net.add_cases report with
    ⟨hget, hout, hadd⟩ | ⟨hget, hout, hadd⟩ | ⟨order, hget, hout, hadd⟩ | ⟨order, hget, hout, hadd⟩ <;>
    simp [hadd, hget, hout, book, withdraw]

structure Sound (scale : ∀ side, Scale side S) (net : Netting) : Prop where
  filed : ∀ side, (net.on side).Filed (scale side) Delta.price
  ledger : net.ledger.Known S

variable {scale : ∀ side, Scale side S} {net : Netting}

theorem sound_start {ledger : Ledger} (h : ledger.Known S) : Sound scale { ledger } := by
  refine ⟨fun side => ?_, h⟩
  cases side <;> exact Ladder.Filed.empty

theorem filed_gather {side : Side} {scale : Scale side S} {ladder : Ladder side Delta}
    (h : ladder.Filed scale Delta.price) {price : Price} (hp : price ∈ S) (size : Float)
    (time : Int64) : (ladder.upsert price (gather price size time)).Filed scale Delta.price := by
  refine h.upsert hp fun o ho => ?_
  cases o with
  | none => exact ⟨hp, rfl⟩
  | some delta => exact ho delta rfl

theorem Sound.contribute (h : net.Sound scale) {price : Option Price}
    (hp : ∀ p ∈ price, p ∈ S) (interest : Interest) (size : Float) (time : Int64) :
    (net.contribute interest price size time).Sound scale := by
  refine ⟨fun side => ?_, by rw [ledger_contribute]; exact h.ledger⟩
  by_cases hs : interest.side = side
  · subst hs
    cases price with
    | none => exact h.filed _
    | some price =>
      rw [contribute_here]
      exact filed_gather (h.filed _) (hp price rfl) size time
  · rw [contribute_there net hs]
    exact h.filed side

theorem Sound.withdraw (h : net.Sound scale) {index : Int64} {order : Resting}
    (hget : net.ledger.get? index = some order) (time : Int64) :
    (net.withdraw order time).Sound scale :=
  h.contribute (h.ledger index order hget) _ _ _

theorem Sound.book (h : net.Sound scale) {report : Report}
    (hp : ∀ price ∈ report.price?, price ∈ S) : (net.book report).Sound scale := by
  refine ⟨(h.contribute hp report.interest report.size report.time).filed, ?_⟩
  rw [ledger_book]
  exact h.ledger.insert hp

theorem Sound.add (h : net.Sound scale) {report : Report}
    (hp : ∀ price ∈ report.price?, price ∈ S) : (net.add report).Sound scale := by
  rcases net.add_cases report with
    ⟨-, -, hadd⟩ | ⟨-, -, hadd⟩ | ⟨order, hget, -, hadd⟩ | ⟨order, hget, -, hadd⟩
  · rw [hadd]
    exact ⟨h.filed, h.ledger⟩
  · rw [hadd]
    exact h.book hp
  · rw [hadd]
    exact ⟨(h.withdraw hget report.time).filed, h.ledger.erase _⟩
  · rw [hadd]
    exact (h.withdraw hget report.time).book hp

theorem Sound.foldl {reports : List Report} (h : net.Sound scale) (hp : Reported S reports) :
    (reports.foldl Netting.add net).Sound scale := by
  induction reports generalizing net with
  | nil => exact h
  | cons report rest ih =>
    obtain ⟨hr, hrest⟩ := List.forall_mem_cons.mp hp
    exact ih (h.add hr) hrest

end Netting

theorem Ladder.Filed.netted {side : Side} {scale : Scale side S} {ladder : Ladder side Delta}
    (h : ladder.Filed scale Delta.price) (keep : Delta → Bool) :
    Netted scale (ladder.values.filter keep) :=
  ⟨fun _ hin => h.known_of_mem (List.mem_of_mem_filter hin),
    (h.bestFirst.sublist List.filter_sublist).imp fun hlt => hlt.ne⟩

theorem Ledger.Known.net {ledger : Ledger} (h : ledger.Known S) (scale : ∀ side, Scale side S)
    {reports : List Report} (hp : Reported S reports) :
    (ledger.net reports).1.Known S ∧
      ∀ side, Netted (scale side) ((ledger.net reports).2.on side) := by
  have hstart : Netting.Sound scale { ledger } := Netting.sound_start h
  have hsound := hstart.foldl hp
  refine ⟨hsound.ledger, fun side => ?_⟩
  rw [Ledger.net, Netting.deltas_on]
  exact (hsound.filed side).netted _

end MarketDepth
