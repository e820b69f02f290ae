import MarketDepth.Proofs.LiveOrders

/-! Conservation: what a batch gathers at a price is the change of the total there, and settling it
keeps every level at the total of its price. -/

namespace MarketDepth

variable {S : Set Price} {before orders : List Resting}

structure Ladder.Gathers {side : Side} (S : Set Price) (change : Price → Int)
    (ladder : Ladder side Delta) : Prop where
  absent : ∀ price ∈ S, ladder.get? price = none → change price = 0
  present : ∀ price ∈ S, ∀ delta, ladder.get? price = some delta → Counts (change price) delta.size

namespace Ladder.Gathers

variable {side : Side} {scale : Scale side S} {ladder : Ladder side Delta} {change change' : Price → Int}

theorem congr (h : ladder.Gathers S change) (hc : ∀ price ∈ S, change' price = change price) :
    ladder.Gathers S change' := by
  constructor
  · intro price hp hnone
    rw [hc price hp, h.absent price hp hnone]
  · intro price hp delta hsome
    rw [hc price hp]
    exact h.present price hp delta hsome

theorem gather (h : ladder.Gathers S change) (hL : ladder.Filed scale Delta.price) {price : Price}
    (hp : price ∈ S) {n : Int} {size : Float} (hn : Counts n size) (time : Int64)
    (hhere : ∀ other ∈ S, scale.place other = scale.place price → change' other = change other + n)
    (hthere : ∀ other ∈ S, scale.place other ≠ scale.place price → change' other = change other)
    (hsharp : ∀ other ∈ S, Sharp (change' other)) :
    (ladder.upsert price (Netting.gather price size time)).Gathers S change' := by
  constructor
  · intro other ho hnone
    rw [hL.get?_upsert hp ho] at hnone
    split_ifs at hnone with hplace
    rw [hthere other ho hplace, h.absent other ho hnone]
  · intro other ho delta hsome
    rw [hL.get?_upsert hp ho] at hsome
    split_ifs at hsome with hplace
    · obtain rfl := Option.some.inj hsome
      have hsame := hL.get?_congr ho hp hplace
      have hb := hsharp other ho
      rw [hhere other ho hplace] at hb ⊢
      cases hg : ladder.get? price with
      | none =>
        rw [h.absent other ho (hsame.trans hg), Int.zero_add]
        exact hn
      | some old => exact (h.present other ho old (hsame.trans hg)).add hn hb
    · rw [hthere other ho hplace]
      exact h.present other ho delta hsome

end Ladder.Gathers

def change (before after : List Resting) (side : Side) (price : Price) : Int :=
  volumeAt side price after - volumeAt side price before

def Reckoned (S : Set Price) (before after : List Resting) : Prop :=
  ∀ side, ∀ price ∈ S, Sharp (change before after side price)

theorem reckoned_of_whole (hbefore : ∀ order ∈ before, ∃ n : Int, Whole n order.size)
    (hafter : ∀ order ∈ orders, ∃ n : Int, Whole n order.size)
    (h : ∀ side, ∀ price ∈ S,
      (totalAt side price orders - totalAt side price before).natAbs < 2 ^ 53) :
    Reckoned S before orders := by
  intro side price hp
  rw [change, volumeAt_eq_totalAt hafter, volumeAt_eq_totalAt hbefore, ← Int.sub_mul]
  exact sharp_mul_pow (h side price hp) (by decide) (by decide)

/-- A batch after what has been seen, with every sum on the way sharp: the change since the batch began,
also while an order is taken out, and in the end the volumes. At its start no volume is below zero. -/
structure Clear (S : Set Price) (seen batch : List Report) : Prop where
  solvent : ∀ side, ∀ price ∈ S, 0 ≤ volumeAt side price (live seen)
  finite : ∀ first rest, batch = first ++ rest →
    ∀ order ∈ live (seen ++ first), order.size.isFinite = true
  opened : ∀ first rest, batch = first ++ rest → ∀ index,
    Reckoned S (live seen) (without index (live (seen ++ first)))
  passed : ∀ first rest, batch = first ++ rest → Reckoned S (live seen) (live (seen ++ first))
  held : ∀ side, ∀ price ∈ S, Sharp (volumeAt side price (live (seen ++ batch)))

/-- A batch after what has been seen, with every change at a price since the batch began one that a size
can hold: after each report, and before it while its order is taken out. -/
structure Reckonable (S : Set Price) (seen batch : List Report) : Prop where
  finite : ∀ first rest, batch = first ++ rest →
    ∀ order ∈ live (seen ++ first), order.size.isFinite = true
  opened : ∀ first report rest, batch = first ++ report :: rest →
    Reckoned S (live seen) (without report.index (live (seen ++ first)))
  passed : ∀ first rest, batch = first ++ rest → Reckoned S (live seen) (live (seen ++ first))

theorem Clear.reckonable {seen batch : List Report} (h : Clear S seen batch) :
    Reckonable S seen batch :=
  ⟨h.finite, fun first report rest hsplit => h.opened first (report :: rest) hsplit report.index,
    h.passed⟩

/-- Sizes that are positive multiples of a grain no finer than the tolerance, with sums below two to the
power of 53 of it. -/
structure Exact (grain : Nat) (S : Set Price) (orders : List Resting) : Prop where
  tolerable : 1022 ≤ grain
  finite : grain ≤ 2045
  distinct : (orders.map Resting.index).Nodup
  sized : Sized grain orders
  bounded : ∀ side, ∀ price ∈ S, volumeAt side price orders < 2 ^ 53 * 2 ^ grain

namespace Exact

variable {grain : Nat}

theorem nil (hlo : 1022 ≤ grain) (hhi : grain ≤ 2045) : Exact grain S [] := by
  refine ⟨hlo, hhi, List.nodup_nil, ?_, fun _ _ _ => ?_⟩
  · intro order h
    cases h
  · exact mul_pos (by decide) (pow_pos (by decide) grain)

theorem without (h : Exact grain S orders) (index : Int64) : Exact grain S (without index orders) :=
  { h with
    distinct := h.distinct.sublist (List.filter_sublist.map _)
    sized := h.sized.without index
    bounded := fun side price hp => (sumAt_without_le h.distinct h.sized.steps_pos index).trans_lt
      (h.bounded side price hp) }

theorem exists_count (h : Exact grain S orders) (side : Side) {price : Price} (hp : price ∈ S) :
    ∃ n : Int, 0 ≤ n ∧ n < 2 ^ 53 ∧ volumeAt side price orders = n * 2 ^ grain := by
  have hpow : (0 : Int) < 2 ^ grain := pow_pos (by decide) grain
  have heq := h.sized.volumeAt_eq side price
  have hpos : 0 ≤ volumeAt side price orders := sumAt_nonneg h.sized.steps_pos
  have hlt := h.bounded side price hp
  rw [heq] at hpos hlt
  exact ⟨_, nonneg_of_mul_nonneg_left hpos hpow, lt_of_mul_lt_mul_right hlt hpow.le, heq⟩

theorem reckoned (hb : Exact grain S before) (ho : Exact grain S orders) :
    Reckoned S before orders := by
  intro side price hp
  obtain ⟨n, hn, hnlt, hbefore⟩ := hb.exists_count side hp
  obtain ⟨m, hm, hmlt, hafter⟩ := ho.exists_count side hp
  rw [change, hbefore, hafter, ← Int.sub_mul]
  exact sharp_mul_pow (by omega) hb.tolerable hb.finite

theorem clear {seen batch : List Report}
    (h : ∀ first rest, batch = first ++ rest → Exact grain S (live (seen ++ first))) :
    Clear S seen batch := by
  have hstart : Exact grain S (live seen) := by simpa using h [] batch rfl
  have hend := h batch [] (List.append_nil _).symm
  refine ⟨fun side price hp => ?_, fun first rest hsplit order hin => ?_, ?_, ?_, ?_⟩
  · exact sumAt_nonneg hstart.sized.steps_pos
  · obtain ⟨n, -, hn⟩ := (h first rest hsplit).sized order hin
    exact hn.finite
  · intro first rest hsplit index
    exact hstart.reckoned ((h first rest hsplit).without index)
  · intro first rest hsplit
    exact hstart.reckoned (h first rest hsplit)
  · intro side price hp
    obtain ⟨n, hn, hlt, heq⟩ := hend.exists_count side hp
    rw [heq]
    exact sharp_mul_pow (by omega) hend.tolerable hend.finite

end Exact

namespace Netting

variable {scale : ∀ side, Scale side S} {net : Netting}

def Gathers (S : Set Price) (change : Side → Price → Int) (net : Netting) : Prop :=
  ∀ side, (net.on side).Gathers S (change side)

theorem Gathers.contribute {change change' : Side → Price → Int} (h : net.Gathers S change)
    (hs : net.Sound scale) (order : Resting) (hp : ∀ price ∈ order.price, price ∈ S) {n : Int}
    {size : Float} (hn : Counts n size) (time : Int64)
    (hc : ∀ side, ∀ price ∈ S,
      change' side price = change side price + if order.standsAt side price then n else 0)
    (hsharp : ∀ side, ∀ price ∈ S, Sharp (change' side price)) :
    (net.contribute order.interest order.price size time).Gathers S change' := by
  intro side
  by_cases hside : order.interest.side = side
  · subst hside
    cases hprice : order.price with
    | none =>
      refine (h _).congr fun price hin => ?_
      simp [hc _ price hin, Resting.standsAt, hprice]
    | some price =>
      have hin := hp price hprice
      have hstands : ∀ other ∈ S, order.standsAt order.interest.side other = true ↔
          (scale order.interest.side).place other = (scale order.interest.side).place price := by
        intro other ho
        rw [← (scale order.interest.side).same_iff ho hin]
        simp [Resting.standsAt, hprice]
      rw [contribute_here]
      refine (h _).gather (hs.filed _) hin hn time ?_ ?_ (hsharp _)
      · intro other ho hplace
        rw [hc _ other ho, if_pos ((hstands other ho).mpr hplace)]
      · intro other ho hplace
        rw [hc _ other ho, if_neg fun hst => hplace ((hstands other ho).mp hst), Int.add_zero]
  · rw [contribute_there net hside]
    refine (h side).congr fun price hin => ?_
    simp [hc side price hin, Resting.standsAt, hside]

theorem remembers_add (h : net.ledger.Remembers orders) (hd : (orders.map Resting.index).Nodup)
    (report : Report) : (net.add report).ledger.Remembers (amend orders report) := by
  have hinsert : (net.ledger.insert report.resting).Remembers
      (without report.index orders ++ [report.resting]) := h.insert hd report.resting
  unfold amend
  rcases net.add_cases report with
    ⟨hget, hout, hadd⟩ | ⟨-, hout, hadd⟩ | ⟨order, -, hout, hadd⟩ | ⟨order, -, hout, hadd⟩
  · rw [hadd, h.without_of_get? hget, hout, if_pos rfl, List.append_nil]
    exact h
  · rwa [hadd, hout, if_neg Bool.false_ne_true, ledger_book]
  · rw [hadd, hout, if_pos rfl, List.append_nil]
    exact h.erase hd report.index
  · rwa [hadd, hout, if_neg Bool.false_ne_true, ledger_book, ledger_withdraw]

theorem remembers_foldl (h : net.ledger.Remembers orders) (hd : (orders.map Resting.index).Nodup)
    (batch : List Report) :
    (batch.foldl Netting.add net).ledger.Remembers (batch.foldl amend orders) := by
  induction batch generalizing net orders with
  | nil => exact h
  | cons report rest ih => exact ih (remembers_add h hd report) (amend_distinct hd report)

theorem remembers_net {ledger : Ledger} {seen : List Report} (h : ledger.Remembers (live seen))
    (batch : List Report) : (ledger.net batch).1.Remembers (live (seen ++ batch)) := by
  have hstart : ({ ledger } : Netting).ledger.Remembers (live seen) := h
  rw [live_append]
  exact remembers_foldl hstart (live_distinct seen) batch

structure Tallies (scale : ∀ side, Scale side S) (before after : List Resting) (net : Netting) :
    Prop where
  sound : net.Sound scale
  ledger : net.ledger.Remembers after
  gathers : net.Gathers S (change before after)

theorem Tallies.withdraw (h : net.Tallies scale before orders)
    (hd : (orders.map Resting.index).Nodup) {index : Int64} {order : Resting}
    (hget : net.ledger.get? index = some order) (hf : order.size.isFinite = true)
    (hr : Reckoned S before (without index orders)) (time : Int64) :
    (net.withdraw order time).Gathers S (change before (without index orders)) := by
  have hknown := h.sound.ledger index order hget
  rw [h.ledger.get?] at hget
  refine h.gathers.contribute h.sound order hknown (Counts.of_finite hf).neg time ?_ hr
  intro side price _
  have hsplit : volumeAt side price orders = volumeAt side price (without index orders) +
      if order.standsAt side price then steps order.size else 0 := sumAt_without hd hget
  unfold change
  split_ifs at hsplit ⊢ <;> omega

theorem Gathers.book (h : net.Gathers S (change before orders)) (hs : net.Sound scale)
    {report : Report} (hp : ∀ price ∈ report.price?, price ∈ S)
    (hf : report.size.isFinite = true) (hr : Reckoned S before (orders ++ [report.resting])) :
    (net.book report).Gathers S (change before (orders ++ [report.resting])) := by
  have hc : (net.contribute report.resting.interest report.resting.price report.resting.size
      report.time).Gathers S (change before (orders ++ [report.resting])) := by
    refine h.contribute hs report.resting hp (Counts.of_finite hf) report.time ?_ hr
    intro side price _
    have hsplit : volumeAt side price (orders ++ [report.resting]) = volumeAt side price orders +
        if report.resting.standsAt side price then steps report.resting.size else 0 := by
      rw [volumeAt, sumAt_append, sumAt_cons, sumAt_nil, Int.add_zero, volumeAt]
    unfold change
    rw [hsplit, add_sub_right_comm]
    rfl
  intro side
  cases side
  · exact hc .ask
  · exact hc .bid

theorem Tallies.add (h : net.Tallies scale before orders) (hd : (orders.map Resting.index).Nodup)
    {report : Report} (hp : ∀ price ∈ report.price?, price ∈ S)
    (hold : ∀ order ∈ orders, order.size.isFinite = true)
    (hnew : ∀ order ∈ amend orders report, order.size.isFinite = true)
    (hopened : Reckoned S before (without report.index orders))
    (hpassed : Reckoned S before (amend orders report)) :
    (net.add report).Tallies scale before (amend orders report) := by
  refine ⟨h.sound.add hp, remembers_add h.ledger hd report, ?_⟩
  have hwithdraw : ∀ order, net.ledger.get? report.index = some order →
      (net.withdraw order report.time).Gathers S
        (change before (without report.index orders)) := by
    intro order hget
    have hfound := h.ledger.get? report.index
    rw [hget] at hfound
    exact h.withdraw hd hget (hold order (List.mem_of_find?_eq_some hfound.symm)) hopened report.time
  unfold amend at hnew hpassed ⊢
  rcases net.add_cases report with
    ⟨hget, hout, hadd⟩ | ⟨hget, hout, hadd⟩ | ⟨order, hget, hout, hadd⟩ | ⟨order, hget, hout, hadd⟩
  · rw [hadd, h.ledger.without_of_get? hget, hout, if_pos rfl, List.append_nil]
    exact h.gathers
  · rw [hout, if_neg Bool.false_ne_true] at hnew hpassed ⊢
    rw [h.ledger.without_of_get? hget] at hnew hpassed ⊢
    rw [hadd]
    exact h.gathers.book h.sound hp (hnew report.resting (by simp)) hpassed
  · rw [hadd, hout, if_pos rfl, List.append_nil]
    exact hwithdraw order hget
  · rw [hout, if_neg Bool.false_ne_true] at hnew hpassed ⊢
    rw [hadd]
    exact (hwithdraw order hget).book (h.sound.withdraw hget _) hp
      (hnew report.resting (by simp)) hpassed

theorem Tallies.foldl (h : net.Tallies scale before orders)
    (hd : (orders.map Resting.index).Nodup) {batch : List Report} (hp : Reported S batch)
    (hfinite : ∀ first rest, batch = first ++ rest →
      ∀ order ∈ first.foldl amend orders, order.size.isFinite = true)
    (hopened : ∀ first report rest, batch = first ++ report :: rest →
      Reckoned S before (without report.index (first.foldl amend orders)))
    (hpassed : ∀ first rest, batch = first ++ rest →
      Reckoned S before (first.foldl amend orders)) :
    (batch.foldl Netting.add net).Tallies scale before (batch.foldl amend orders) := by
  induction batch generalizing net orders with
  | nil => exact h
  | cons report rest ih =>
    obtain ⟨hr, hrest⟩ := List.forall_mem_cons.mp hp
    have hnext := h.add hd hr (hfinite [] (report :: rest) rfl) (hfinite [report] rest rfl)
      (hopened [] report rest rfl) (hpassed [report] rest rfl)
    -- What comes before a later report is this report and a part of the rest.
    have hshift : ∀ {first last}, rest = first ++ last → report :: rest = (report :: first) ++ last :=
      fun hsplit => by rw [hsplit]; rfl
    exact ih hnext (amend_distinct hd report) hrest
      (fun first last hsplit => hfinite _ last (hshift hsplit))
      (fun first other last hsplit => hopened _ other last (hshift hsplit))
      (fun first last hsplit => hpassed _ last (hshift hsplit))

theorem tallies_start (scale : ∀ side, Scale side S) {ledger : Ledger} (hknown : ledger.Known S)
    (h : ledger.Remembers orders) : Netting.Tallies scale orders orders { ledger } := by
  refine ⟨sound_start hknown, h, fun side => ?_⟩
  have hempty : Netting.on { ledger } side = .empty := by cases side <;> rfl
  rw [hempty]
  exact ⟨fun _ _ _ => Int.sub_self _, fun _ _ _ hsome => nomatch hsome⟩

theorem tallies_net (scale : ∀ side, Scale side S) {ledger : Ledger} {seen batch : List Report}
    (hknown : ledger.Known S) (h : ledger.Remembers (live seen)) (hp : Reported S batch)
    (hr : Reckonable S seen batch) :
    (batch.foldl Netting.add { ledger }).Tallies scale (live seen) (live (seen ++ batch)) := by
  have hall := (tallies_start scale hknown h).foldl (live_distinct seen) hp
    (fun first rest hsplit => live_append seen first ▸ hr.finite first rest hsplit)
    (fun first report rest hsplit => live_append seen first ▸ hr.opened first report rest hsplit)
    (fun first rest hsplit => live_append seen first ▸ hr.passed first rest hsplit)
  rwa [← live_append] at hall

end Netting

/-- A level for each price with a volume above zero, of that volume, and no other. -/
structure Ladder.Stocks {side : Side} (S : Set Price) (orders : List Resting)
    (ladder : Ladder side Level) : Prop where
  absent : ∀ price ∈ S, ladder.get? price = none → volumeAt side price orders ≤ 0
  present : ∀ price ∈ S, ∀ level, ladder.get? price = some level →
    0 < volumeAt side price orders ∧ Counts (volumeAt side price orders) level.size

/-- A delta that neither takes from a level that is not there nor takes more than there is. -/
structure Window.Covers {side : Side} (window : Window side) (delta : Delta) : Prop where
  unknown : window.get? delta.price = none → 0 < delta.size
  known : ∀ level, window.get? delta.price = some level → ¬ level.size + delta.size < 0

namespace Ladder

variable {side : Side} {scale : Scale side S} {ladder : Ladder side Level} {after : List Resting}
  {delta : Delta} {price : Price}

theorem stocks_empty : (Ladder.empty : Ladder side Level).Stocks S [] :=
  ⟨fun _ _ _ => le_rfl, fun _ _ _ h => nomatch h⟩

/-- What is made of a delta at a price where the volume is to be the given one. -/
structure Brings (ladder : Ladder side Level) (delta : Delta) (volume : Int) : Prop where
  level : ∀ level, (Window.judge ladder delta).bind Move.left? = some level →
    0 < volume ∧ Counts volume level.size
  nothing : (Window.judge ladder delta).bind Move.left? = none → volume ≤ 0
  covers : 0 ≤ volume → Window.Covers { depth := 0, levels := ladder } delta

theorem brings_of_unknown (hget : ladder.get? delta.price = none) {volume : Int}
    (hmoved : volume ≠ 0) (hc : Counts volume delta.size) : ladder.Brings delta volume := by
  have hpos : 0 < delta.size ↔ 0 < volume := Counts.zero.lt_iff hc
  have hjudge := Window.judge_of_unknown hget
  refine ⟨fun level hl => ?_, fun hl => ?_, fun hnonneg => ⟨fun _ => ?_, fun level hl => ?_⟩⟩
  · rw [hjudge] at hl
    split_ifs at hl with hsize
    · obtain rfl := Option.some.inj hl
      exact ⟨hpos.mp hsize, hc⟩
    · cases hl
  · rw [hjudge] at hl
    split_ifs at hl with hsize
    · cases hl
    · exact Int.not_lt.mp fun hvolume => hsize (hpos.mpr hvolume)
  · exact hpos.mpr (by omega)
  · cases hget.symm.trans hl

theorem brings_of_known {old : Level} (hget : ladder.get? delta.price = some old) {volume : Int}
    (hsharp : Sharp volume) (hc : Counts volume (old.size + delta.size)) :
    ladder.Brings delta volume := by
  have hneg : old.size + delta.size < 0 ↔ volume < 0 := hc.lt_iff Counts.zero
  have hgone : (negligible (old.size + delta.size) || old.size + delta.size < 0) = true ↔
      volume ≤ 0 := by
    simp only [Bool.or_eq_true, hc.negligible_iff hsharp, decide_eq_true_eq, hneg]
    omega
  have hjudge := Window.judge_of_known hget
  refine ⟨fun level hl => ?_, fun hl => ?_, fun hnonneg => ⟨fun hnone => ?_, fun level hl => ?_⟩⟩
  · rw [hjudge] at hl
    split_ifs at hl with hzero
    · cases hl
    · obtain rfl := Option.some.inj hl
      exact ⟨Int.not_le.mp fun hle => hzero (hgone.mpr hle), hc⟩
  · rw [hjudge] at hl
    split_ifs at hl with hzero
    · exact hgone.mp hzero
    · cases hl
  · cases hget.symm.trans hnone
  · obtain rfl := Option.some.inj (hget.symm.trans hl)
    exact fun hlt => hnonneg.not_gt (hneg.mp hlt)

theorem Stocks.brings (h : ladder.Stocks S before) (hp : price ∈ S)
    (hsolvent : 0 ≤ volumeAt side price before) (hsharp : Sharp (change before after side price))
    (hheld : Sharp (volumeAt side price after)) (hget : ladder.get? delta.price = ladder.get? price)
    (hc : Counts (change before after side price) delta.size)
    (hkeep : negligible delta.size = false) :
    ladder.Brings delta (volumeAt side price after) := by
  have hmoved : change before after side price ≠ 0 :=
    fun h0 => by rw [(hc.negligible_iff hsharp).mpr h0] at hkeep; cases hkeep
  cases hg : ladder.get? price with
  | none =>
    have hzero := h.absent price hp hg
    have hnow : change before after side price = volumeAt side price after := by
      unfold change
      omega
    rw [hnow] at hc hmoved
    exact brings_of_unknown (hget.trans hg) hmoved hc
  | some old =>
    obtain ⟨-, hold⟩ := h.present price hp old hg
    have hnow : volumeAt side price before + change before after side price =
        volumeAt side price after := by
      unfold change
      omega
    have hsum := hold.add hc (hnow ▸ hheld)
    rw [hnow] at hsum
    exact brings_of_known (hget.trans hg) hheld hsum

theorem Gathers.unmoved {gathered : Ladder side Delta} {change : Price → Int}
    (hg : gathered.Gathers S change) (hG : gathered.Filed scale Delta.price) (hp : price ∈ S)
    (hsharp : Sharp (change price))
    (hfar : ∀ delta ∈ gathered.values.filter fun delta => !negligible delta.size,
      scale.place delta.price ≠ scale.place price) : change price = 0 := by
  cases hget : gathered.get? price with
  | none => exact hg.absent price hp hget
  | some delta =>
    obtain ⟨hin, hplace⟩ := (hG.get?_eq_some hp).mp hget
    have hc := hg.present price hp delta hget
    by_contra hmoved
    refine hfar delta (List.mem_filter.mpr ⟨hin, ?_⟩) hplace
    rw [Bool.not_eq_true', ← Bool.not_eq_true, hc.negligible_iff hsharp]
    exact hmoved

/-- Settling what a batch has gathered brings every level to the new volume. -/
theorem Stocks.settle (h : ladder.Stocks S before) (hL : ladder.Filed scale Level.price)
    {gathered : Ladder side Delta} (hg : gathered.Gathers S (change before after side))
    (hG : gathered.Filed scale Delta.price) (hsolvent : ∀ price ∈ S, 0 ≤ volumeAt side price before)
    (hsharp : ∀ price ∈ S, Sharp (change before after side price))
    (hheld : ∀ price ∈ S, Sharp (volumeAt side price after)) {deltas : List Delta}
    (hd : deltas = gathered.values.filter fun delta => !negligible delta.size) :
    (Window.settle ladder deltas).Stocks S after ∧
      ((∀ price ∈ S, 0 ≤ volumeAt side price after) →
        ∀ delta ∈ deltas, Window.Covers { depth := 0, levels := ladder } delta) := by
  have hnetted : Netted scale deltas := hd ▸ hG.netted _
  have hfiled := Window.filed_settle hL hnetted
  have hmem : ∀ delta ∈ deltas, delta ∈ gathered.values ∧ negligible delta.size = false :=
    fun delta hin => by simpa [hd] using hin
  have hbrings : ∀ price ∈ S, ∀ delta ∈ deltas, scale.place delta.price = scale.place price →
      ladder.Brings delta (volumeAt side price after) := fun price hp delta hin hplace =>
    h.brings hp (hsolvent price hp) (hsharp price hp) (hheld price hp)
      (hL.get?_congr (hnetted.known delta hin) hp hplace)
      (hg.present price hp delta ((hG.get?_eq_some hp).mpr ⟨(hmem delta hin).1, hplace⟩))
      (hmem delta hin).2
  have hnear : ∀ price ∈ S, ∀ delta ∈ deltas, scale.place delta.price = scale.place price →
      (Window.settle ladder deltas).get? price = (Window.judge ladder delta).bind Move.left? :=
    fun price hp delta hin hplace => (hfiled.get?_congr hp (hnetted.known delta hin)
      hplace.symm).trans (Window.get?_settle_of_mem hL hnetted hin)
  have hfar : ∀ price ∈ S, (∀ delta ∈ deltas, scale.place delta.price ≠ scale.place price) →
      (Window.settle ladder deltas).get? price = ladder.get? price ∧
        volumeAt side price after = volumeAt side price before := by
    intro price hp hfar
    have hzero := hg.unmoved hG hp (hsharp price hp) (hd ▸ hfar)
    unfold change at hzero
    exact ⟨Window.get?_settle_of_forall hL hnetted hp hfar, by omega⟩
  refine ⟨⟨fun price hp hnone => ?_, fun price hp level hsome => ?_⟩, fun hnonneg delta hin => ?_⟩
  · by_cases hdelta : ∃ delta ∈ deltas, scale.place delta.price = scale.place price
    · obtain ⟨delta, hin, hplace⟩ := hdelta
      rw [hnear price hp delta hin hplace] at hnone
      exact (hbrings price hp delta hin hplace).nothing hnone
    · obtain ⟨hsame, hvolume⟩ := hfar price hp (by simpa using hdelta)
      rw [hsame] at hnone
      rw [hvolume]
      exact h.absent price hp hnone
  · by_cases hdelta : ∃ delta ∈ deltas, scale.place delta.price = scale.place price
    · obtain ⟨delta, hin, hplace⟩ := hdelta
      rw [hnear price hp delta hin hplace] at hsome
      exact (hbrings price hp delta hin hplace).level level hsome
    · obtain ⟨hsame, hvolume⟩ := hfar price hp (by simpa using hdelta)
      rw [hsame] at hsome
      rw [hvolume]
      exact h.present price hp level hsome
  · have hp := hnetted.known delta hin
    exact (hbrings delta.price hp delta hin rfl).covers (hnonneg delta.price hp)

end Ladder

end MarketDepth
