import Mathlib.Data.List.Induction
import MarketDepth.Proofs.BitOrder
import MarketDepth.Proofs.LadderOrder

/-! The laws of ranking. The order of prices is strict and agrees with the order of values wherever two
prices differ, and where equality is transitive it is a total preorder, turned round for bids. So a ladder
of prices holds the first of every kind, best first. -/

namespace MarketDepth

namespace Price

theorem compare_lt_trans {a b c : Price} (h : a.compare b = .lt) (h' : b.compare c = .lt) :
    a.compare c = .lt := by
  obtain ⟨hfar, hlt⟩ := (compare_lt_iff a b).mp h
  obtain ⟨hfar', hlt'⟩ := (compare_lt_iff b c).mp h'
  refine (compare_lt_iff a c).mpr ⟨?_, hlt.trans hlt'⟩
  rw [← Bool.not_eq_true] at hfar' ⊢
  exact fun hnear => hfar' (near_of_between hnear hlt.le hlt'.le)

theorem compare_lt_iff_value (a b : Price) :
    a.compare b = .lt ↔ a.value < b.value ∧ near a.value b.value = false := by
  rw [compare_lt_iff, and_comm]
  exact and_congr_left fun hfar => (lt_iff_totalKey a.isNumber b.isNumber hfar).symm

end Price

theorem Side.rank_bid (a b : Price) : Side.bid.rank a b = (Side.ask.rank a b).swap :=
  (Price.compare_swap a b).symm

theorem Side.same_bid (a b : Price) : Side.bid.same a b = Side.ask.same a b := by
  rw [Bool.eq_iff_iff, Side.same, Side.same, beq_iff_eq, beq_iff_eq]
  exact Price.compare_eq_comm

variable {side : Side} {S : Set Price} {prices : List Price} {key price : Price}

theorem Scale.transCmp (scale : Scale side S) : Std.TransCmp fun a b : S => side.rank a b := by
  have hrank : (fun a b : S => side.rank a b) = compareOn fun a : S => scale.place a :=
    funext fun a => funext fun b => scale.rank_eq a.2 b.2
  rw [hrank]
  infer_instance

/-- The first price of its kind in a list. -/
def First (side : Side) (prices : List Price) (price : Price) : Prop :=
  ∃ before after, prices = before ++ price :: after ∧ ∀ other ∈ before, side.same price other = false

theorem First.mem (h : First side prices key) : key ∈ prices := by
  obtain ⟨before, after, rfl, -⟩ := h
  simp

theorem first_concat : First side (prices ++ [price]) key ↔
    First side prices key ∨ key = price ∧ ∀ other ∈ prices, side.same price other = false := by
  constructor
  · rintro ⟨before, after, hsplit, hfirst⟩
    rcases List.eq_nil_or_concat after with rfl | ⟨after, last, rfl⟩
    · obtain ⟨rfl, hkey⟩ := List.append_inj' hsplit rfl
      obtain rfl := List.singleton_inj.mp hkey
      exact .inr ⟨rfl, hfirst⟩
    · rw [List.concat_eq_append, ← List.cons_append, ← List.append_assoc] at hsplit
      obtain ⟨rfl, -⟩ := List.append_inj' hsplit rfl
      exact .inl ⟨before, after, rfl, hfirst⟩
  · rintro (⟨before, after, rfl, hfirst⟩ | ⟨rfl, hfirst⟩)
    · exact ⟨before, after ++ [price], by simp, hfirst⟩
    · exact ⟨prices, [], rfl, hfirst⟩

theorem exists_first (scale : Scale side S) (hS : ∀ price ∈ prices, price ∈ S)
    (hin : price ∈ prices) :
    ∃ key, First side prices key ∧ scale.place key = scale.place price := by
  have hp := hS price hin
  have hsome : (prices.find? (side.same price ·)).isSome = true :=
    List.find?_isSome.mpr ⟨price, hin, (scale.same_iff hp hp).mpr rfl⟩
  obtain ⟨key, hkey⟩ := Option.isSome_iff_exists.mp hsome
  obtain ⟨hsame, before, after, rfl, hbefore⟩ := List.find?_eq_some_iff_append.mp hkey
  have hk := hS key (by simp)
  have hplace := (scale.same_iff hp hk).mp hsame
  refine ⟨key, ⟨before, after, rfl, fun other ho => ?_⟩, hplace.symm⟩
  have hfar := hbefore other ho
  have hother := hS other (List.mem_append_left _ ho)
  rw [Bool.not_eq_true', ← Bool.not_eq_true, scale.same_iff hp hother, hplace] at hfar
  rwa [← Bool.not_eq_true, scale.same_iff hk hother]

namespace Ladder

variable {scale : Scale side S} {ladder : Ladder side Unit}

theorem ofPrices_concat (side : Side) (prices : List Price) (price : Price) :
    ofPrices side (prices ++ [price]) = (ofPrices side prices).insert price () := by
  rw [ofPrices, List.foldl_append]
  rfl

theorem ordered_ofPrices (scale : Scale side S) (hS : ∀ price ∈ prices, price ∈ S) :
    (ofPrices side prices).Ordered scale := by
  induction prices using List.reverseRecOn with
  | nil => exact Ordered.empty
  | append_singleton prices last ih =>
    obtain ⟨hprices, hlast⟩ := List.forall_mem_append.mp hS
    rw [ofPrices_concat]
    exact (ih hprices).upsert (hlast last List.mem_cons_self) _

theorem Ordered.mem_prices_insert (h : ladder.Ordered scale) (hp : price ∈ S) :
    key ∈ (ladder.insert price ()).prices ↔
      key ∈ ladder.prices ∨ key = price ∧ ∀ other ∈ ladder.prices, side.same price other = false := by
  have hfar : ∀ {other}, other ∈ S → (side.same price other = false ↔
      scale.place price ≠ scale.place other) := fun ho => by
    rw [← Bool.not_eq_true, scale.same_iff hp ho]
  rcases h.cases price with ⟨A, B, hr, hA⟩ | ⟨A, rung, B, hr, hA⟩
  · have hnew : ∀ other ∈ ladder.prices, side.same price other = false := by
      intro other hin
      rw [hfar (h.known other hin)]
      obtain ⟨rung, hrung, rfl⟩ := List.mem_map.mp hin
      rw [hr] at hrung
      rcases List.mem_append.mp hrung with hrung | hrung
      · exact (hA.before rung hrung).2.ne'
      · exact (hA.beyond rung hrung).2.ne
    have hprices : (ladder.insert price ()).prices = A.map (·.1) ++ price :: B.map (·.1) := by
      simp [prices, Ladder.insert, hA.upsert_new hp hr]
    have hmem : key ∈ ladder.prices ↔ key ∈ A.map (·.1) ∨ key ∈ B.map (·.1) := by
      rw [prices, hr, List.map_append, List.mem_append]
    rw [and_iff_left hnew, hprices, hmem, List.mem_append, List.mem_cons]
    tauto
  · have hsame : (ladder.insert price ()).prices = ladder.prices := by
      simp [prices, Ladder.insert, hA.upsert_known hp hr, hr]
    have hin : rung.1 ∈ ladder.prices := by simp [prices, hr]
    have hold : ¬ ∀ other ∈ ladder.prices, side.same price other = false := fun hall =>
      (hfar (h.known _ hin)).mp (hall _ hin) (hA.here rung List.mem_cons_self).2.symm
    rw [hsame]
    simp [hold]

theorem mem_ofPrices (scale : Scale side S) (hS : ∀ price ∈ prices, price ∈ S) :
    key ∈ (ofPrices side prices).prices ↔ First side prices key := by
  induction prices using List.reverseRecOn generalizing key with
  | nil => simp [ofPrices, prices, Ladder.empty, First]
  | append_singleton prices last ih =>
    obtain ⟨hprices, hlast⟩ := List.forall_mem_append.mp hS
    have hl := hlast last List.mem_cons_self
    -- A price is on the ladder already just when an equal one came before.
    have hnew : (∀ other ∈ (ofPrices side prices).prices, side.same last other = false) ↔
        ∀ other ∈ prices, side.same last other = false := by
      constructor
      · intro hnone other hin
        obtain ⟨key, hfirst, hplace⟩ := exists_first scale hprices hin
        have hfar := hnone key ((ih hprices).mpr hfirst)
        rw [← Bool.not_eq_true, scale.same_iff hl (hprices _ hfirst.mem), hplace] at hfar
        rwa [← Bool.not_eq_true, scale.same_iff hl (hprices other hin)]
      · exact fun hnone other hin => hnone other ((ih hprices).mp hin).mem
    rw [ofPrices_concat, (ordered_ofPrices scale hprices).mem_prices_insert hl, ih hprices, hnew,
      first_concat]

theorem ofPrices_bid (hS : Unchained S) (hp : ∀ price ∈ prices, price ∈ S) :
    (ofPrices .bid prices).prices = (ofPrices .ask prices).prices.reverse := by
  obtain ⟨asks⟩ := hS.scale .ask
  obtain ⟨bids⟩ := hS.scale .bid
  have hasks := ordered_ofPrices asks hp
  have hbids := ordered_ofPrices bids hp
  refine eq_of_pairwise_lt hbids.strict (List.pairwise_reverse.mpr ?_) fun key => ?_
  · refine hasks.strict.imp_of_mem fun {a b} ha hb hlt => ?_
    have hrank := (asks.rank_lt (hasks.known a ha) (hasks.known b hb)).mpr hlt
    rw [← bids.rank_gt (hasks.known a ha) (hasks.known b hb), Side.rank_bid, hrank]
    rfl
  · rw [List.mem_reverse, mem_ofPrices bids hp, mem_ofPrices asks hp]
    simp only [First, Side.same_bid]

end Ladder

/-- The order of prices is reflexive, antisymmetric and, where it is strict, transitive, and prices that
are not near each other are ordered as their values are. Bids rank the other way round. On prices whose
equality is transitive both sides have a total preorder, in which equal prices can stand for each other;
a ladder made of such prices, one by one, has the first of each kind, best first. -/
theorem rank_lawful (hS : Unchained S) (hp : ∀ price ∈ prices, price ∈ S) :
    (∀ a b c : Price, a.compare a = .eq ∧ b.compare a = (a.compare b).swap ∧
      (a.compare b = .lt → b.compare c = .lt → a.compare c = .lt) ∧
      (a.compare b = .lt ↔ a.value < b.value ∧ near a.value b.value = false) ∧
      Side.bid.rank a b = (Side.ask.rank a b).swap) ∧
    (∀ side : Side, (Std.TransCmp fun a b : S => side.rank a b) ∧
      ∀ a ∈ S, ∀ b ∈ S, ∀ c ∈ S, side.rank a b = .eq →
        side.rank a c = side.rank b c ∧ side.rank c a = side.rank c b) ∧
    (∀ side : Side, let keys := (Ladder.ofPrices side prices).prices
      keys.Pairwise (fun a b => side.rank a b = .lt) ∧
      (∀ key, key ∈ keys ↔ ∃ before after, prices = before ++ key :: after ∧
        ∀ other ∈ before, side.rank key other ≠ .eq) ∧
      ∀ price ∈ prices, ∃! key, key ∈ keys ∧ side.rank price key = .eq) ∧
    (Ladder.ofPrices .bid prices).prices = (Ladder.ofPrices .ask prices).prices.reverse := by
  refine ⟨fun a b c => ⟨a.compare_refl, (Price.compare_swap a b).symm, Price.compare_lt_trans,
    Price.compare_lt_iff_value a b, Side.rank_bid a b⟩, fun side => ?_, fun side => ?_,
    Ladder.ofPrices_bid hS hp⟩
  · obtain ⟨scale⟩ := hS.scale side
    have htrans := scale.transCmp
    refine ⟨htrans, fun a ha b hb c hc heq => ?_⟩
    have heq' : (fun a b : S => side.rank a b) ⟨a, ha⟩ ⟨b, hb⟩ = .eq := heq
    exact ⟨htrans.congr_left (c := ⟨c, hc⟩) heq', htrans.congr_right (a := ⟨c, hc⟩) heq'⟩
  · obtain ⟨scale⟩ := hS.scale side
    intro keys
    have hordered := Ladder.ordered_ofPrices scale hp
    have hbest : BestFirst scale id keys := hordered.strict
    refine ⟨?_, fun key => ?_, fun price hin => ?_⟩
    · exact hordered.strict.imp_of_mem fun ha hb hlt =>
        (scale.rank_lt (hordered.known _ ha) (hordered.known _ hb)).mpr hlt
    · rw [Ladder.mem_ofPrices scale hp, First]
      simp [Side.same]
    · obtain ⟨key, hfirst, hplace⟩ := exists_first scale hp hin
      have hkey : key ∈ keys := (Ladder.mem_ofPrices scale hp).mpr hfirst
      refine ⟨key, ⟨hkey, (scale.rank_same (hp price hin) (hordered.known key hkey)).mpr
        hplace.symm⟩, ?_⟩
      rintro other ⟨hother, hsame⟩
      have hplace' := (scale.rank_same (hp price hin) (hordered.known other hother)).mp hsame
      exact hbest.eq_of_place hother hkey (hplace'.symm.trans hplace.symm)

/-- Infinity, one, two, and a price just below one. -/
def assorted : List Price :=
  [⟨.ofBits 0x7FF0000000000000, by decide⟩, .one, .two, ⟨.ofBits 0x3FEFFFFFFFFFFFFF, by decide⟩]

theorem rank_lawful_assorted :
    let S : Set Price := {price | price ∈ assorted}
    Unchained S ∧ (∀ price ∈ assorted, price ∈ S) ∧
      (Ladder.ofPrices .ask assorted).prices.map (totalKey ·.value) =
        [0x3FF0000000000000, 0x4000000000000000, 0x7FF0000000000000] ∧
      (Ladder.ofPrices .bid assorted).prices = (Ladder.ofPrices .ask assorted).prices.reverse := by
  intro S
  have hS : Unchained S := by
    change ∀ a ∈ assorted, ∀ b ∈ assorted, ∀ c ∈ assorted, _
    decide +kernel
  have hp : ∀ price ∈ assorted, price ∈ S := fun price hin => hin
  obtain ⟨-, -, -, hreverse⟩ := rank_lawful hS hp
  exact ⟨hS, hp, by decide +kernel, hreverse⟩

end MarketDepth
