import Mathlib.Data.List.Induction
import MarketDepth.Proofs.WindowChanges

/-! Runs of a window over batches of deltas. Whatever the depth the levels are the same, the mark
stands at the last one shown, and the changes of each batch are the difference of what is shown. -/

namespace MarketDepth

variable {side : Side} {S : Set Price} {scale : Scale side S}

def PricesDiffer (side : Side) (deltas : List Delta) : Prop :=
  deltas.Pairwise fun a b => side.same a.price b.price = false

def pricesOf (batches : List (List Delta)) : Set Price :=
  {price | ∃ deltas ∈ batches, ∃ delta ∈ deltas, delta.price = price}

theorem netted_of_pricesOf {batches : List (List Delta)} {deltas : List Delta}
    (scale : Scale side (pricesOf batches)) (h : deltas ∈ batches) (hd : PricesDiffer side deltas) :
    Netted scale deltas := by
  have hknown : ∀ delta ∈ deltas, delta.price ∈ pricesOf batches :=
    fun delta hin => ⟨deltas, h, delta, hin, rfl⟩
  refine ⟨hknown, hd.imp_of_mem fun {a b} ha hb hfar heq => ?_⟩
  rw [(scale.same_iff (hknown a ha) (hknown b hb)).mpr heq] at hfar
  cases hfar

def holds (side : Side) (levels : List Level) (price : Price) : Bool :=
  levels.any fun level => side.same level.price price

def PricesDisjoint (side : Side) (levels levels' : List Level) : Prop :=
  ∀ l ∈ levels, ∀ m ∈ levels', side.same l.price m.price = false

def Ranked (side : Side) (levels : List Level) : Prop :=
  levels.Pairwise fun a b => side.rank a.price b.price = .lt

theorem BestFirst.ranked {levels : List Level} (h : BestFirst scale Level.price levels)
    (hS : ∀ l ∈ levels, l.price ∈ S) : Ranked side levels :=
  h.imp_of_mem fun ha hb hlt => (scale.rank_lt (hS _ ha) (hS _ hb)).mpr hlt

theorem holds_iff {levels : List Level} (hS : ∀ l ∈ levels, l.price ∈ S) {l : Level}
    (hl : l.price ∈ S) : holds side levels l.price = true ↔ ¬ Absent scale levels l := by
  rw [not_absent, holds, List.any_eq_true]
  exact exists_congr fun o => and_congr_right fun ho => scale.same_iff (hS o ho) hl

theorem holds_iff_exists (scale : Scale side S) {levels : List Level}
    (hS : ∀ l ∈ levels, l.price ∈ S) {l : Level} (hl : l.price ∈ S) :
    holds side levels l.price = true ↔ ∃ o ∈ levels, scale.place o.price = scale.place l.price :=
  (holds_iff hS hl).trans not_absent

theorem holds_eq_false {levels : List Level} {price : Price} :
    holds side levels price = false ↔ ∀ l ∈ levels, side.same l.price price = false := by
  simp [holds]

namespace Tracks

variable {before now : List Level} {deltas : List Delta} {touched : Set Int}
  {changes : SideChanges side}

theorem values_eq (h : Tracks scale before now
      {x | ∃ delta ∈ deltas, scale.place delta.price = x} changes)
    (hbefore : BestFirst scale Level.price before) (hnow : BestFirst scale Level.price now)
    (hS : ∀ l ∈ before, l.price ∈ S) (hS' : ∀ l ∈ now, l.price ∈ S)
    (hd : ∀ delta ∈ deltas, delta.price ∈ S) :
    changes.additions.values = now.filter (fun l => !holds side before l.price) ∧
      changes.removals.values = before.filter (fun l => !holds side now l.price) ∧
      changes.updates.values = now.filter (fun l =>
        holds side before l.price && deltas.any fun delta => side.same delta.price l.price) := by
  obtain ⟨hfa, hfu, hfr⟩ := h.filed
  refine ⟨hfa.bestFirst.eq_of_mem_iff (hnow.sublist List.filter_sublist) fun l => ?_,
    hfr.bestFirst.eq_of_mem_iff (hbefore.sublist List.filter_sublist) fun l => ?_,
    hfu.bestFirst.eq_of_mem_iff (hnow.sublist List.filter_sublist) fun l => ?_⟩
  · rw [h.additions, List.mem_filter, Bool.not_eq_true', ← Bool.not_eq_true]
    exact and_congr_right fun hl => by rw [holds_iff hS (hS' l hl), not_not]
  · rw [h.removals, List.mem_filter, Bool.not_eq_true', ← Bool.not_eq_true]
    exact and_congr_right fun hl => by rw [holds_iff hS' (hS l hl), not_not]
  · rw [h.updates, List.mem_filter, Bool.and_eq_true, List.any_eq_true]
    refine and_congr_right fun hl => ?_
    rw [holds_iff hS (hS' l hl)]
    refine and_congr_right fun _ => exists_congr fun delta => and_congr_right fun hin => ?_
    exact (scale.same_iff (hd delta hin) (hS' l hl)).symm

theorem disjoint (h : Tracks scale before now touched changes) :
    PricesDisjoint side changes.additions.values changes.removals.values ∧
      PricesDisjoint side changes.additions.values changes.updates.values ∧
      PricesDisjoint side changes.removals.values changes.updates.values := by
  obtain ⟨hfa, hfu, hfr⟩ := h.filed
  refine ⟨fun l hl m hm => ?_, fun l hl m hm => ?_, fun l hl m hm => ?_⟩
  · rw [← Bool.not_eq_true, scale.same_iff (hfa.known_of_mem hl) (hfr.known_of_mem hm)]
    exact ((h.removals m).mp hm).2 l ((h.additions l).mp hl).1
  · rw [← Bool.not_eq_true, scale.same_iff (hfa.known_of_mem hl) (hfu.known_of_mem hm)]
    exact fun heq => ((h.updates m).mp hm).2.1 ((absent_congr heq).mp ((h.additions l).mp hl).2)
  · rw [← Bool.not_eq_true, scale.same_iff (hfr.known_of_mem hl) (hfu.known_of_mem hm)]
    exact fun heq => ((h.removals l).mp hl).2 m ((h.updates m).mp hm).1 heq.symm

end Tracks

namespace Window

def run (window : Window side) (batches : List (List Delta)) : Window side :=
  batches.foldl (fun window deltas => (window.apply deltas).1) window

def settled (side : Side) (batches : List (List Delta)) : Ladder side Level :=
  batches.foldl settle .empty

theorem run_concat (window : Window side) (batches : List (List Delta)) (deltas : List Delta) :
    window.run (batches ++ [deltas]) = ((window.run batches).apply deltas).1 := by
  simp [run]

theorem settled_concat (batches : List (List Delta)) (deltas : List Delta) :
    settled side (batches ++ [deltas]) = settle (settled side batches) deltas := by
  simp [settled]

/-- Every reachable window is one over the settled levels with its mark where it belongs. -/
theorem run_marked {batches : List (List Delta)} (h : ∀ deltas ∈ batches, Netted scale deltas)
    (depth : Nat) : (Window.empty depth : Window side).run batches =
      marked depth (settled side batches) ∧ (settled side batches).Filed scale Level.price := by
  induction batches using List.reverseRecOn with
  | nil => exact ⟨empty_eq_marked depth, Ladder.Filed.empty⟩
  | append_singleton batches deltas ih =>
    obtain ⟨hw, hL⟩ := ih fun ds hin => h ds (List.mem_append_left _ hin)
    have hstage := apply_marked hL (h deltas (by simp)) depth
    rw [run_concat, settled_concat, hw]
    exact ⟨hstage.window, hstage.filed⟩

theorem size_marked (depth : Nat) (ladder : Ladder side Level) :
    (marked depth ladder).size = ladder.size := rfl

theorem boundary_marked (depth : Nat) (ladder : Ladder side Level) :
    (marked depth ladder).last = (marked depth ladder).boundary := rfl

theorem last_marked {depth : Nat} (hd : 0 < depth) (ladder : Ladder side Level) :
    (marked depth ladder).last = ladder.prices[min ladder.size depth - 1]? := by
  rw [boundary_marked, boundary, size_marked]
  exact if_neg hd.ne'

def apart (side : Side) (deltas : List Delta) (rung : Price × Level) : Bool :=
  deltas.all fun delta => !side.same delta.price rung.1

theorem filter_apart_settle {ladder : Ladder side Level} {deltas : List Delta}
    (hL : ladder.Filed scale Level.price) (hd : Netted scale deltas) :
    (settle ladder deltas).rungs.filter (apart side deltas) =
      ladder.rungs.filter (apart side deltas) := by
  have hstrict : ∀ {L : Ladder side Level}, L.Filed scale Level.price →
      BestFirst scale Prod.fst (L.rungs.filter (apart side deltas)) :=
    fun h => h.rungs_strict.sublist List.filter_sublist
  refine (hstrict (filed_settle hL hd)).eq_of_mem_iff (hstrict hL) fun rung => ?_
  simp only [List.mem_filter]
  refine and_congr_left fun hapart => ?_
  have hfar : rung.1 ∈ S → ∀ delta ∈ deltas, scale.place delta.price ≠ scale.place rung.1 := by
    intro hs delta hin
    have hne := List.all_eq_true.mp hapart delta hin
    rw [Bool.not_eq_true', ← Bool.not_eq_true, scale.same_iff (hd.known delta hin) hs] at hne
    exact hne
  constructor
  · intro h
    exact (mem_rungs_settle hL hd (hfar ((filed_settle hL hd).rungs_known rung h))).mp h
  · intro h
    exact (mem_rungs_settle hL hd (hfar (hL.rungs_known rung h))).mpr h

/-- A window with a depth agrees with one that shows every level: after every batch both have the
same levels, the first shows the best ones, its mark is the key of the last one shown, and levels at
prices that were not among the deltas are the ones that were there. -/
theorem capped_agrees_with_plain {depth : Nat} (hdepth : 0 < depth)
    {batches : List (List Delta)} {deltas : List Delta}
    (hdiffer : ∀ ds ∈ batches ++ [deltas], PricesDiffer side ds)
    (hS : Unchained (pricesOf (batches ++ [deltas]))) :
    let before : Window side := (Window.empty depth).run batches
    let capped : Window side := (before.apply deltas).1
    let plain : Window side := (Window.empty 0).run (batches ++ [deltas])
    capped.levels = plain.levels ∧
      capped.visible = plain.visible.take (min depth plain.visible.length) ∧
      capped.last = capped.levels.prices[min depth capped.size - 1]? ∧
      (capped.last = none ↔ capped.isEmpty = true) ∧
      capped.last = capped.boundary ∧
      capped.levels.rungs.filter (apart side deltas) =
        before.levels.rungs.filter (apart side deltas) := by
  obtain ⟨scale⟩ := hS.scale side
  have hnetted : ∀ ds ∈ batches ++ [deltas], Netted scale ds :=
    fun ds hin => netted_of_pricesOf scale hin (hdiffer ds hin)
  have hbatches : ∀ ds ∈ batches, Netted scale ds :=
    fun ds hin => hnetted ds (List.mem_append_left _ hin)
  obtain ⟨hbefore, hfiled⟩ := run_marked hbatches depth
  obtain ⟨hcapped, hfiled'⟩ := run_marked hnetted depth
  have hplain := (run_marked hnetted 0).1
  intro before capped plain
  have hc : capped = marked depth (settled side (batches ++ [deltas])) := by
    rw [← hcapped, run_concat]
  have hp : plain = marked 0 (settled side (batches ++ [deltas])) := hplain
  have hb : before = marked depth (settled side batches) := hbefore
  rw [hc, hp, hb]
  generalize hL : settled side (batches ++ [deltas]) = L at *
  have hlast := last_marked hdepth L
  refine ⟨rfl, ?_, ?_, ?_, rfl, ?_⟩
  · rw [visible_marked hfiled'.toOrdered, visible_marked hfiled'.toOrdered, shown, shown,
      if_neg hdepth.ne', if_pos rfl, List.take_eq_take_min]
  · rw [hlast, min_comm]
    rfl
  · rw [hlast, List.getElem?_eq_none_iff]
    have hlen : L.prices.length = L.rungs.length := List.length_map _
    have hempty : (marked depth L).isEmpty = L.rungs.isEmpty := rfl
    rw [hlen, hempty, List.isEmpty_iff_length_eq_zero, Ladder.size]
    omega
  · rw [settled_concat] at hL
    rw [← hL]
    exact filter_apart_settle hfiled (hnetted deltas (by simp))

def opening : List Delta :=
  [⟨.one, .ofBits 0x3FF0000000000000, 0⟩, ⟨.two, .ofBits 0x4000000000000000, 0⟩]

def taking : List Delta := [⟨.one, .ofBits 0xBFF0000000000000, 1⟩]

theorem pricesDiffer_opening : ∀ ds ∈ [opening] ++ [taking], PricesDiffer .ask ds := by
  simp only [PricesDiffer]
  decide

theorem unchained_opening : Unchained (pricesOf ([opening] ++ [taking])) := by
  refine unchained_one_two.mono ?_
  rintro price ⟨ds, hds, delta, hin, rfl⟩
  simp only [List.cons_append, List.nil_append, List.mem_cons, List.not_mem_nil, or_false] at hds
  rcases hds with rfl | rfl
  · simp only [opening, List.mem_cons, List.not_mem_nil, or_false] at hin
    rcases hin with rfl | rfl <;> simp
  · simp only [taking, List.mem_cons, List.not_mem_nil, or_false] at hin
    obtain rfl := hin
    simp

theorem capped_agrees_with_plain_taking :
    (0 < 1 ∧ (∀ ds ∈ [opening] ++ [taking], PricesDiffer .ask ds) ∧
      Unchained (pricesOf ([opening] ++ [taking]))) ∧
    (((Window.empty 1 : Window .ask).run [opening]).apply taking).1.visible.map
      (fun level => level.price.value.toBits) = [0x4000000000000000] := by
  have hh := capped_agrees_with_plain Nat.one_pos pricesDiffer_opening unchained_opening
  refine ⟨⟨Nat.one_pos, pricesDiffer_opening, unchained_opening⟩, ?_⟩
  rw [hh.2.1]
  decide

/-- The changes of a batch are the difference between what was shown before it and what is shown after
it, with the levels that stayed in view and had a delta as updates. No price is in two of the lists,
no hidden level is in any, and each list is strictly best first. -/
theorem changes_eq_difference (depth : Nat) {batches : List (List Delta)} {deltas : List Delta}
    (hdiffer : ∀ ds ∈ batches ++ [deltas], PricesDiffer side ds)
    (hS : Unchained (pricesOf (batches ++ [deltas]))) :
    let window : Window side := (Window.empty depth).run batches
    let before := window.visible
    let after := (window.apply deltas).1.visible
    let changes := (window.apply deltas).2
    changes.additions.values = after.filter (fun l => !holds side before l.price) ∧
      changes.removals.values = before.filter (fun l => !holds side after l.price) ∧
      changes.updates.values = after.filter (fun l =>
        holds side before l.price && deltas.any fun delta => side.same delta.price l.price) ∧
      PricesDisjoint side changes.additions.values changes.removals.values ∧
      PricesDisjoint side changes.additions.values changes.updates.values ∧
      PricesDisjoint side changes.removals.values changes.updates.values ∧
      (∀ price, holds side before price = false → holds side after price = false →
        holds side (changes.additions.values ++ changes.removals.values ++ changes.updates.values)
          price = false) ∧
      Ranked side changes.additions.values ∧ Ranked side changes.removals.values ∧
      Ranked side changes.updates.values := by
  obtain ⟨scale⟩ := hS.scale side
  have hnetted : ∀ ds ∈ batches ++ [deltas], Netted scale ds :=
    fun ds hin => netted_of_pricesOf scale hin (hdiffer ds hin)
  have hbatches : ∀ ds ∈ batches, Netted scale ds :=
    fun ds hin => hnetted ds (List.mem_append_left _ hin)
  obtain ⟨hwindow, hfiled⟩ := run_marked hbatches depth
  have hdeltas := hnetted deltas (by simp)
  have hstage := apply_marked hfiled hdeltas depth
  have hfiled' := filed_settle hfiled hdeltas
  intro window before after changes
  have hw : window = marked depth (settled side batches) := hwindow
  have hb : before = shown depth (settled side batches).values := by
    rw [← visible_marked hfiled.toOrdered, ← hw]
  have ha : after = shown depth (settle (settled side batches) deltas).values := by
    rw [← visible_marked hfiled'.toOrdered, ← hstage.window, ← hw]
  have ht : Tracks scale before after {x | ∃ delta ∈ deltas, scale.place delta.price = x}
      changes := by
    have hc : changes = ((marked depth (settled side batches)).apply deltas).2 := by rw [← hw]
    rw [hb, ha, hc]
    exact hstage.tracks
  have hknown : ∀ l ∈ before, l.price ∈ pricesOf (batches ++ [deltas]) := fun l hl =>
    hfiled.known_of_mem ((shown_sublist depth _).subset (hb ▸ hl))
  have hknown' : ∀ l ∈ after, l.price ∈ pricesOf (batches ++ [deltas]) := fun l hl =>
    hfiled'.known_of_mem ((shown_sublist depth _).subset (ha ▸ hl))
  have hbest : BestFirst scale Level.price before := hb ▸ hfiled.bestFirst.shown depth
  have hbest' : BestFirst scale Level.price after := ha ▸ hfiled'.bestFirst.shown depth
  obtain ⟨hadd, hrem, hupd⟩ := ht.values_eq hbest hbest' hknown hknown' hdeltas.known
  obtain ⟨hfa, hfu, hfr⟩ := ht.filed
  obtain ⟨hd₁, hd₂, hd₃⟩ := ht.disjoint
  refine ⟨hadd, hrem, hupd, hd₁, hd₂, hd₃, fun price hb ha => ?_,
    hfa.bestFirst.ranked fun l hl => hfa.known_of_mem hl,
    hfr.bestFirst.ranked fun l hl => hfr.known_of_mem hl,
    hfu.bestFirst.ranked fun l hl => hfu.known_of_mem hl⟩
  rw [holds, List.any_eq_false] at hb ha ⊢
  intro l hl
  rw [List.mem_append, List.mem_append, hadd, hrem, hupd] at hl
  rcases hl with (hl | hl) | hl
  · exact ha l (List.mem_of_mem_filter hl)
  · exact hb l (List.mem_of_mem_filter hl)
  · exact ha l (List.mem_of_mem_filter hl)

theorem changes_eq_difference_taking :
    ((∀ ds ∈ [opening] ++ [taking], PricesDiffer .ask ds) ∧
      Unchained (pricesOf ([opening] ++ [taking]))) ∧
    ((((Window.empty 1 : Window .ask).run [opening]).apply taking).2.removals.values.map
        (fun level => level.price.value.toBits) = [0x3FF0000000000000] ∧
      (((Window.empty 1 : Window .ask).run [opening]).apply taking).2.additions.values.map
        (fun level => level.price.value.toBits) = [0x4000000000000000]) := by
  have hh := changes_eq_difference 1 pricesDiffer_opening unchained_opening
  refine ⟨⟨pricesDiffer_opening, unchained_opening⟩, ?_, ?_⟩
  · rw [hh.2.1]
    decide
  · rw [hh.1]
    decide

end Window

end MarketDepth
