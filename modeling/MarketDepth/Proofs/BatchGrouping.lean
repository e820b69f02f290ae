import MarketDepth.Proofs.BookTotals

/-! Cutting one stream of reports into batches. A cut brings the sums so far to the levels, and a level
keeps no sum below zero, so two cuttings lead to one book if neither cuts where a sum is below zero. -/

namespace MarketDepth

variable {S : Set Price} {scale : ∀ side, Scale side S}

/-- Batches none of which is a fresh one. -/
def incremental (batches : List (List Report)) : List (List Report × Bool) :=
  batches.map fun reports => (reports, false)

theorem sinceFresh_incremental (batches : List (List Report)) :
    sinceFresh (incremental batches) = batches.flatten := by
  induction batches using List.reverseRecOn with
  | nil => rfl
  | append_singleton batches reports ih =>
    rw [incremental, List.map_append, List.map_singleton, sinceFresh_concat, ← incremental, ih]
    simp

/-- Whole sizes of either sign, where no sum at a price reaches two to the power of 53: neither what a
batch has moved it by at some moment, also while an order is taken out, nor what it has come to. -/
structure Summable (S : Set Price) (batches : List (List Report)) : Prop where
  sizes : ∀ reports ∈ batches, ∀ report ∈ reports, report.isRemoval = false →
    ∃ n : Int, Whole n report.size
  opened : ∀ history first more rest, batches = history ++ (first ++ more) :: rest →
    ∀ index side, ∀ price ∈ S, (totalAt side price (without index (live (history.flatten ++ first))) -
      totalAt side price (live history.flatten)).natAbs < 2 ^ 53
  passed : ∀ history first more rest, batches = history ++ (first ++ more) :: rest →
    ∀ side, ∀ price ∈ S, (totalAt side price (live (history.flatten ++ first)) -
      totalAt side price (live history.flatten)).natAbs < 2 ^ 53
  held : ∀ history reports rest, batches = history ++ reports :: rest →
    ∀ side, ∀ price ∈ S, (totalAt side price (live (history.flatten ++ reports))).natAbs < 2 ^ 53

/-- No batch begins while a sum is below zero. -/
def Solvent (S : Set Price) (batches : List (List Report)) : Prop :=
  ∀ history reports rest, batches = history ++ reports :: rest →
    ∀ side, ∀ price ∈ S, 0 ≤ totalAt side price (live history.flatten)

namespace Summable

variable {batches history rest : List (List Report)} {first more reports : List Report}

theorem whole (h : Summable S batches) (hsplit : batches = history ++ (first ++ more) :: rest) :
    ∀ order ∈ live (history.flatten ++ first), ∃ n : Int, Whole n order.size := by
  intro order hin
  obtain ⟨report, hr, hout, rfl⟩ := mem_live hin
  rcases List.mem_append.mp hr with hpast | hnow
  · obtain ⟨batch, hbatch, hrb⟩ := List.mem_flatten.mp hpast
    exact h.sizes batch (hsplit ▸ List.mem_append_left _ hbatch) report hrb hout
  · exact h.sizes _ (hsplit ▸ List.mem_append_right _ List.mem_cons_self) report
      (List.mem_append_left _ hnow) hout

theorem clear (h : Summable S batches) (hsolvent : Solvent S batches)
    (hsplit : batches = history ++ reports :: rest) : Clear S history.flatten reports := by
  have hmoment : ∀ {first more}, reports = first ++ more →
      batches = history ++ (first ++ more) :: rest := fun hmore => hmore ▸ hsplit
  have hstart : ∀ order ∈ live (history.flatten ++ []), ∃ n : Int, Whole n order.size :=
    h.whole hsplit
  rw [List.append_nil] at hstart
  refine ⟨fun side price hp => ?_, fun first more hmore order hin => ?_, ?_, ?_, ?_⟩
  · rw [volumeAt_eq_totalAt hstart]
    exact Int.mul_nonneg (hsolvent _ _ _ hsplit side price hp) (by rw [← unit_eq]; exact unit_pos.le)
  · obtain ⟨n, hw⟩ := h.whole (hmoment hmore) order hin
    exact hw.finite
  · intro first more hmore index
    have hwhole : ∀ order ∈ without index (live (history.flatten ++ first)),
        ∃ n : Int, Whole n order.size :=
      fun order hin => h.whole (hmoment hmore) order (List.mem_of_mem_filter hin)
    exact reckoned_of_whole hstart hwhole (h.opened _ _ _ _ (hmoment hmore) index)
  · intro first more hmore
    exact reckoned_of_whole hstart (h.whole (hmoment hmore)) (h.passed _ _ _ _ (hmoment hmore))
  · intro side price hp
    rw [volumeAt_eq_totalAt (h.whole (hmoment (List.append_nil _).symm))]
    exact sharp_mul_pow (h.held _ _ _ hsplit side price hp) (by decide) (by decide)

end Summable

namespace Book

variable {depth : Nat} {ladders ladders' : ∀ side, Ladder side Level} {book book' : Book}
  {orders : List Resting}

theorem Keeps.run_incremental {start : Book} {batches : List (List Report)}
    (h : start.Keeps scale depth ladders []) (hp : Reported S batches.flatten)
    (hsum : Summable S batches) (hsolvent : Solvent S batches) :
    ∃ ladders, (start.run (incremental batches)).Keeps scale depth ladders (live batches.flatten) := by
  rw [← sinceFresh_incremental]
  refine h.run_of_clear (fun batch hin report hr => ?_) fun history reports fresh rest hsplit => ?_
  · obtain ⟨reports, hreports, rfl⟩ := List.mem_map.mp hin
    exact hp report (List.mem_flatten.mpr ⟨reports, hreports, hr⟩)
  · obtain ⟨before, after, rfl, rfl, hafter⟩ := List.map_eq_append_iff.mp hsplit
    obtain ⟨batch, later, rfl, heq, -⟩ := List.map_eq_cons_iff.mp hafter
    obtain ⟨rfl, rfl⟩ := Prod.mk.inj heq
    rw [if_neg Bool.false_ne_true]
    have hseen : sinceFresh (before.map fun reports => (reports, false)) = before.flatten :=
      sinceFresh_incremental before
    rw [hseen]
    exact hsum.clear hsolvent rfl

theorem reported_incremental (batches : List (List Report)) :
    Reported (pricesOf (incremental batches)) batches.flatten := by
  intro report hr
  obtain ⟨reports, hreports, hin⟩ := List.mem_flatten.mp hr
  exact reported_pricesOf _ (reports, false) (List.mem_map.mpr ⟨reports, hreports, rfl⟩) report hin

/-- Where a level stands and what its size is. -/
def spot {side : Side} (scale : Scale side S) (level : Level) : Int × Float :=
  (scale.place level.price, level.size)

theorem Keeps.spot_mem (h : book.Keeps scale depth ladders orders)
    (h' : book'.Keeps scale depth ladders' orders) (side : Side) {level : Level}
    (hin : level ∈ (ladders side).values) :
    spot (scale side) level ∈ (ladders' side).values.map (spot (scale side)) := by
  have hfiled := h.shaped.filed side
  have hp : level.price ∈ S := hfiled.known_of_mem hin
  obtain ⟨hpos, hcount⟩ := (h.levels side).present level.price hp level
    ((hfiled.get?_eq_some hp).mpr ⟨hin, rfl⟩)
  cases hget : (ladders' side).get? level.price with
  | none => exact absurd hpos ((h'.levels side).absent level.price hp hget).not_gt
  | some other =>
    -- Both sizes count the volume of the same orders, and a count that is not zero is that of one size.
    obtain ⟨hmem, hplace⟩ := ((h'.shaped.filed side).get?_eq_some hp).mp hget
    obtain ⟨-, hcount'⟩ := (h'.levels side).present level.price hp other hget
    exact List.mem_map.mpr ⟨other, hmem, Prod.ext hplace (hcount'.eq hcount hpos.ne')⟩

theorem Keeps.map_spot_eq (h : book.Keeps scale depth ladders orders)
    (h' : book'.Keeps scale depth ladders' orders) (side : Side) :
    (ladders side).values.map (spot (scale side)) =
      (ladders' side).values.map (spot (scale side)) := by
  have hsorted : ((ladders side).values.map (spot (scale side))).Pairwise fun a b => a.1 < b.1 :=
    List.pairwise_map.mpr (h.shaped.filed side).bestFirst
  have hsorted' : ((ladders' side).values.map (spot (scale side))).Pairwise fun a b => a.1 < b.1 :=
    List.pairwise_map.mpr (h'.shaped.filed side).bestFirst
  refine eq_of_pairwise_lt hsorted hsorted' fun a => ⟨fun hin => ?_, fun hin => ?_⟩
  · obtain ⟨level, hl, rfl⟩ := List.mem_map.mp hin
    exact h.spot_mem h' side hl
  · obtain ⟨level, hl, rfl⟩ := List.mem_map.mp hin
    exact h'.spot_mem h side hl

end Book

/-- Levels at one price, perhaps in two forms of it, and of one size. -/
def Level.Agrees (side : Side) (level other : Level) : Prop :=
  side.same level.price other.price = true ∧ level.size = other.size

section

variable {side : Side} {levels others : List Level}

theorem agree_of_map_spot (scale : Scale side S)
    (h : levels.map (Book.spot scale) = others.map (Book.spot scale))
    (hl : ∀ level ∈ levels, level.price ∈ S) (ho : ∀ level ∈ others, level.price ∈ S) :
    List.Forall₂ (Level.Agrees side) levels others := by
  have hmaps : List.Forall₂ Eq (levels.map (Book.spot scale)) (others.map (Book.spot scale)) := by
    rw [h, List.forall₂_eq_eq_eq]
  rw [List.forall₂_map_left_iff, List.forall₂_map_right_iff, List.forall₂_iff_zip] at hmaps
  refine List.forall₂_iff_zip.mpr ⟨hmaps.1, fun {a b} hin => ?_⟩
  obtain ⟨ha, hb⟩ := List.of_mem_zip hin
  obtain ⟨hplace, hsize⟩ := Prod.mk.inj (hmaps.2 hin)
  exact ⟨(scale.same_iff (hl a ha) (ho b hb)).mpr hplace, hsize⟩

theorem map_eq_of_agree (h : List.Forall₂ (Level.Agrees side) levels others)
    (hl : ∀ level ∈ levels, level.price ∈ S) (ho : ∀ level ∈ others, level.price ∈ S)
    (hone : ∀ price ∈ S, ∀ other ∈ S, side.same price other = true → price = other) :
    levels.map (fun level => (level.price, level.size)) =
      others.map fun level => (level.price, level.size) := by
  rw [List.forall₂_iff_zip] at h
  rw [← List.forall₂_eq_eq_eq, List.forall₂_map_left_iff, List.forall₂_map_right_iff,
    List.forall₂_iff_zip]
  refine ⟨h.1, fun {a b} hin => ?_⟩
  obtain ⟨ha, hb⟩ := List.of_mem_zip hin
  obtain ⟨hprice, hsize⟩ := h.2 hin
  exact Prod.ext (hone _ (hl a ha) _ (ho b hb) hprice) hsize

end

namespace Book

/-- Two cuttings of one stream lead to as many orders, as many levels and the same levels in view, as
long as neither cuts where a sum is below zero. -/
theorem run_grouping (symbol : Symbol) (source : Source) (depth : Nat)
    (first second : List (List Report)) (hsame : first.flatten = second.flatten)
    (hS : Unchained S) (hp : Reported S first.flatten)
    (hfirst : Summable S first) (hsecond : Summable S second)
    (hsolvent : Solvent S first) (hsolvent' : Solvent S second) :
    let start := Book.empty symbol source depth
    let book := start.run (incremental first)
    let other := start.run (incremental second)
    book.orderCount = other.orderCount ∧
    ∀ side, (book.on side).size = (other.on side).size ∧
      List.Forall₂ (Level.Agrees side) (book.visible.on side) (other.visible.on side) ∧
      ((∀ price ∈ S, ∀ form ∈ S, side.same price form = true → price = form) →
        (book.visible.on side).map (fun level => (level.price, level.size)) =
          (other.visible.on side).map fun level => (level.price, level.size)) := by
  have scale : ∀ side, Scale side S := fun side => (hS.scale side).some
  have hstart : (Book.empty symbol source depth).Keeps scale depth (fun _ => .empty) [] :=
    keeps_empty symbol source depth
  obtain ⟨ladders, hbook⟩ := hstart.run_incremental hp hfirst hsolvent
  rw [hsame] at hp hbook
  obtain ⟨ladders', hother⟩ := hstart.run_incremental hp hsecond hsolvent'
  refine ⟨hbook.ledger.size.trans hother.ledger.size.symm, fun side => ?_⟩
  have hspots := hbook.map_spot_eq hother side
  have hknown : ∀ level ∈ shown depth (ladders side).values, level.price ∈ S := fun level hin =>
    (hbook.shaped.filed side).known_of_mem ((shown_sublist _ _).subset hin)
  have hknown' : ∀ level ∈ shown depth (ladders' side).values, level.price ∈ S := fun level hin =>
    (hother.shaped.filed side).known_of_mem ((shown_sublist _ _).subset hin)
  have hshown : (shown depth (ladders side).values).map (spot (scale side)) =
      (shown depth (ladders' side).values).map (spot (scale side)) := by
    unfold shown
    split_ifs
    · exact hspots
    · rw [List.map_take, List.map_take, hspots]
  have hagree := agree_of_map_spot (scale side) hshown hknown hknown'
  rw [hbook.shaped.visible_on, hother.shaped.visible_on, hbook.shaped.window, hother.shaped.window]
  refine ⟨?_, hagree, map_eq_of_agree hagree hknown hknown'⟩
  simpa [Window.size, Window.marked, Ladder.size, Ladder.values] using congrArg List.length hspots

end Book

theorem summable_of_few {batches : List (List Report)} (most : Nat)
    (hsizes : ∀ reports ∈ batches, ∀ report ∈ reports, report.isRemoval = false →
      ∃ n : Int, n.natAbs ≤ most ∧ Whole n report.size)
    (hfew : 2 * (batches.flatten.length * most) < 2 ^ 53) : Summable S batches := by
  have hwhole : WholeUpTo most batches.flatten := by
    intro report hr hout
    obtain ⟨reports, hreports, hin⟩ := List.mem_flatten.mp hr
    exact hsizes reports hreports report hin hout
  have hpast : ∀ {history reports rest}, batches = history ++ reports :: rest →
      batches.flatten = history.flatten ++ (reports ++ rest.flatten) := by
    rintro history reports rest rfl
    simp
  have hmoment : ∀ {history first more rest}, batches = history ++ (first ++ more) :: rest →
      batches.flatten = history.flatten ++ first ++ (more ++ rest.flatten) := by
    rintro history first more rest rfl
    simp
  refine ⟨fun reports hreports report hr hout => ?_, fun history first more rest hsplit index => ?_,
    fun history first more rest hsplit => ?_, fun history reports rest hsplit => ?_⟩
  · obtain ⟨n, -, hw⟩ := hsizes reports hreports report hr hout
    exact ⟨n, hw⟩
  · intro side price _
    have hout : (without index (live (history.flatten ++ first))).Sublist
        (live (history.flatten ++ first)) := List.filter_sublist
    have hlater := hwhole.natAbs_totalAt_le (hmoment hsplit) hout side price
    have hearlier := hwhole.natAbs_totalAt_le (hpast hsplit) (List.Sublist.refl _) side price
    omega
  · intro side price _
    have hlater := hwhole.natAbs_totalAt_le (hmoment hsplit) (List.Sublist.refl _) side price
    have hearlier := hwhole.natAbs_totalAt_le (hpast hsplit) (List.Sublist.refl _) side price
    omega
  · intro side price _
    have hlater := hwhole.natAbs_totalAt_le ((hpast hsplit).trans (List.append_assoc ..).symm)
      (List.Sublist.refl _) side price
    omega

namespace Book

/-- An ask of eight at one. -/
def gain : Report := ⟨1, .sell, Price.one.value, Float.ofBits 0x4020000000000000, 0, {}⟩

/-- An ask of minus five at one. -/
def loss : Report := ⟨2, .sell, Price.one.value, Float.ofBits 0xC014000000000000, 0, {}⟩

theorem summable_of_gain_loss {batches : List (List Report)}
    (h : ∀ reports ∈ batches, ∀ report ∈ reports, report = gain ∨ report = loss)
    (hfew : batches.flatten.length ≤ 2) : Summable S batches := by
  have hgain : Whole 8 gain.size := ⟨by decide, by decide +kernel⟩
  have hloss : Whole (-5) loss.size := ⟨by decide, by decide +kernel⟩
  refine summable_of_few 8 (fun reports hreports report hr _ => ?_) (by omega)
  rcases h reports hreports report hr with rfl | rfl
  · exact ⟨8, by decide, hgain⟩
  · exact ⟨-5, by decide, hloss⟩

theorem solvent_singleton (reports : List Report) : Solvent S [reports] := by
  intro history first rest hsplit side price _
  rcases history with _ | ⟨batch, history⟩
  · exact le_rfl
  · simp at hsplit

theorem solvent_gain_loss : Solvent S [[gain], [loss]] := by
  intro history reports rest hsplit side price _
  rcases history with _ | ⟨batch, _ | ⟨batch', history⟩⟩
  · exact le_rfl
  · obtain rfl := (List.cons.inj hsplit).1
    have hlive : live [[gain]].flatten = [gain.resting] := rfl
    rw [hlive]
    exact sumAt_nonneg fun order hin => by
      obtain rfl := List.mem_singleton.mp hin
      decide +kernel
  · simp at hsplit

theorem run_grouping_gain_loss :
    let S := pricesOf (incremental [[gain], [loss]])
    let start := Book.empty ⟨"X"⟩ ⟨"Y"⟩ 1
    [[gain], [loss]].flatten = [[gain, loss]].flatten ∧ Unchained S ∧
    Reported S [[gain], [loss]].flatten ∧ Summable S [[gain], [loss]] ∧ Summable S [[gain, loss]] ∧
    Solvent S [[gain], [loss]] ∧ Solvent S [[gain, loss]] ∧
    (start.run (incremental [[gain], [loss]])).visible.asks.length = 1 ∧
    List.Forall₂ (Level.Agrees .ask) ((start.run (incremental [[gain], [loss]])).visible.on .ask)
      ((start.run (incremental [[gain, loss]])).visible.on .ask) := by
  intro S start
  have hS : Unchained S := unchained_pricesOf (by decide)
  have hp : Reported S [[gain], [loss]].flatten := reported_incremental _
  have hfirst : Summable S [[gain], [loss]] := summable_of_gain_loss (by simp) (by decide)
  have hsecond : Summable S [[gain, loss]] := summable_of_gain_loss (by simp) (by decide)
  have hsolvent : Solvent S [[gain], [loss]] := solvent_gain_loss
  have hsolvent' : Solvent S [[gain, loss]] := solvent_singleton _
  obtain ⟨-, hsides⟩ := run_grouping ⟨"X"⟩ ⟨"Y"⟩ 1 [[gain], [loss]] [[gain, loss]] rfl hS hp hfirst
    hsecond hsolvent hsolvent'
  exact ⟨rfl, hS, hp, hfirst, hsecond, hsolvent, hsolvent', by decide +kernel, (hsides .ask).2.1⟩

/-- Alone the loss is dropped, and the gain after it is shown in full; together they are netted. -/
theorem run_grouping_loss_gain :
    let S := pricesOf (incremental [[loss], [gain]])
    let start := Book.empty ⟨"X"⟩ ⟨"Y"⟩ 1
    [[loss], [gain]].flatten = [[loss, gain]].flatten ∧ Unchained S ∧
    Reported S [[loss], [gain]].flatten ∧ Summable S [[loss], [gain]] ∧ Summable S [[loss, gain]] ∧
    ¬ List.Forall₂ (Level.Agrees .ask) ((start.run (incremental [[loss], [gain]])).visible.on .ask)
      ((start.run (incremental [[loss, gain]])).visible.on .ask) := by
  intro S start
  refine ⟨rfl, unchained_pricesOf (by decide), reported_incremental _,
    summable_of_gain_loss (by simp) (by decide), summable_of_gain_loss (by simp) (by decide),
    fun h => ?_⟩
  have hsizes : ((start.run (incremental [[loss], [gain]])).visible.on .ask).map Level.size =
      ((start.run (incremental [[loss, gain]])).visible.on .ask).map Level.size := by
    rw [← List.forall₂_eq_eq_eq, List.forall₂_map_left_iff, List.forall₂_map_right_iff]
    exact h.imp fun _ _ hab => hab.2
  have hbits := congrArg (List.map Float.toBits) hsizes
  revert hbits
  decide +kernel

end Book

end MarketDepth
