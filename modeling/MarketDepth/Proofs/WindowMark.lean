import MarketDepth.Window
import MarketDepth.Proofs.LadderOrder

/-! The mark of a window stays at the last of the best levels. A ladder is cut at that level; a level
that comes or goes before the cut, at it or beyond it moves the cut to a neighbour or not at all. -/

namespace MarketDepth

variable {side : Side} {S : Set Price} {scale : Scale side S}

/-- The first values up to a depth, all of them for a depth of zero. -/
def shown (depth : Nat) (values : List Level) : List Level :=
  if depth = 0 then values else values.take depth

theorem shown_nil (depth : Nat) : shown depth [] = [] := by
  simp [shown]

/-- Rungs cut at the last one in view. -/
structure Cut (depth : Nat) (rungs before : List (Price × Level)) (edge : Price × Level)
    (beyond : List (Price × Level)) : Prop where
  eq : rungs = before ++ edge :: beyond
  fits : before.length < depth
  full : beyond ≠ [] → before.length + 1 = depth

theorem exists_cut {depth : Nat} (hd : depth ≠ 0) (rungs : List (Price × Level)) :
    rungs = [] ∨ ∃ A edge B, Cut depth rungs A edge B := by
  induction rungs generalizing depth with
  | nil => exact .inl rfl
  | cons rung rest ih =>
    refine .inr ?_
    obtain ⟨d, rfl⟩ := Nat.exists_eq_succ_of_ne_zero hd
    by_cases hz : d = 0
    · exact ⟨[], rung, rest, rfl, by simp, by simp [hz]⟩
    · rcases ih hz with rfl | ⟨A, edge, B, hr, hfits, hfull⟩
      · exact ⟨[], rung, [], rfl, by simp, by simp⟩
      · exact ⟨rung :: A, edge, B, by simp [hr], by simpa using hfits, by simpa using hfull⟩

namespace Cut

variable {depth : Nat} {rungs A B : List (Price × Level)} {edge : Price × Level}

theorem shown_eq (h : Cut depth rungs A edge B) :
    shown depth (rungs.map (·.2)) = (A ++ [edge]).map (·.2) := by
  have hfits := h.fits
  rw [shown, if_neg (by omega), ← List.map_take, h.eq]
  congr 1
  rcases eq_or_ne B [] with rfl | hB
  · exact List.take_of_length_le (by simp; omega)
  · have hlen : depth = (A ++ [edge]).length := by rw [← h.full hB]; simp
    rw [List.append_cons, hlen, List.take_left]

theorem length_eq (h : Cut depth rungs A edge B) : rungs.length = A.length + B.length + 1 := by
  simp only [h.eq, List.length_append, List.length_cons]
  omega

theorem depth_lt_iff (h : Cut depth rungs A edge B) : depth < rungs.length ↔ B ≠ [] := by
  have hlen := h.length_eq
  have hfits := h.fits
  constructor
  · rintro hlt rfl
    rw [List.length_nil] at hlen
    omega
  · intro hB
    have hfull := h.full hB
    have hpos := List.length_pos_iff.mpr hB
    omega

theorem filled (h : Cut depth rungs A edge B) (hle : depth ≤ rungs.length) :
    A.length + 1 = depth := by
  have hlen := h.length_eq
  have hfits := h.fits
  by_cases hB : B = []
  · rw [hB, List.length_nil] at hlen
    omega
  · exact h.full hB

end Cut

theorem append_cons_cases {α : Type} {A A' B B' : List α} {x x' : α}
    (h : A ++ x :: B = A' ++ x' :: B') :
    (A = A' ∧ x = x' ∧ B = B') ∨ (∃ C, A' = A ++ x :: C ∧ B = C ++ x' :: B') ∨
      ∃ C, A = A' ++ x' :: C ∧ B' = C ++ x :: B := by
  rcases List.append_eq_append_iff.mp h with ⟨C, hA, hB⟩ | ⟨C, hA, hB⟩
  · rcases List.cons_eq_append_iff.mp hB with ⟨rfl, hx⟩ | ⟨C, rfl, hC⟩
    · obtain ⟨rfl, rfl⟩ := List.cons.inj hx
      exact .inl ⟨by simpa using hA.symm, rfl, rfl⟩
    · exact .inr (.inl ⟨C, hA, hC⟩)
  · rcases List.cons_eq_append_iff.mp hB with ⟨rfl, hx⟩ | ⟨C, rfl, hC⟩
    · obtain ⟨rfl, rfl⟩ := List.cons.inj hx
      exact .inl ⟨by simpa using hA, rfl, rfl⟩
    · exact .inr (.inr ⟨C, hA, hC⟩)

namespace Window

def marked (depth : Nat) (levels : Ladder side Level) : Window side :=
  { depth, levels, last := boundary { depth, levels } }

variable {depth : Nat} {ladder ladder' : Ladder side Level} {A B C : List (Price × Level)}
  {edge rung : Price × Level} {price : Price} {level : Level} {changes : SideChanges side}

theorem marked_zero : marked 0 ladder = ⟨0, ladder, none⟩ := rfl

theorem marked_empty (h : ladder.rungs = []) : marked depth ladder = ⟨depth, ladder, none⟩ := by
  simp [marked, boundary, Ladder.prices, h]

theorem empty_eq_marked (depth : Nat) :
    (Window.empty depth : Window side) = marked depth .empty :=
  (marked_empty rfl).symm

theorem marked_cut (h : Cut depth ladder.rungs A edge B) :
    marked depth ladder = ⟨depth, ladder, some edge.1⟩ := by
  have hfits := h.fits
  have hlast : min ladder.rungs.length depth - 1 = A.length := by
    have hlen : ladder.rungs.length = A.length + (B.length + 1) := by simp [h.eq]
    by_cases hB : B = []
    · simp only [hB, List.length_nil] at hlen
      omega
    · have hfull := h.full hB
      omega
  rw [marked, boundary, if_neg (show depth ≠ 0 by omega)]
  simp only [Window.size, Ladder.size, hlast]
  simp [Ladder.prices, h.eq]

theorem visible_marked (h : ladder.Ordered scale) :
    (marked depth ladder).visible = shown depth ladder.values := by
  by_cases hd : depth = 0
  · simp [visible, marked, shown, hd]
  rcases exists_cut hd ladder.rungs with hr | ⟨A, edge, B, hc⟩
  · rw [marked_empty hr]
    simp [visible, shown, Ladder.values, hr, hd]
  · have hedge := h.rung_mem hc.eq
    have hu := (h.around hc.eq).1.upTo_eq hedge (by simpa using hc.eq)
    rw [marked_cut hc, Ladder.values, hc.shown_eq]
    simp only [visible, if_neg hd, hu]

inductive Removal (changes : SideChanges side) :
    Option Level → List Level → List Level → SideChanges side → Prop where
  | hidden (found : Option Level) (V : List Level) : Removal changes found V V changes
  | left (A : List Level) (l : Level) (B : List Level) :
      Removal changes (some l) (A ++ l :: B) (A ++ B) (changes.remove l)
  | replaced (A : List Level) (l : Level) (B : List Level) (next : Level) :
      Removal changes (some l) (A ++ l :: B) (A ++ B ++ [next]) ((changes.remove l).add next)

inductive Addition (changes : SideChanges side) (l : Level) :
    List Level → List Level → SideChanges side → Prop where
  | hidden (V : List Level) : Addition changes l V V changes
  | entered (A B : List Level) : Addition changes l (A ++ B) (A ++ l :: B) (changes.add l)
  | displaced (A B : List Level) (last : Level) :
      Addition changes l (A ++ B ++ [last]) (A ++ l :: B) ((changes.add l).remove last)

inductive Refresh (changes : SideChanges side) (l old : Level) :
    List Level → List Level → SideChanges side → Prop where
  | hidden (V : List Level) (h : old ∉ V) : Refresh changes l old V V changes
  | refreshed (A B : List Level) :
      Refresh changes l old (A ++ old :: B) (A ++ l :: B) (changes.update l)

/-- What an operation on a window comes to: the ladder after it, the mark where it belongs, and a
step of the view. -/
structure Leads (Step : List Level → List Level → SideChanges side → Prop) (depth : Nat)
    (ladder ladder' : Ladder side Level) (result : Window side × SideChanges side) : Prop where
  window : result.1 = marked depth ladder'
  view : Step (shown depth ladder.values) (shown depth ladder'.values) result.2

theorem Leads.of_cut {Step : List Level → List Level → SideChanges side → Prop}
    {A' B' : List (Price × Level)} {edge' : Price × Level}
    {result : Window side × SideChanges side} (changes' : SideChanges side)
    (hc : Cut depth ladder.rungs A edge B)
    (hc' : Cut depth ladder'.rungs A' edge' B')
    (hresult : result = (⟨depth, ladder', some edge'.1⟩, changes'))
    (hview : Step ((A ++ [edge]).map (·.2)) ((A' ++ [edge']).map (·.2)) changes') :
    Leads Step depth ladder ladder' result := by
  subst hresult
  refine ⟨(marked_cut hc').symm, ?_⟩
  rw [Ladder.values, Ladder.values, hc.shown_eq, hc'.shown_eq]
  exact hview

theorem Ladder.erase_absent (h : Around scale price A [] B) (hp : price ∈ S)
    (hr : ladder.rungs = A ++ B) : ladder.erase price = ladder := by
  obtain ⟨rungs⟩ := ladder
  have he : (Ladder.erase ⟨rungs⟩ price).rungs = A ++ B := h.erase_eq hp (by simpa using hr)
  exact congrArg Ladder.mk (he.trans hr.symm)

section

variable (hL : ladder.Ordered scale) (hp : level.price ∈ S)

include hL hp

omit hL in
theorem remove_beyond (hc : Cut depth ladder.rungs A edge (B ++ rung :: C))
    (ha : Around scale level.price (A ++ edge :: B) [rung] C) :
    Leads (Removal changes (ladder.get? level.price)) depth ladder (ladder.erase level.price)
      ((marked depth ladder).remove changes level) := by
  have hfits := hc.fits
  have hd : depth ≠ 0 := by omega
  have hr : ladder.rungs = A ++ edge :: B ++ [rung] ++ C := by simp [hc.eq]
  have hget : ladder.get? level.price = some rung.2 := ha.get?_eq hp hr
  have hedge := ha.before edge (by simp)
  have hgt : side.rank level.price edge.1 = .gt := (scale.rank_gt hp hedge.1).mpr hedge.2
  have hover : depth < ladder.size := hc.depth_lt_iff.mpr (by simp)
  have hcut : Cut depth (ladder.erase level.price).rungs A edge (B ++ C) :=
    ⟨by simp [ha.erase_eq hp hr], hfits, fun _ => hc.full (by simp)⟩
  refine .of_cut changes hc hcut ?_ (.hidden _ _)
  rw [marked_cut hc]
  simp [remove, Window.get?, Window.size, hget, hd, hover, hgt]

theorem remove_before (hc : Cut depth ladder.rungs (A ++ rung :: C) edge B)
    (ha : Around scale level.price A [rung] (C ++ edge :: B)) :
    Leads (Removal changes (ladder.get? level.price)) depth ladder (ladder.erase level.price)
      ((marked depth ladder).remove changes level) := by
  have hfits := hc.fits
  have hd : depth ≠ 0 := by omega
  have hr : ladder.rungs = A ++ [rung] ++ (C ++ edge :: B) := by simp [hc.eq]
  have hget : ladder.get? level.price = some rung.2 := ha.get?_eq hp hr
  have herase : (ladder.erase level.price).rungs = A ++ C ++ edge :: B := by
    simp [ha.erase_eq hp hr]
  have hedge := ha.beyond edge (by simp)
  have hgt : side.rank level.price edge.1 ≠ .gt := fun h =>
    hedge.2.not_gt ((scale.rank_gt hp hedge.1).mp h)
  have hsame : side.same level.price edge.1 = false :=
    Bool.eq_false_iff.mpr fun h => hedge.2.ne ((scale.same_iff hp hedge.1).mp h)
  rw [List.length_append, List.length_cons] at hfits
  cases B with
  | nil =>
    have hover : ¬ depth < ladder.size := fun hlt => hc.depth_lt_iff.mp hlt rfl
    have hcut : Cut depth (ladder.erase level.price).rungs (A ++ C) edge [] :=
      ⟨herase, by rw [List.length_append]; omega, by simp⟩
    refine .of_cut (changes.remove rung.2) hc hcut ?_ ?_
    · rw [marked_cut hc]
      simp [remove, Window.get?, Window.size, hget, hd, hover, hsame]
    · simpa [hget] using Removal.left (A.map (·.2)) rung.2 ((C ++ [edge]).map (·.2))
  | cons next D =>
    have hfull := hc.full (by simp)
    rw [List.length_append, List.length_cons] at hfull
    have hover : depth < ladder.size := hc.depth_lt_iff.mpr (by simp)
    have hcut : Cut depth (ladder.erase level.price).rungs (A ++ C ++ [edge]) next D :=
      ⟨by simp [herase], by simp; omega, fun _ => by simp; omega⟩
    have hnext : (ladder.erase level.price).firstBeyond? edge.1 = some next :=
      ((hL.erase level.price).around herase).1.firstBeyond?_eq hedge.1 (by simp [herase])
    refine .of_cut ((changes.remove rung.2).add next.2) hc hcut ?_ ?_
    · rw [marked_cut hc]
      simp [remove, Window.get?, Window.size, hget, hd, hover, hgt, hnext]
    · simpa [hget] using Removal.replaced (A.map (·.2)) rung.2 ((C ++ [edge]).map (·.2)) next.2

theorem remove_edge (hc : Cut depth ladder.rungs A edge B)
    (ha : Around scale level.price A [edge] B) :
    Leads (Removal changes (ladder.get? level.price)) depth ladder (ladder.erase level.price)
      ((marked depth ladder).remove changes level) := by
  have hfits := hc.fits
  have hd : depth ≠ 0 := by omega
  have hr : ladder.rungs = A ++ [edge] ++ B := by simp [hc.eq]
  have hget : ladder.get? level.price = some edge.2 := ha.get?_eq hp hr
  have herase : (ladder.erase level.price).rungs = A ++ B := ha.erase_eq hp hr
  obtain ⟨hs, hplace⟩ := ha.here edge List.mem_cons_self
  have hgt : side.rank level.price edge.1 ≠ .gt := fun h =>
    hplace.not_lt ((scale.rank_gt hp hs).mp h)
  have hsame : side.same level.price edge.1 = true := (scale.same_iff hp hs).mpr hplace.symm
  have haround := (hL.around hc.eq).2
  cases B with
  | nil =>
    have hover : ¬ depth < ladder.size := fun hlt => hc.depth_lt_iff.mp hlt rfl
    have hlast := haround.lastBefore?_eq hs (by simpa using herase)
    rcases List.eq_nil_or_concat A with rfl | ⟨C, new, rfl⟩
    · have hrem : (marked depth ladder).remove changes level =
          (marked depth (ladder.erase level.price), changes.remove edge.2) := by
        rw [marked_cut hc, marked_empty herase]
        simp [remove, Window.get?, Window.size, hget, hd, hover, hsame, hlast]
      rw [hrem]
      refine ⟨rfl, ?_⟩
      have hV : shown depth (ladder.erase level.price).values = [] := by
        simp [shown, Ladder.values, herase]
      rw [hV, Ladder.values, hc.shown_eq, hget]
      exact .left [] edge.2 []
    · rw [List.concat_eq_append] at *
      have hcut : Cut depth (ladder.erase level.price).rungs C new [] :=
        ⟨by simpa using herase, by simp at hfits; omega, by simp⟩
      refine .of_cut (changes.remove edge.2) hc hcut ?_ ?_
      · rw [marked_cut hc]
        simp [remove, Window.get?, Window.size, hget, hd, hover, hsame, hlast]
      · simpa [hget] using Removal.left ((C ++ [new]).map (·.2)) edge.2 []
  | cons next D =>
    have hfull := hc.full (by simp)
    have hover : depth < ladder.size := hc.depth_lt_iff.mpr (by simp)
    have hcut : Cut depth (ladder.erase level.price).rungs A next D :=
      ⟨herase, hfits, fun _ => hfull⟩
    have hnext : (ladder.erase level.price).firstBeyond? edge.1 = some next :=
      haround.firstBeyond?_eq hs (by simpa using herase)
    refine .of_cut ((changes.remove edge.2).add next.2) hc hcut ?_ ?_
    · rw [marked_cut hc]
      simp [remove, Window.get?, Window.size, hget, hd, hover, hgt, hnext]
    · simpa [hget] using Removal.replaced (A.map (·.2)) edge.2 [] next.2

theorem remove_marked (depth : Nat) (changes : SideChanges side) :
    Leads (Removal changes (ladder.get? level.price)) depth ladder (ladder.erase level.price)
      ((marked depth ladder).remove changes level) := by
  rcases hL.cases level.price with ⟨A, B, hr, ha⟩ | ⟨A, rung, B, hr, ha⟩
  · have hget : ladder.get? level.price = none := ha.get?_eq hp (by simpa using hr)
    have hrem : (marked depth ladder).remove changes level = (marked depth ladder, changes) := by
      simp [remove, Window.get?, marked, hget]
    rw [hrem, Ladder.erase_absent ha hp hr]
    exact ⟨rfl, .hidden _ _⟩
  rcases eq_or_ne depth 0 with rfl | hd
  · have hget : ladder.get? level.price = some rung.2 := ha.get?_eq hp (by simpa using hr)
    have herase : (ladder.erase level.price).rungs = A ++ B := ha.erase_eq hp (by simpa using hr)
    have hrem : (marked 0 ladder).remove changes level =
        (marked 0 (ladder.erase level.price), changes.remove rung.2) := by
      simp [remove, Window.get?, marked_zero, hget]
    rw [hrem]
    refine ⟨rfl, ?_⟩
    simpa [shown, Ladder.values, hr, herase, hget] using
      Removal.left (A.map (·.2)) rung.2 (B.map (·.2))
  rcases exists_cut hd ladder.rungs with hnil | ⟨A', edge, B', hc⟩
  · simp [hnil] at hr
  have heq := hc.eq
  rw [hr] at heq
  rcases append_cons_cases heq with ⟨rfl, rfl, rfl⟩ | ⟨C, rfl, rfl⟩ | ⟨C, rfl, rfl⟩
  · exact remove_edge hL hp hc ha
  · exact remove_before hL hp hc ha
  · exact remove_beyond hp hc ha

omit hL in
theorem add_beyond (hc : Cut depth ladder.rungs A edge (C ++ B))
    (ha : Around scale level.price (A ++ edge :: C) [] B) :
    Leads (Addition changes level) depth ladder (ladder.insert level.price level)
      ((marked depth ladder).add changes level) := by
  have hfits := hc.fits
  have hd : depth ≠ 0 := by omega
  have hinsert : (ladder.insert level.price level).rungs =
      A ++ edge :: (C ++ (level.price, level) :: B) := by
    simpa [Ladder.insert] using ha.upsert_new hp (by simpa using hc.eq) fun _ => level
  obtain ⟨hs, hplace⟩ := ha.before edge (by simp)
  have hlt : side.rank level.price edge.1 ≠ .lt := fun h =>
    hplace.not_gt ((scale.rank_lt hp hs).mp h)
  by_cases hfull : depth ≤ ladder.size
  · have hcut : Cut depth (ladder.insert level.price level).rungs A edge
        (C ++ (level.price, level) :: B) := ⟨hinsert, hfits, fun _ => hc.filled hfull⟩
    refine .of_cut changes hc hcut ?_ (.hidden _)
    rw [marked_cut hc]
    simp [add, Window.size, hd, hfull, hlt]
  · have hroom : A.length + (C ++ B).length + 1 < depth := hc.length_eq ▸ Nat.lt_of_not_le hfull
    have hnil : C ++ B = [] := by
      by_contra hne
      exact hfull (hc.depth_lt_iff.mpr hne).le
    obtain ⟨rfl, rfl⟩ := List.append_eq_nil_iff.mp hnil
    have hcut : Cut depth (ladder.insert level.price level).rungs (A ++ [edge])
        (level.price, level) [] := by
      refine ⟨by simpa using hinsert, ?_, by simp⟩
      simpa using hroom
    refine .of_cut (changes.add level) hc hcut ?_ ?_
    · rw [marked_cut hc]
      simp [add, Window.size, hd, hfull, hlt]
    · simpa using Addition.entered ((A ++ [edge]).map (·.2)) []

theorem add_before (hc : Cut depth ladder.rungs (A ++ C) edge B)
    (ha : Around scale level.price A [] (C ++ edge :: B)) :
    Leads (Addition changes level) depth ladder (ladder.insert level.price level)
      ((marked depth ladder).add changes level) := by
  have hfits := hc.fits
  have hd : depth ≠ 0 := by omega
  have hinsert : (ladder.insert level.price level).rungs =
      A ++ (level.price, level) :: C ++ edge :: B := by
    simpa [Ladder.insert] using ha.upsert_new hp (by simpa using hc.eq) fun _ => level
  obtain ⟨hs, hplace⟩ := ha.beyond edge (by simp)
  have hlt : side.rank level.price edge.1 = .lt := (scale.rank_lt hp hs).mpr hplace
  by_cases hfull : depth ≤ ladder.size
  · have hedge := hc.filled hfull
    rw [List.length_append] at hedge
    have hordered : (ladder.insert level.price level).Ordered scale := hL.upsert hp _
    have haround := (hordered.around hinsert).1
    have hget : (ladder.insert level.price level).get? edge.1 = some edge.2 :=
      haround.get?_eq hs (by simpa using hinsert)
    obtain ⟨D, new, hD⟩ : ∃ D new, A ++ (level.price, level) :: C = D ++ [new] := by
      rcases List.eq_nil_or_concat (A ++ (level.price, level) :: C) with hnil | ⟨D, new, h⟩
      · simp at hnil
      · exact ⟨D, new, h.trans List.concat_eq_append⟩
    have hlen : D.length + 1 = A.length + C.length + 1 := by
      have := congrArg List.length hD
      simp only [List.length_append, List.length_cons, List.length_nil] at this
      omega
    have hcut : Cut depth (ladder.insert level.price level).rungs D new (edge :: B) :=
      ⟨by rw [hinsert, hD]; simp, by omega, fun _ => by omega⟩
    have hlast : (ladder.insert level.price level).lastBefore? edge.1 = some new.1 := by
      simpa [hD] using haround.lastBefore?_eq hs (by simpa using hinsert)
    refine .of_cut ((changes.add level).remove edge.2) hc hcut ?_ ?_
    · rw [marked_cut hc]
      simp [add, Window.size, hd, hfull, hlt, hget, hlast]
    · rw [← hD]
      simpa using Addition.displaced (A.map (·.2)) (C.map (·.2)) edge.2
  · have hroom : (A ++ C).length + B.length + 1 < depth :=
      hc.length_eq ▸ Nat.lt_of_not_le hfull
    have hnil : B = [] := by
      by_contra hne
      exact hfull (hc.depth_lt_iff.mpr hne).le
    subst hnil
    have hcut : Cut depth (ladder.insert level.price level).rungs
        (A ++ (level.price, level) :: C) edge [] := by
      refine ⟨hinsert, ?_, by simp⟩
      simpa [Nat.add_assoc] using hroom
    refine .of_cut (changes.add level) hc hcut ?_ ?_
    · rw [marked_cut hc]
      simp [add, Window.size, hd, hfull, hlt]
    · simpa using Addition.entered (A.map (·.2)) ((C ++ [edge]).map (·.2))

theorem add_marked (hnew : ladder.get? level.price = none) (depth : Nat)
    (changes : SideChanges side) :
    Leads (Addition changes level) depth ladder (ladder.insert level.price level)
      ((marked depth ladder).add changes level) := by
  rcases hL.cases level.price with ⟨A, B, hr, ha⟩ | ⟨A, rung, B, hr, ha⟩
  · have hinsert : (ladder.insert level.price level).rungs = A ++ (level.price, level) :: B :=
      ha.upsert_new hp hr fun _ => level
    rcases eq_or_ne depth 0 with rfl | hd
    · have hadd : (marked 0 ladder).add changes level =
          (marked 0 (ladder.insert level.price level), changes.add level) := by
        simp [add, marked_zero]
      rw [hadd]
      refine ⟨rfl, ?_⟩
      simpa [shown, Ladder.values, hr, hinsert] using
        Addition.entered (A.map (·.2)) (B.map (·.2))
    rcases exists_cut hd ladder.rungs with hnil | ⟨A', edge, B', hc⟩
    · obtain ⟨rfl, rfl⟩ := List.append_eq_nil_iff.mp (hr.symm.trans hnil)
      have hcut : Cut depth (ladder.insert level.price level).rungs [] (level.price, level) [] :=
        ⟨hinsert, Nat.pos_of_ne_zero hd, by simp⟩
      have hadd : (marked depth ladder).add changes level =
          (marked depth (ladder.insert level.price level), changes.add level) := by
        rw [marked_empty hnil, marked_cut hcut]
        simp [add, hd]
      rw [hadd]
      refine ⟨rfl, ?_⟩
      rw [Ladder.values, Ladder.values, hcut.shown_eq]
      simpa [shown, hnil] using Addition.entered [] []
    have heq := hc.eq
    rw [hr] at heq
    rcases List.append_eq_append_iff.mp heq with ⟨C, rfl, rfl⟩ | ⟨C, rfl, hB⟩
    · exact add_before hL hp hc ha
    · rcases List.cons_eq_append_iff.mp hB with ⟨rfl, rfl⟩ | ⟨C, rfl, rfl⟩
      · exact add_before (C := []) hL hp (by simpa using hc) (by simpa using ha)
      · exact add_beyond hp hc ha
  · have hget : ladder.get? level.price = some rung.2 := ha.get?_eq hp (by simpa using hr)
    rw [hnew] at hget
    cases hget

end

section

variable {key : Price} {old : Level}

theorem contains_of_around (hp : level.price ∈ S) (hr : ladder.rungs = A ++ [(key, old)] ++ B)
    (ha : Around scale level.price A [(key, old)] B) : ladder.contains level.price = true := by
  have hget : ladder.get? level.price = some old := ha.get?_eq hp hr
  rw [Ladder.contains, hget]
  rfl

theorem update_edge (hp : level.price ∈ S) (hc : Cut depth ladder.rungs A (key, old) B)
    (ha : Around scale level.price A [(key, old)] B) :
    Leads (Refresh changes level old) depth ladder (ladder.insert level.price level)
      ((marked depth ladder).update changes level) := by
  have hfits := hc.fits
  have hd : depth ≠ 0 := by omega
  have hcontains := contains_of_around hp (by simpa using hc.eq) ha
  have hinsert : (ladder.insert level.price level).rungs = A ++ (key, level) :: B :=
    ha.upsert_known hp hc.eq fun _ => level
  obtain ⟨hs, hplace⟩ := ha.here (key, old) List.mem_cons_self
  have hgt : side.rank level.price key ≠ .gt := fun h =>
    hplace.not_lt ((scale.rank_gt hp hs).mp h)
  have hcut : Cut depth (ladder.insert level.price level).rungs A (key, level) B :=
    ⟨hinsert, hfits, hc.full⟩
  refine .of_cut (changes.update level) hc hcut ?_ ?_
  · rw [marked_cut hc]
    simp [update, hd, hcontains, hgt]
  · simpa using Refresh.refreshed (A.map (·.2)) []

theorem update_before (hp : level.price ∈ S)
    (hc : Cut depth ladder.rungs (A ++ (key, old) :: C) edge B)
    (ha : Around scale level.price A [(key, old)] (C ++ edge :: B)) :
    Leads (Refresh changes level old) depth ladder (ladder.insert level.price level)
      ((marked depth ladder).update changes level) := by
  have hfits := hc.fits
  have hd : depth ≠ 0 := by omega
  have hcontains := contains_of_around hp (by simpa using hc.eq) ha
  have hinsert : (ladder.insert level.price level).rungs =
      A ++ (key, level) :: (C ++ edge :: B) :=
    ha.upsert_known hp (by simpa using hc.eq) fun _ => level
  obtain ⟨hs, hplace⟩ := ha.beyond edge (by simp)
  have hgt : side.rank level.price edge.1 ≠ .gt := fun h =>
    hplace.not_gt ((scale.rank_gt hp hs).mp h)
  have hcut : Cut depth (ladder.insert level.price level).rungs (A ++ (key, level) :: C) edge B :=
    ⟨by simpa using hinsert, by simpa using hfits, by simpa using hc.full⟩
  refine .of_cut (changes.update level) hc hcut ?_ ?_
  · rw [marked_cut hc]
    simp [update, hd, hcontains, hgt]
  · simpa using Refresh.refreshed (A.map (·.2)) ((C ++ [edge]).map (·.2))

theorem update_beyond (hL : ladder.Filed scale Level.price) (hp : level.price ∈ S)
    (hc : Cut depth ladder.rungs A edge (B ++ (key, old) :: C))
    (ha : Around scale level.price (A ++ edge :: B) [(key, old)] C) :
    Leads (Refresh changes level old) depth ladder (ladder.insert level.price level)
      ((marked depth ladder).update changes level) := by
  have hfits := hc.fits
  have hd : depth ≠ 0 := by omega
  have hcontains := contains_of_around hp (by simpa using hc.eq) ha
  have hinsert : (ladder.insert level.price level).rungs =
      A ++ edge :: B ++ (key, level) :: C :=
    ha.upsert_known hp (by simpa using hc.eq) fun _ => level
  obtain ⟨hs, hplace⟩ := ha.before edge (by simp)
  have hgt : side.rank level.price edge.1 = .gt := (scale.rank_gt hp hs).mpr hplace
  have hcut : Cut depth (ladder.insert level.price level).rungs A edge (B ++ (key, level) :: C) :=
    ⟨by simpa using hinsert, hfits, fun _ => hc.full (by simp)⟩
  have hvalues : ladder.values = (A ++ [edge]).map (·.2) ++ (B.map (·.2) ++ old :: C.map (·.2)) := by
    simp [Ladder.values, hc.eq]
  have hbest := hL.bestFirst
  rw [hvalues] at hbest
  have hapart := (List.pairwise_append.mp hbest).2.2
  refine .of_cut changes hc hcut ?_ (.hidden _ fun hin => ?_)
  · rw [marked_cut hc]
    simp [update, hd, hcontains, hgt]
  · exact (hapart old hin old (by simp)).false

end

theorem update_marked (hL : ladder.Filed scale Level.price) (hp : level.price ∈ S) {old : Level}
    (hold : ladder.get? level.price = some old) (depth : Nat) (changes : SideChanges side) :
    Leads (Refresh changes level old) depth ladder (ladder.insert level.price level)
      ((marked depth ladder).update changes level) := by
  rcases hL.cases level.price with ⟨A, B, hr, ha⟩ | ⟨A, ⟨key, found⟩, B, hr, ha⟩
  · have hget : ladder.get? level.price = none := ha.get?_eq hp (by simpa using hr)
    rw [hold] at hget
    cases hget
  obtain rfl : old = found :=
    Option.some.inj (hold.symm.trans (ha.get?_eq hp (by simpa using hr)))
  rcases eq_or_ne depth 0 with rfl | hd
  · have hinsert : (ladder.insert level.price level).rungs = A ++ (key, level) :: B :=
      ha.upsert_known hp hr fun _ => level
    have hupdate : (marked 0 ladder).update changes level =
        (marked 0 (ladder.insert level.price level), changes.update level) := by
      simp [update, marked_zero]
    rw [hupdate]
    refine ⟨rfl, ?_⟩
    simpa [shown, Ladder.values, hr, hinsert] using
      Refresh.refreshed (A.map (·.2)) (B.map (·.2))
  rcases exists_cut hd ladder.rungs with hnil | ⟨A', edge, B', hc⟩
  · simp [hnil] at hr
  have heq := hc.eq
  rw [hr] at heq
  rcases append_cons_cases heq with ⟨rfl, rfl, rfl⟩ | ⟨C, rfl, rfl⟩ | ⟨C, rfl, rfl⟩
  · exact update_edge hp hc ha
  · exact update_before hp hc ha
  · exact update_beyond hL hp hc ha

end Window

end MarketDepth
