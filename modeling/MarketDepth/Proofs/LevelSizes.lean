import MarketDepth.Proofs.BookTotals

/-! The sizes that levels can have. A level is stored only if its size is neither negligible nor below
zero, and that leaves a size that is not a number. It takes an infinite size to make one: as long as
sizes are moderate and few, no sum of them runs over. -/

namespace MarketDepth

open Float.Model Float.Model.UnpackedFloat

/-- A finite size of at most so many times two to the power of `i` of the steps. -/
structure Spans (i n : Nat) (size : Float) : Prop where
  finite : size.isFinite = true
  bounded : (steps size).natAbs ≤ n * 2 ^ i

namespace Spans

variable {i n m : Nat} {x y : Float}

theorem mono (h : Spans i n x) (hle : n ≤ m) : Spans i m x :=
  ⟨h.finite, h.bounded.trans (Nat.mul_le_mul_right _ hle)⟩

theorem neg (h : Spans i n x) : Spans i n (-x) :=
  ⟨by rw [isFinite_float_neg, h.finite], by rw [steps_neg, Int.natAbs_neg]; exact h.bounded⟩

theorem add (hx : Spans i n x) (hy : Spans i m y) (hi : i ≤ 2045) (hfew : n + m < 2 ^ 53) :
    Spans i (n + m) (x + y) := by
  have hexact : (steps x + steps y).natAbs ≤ (n + m) * 2 ^ i := by
    rw [Nat.add_mul]
    exact (Int.natAbs_add_le _ _).trans (Nat.add_le_add hx.bounded hy.bounded)
  have hround : (roundSteps (steps x + steps y)).natAbs ≤ (n + m) * 2 ^ i := by
    rw [natAbs_roundSteps, ← roundBits_mul hfew i]
    exact roundBits_mono hexact
  -- The bound is a number of few bits, so rounding does not carry a smaller one past it.
  have hmost := fits_mul_pow (n := (n + m : Nat)) hfew hi
  rw [Int.natAbs_mul, Int.natAbs_natCast, Int.natAbs_pow] at hmost
  obtain ⟨hf, hs⟩ := (float_nearest_add hx.finite hy.finite).finite (hmost.mono hround)
  refine ⟨hf, ?_⟩
  change (unpackedSteps (x + y).toModel.unpack).natAbs ≤ _
  rwa [hs]

end Spans

namespace Ladder

variable {side : Side} {α : Type} {P Q : α → Prop} {ladder : Ladder side α}

def All (P : α → Prop) (ladder : Ladder side α) : Prop := ∀ a ∈ ladder.values, P a

theorem all_empty : (Ladder.empty : Ladder side α).All P := by
  intro a ha
  cases ha

theorem All.mono (h : ladder.All P) (hPQ : ∀ a, P a → Q a) : ladder.All Q :=
  fun a ha => hPQ a (h a ha)

theorem All.get? (h : ladder.All P) {price : Price} {a : α} (hget : ladder.get? price = some a) :
    P a := by
  obtain ⟨rung, hfind, rfl⟩ := Option.map_eq_some_iff.mp hget
  exact h rung.2 (List.mem_map_of_mem (List.mem_of_find?_eq_some hfind))

theorem All.erase (h : ladder.All P) (price : Price) : (ladder.erase price).All P :=
  fun a ha => h a ((List.filter_sublist.map _).subset ha)

theorem All.upsert (h : ladder.All P) (hPQ : ∀ a, P a → Q a) {f : Option α → α} (hnew : Q (f none))
    (hold : ∀ a, P a → Q (f (some a))) (price : Price) : (ladder.upsert price f).All Q := by
  obtain ⟨rungs⟩ := ladder
  have hrungs : ∀ rung ∈ rungs, P rung.2 := fun rung hin => h rung.2 (List.mem_map_of_mem hin)
  suffices hall : ∀ rung ∈ upsertRungs side price f rungs, Q rung.2 by
    intro a ha
    obtain ⟨rung, hin, rfl⟩ := List.mem_map.mp ha
    exact hall rung hin
  clear h
  induction rungs with
  | nil => simpa [upsertRungs] using hnew
  | cons rung rest ih =>
    obtain ⟨hrung, hrest⟩ := List.forall_mem_cons.mp hrungs
    have hkept : ∀ rung ∈ rest, Q rung.2 := fun rung hin => hPQ _ (hrest rung hin)
    unfold upsertRungs
    split
    · exact List.forall_mem_cons.mpr ⟨hnew, List.forall_mem_cons.mpr ⟨hPQ _ hrung, hkept⟩⟩
    · exact List.forall_mem_cons.mpr ⟨hold _ hrung, hkept⟩
    · exact List.forall_mem_cons.mpr ⟨hPQ _ hrung, ih hrest⟩

theorem All.insert (h : ladder.All P) {a : α} (ha : P a) (price : Price) : (ladder.insert price a).All P :=
  h.upsert (fun _ => id) ha (fun _ _ => ha) price

end Ladder

namespace Window

variable {side : Side} {P : Level → Prop} {window : Window side} {level : Level}

theorem all_remove (h : window.levels.All P) (changes : SideChanges side) (level : Level) :
    (window.remove changes level).1.levels.All P := by
  have herase := h.erase level.price
  unfold remove
  dsimp only
  repeat' split
  all_goals first | exact h | exact herase

theorem all_add (h : window.levels.All P) (changes : SideChanges side) (hl : P level) :
    (window.add changes level).1.levels.All P := by
  have hinsert := h.insert hl level.price
  unfold add
  dsimp only
  repeat' split
  all_goals exact hinsert

theorem all_update (h : window.levels.All P) (changes : SideChanges side) (hl : P level) :
    (window.update changes level).1.levels.All P := by
  have hinsert := h.insert hl level.price
  unfold update
  repeat' split
  all_goals first | exact h | exact hinsert

theorem all_apply (h : window.levels.All P) {deltas : List Delta} (hleft : ∀ delta ∈ deltas,
    ∀ level, (judge window.levels delta).bind Move.left? = some level → P level) :
    (window.apply deltas).1.levels.All P := by
  have hmoves : ∀ move ∈ deltas.filterMap window.classify, ∀ level, move.left? = some level →
      P level := by
    intro move hin level hl
    obtain ⟨delta, hd, hjudge⟩ := List.mem_filterMap.mp hin
    exact hleft delta hd level (Option.bind_eq_some_iff.mpr ⟨move, hjudge, hl⟩)
  have hadded : ∀ level ∈ (deltas.filterMap window.classify).filterMap Move.added?, P level := by
    intro level hin
    obtain ⟨move, hm, hkind⟩ := List.mem_filterMap.mp hin
    cases move with
    | add l => exact hmoves _ hm level hkind
    | _ => cases hkind
  have hupdated : ∀ level ∈ (deltas.filterMap window.classify).filterMap Move.updated?, P level := by
    intro level hin
    obtain ⟨move, hm, hkind⟩ := List.mem_filterMap.mp hin
    cases move with
    | update l => exact hmoves _ hm level hkind
    | _ => cases hkind
  let kept : Window side × SideChanges side → Prop := fun state => state.1.levels.All P
  have hremoves := List.foldlRecOn (motive := kept)
    ((deltas.filterMap window.classify).filterMap Move.removed?) _ (b := (window, .empty)) h
    fun state hs level _ => all_remove hs state.2 level
  have hadds := List.foldlRecOn (motive := kept)
    ((deltas.filterMap window.classify).filterMap Move.added?) _ hremoves
    fun state hs level hin => all_add hs state.2 (hadded level hin)
  exact List.foldlRecOn (motive := kept)
    ((deltas.filterMap window.classify).filterMap Move.updated?) _ hadds
    fun state hs level hin => all_update hs state.2 (hupdated level hin)

theorem left_cases {ladder : Ladder side Level} {delta : Delta}
    (h : (judge ladder delta).bind Move.left? = some level) :
    (level.size = delta.size ∧ 0 < level.size) ∨
      ∃ old, ladder.get? delta.price = some old ∧ level.size = old.size + delta.size ∧
        negligible level.size = false ∧ ¬ level.size < 0 := by
  cases hg : ladder.get? delta.price with
  | none =>
    rw [judge_of_unknown hg] at h
    split_ifs at h with hpos
    · obtain rfl := Option.some.inj h
      exact .inl ⟨rfl, hpos⟩
    · cases h
  | some old =>
    rw [judge_of_known hg] at h
    split_ifs at h with hgone
    · cases h
    · obtain rfl := Option.some.inj h
      rw [Bool.or_eq_true, not_or, Bool.not_eq_true, decide_eq_true_iff] at hgone
      exact .inr ⟨old, rfl, rfl, hgone⟩

theorem isNaN_or_tolerance_le {size : Float} (hkeep : negligible size = false)
    (hpos : ¬ size < 0) : size.isNaN = true ∨ tolerance ≤ size := by
  refine isNaN_or_le_of_not_lt isFinite_tolerance fun hlt => ?_
  have hf := isFinite_of_lt_of_not_lt isFinite_tolerance Counts.zero.finite hlt hpos
  rw [lt_iff_steps hf isFinite_tolerance] at hlt
  rw [lt_iff_steps hf Counts.zero.finite, Counts.zero.steps] at hpos
  rw [(negligible_iff size).mpr ⟨hf, by omega⟩] at hkeep
  cases hkeep

theorem left_sized {ladder : Ladder side Level} {delta : Delta}
    (hkeep : negligible delta.size = false)
    (h : (judge ladder delta).bind Move.left? = some level) :
    level.size.isNaN = true ∨ tolerance ≤ level.size := by
  rcases left_cases h with ⟨hsize, hpos⟩ | ⟨old, -, -, hleft, hpos⟩
  · exact isNaN_or_tolerance_le (hsize ▸ hkeep) (not_lt_zero_of_pos hpos)
  · exact isNaN_or_tolerance_le hleft hpos

end Window

namespace Netting

variable {i n : Nat} {net : Netting}

/-- Every live size spans one, every size that was gathered at most so many. -/
structure Limited (i n : Nat) (net : Netting) : Prop where
  ledger : net.ledger.All fun order => Spans i 1 order.size
  deltas : ∀ side, (net.on side).All fun delta => Spans i n delta.size

theorem Limited.contribute (h : net.Limited i n) (hi : i ≤ 2045) (hfew : n + 1 < 2 ^ 53) {size : Float}
    (hs : Spans i 1 size) (interest : Interest) (price : Option Price) (time : Int64) :
    (net.contribute interest price size time).Limited i (n + 1) := by
  refine ⟨by rw [ledger_contribute]; exact h.ledger, fun side => ?_⟩
  have hmono : ∀ delta : Delta, Spans i n delta.size → Spans i (n + 1) delta.size :=
    fun _ hd => hd.mono (Nat.le_succ n)
  by_cases hside : interest.side = side
  · subst hside
    cases price with
    | none => exact (h.deltas _).mono hmono
    | some price =>
      rw [contribute_here]
      exact (h.deltas _).upsert hmono (hs.mono (Nat.le_add_left 1 n))
        (fun delta hd => hd.add hs hi hfew) price
  · rw [contribute_there net hside]
    exact (h.deltas side).mono hmono

theorem Limited.withdraw (h : net.Limited i n) (hi : i ≤ 2045) (hfew : n + 1 < 2 ^ 53) {index : Int64}
    {order : Resting} (hget : net.ledger.get? index = some order) (time : Int64) :
    (net.withdraw order time).Limited i (n + 1) :=
  h.contribute hi hfew (h.ledger index order hget).neg ..

theorem Limited.book (h : net.Limited i n) (hi : i ≤ 2045) (hfew : n + 1 < 2 ^ 53) {report : Report}
    (hs : Spans i 1 report.size) : (net.book report).Limited i (n + 1) := by
  refine ⟨?_, (h.contribute hi hfew hs report.interest report.price? report.time).deltas⟩
  rw [ledger_book]
  exact h.ledger.insert hs

theorem Limited.mono {m : Nat} (h : net.Limited i n) (hle : n ≤ m) : net.Limited i m :=
  ⟨h.ledger, fun side => (h.deltas side).mono fun _ hd => hd.mono hle⟩

theorem Limited.add (h : net.Limited i n) (hi : i ≤ 2045) (hfew : n + 2 < 2 ^ 53) {report : Report}
    (hs : report.isRemoval = false → Spans i 1 report.size) : (net.add report).Limited i (n + 2) := by
  rcases net.add_cases report with
    ⟨-, -, hadd⟩ | ⟨-, hout, hadd⟩ | ⟨order, hget, -, hadd⟩ | ⟨order, hget, hout, hadd⟩
  · rw [hadd]
    exact ⟨h.ledger, (h.mono (Nat.le_add_right n 2)).deltas⟩
  · rw [hadd]
    exact (h.book hi (by omega) (hs hout)).mono (by omega)
  · rw [hadd]
    refine ⟨h.ledger.erase _, ?_⟩
    exact ((h.withdraw hi (by omega) hget report.time).mono (Nat.le_succ _)).deltas
  · rw [hadd]
    exact (h.withdraw hi (by omega) hget report.time).book hi (by omega) (hs hout)

theorem Limited.foldl {reports : List Report} (h : net.Limited i n) (hi : i ≤ 2045)
    (hfew : n + 2 * reports.length < 2 ^ 53)
    (hs : ∀ report ∈ reports, report.isRemoval = false → Spans i 1 report.size) :
    (reports.foldl Netting.add net).Limited i (n + 2 * reports.length) := by
  induction reports generalizing net n with
  | nil => exact h
  | cons report rest ih =>
    obtain ⟨hr, hrest⟩ := List.forall_mem_cons.mp hs
    rw [List.length_cons] at hfew ⊢
    have hall := ih (h.add hi (by omega) hr) (by omega) hrest
    rwa [show n + 2 + 2 * rest.length = n + 2 * (rest.length + 1) by omega] at hall

end Netting

/-- Two to the power of 970. -/
def ample : Float := Float.ofBits 0x7C90000000000000

theorem spans_of_abs_lt {size : Float} (h : size.abs < ample) : Spans 2044 1 size := by
  have hample : ample.isFinite = true := by decide
  have hsteps : steps ample = (2 ^ 2044 : Nat) := by decide +kernel
  have hf := isFinite_of_abs_lt hample h
  rw [lt_iff_steps (by rwa [isFinite_float_abs]) hample, steps_abs, hsteps] at h
  exact ⟨hf, by rw [Nat.one_mul]; exact (Int.ofNat_lt.mp h).le⟩

/-- Live sizes stay below two to the power of 970, and fewer than two to the power of 52 reports come. -/
structure Moderate (batches : List (List Report × Bool)) : Prop where
  small : ∀ batch ∈ batches, ∀ report ∈ batch.1, report.isRemoval = false → report.size.abs < ample
  few : reportCount batches < 2 ^ 52

namespace Book

variable {i n : Nat} {P : Level → Prop} {book : Book} {reports : List Report} {fresh : Bool}

def Stores (P : Level → Prop) (book : Book) : Prop := ∀ side, (book.on side).levels.All P

theorem stores_empty (symbol : Symbol) (source : Source) (depth : Nat) :
    (Book.empty symbol source depth).Stores P := by
  intro side
  cases side <;> exact Ladder.all_empty

theorem Stores.base (h : book.Stores P) (fresh : Bool) : (book.base fresh).Stores P := by
  cases fresh with
  | true =>
    intro side
    cases side <;> exact Ladder.all_empty
  | false => exact h

theorem Stores.process (h : (book.base fresh).Stores P)
    (hleft : ∀ side, ∀ delta ∈ ((book.base fresh).ledger.net reports).2.on side, ∀ level,
      (Window.judge ((book.base fresh).on side).levels delta).bind Move.left? = some level →
        P level) : (book.process reports fresh).1.Stores P := by
  intro side
  rcases book.process_cases reports fresh with ⟨-, hon, -, -⟩ | ⟨hbook, -⟩
  · rw [hon]
    exact h side
  · rw [hbook, update_on]
    exact Window.all_apply (h side) (hleft side)

theorem stores_sized (symbol : Symbol) (source : Source) (depth : Nat)
    (batches : List (List Report × Bool)) : ((Book.empty symbol source depth).run batches).Stores
      fun level => level.size.isNaN = true ∨ tolerance ≤ level.size := by
  refine List.foldlRecOn batches _ (stores_empty symbol source depth) fun book h batch _ => ?_
  refine (h.base batch.2).process fun side delta hin level hl => ?_
  rw [Ledger.net, Netting.deltas_on, List.mem_filter, Bool.not_eq_true'] at hin
  exact Window.left_sized hin.2 hl

structure Limited (i n : Nat) (book : Book) : Prop where
  ledger : book.ledger.All fun order => Spans i 1 order.size
  levels : book.Stores fun level => Spans i n level.size

theorem limited_empty (symbol : Symbol) (source : Source) (depth : Nat) :
    (Book.empty symbol source depth).Limited i n :=
  ⟨Ledger.all_empty, stores_empty symbol source depth⟩

theorem Limited.base (h : book.Limited i n) (fresh : Bool) : (book.base fresh).Limited i n := by
  refine ⟨?_, h.levels.base fresh⟩
  cases fresh with
  | true => exact Ledger.all_empty
  | false => exact h.ledger

theorem Limited.process (h : book.Limited i n) (hi : i ≤ 2045)
    (hfew : n + 2 * reports.length < 2 ^ 53)
    (hs : ∀ report ∈ reports, report.isRemoval = false → Spans i 1 report.size) (fresh : Bool) :
    (book.process reports fresh).1.Limited i (n + 2 * reports.length) := by
  have hbase := h.base fresh
  have hstart : Netting.Limited i 0 { ledger := (book.base fresh).ledger } := by
    refine ⟨hbase.ledger, fun side => ?_⟩
    cases side <;> exact Ladder.all_empty
  have hnet := hstart.foldl hi (by omega) hs
  rw [Nat.zero_add] at hnet
  constructor
  · rcases book.process_cases reports fresh with ⟨-, -, hledger, -⟩ | ⟨hbook, -⟩
    · rw [hledger]
      exact hbase.ledger
    · rw [hbook]
      exact hnet.ledger
  · have hold : (book.base fresh).Stores fun level => Spans i (n + 2 * reports.length) level.size :=
      fun side => (hbase.levels side).mono fun _ hl => hl.mono (Nat.le_add_right ..)
    refine hold.process fun side delta hin level hl => ?_
    rw [Ledger.net, Netting.deltas_on, List.mem_filter] at hin
    have hdelta := hnet.deltas side delta hin.1
    rcases Window.left_cases hl with ⟨hsize, -⟩ | ⟨old, hget, hsize, -, -⟩
    · rw [hsize]
      exact hdelta.mono (Nat.le_add_left ..)
    · have hlevel : Spans i n old.size := (hbase.levels side).get? hget
      rw [hsize]
      exact hlevel.add hdelta hi hfew

theorem Limited.run {batches : List (List Report × Bool)} (h : book.Limited i n) (hi : i ≤ 2045)
    (hfew : n + 2 * reportCount batches < 2 ^ 53) (hs : ∀ batch ∈ batches, ∀ report ∈ batch.1,
      report.isRemoval = false → Spans i 1 report.size) :
    (book.run batches).Limited i (n + 2 * reportCount batches) := by
  induction batches generalizing book n with
  | nil => exact h
  | cons batch rest ih =>
    obtain ⟨hb, hrest⟩ := List.forall_mem_cons.mp hs
    have hcount : n + 2 * reportCount (batch :: rest) =
        n + 2 * batch.1.length + 2 * reportCount rest := by
      simp only [reportCount, List.map_cons, List.sum_cons]
      omega
    rw [hcount] at hfew ⊢
    exact ih (h.process hi (by omega) hb batch.2) hfew hrest

/-- A stored size that is a number is at least the tolerance, and as long as sizes are moderate every
stored size is a number. -/
theorem run_sizes (symbol : Symbol) (source : Source) (depth : Nat)
    (batches : List (List Report × Bool)) :
    let book := (Book.empty symbol source depth).run batches
    ∀ side, ∀ level ∈ (book.on side).levels.values,
      (level.size.isNaN = true ∨ tolerance ≤ level.size) ∧
      (Moderate batches → level.size.isFinite = true ∧ tolerance ≤ level.size) := by
  intro book side level hin
  have hsized : level.size.isNaN = true ∨ tolerance ≤ level.size :=
    stores_sized symbol source depth batches side level hin
  refine ⟨hsized, fun hM => ?_⟩
  have hstart : (Book.empty symbol source depth).Limited 2044 0 := limited_empty symbol source depth
  have hrun := hstart.run (by decide) (by have := hM.few; omega)
    fun batch hb report hr hout => spans_of_abs_lt (hM.small batch hb report hr hout)
  have hf := (hrun.levels side level hin).finite
  rw [isNaN_of_isFinite hf] at hsized
  exact ⟨hf, hsized.resolve_left Bool.false_ne_true⟩

theorem moderate_session : Moderate session := by
  refine ⟨?_, by decide⟩
  simp only [session, List.mem_cons, List.not_mem_nil, or_false, forall_eq_or_imp, forall_eq]
  decide +kernel

theorem run_sizes_session :
    let levels := (((Book.empty ⟨"X"⟩ ⟨"Y"⟩ 1).run session).on .ask).levels.values
    Moderate session ∧ levels.length = 1 ∧
      ∀ level ∈ levels, level.size.isFinite = true ∧ tolerance ≤ level.size :=
  ⟨moderate_session, by decide, fun level hin =>
    (run_sizes ⟨"X"⟩ ⟨"Y"⟩ 1 session .ask level hin).2 moderate_session⟩

/-- Two asks at one that are too much for one sum, then both are gone. -/
def vast : List (List Report × Bool) :=
  [([⟨1, .sell, Price.one.value, Float.ofBits 0x7FE0000000000000, 0, {}⟩,
      ⟨2, .sell, Price.one.value, Float.ofBits 0x7FE0000000000000, 0, {}⟩], false),
    ([.gone 1 1, .gone 2 1], false)]

/-- The level of an infinite size loses an infinite size and is not a number from then on. -/
theorem run_sizes_vast : Unchained (pricesOf vast) ∧
    (∀ batch ∈ vast, ∀ report ∈ batch.1, report.isRemoval = false →
      0 < report.size ∧ report.size.isFinite = true) ∧
    ∃ level ∈ (((Book.empty ⟨"X"⟩ ⟨"Y"⟩ 0).run vast).on .ask).levels.values,
      level.size.isNaN = true :=
  ⟨unchained_pricesOf (by decide), by decide +kernel, by decide +kernel⟩

end Book

end MarketDepth
