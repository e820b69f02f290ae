import MarketDepth.Replica
import MarketDepth.Proofs.BookShape

/-! A replica that holds the view from before a batch takes the changes of the batch without a misfit
and holds the view after it. -/

namespace MarketDepth

variable {side : Side} {S : Set Price} {scale : Scale side S}

namespace Replica

variable {view : Ladder side Level} {levels : List Level}

theorem removeAll_eq (h : view.Filed scale Level.price) (hS : ∀ l ∈ levels, l.price ∈ S)
    (hd : levels.Pairwise fun a b => scale.place a.price ≠ scale.place b.price)
    (hin : ∀ l ∈ levels, l ∈ view.values) :
    removeAll view levels = (view.eraseAll levels, none) := by
  induction levels generalizing view with
  | nil => rfl
  | cons l rest ih =>
    obtain ⟨hl, hrest⟩ := List.forall_mem_cons.mp hS
    obtain ⟨hne, hd⟩ := List.pairwise_cons.mp hd
    obtain ⟨hlin, hin⟩ := List.forall_mem_cons.mp hin
    have hcontains : view.contains l.price = true := (h.contains_iff hl).mpr ⟨l, hlin, rfl⟩
    rw [removeAll, if_pos hcontains]
    exact ih (h.erase l.price) hrest hd
      fun m hm => (h.mem_erase hl).mpr ⟨hin m hm, (hne m hm).symm⟩

theorem addAll_eq (h : view.Filed scale Level.price) (hS : ∀ l ∈ levels, l.price ∈ S)
    (hd : levels.Pairwise fun a b => scale.place a.price ≠ scale.place b.price)
    (hout : ∀ l ∈ levels, Absent scale view.values l) :
    addAll view levels = (view.insertAll levels, none) := by
  induction levels generalizing view with
  | nil => rfl
  | cons l rest ih =>
    obtain ⟨hl, hrest⟩ := List.forall_mem_cons.mp hS
    obtain ⟨hne, hd⟩ := List.pairwise_cons.mp hd
    obtain ⟨hlout, hout⟩ := List.forall_mem_cons.mp hout
    have hcontains : ¬ view.contains l.price = true := by
      rw [h.contains_iff hl]
      rintro ⟨m, hm, heq⟩
      exact hlout m hm heq
    rw [addAll, if_neg hcontains]
    refine ih (h.insert hl) hrest hd fun m hm o ho => ?_
    rcases (h.mem_insert hl).mp ho with rfl | ⟨ho, -⟩
    · exact hne m hm
    · exact hout m hm o ho

theorem updateAll_eq (h : view.Filed scale Level.price) (hS : ∀ l ∈ levels, l.price ∈ S)
    (hin : ∀ l ∈ levels, ¬ Absent scale view.values l) :
    updateAll view levels = (view.insertAll levels, none) := by
  induction levels generalizing view with
  | nil => rfl
  | cons l rest ih =>
    obtain ⟨hl, hrest⟩ := List.forall_mem_cons.mp hS
    obtain ⟨hlin, hin⟩ := List.forall_mem_cons.mp hin
    have hcontains : view.contains l.price = true := (h.contains_iff hl).mpr (not_absent.mp hlin)
    rw [updateAll, if_pos hcontains]
    refine ih (h.insert hl) hrest fun m hm habs => hin m hm fun o ho heq => ?_
    by_cases hol : scale.place o.price = scale.place l.price
    · exact habs l ((h.mem_insert hl).mpr (.inl rfl)) (hol.symm.trans heq)
    · exact habs o ((h.mem_insert hl).mpr (.inr ⟨ho, hol⟩)) heq

end Replica

theorem BestFirst.distinct {levels : List Level} (h : BestFirst scale Level.price levels) :
    levels.Pairwise fun a b => scale.place a.price ≠ scale.place b.price :=
  h.imp fun hlt => hlt.ne

namespace Tracks

variable {V V' : List Level} {touched : Set Int} {changes : SideChanges side}
  {view : Ladder side Level}

theorem mem_iff_of_unchanged (h : Tracks scale V V' touched changes)
    (hV : BestFirst scale Level.price V) {l : Level}
    (hrem : Absent scale changes.removals.values l) (hadd : Absent scale changes.additions.values l)
    (hupd : Absent scale changes.updates.values l) : l ∈ V ↔ l ∈ V' := by
  have hfar : ∀ m ∈ V', scale.place m.price = scale.place l.price → ¬ Absent scale V m →
      scale.place m.price ∉ touched :=
    fun m hm heq hold ht => hupd m ((h.updates m).mpr ⟨hm, hold, ht⟩) heq
  constructor
  · intro hl
    have hnow : ¬ Absent scale V' l := fun habs => hrem l ((h.removals l).mpr ⟨hl, habs⟩) rfl
    obtain ⟨m, hm, heq⟩ := not_absent.mp hnow
    have hold : ¬ Absent scale V m := fun habs => habs l hl heq.symm
    obtain rfl := hV.eq_of_place (h.kept m hm (hfar m hm heq hold) hold) hl heq
    exact hm
  · intro hl
    have hold : ¬ Absent scale V l := fun habs => hadd l ((h.additions l).mpr ⟨hl, habs⟩) rfl
    exact h.kept l hl (hfar l hl rfl hold) hold

def synced (view : Ladder side Level) (changes : SideChanges side) : Ladder side Level :=
  ((view.eraseAll changes.removals.values).insertAll
    changes.additions.values).insertAll changes.updates.values

section

variable (h : Tracks scale V V' touched changes) (hview : view.Filed scale Level.price)
  (hvalues : view.values = V)

include h hview

theorem filed_synced : (synced view changes).Filed scale Level.price := by
  obtain ⟨hfa, hfu, hfr⟩ := h.filed
  exact ((hview.eraseAll _).insertAll fun _ hm => hfa.known_of_mem hm).insertAll
    fun _ hm => hfu.known_of_mem hm

theorem get?_between {l : Level} (hl : l.price ∈ S)
    (hrem : Absent scale changes.removals.values l)
    (hadd : Absent scale changes.additions.values l) :
    ((view.eraseAll changes.removals.values).insertAll
      changes.additions.values).get? l.price = view.get? l.price := by
  obtain ⟨hfa, hfu, hfr⟩ := h.filed
  rw [(hview.eraseAll _).get?_insertAll_of_forall (fun _ hm => hfa.known_of_mem hm) hl hadd,
    hview.get?_eraseAll (fun _ hm => hfr.known_of_mem hm) hl, if_neg]
  rintro ⟨m, hm, heq⟩
  exact hrem m hm heq

include hvalues

theorem values_synced (hV' : BestFirst scale Level.price V') (hS' : ∀ l ∈ V', l.price ∈ S) :
    (synced view changes).values = V' := by
  obtain ⟨hfa, hfu, hfr⟩ := h.filed
  have hsynced := filed_synced h hview
  have hfi := (hview.eraseAll changes.removals.values).insertAll
    fun _ hm => hfa.known_of_mem hm
  have hku : ∀ l ∈ changes.updates.values, l.price ∈ S := fun _ hm => hfu.known_of_mem hm
  have hka : ∀ l ∈ changes.additions.values, l.price ∈ S := fun _ hm => hfa.known_of_mem hm
  have hkr : ∀ l ∈ changes.removals.values, l.price ∈ S := fun _ hm => hfr.known_of_mem hm
  refine hsynced.bestFirst.eq_of_mem_iff hV' fun l => ?_
  have hone : l.price ∈ S → ∀ m ∈ V', scale.place m.price = scale.place l.price →
      (some m = some l ↔ l ∈ V') := by
    intro hl m hm heq
    constructor
    · intro hml
      exact Option.some.inj hml ▸ hm
    · intro hin
      rw [hV'.eq_of_place hm hin heq]
  have hget : l.price ∈ S → ((synced view changes).get? l.price = some l ↔ l ∈ V') := by
    intro hl
    by_cases hupd : Absent scale changes.updates.values l
    · rw [synced, hfi.get?_insertAll_of_forall hku hl hupd]
      by_cases hadd : Absent scale changes.additions.values l
      · by_cases hrem : Absent scale changes.removals.values l
        · rw [get?_between h hview hl hrem hadd, ← hview.mem_values hl, hvalues]
          exact h.mem_iff_of_unchanged (hvalues ▸ hview.bestFirst) hrem hadd hupd
        · rw [(hview.eraseAll _).get?_insertAll_of_forall hka hl hadd,
            hview.get?_eraseAll hkr hl]
          obtain ⟨m, hm, heq⟩ := not_absent.mp hrem
          rw [if_pos ⟨m, hm, heq⟩]
          simp only [reduceCtorEq, false_iff]
          exact fun hin => ((h.removals m).mp hm).2 l hin heq.symm
      · obtain ⟨m, hm, heq⟩ := not_absent.mp hadd
        rw [(hview.eraseAll _).get?_insertAll_of_mem hka hl hfa.bestFirst.distinct hm heq]
        exact hone hl m ((h.additions m).mp hm).1 heq
    · obtain ⟨m, hm, heq⟩ := not_absent.mp hupd
      rw [synced, hfi.get?_insertAll_of_mem hku hl hfu.bestFirst.distinct hm heq]
      exact hone hl m ((h.updates m).mp hm).1 heq
  constructor
  · intro hin
    have hl := hsynced.known_of_mem hin
    exact (hget hl).mp ((hsynced.mem_values hl).mp hin)
  · intro hin
    have hl := hS' l hin
    exact (hsynced.mem_values hl).mpr ((hget hl).mpr hin)

theorem fits : Replica.removeAll view changes.removals.values =
      (view.eraseAll changes.removals.values, none) ∧
    Replica.addAll (view.eraseAll changes.removals.values) changes.additions.values =
      ((view.eraseAll changes.removals.values).insertAll changes.additions.values, none) ∧
    Replica.updateAll ((view.eraseAll changes.removals.values).insertAll changes.additions.values)
      changes.updates.values = (synced view changes, none) := by
  obtain ⟨hfa, hfu, hfr⟩ := h.filed
  have hfe := hview.eraseAll changes.removals.values
  have hfi := hfe.insertAll fun _ hm => hfa.known_of_mem hm
  refine ⟨Replica.removeAll_eq hview (fun _ hm => hfr.known_of_mem hm) hfr.bestFirst.distinct ?_,
    Replica.addAll_eq hfe (fun _ hm => hfa.known_of_mem hm) hfa.bestFirst.distinct ?_,
    Replica.updateAll_eq hfi (fun _ hm => hfu.known_of_mem hm) ?_⟩
  · intro l hl
    exact hvalues ▸ ((h.removals l).mp hl).1
  · intro l hl m hm heq
    have hmS := hfe.known_of_mem hm
    have hmget := (hfe.mem_values hmS).mp hm
    rw [hview.get?_eraseAll (fun _ hm => hfr.known_of_mem hm) hmS] at hmget
    split_ifs at hmget
    have hmV : m ∈ V := hvalues ▸ (hview.mem_values hmS).mpr hmget
    exact ((h.additions l).mp hl).2 m hmV heq
  · intro l hl habs
    obtain ⟨hnow, hold, -⟩ := (h.updates l).mp hl
    have hlS := hfu.known_of_mem hl
    have hrem : Absent scale changes.removals.values l := fun m hm heq =>
      ((h.removals m).mp hm).2 l hnow heq.symm
    have hadd : Absent scale changes.additions.values l := fun m hm heq =>
      hold ((absent_congr heq).mp ((h.additions m).mp hm).2)
    obtain ⟨o, ho, heq⟩ := not_absent.mp hold
    have hget : view.get? l.price = some o := (hview.get?_eq_some hlS).mpr ⟨hvalues ▸ ho, heq⟩
    rw [← get?_between h hview hlS hrem hadd] at hget
    exact habs o ((hfi.get?_eq_some hlS).mp hget).1 heq

end

end Tracks

theorem Ladder.values_ofLevels {levels : List Level} (h : BestFirst scale Level.price levels)
    (hS : ∀ l ∈ levels, l.price ∈ S) : (Ladder.ofLevels side levels).Filed scale Level.price ∧
      (Ladder.ofLevels side levels).values = levels := by
  have hempty : (Ladder.empty : Ladder side Level).Filed scale Level.price := Ladder.Filed.empty
  have hfiled : (Ladder.ofLevels side levels).Filed scale Level.price := Ladder.filed_ofLevels hS
  refine ⟨hfiled, hfiled.bestFirst.eq_of_mem_iff h fun l => ?_⟩
  constructor
  · intro hin
    have hl := hfiled.known_of_mem hin
    have hget : (Ladder.empty.insertAll levels).get? l.price = some l :=
      (hfiled.mem_values hl).mp hin
    by_cases habs : Absent scale levels l
    · rw [hempty.get?_insertAll_of_forall hS hl habs] at hget
      cases hget
    · obtain ⟨m, hm, heq⟩ := not_absent.mp habs
      rw [hempty.get?_insertAll_of_mem hS hl h.distinct hm heq] at hget
      exact Option.some.inj hget ▸ hm
  · intro hin
    have hl := hS l hin
    exact (hfiled.mem_values hl).mpr (hempty.get?_insertAll_of_mem hS hl h.distinct hin rfl)

namespace Replica

structure Holds (scale : ∀ side, Scale side S) (levels : Levels) (replica : Replica) : Prop where
  filedAsks : replica.asks.Filed (scale .ask) Level.price
  filedBids : replica.bids.Filed (scale .bid) Level.price
  asks : replica.asks.values = levels.asks
  bids : replica.bids.values = levels.bids

def hear (replica : Replica) : Option Notice → Replica × Option Misfit
  | none => (replica, none)
  | some (.newBook levels) => (ofLevels levels, none)
  | some (.changed changes _) => replica.apply changes

variable {scale : ∀ side, Scale side S} {before after : Levels} {replica : Replica}

theorem holds_empty : Replica.empty.Holds scale .empty :=
  ⟨Ladder.Filed.empty, Ladder.Filed.empty, rfl, rfl⟩

theorem holds_ofLevels {levels : Levels} (h : Book.Listed scale levels) :
    (ofLevels levels).Holds scale levels := by
  obtain ⟨hasks, hvasks⟩ := Ladder.values_ofLevels h.asks h.knownAsks
  obtain ⟨hbids, hvbids⟩ := Ladder.values_ofLevels h.bids h.knownBids
  exact ⟨hasks, hbids, hvasks, hvbids⟩

theorem Holds.levels (h : replica.Holds scale before) : replica.levels = before := by
  rw [Replica.levels, h.asks, h.bids]

theorem Holds.apply (h : replica.Holds scale before) {changes : ChangeSet}
    (ha : Book.Announces scale before after changes) (hafter : Book.Listed scale after) :
    ∃ next, replica.apply changes = (next, none) ∧ next.Holds scale after := by
  obtain ⟨asks, bids, touchedAsks, touchedBids, rfl, hasks, hbids⟩ := ha
  obtain ⟨hra, haa, hua⟩ := hasks.fits h.filedAsks h.asks
  obtain ⟨hrb, hab, hub⟩ := hbids.fits h.filedBids h.bids
  refine ⟨⟨Tracks.synced replica.asks asks, Tracks.synced replica.bids bids⟩, ?_,
    hasks.filed_synced h.filedAsks, hbids.filed_synced h.filedBids,
    hasks.values_synced h.filedAsks h.asks hafter.asks hafter.knownAsks,
    hbids.values_synced h.filedBids h.bids hafter.bids hafter.knownBids⟩
  simp only [Replica.apply, ChangeSet.ofSides, Replica.run, onAsks, onBids, hra, haa, hua, hrb,
    hab, hub]

theorem hear_of_tells (replica : Replica) {notice : Option Notice} (ht : Book.Tells scale before after notice)
    (hafter : Book.Listed scale after)
    (h : replica.Holds scale before ∨ ∃ levels, notice = some (.newBook levels)) :
    ∃ next, replica.hear notice = (next, none) ∧ next.Holds scale after := by
  cases notice with
  | none =>
    obtain rfl : after = before := ht
    rcases h with h | ⟨levels, hnew⟩
    · exact ⟨replica, rfl, h⟩
    · cases hnew
  | some notice =>
    cases notice with
    | newBook levels =>
      obtain rfl : levels = after := ht
      exact ⟨ofLevels levels, rfl, holds_ofLevels hafter⟩
    | changed changes levels =>
      rcases h with h | ⟨levels', hnew⟩
      · exact h.apply ht.1 hafter
      · cases hnew

/-- A replica hears of every batch that a book processes, up to the first misfit. -/
def follow (book : Book) (replica : Replica) :
    List (List Report × Bool) → Except Misfit (Book × Replica)
  | [] => .ok (book, replica)
  | (reports, fresh) :: rest =>
    match replica.hear (book.process reports fresh).2.notice with
    | (next, none) => follow (book.process reports fresh).1 next rest
    | (_, some misfit) => .error misfit

theorem Holds.follow {depth : Nat} {ladders : ∀ side, Ladder side Level} {book : Book}
    {batches : List (List Report × Bool)}
    (hbook : book.Shaped scale depth ladders) (h : replica.Holds scale book.visible)
    (hp : ∀ batch ∈ batches, Reported S batch.1) :
    ∃ last, follow book replica batches = .ok (book.run batches, last) ∧
      last.Holds scale (book.run batches).visible := by
  induction batches generalizing book replica ladders with
  | nil => exact ⟨replica, rfl, h⟩
  | cons batch rest ih =>
    obtain ⟨reports, fresh⟩ := batch
    obtain ⟨hb, hrest⟩ := List.forall_mem_cons.mp hp
    obtain ⟨⟨ladders', hbook'⟩, ht⟩ := hbook.process hb fresh
    obtain ⟨next, hnext, hholds⟩ := hear_of_tells replica ht hbook'.listed (.inl h)
    obtain ⟨last, hlast, hlastHolds⟩ := ih hbook' hholds hrest
    refine ⟨last, ?_, hlastHolds⟩
    rw [Replica.follow, hnext]
    exact hlast

/-- Whatever it held before, a replica that hears of a fresh batch is in step from there on. -/
theorem follow_fresh {depth : Nat} {ladders : ∀ side, Ladder side Level} {book : Book}
    {reports : List Report} {batches : List (List Report × Bool)}
    (hbook : book.Shaped scale depth ladders) (replica : Replica)
    (hp : ∀ batch ∈ (reports, true) :: batches, Reported S batch.1) :
    ∃ last, follow book replica ((reports, true) :: batches) =
        .ok (book.run ((reports, true) :: batches), last) ∧
      last.Holds scale (book.run ((reports, true) :: batches)).visible := by
  obtain ⟨hb, hrest⟩ := List.forall_mem_cons.mp hp
  obtain ⟨⟨ladders', hbook'⟩, ht⟩ := hbook.process hb true
  have hnew : ∃ levels, (book.process reports true).2.notice = some (.newBook levels) := by
    cases reports <;> exact ⟨_, rfl⟩
  obtain ⟨next, hnext, hholds⟩ := hear_of_tells replica ht hbook'.listed (.inr hnew)
  obtain ⟨last, hlast, hlastHolds⟩ := hholds.follow hbook' hrest
  refine ⟨last, ?_, hlastHolds⟩
  rw [Replica.follow, hnext]
  exact hlast

/-- A replica that hears of every batch never meets a change that does not fit, and holds what the
book shows, level by level, with the checksum of its snapshot. So does a replica in whatever state
from a fresh batch on. -/
theorem follows_book (symbol : Symbol) (source : Source) (depth : Nat)
    (batches : List (List Report × Bool)) (hS : Unchained (Book.pricesOf batches)) :
    let start := Book.empty symbol source depth
    let book := start.run batches
    (∃ last, follow start .empty batches = .ok (book, last) ∧ last.levels = book.visible ∧
      last.agrees book.snapshot = true) ∧
    ∀ history reports rest, batches = history ++ (reports, true) :: rest → ∀ replica : Replica,
      ∃ last, follow (start.run history) replica ((reports, true) :: rest) = .ok (book, last) ∧
        last.levels = book.visible ∧ last.agrees book.snapshot = true := by
  have scale : ∀ side, Scale side (Book.pricesOf batches) := fun side => (hS.scale side).some
  have hp := Book.reported_pricesOf batches
  have hstart : (Book.empty symbol source depth).Shaped scale depth fun _ => .empty :=
    Book.shaped_empty symbol source depth
  have hagrees : ∀ {book : Book} {last : Replica}, last.levels = book.visible →
      last.agrees book.snapshot = true := by
    intro book last h
    simp [agrees, checksum, h, Book.snapshot, Snapshot.ofLevels]
  have hvisible : (Book.empty symbol source depth).visible = .empty := by
    rw [hstart.visible]
    simp [shown, Ladder.values, Ladder.empty, Levels.empty]
  intro start book
  constructor
  · obtain ⟨last, hlast, hholds⟩ := Holds.follow hstart (hvisible ▸ holds_empty) hp
    exact ⟨last, hlast, hholds.levels, hagrees hholds.levels⟩
  · intro history reports rest hsplit replica
    have hph : ∀ batch ∈ history, Reported (Book.pricesOf batches) batch.1 :=
      fun batch hin => hp batch (hsplit ▸ List.mem_append_left _ hin)
    have hpr : ∀ batch ∈ (reports, true) :: rest, Reported (Book.pricesOf batches) batch.1 :=
      fun batch hin => hp batch (hsplit ▸ List.mem_append_right _ hin)
    obtain ⟨ladders, hshaped⟩ := hstart.run hph
    obtain ⟨last, hlast, hholds⟩ := follow_fresh hshaped replica hpr
    have hbook : (start.run history).run ((reports, true) :: rest) = book := by
      simp only [book, hsplit, Book.run, List.foldl_append, List.foldl_cons]
    rw [hbook] at hlast hholds
    exact ⟨last, hlast, hholds.levels, hagrees hholds.levels⟩

theorem follows_book_session : Unchained (Book.pricesOf Book.session) ∧
    ∃ last, follow (Book.empty ⟨"X"⟩ ⟨"Y"⟩ 1) .empty Book.session =
        .ok ((Book.empty ⟨"X"⟩ ⟨"Y"⟩ 1).run Book.session, last) ∧
      last.levels = ((Book.empty ⟨"X"⟩ ⟨"Y"⟩ 1).run Book.session).visible := by
  obtain ⟨⟨last, hlast, hlevels, -⟩, -⟩ :=
    follows_book ⟨"X"⟩ ⟨"Y"⟩ 1 Book.session Book.unchained_session
  exact ⟨Book.unchained_session, last, hlast, hlevels⟩

end Replica

end MarketDepth
