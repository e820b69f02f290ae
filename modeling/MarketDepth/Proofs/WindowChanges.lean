import MarketDepth.Proofs.Settlement
import MarketDepth.Proofs.WindowMark

/-! Changes of a batch are the difference between what was shown before and what is shown now. Each
step of a view is a level that leaves it, one that enters it, or one that is refreshed. -/

namespace MarketDepth

variable {side : Side} {S : Set Price} {scale : Scale side S}

def Absent (scale : Scale side S) (V : List Level) (l : Level) : Prop :=
  ∀ o ∈ V, scale.place o.price ≠ scale.place l.price

theorem not_absent {V : List Level} {l : Level} :
    ¬ Absent scale V l ↔ ∃ o ∈ V, scale.place o.price = scale.place l.price := by
  simp only [Absent, not_forall, not_not, exists_prop]

/-- Changes gathered on the way from one view to another. Levels at touched places may have a new
value, all others have kept theirs. -/
structure Tracks (scale : Scale side S) (before now : List Level) (touched : Set Int)
    (changes : SideChanges side) : Prop where
  filed : changes.additions.Filed scale Level.price ∧ changes.updates.Filed scale Level.price ∧
    changes.removals.Filed scale Level.price
  additions : ∀ l, l ∈ changes.additions.values ↔ l ∈ now ∧ Absent scale before l
  updates : ∀ l, l ∈ changes.updates.values ↔
    l ∈ now ∧ ¬ Absent scale before l ∧ scale.place l.price ∈ touched
  removals : ∀ l, l ∈ changes.removals.values ↔ l ∈ before ∧ Absent scale now l
  kept : ∀ l ∈ now, scale.place l.price ∉ touched → ¬ Absent scale before l → l ∈ before

namespace Tracks

variable {before V V' : List Level} {touched : Set Int} {changes : SideChanges side} {l : Level}

theorem refl (scale : Scale side S) (V : List Level) : Tracks scale V V ∅ .empty := by
  have hself : ∀ l ∈ V, ¬ Absent scale V l := fun l hl h => h l hl rfl
  refine ⟨⟨Ladder.Filed.empty, Ladder.Filed.empty, Ladder.Filed.empty⟩, fun l => ?_, fun l => ?_,
    fun l => ?_, fun l hl _ _ => hl⟩
  · simpa [SideChanges.empty, Ladder.empty, Ladder.values] using hself l
  · simp [SideChanges.empty, Ladder.empty, Ladder.values]
  · simpa [SideChanges.empty, Ladder.empty, Ladder.values] using hself l

theorem contains_additions (h : Tracks scale before V touched changes) (hl : l.price ∈ S) :
    changes.additions.contains l.price = true ↔
      ∃ m ∈ V, Absent scale before m ∧ scale.place m.price = scale.place l.price := by
  simp only [h.filed.1.contains_iff hl, h.additions, and_assoc]

theorem absent_congr {m : Level} (h : scale.place m.price = scale.place l.price) :
    Absent scale V m ↔ Absent scale V l := by
  simp only [Absent, h]

theorem absent_after_leave
    (hV : ∀ m, m ∈ V' ↔ m ∈ V ∧ scale.place m.price ≠ scale.place l.price) (m : Level) :
    Absent scale V' m ↔ Absent scale V m ∨ scale.place m.price = scale.place l.price := by
  constructor
  · intro ha
    by_cases heq : scale.place m.price = scale.place l.price
    · exact .inr heq
    · exact .inl fun o ho hom => ha o ((hV o).mpr ⟨ho, hom ▸ heq⟩) hom
  · rintro (ha | heq) o ho
    · exact ha o ((hV o).mp ho).1
    · exact heq ▸ ((hV o).mp ho).2

theorem absent_after_refresh (hl : ¬ Absent scale V l)
    (hV : ∀ m, m ∈ V' ↔ m = l ∨ m ∈ V ∧ scale.place m.price ≠ scale.place l.price) (m : Level) :
    Absent scale V' m ↔ Absent scale V m := by
  constructor
  · intro ha o ho hom
    by_cases heq : scale.place o.price = scale.place l.price
    · exact ha l ((hV l).mpr (.inl rfl)) (heq.symm.trans hom)
    · exact ha o ((hV o).mpr (.inr ⟨ho, heq⟩)) hom
  · intro ha o ho hom
    rcases (hV o).mp ho with rfl | ⟨ho, -⟩
    · exact hl ((absent_congr hom.symm).mp ha)
    · exact ha o ho hom

theorem contains_of_absent (h : Tracks scale before V touched changes) (hS : l.price ∈ S)
    (hl : ¬ Absent scale V l) (hnew : Absent scale before l) :
    changes.additions.contains l.price = true := by
  obtain ⟨o, ho, heq⟩ := not_absent.mp hl
  exact (h.contains_additions hS).mpr ⟨o, ho, (absent_congr heq).mpr hnew, heq⟩

theorem not_contains_of_not_absent (h : Tracks scale before V touched changes) (hS : l.price ∈ S)
    (hold : ¬ Absent scale before l) : ¬ changes.additions.contains l.price = true := by
  rw [h.contains_additions hS]
  rintro ⟨m, -, hm, heq⟩
  exact hold ((absent_congr heq).mp hm)

theorem leave (h : Tracks scale before V ∅ changes) (hbefore : BestFirst scale Level.price before)
    (hS : l.price ∈ S) (hl : l ∈ V)
    (hV : ∀ m, m ∈ V' ↔ m ∈ V ∧ scale.place m.price ≠ scale.place l.price) :
    Tracks scale before V' ∅ (changes.remove l) := by
  obtain ⟨hfa, hfu, hfr⟩ := h.filed
  have habsent := absent_after_leave hV
  have hkept : ∀ m ∈ V', scale.place m.price ∉ (∅ : Set Int) → ¬ Absent scale before m →
      m ∈ before := fun m hm => h.kept m ((hV m).mp hm).1
  by_cases hnew : Absent scale before l
  · rw [SideChanges.remove, if_pos (h.contains_of_absent hS (fun ha => ha l hl rfl) hnew)]
    refine ⟨⟨hfa.erase l.price, hfu, hfr⟩, fun m => ?_, fun m => ?_, fun m => ?_, hkept⟩
    · rw [hfa.mem_erase hS, h.additions, hV]
      tauto
    · rw [h.updates, hV]
      simp
    · rw [h.removals, habsent]
      refine and_congr_right fun hm => ⟨.inl, ?_⟩
      rintro (ha | heq)
      · exact ha
      · exact absurd heq (hnew m hm)
  · have hold := h.kept l hl (Set.notMem_empty _) hnew
    rw [SideChanges.remove, if_neg (h.not_contains_of_not_absent hS hnew)]
    refine ⟨⟨hfa, hfu.erase l.price, hfr.insert hS⟩, fun m => ?_, fun m => ?_, fun m => ?_, hkept⟩
    · rw [h.additions, hV]
      exact ⟨fun ⟨hm, ha⟩ => ⟨⟨hm, fun heq => hnew ((absent_congr heq).mp ha)⟩, ha⟩,
        fun ⟨⟨hm, _⟩, ha⟩ => ⟨hm, ha⟩⟩
    · rw [hfu.mem_erase hS, h.updates]
      simp
    · rw [hfr.mem_insert hS, h.removals, habsent]
      constructor
      · rintro (rfl | ⟨⟨hm, ha⟩, -⟩)
        · exact ⟨hold, .inr rfl⟩
        · exact ⟨hm, .inl ha⟩
      · rintro ⟨hm, ha | heq⟩
        · exact .inr ⟨⟨hm, ha⟩, (ha l hl).symm⟩
        · exact .inl (hbefore.eq_of_place hm hold heq)

theorem enter (h : Tracks scale before V touched changes) (hS : l.price ∈ S)
    (hnew : Absent scale before l) (hout : Absent scale V l)
    (hV : ∀ m, m ∈ V' ↔ m = l ∨ m ∈ V) :
    Tracks scale before V' touched (changes.add l) := by
  obtain ⟨hfa, hfu, hfr⟩ := h.filed
  refine ⟨⟨hfa.insert hS, hfu, hfr⟩, fun m => ?_, fun m => ?_, fun m => ?_, fun m hm => ?_⟩
  · rw [SideChanges.add, hfa.mem_insert hS, h.additions, hV]
    constructor
    · rintro (rfl | ⟨⟨hm, ha⟩, -⟩)
      · exact ⟨.inl rfl, hnew⟩
      · exact ⟨.inr hm, ha⟩
    · rintro ⟨rfl | hm, ha⟩
      · exact .inl rfl
      · exact .inr ⟨⟨hm, ha⟩, hout m hm⟩
  · rw [SideChanges.add, h.updates, hV]
    constructor
    · rintro ⟨hm, ha⟩
      exact ⟨.inr hm, ha⟩
    · rintro ⟨rfl | hm, ha⟩
      · exact absurd hnew ha.1
      · exact ⟨hm, ha⟩
  · rw [SideChanges.add, h.removals]
    refine and_congr_right fun hm => ⟨fun ha o ho => ?_, fun ha o ho => ha o ((hV o).mpr (.inr ho))⟩
    rcases (hV o).mp ho with rfl | ho
    · exact (hnew m hm).symm
    · exact ha o ho
  · rcases (hV m).mp hm with rfl | hm
    · exact fun _ ha => absurd hnew ha
    · exact h.kept m hm

theorem refresh (h : Tracks scale before V touched changes) (hS : l.price ∈ S)
    (hl : ¬ Absent scale V l)
    (hV : ∀ m, m ∈ V' ↔ m = l ∨ m ∈ V ∧ scale.place m.price ≠ scale.place l.price) :
    Tracks scale before V' (insert (scale.place l.price) touched) (changes.update l) := by
  obtain ⟨hfa, hfu, hfr⟩ := h.filed
  have hremovals : ∀ m, m ∈ changes.removals.values ↔ m ∈ before ∧ Absent scale V' m := by
    intro m
    rw [h.removals, absent_after_refresh hl hV]
  have hkept : ∀ m ∈ V', scale.place m.price ∉ insert (scale.place l.price) touched →
      ¬ Absent scale before m → m ∈ before := by
    intro m hm hfar
    rw [Set.mem_insert_iff, not_or] at hfar
    rcases (hV m).mp hm with rfl | ⟨hm, -⟩
    · exact absurd rfl hfar.1
    · exact h.kept m hm hfar.2
  by_cases hnew : Absent scale before l
  · rw [SideChanges.update, if_pos (h.contains_of_absent hS hl hnew)]
    refine ⟨⟨hfa.insert hS, hfu, hfr⟩, fun m => ?_, fun m => ?_, hremovals, hkept⟩
    · rw [hfa.mem_insert hS, h.additions, hV]
      constructor
      · rintro (rfl | ⟨⟨hm, ha⟩, hne⟩)
        · exact ⟨.inl rfl, hnew⟩
        · exact ⟨.inr ⟨hm, hne⟩, ha⟩
      · rintro ⟨rfl | ⟨hm, hne⟩, ha⟩
        · exact .inl rfl
        · exact .inr ⟨⟨hm, ha⟩, hne⟩
    · rw [h.updates, hV, Set.mem_insert_iff]
      constructor
      · rintro ⟨hm, ha, ht⟩
        exact ⟨.inr ⟨hm, fun heq => ha ((absent_congr heq).mpr hnew)⟩, ha, .inr ht⟩
      · rintro ⟨rfl | ⟨hm, hne⟩, ha, ht⟩
        · exact absurd hnew ha
        · exact ⟨hm, ha, ht.resolve_left hne⟩
  · rw [SideChanges.update, if_neg (h.not_contains_of_not_absent hS hnew)]
    refine ⟨⟨hfa, hfu.insert hS, hfr⟩, fun m => ?_, fun m => ?_, hremovals, hkept⟩
    · rw [h.additions, hV]
      constructor
      · rintro ⟨hm, ha⟩
        exact ⟨.inr ⟨hm, fun heq => hnew ((absent_congr heq).mp ha)⟩, ha⟩
      · rintro ⟨rfl | ⟨hm, -⟩, ha⟩
        · exact absurd ha hnew
        · exact ⟨hm, ha⟩
    · rw [hfu.mem_insert hS, h.updates, hV, Set.mem_insert_iff]
      constructor
      · rintro (rfl | ⟨⟨hm, ha, ht⟩, hne⟩)
        · exact ⟨.inl rfl, hnew, .inl rfl⟩
        · exact ⟨.inr ⟨hm, hne⟩, ha, .inr ht⟩
      · rintro ⟨rfl | ⟨hm, hne⟩, ha, ht⟩
        · exact .inl rfl
        · exact .inr ⟨⟨hm, ha, ht.resolve_left hne⟩, hne⟩

theorem miss (h : Tracks scale before V touched changes) (hl : Absent scale V l) :
    Tracks scale before V (insert (scale.place l.price) touched) changes := by
  refine ⟨h.filed, h.additions, fun m => ?_, h.removals, fun m hm hfar => ?_⟩
  · rw [h.updates, Set.mem_insert_iff]
    constructor
    · rintro ⟨hm, ha, ht⟩
      exact ⟨hm, ha, .inr ht⟩
    · rintro ⟨hm, ha, ht⟩
      exact ⟨hm, ha, ht.resolve_left (hl m hm)⟩
  · exact h.kept m hm fun ht => hfar (.inr ht)

theorem retouch {touched' : Set Int} (h : Tracks scale before V touched changes)
    (hsub : touched ⊆ touched') (hback : ∀ m ∈ V, ¬ Absent scale before m →
      scale.place m.price ∈ touched' → scale.place m.price ∈ touched) :
    Tracks scale before V touched' changes := by
  refine ⟨h.filed, h.additions, fun m => ?_, h.removals, fun m hm hfar => ?_⟩
  · rw [h.updates]
    exact ⟨fun ⟨hm, ha, ht⟩ => ⟨hm, ha, hsub ht⟩, fun ⟨hm, ha, ht⟩ => ⟨hm, ha, hback m hm ha ht⟩⟩
  · exact h.kept m hm fun ht => hfar (hsub ht)

end Tracks

theorem BestFirst.mem_without {A B : List Level} {l : Level}
    (h : BestFirst scale Level.price (A ++ l :: B)) (m : Level) :
    m ∈ A ++ B ↔ m ∈ A ++ l :: B ∧ scale.place m.price ≠ scale.place l.price := by
  obtain ⟨-, hB, hAB⟩ := List.pairwise_append.mp h
  have hlB := (List.pairwise_cons.mp hB).1
  simp only [List.mem_append, List.mem_cons]
  constructor
  · rintro (hm | hm)
    · exact ⟨.inl hm, (hAB m hm l List.mem_cons_self).ne⟩
    · exact ⟨.inr (.inr hm), (hlB m hm).ne'⟩
  · rintro ⟨hm | rfl | hm, hne⟩
    · exact .inl hm
    · exact absurd rfl hne
    · exact .inr hm

theorem BestFirst.absent_without {A B : List Level} {l : Level}
    (h : BestFirst scale Level.price (A ++ l :: B)) : Absent scale (A ++ B) l :=
  fun m hm => ((h.mem_without m).mp hm).2

theorem shown_sublist (depth : Nat) (values : List Level) : (shown depth values).Sublist values := by
  unfold shown
  split_ifs
  · exact List.Sublist.refl values
  · exact List.take_sublist depth values

theorem BestFirst.shown {values : List Level} (h : BestFirst scale Level.price values)
    (depth : Nat) : BestFirst scale Level.price (shown depth values) :=
  h.sublist (shown_sublist depth values)

namespace Window

variable {before V V' : List Level} {changes changes' : SideChanges side} {l old : Level}

theorem Removal.tracks {found : Option Level} (hstep : Removal changes found V V' changes')
    (h : Tracks scale before V ∅ changes) (hbefore : BestFirst scale Level.price before)
    (hV : BestFirst scale Level.price V) (hV' : BestFirst scale Level.price V')
    (hS : ∀ m ∈ V ++ V', m.price ∈ S) (hgone : ∀ m ∈ found, m ∉ V')
    (hnew : ∀ m ∈ V', m ∉ V → Absent scale before m) :
    Tracks scale before V' ∅ changes' := by
  cases hstep with
  | hidden => exact h
  | left A l B => exact h.leave hbefore (hS l (by simp)) (by simp) hV.mem_without
  | replaced A l B next =>
    have hleave := h.leave hbefore (hS l (by simp)) (by simp) hV.mem_without
    have hout : Absent scale (A ++ B) next := by simpa using hV'.absent_without
    have hnext : next ∉ A ++ l :: B := by
      intro hin
      have hne : next ≠ l := fun heq => hgone l rfl (by simp [heq])
      refine hout next ?_ rfl
      simp only [List.mem_append, List.mem_cons] at hin ⊢
      tauto
    refine hleave.enter (hS next (by simp)) (hnew next (by simp) hnext) hout fun m => ?_
    simp only [List.mem_append, List.mem_singleton]
    tauto

theorem Removal.mem {found : Option Level} (hstep : Removal changes found V V' changes')
    {m : Level} (hm : m ∈ V) (hne : found ≠ some m) : m ∈ V' := by
  cases hstep with
  | hidden => exact hm
  | left A l B =>
    have hml : m ≠ l := fun heq => hne (congrArg some heq.symm)
    simp only [List.mem_append, List.mem_cons] at hm ⊢
    tauto
  | replaced A l B next =>
    have hml : m ≠ l := fun heq => hne (congrArg some heq.symm)
    simp only [List.mem_append, List.mem_cons] at hm ⊢
    tauto

theorem Addition.tracks (hstep : Addition changes l V V' changes')
    (h : Tracks scale before V ∅ changes) (hbefore : BestFirst scale Level.price before)
    (hV : BestFirst scale Level.price V) (hV' : BestFirst scale Level.price V')
    (hS : ∀ m ∈ V ++ V', m.price ∈ S) (hnew : Absent scale before l) (hout : Absent scale V l) :
    Tracks scale before V' ∅ changes' := by
  cases hstep with
  | hidden => exact h
  | entered A B =>
    refine h.enter (hS l (by simp)) hnew hout fun m => ?_
    simp only [List.mem_append, List.mem_cons]
    tauto
  | displaced A B last =>
    have henter : Tracks scale before (A ++ l :: B ++ [last]) ∅ (changes.add l) := by
      refine h.enter (hS l (by simp)) hnew hout fun m => ?_
      simp only [List.mem_append, List.mem_cons, List.not_mem_nil]
      tauto
    refine henter.leave hbefore (hS last (by simp)) (by simp) fun m => ?_
    have hAB : m ∈ A ++ B → scale.place m.price ≠ scale.place last.price := by
      have hlast : Absent scale (A ++ B) last := by simpa using hV.absent_without
      exact hlast m
    have hl : scale.place l.price ≠ scale.place last.price := (hout last (by simp)).symm
    simp only [List.mem_append, List.mem_cons, List.not_mem_nil, or_false] at hAB ⊢
    constructor
    · rintro (hm | rfl | hm)
      · exact ⟨.inl (.inl hm), hAB (.inl hm)⟩
      · exact ⟨.inl (.inr (.inl rfl)), hl⟩
      · exact ⟨.inl (.inr (.inr hm)), hAB (.inr hm)⟩
    · rintro ⟨hm | rfl, hne⟩
      · exact hm
      · exact absurd rfl hne

theorem Refresh.tracks {touched : Set Int} (hstep : Refresh changes l old V V' changes')
    (h : Tracks scale before V touched changes) (hV : BestFirst scale Level.price V)
    (hS : l.price ∈ S) (hplace : scale.place old.price = scale.place l.price)
    (hold : ∀ o ∈ V, scale.place o.price = scale.place l.price → o = old) :
    Tracks scale before V' (insert (scale.place l.price) touched) changes' := by
  cases hstep with
  | hidden _ hnot => exact h.miss fun o ho heq => hnot (hold o ho heq ▸ ho)
  | refreshed A B =>
    refine h.refresh hS (fun habs => habs old (by simp) hplace) fun m => ?_
    have hmem := hV.mem_without m
    rw [hplace] at hmem
    rw [← hmem]
    simp only [List.mem_append, List.mem_cons]
    tauto

theorem absent_of_get? {ladder : Ladder side Level} {depth : Nat}
    (hL : ladder.Filed scale Level.price) (h : ladder.get? l.price = none) (hl : l.price ∈ S) :
    Absent scale (shown depth ladder.values) l := by
  intro m hm heq
  have hm' := (hL.get?_eq_some hl).mpr ⟨(shown_sublist _ _).subset hm, heq⟩
  rw [h] at hm'
  cases hm'

theorem absent_of_hidden {ladder : Ladder side Level} {depth : Nat}
    (hL : ladder.Filed scale Level.price) (hm : l ∈ ladder.values) (hout : l ∉ shown depth ladder.values) :
    Absent scale (shown depth ladder.values) l := by
  intro o ho heq
  exact hout (hL.bestFirst.eq_of_place ((shown_sublist _ _).subset ho) hm heq ▸ ho)

/-- A batch under way: the mark stands where it belongs on the levels reached so far, and the changes
gathered so far lead to the view of them. -/
structure Stage (scale : Scale side S) (before : List Level) (depth : Nat) (touched : Set Int)
    (ladder : Ladder side Level) (state : Window side × SideChanges side) : Prop where
  filed : ladder.Filed scale Level.price
  window : state.1 = marked depth ladder
  tracks : Tracks scale before (shown depth ladder.values) touched state.2

namespace Stage

variable {depth : Nat} {touched : Set Int} {ladder ladder' : Ladder side Level}
  {state : Window side × SideChanges side} {levels : List Level}

theorem known (h : Stage scale before depth touched ladder state) {m : Level}
    (hm : m ∈ shown depth ladder.values) : m.price ∈ S :=
  h.filed.known_of_mem ((shown_sublist _ _).subset hm)

theorem known_append (h : Stage scale before depth touched ladder state)
    (h' : ladder'.Filed scale Level.price) :
    ∀ m ∈ shown depth ladder.values ++ shown depth ladder'.values, m.price ∈ S := by
  intro m hm
  rcases List.mem_append.mp hm with hm | hm
  · exact h.known hm
  · exact h'.known_of_mem ((shown_sublist _ _).subset hm)

theorem removals (h : Stage scale before depth ∅ ladder state)
    (hbefore : BestFirst scale Level.price before) (hS : ∀ l ∈ levels, l.price ∈ S)
    (hhidden : ∀ m ∈ ladder.values, m ∉ shown depth ladder.values → Absent scale before m) :
    Stage scale before depth ∅ (ladder.eraseAll levels)
      (levels.foldl (fun s level => s.1.remove s.2 level) state) := by
  induction levels generalizing ladder state with
  | nil => exact h
  | cons l rest ih =>
    obtain ⟨hl, hrest⟩ := List.forall_mem_cons.mp hS
    have hL := h.filed
    have hlead := remove_marked hL.toOrdered hl depth state.2
    rw [← h.window] at hlead
    have hL' := hL.erase l.price
    have hgone : ∀ m ∈ (ladder.erase l.price).values, ladder.get? l.price ≠ some m := by
      intro m hm heq
      exact ((hL.mem_erase hl).mp hm).2 ((hL.get?_eq_some hl).mp heq).2
    have hstep := hlead.view.tracks h.tracks hbefore (hL.bestFirst.shown depth)
      (hL'.bestFirst.shown depth) (h.known_append hL')
      (fun m hm hin => hgone m ((shown_sublist _ _).subset hin) hm)
      (fun m hm hout => hhidden m
        ((hL.mem_erase hl).mp ((shown_sublist _ _).subset hm)).1 hout)
    refine ih ⟨hL', hlead.window, hstep⟩ hrest fun m hm hout => ?_
    exact hhidden m ((hL.mem_erase hl).mp hm).1
      fun hin => hout (hlead.view.mem hin (hgone m hm))

theorem additions (h : Stage scale before depth ∅ ladder state)
    (hbefore : BestFirst scale Level.price before) (hS : ∀ l ∈ levels, l.price ∈ S)
    (hd : levels.Pairwise fun a b => scale.place a.price ≠ scale.place b.price)
    (hget : ∀ l ∈ levels, ladder.get? l.price = none)
    (hnew : ∀ l ∈ levels, Absent scale before l) :
    Stage scale before depth ∅ (ladder.insertAll levels)
      (levels.foldl (fun s level => s.1.add s.2 level) state) := by
  induction levels generalizing ladder state with
  | nil => exact h
  | cons l rest ih =>
    obtain ⟨hl, hrest⟩ := List.forall_mem_cons.mp hS
    obtain ⟨hne, hd⟩ := List.pairwise_cons.mp hd
    obtain ⟨hgl, hget⟩ := List.forall_mem_cons.mp hget
    obtain ⟨hnl, hnew⟩ := List.forall_mem_cons.mp hnew
    have hL := h.filed
    have hlead := add_marked hL.toOrdered hl hgl depth state.2
    rw [← h.window] at hlead
    have hL' := hL.insert hl
    have hstep := hlead.view.tracks h.tracks hbefore (hL.bestFirst.shown depth)
      (hL'.bestFirst.shown depth) (h.known_append hL') hnl (absent_of_get? hL hgl hl)
    refine ih ⟨hL', hlead.window, hstep⟩ hrest hd (fun m hm => ?_) hnew
    rw [hL.get?_insert hl (hrest m hm), if_neg (hne m hm).symm]
    exact hget m hm

theorem updates (h : Stage scale before depth touched ladder state)
    (hS : ∀ l ∈ levels, l.price ∈ S) (hget : ∀ l ∈ levels, ∃ old, ladder.get? l.price = some old) :
    Stage scale before depth (touched ∪ {x | ∃ l ∈ levels, scale.place l.price = x})
      (ladder.insertAll levels) (levels.foldl (fun s level => s.1.update s.2 level) state) := by
  induction levels generalizing ladder state touched with
  | nil => simpa [Ladder.insertAll] using h
  | cons l rest ih =>
    obtain ⟨hl, hrest⟩ := List.forall_mem_cons.mp hS
    obtain ⟨⟨old, hold⟩, hget⟩ := List.forall_mem_cons.mp hget
    have hL := h.filed
    have hlead := update_marked hL hl hold depth state.2
    rw [← h.window] at hlead
    obtain ⟨hin, hplace⟩ := (hL.get?_eq_some hl).mp hold
    have hstep := hlead.view.tracks h.tracks (hL.bestFirst.shown depth) hl hplace
      fun o ho heq => hL.bestFirst.eq_of_place ((shown_sublist _ _).subset ho) hin
        (heq.trans hplace.symm)
    have hh := ih ⟨hL.insert hl, hlead.window, hstep⟩ hrest fun m hm => ?_
    · have hset : insert (scale.place l.price) touched ∪
          {x | ∃ m ∈ rest, scale.place m.price = x} =
          touched ∪ {x | ∃ m ∈ l :: rest, scale.place m.price = x} := by
        ext x
        simp only [Set.mem_union, Set.mem_insert_iff, Set.mem_ofPred_eq, List.exists_mem_cons_iff,
          eq_comm (a := x)]
        tauto
      rw [hset] at hh
      exact hh
    · obtain ⟨o, ho⟩ := hget m hm
      rw [hL.get?_insert hl (hrest m hm)]
      split_ifs
      · exact ⟨l, rfl⟩
      · exact ⟨o, ho⟩

end Stage

section

variable {ladder : Ladder side Level} {deltas : List Delta} {depth : Nat}
  (hL : ladder.Filed scale Level.price) (hd : Netted scale deltas)

theorem get?_of_added (h : l ∈ picked Move.added? ladder deltas) :
    ladder.get? l.price = none := by
  obtain ⟨delta, hin, m, hj, hm⟩ := mem_picked.mp h
  cases m with
  | add new =>
    obtain rfl := Option.some.inj hm
    obtain ⟨hget, hprice⟩ := judge_add hj
    rw [hprice, hget]
  | _ => cases hm

include hL hd

theorem get?_of_updated (h : l ∈ picked Move.updated? ladder deltas) : ∃ old,
    ((ladder.eraseAll (picked Move.removed? ladder deltas)).insertAll
      (picked Move.added? ladder deltas)).get? l.price = some old := by
  obtain ⟨delta, hin, m, hj, hm⟩ := mem_picked.mp h
  cases m with
  | update new =>
    obtain rfl := Option.some.inj hm
    obtain ⟨⟨old, hold⟩, hprice⟩ := judge_update hj
    have hfar : ∀ {kind}, Kind kind → kind (.update new) = none →
        ∀ k ∈ picked kind ladder deltas, scale.place k.price ≠ scale.place delta.price := by
      intro kind hk hnone k hpk heq
      obtain ⟨m', hj', hm'⟩ := judge_of_picked hL hd hk hpk hin heq
      rw [hj] at hj'
      obtain rfl := Option.some.inj hj'
      rw [hnone] at hm'
      cases hm'
    have hknown : ∀ {kind}, Kind kind → ∀ k ∈ picked kind ladder deltas, k.price ∈ S :=
      known_of_picked hL hd
    refine ⟨old, ?_⟩
    rw [hprice, (hL.eraseAll _).get?_insertAll_of_forall (hknown kind_added) (hd.known delta hin)
      (hfar kind_added rfl), hL.get?_eraseAll (hknown kind_removed) (hd.known delta hin), if_neg,
      hold]
    rintro ⟨k, hpk, heq⟩
    exact hfar kind_removed rfl k hpk heq
  | _ => cases hm

theorem updated_of_settle (hl : l ∈ (settle ladder deltas).values)
    (hbefore : ¬ Absent scale (shown depth ladder.values) l) {delta : Delta} (hin : delta ∈ deltas)
    (hplace : scale.place delta.price = scale.place l.price) :
    l ∈ picked Move.updated? ladder deltas := by
  have hp := hd.known delta hin
  obtain ⟨o, ho, hol⟩ := not_absent.mp hbefore
  have hget : ladder.get? delta.price = some o :=
    (hL.get?_eq_some hp).mpr ⟨(shown_sublist _ _).subset ho, hol.trans hplace.symm⟩
  have hnow : (settle ladder deltas).get? delta.price = some l :=
    ((filed_settle hL hd).get?_eq_some hp).mpr ⟨hl, hplace.symm⟩
  rw [get?_settle_of_mem hL hd hin] at hnow
  cases hj : judge ladder delta with
  | none =>
    rw [judge_eq_none hj] at hget
    cases hget
  | some m =>
    rw [hj] at hnow
    cases m with
    | remove k => cases hnow
    | add k =>
      rw [(judge_add hj).1] at hget
      cases hget
    | update k =>
      obtain rfl : k = l := Option.some.inj hnow
      exact mem_picked.mpr ⟨delta, hin, _, hj, rfl⟩

/-- A batch of deltas leads to the levels it settles, with the mark where it belongs, and its changes
are the way from the view before it to the view after it. -/
theorem apply_marked (depth : Nat) :
    Stage scale (shown depth ladder.values) depth
      {x | ∃ delta ∈ deltas, scale.place delta.price = x} (settle ladder deltas)
      ((marked depth ladder).apply deltas) := by
  have hbefore := hL.bestFirst.shown depth
  have hknown : ∀ {kind}, Kind kind → ∀ k ∈ picked kind ladder deltas, k.price ∈ S :=
    known_of_picked hL hd
  have hstart : Stage scale (shown depth ladder.values) depth ∅ ladder
      (marked depth ladder, SideChanges.empty) := ⟨hL, rfl, Tracks.refl scale _⟩
  have hremoved := hstart.removals hbefore (hknown kind_removed)
    fun m hm hout => absent_of_hidden hL hm hout
  have hadded := hremoved.additions hbefore (hknown kind_added) (picked_distinct hL hd kind_added)
    (fun m hm => by
      rw [hL.get?_eraseAll (hknown kind_removed) (hknown kind_added m hm), get?_of_added hm]
      exact ite_self none)
    (fun m hm => absent_of_get? hL (get?_of_added hm) (hknown kind_added m hm))
  have hupdated := hadded.updates (hknown kind_updated) fun m hm => get?_of_updated hL hd hm
  refine ⟨hupdated.filed, hupdated.window, hupdated.tracks.retouch ?_ ?_⟩
  · rintro x (hx | ⟨m, hm, rfl⟩)
    · cases hx
    · obtain ⟨-, delta, hin, hplace⟩ := place_of_picked hL hd kind_updated hm
      exact ⟨delta, hin, hplace.symm⟩
  · rintro m hm hold ⟨delta, hin, hplace⟩
    exact .inr ⟨m, updated_of_settle hL hd ((shown_sublist _ _).subset hm) hold hin hplace, rfl⟩

end

end Window

end MarketDepth
