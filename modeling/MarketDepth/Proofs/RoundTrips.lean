import Mathlib.Data.List.Basic
import MarketDepth.Proofs.JsonText
import MarketDepth.Proofs.Numerals
import MarketDepth.Wire.Snapshot

/-! Snapshots and change-sets written as JSON and read back. -/

namespace MarketDepth

theorem head?_toDigits_ne_zero {n : Nat} (hn : 0 < n) : (Nat.toDigits 10 n).head? ≠ some '0' := by
  induction n using Nat.strongRecOn with
  | ind n ih =>
    rw [Nat.toDigits_eq_if (by decide)]
    split_ifs with hlt
    · have hall : ∀ k < 10, 0 < k → [Nat.digitChar k].head? ≠ some '0' := by decide
      exact hall n hlt hn
    · rw [List.head?_append_of_ne_nil _ Nat.toDigits_ne_nil]
      exact ih _ (by omega) (by omega)

theorem isDigit_toDigits (n : Nat) : ∀ c ∈ Nat.toDigits 10 n, c.isDigit = true := fun _ h =>
  Nat.isDigit_of_mem_toDigits (by decide) (by decide) h

namespace Layout

variable {layout : Layout} {negative : Bool} {ds : List Char}

theorem legible_place (hds : ∀ c ∈ ds, c.isDigit = true) (hne : ds ≠ []) (hlead : ds.head? ≠ some '0')
    (k : Int) : (layout.place negative ds k).Legible := by
  have hzeros : ∀ (n : Nat), ∀ c ∈ List.replicate n '0', c.isDigit = true := by
    intro n c hc
    rw [(List.mem_replicate.mp hc).2]
    rfl
  unfold place
  split_ifs with hsmall hinner
  · refine ⟨hzeros 1, List.cons_ne_nil _ _, fun _ => rfl, fun c hc => ?_, nofun⟩
    exact (List.mem_append.mp hc).elim (hzeros _ c) (hds c)
  · have hk : k.toNat ≠ 0 := by omega
    refine ⟨fun c hc => hds c (List.mem_of_mem_take hc), ?_, fun h => ?_,
      fun c hc => hds c (List.mem_of_mem_drop hc), nofun⟩
    · rw [ne_eq, List.take_eq_nil_iff]
      exact not_or_intro hk hne
    · rw [List.head?_take, if_neg hk] at h
      exact absurd h hlead
  all_goals
    refine ⟨fun c hc => (List.mem_append.mp hc).elim (hds c) (hzeros _ c), ?_, fun h => ?_, ?_, nofun⟩
    · exact List.append_ne_nil_of_left_ne_nil hne _
    · rw [List.head?_append_of_ne_nil _ hne] at h
      exact absurd h hlead
  · exact hzeros 1
  · nofun

theorem legible_scale (hds : ∀ c ∈ ds, c.isDigit = true) (hne : ds ≠ []) (e : Int) :
    (scale negative ds e).Legible := by
  obtain ⟨d, ds, rfl⟩ := List.exists_cons_of_ne_nil hne
  refine ⟨fun c hc => hds c (List.mem_of_mem_take hc), List.cons_ne_nil _ _, fun _ => rfl,
    fun c hc => hds c (List.mem_of_mem_drop hc), ?_⟩
  rintro _ ⟨⟩
  exact ⟨Nat.toDigits_ne_nil, isDigit_toDigits _⟩

end Layout

namespace Json

theorem legible_numeral {x : Float} (hx : x.isFinite = true) : (layout.numeral x).Legible := by
  by_cases hz : (Binary.ofFloat x).significand = 0
  · rw [numeral_zero hz]
    have hdigits : ∀ c ∈ ['0'], c.isDigit = true := List.forall_mem_singleton.mpr rfl
    exact ⟨hdigits, List.cons_ne_nil _ _, fun _ => rfl, hdigits, nofun⟩
  · have hb := Binary.regular_ofFloat hx hz
    have hpos := (Binary.shortened_shortest hb .even).digits_pos hb
    rw [layout_numeral hz rfl rfl]
    split_ifs
    · exact Layout.legible_place (isDigit_toDigits _) Nat.toDigits_ne_nil
        (head?_toDigits_ne_zero hpos) _
    · exact Layout.legible_scale (isDigit_toDigits _) Nat.toDigits_ne_nil _

theorem legible_ofInt (i : Int) : (Numeral.ofInt i).Legible := by
  refine ⟨isDigit_toDigits _, Nat.toDigits_ne_nil, fun h => ?_, nofun, nofun⟩
  have hzero : i.natAbs = 0 := by
    by_contra hne
    exact head?_toDigits_ne_zero (Nat.pos_of_ne_zero hne) h
  rw [Numeral.ofInt, hzero]
  rfl

/-- Integers are read as they are as long as sixty-four bits hold them. -/
theorem value_ofInt {i : Int} (hlo : -0x8000000000000000 ≤ i) (hhi : i < 0x10000000000000000) :
    (Numeral.ofInt i).value = some (.integer i) := by
  have hsize : UInt64.size = 0x10000000000000000 := rfl
  have hinteger : (Numeral.ofInt i).integer? = some i := by
    simp only [Numeral.integer?, Numeral.ofInt, Nat.ofDigitChars_ten_toDigits, decide_eq_true_eq,
      List.isEmpty_nil, Option.isNone_none, Bool.and_self, if_true]
    split_ifs <;> (congr 1; omega)
  rw [Numeral.value, hinteger]

end Json

/-! Reading records -/

namespace Json

variable {σ α : Type}

theorem readMembers_cons {fields : List (Field σ)} {field : Field σ} {draft draft' : σ} {key : String}
    {value : Json} {rest : List (Json × Json)} {result : Except Fault σ}
    (hfind : fields.find? (fun field => field.name == key) = some field)
    (hgiven : field.given draft = false) (hread : field.read draft value = .ok draft')
    (hrest : Form.readMembers fields draft' rest = result) :
    Form.readMembers fields draft ((.string key, value) :: rest) = result := by
  simp [Form.readMembers, hfind, hgiven, hread, hrest]

theorem read_record {form : Form σ α} {members : List (String × Json)} {draft : σ} {a : α}
    (hread : Form.readMembers form.fields form.draft
      (members.map fun member => (.string member.1, member.2)) = .ok draft)
    (hbuild : form.build ⟨fun _ name => .missingField name, true⟩ draft = .ok a) :
    form.read (.record members) = .ok a := by
  simp only [Form.read, record, hread, bind, Except.bind, hbuild]

theorem ofOption_read {β : Type} {name : String} {get : σ → Option β} {set : σ → Option β → σ}
    {read : Json → Except Fault β} {json : Json} {b : β} (h : read json = .ok b) (draft : σ) :
    (Field.ofOption name get set read).read draft json = .ok (set draft (some b)) := by
  simp only [Field.ofOption, h, Except.map]

theorem toFloat_ofFloat {x : Float} (hx : x.isFinite = true) : ∃ y, (ofFloat x).toFloat = .ok y ∧
    y.isNaN = false ∧ ((layout.numeral x).Exact → y = x) := by
  rw [ofFloat, if_pos hx]
  obtain ⟨y, hy, hnan⟩ := exists_value_numeral hx
  refine ⟨y, by simp only [toFloat, hy]; rfl, hnan, fun h => ?_⟩
  have := hy.symm.trans (value_numeral_exact hx h)
  simpa using this

theorem toInteger_ofInt {i low high : Int} (hlo : -0x8000000000000000 ≤ i)
    (hhi : i < 0x10000000000000000) (hin : low ≤ i ∧ i ≤ high) (expected : String) :
    (ofInt i).toInteger low high expected = .ok i := by
  simp only [toInteger, ofInt, value_ofInt hlo hhi, if_pos hin]

theorem toInt64_ofInt (i : Int64) : (ofInt i.toInt).toInt64 = .ok i := by
  have hlo : -0x8000000000000000 ≤ i.toInt := i.le_toInt
  have hhi : i.toInt < 0x8000000000000000 := i.toInt_lt
  have hmin : Int64.minValue.toInt = -0x8000000000000000 := rfl
  have hmax : Int64.maxValue.toInt = 0x7FFFFFFFFFFFFFFF := rfl
  rw [toInt64, toInteger_ofInt hlo (by omega) (by omega)]
  simp [Except.map]

theorem toInteger_ofNat (n : UInt64) (expected : String) :
    (ofInt n.toNat).toInteger 0 0xFFFFFFFFFFFFFFFF expected = .ok n.toNat := by
  have hlt : n.toNat < 0x10000000000000000 := n.toNat_lt
  exact toInteger_ofInt (by omega) (by omega) (by omega) expected

theorem toUInt64_ofInt (n : UInt64) : (ofInt n.toNat).toUInt64 = .ok n := by
  simp [toUInt64, toInteger_ofNat, Except.map]

theorem toCount_ofInt (n : UInt64) : (ofInt n.toNat).toCount = .ok n := by
  simp [toCount, toInteger_ofNat, Except.map]

theorem legible_ofFloat {x : Float} (hx : x.isFinite = true) : (ofFloat x).Legible := by
  rw [ofFloat, if_pos hx, Legible]
  exact legible_numeral hx

theorem legible_array {items : List Json} (h : ∀ item ∈ items, item.Legible) :
    (array items).Legible := by
  rw [Legible]
  induction items with
  | nil => trivial
  | cons item items ih =>
    obtain ⟨hitem, hitems⟩ := List.forall_mem_cons.mp h
    exact ⟨hitem, ih hitems⟩

theorem legible_record {members : List (String × Json)} (h : ∀ member ∈ members, member.2.Legible) :
    (record members).Legible := by
  rw [record, Legible]
  induction members with
  | nil => trivial
  | cons member members ih =>
    obtain ⟨hmember, hmembers⟩ := List.forall_mem_cons.mp h
    exact ⟨trivial, hmember, ih hmembers⟩

/-- A legible value is read from its text as from itself. -/
theorem parse_text {json : Json} {read : Json → Except Fault α} {a : α} (h : json.Legible)
    (hread : read json = .ok a) : parse read json.text = .ok a := by
  simp only [parse, ofText_text h, hread, bind, Except.bind]
  rfl

end Json

namespace Level

/-- A level with a finite price and a finite size. -/
structure Finite (level : Level) : Prop where
  price : level.price.value.isFinite = true
  size : level.size.isFinite = true

/-- A level whose numbers have exact numerals. -/
structure Exact (level : Level) : Prop where
  price : (Json.layout.numeral level.price.value).Exact
  size : (Json.layout.numeral level.size).Exact

/-- What a level is read back as: numbers with exact numerals as they were. -/
structure Restored (level back : Level) : Prop where
  price : (Json.layout.numeral level.price.value).Exact → back.price = level.price
  size : (Json.layout.numeral level.size).Exact → back.size = level.size
  time : back.time = level.time

theorem ofJson_toJson {level : Level} (h : level.Finite) :
    ∃ back, Level.ofJson level.toJson = .ok back ∧ level.Restored back := by
  obtain ⟨price, hprice, hnan, hsame⟩ := Json.toFloat_ofFloat h.price
  obtain ⟨size, hsize, -, hsame'⟩ := Json.toFloat_ofFloat h.size
  have hp : Price.ofJson level.price.toJson = .ok ⟨price, hnan⟩ := by
    simp only [Price.ofJson, Price.toJson, hprice, bind, Except.bind, Price.ofFloat?, dif_pos hnan]
    rfl
  have ht := Json.toInt64_ofInt level.time
  refine ⟨⟨⟨price, hnan⟩, size, level.time⟩, ?_, fun h => ?_, hsame', rfl⟩
  · refine Json.read_record (Json.readMembers_cons rfl rfl (Json.ofOption_read hp _)
      (Json.readMembers_cons rfl rfl (Json.ofOption_read hsize _)
        (Json.readMembers_cons rfl rfl (Json.ofOption_read ht _) rfl))) rfl
  · obtain ⟨⟨value, hvalue⟩, size, time⟩ := level
    obtain rfl : price = value := hsame h
    rfl

theorem legible_toJson {level : Level} (h : level.Finite) : level.toJson.Legible := by
  refine Json.legible_record ?_
  simp only [List.forall_mem_cons, Price.toJson]
  exact ⟨Json.legible_ofFloat h.price, Json.legible_ofFloat h.size, Json.legible_ofInt _, nofun⟩

theorem Restored.eq {level back : Level} (h : level.Restored back) (hexact : level.Exact) :
    back = level := by
  obtain ⟨price, size, time⟩ := back
  obtain rfl := h.price hexact.price
  obtain rfl := h.size hexact.size
  obtain rfl := h.time
  rfl

theorem toList_toJson {levels : List Level} (h : ∀ level ∈ levels, level.Finite) :
    ∃ backs, Json.toList Level.ofJson (.array (levels.map Level.toJson)) = .ok backs ∧
      List.Forall₂ Level.Restored levels backs := by
  induction levels with
  | nil => exact ⟨[], rfl, .nil⟩
  | cons level levels ih =>
    obtain ⟨hlevel, hlevels⟩ := List.forall_mem_cons.mp h
    obtain ⟨back, hback, hrestored⟩ := ofJson_toJson hlevel
    obtain ⟨backs, hbacks, hall⟩ := ih hlevels
    refine ⟨back :: backs, ?_, .cons hrestored hall⟩
    simp only [Json.toList] at hbacks ⊢
    rw [List.map_cons, List.mapM_cons, hback, hbacks]
    rfl

theorem legible_levels {levels : List Level} (h : ∀ level ∈ levels, level.Finite) :
    Json.Legible (.array (levels.map Level.toJson)) :=
  Json.legible_array fun _ hjson => by
    obtain ⟨level, hlevel, rfl⟩ := List.mem_map.mp hjson
    exact legible_toJson (h level hlevel)

theorem eq_of_restored {levels backs : List Level} (h : List.Forall₂ Level.Restored levels backs)
    (hexact : ∀ level ∈ levels, level.Exact) : backs = levels := by
  induction h with
  | nil => rfl
  | cons hlevel _ ih =>
    obtain ⟨hfirst, hrest⟩ := List.forall_mem_cons.mp hexact
    rw [hlevel.eq hfirst, ih hrest]

end Level

namespace Levels

/-- Finite prices and sizes on both sides. -/
structure Finite (levels : Levels) : Prop where
  asks : ∀ level ∈ levels.asks, level.Finite
  bids : ∀ level ∈ levels.bids, level.Finite

structure Exact (levels : Levels) : Prop where
  asks : ∀ level ∈ levels.asks, level.Exact
  bids : ∀ level ∈ levels.bids, level.Exact

structure Restored (levels back : Levels) : Prop where
  asks : List.Forall₂ Level.Restored levels.asks back.asks
  bids : List.Forall₂ Level.Restored levels.bids back.bids

theorem Restored.eq {levels back : Levels} (h : levels.Restored back) (hexact : levels.Exact) :
    back = levels := by
  obtain ⟨asks, bids⟩ := back
  obtain rfl := Level.eq_of_restored h.asks hexact.asks
  obtain rfl := Level.eq_of_restored h.bids hexact.bids
  rfl

theorem ofJson_toJson {levels : Levels} (h : levels.Finite) :
    ∃ back, Levels.ofJson levels.toJson = .ok back ∧ levels.Restored back := by
  obtain ⟨asks, hasks, hasks'⟩ := Level.toList_toJson h.asks
  obtain ⟨bids, hbids, hbids'⟩ := Level.toList_toJson h.bids
  exact ⟨⟨asks, bids⟩,
    Json.read_record (Json.readMembers_cons rfl rfl (Json.ofOption_read hasks _)
      (Json.readMembers_cons rfl rfl (Json.ofOption_read hbids _) rfl)) rfl, hasks', hbids'⟩

theorem legible_toJson {levels : Levels} (h : levels.Finite) : levels.toJson.Legible := by
  refine Json.legible_record ?_
  simp only [List.forall_mem_cons]
  exact ⟨Level.legible_levels h.asks, Level.legible_levels h.bids, nofun⟩

end Levels

namespace ChangeSet

structure Finite (changes : ChangeSet) : Prop where
  additions : changes.additions.Finite
  updates : changes.updates.Finite
  removals : changes.removals.Finite

structure Exact (changes : ChangeSet) : Prop where
  additions : changes.additions.Exact
  updates : changes.updates.Exact
  removals : changes.removals.Exact

structure Restored (changes back : ChangeSet) : Prop where
  additions : changes.additions.Restored back.additions
  updates : changes.updates.Restored back.updates
  removals : changes.removals.Restored back.removals

theorem Restored.eq {changes back : ChangeSet} (h : changes.Restored back)
    (hexact : changes.Exact) : back = changes := by
  obtain ⟨additions, updates, removals⟩ := back
  obtain rfl := h.additions.eq hexact.additions
  obtain rfl := h.updates.eq hexact.updates
  obtain rfl := h.removals.eq hexact.removals
  rfl

theorem legible_toJson {changes : ChangeSet} (h : changes.Finite) : changes.toJson.Legible := by
  refine Json.legible_record ?_
  simp only [List.forall_mem_cons]
  exact ⟨Levels.legible_toJson h.additions, Levels.legible_toJson h.updates,
    Levels.legible_toJson h.removals, nofun⟩

theorem parse_text {changes : ChangeSet} (h : changes.Finite) :
    ∃ back, Json.parse ChangeSet.ofJson changes.toJson.text = .ok back ∧ changes.Restored back := by
  obtain ⟨additions, hadditions, hadditions'⟩ := Levels.ofJson_toJson h.additions
  obtain ⟨updates, hupdates, hupdates'⟩ := Levels.ofJson_toJson h.updates
  obtain ⟨removals, hremovals, hremovals'⟩ := Levels.ofJson_toJson h.removals
  exact ⟨⟨additions, updates, removals⟩, Json.parse_text (legible_toJson h)
    (Json.read_record (Json.readMembers_cons rfl rfl (Json.ofOption_read hadditions _)
      (Json.readMembers_cons rfl rfl (Json.ofOption_read hupdates _)
        (Json.readMembers_cons rfl rfl (Json.ofOption_read hremovals _) rfl))) rfl),
    hadditions', hupdates', hremovals'⟩

end ChangeSet

namespace Snapshot

/-- What a snapshot is read back as. -/
structure Restored (snapshot back : Snapshot) : Prop where
  symbol : back.symbol = snapshot.symbol
  source : back.source = snapshot.source
  version : back.version = snapshot.version
  levels : snapshot.levels.Restored back.levels
  checksum : back.checksum = snapshot.checksum

theorem Restored.eq {snapshot back : Snapshot} (h : snapshot.Restored back)
    (hexact : snapshot.levels.Exact) : back = snapshot := by
  obtain ⟨symbol, source, version, levels, checksum⟩ := back
  obtain rfl := h.symbol
  obtain rfl := h.source
  obtain rfl := h.version
  obtain rfl := h.levels.eq hexact
  obtain rfl := h.checksum
  rfl

theorem legible_toJson {snapshot : Snapshot} (h : snapshot.levels.Finite) :
    snapshot.toJson.Legible := by
  refine Json.legible_record ?_
  simp only [List.forall_mem_cons]
  exact ⟨trivial, trivial, Json.legible_ofInt _, Level.legible_levels h.asks,
    Level.legible_levels h.bids, trivial, nofun⟩

theorem parse_text {snapshot : Snapshot} (h : snapshot.levels.Finite) :
    ∃ back, Json.parse Snapshot.ofJson snapshot.toJson.text = .ok back ∧
      snapshot.Restored back := by
  obtain ⟨asks, hasks, hasks'⟩ := Level.toList_toJson h.asks
  obtain ⟨bids, hbids, hbids'⟩ := Level.toList_toJson h.bids
  have hsymbol : Symbol.ofJson snapshot.symbol.toJson = .ok snapshot.symbol := rfl
  have hsource : Source.ofJson snapshot.source.toJson = .ok snapshot.source := rfl
  have hversion := Json.toUInt64_ofInt snapshot.version
  have hchecksum : Json.toText (.string snapshot.checksum) = .ok snapshot.checksum := rfl
  refine ⟨⟨snapshot.symbol, snapshot.source, snapshot.version, ⟨asks, bids⟩, snapshot.checksum⟩,
    Json.parse_text (legible_toJson h) ?_, rfl, rfl, rfl, ⟨hasks', hbids'⟩, rfl⟩
  exact Json.read_record (Json.readMembers_cons rfl rfl (Json.ofOption_read hsymbol _)
    (Json.readMembers_cons rfl rfl (Json.ofOption_read hsource _)
      (Json.readMembers_cons rfl rfl (Json.ofOption_read hversion _)
        (Json.readMembers_cons rfl rfl (Json.ofOption_read hasks _)
          (Json.readMembers_cons rfl rfl (Json.ofOption_read hbids _)
            (Json.readMembers_cons rfl rfl (Json.ofOption_read hchecksum _) rfl)))))) rfl

end Snapshot

namespace Json

/-- Every snapshot and every change-set with finite prices and sizes is read back from its text. Names,
versions, times and checksums are as they were, and so is every price and size whose numeral is exact.
A number whose numeral is not exact may come back as a neighbour, and the checksum no longer fits. -/
theorem round_trip (snapshot : Snapshot) (changes : ChangeSet) :
    (snapshot.levels.Finite →
      ∃ back, parse Snapshot.ofJson snapshot.toJson.text = .ok back ∧ snapshot.Restored back ∧
        (snapshot.levels.Exact → back = snapshot ∧ back.verify = snapshot.verify)) ∧
    (changes.Finite →
      ∃ back, parse ChangeSet.ofJson changes.toJson.text = .ok back ∧ changes.Restored back ∧
        (changes.Exact → back = changes)) := by
  refine ⟨fun h => ?_, fun h => ?_⟩
  · obtain ⟨back, hparse, hrestored⟩ := Snapshot.parse_text h
    refine ⟨back, hparse, hrestored, fun hexact => ?_⟩
    obtain rfl := hrestored.eq hexact
    exact ⟨rfl, rfl⟩
  · obtain ⟨back, hparse, hrestored⟩ := ChangeSet.parse_text h
    exact ⟨back, hparse, hrestored, hrestored.eq⟩

/-- Size 0.3 at 100.1, at a time before the epoch. -/
def exactLevel : Level :=
  ⟨⟨.ofBits 0x4059066666666666, by decide⟩, .ofBits 0x3FD3333333333333, -1⟩

theorem finite_exactLevel : exactLevel.Finite := ⟨by decide, by decide⟩

theorem exact_exactLevel : exactLevel.Exact :=
  ⟨.of_lt (by decide +kernel) (by decide +kernel), .of_lt (by decide +kernel) (by decide +kernel)⟩

def exactSnapshot : Snapshot :=
  .ofLevels ⟨"\"front\"\n"⟩ ⟨"a\\b"⟩ 0xFFFFFFFFFFFFFFFF ⟨[exactLevel], [exactLevel]⟩

def exactChanges : ChangeSet := { updates := ⟨[], [exactLevel]⟩ }

theorem round_trip_exact : exactSnapshot.levels.Finite ∧ exactSnapshot.levels.Exact ∧
    parse Snapshot.ofJson exactSnapshot.toJson.text = .ok exactSnapshot ∧
    exactChanges.Finite ∧ exactChanges.Exact ∧
    parse ChangeSet.ofJson exactChanges.toJson.text = .ok exactChanges := by
  have hnone : ∀ {p : Level → Prop}, ∀ level ∈ ([] : List Level), p level := nofun
  have hfinite : ∀ level ∈ [exactLevel], level.Finite :=
    List.forall_mem_singleton.mpr finite_exactLevel
  have hexact : ∀ level ∈ [exactLevel], level.Exact :=
    List.forall_mem_singleton.mpr exact_exactLevel
  have hsfinite : exactSnapshot.levels.Finite := ⟨hfinite, hfinite⟩
  have hsexact : exactSnapshot.levels.Exact := ⟨hexact, hexact⟩
  have hcfinite : exactChanges.Finite := ⟨⟨hnone, hnone⟩, ⟨hnone, hfinite⟩, ⟨hnone, hnone⟩⟩
  have hcexact : exactChanges.Exact := ⟨⟨hnone, hnone⟩, ⟨hnone, hexact⟩, ⟨hnone, hnone⟩⟩
  refine ⟨hsfinite, hsexact, ?_, hcfinite, hcexact, ?_⟩
  · obtain ⟨back, hparse, -, hsame⟩ := (round_trip exactSnapshot exactChanges).1 hsfinite
    rwa [(hsame hsexact).1] at hparse
  · obtain ⟨back, hparse, -, hsame⟩ := (round_trip exactSnapshot exactChanges).2 hcfinite
    rwa [hsame hcexact] at hparse

/-- Size 0.01 and 0.2, added up, at 10.0. -/
def unevenLevels : Levels :=
  ⟨[⟨⟨.ofBits 0x4024000000000000, by decide⟩, .ofBits 0x3FCAE147AE147AE2, 0⟩], []⟩

/-- Size 0.21 at 10.0. -/
def evenLevels : Levels :=
  ⟨[⟨⟨.ofBits 0x4024000000000000, by decide⟩, .ofBits 0x3FCAE147AE147AE1, 0⟩], []⟩

def unevenSnapshot : Snapshot where
  symbol := ⟨"X"⟩
  source := ⟨"Y"⟩
  version := 1
  levels := unevenLevels
  checksum := "dec7164f69051bf512d746404101a8da2b06838158e5059c6703fb4cee288d07"

/-- The sum is written with seventeen digits and read back as 0.21. -/
theorem round_trip_uneven : unevenSnapshot.levels.Finite ∧ unevenSnapshot.verify = true ∧
    ∃ back, parse Snapshot.ofJson unevenSnapshot.toJson.text = .ok back ∧
      back.levels.asks.map (·.size.toBits) = [0x3FCAE147AE147AE1] ∧ back.verify = false := by
  have hfinite : unevenSnapshot.levels.Finite :=
    ⟨List.forall_mem_singleton.mpr ⟨by decide, by decide⟩, nofun⟩
  have hread : ((Snapshot.ofJson unevenSnapshot.toJson).toOption.map fun back =>
      (back.levels.asks.map (·.size.toBits), back.levels.content, back.checksum)) =
        some ([0x3FCAE147AE147AE1], evenLevels.content, unevenSnapshot.checksum) := by
    decide +kernel
  have hdiffers : (evenLevels.checksum == unevenSnapshot.checksum) = false := by decide +kernel
  refine ⟨hfinite, by decide +kernel, ?_⟩
  cases hback : Snapshot.ofJson unevenSnapshot.toJson with
  | error fault =>
    rw [hback] at hread
    cases hread
  | ok back =>
    rw [hback] at hread
    obtain ⟨hsizes, hfound⟩ := Prod.ext_iff.mp (Option.some_inj.mp hread)
    obtain ⟨hcontent, hchecksum⟩ := Prod.ext_iff.mp hfound
    refine ⟨back, parse_text (Snapshot.legible_toJson hfinite) hback, hsizes, ?_⟩
    have hlevels : back.levels.checksum = evenLevels.checksum :=
      congrArg (Sha256.hex ∘ Sha256.digest) hcontent
    have hkept : back.checksum = unevenSnapshot.checksum := hchecksum
    rw [Snapshot.verify, hlevels, hkept, hdiffers]

end Json

end MarketDepth
