import Mathlib.Data.List.Basic
import Mathlib.Data.Set.Function
import MarketDepth.Replica

/-! What the checksum of a book tells. Every level takes sixteen bytes, so the content of the checksum
says how many levels there are, but not where the asks end: the marker before the bids is also a byte
that a level may hold. Books that cannot be mistaken in this way have the checksum of no other. -/

namespace MarketDepth

theorem length_littleEndian (x : Float) : (littleEndian x).length = 8 := by
  simp [littleEndian]

theorem toBits_of_littleEndian {x y : Float} (h : littleEndian x = littleEndian y) :
    x.toBits = y.toBits := by
  have hx : x.toBits.toNat < 2 ^ 64 := x.toBits.toNat_lt
  have hy : y.toBits.toNat < 2 ^ 64 := y.toBits.toNat_lt
  have hbyte : ∀ i < 8, x.toBits.toNat / 2 ^ (8 * i) % 256 = y.toBits.toNat / 2 ^ (8 * i) % 256 := by
    intro i hi
    have hi' := congrArg UInt8.toNat (List.map_inj_left.mp h i (List.mem_range.mpr hi))
    simpa [Nat.shiftRight_eq_div_pow] using hi'
  have hmod : ∀ i ≤ 8, x.toBits.toNat % 2 ^ (8 * i) = y.toBits.toNat % 2 ^ (8 * i) := by
    intro i hi
    induction i with
    | zero => rw [Nat.mul_zero, Nat.pow_zero, Nat.mod_one, Nat.mod_one]
    | succ i ih =>
      have hnext : 2 ^ (8 * (i + 1)) = 2 ^ (8 * i) * 256 := by rw [Nat.mul_succ, Nat.pow_add]
      rw [hnext, Nat.mod_mul, Nat.mod_mul, ih (by omega), hbyte i (by omega)]
  refine UInt64.toNat_inj.mp ?_
  rw [← Nat.mod_eq_of_lt hx, ← Nat.mod_eq_of_lt hy]
  exact hmod 8 le_rfl

namespace Level

def bits (level : Level) : UInt64 × UInt64 := (level.price.value.toBits, level.size.toBits)

theorem length_bytes (level : Level) : level.bytes.length = 16 := by
  simp [bytes, length_littleEndian]

theorem bytes_eq_iff {l m : Level} : l.bytes = m.bytes ↔ l.bits = m.bits := by
  constructor
  · intro h
    obtain ⟨hprice, hsize⟩ := List.append_inj h (by rw [length_littleEndian, length_littleEndian])
    exact Prod.ext (toBits_of_littleEndian hprice) (toBits_of_littleEndian hsize)
  · intro h
    obtain ⟨hprice, hsize⟩ := Prod.ext_iff.mp h
    have hle : ∀ {x y : Float}, x.toBits = y.toBits → littleEndian x = littleEndian y := by
      intro x y hxy
      rw [littleEndian, hxy, littleEndian]
    exact congrArg₂ _ (hle hprice) (hle hsize)

theorem length_flatMap_bytes (levels : List Level) :
    (levels.flatMap bytes).length = 16 * levels.length := by
  induction levels with
  | nil => rfl
  | cons l rest ih =>
    rw [List.flatMap_cons, List.length_append, length_bytes, ih, List.length_cons]
    omega

theorem getElem?_flatMap_bytes (levels : List Level) (n : Nat) :
    (levels.flatMap bytes)[n]? = levels[n / 16]?.bind (·.bytes[n % 16]?) := by
  induction levels generalizing n with
  | nil => rfl
  | cons l rest ih =>
    rw [List.flatMap_cons]
    by_cases hn : n < 16
    · rw [List.getElem?_append_left (by rwa [length_bytes]), Nat.div_eq_of_lt hn,
        Nat.mod_eq_of_lt hn]
      rfl
    · obtain ⟨m, rfl⟩ := Nat.exists_eq_add_of_le' (Nat.not_lt.mp hn)
      rw [List.getElem?_append_right (by rw [length_bytes]; omega), length_bytes,
        Nat.add_sub_cancel, ih, Nat.add_div_right m (by decide), Nat.add_mod_right]
      rfl

theorem exists_of_getElem?_flatMap {levels : List Level} {k i : Nat} {byte : UInt8}
    (h : (levels.flatMap bytes)[16 * k + i]? = some byte) (hi : i < 16) :
    ∃ l ∈ levels, l.bytes[i]? = some byte := by
  have hdiv : (16 * k + i) / 16 = k := by omega
  have hmod : (16 * k + i) % 16 = i := by omega
  rw [getElem?_flatMap_bytes, hdiv, hmod, Option.bind_eq_some_iff] at h
  obtain ⟨l, hl, hbyte⟩ := h
  exact ⟨l, List.mem_of_getElem? hl, hbyte⟩

theorem flatMap_bytes_eq_iff {ls ms : List Level} :
    ls.flatMap bytes = ms.flatMap bytes ↔ ls.map bits = ms.map bits := by
  induction ls generalizing ms with
  | nil =>
    cases ms with
    | nil => exact iff_of_true rfl rfl
    | cons m ms =>
      have hlen : (List.flatMap bytes (m :: ms)).length ≠ 0 := by
        rw [length_flatMap_bytes, List.length_cons]
        omega
      exact iff_of_false (fun h => hlen (by rw [← h]; rfl)) nofun
  | cons l ls ih =>
    cases ms with
    | nil =>
      have hlen : (List.flatMap bytes (l :: ls)).length ≠ 0 := by
        rw [length_flatMap_bytes, List.length_cons]
        omega
      exact iff_of_false (fun h => hlen (by rw [h]; rfl)) nofun
    | cons m ms =>
      rw [List.flatMap_cons, List.flatMap_cons, List.map_cons, List.map_cons, List.cons.injEq, ← ih,
        ← bytes_eq_iff]
      constructor
      · intro h
        exact List.append_inj h (by rw [length_bytes, length_bytes])
      · rintro ⟨hl, hls⟩
        rw [hl, hls]

end Level

namespace Levels

/-- The same prices and sizes bit by bit, each on its side. Times do not count. -/
def SameBits (a b : Levels) : Prop :=
  a.asks.map Level.bits = b.asks.map Level.bits ∧ a.bids.map Level.bits = b.bids.map Level.bits

/-- A size among the bids of one book ends in the marker of the bids and a price among the asks of the
other begins with it, so that bids of the one could be asks of the other. -/
def Mistakable (a b : Levels) : Prop :=
  (∃ l ∈ a.bids, l.bytes[15]? = some 0x42) ∧ ∃ l ∈ b.asks, l.bytes[0]? = some 0x42

variable {a b : Levels}

theorem content_eq_iff_of_length (h : a.asks.length = b.asks.length) :
    a.content = b.content ↔ a.SameBits b := by
  rw [SameBits, ← Level.flatMap_bytes_eq_iff, ← Level.flatMap_bytes_eq_iff]
  constructor
  · intro hc
    obtain ⟨hasks, hbids⟩ := List.append_inj (List.cons.inj hc).2
      (by rw [Level.length_flatMap_bytes, Level.length_flatMap_bytes, h])
    exact ⟨hasks, (List.cons.inj hbids).2⟩
  · rintro ⟨hasks, hbids⟩
    rw [content, hasks, hbids, content]

/-- Of two books with one content and different numbers of asks, each has its marker in the middle of
levels of the other. -/
theorem mistakable_of_content (h : a.content = b.content) (hlt : a.asks.length < b.asks.length) :
    a.Mistakable b := by
  have hrest : a.asks.flatMap Level.bytes ++ 0x42 :: a.bids.flatMap Level.bytes =
      b.asks.flatMap Level.bytes ++ 0x42 :: b.bids.flatMap Level.bytes := (List.cons.inj h).2
  have hlena := Level.length_flatMap_bytes a.asks
  have hlenb := Level.length_flatMap_bytes b.asks
  constructor
  · have hbyte : (a.bids.flatMap Level.bytes)[16 * (b.asks.length - a.asks.length - 1) + 15]? =
        some 0x42 := by
      have hat := congrArg (·[16 * b.asks.length]?) hrest
      rw [List.getElem?_append_right (by omega), List.getElem?_append_right hlenb.le, hlenb,
        Nat.sub_self, List.getElem?_cons_zero, hlena] at hat
      have hindex : 16 * b.asks.length - 16 * a.asks.length =
          16 * (b.asks.length - a.asks.length - 1) + 15 + 1 := by omega
      rwa [hindex, List.getElem?_cons_succ] at hat
    exact Level.exists_of_getElem?_flatMap hbyte (by omega)
  · have hbyte : (b.asks.flatMap Level.bytes)[16 * a.asks.length + 0]? = some 0x42 := by
      have hat := congrArg (·[16 * a.asks.length]?) hrest
      rw [List.getElem?_append_right hlena.le, hlena, Nat.sub_self, List.getElem?_cons_zero,
        List.getElem?_append_left (by omega)] at hat
      exact hat.symm
    exact Level.exists_of_getElem?_flatMap hbyte (by omega)

theorem content_eq_iff (hab : ¬ a.Mistakable b) (hba : ¬ b.Mistakable a) :
    a.content = b.content ↔ a.SameBits b := by
  constructor
  · intro h
    rcases lt_trichotomy a.asks.length b.asks.length with hlt | heq | hgt
    · exact absurd (mistakable_of_content h hlt) hab
    · exact (content_eq_iff_of_length heq).mp h
    · exact absurd (mistakable_of_content h.symm hgt) hba
  · intro h
    have hlen : a.asks.length = b.asks.length := by
      simpa only [List.length_map] using congrArg List.length h.1
    exact (content_eq_iff_of_length hlen).mpr h

end Levels

namespace Sha256

theorem hexDigit_inj : ∀ m < 16, ∀ n < 16, hexDigit m = hexDigit n → m = n := by
  decide

theorem hex_injective : Function.Injective hex := by
  intro xs ys h
  have hchars := String.ofList_injective h
  clear h
  induction xs generalizing ys with
  | nil => cases ys with
    | nil => rfl
    | cons y ys => cases hchars
  | cons x xs ih => cases ys with
    | nil => cases hchars
    | cons y ys =>
      simp only [List.flatMap_cons, List.cons_append, List.nil_append, List.cons.injEq] at hchars
      obtain ⟨hhigh, hlow, hrest⟩ := hchars
      have hx := x.toNat_lt
      have hy := y.toNat_lt
      have hdiv := hexDigit_inj _ (by omega) _ (by omega) hhigh
      have hmod := hexDigit_inj _ (by omega) _ (by omega) hlow
      rw [UInt8.toNat_inj.mp (show x.toNat = y.toNat by omega), ih hrest]

end Sha256

namespace Levels

variable {a b : Levels} {C : Set (List UInt8)}

theorem checksum_eq_iff (hC : Set.InjOn Sha256.digest C) (ha : a.content ∈ C) (hb : b.content ∈ C) :
    b.checksum = a.checksum ↔ a.content = b.content := by
  constructor
  · intro h
    exact hC ha hb (Sha256.hex_injective h.symm)
  · intro h
    rw [checksum, ← h, checksum]

/-- Where the digest has no collisions, books that cannot be mistaken for each other are told apart
by their checksums: a snapshot verifies with just the levels its checksum was made from, and a replica
agrees with a snapshot if it holds those levels, each on its side. -/
theorem checksum_identifies (hC : Set.InjOn Sha256.digest C) (ha : a.content ∈ C)
    (hb : b.content ∈ C) (hab : ¬ a.Mistakable b) (hba : ¬ b.Mistakable a) :
    (a.content = b.content ↔ a.SameBits b) ∧
    (∀ snapshot : Snapshot, snapshot.checksum = a.checksum → snapshot.levels = b →
      (snapshot.verify = true ↔ a.SameBits b)) ∧
    ∀ (replica : Replica) (snapshot : Snapshot), snapshot.checksum = a.checksum →
      replica.levels = b → (replica.agrees snapshot = true ↔ a.SameBits b) := by
  have hcontent := content_eq_iff hab hba
  have hchecksum := (checksum_eq_iff hC ha hb).trans hcontent
  refine ⟨hcontent, fun snapshot hmade hlevels => ?_, fun replica snapshot hmade hlevels => ?_⟩
  · rw [Snapshot.verify, hmade, hlevels, beq_iff_eq, hchecksum]
  · rw [Replica.agrees, Replica.checksum, hmade, hlevels, beq_iff_eq, hchecksum]

def hundred : Level := ⟨⟨.ofBits 0x4059000000000000, by decide⟩, .ofBits 0x4014000000000000, 0⟩

def askAtHundred : Levels := ⟨[hundred], []⟩

def bidAtHundred : Levels := ⟨[], [hundred]⟩

theorem checksum_identifies_hundred :
    (Set.InjOn Sha256.digest {askAtHundred.content, bidAtHundred.content} ∧
      ¬ askAtHundred.Mistakable bidAtHundred ∧ ¬ bidAtHundred.Mistakable askAtHundred) ∧
    ∀ snapshot : Snapshot, snapshot.checksum = askAtHundred.checksum →
      snapshot.levels = bidAtHundred → snapshot.verify = false := by
  have hC : Set.InjOn Sha256.digest {askAtHundred.content, bidAtHundred.content} := by
    have hne : Sha256.digest askAtHundred.content ≠ Sha256.digest bidAtHundred.content := by
      decide +kernel
    exact Set.injOn_pair.mpr fun h => absurd h hne
  have hab : ¬ askAtHundred.Mistakable bidAtHundred := by
    rintro ⟨⟨l, hl, -⟩, -⟩
    cases hl
  have hba : ¬ bidAtHundred.Mistakable askAtHundred := by
    rintro ⟨⟨l, hl, hlast⟩, -⟩
    obtain rfl := List.mem_singleton.mp hl
    cases hlast
  refine ⟨⟨hC, hab, hba⟩, fun snapshot hmade hlevels => ?_⟩
  have hverify :=
    (checksum_identifies hC (by simp) (by simp) hab hba).2.1 snapshot hmade hlevels
  rw [← Bool.not_eq_true, hverify]
  rintro ⟨hasks, -⟩
  cases hasks

/-- An ask just above 100, for just above 5. -/
def mistakenAsk : Levels :=
  ⟨[⟨⟨.ofBits 0x4059000000000042, by decide⟩, .ofBits 0x4014000000000040, 0⟩], []⟩

/-- A bid just below 33, for about 138 billion: the bytes of the ask, one place further on. -/
def mistakenBid : Levels :=
  ⟨[], [⟨⟨.ofBits 0x4040590000000000, by decide⟩, .ofBits 0x4240140000000000, 0⟩]⟩

/-- The marker of the bids does not tell where the asks end. -/
theorem checksum_mistakes_side : mistakenAsk.content = mistakenBid.content ∧
    ¬ mistakenAsk.SameBits mistakenBid ∧
    ∀ snapshot : Snapshot, snapshot.checksum = mistakenAsk.checksum →
      snapshot.levels = mistakenBid → snapshot.verify = true := by
  have hcontent : mistakenAsk.content = mistakenBid.content := by decide
  refine ⟨hcontent, ?_, fun snapshot hmade hlevels => ?_⟩
  · rintro ⟨hasks, -⟩
    cases hasks
  · rw [Snapshot.verify, hmade, hlevels, checksum, checksum, hcontent, beq_iff_eq]

end Levels

end MarketDepth
