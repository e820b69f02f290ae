import Mathlib.Data.List.TakeDrop
import MarketDepth.Json.Document
import MarketDepth.Json.Writer

/-! JSON texts read as the values they were written for. -/

namespace MarketDepth.Json

theorem hexValue_digitChar : ∀ n < 16, hexValue (Nat.digitChar n) = some n := by
  decide

theorem join_unit {n : Nat} (hn : n < 0x20) (ps : List Piece) :
    Piece.join (.unit n :: ps) = (Piece.join ps).map (Char.ofNat n :: ·) := by
  have hhigh : Piece.isHigh n = false := by simp [Piece.isHigh]; omega
  have hlow : Piece.isLow n = false := by simp [Piece.isLow]; omega
  cases ps with
  | nil => simp [Piece.join, hhigh, hlow]
  | cons p ps => cases p <;> simp [Piece.join, hhigh, hlow]

/-- What a character is written as is read as one piece that makes the character. -/
theorem pieces_escapeChar (c : Char) : ∃ p : Piece,
    (∀ ps, Piece.join (p :: ps) = (Piece.join ps).map (c :: ·)) ∧
      ∀ {rest ps tail}, pieces rest = some (ps, tail) →
        pieces (escapeChar c ++ rest) = some (p :: ps, tail) := by
  unfold escapeChar
  split
  case h_8 h1 h2 h3 h4 h5 h6 h7 =>
    split_ifs with hcontrol
    · refine ⟨.unit c.toNat, fun ps => by rw [join_unit hcontrol, Char.ofNat_toNat], fun h => ?_⟩
      have hhigh := hexValue_digitChar (c.toNat / 16) (by omega)
      have hlow := hexValue_digitChar (c.toNat % 16) (by omega)
      have hzero : hexValue '0' = some 0 := by decide
      simp only [List.cons_append, List.nil_append, pieces, hzero, hhigh, hlow, h]
      simp
      omega
    · refine ⟨.char c, fun _ => rfl, fun {rest ps tail} h => ?_⟩
      rw [List.singleton_append, pieces]
      · simp [hcontrol, h]
      · exact h1
      · rintro _ _ _ _ _ rfl
        exact absurd rfl h2
      · rintro _ _ rfl
        exact absurd rfl h2
  all_goals exact ⟨.char _, fun _ => rfl, fun h => by simp [pieces, unescape, h]⟩

theorem pieces_string (cs rest : List Char) : ∃ ps,
    pieces (cs.flatMap escapeChar ++ '"' :: rest) = some (ps, rest) ∧ Piece.join ps = some cs := by
  induction cs with
  | nil => exact ⟨[], by simp [pieces], rfl⟩
  | cons c cs ih =>
    obtain ⟨ps, hps, hjoin⟩ := ih
    obtain ⟨p, hp, hpieces⟩ := pieces_escapeChar c
    refine ⟨p :: ps, ?_, ?_⟩
    · rw [List.flatMap_cons, List.append_assoc]
      exact hpieces hps
    · rw [hp, hjoin]
      rfl

theorem next_string (s : String) (rest : List Char) :
    Token.next (stringChars s ++ rest) = (.string s, rest) := by
  obtain ⟨ps, hps, hjoin⟩ := pieces_string s.toList rest
  simp [Token.next, stringChars, hps, hjoin]

/-- What may follow a value in a text. -/
def Ends (rest : List Char) : Prop := ∀ c ∈ rest.head?, c ∈ [',', ']', '}', ':']

theorem digits_append {ds rest : List Char} (hds : ∀ c ∈ ds, c.isDigit = true)
    (hrest : ∀ c ∈ rest.head?, c.isDigit = false) : digits (ds ++ rest) = (ds, rest) := by
  have hend : rest.takeWhile Char.isDigit = [] ∧ rest.dropWhile Char.isDigit = rest := by
    cases rest with
    | nil => exact ⟨rfl, rfl⟩
    | cons c rest =>
      have hc : ¬ c.isDigit = true := by rw [hrest c rfl]; exact Bool.false_ne_true
      exact ⟨List.takeWhile_cons_of_neg hc, List.dropWhile_cons_of_neg hc⟩
  rw [digits, List.span_eq_takeWhile_dropWhile, List.takeWhile_append_of_pos hds,
    List.dropWhile_append_of_pos hds, hend.1, hend.2, List.append_nil]

end MarketDepth.Json

namespace MarketDepth

/-- A numeral as texts have them: digits with no zero in front but a lone one, and digits wherever the
point or the exponent asks for some. -/
structure Numeral.Legible (n : Numeral) : Prop where
  whole : ∀ c ∈ n.whole, c.isDigit = true
  nonempty : n.whole ≠ []
  lead : n.whole.head? = some '0' → n.whole.length = 1
  fraction : ∀ c ∈ n.fraction, c.isDigit = true
  exponent : ∀ e ∈ n.exponent, e.digits ≠ [] ∧ ∀ c ∈ e.digits, c.isDigit = true

namespace Json

theorem Ends.isDigit {rest : List Char} (h : Ends rest) : ∀ c ∈ rest.head?, c.isDigit = false := by
  intro c hc
  have hmem := h c hc
  simp only [List.mem_cons, List.not_mem_nil, or_false] at hmem
  rcases hmem with rfl | rfl | rfl | rfl <;> rfl

theorem exponent_chars {n : Numeral} (hn : n.Legible) {rest : List Char} (hrest : Ends rest) :
    exponent ((n.exponent.map Exponent.chars).getD [] ++ rest) = some (n.exponent, rest) := by
  cases he : n.exponent with
  | none =>
    cases rest with
    | nil => rfl
    | cons c rest =>
      have hc := hrest c rfl
      have hne : ¬ (c = 'e' ∨ c = 'E') := by
        rintro (rfl | rfl) <;> simp at hc
      simp [exponent, hne]
  | some e =>
    obtain ⟨negative, ds⟩ := e
    obtain ⟨hds, hdigits⟩ := hn.exponent _ he
    have hspan := digits_append hdigits hrest.isDigit
    cases negative <;> simp [exponent, exponentDigits, Exponent.chars, hspan, hds]

theorem head_exponent_chars (n : Numeral) {rest : List Char} (hrest : Ends rest) :
    ∀ c ∈ ((n.exponent.map Exponent.chars).getD [] ++ rest).head?, c.isDigit = false ∧ c ≠ '.' := by
  intro c hc
  cases he : n.exponent with
  | none =>
    rw [he] at hc
    refine ⟨hrest.isDigit c hc, ?_⟩
    rintro rfl
    simpa using hrest '.' hc
  | some e =>
    rw [he] at hc
    obtain rfl : 'e' = c := Option.some_inj.mp hc
    exact ⟨rfl, by decide⟩

theorem fraction_chars {n : Numeral} (hn : n.Legible) {tail : List Char}
    (htail : ∀ c ∈ tail.head?, c.isDigit = false ∧ c ≠ '.') :
    fraction ((if n.fraction.isEmpty then [] else '.' :: n.fraction) ++ tail) =
      some (n.fraction, tail) := by
  cases hf : n.fraction with
  | nil =>
    cases tail with
    | nil => rfl
    | cons c tail =>
      have hc : c ≠ '.' := (htail c rfl).2
      simp [fraction, hc]
  | cons d ds =>
    have hspan := digits_append (hf ▸ hn.fraction) fun c hc => (htail c hc).1
    rw [List.cons_append] at hspan
    simp [fraction, hspan]

theorem magnitude_chars {n : Numeral} (hn : n.Legible) {rest : List Char} (hrest : Ends rest) :
    magnitude n.negative (n.whole ++ ((if n.fraction.isEmpty then [] else '.' :: n.fraction) ++
      ((n.exponent.map Exponent.chars).getD [] ++ rest))) = some (n, rest) := by
  have htail := head_exponent_chars n hrest
  have hhead : ∀ c ∈ ((if n.fraction.isEmpty then [] else '.' :: n.fraction) ++
      ((n.exponent.map Exponent.chars).getD [] ++ rest)).head?, c.isDigit = false := by
    intro c hc
    split_ifs at hc
    · exact (htail c hc).1
    · obtain rfl : '.' = c := Option.some_inj.mp hc
      rfl
  have hlead : ¬ (n.whole.isEmpty || (n.whole.head? = some '0' && n.whole.length != 1)) = true := by
    have hempty := hn.nonempty
    have hzero := hn.lead
    simp only [Bool.or_eq_true, Bool.and_eq_true, decide_eq_true_eq, bne_iff_ne, not_or, not_and]
    exact ⟨by simpa using hempty, fun h => not_not_intro (hzero h)⟩
  have hfraction := fraction_chars hn htail
  have hexponent := exponent_chars hn hrest
  simp only [magnitude, digits_append hn.whole hhead, if_neg hlead, hfraction, Option.bind_eq_bind,
    Option.bind_some, hexponent]
  rfl

theorem numeral_chars {n : Numeral} (hn : n.Legible) {rest : List Char} (hrest : Ends rest) :
    numeral (n.chars ++ rest) = some (n, rest) := by
  have hmagnitude := magnitude_chars hn hrest
  rw [Numeral.chars, List.append_assoc, List.append_assoc, List.append_assoc]
  cases hneg : n.negative with
  | true =>
    rw [hneg] at hmagnitude
    exact hmagnitude
  | false =>
    rw [hneg] at hmagnitude
    obtain ⟨c, cs, hc⟩ := List.exists_cons_of_ne_nil hn.nonempty
    have hdigit := hn.whole c (by rw [hc]; exact List.mem_cons_self)
    rw [hc] at hmagnitude ⊢
    have hne : c ≠ '-' := by
      rintro rfl
      exact absurd hdigit (by decide)
    rw [List.cons_append] at hmagnitude ⊢
    simpa [numeral, hne] using hmagnitude

mutual

/-- A value that can be written: all of it is JSON, with numerals as texts have them. -/
def Legible : Json → Prop
  | .number n => n.Legible
  | .array items => LegibleItems items
  | .object members => LegibleMembers members
  | .unpaired | .broken => False
  | _ => True

def LegibleItems : List Json → Prop
  | [] => True
  | item :: rest => Legible item ∧ LegibleItems rest

def LegibleMembers : List (Json × Json) → Prop
  | [] => True
  | (key, value) :: rest => Legible key ∧ Legible value ∧ LegibleMembers rest

end

mutual

def tokens : Json → List Token
  | .null => [.null]
  | .bool b => [.bool b]
  | .number n => [.number n]
  | .string s => [.string s]
  | .array items => .openArray :: itemTokens items ++ [.closeArray]
  | .object members => .openObject :: memberTokens members ++ [.closeObject]
  | .unpaired | .broken => []

def itemTokens : List Json → List Token
  | [] => []
  | [item] => tokens item
  | item :: rest => tokens item ++ .comma :: itemTokens rest

def memberTokens : List (Json × Json) → List Token
  | [] => []
  | [(key, value)] => tokens key ++ .colon :: tokens value
  | (key, value) :: rest => tokens key ++ .colon :: tokens value ++ .comma :: memberTokens rest

end

/-- The text `cs`, with `rest` after it, is read as the tokens `ts`, one at a time. -/
structure Lexes (cs : List Char) (ts : List Token) (rest : List Char) : Prop where
  length_le : ts.length ≤ cs.length
  read : ∀ fuel, Token.read (ts.length + fuel) (cs ++ rest) = ts ++ Token.read fuel rest

namespace Lexes

variable {cs cs' rest : List Char} {ts ts' : List Token} {token : Token}

theorem nil (rest : List Char) : Lexes [] [] rest :=
  ⟨Nat.le_refl 0, fun fuel => by simp⟩

theorem append (h : Lexes cs ts (cs' ++ rest)) (h' : Lexes cs' ts' rest) :
    Lexes (cs ++ cs') (ts ++ ts') rest := by
  refine ⟨?_, fun fuel => ?_⟩
  · rw [List.length_append, List.length_append]
    exact Nat.add_le_add h.length_le h'.length_le
  · rw [List.length_append, Nat.add_assoc, List.append_assoc, List.append_assoc, h.read, h'.read]

theorem single (h : Token.next (cs ++ rest) = (token, rest))
    (hcs : ∃ c, cs.head? = some c ∧ isSpace c = false) : Lexes cs [token] rest := by
  obtain ⟨c, hc, hspace⟩ := hcs
  obtain ⟨cs, rfl⟩ := List.head?_eq_some_iff.mp hc
  refine ⟨Nat.succ_le_succ (Nat.zero_le _), fun fuel => ?_⟩
  rw [List.cons_append] at h ⊢
  rw [List.length_singleton, Nat.add_comm, Token.read,
    List.dropWhile_cons_of_neg (by simp [hspace])]
  simp only [h]
  rfl

end Lexes

theorem head_numeral {n : Numeral} (hn : n.Legible) :
    ∃ c, n.chars.head? = some c ∧ (c = '-' ∨ c.isDigit = true) := by
  obtain ⟨c, cs, hc⟩ := List.exists_cons_of_ne_nil hn.nonempty
  have hdigit := hn.whole c (by rw [hc]; exact List.mem_cons_self)
  cases hneg : n.negative with
  | true => exact ⟨'-', by simp [Numeral.chars, hneg], .inl rfl⟩
  | false => exact ⟨c, by simp [Numeral.chars, hneg, hc], .inr hdigit⟩

theorem next_numeral {n : Numeral} (hn : n.Legible) {rest : List Char} (hrest : Ends rest) :
    Token.next (n.chars ++ rest) = (.number n, rest) := by
  obtain ⟨c, hc, hstart⟩ := head_numeral hn
  obtain ⟨cs, hcs⟩ := List.head?_eq_some_iff.mp hc
  have hnumeral := numeral_chars hn hrest
  rw [hcs] at hnumeral ⊢
  unfold Token.next
  split
  case h_11 => rw [hnumeral]
  all_goals
    rename_i heq
    obtain rfl := (List.cons.inj heq).1
    rcases hstart with hstart | hstart
    · exact absurd hstart (by decide)
    · exact absurd hstart (by decide)

theorem ends_cons {c : Char} (h : c ∈ [',', ']', '}', ':']) (rest : List Char) :
    Ends (c :: rest) := by
  rintro _ ⟨⟩
  exact h

theorem isSpace_of_numeral {c : Char} (h : c = '-' ∨ c.isDigit = true) : isSpace c = false := by
  rcases h with rfl | h
  · rfl
  · by_contra hspace
    simp only [isSpace, Bool.not_eq_false, Bool.or_eq_true, beq_iff_eq] at hspace
    rcases hspace with ((rfl | rfl) | rfl) | rfl <;> exact absurd h (by decide)

mutual

/-- A legible value is read token by token. -/
theorem lexes {json : Json} (h : Legible json) {rest : List Char} (hrest : Ends rest) :
    Lexes json.chars json.tokens rest := by
  cases json with
  | null => exact .single rfl ⟨'n', rfl, rfl⟩
  | bool b =>
    cases b with
    | true => exact .single rfl ⟨'t', rfl, rfl⟩
    | false => exact .single rfl ⟨'f', rfl, rfl⟩
  | number n =>
    rw [Legible] at h
    obtain ⟨c, hc, hstart⟩ := head_numeral h
    exact .single (next_numeral h hrest) ⟨c, hc, isSpace_of_numeral hstart⟩
  | string s => exact .single (next_string s rest) ⟨'"', rfl, rfl⟩
  | array items =>
    rw [Legible] at h
    have hclose : Lexes [']'] [.closeArray] rest := .single rfl ⟨']', rfl, rfl⟩
    have hopen : Lexes ['['] [.openArray] (listChars items ++ [']'] ++ rest) :=
      .single rfl ⟨'[', rfl, rfl⟩
    exact hopen.append ((lexes_items h (ends_cons (by decide) rest)).append hclose)
  | object members =>
    rw [Legible] at h
    have hclose : Lexes ['}'] [.closeObject] rest := .single rfl ⟨'}', rfl, rfl⟩
    have hopen : Lexes ['{'] [.openObject] (memberChars members ++ ['}'] ++ rest) :=
      .single rfl ⟨'{', rfl, rfl⟩
    exact hopen.append ((lexes_members h (ends_cons (by decide) rest)).append hclose)
  | unpaired => rw [Legible] at h; exact h.elim
  | broken => rw [Legible] at h; exact h.elim

theorem lexes_items {items : List Json} (h : LegibleItems items) {rest : List Char}
    (hrest : Ends rest) : Lexes (listChars items) (itemTokens items) rest := by
  match items with
  | [] => exact .nil rest
  | [item] =>
    rw [LegibleItems] at h
    exact lexes h.1 hrest
  | item :: next :: more =>
    rw [LegibleItems] at h
    have hcomma : Lexes [','] [.comma] (listChars (next :: more) ++ rest) :=
      .single rfl ⟨',', rfl, rfl⟩
    exact (lexes h.1 (ends_cons (by decide) _)).append (hcomma.append (lexes_items h.2 hrest))

theorem lexes_members {members : List (Json × Json)} (h : LegibleMembers members)
    {rest : List Char} (hrest : Ends rest) :
    Lexes (memberChars members) (memberTokens members) rest := by
  match members with
  | [] => exact .nil rest
  | [(key, value)] =>
    rw [LegibleMembers] at h
    have hcolon : Lexes [':'] [.colon] (value.chars ++ rest) := .single rfl ⟨':', rfl, rfl⟩
    exact (lexes h.1 (ends_cons (by decide) _)).append (hcolon.append (lexes h.2.1 hrest))
  | (key, value) :: next :: more =>
    rw [LegibleMembers] at h
    have hcomma : Lexes [','] [.comma] (memberChars (next :: more) ++ rest) :=
      .single rfl ⟨',', rfl, rfl⟩
    have hcolon : Lexes [':'] [.colon]
        (value.chars ++ ([','] ++ memberChars (next :: more) ++ rest)) :=
      .single rfl ⟨':', rfl, rfl⟩
    have hmember := (lexes h.1 (ends_cons (by decide) _)).append
      (hcolon.append (lexes h.2.1 (ends_cons (by decide) _)))
    exact hmember.append (hcomma.append (lexes_members h.2.2 hrest))

end

theorem itemTokens_cons_cons (item next : Json) (more : List Json) :
    itemTokens (item :: next :: more) = item.tokens ++ .comma :: itemTokens (next :: more) := by
  rw [itemTokens]
  exact List.cons_ne_nil next more

theorem memberTokens_cons_cons (key value : Json) (next : Json × Json) (more : List (Json × Json)) :
    memberTokens ((key, value) :: next :: more) =
      key.tokens ++ .colon :: value.tokens ++ .comma :: memberTokens (next :: more) := by
  rw [memberTokens]
  exact List.cons_ne_nil next more

/-- Whether a token can come first in a value. -/
def Token.Starts : Token → Prop
  | .closeArray | .closeObject => False
  | _ => True

theorem starts_tokens {json : Json} (h : Legible json) :
    ∃ t ts, json.tokens = t :: ts ∧ t.Starts := by
  cases json with
  | unpaired => rw [Legible] at h; exact h.elim
  | broken => rw [Legible] at h; exact h.elim
  | _ => exact ⟨_, _, rfl, trivial⟩

theorem starts_itemTokens {items : List Json} (h : LegibleItems items) (hne : items ≠ []) :
    ∃ t ts, itemTokens items = t :: ts ∧ t.Starts := by
  match items with
  | [] => exact absurd rfl hne
  | [item] =>
    rw [LegibleItems] at h
    exact starts_tokens h.1
  | item :: next :: more =>
    rw [LegibleItems] at h
    obtain ⟨t, ts, hts, ht⟩ := starts_tokens h.1
    exact ⟨t, _, by rw [itemTokens_cons_cons, hts]; rfl, ht⟩

theorem starts_memberTokens {members : List (Json × Json)} (h : LegibleMembers members)
    (hne : members ≠ []) : ∃ t ts, memberTokens members = t :: ts ∧ t.Starts := by
  match members with
  | [] => exact absurd rfl hne
  | [(key, value)] =>
    rw [LegibleMembers] at h
    obtain ⟨t, ts, hts, ht⟩ := starts_tokens h.1
    exact ⟨t, _, by rw [memberTokens, hts]; rfl, ht⟩
  | (key, value) :: next :: more =>
    rw [LegibleMembers] at h
    obtain ⟨t, ts, hts, ht⟩ := starts_tokens h.1
    exact ⟨t, _, by rw [memberTokens_cons_cons, hts]; rfl, ht⟩

theorem value_openArray {ts rest : List Token} {found : List Json} {fuel : Nat}
    (hts : ∃ t ts', ts = t :: ts' ∧ t.Starts) (h : items fuel ts = (found, rest)) :
    value (fuel + 1) (.openArray :: ts) = (.array found, rest) := by
  obtain ⟨t, ts, rfl, ht⟩ := hts
  rw [value]
  · rw [h]
  · rintro _ ⟨⟩
    exact ht

theorem value_openObject {ts rest : List Token} {found : List (Json × Json)} {fuel : Nat}
    (hts : ∃ t ts', ts = t :: ts' ∧ t.Starts) (h : members fuel ts = (found, rest)) :
    value (fuel + 1) (.openObject :: ts) = (.object found, rest) := by
  obtain ⟨t, ts, rfl, ht⟩ := hts
  rw [value]
  · rw [h]
  · rintro _ ⟨⟩
    exact ht

theorem length_tokens_pos {json : Json} (h : Legible json) : 0 < json.tokens.length := by
  obtain ⟨t, ts, hts, -⟩ := starts_tokens h
  rw [hts]
  exact Nat.succ_pos _

mutual

/-- The tokens of a legible value are read as the value. Every call takes up a token or comes right
before one that does. -/
theorem value_tokens {json : Json} (h : Legible json) (rest : List Token) {fuel : Nat}
    (hfuel : 2 * json.tokens.length ≤ fuel + 1) :
    value fuel (json.tokens ++ rest) = (json, rest) := by
  have hpos := length_tokens_pos h
  obtain ⟨fuel, rfl⟩ : ∃ k, fuel = k + 1 := ⟨fuel - 1, by omega⟩
  cases json with
  | array found =>
    rw [Legible] at h
    by_cases hempty : found = []
    · subst hempty
      rfl
    · simp only [tokens, List.length_append, List.length_cons] at hfuel
      obtain ⟨t, ts, hts, ht⟩ := starts_itemTokens h hempty
      have hitems := items_tokens h hempty rest (show 2 * (itemTokens found).length ≤ fuel by omega)
      rw [tokens, List.append_assoc]
      exact value_openArray ⟨t, _, by rw [hts]; rfl, ht⟩ hitems
  | object found =>
    rw [Legible] at h
    by_cases hempty : found = []
    · subst hempty
      rfl
    · simp only [tokens, List.length_append, List.length_cons] at hfuel
      obtain ⟨t, ts, hts, ht⟩ := starts_memberTokens h hempty
      have hmembers :=
        members_tokens h hempty rest (show 2 * (memberTokens found).length ≤ fuel by omega)
      rw [tokens, List.append_assoc]
      exact value_openObject ⟨t, _, by rw [hts]; rfl, ht⟩ hmembers
  | unpaired => rw [Legible] at h; exact h.elim
  | broken => rw [Legible] at h; exact h.elim
  | _ => rfl

theorem items_tokens {found : List Json} (h : LegibleItems found) (hne : found ≠ [])
    (rest : List Token) {fuel : Nat} (hfuel : 2 * (itemTokens found).length ≤ fuel) :
    items fuel (itemTokens found ++ .closeArray :: rest) = (found, rest) := by
  match found with
  | [] => exact absurd rfl hne
  | [item] =>
    rw [LegibleItems] at h
    rw [itemTokens] at hfuel ⊢
    have hpos := length_tokens_pos h.1
    obtain ⟨fuel, rfl⟩ : ∃ k, fuel = k + 1 := ⟨fuel - 1, by omega⟩
    rw [items, value_tokens h.1 (.closeArray :: rest) (by omega)]
  | item :: next :: more =>
    rw [LegibleItems] at h
    rw [itemTokens_cons_cons] at hfuel ⊢
    rw [List.length_append, List.length_cons] at hfuel
    obtain ⟨fuel, rfl⟩ : ∃ k, fuel = k + 1 := ⟨fuel - 1, by omega⟩
    rw [List.append_assoc, items, value_tokens h.1 _ (by omega)]
    simp only [List.cons_append]
    rw [items_tokens h.2 (List.cons_ne_nil next more) rest (by omega)]

theorem members_tokens {found : List (Json × Json)} (h : LegibleMembers found) (hne : found ≠ [])
    (rest : List Token) {fuel : Nat} (hfuel : 2 * (memberTokens found).length ≤ fuel) :
    members fuel (memberTokens found ++ .closeObject :: rest) = (found, rest) := by
  match found with
  | [] => exact absurd rfl hne
  | [(key, item)] =>
    rw [LegibleMembers] at h
    rw [memberTokens] at hfuel ⊢
    rw [List.length_append, List.length_cons] at hfuel
    obtain ⟨fuel, rfl⟩ : ∃ k, fuel = k + 1 := ⟨fuel - 1, by omega⟩
    rw [List.append_assoc, members, value_tokens h.1 _ (by omega)]
    simp only [List.cons_append]
    rw [value_tokens h.2.1 _ (by omega)]
  | (key, item) :: next :: more =>
    rw [LegibleMembers] at h
    rw [memberTokens_cons_cons] at hfuel ⊢
    rw [List.length_append, List.length_append, List.length_cons, List.length_cons] at hfuel
    obtain ⟨fuel, rfl⟩ : ∃ k, fuel = k + 1 := ⟨fuel - 1, by omega⟩
    rw [List.append_assoc, List.append_assoc, members, value_tokens h.1 _ (by omega)]
    simp only [List.cons_append]
    rw [value_tokens h.2.1 _ (by omega)]
    simp only []
    rw [members_tokens h.2.2 (List.cons_ne_nil next more) rest (by omega)]

end

/-- What is written for a legible value is read as that value, to the end of the text. -/
theorem ofText_text {json : Json} (h : Legible json) : ofText json.text = (json, []) := by
  have hend : Ends [] := nofun
  have hlexes := lexes h hend
  have htokens : Token.ofChars json.text.toList = json.tokens := by
    rw [text, String.toList_ofList, Token.ofChars]
    obtain ⟨k, hk⟩ := Nat.exists_eq_add_of_le hlexes.length_le
    have hread := hlexes.read k
    have hnone : Token.read k [] = [] := by cases k <;> rfl
    rwa [List.append_nil, ← hk, hnone, List.append_nil] at hread
  have hfuel : 2 * json.tokens.length ≤ 2 * json.tokens.length + 1 + 1 := by omega
  have hvalue := value_tokens h [] hfuel
  rw [List.append_nil] at hvalue
  rw [ofText, htokens]
  exact hvalue

end Json
end MarketDepth
