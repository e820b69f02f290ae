import MarketDepth.Proofs.Isolation
import MarketDepth.Proofs.RoundTrips
import MarketDepth.Wire.Config

/-! Configurations. What a configuration is written as is read back as it was, unless its symbol or its
source is blank; and a configuration that reads well is one that a book can be set up with. -/

namespace MarketDepth

variable {τ : Type} {config : Config}

namespace Config

theorem validate_eq (config : Config) : config.validate =
    if isBlank config.symbol then .error .emptySymbol
    else if isBlank config.source then .error .emptySource else .ok () := by
  unfold validate symbolId sourceId Symbol.ofText? Source.ofText?
  split_ifs <;> rfl

theorem legible_toJson (config : Config) : config.toJson.Legible := by
  refine Json.legible_record ?_
  simp only [List.forall_mem_cons]
  exact ⟨trivial, trivial, Json.legible_ofInt _, nofun⟩

theorem parse_text (config : Config) : Json.parse ofJson config.toJson.text = .ok config := by
  have hsymbol : Json.toText (.string config.symbol) = .ok config.symbol := rfl
  have hsource : Json.toText (.string config.source) = .ok config.source := rfl
  have hdepth := Json.toCount_ofInt config.depth
  refine Json.parse_text config.legible_toJson ?_
  exact Json.read_record (Json.readMembers_cons rfl rfl (Json.ofOption_read hsymbol _)
    (Json.readMembers_cons rfl rfl (Json.ofOption_read hsource _)
      (Json.readMembers_cons rfl rfl (Json.ofOption_read hdepth _) rfl))) rfl

theorem ofText_text (config : Config) :
    ofText config.toJson.text = config.validate.map fun _ => config := by
  rw [ofText, parse_text]
  cases h : config.validate with
  | ok _ => simp only [h, Except.map]; rfl
  | error error => simp only [h, Except.map]; rfl

theorem validate_of_ofText {text : String} (h : ofText text = .ok config) :
    config.validate = .ok () := by
  unfold ofText at h
  cases hparse : Json.parse ofJson text with
  | error fault =>
    rw [hparse] at h
    cases h
  | ok found =>
    rw [hparse] at h
    cases hvalid : found.validate with
    | error error =>
      simp only [hvalid] at h
      cases h
    | ok _ =>
      simp only [hvalid] at h
      obtain rfl : found = config := Except.ok.inj h
      exact hvalid

end Config

theorem LiveBook.ofConfig_eq (config : Config) : LiveBook.ofConfig config = config.validate.map fun _ =>
    ({ book := .empty ⟨config.symbol⟩ ⟨config.source⟩ config.depth.toNat } : LiveBook τ) := by
  rw [Config.validate_eq]
  unfold LiveBook.ofConfig Config.validate Config.symbolId Config.sourceId Symbol.ofText? Source.ofText?
  split_ifs <;> rfl

namespace Desk

variable {desk : Desk τ} {live : LiveBook τ}

theorem detach_ok (h : LiveBook.ofConfig config = .ok live) (desk : Desk τ) (name : String) :
    ∃ next, desk.detach name config = .ok next ∧
      next.book? name = some { key := desk.nextKey, live } := by
  refine ⟨({ desk with nextKey := desk.nextKey + 1 }.dropBook name).setBook name
    { key := desk.nextKey, live }, ?_, ?_⟩
  · rw [detach, h]
    rfl
  · rw [book?_setBook, if_pos rfl]

theorem create_ok (hrunning : desk.feed.closed = false) (h : LiveBook.ofConfig config = .ok live)
    (name : String) : ∃ next, desk.create name config = .ok next ∧
      next.book? name = some
        { key := desk.nextKey, live, subscription := some { id := desk.feed.nextId } } :=
  ⟨_, create_running hrunning h name, by rw [book?_setBook, if_pos rfl]⟩

theorem create_closed (hclosed : desk.feed.closed = true) (h : LiveBook.ofConfig config = .ok live)
    (name : String) : desk.create name config = .error (.feed .closed) := by
  rw [create, h]
  simp only [Except.mapError, bind, Except.bind, Feed.subscribe, hclosed, if_true]

theorem create_invalid {error : ConfigError} (h : config.validate = .error error) (desk : Desk τ)
    (name : String) : desk.create name config = .error (.config error) := by
  rw [create, LiveBook.ofConfig_eq, h]
  rfl

end Desk

namespace Config

/-- A configuration is read back from its own text as it was. Where that fails, the symbol is blank, or
else the source is. Whatever text it was read from, it sets up a book of its symbol, source and depth, on
its own or on a feed that has not been shut down. One that is not valid is refused before the feed is
asked, and the desk stays as it was. -/
theorem sets_up (config : Config) :
    ((∃ c ∈ config.symbol.toList, isWhiteSpace c = false) →
      (∃ c ∈ config.source.toList, isWhiteSpace c = false) →
        ofText config.toJson.text = .ok config) ∧
    ((∀ c ∈ config.symbol.toList, isWhiteSpace c = true) →
      ofText config.toJson.text = .error .emptySymbol) ∧
    ((∃ c ∈ config.symbol.toList, isWhiteSpace c = false) →
      (∀ c ∈ config.source.toList, isWhiteSpace c = true) →
        ofText config.toJson.text = .error .emptySource) ∧
    (∀ text, ofText text = .ok config → ∃ live : LiveBook τ, LiveBook.ofConfig config = .ok live ∧
      live.book = .empty ⟨config.symbol⟩ ⟨config.source⟩ config.depth.toNat ∧
      ∀ (desk : Desk τ) name,
        (∃ next post, desk.detach name config = .ok next ∧ next.book? name = some post ∧
          post.live = live ∧ post.subscription = none) ∧
        (desk.feed.closed = false → ∃ next post handle, desk.create name config = .ok next ∧
          next.book? name = some post ∧ post.live = live ∧ post.subscription = some handle) ∧
        (desk.feed.closed = true → desk.create name config = .error (.feed .closed))) ∧
    ∀ error, config.validate = .error error → ∀ (desk : Desk τ) name,
      desk.create name config = .error (.config error) ∧
        desk.perform (.create name config) = (desk, []) := by
  have hstated : ∀ {text : String}, (∃ c ∈ text.toList, isWhiteSpace c = false) →
      ¬ isBlank text = true := by
    rintro text ⟨c, hc, hstated⟩ hblank
    rw [List.all_eq_true.mp hblank c hc] at hstated
    cases hstated
  have hblank : ∀ {text : String}, (∀ c ∈ text.toList, isWhiteSpace c = true) →
      isBlank text = true := List.all_eq_true.mpr
  refine ⟨fun hsymbol hsource => ?_, fun hsymbol => ?_, fun hsymbol hsource => ?_,
    fun text htext => ?_, fun error herror desk name => ?_⟩
  · rw [ofText_text, validate_eq, if_neg (hstated hsymbol), if_neg (hstated hsource)]
    rfl
  · rw [ofText_text, validate_eq, if_pos (hblank hsymbol)]
    rfl
  · rw [ofText_text, validate_eq, if_neg (hstated hsymbol), if_pos (hblank hsource)]
    rfl
  · have hlive := LiveBook.ofConfig_eq (τ := τ) config
    rw [validate_of_ofText htext] at hlive
    refine ⟨_, hlive, rfl, fun desk name => ⟨?_, fun hrunning => ?_, fun hclosed => ?_⟩⟩
    · obtain ⟨next, hnext, hbook⟩ := desk.detach_ok hlive name
      exact ⟨next, _, hnext, hbook, rfl, rfl⟩
    · obtain ⟨next, hnext, hbook⟩ := Desk.create_ok hrunning hlive name
      exact ⟨next, _, _, hnext, hbook, rfl, rfl⟩
    · exact Desk.create_closed hclosed hlive name
  · have hcreate := desk.create_invalid herror name
    exact ⟨hcreate, by rw [Desk.perform, hcreate]⟩

/-- Quotes, a backslash and a line break in the symbol, a letter beyond ASCII in the source, and the most
levels that a configuration can ask for. -/
def ornate : Config := ⟨"\"A\\B\"\n", "ß", 0xFFFFFFFFFFFFFFFF⟩

/-- Nothing but an ideographic space for a source. -/
def sourceless : Config := ⟨"X", "\u3000", 1⟩

theorem sets_up_ornate : ofText ornate.toJson.text = .ok ornate ∧
    (∃ next : Desk Nat, Desk.empty.create "a" ornate = .ok next ∧
      (next.book? "a").map (·.live.book) =
        some (.empty ⟨ornate.symbol⟩ ⟨ornate.source⟩ ornate.depth.toNat)) ∧
    sourceless.validate = .error .emptySource ∧
    (Desk.empty : Desk Nat).shutdown.create "a" sourceless = .error (.config .emptySource) := by
  obtain ⟨hread, -, -, hbook, -⟩ := sets_up (τ := Nat) ornate
  obtain ⟨-, -, -, -, hrefused⟩ := sets_up (τ := Nat) sourceless
  have htext : ofText ornate.toJson.text = .ok ornate :=
    hread ⟨'A', by decide, by decide⟩ ⟨'ß', by decide, by decide⟩
  have hinvalid : sourceless.validate = .error .emptySource := by decide
  refine ⟨htext, ?_, hinvalid, (hrefused _ hinvalid _ "a").1⟩
  obtain ⟨live, -, hlive, hdesks⟩ := hbook _ htext
  obtain ⟨next, post, handle, hnext, hpost, rfl, -⟩ := (hdesks .empty "a").2.1 rfl
  exact ⟨next, hnext, by rw [hpost, Option.map_some, hlive]⟩

end Config

end MarketDepth
