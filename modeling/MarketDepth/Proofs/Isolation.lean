import MarketDepth.Proofs.DeskWiring
import MarketDepth.Proofs.Rejections

/-! Books that share a feed do not disturb each other: each goes through what a book of its own
would, given the batches of its symbol and source that were published while it was open. -/

namespace MarketDepth

theorem Book.source_process (book : Book) (reports : List Report) (fresh : Bool) :
    (book.process reports fresh).1.source = book.source := by
  cases fresh <;> cases reports <;> rfl

variable {τ : Type}

/-- What an observer is told about a batch: of a fresh one the whole book, of one without reports
nothing, and of any other one its changes before the book that they lead to. -/
def announced (observers : Observers τ) (book : Book) (reports : List Report) (fresh : Bool) :
    List (τ × Announcement) :=
  let next := (book.process reports fresh).1
  if fresh then (observers.newBook.map fun observer => (observer, .newBook next.visible)).toList
  else if reports.isEmpty then []
  else
    (observers.changes.map fun observer => (observer, .changes (book.update reports).2.1)).toList ++
      (observers.bookUpdate.map fun observer => (observer, .bookUpdate next.visible)).toList

theorem visible_empty (depth : Nat) (side : Side) :
    (Window.empty depth : Window side).visible = [] := by
  simp [Window.visible, Window.empty, Ladder.values, Ladder.empty]

theorem accept_heard (live : LiveBook τ) (reports : List Report) (fresh : Bool) :
    (live.accept reports fresh).heard = announced live.observers live.book reports fresh := by
  cases reports with
  | nil =>
    cases fresh with
    | false => rfl
    | true =>
      have hvisible : (live.book.process [] true).1.visible = .empty := by
        simp only [Book.process, Book.visible, Book.clear, Window.clear, List.isEmpty_nil, if_true,
          visible_empty]
        rfl
      simp only [announced, hvisible]
      rfl
  | cons report rest => cases fresh <;> rfl

inductive Deed (τ : Type) where
  | observe (kinds : List ObserverKind) (observer : τ)
  | batch (reports : List Report) (fresh : Bool)

def Deed.batch? : Deed τ → Option (List Report × Bool)
  | .observe _ _ => none
  | .batch reports fresh => some (reports, fresh)

namespace LiveBook

def face (live : LiveBook τ) : Deed τ → LiveBook τ × List (τ × Announcement)
  | .observe kinds observer => ({ live with observers := live.observers.set kinds observer }, [])
  | .batch reports fresh =>
    ((live.accept reports fresh).timed 0, (live.accept reports fresh).heard)

def follow (live : LiveBook τ) : List (Deed τ) → LiveBook τ × List (τ × Announcement)
  | [] => (live, [])
  | deed :: rest =>
    let (next, heard) := live.face deed
    let (last, more) := next.follow rest
    (last, heard ++ more)

theorem follow_append (live : LiveBook τ) (deeds more : List (Deed τ)) :
    live.follow (deeds ++ more) = (((live.follow deeds).1.follow more).1,
      (live.follow deeds).2 ++ ((live.follow deeds).1.follow more).2) := by
  induction deeds generalizing live with
  | nil => rfl
  | cons deed rest ih => simp [follow, ih]

end LiveBook

inductive Command (τ : Type) where
  | create (name : String) (config : Config)
  | observe (name : String) (kinds : List ObserverKind) (observer : τ)
  | close (name : String)
  | drop (name : String)
  | publish (symbol : Symbol) (source : Source) (reports : List Report) (fresh : Bool)
    (latency : UInt64)

namespace Command

/-- Whether the book that has the name now is gone after this. -/
def retires (name : String) : Command τ → Bool
  | .create n config => n == name && config.validate.isOk
  | .drop n => n == name
  | _ => false

def leavesOpen (name : String) : Command τ → Bool
  | .close n => n != name
  | _ => true

/-- What a command means to the book of a name, symbol and source. -/
def deeds (name : String) (symbol : Symbol) (source : Source) (opened : Bool) :
    Command τ → List (Deed τ)
  | .observe n kinds observer => if n = name then [.observe kinds observer] else []
  | .publish sy so reports fresh _ =>
    if opened ∧ sy = symbol ∧ so = source then [.batch reports fresh] else []
  | _ => []

end Command

def share (name : String) (symbol : Symbol) (source : Source) (opened : Bool) :
    List (Command τ) → List (Deed τ)
  | [] => []
  | command :: rest => command.deeds name symbol source opened ++
    share name symbol source (opened && command.leavesOpen name) rest

def heardOf (name : String) (sights : List (Sight τ)) : List (τ × Announcement) :=
  sights.filterMap fun
    | .announced book observer announcement =>
      if book = name then some (observer, announcement) else none
    | .delivered _ _ _ => none

def Post.take (post : Post τ) (batch : Batch) (fresh : Bool) (latency : UInt64) : Post τ :=
  { post with live := (post.live.accept batch.reports fresh).timed latency }

theorem Post.seat_take (post : Post τ) (batch : Batch) (fresh : Bool) (latency : UInt64) :
    (post.take batch fresh latency).seat = post.seat := by
  have hsymbol := post.live.book.symbol_process batch.reports fresh
  have hsource := post.live.book.source_process batch.reports fresh
  simp [take, seat, LiveBook.Processed.timed, LiveBook.accept, hsymbol, hsource]

theorem heardOf_append (name : String) (sights more : List (Sight τ)) :
    heardOf name (sights ++ more) = heardOf name sights ++ heardOf name more :=
  List.filterMap_append

theorem heardOf_announced (name book : String) (heard : List (τ × Announcement)) :
    heardOf name (heard.map fun h => .announced book h.1 h.2) =
      if book = name then heard else [] := by
  by_cases h : book = name <;> simp [heardOf, h, List.filterMap_map]

namespace Desk

def perform (desk : Desk τ) : Command τ → Desk τ × List (Sight τ)
  | .create name config =>
    match desk.create name config with
    | .ok desk => (desk, [])
    | .error _ => (desk, [])
  | .observe name kinds observer => (desk.observe name kinds observer, [])
  | .close name => (desk.closeBook name, [])
  | .drop name => (desk.dropBook name, [])
  | .publish symbol source reports fresh latency =>
    let (desk, seen, _) := desk.publish ⟨symbol, source, .order, reports⟩ fresh latency
    (desk, seen)

def run (desk : Desk τ) : List (Command τ) → Desk τ × List (Sight τ)
  | [] => (desk, [])
  | command :: rest =>
    let (next, seen) := desk.perform command
    let (last, more) := next.run rest
    (last, seen ++ more)

variable {desk : Desk τ} {name other : String} {post : Post τ} {batch : Batch} {fresh : Bool}
  {latency : UInt64}

theorem seat?_of_book? (h : desk.book? name = some post) : desk.seat? name = some post.seat := by
  rw [seat?, h, Option.map_some]

theorem Wired.holder? (h : desk.Wired) (hpost : desk.book? name = some post) :
    desk.holder? post.key = some (name, post) := by
  have hin : (name, post) ∈ desk.books := h.named.mem_iff.mpr hpost
  have hsome : (desk.holder? post.key).isSome :=
    List.find?_isSome.mpr ⟨_, hin, by simp⟩
  obtain ⟨⟨other, found⟩, hfound⟩ := Option.isSome_iff_exists.mp hsome
  have hother : desk.book? other = some found :=
    h.named.mem_iff.mp (List.mem_of_find?_eq_some hfound)
  have hkey : found.key = post.key := by simpa using List.find?_some hfound
  obtain rfl := h.keys (seat?_of_book? hother) (seat?_of_book? hpost) hkey
  rw [hfound, Option.some.inj (hother.symm.trans hpost)]

/-- A batch goes to the books of some keys and leaves all else alone. -/
structure Delivers (batch : Batch) (fresh : Bool) (latency : UInt64) (reaches : Nat → Prop)
    (desk next : Desk τ) (sights : List (Sight τ)) : Prop where
  wired : next.Wired
  seats : ∀ name, next.seat? name = desk.seat? name
  absent : ∀ {name}, desk.book? name = none → next.book? name = none ∧ heardOf name sights = []
  reached : ∀ {name post}, desk.book? name = some post → reaches post.key →
    next.book? name = some (post.take batch fresh latency) ∧
      heardOf name sights = (post.live.accept batch.reports fresh).heard
  passed : ∀ {name post}, desk.book? name = some post → ¬ reaches post.key →
    next.book? name = some post ∧ heardOf name sights = []

theorem Delivers.append {reaches reaches' : Nat → Prop} {next last : Desk τ}
    {sights more : List (Sight τ)} (h : Delivers batch fresh latency reaches desk next sights)
    (h' : Delivers batch fresh latency reaches' next last more)
    (hapart : ∀ key, reaches key → ¬ reaches' key) :
    Delivers batch fresh latency (fun key => reaches key ∨ reaches' key) desk last
      (sights ++ more) := by
  refine ⟨h'.wired, fun name => (h'.seats name).trans (h.seats name), ?_, ?_, ?_⟩
  · intro name hnone
    obtain ⟨hnone, hheard⟩ := h.absent hnone
    obtain ⟨hnone, hmore⟩ := h'.absent hnone
    exact ⟨hnone, by rw [heardOf_append, hheard, hmore]; rfl⟩
  · intro name post hpost hkey
    by_cases hfirst : reaches post.key
    · obtain ⟨htaken, hheard⟩ := h.reached hpost hfirst
      obtain ⟨hkept, hmore⟩ := h'.passed htaken (hapart _ hfirst)
      exact ⟨hkept, by rw [heardOf_append, hheard, hmore, List.append_nil]⟩
    · obtain ⟨hkept, hheard⟩ := h.passed hpost hfirst
      obtain ⟨htaken, hmore⟩ := h'.reached hkept (hkey.resolve_left hfirst)
      exact ⟨htaken, by rw [heardOf_append, hheard, hmore, List.nil_append]⟩
  · intro name post hpost hkey
    obtain ⟨hkept, hheard⟩ := h.passed hpost (not_or.mp hkey).1
    obtain ⟨hkept, hmore⟩ := h'.passed hkept (not_or.mp hkey).2
    exact ⟨hkept, by rw [heardOf_append, hheard, hmore]; rfl⟩

theorem Wired.tell (h : desk.Wired) (hpost : desk.book? name = some post)
    (hkind : batch.kind = .order) (hsymbol : batch.symbol = post.live.book.symbol) (fresh : Bool)
    (latency : UInt64) : ∃ next sights,
      desk.tell batch fresh latency (.book post.key) = (next, sights, none) ∧
      Delivers batch fresh latency (· = post.key) desk next sights := by
  have hnone : LiveBook.objection? post.live.book.symbol batch = none := by
    simp [LiveBook.objection?, hkind, hsymbol]
  have hseat := seat?_of_book? hpost
  have hbook := fun other => desk.book?_setBook name other (post.take batch fresh latency)
  refine ⟨desk.setBook name (post.take batch fresh latency),
    (post.live.accept batch.reports fresh).heard.map fun heard => .announced name heard.1 heard.2,
    ?_, h.setBook (by rw [Post.seat_take, hseat]), fun other => ?_, ?_, ?_, ?_⟩
  · rw [Desk.tell, h.holder? hpost]
    simp only [callBook, LiveBook.call_accepted hnone]
    rfl
  · rw [seat?_setBook, Post.seat_take]
    split_ifs with hname
    · rw [hname, hseat]
    · rfl
  · intro other hother
    have hname : other ≠ name := by
      rintro rfl
      cases hpost.symm.trans hother
    rw [hbook, if_neg hname, heardOf_announced, if_neg hname.symm]
    exact ⟨hother, rfl⟩
  · intro other p hp hkey
    obtain rfl := h.keys (seat?_of_book? hp) hseat hkey
    obtain rfl := Option.some.inj (hpost.symm.trans hp)
    rw [hbook, if_pos rfl, heardOf_announced, if_pos rfl]
    exact ⟨rfl, rfl⟩
  · intro other p hp hkey
    have hname : other ≠ name := by
      rintro rfl
      exact hkey (congrArg Post.key (Option.some.inj (hp.symm.trans hpost)))
    rw [hbook, if_neg hname, heardOf_announced, if_neg hname.symm]
    exact ⟨hp, rfl⟩

theorem Wired.notify (h : desk.Wired) (hkind : batch.kind = .order) (fresh : Bool)
    (latency : UInt64) {listeners : List Listener}
    (hnodup : listeners.Nodup) (hserved : ∀ listener ∈ listeners, ∃ name seat,
      desk.seat? name = some seat ∧ listener = .book seat.key ∧ seat.symbol = batch.symbol) :
    ∃ last sights, desk.notify batch fresh latency listeners = (last, sights, none) ∧
      Delivers batch fresh latency (fun key => .book key ∈ listeners) desk last sights := by
  induction listeners generalizing desk with
  | nil =>
    exact ⟨desk, [], rfl, h, fun _ => rfl, fun hnone => ⟨hnone, rfl⟩,
      fun _ hin => absurd hin List.not_mem_nil, fun hpost _ => ⟨hpost, rfl⟩⟩
  | cons listener rest ih =>
    obtain ⟨hout, hrest⟩ := List.nodup_cons.mp hnodup
    obtain ⟨⟨name, seat, hseat, rfl, hsymbol⟩, hlater⟩ := List.forall_mem_cons.mp hserved
    obtain ⟨post, hpost, rfl⟩ := Option.map_eq_some_iff.mp hseat
    obtain ⟨next, sights, htell, hfirst⟩ :=
      h.tell hpost hkind hsymbol.symm fresh latency
    obtain ⟨last, more, hnotify, hmore⟩ :=
      ih hfirst.wired hrest (by simpa only [hfirst.seats] using hlater)
    -- No listener comes twice, so the book that has just been told is passed over from here on.
    refine ⟨last, sights ++ more, ?_, ?_⟩
    · rw [Desk.notify, show post.seat.key = post.key from rfl, htell]
      simp only [hnotify]
    · simp only [List.mem_cons, Listener.book.injEq]
      exact hfirst.append hmore fun key hkey => hkey ▸ hout

theorem Wired.mem_listeners (h : desk.Wired) {listener : Listener} {symbol : Symbol}
    {source : Source} : listener ∈ desk.feed.listeners symbol source ↔ ∃ name seat,
      desk.seat? name = some seat ∧ listener = .book seat.key ∧ seat.subscription.isSome ∧
        seat.symbol = symbol ∧ seat.source = source := by
  simp only [Feed.listeners, List.mem_map, List.mem_filter, Bool.and_eq_true, beq_iff_eq]
  constructor
  · rintro ⟨s, ⟨hs, hsymbol, hsource⟩, rfl⟩
    obtain ⟨name, seat, handle, hseat, hhandle, rfl⟩ := h.served.mp hs
    exact ⟨name, seat, hseat, rfl, by rw [hhandle]; rfl, hsymbol, hsource⟩
  · rintro ⟨name, seat, hseat, rfl, hsome, hsymbol, hsource⟩
    obtain ⟨handle, hhandle⟩ := Option.isSome_iff_exists.mp hsome
    exact ⟨seat.entry handle, ⟨h.entry_mem hseat hhandle, hsymbol, hsource⟩, rfl⟩

theorem Wired.nodup_listeners (h : desk.Wired) (symbol : Symbol) (source : Source) :
    (desk.feed.listeners symbol source).Nodup := by
  refine List.Nodup.map_on ?_ (h.ids.of_map _ |>.filter _)
  intro s hs t ht heq
  obtain ⟨name, seat, handle, hseat, hhandle, rfl⟩ := h.served.mp (List.mem_filter.mp hs).1
  obtain ⟨other, seat', handle', hseat', hhandle', rfl⟩ := h.served.mp (List.mem_filter.mp ht).1
  obtain rfl := h.keys hseat hseat' (Listener.book.inj heq)
  obtain rfl := Option.some.inj (hseat.symm.trans hseat')
  obtain rfl := Option.some.inj (hhandle.symm.trans hhandle')
  rfl

theorem Wired.publish (h : desk.Wired) (batch : Batch) (hkind : batch.kind = .order) (fresh : Bool)
    (latency : UInt64) :
    ∃ last sights count, desk.publish batch fresh latency = (last, sights, .ok count) ∧
      Delivers batch fresh latency
        (fun key => .book key ∈ desk.feed.listeners batch.symbol batch.source) desk last sights := by
  have hserved : ∀ listener ∈ desk.feed.listeners batch.symbol batch.source, ∃ name seat,
      desk.seat? name = some seat ∧ listener = .book seat.key ∧ seat.symbol = batch.symbol := by
    intro listener hin
    obtain ⟨name, seat, hseat, hlistener, -, hsymbol, -⟩ := h.mem_listeners.mp hin
    exact ⟨name, seat, hseat, hlistener, hsymbol⟩
  obtain ⟨last, sights, hnotify, hdelivers⟩ :=
    h.notify hkind fresh latency (h.nodup_listeners batch.symbol batch.source) hserved
  refine ⟨last, sights, (desk.feed.listeners batch.symbol batch.source).length, ?_, hdelivers⟩
  simp only [Desk.publish, hnotify]

theorem Wired.reaches_iff (h : desk.Wired) (hpost : desk.book? name = some post) (symbol : Symbol)
    (source : Source) : .book post.key ∈ desk.feed.listeners symbol source ↔
      post.subscription.isSome ∧ post.live.book.symbol = symbol ∧
        post.live.book.source = source := by
  rw [h.mem_listeners]
  constructor
  · rintro ⟨other, seat, hseat, hkey, hrest⟩
    obtain rfl := h.keys (seat?_of_book? hpost) hseat (Listener.book.inj hkey)
    obtain rfl := Option.some.inj ((seat?_of_book? hpost).symm.trans hseat)
    exact hrest
  · exact fun hrest => ⟨name, post.seat, seat?_of_book? hpost, rfl, hrest⟩

theorem Wired.observe (h : desk.Wired) (name : String) (kinds : List ObserverKind) (observer : τ) :
    (desk.observe name kinds observer).Wired := by
  rw [Desk.observe]
  cases hpost : desk.book? name with
  | none => exact h
  | some post => exact h.setBook (seat?_of_book? hpost :)

theorem perform_create_ok (h : desk.Wired) {config : Config} {live : LiveBook τ}
    (hlive : LiveBook.ofConfig config = .ok live) :
    desk.perform (.create name config) = ((desk.dropBook name).attach name live, []) := by
  rw [Desk.perform, h.create hlive]

theorem perform_create_error {config : Config} {error : ConfigError}
    (herror : (LiveBook.ofConfig config : Except ConfigError (LiveBook τ)) = .error error) :
    desk.perform (.create name config) = (desk, []) := by
  rw [Desk.perform, Desk.create, herror]
  rfl

theorem Wired.perform (h : desk.Wired) (command : Command τ) : (desk.perform command).1.Wired := by
  cases command with
  | create name config =>
    cases hlive : (LiveBook.ofConfig config : Except ConfigError (LiveBook τ)) with
    | ok live =>
      rw [perform_create_ok h hlive]
      exact (h.dropBook name).attach (by rw [book?_dropBook, if_pos rfl]) live
    | error error =>
      rw [perform_create_error hlive]
      exact h
  | observe name kinds observer => exact h.observe name kinds observer
  | close name => exact h.closeBook name
  | drop name => exact h.dropBook name
  | publish symbol source reports fresh latency =>
    obtain ⟨last, sights, count, hpublish, hdelivers⟩ :=
      h.publish ⟨symbol, source, .order, reports⟩ rfl fresh latency
    rw [Desk.perform, hpublish]
    exact hdelivers.wired

theorem Wired.run (h : desk.Wired) (commands : List (Command τ)) : (desk.run commands).1.Wired := by
  induction commands generalizing desk with
  | nil => exact h
  | cons command rest ih => exact ih (h.perform command)

theorem isOk_validate {config : Config} {live : LiveBook τ}
    (h : LiveBook.ofConfig config = .ok live) : config.validate.isOk = true := by
  cases hvalidate : config.validate with
  | ok _ => rfl
  | error error =>
    rw [LiveBook.ofConfig, hvalidate] at h
    cases h

theorem book?_attach (desk : Desk τ) (name other : String) (live : LiveBook τ) :
    (desk.attach name live).book? other = if other = name then
      some { key := desk.nextKey, live, subscription := some { id := desk.feed.nextId } }
    else desk.book? other := by
  rw [attach, book?_setBook]
  rfl

/-- A book that stays goes through its own deeds and its observers hear of nothing else. -/
theorem Wired.step (h : desk.Wired) (hpost : desk.book? name = some post) {command : Command τ}
    (hstays : command.retires name = false) :
    let deeds := command.deeds name post.seat.symbol post.seat.source post.subscription.isSome
    ∃ next, (desk.perform command).1.book? name = some next ∧
      next.seat.symbol = post.seat.symbol ∧ next.seat.source = post.seat.source ∧
      next.subscription.isSome = (post.subscription.isSome && command.leavesOpen name) ∧
      next.live.plain = (post.live.plain.follow deeds).1 ∧
      heardOf name (desk.perform command).2 = (post.live.plain.follow deeds).2 := by
  cases command with
  | create other config =>
    refine ⟨post, ?_, rfl, rfl, (Bool.and_true _).symm, rfl, ?_⟩
    · cases hlive : (LiveBook.ofConfig config : Except ConfigError (LiveBook τ)) with
      | ok live =>
        have hname : name ≠ other := by
          rintro rfl
          simp [Command.retires, isOk_validate hlive] at hstays
        rw [perform_create_ok h hlive, book?_attach, if_neg hname, book?_dropBook, if_neg hname,
          hpost]
      | error error => rw [perform_create_error hlive, hpost]
    · rw [Desk.perform]
      cases desk.create other config <;> rfl
  | observe other kinds observer =>
    by_cases hname : other = name
    · subst hname
      simp only [Desk.perform, Desk.observe, hpost, book?_setBook, if_true, Command.deeds]
      exact ⟨_, rfl, rfl, rfl, (Bool.and_true _).symm, rfl, rfl⟩
    · have hother : (desk.observe other kinds observer).book? name = some post := by
        rw [Desk.observe]
        cases desk.book? other with
        | none => exact hpost
        | some _ => exact (book?_setBook ..).trans (by rw [if_neg (Ne.symm hname), hpost])
      simp only [Command.deeds, if_neg hname]
      exact ⟨post, hother, rfl, rfl, (Bool.and_true _).symm, rfl, rfl⟩
  | close other =>
    by_cases hname : other = name
    · subst hname
      refine ⟨{ post with subscription := none }, ?_, rfl, rfl, ?_, rfl, rfl⟩
      · rw [Desk.perform, book?_closeBook, if_pos rfl, hpost]
        rfl
      · simp [Command.leavesOpen]
    · refine ⟨post, ?_, rfl, rfl, ?_, rfl, rfl⟩
      · rw [Desk.perform, book?_closeBook, if_neg (Ne.symm hname), hpost]
      · simp [Command.leavesOpen, hname]
  | drop other =>
    have hname : name ≠ other := by
      rintro rfl
      simp [Command.retires] at hstays
    refine ⟨post, ?_, rfl, rfl, (Bool.and_true _).symm, rfl, rfl⟩
    rw [Desk.perform, book?_dropBook, if_neg hname, hpost]
  | publish symbol source reports fresh latency =>
    obtain ⟨last, sights, count, hpublish, hdelivers⟩ :=
      h.publish ⟨symbol, source, .order, reports⟩ rfl fresh latency
    have hreaches := h.reaches_iff hpost symbol source
    simp only [Desk.perform, hpublish, Command.deeds, Command.leavesOpen, Bool.and_true]
    -- The feed reaches the book just when the batch is a deed of it.
    split_ifs with hpair
    · obtain ⟨hopen, hsymbol, hsource⟩ := hpair
      obtain ⟨htaken, hheard⟩ :=
        hdelivers.reached hpost (hreaches.mpr ⟨hopen, hsymbol.symm, hsource.symm⟩)
      have hseat := post.seat_take ⟨symbol, source, .order, reports⟩ fresh latency
      refine ⟨_, htaken, congrArg Seat.symbol hseat, congrArg Seat.source hseat, rfl, ?_, ?_⟩
      · exact LiveBook.plain_timed ..
      · rw [hheard]
        exact (List.append_nil _).symm
    · have hpassed : ¬ _ := mt hreaches.mp fun ⟨hopen, hsymbol, hsource⟩ =>
        hpair ⟨hopen, hsymbol.symm, hsource.symm⟩
      obtain ⟨hkept, hheard⟩ := hdelivers.passed hpost hpassed
      exact ⟨post, hkept, rfl, rfl, rfl, rfl, hheard⟩

theorem Wired.follow (h : desk.Wired) (hpost : desk.book? name = some post)
    {commands : List (Command τ)} (hstays : ∀ command ∈ commands, command.retires name = false) :
    let deeds := share name post.seat.symbol post.seat.source post.subscription.isSome commands
    ∃ last, (desk.run commands).1.book? name = some last ∧
      last.live.plain = (post.live.plain.follow deeds).1 ∧
      heardOf name (desk.run commands).2 = (post.live.plain.follow deeds).2 := by
  induction commands generalizing desk post with
  | nil => exact ⟨post, hpost, rfl, rfl⟩
  | cons command rest ih =>
    obtain ⟨hcommand, hrest⟩ := List.forall_mem_cons.mp hstays
    obtain ⟨next, hnext, hsymbol, hsource, hopen, hplain, hheard⟩ := h.step hpost hcommand
    obtain ⟨last, hlast, hlastPlain, hmore⟩ := ih (h.perform command) hnext hrest
    rw [hsymbol, hsource, hopen, hplain] at hlastPlain hmore
    refine ⟨last, hlast, ?_, ?_⟩
    · rw [share, LiveBook.follow_append]
      exact hlastPlain
    · rw [share, LiveBook.follow_append, Desk.run, heardOf_append, hheard, hmore]

def earlier : List (Command Nat) :=
  [.create "a" ⟨"X", "Y", 0⟩, .publish ⟨"X"⟩ ⟨"Y"⟩ [] true 5]

/-- A batch of another source, one while the book is open and one after it was closed. Meanwhile the
other book of the same symbol and source is dropped. -/
def later : List (Command Nat) :=
  [.observe "b" [.newBook] 7, .publish ⟨"X"⟩ ⟨"Z"⟩ [] true 5, .drop "a",
    .publish ⟨"X"⟩ ⟨"Y"⟩ [] true 5, .close "b", .publish ⟨"X"⟩ ⟨"Y"⟩ [] true 5]

end Desk

end MarketDepth
