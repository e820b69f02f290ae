import Mathlib.Data.List.Nodup
import Mathlib.Tactic.SplitIfs
import MarketDepth.Desk

/-! The books of a desk and the subscriptions of its feed belong together: every open book has one
subscription, and there are no others. -/

namespace MarketDepth

section Entries

variable {α : Type} {name other : String} {a : α} {entries : List (String × α)}

theorem lookup_entry (first : String) (b : α) (rest : List (String × α)) :
    ((first, b) :: rest).lookup name = if name = first then some b else rest.lookup name := by
  by_cases h : name = first
  · simp [h]
  · rw [List.lookup_cons, beq_eq_false_iff_ne.mpr h, if_neg h]

theorem lookup_putEntry : (putEntry name a entries).lookup other =
    if other = name then some a else entries.lookup other := by
  induction entries with
  | nil => simp [putEntry, lookup_entry]
  | cons entry rest ih =>
    obtain ⟨first, b⟩ := entry
    by_cases h : first = name
    · subst h
      by_cases hother : other = first <;> simp [putEntry, lookup_entry, hother]
    · by_cases hother : other = first
      · simp [putEntry, hother, h]
      · simp [putEntry, lookup_entry, hother, h, ih]

theorem dropEntry_cons (first : String) (b : α) (rest : List (String × α)) :
    dropEntry name ((first, b) :: rest) =
      if first = name then dropEntry name rest else (first, b) :: dropEntry name rest := by
  by_cases h : first = name <;> simp [dropEntry, h]

theorem lookup_dropEntry : (dropEntry name entries).lookup other =
    if other = name then none else entries.lookup other := by
  induction entries with
  | nil => simp [dropEntry]
  | cons entry rest ih =>
    obtain ⟨first, b⟩ := entry
    rw [dropEntry_cons]
    by_cases h : first = name
    · subst h
      rw [if_pos rfl, ih, lookup_entry]
      split_ifs <;> rfl
    · by_cases hother : other = first
      · simp [h, hother]
      · simp [lookup_entry, h, ih, hother]

theorem mem_putEntry {entry : String × α} (h : entry ∈ putEntry name a entries) :
    entry = (name, a) ∨ entry ∈ entries := by
  induction entries with
  | nil => exact .inl (List.mem_singleton.mp h)
  | cons first rest ih =>
    by_cases hfirst : first.1 = name <;> simp only [putEntry, hfirst, if_true, if_false] at h
    · exact (List.mem_cons.mp h).imp_right (List.mem_cons_of_mem _)
    · rcases List.mem_cons.mp h with rfl | h
      · exact .inr List.mem_cons_self
      · exact (ih h).imp_right (List.mem_cons_of_mem _)

def Named (entries : List (String × α)) : Prop := entries.Pairwise fun a b => a.1 ≠ b.1

theorem Named.dropEntry (h : Named entries) : Named (dropEntry name entries) :=
  h.sublist List.filter_sublist

theorem Named.putEntry (h : Named entries) : Named (putEntry name a entries) := by
  induction entries with
  | nil => exact List.pairwise_singleton _ _
  | cons first rest ih =>
    obtain ⟨hfirst, hrest⟩ := List.pairwise_cons.mp h
    by_cases hname : first.1 = name <;> simp only [MarketDepth.putEntry, hname, if_true, if_false]
    · exact List.pairwise_cons.mpr ⟨fun entry hin => hname ▸ hfirst entry hin, hrest⟩
    · refine List.pairwise_cons.mpr ⟨fun entry hin => ?_, ih hrest⟩
      rcases mem_putEntry hin with rfl | hin
      · exact hname
      · exact hfirst entry hin

theorem Named.mem_iff (h : Named entries) : (name, a) ∈ entries ↔ entries.lookup name = some a := by
  induction entries with
  | nil => simp
  | cons first rest ih =>
    obtain ⟨hfirst, hrest⟩ := List.pairwise_cons.mp h
    obtain ⟨first, b⟩ := first
    rw [lookup_entry, List.mem_cons]
    by_cases hname : name = first
    · subst hname
      have hout : ∀ a, (name, a) ∉ rest := fun a hin => hfirst (name, a) hin rfl
      simp [hout, eq_comm]
    · simp [hname, ih hrest]

end Entries

namespace Feed

variable {α : Type} {feed : Feed α}

def enlist (feed : Feed α) (symbol : Symbol) (source : Source) (listener : α) : Feed α :=
  { feed with
    subscriptions := feed.subscriptions ++ [⟨feed.nextId, symbol, source, listener⟩]
    nextId := feed.nextId + 1 }

theorem subscribe_running (h : feed.closed = false) (symbol : Symbol) (source : Source)
    (listener : α) : feed.subscribe symbol source listener =
      .ok (feed.enlist symbol source listener, { id := feed.nextId }) := by
  simp [subscribe, enlist, h]

theorem close_enlist {handle : Handle} (h : handle.id ≠ feed.nextId) (symbol : Symbol)
    (source : Source) (listener : α) :
    ((feed.enlist symbol source listener).close handle).1 =
      (feed.close handle).1.enlist symbol source listener := by
  by_cases hopen : handle.isOpen <;> simp [close, enlist, hopen, h.symm]

end Feed

variable {τ : Type}

/-- What a book is to the feed. -/
structure Seat where
  key : Nat
  symbol : Symbol
  source : Source
  subscription : Option Handle

def Seat.entry (seat : Seat) (handle : Handle) : Subscription Listener :=
  ⟨handle.id, seat.symbol, seat.source, .book seat.key⟩

def Post.seat (post : Post τ) : Seat :=
  ⟨post.key, post.live.book.symbol, post.live.book.source, post.subscription⟩

namespace Desk

variable {desk desk' : Desk τ} {name other : String} {post : Post τ} {seat seat' : Seat}

def seat? (desk : Desk τ) (name : String) : Option Seat := (desk.book? name).map Post.seat

theorem book?_setBook (desk : Desk τ) (name other : String) (post : Post τ) :
    (desk.setBook name post).book? other = if other = name then some post else desk.book? other :=
  lookup_putEntry

theorem seat?_setBook (desk : Desk τ) (name other : String) (post : Post τ) :
    (desk.setBook name post).seat? other =
      if other = name then some post.seat else desk.seat? other := by
  rw [seat?, book?_setBook]
  split_ifs <;> rfl

/-- Every open book has one subscription and there are no others. -/
structure Wired (desk : Desk τ) : Prop where
  running : desk.feed.closed = false
  named : Named desk.books
  keys : ∀ {name other seat seat'}, desk.seat? name = some seat → desk.seat? other = some seat' →
    seat.key = seat'.key → name = other
  usedKeys : ∀ {name seat}, desk.seat? name = some seat → seat.key < desk.nextKey
  ids : (desk.feed.subscriptions.map (·.id)).Nodup
  usedIds : ∀ s ∈ desk.feed.subscriptions, s.id < desk.feed.nextId
  opened : ∀ {name seat handle}, desk.seat? name = some seat →
    seat.subscription = some handle → handle.isOpen = true
  served : ∀ {s}, s ∈ desk.feed.subscriptions ↔ ∃ name seat handle, desk.seat? name = some seat ∧
    seat.subscription = some handle ∧ s = seat.entry handle

namespace Wired

variable {handle handle' : Handle}

theorem congr (h : desk.Wired) (hfeed : desk'.feed = desk.feed)
    (hkey : desk'.nextKey = desk.nextKey) (hnamed : Named desk'.books)
    (hseat : ∀ name, desk'.seat? name = desk.seat? name) : desk'.Wired := by
  obtain ⟨running, -, keys, usedKeys, ids, usedIds, opened, served⟩ := h
  simp only [← hfeed, ← hkey, ← hseat] at running keys usedKeys ids usedIds opened served
  exact ⟨running, hnamed, keys, usedKeys, ids, usedIds, opened, served⟩

/-- What a book is to the feed does not depend on what it has processed. -/
theorem setBook (h : desk.Wired) (hpost : desk.seat? name = some post.seat) :
    (desk.setBook name post).Wired := by
  refine h.congr rfl rfl h.named.putEntry fun other => ?_
  rw [seat?_setBook]
  split_ifs with hname
  · rw [hname, hpost]
  · rfl

theorem entry_mem (h : desk.Wired) (hseat : desk.seat? name = some seat)
    (hhandle : seat.subscription = some handle) : seat.entry handle ∈ desk.feed.subscriptions :=
  h.served.mpr ⟨name, seat, handle, hseat, hhandle, rfl⟩

theorem name_eq (h : desk.Wired) (hseat : desk.seat? name = some seat)
    (hhandle : seat.subscription = some handle) (hseat' : desk.seat? other = some seat')
    (hhandle' : seat'.subscription = some handle') (hid : handle.id = handle'.id) :
    name = other := by
  have hentry : seat.entry handle = seat'.entry handle' :=
    List.inj_on_of_nodup_map h.ids (h.entry_mem hseat hhandle) (h.entry_mem hseat' hhandle') hid
  exact h.keys hseat hseat' (Listener.book.inj (congrArg Subscription.listener hentry))

/-- Some books may go, or stay without the subscriptions that the feed loses. -/
theorem retract (h : desk.Wired) (kept : Subscription Listener → Bool)
    (hclosed : desk'.feed.closed = desk.feed.closed) (hid : desk'.feed.nextId = desk.feed.nextId)
    (hkey : desk'.nextKey = desk.nextKey) (hnamed : Named desk'.books)
    (hsubs : desk'.feed.subscriptions = desk.feed.subscriptions.filter kept)
    (hback : ∀ {name seat'}, desk'.seat? name = some seat' → ∃ seat, desk.seat? name = some seat ∧
      seat'.key = seat.key ∧ ∀ handle, seat'.subscription = some handle →
        seat' = seat ∧ kept (seat.entry handle) = true)
    (hkept : ∀ {name seat handle}, desk.seat? name = some seat → seat.subscription = some handle →
      kept (seat.entry handle) = true → desk'.seat? name = some seat) : desk'.Wired := by
  refine ⟨hclosed.trans h.running, hnamed, ?_, ?_, ?_, ?_, ?_, ?_⟩
  · intro name other seat seat' hseat hseat' heq
    obtain ⟨a, ha, hka, -⟩ := hback hseat
    obtain ⟨b, hb, hkb, -⟩ := hback hseat'
    exact h.keys ha hb (hka.symm.trans (heq.trans hkb))
  · intro name seat hseat
    obtain ⟨a, ha, hka, -⟩ := hback hseat
    rw [hka, hkey]
    exact h.usedKeys ha
  · rw [hsubs]
    exact h.ids.sublist (List.filter_sublist.map _)
  · rw [hsubs, hid]
    exact fun s hs => h.usedIds s (List.mem_filter.mp hs).1
  · intro name seat handle hseat hhandle
    obtain ⟨a, ha, -, hsame⟩ := hback hseat
    obtain ⟨rfl, -⟩ := hsame handle hhandle
    exact h.opened ha hhandle
  -- The subscriptions that are kept are those of the books that still have one.
  · intro s
    rw [hsubs, List.mem_filter, h.served]
    constructor
    · rintro ⟨⟨name, seat, handle, hseat, hhandle, rfl⟩, hk⟩
      exact ⟨name, seat, handle, hkept hseat hhandle hk, hhandle, rfl⟩
    · rintro ⟨name, seat, handle, hseat, hhandle, rfl⟩
      obtain ⟨a, ha, -, hsame⟩ := hback hseat
      obtain ⟨rfl, hk⟩ := hsame handle hhandle
      exact ⟨⟨name, seat, handle, ha, hhandle, rfl⟩, hk⟩

end Wired

theorem closeBook_cases (desk : Desk τ) (name : String) :
    (∃ post handle, desk.book? name = some post ∧ post.subscription = some handle ∧
      desk.closeBook name = { desk with feed := (desk.feed.close handle).1 }.setBook name
        { post with subscription := none }) ∨
    ((∀ post, desk.book? name = some post → post.subscription = none) ∧
      desk.closeBook name = desk) := by
  rw [closeBook]
  cases hpost : desk.book? name with
  | none => simp
  | some post =>
    cases hhandle : post.subscription with
    | none => simp [hhandle]
    | some handle => exact .inl ⟨post, handle, rfl, hhandle, by simp [hhandle]⟩

theorem Wired.closeBook (h : desk.Wired) (name : String) : (desk.closeBook name).Wired := by
  rcases desk.closeBook_cases name with ⟨post, handle, hpost, hhandle, heq⟩ | ⟨-, heq⟩
  · have hseat : desk.seat? name = some post.seat := by rw [seat?, hpost, Option.map_some]
    rw [heq, Feed.close, if_pos (h.opened hseat hhandle)]
    refine h.retract (fun s => s.id != handle.id) rfl rfl rfl h.named.putEntry rfl ?_ ?_
    · intro other seat' hseat'
      rw [seat?_setBook] at hseat'
      split_ifs at hseat' with hname
      · obtain rfl := Option.some.inj hseat'
        exact ⟨post.seat, hname ▸ hseat, rfl, fun _ hnone => by cases hnone⟩
      · refine ⟨seat', hseat', rfl, fun handle' hhandle' => ⟨rfl, bne_iff_ne.mpr fun hid => ?_⟩⟩
        exact hname (h.name_eq hseat' hhandle' hseat hhandle hid)
    · intro other seat handle' ho hhandle' hkept
      have hname : other ≠ name := by
        rintro rfl
        obtain rfl := Option.some.inj (hseat.symm.trans ho)
        obtain rfl := Option.some.inj (hhandle.symm.trans hhandle')
        simp [Seat.entry] at hkept
      rw [seat?_setBook, if_neg hname]
      exact ho
  · rw [heq]
    exact h

theorem book?_closeBook (desk : Desk τ) (name other : String) :
    (desk.closeBook name).book? other = if other = name then
      (desk.book? name).map fun post => { post with subscription := none }
    else desk.book? other := by
  rcases desk.closeBook_cases name with ⟨post, handle, hpost, -, heq⟩ | ⟨hnone, heq⟩
  · rw [heq, book?_setBook, hpost]
    rfl
  · rw [heq]
    split_ifs with hname
    · subst hname
      cases hpost : desk.book? other with
      | none => rfl
      | some post => simp [← hnone post hpost]
    · rfl

theorem book?_dropBook (desk : Desk τ) (name other : String) :
    (desk.dropBook name).book? other = if other = name then none else desk.book? other := by
  have hlookup : (desk.dropBook name).book? other =
      if other = name then none else (desk.closeBook name).book? other := lookup_dropEntry
  rw [hlookup, book?_closeBook]
  split_ifs <;> rfl

theorem Wired.dropBook (h : desk.Wired) (name : String) : (desk.dropBook name).Wired := by
  have hclosed := h.closeBook name
  have hlookup : ∀ other, (desk.dropBook name).seat? other =
      if other = name then none else (desk.closeBook name).seat? other := by
    intro other
    rw [seat?, seat?, book?_dropBook, book?_closeBook]
    split_ifs <;> rfl
  refine hclosed.retract (fun _ => true) rfl rfl rfl hclosed.named.dropEntry
    (List.filter_true _).symm ?_ ?_
  · intro other seat' hseat'
    rw [hlookup] at hseat'
    split_ifs at hseat' with hname
    exact ⟨seat', hseat', rfl, fun _ _ => ⟨rfl, rfl⟩⟩
  · intro other seat handle hseat hhandle _
    rw [hlookup, if_neg]
    · exact hseat
    · rintro rfl
      rw [seat?, book?_closeBook, if_pos rfl] at hseat
      cases hpost : desk.book? other with
      | none => simp [hpost] at hseat
      | some post =>
        rw [hpost] at hseat
        obtain rfl := Option.some.inj hseat
        cases hhandle

/-- The desk with a subscription for a book of the next key. -/
def enlist (desk : Desk τ) (symbol : Symbol) (source : Source) : Desk τ :=
  { desk with
    feed := desk.feed.enlist symbol source (.book desk.nextKey)
    nextKey := desk.nextKey + 1 }

def attach (desk : Desk τ) (name : String) (live : LiveBook τ) : Desk τ :=
  (desk.enlist live.book.symbol live.book.source).setBook name
    { key := desk.nextKey, live, subscription := some { id := desk.feed.nextId } }

theorem Wired.attach (h : desk.Wired) (hname : desk.book? name = none) (live : LiveBook τ) :
    (desk.attach name live).Wired := by
  have hfresh : desk.seat? name = none := by rw [seat?, hname, Option.map_none]
  let new : Seat :=
    ⟨desk.nextKey, live.book.symbol, live.book.source, some { id := desk.feed.nextId }⟩
  have hseat : ∀ other, (desk.attach name live).seat? other =
      if other = name then some new else desk.seat? other := fun other => seat?_setBook _ _ _ _
  have hcases : ∀ {other seat}, (desk.attach name live).seat? other = some seat →
      (other = name ∧ seat = new) ∨ desk.seat? other = some seat := by
    intro other seat ho
    rw [hseat] at ho
    split_ifs at ho with hn
    · exact .inl ⟨hn, (Option.some.inj ho).symm⟩
    · exact .inr ho
  refine ⟨h.running, h.named.putEntry, ?_, ?_, ?_, ?_, ?_, ?_⟩
  · intro other other' seat seat' ho ho' hkey
    rcases hcases ho with ⟨hn, rfl⟩ | hold <;> rcases hcases ho' with ⟨hn', rfl⟩ | hold'
    · rw [hn, hn']
    · exact absurd hkey (Nat.ne_of_gt (h.usedKeys hold'))
    · exact absurd hkey (Nat.ne_of_lt (h.usedKeys hold))
    · exact h.keys hold hold' hkey
  · intro other seat ho
    rcases hcases ho with ⟨-, rfl⟩ | ho
    · exact Nat.lt_succ_self _
    · exact Nat.lt_succ_of_lt (h.usedKeys ho)
  · have hout : desk.feed.nextId ∉ desk.feed.subscriptions.map (·.id) := by
      intro hin
      obtain ⟨s, hs, hid⟩ := List.mem_map.mp hin
      exact absurd hid (Nat.ne_of_lt (h.usedIds s hs))
    change ((desk.feed.subscriptions ++ [_]).map _).Nodup
    rw [List.map_append]
    exact h.ids.append (List.nodup_singleton _) (List.disjoint_singleton.mpr hout)
  · intro s hs
    rcases List.mem_append.mp hs with hs | hs
    · exact Nat.lt_succ_of_lt (h.usedIds s hs)
    · rw [List.mem_singleton.mp hs]
      exact Nat.lt_succ_self _
  · intro other seat handle ho hhandle
    rcases hcases ho with ⟨-, rfl⟩ | ho
    · rw [← Option.some.inj hhandle]
    · exact h.opened ho hhandle
  · intro s
    constructor
    · intro hs
      rcases List.mem_append.mp hs with hs | hs
      · obtain ⟨other, seat, handle, ho, hhandle, rfl⟩ := h.served.mp hs
        refine ⟨other, seat, handle, ?_, hhandle, rfl⟩
        rw [hseat, if_neg, ho]
        rintro rfl
        rw [hfresh] at ho
        cases ho
      · exact ⟨name, new, { id := desk.feed.nextId }, by rw [hseat, if_pos rfl], rfl,
          List.mem_singleton.mp hs⟩
    · rintro ⟨other, seat, handle, ho, hhandle, rfl⟩
      rcases hcases ho with ⟨-, rfl⟩ | ho
      · obtain rfl := Option.some.inj hhandle
        exact List.mem_append_right _ (List.mem_singleton.mpr rfl)
      · exact List.mem_append_left _ (h.entry_mem ho hhandle)

theorem Wired.closeBook_enlist (h : desk.Wired) (name : String) (symbol : Symbol)
    (source : Source) :
    (desk.enlist symbol source).closeBook name = (desk.closeBook name).enlist symbol source := by
  rcases desk.closeBook_cases name with ⟨post, handle, hpost, hhandle, heq⟩ | ⟨hnone, heq⟩
  · have hseat : desk.seat? name = some post.seat := by rw [seat?, hpost, Option.map_some]
    have hid : handle.id ≠ desk.feed.nextId :=
      Nat.ne_of_lt (h.usedIds _ (h.entry_mem hseat hhandle))
    have henlisted : (desk.enlist symbol source).closeBook name =
        { desk.enlist symbol source with
          feed := ((desk.enlist symbol source).feed.close handle).1 }.setBook name
            { post with subscription := none } := by
      rw [Desk.closeBook, show (desk.enlist symbol source).book? name = some post from hpost]
      simp only [hhandle]
    rw [henlisted, heq, enlist, Feed.close_enlist hid]
    rfl
  · rcases (desk.enlist symbol source).closeBook_cases name with
      ⟨post, handle, hpost, hhandle, -⟩ | ⟨-, henlisted⟩
    · rw [hnone post hpost] at hhandle
      cases hhandle
    · rw [henlisted, heq]

theorem next_closeBook (desk : Desk τ) (name : String) :
    (desk.closeBook name).nextKey = desk.nextKey ∧
      (desk.closeBook name).feed.nextId = desk.feed.nextId := by
  rcases desk.closeBook_cases name with ⟨post, handle, -, -, heq⟩ | ⟨-, heq⟩
  · rw [heq, Feed.close]
    split_ifs <;> exact ⟨rfl, rfl⟩
  · rw [heq]
    exact ⟨rfl, rfl⟩

theorem create_running (h : desk.feed.closed = false) {config : Config} {live : LiveBook τ}
    (hlive : LiveBook.ofConfig config = .ok live) (name : String) : desk.create name config =
      .ok (((desk.enlist live.book.symbol live.book.source).dropBook name).setBook name
        { key := desk.nextKey, live, subscription := some { id := desk.feed.nextId } }) := by
  simp only [Desk.create, hlive, Except.mapError, bind, Except.bind, Feed.subscribe_running h]
  rfl

/-- The new book subscribes before the one that had its name is dropped. It comes to the same as if
it did so after that. -/
theorem Wired.create (h : desk.Wired) {config : Config} {live : LiveBook τ}
    (hlive : LiveBook.ofConfig config = .ok live) :
    desk.create name config = .ok ((desk.dropBook name).attach name live) := by
  obtain ⟨hkey, hid⟩ := desk.next_closeBook name
  rw [create_running h.running hlive, ← hkey, ← hid, Desk.dropBook, h.closeBook_enlist]
  rfl

end Desk

end MarketDepth
