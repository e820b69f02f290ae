import Mathlib.Data.List.Induction
import Mathlib.Data.List.Nodup
import Mathlib.Tactic.Cases
import Mathlib.Tactic.SplitIfs
import MarketDepth.Feed

/-! Who is subscribed to a feed follows from what was done to it: those who subscribed before the
first shutdown and were neither closed nor dropped nor shut down since. -/

namespace MarketDepth

namespace Feed

variable {α : Type}

theorem close_handle (feed : Feed α) (handle : Handle) :
    (feed.close handle).2 = { handle with isOpen := false } := by
  obtain ⟨id, isOpen⟩ := handle
  cases isOpen <;> rfl

/-- What the clients of a feed do. They name a subscription by how many were accepted before it. -/
inductive Act (α : Type) where
  | subscribe (symbol : Symbol) (source : Source) (listener : α)
  /-- Dropping a handle closes it. -/
  | close (number : Nat) (dropped : Bool)
  | shutdown
  | publish (batch : Batch)

inductive Answer (α : Type) where
  | accepted (number : Nat)
  | refused (error : FeedError)
  | reached (listeners : List α) (count : Nat)
  | done

structure Clients (α : Type) where
  feed : Feed α := .empty
  /-- In the order in which they were given out. Nobody has a dropped one any more. -/
  handles : List (Option Handle) := []

namespace Clients

def close (clients : Clients α) (number : Nat) (dropped : Bool) : Clients α :=
  match clients.handles[number]?.join with
  | some handle =>
    let (feed, handle) := clients.feed.close handle
    { feed, handles := clients.handles.set number (if dropped then none else some handle) }
  | none => clients

def act (clients : Clients α) : Act α → Clients α × Answer α
  | .subscribe symbol source listener =>
    match clients.feed.subscribe symbol source listener with
    | .ok (feed, handle) =>
      ({ feed, handles := clients.handles ++ [some handle] }, .accepted clients.handles.length)
    | .error error => (clients, .refused error)
  | .close number dropped => (clients.close number dropped, .done)
  | .shutdown => ({ clients with feed := clients.feed.shutdown }, .done)
  | .publish batch =>
    let listeners := clients.feed.listeners batch.symbol batch.source
    (clients, .reached listeners listeners.length)

def run (clients : Clients α) (acts : List (Act α)) : Clients α :=
  acts.foldl (fun clients act => (clients.act act).1) clients

end Clients

namespace Act

@[simp] def closes (number : Nat) : Act α → Bool
  | .close n _ => n == number
  | _ => false

@[simp] def drops (number : Nat) : Act α → Bool
  | .close n dropped => dropped && n == number
  | _ => false

@[simp] def shuts : Act α → Bool
  | .shutdown => true
  | _ => false

theorem closes_of_drops {number : Nat} {act : Act α} (h : act.drops number = true) :
    act.closes number = true := by
  cases act with
  | close n dropped => exact (Bool.and_eq_true ..).mp h |>.2
  | subscribe _ _ _ | shutdown | publish _ => cases h

@[simp] def accepted? (number : Nat) : Act α → Option (Subscription α)
  | .subscribe symbol source listener => some ⟨number, symbol, source, listener⟩
  | _ => none

end Act

def shut (acts : List (Act α)) : Bool := acts.any Act.shuts

/-- An accepted subscription and what was done since. -/
structure Entry (α : Type) where
  subscription : Subscription α
  since : List (Act α) := []

namespace Entry

def id (entry : Entry α) : Nat := entry.subscription.id

def extend (act : Act α) (entry : Entry α) : Entry α := { entry with since := entry.since ++ [act] }

def stands (entry : Entry α) : Bool :=
  !entry.since.any (·.closes entry.id) && !shut entry.since

def handle? (entry : Entry α) : Option Handle :=
  if entry.since.any (·.drops entry.id) then none
  else some { id := entry.id, isOpen := !entry.since.any (·.closes entry.id) }

@[simp] theorem subscription_extend (act : Act α) (entry : Entry α) :
    (entry.extend act).subscription = entry.subscription := rfl

@[simp] theorem id_extend (act : Act α) (entry : Entry α) : (entry.extend act).id = entry.id := rfl

@[simp] theorem since_extend (act : Act α) (entry : Entry α) :
    (entry.extend act).since = entry.since ++ [act] := rfl

theorem stands_extend (act : Act α) (entry : Entry α) :
    (entry.extend act).stands = (entry.stands && (!act.closes entry.id && !act.shuts)) := by
  simp [stands, shut, Bool.and_assoc, Bool.and_left_comm]

theorem handle?_extend (act : Act α) (entry : Entry α) :
    (entry.extend act).handle? = if act.drops entry.id then none
      else entry.handle?.map fun h => { h with isOpen := h.isOpen && !act.closes entry.id } := by
  simp only [handle?, id_extend, since_extend, List.any_append, List.any_cons, List.any_nil,
    Bool.or_false]
  generalize entry.since.any (·.drops entry.id) = gone
  generalize act.drops entry.id = drop
  cases gone <;> cases drop <;> simp

theorem id_of_handle? {entry : Entry α} {handle : Handle} (h : entry.handle? = some handle) :
    handle.id = entry.id := by
  rw [handle?] at h
  split_ifs at h
  rw [← Option.some.inj h]

end Entry

/-- The subscriptions that are accepted when there have been so many before. -/
def accepted (number : Nat) : List (Act α) → List (Entry α)
  | [] => []
  | act :: since =>
    if act.shuts then []
    else match act.accepted? number with
      | some subscription => { subscription, since } :: accepted (number + 1) since
      | none => accepted number since

def standing (entries : List (Entry α)) : List (Subscription α) :=
  (entries.filter (·.stands)).map (·.subscription)

def openAfter (acts : List (Act α)) : List (Subscription α) := standing (accepted 0 acts)

theorem accepted_concat (number : Nat) (acts : List (Act α)) (act : Act α) :
    accepted number (acts ++ [act]) = (accepted number acts).map (Entry.extend act) ++
      if shut acts then []
      else ((act.accepted? (number + (accepted number acts).length)).map
        fun s => ⟨s, []⟩).toList := by
  induction acts generalizing number with
  | nil => cases act <;> simp [accepted, shut]
  | cons first acts ih =>
    cases first with
    | shutdown => simp [accepted, Act.shuts, shut]
    | subscribe symbol source listener =>
      have hnumber : ∀ n, number + 1 + n = number + (n + 1) := by omega
      simp [accepted, Act.accepted?, Act.shuts, ih, Entry.extend, shut, hnumber]
    | close _ _ | publish _ => simp [accepted, Act.accepted?, Act.shuts, ih, shut]

theorem accepted_ids (number : Nat) (acts : List (Act α)) :
    (accepted number acts).map Entry.id = List.range' number (accepted number acts).length := by
  induction acts generalizing number with
  | nil => rfl
  | cons act acts ih =>
    cases act with
    | shutdown => rfl
    | subscribe symbol source listener =>
      simp [accepted, Act.accepted?, Act.shuts, ih, List.range'_succ, Entry.id]
    | close _ _ | publish _ => simp [accepted, Act.accepted?, Act.shuts, ih]

/-- The id of a subscription is its place among those accepted. -/
theorem id_of_getElem? {acts : List (Act α)} {i : Nat} {entry : Entry α}
    (h : (accepted 0 acts)[i]? = some entry) : entry.id = i := by
  have hids := congrArg (·[i]?) (accepted_ids 0 acts)
  simp only [List.getElem?_map, h, Option.map_some] at hids
  obtain ⟨hi, -⟩ := List.getElem?_eq_some_iff.mp h
  simpa [List.getElem?_range' hi] using hids

theorem getElem?_of_mem {acts : List (Act α)} {entry : Entry α} (h : entry ∈ accepted 0 acts) :
    (accepted 0 acts)[entry.id]? = some entry := by
  obtain ⟨i, hi⟩ := List.getElem?_of_mem h
  rw [id_of_getElem? hi, hi]

theorem ended_of_shuts {number : Nat} {acts : List (Act α)} (h : shut acts = true) :
    ∀ entry ∈ accepted number acts, entry.stands = false := by
  induction acts generalizing number with
  | nil => cases h
  | cons act acts ih =>
    cases act with
    | shutdown => simp [accepted, Act.shuts]
    | subscribe symbol source listener =>
      have hlater : shut acts = true := by simpa [shut, Act.shuts] using h
      simp only [accepted, Act.shuts, Act.accepted?, Bool.false_eq_true, if_false,
        List.forall_mem_cons]
      exact ⟨by simp [Entry.stands, hlater], ih hlater⟩
    | close _ _ | publish _ => exact ih (by simpa [shut, Act.shuts] using h)

theorem openAfter_shuts {acts : List (Act α)} (h : shut acts = true) :
    openAfter acts = [] := by
  have hnone : (accepted 0 acts).filter (·.stands) = [] :=
    List.filter_eq_nil_iff.mpr fun entry hin => by simp [ended_of_shuts h entry hin]
  rw [openAfter, standing, hnone, List.map_nil]

theorem standing_extend (act : Act α) (entries : List (Entry α)) :
    standing (entries.map (Entry.extend act)) =
      (standing entries).filter fun s => !act.closes s.id && !act.shuts := by
  simp only [standing, List.filter_map, List.map_map, List.filter_filter]
  congr 1
  exact List.filter_congr fun entry _ => (Entry.stands_extend act entry).trans (Bool.and_comm ..)

theorem openAfter_concat (acts : List (Act α)) (act : Act α) :
    openAfter (acts ++ [act]) =
      ((openAfter acts).filter fun s => !act.closes s.id && !act.shuts) ++
        if shut acts then [] else (act.accepted? (accepted 0 acts).length).toList := by
  have happend : ∀ entries more : List (Entry α),
      standing (entries ++ more) = standing entries ++ standing more := by simp [standing]
  rw [openAfter, accepted_concat, happend, standing_extend, openAfter]
  split_ifs
  · rfl
  · cases act <;> simp [standing, Entry.stands, shut]

theorem openAfter_ascending (acts : List (Act α)) :
    (openAfter acts).Pairwise fun a b => a.id < b.id := by
  have hall : (accepted 0 acts).Pairwise fun a b => a.id < b.id := by
    rw [← List.pairwise_map (f := Entry.id) (R := (· < ·)), accepted_ids]
    exact List.pairwise_lt_range'
  exact List.pairwise_map.mpr (hall.sublist List.filter_sublist)

namespace Clients

structure Serves (clients : Clients α) (acts : List (Act α)) : Prop where
  closed : clients.feed.closed = shut acts
  nextId : clients.feed.nextId = (accepted 0 acts).length
  subscriptions : clients.feed.subscriptions = openAfter acts
  handles : clients.handles = (accepted 0 acts).map Entry.handle?

theorem serves_start : ({} : Clients α).Serves [] := ⟨rfl, rfl, rfl, rfl⟩

variable {clients : Clients α} {acts : List (Act α)}

theorem Serves.handle? (h : clients.Serves acts) (number : Nat) :
    clients.handles[number]?.join = ((accepted 0 acts)[number]?).bind Entry.handle? := by
  rw [h.handles, List.getElem?_map]
  cases (accepted 0 acts)[number]? <;> rfl

/-- Somebody has an open handle of every subscription. -/
theorem Serves.handle_of_open (h : clients.Serves acts) {s : Subscription α}
    (hs : s ∈ openAfter acts) : clients.handles[s.id]?.join = some { id := s.id } := by
  obtain ⟨entry, hentry, rfl⟩ := List.mem_map.mp hs
  obtain ⟨hin, hstands⟩ := List.mem_filter.mp hentry
  rw [Entry.stands, Bool.and_eq_true, Bool.not_eq_true'] at hstands
  have hdrops : entry.since.any (·.drops entry.id) = false :=
    List.any_eq_false.mpr fun act hact hdrop =>
      List.any_eq_false.mp hstands.1 act hact (Act.closes_of_drops hdrop)
  have hentry : (accepted 0 acts)[entry.subscription.id]? = some entry := getElem?_of_mem hin
  rw [h.handle?, hentry, Option.bind_some, Entry.handle?, hdrops, hstands.1]
  rfl

theorem Serves.not_open (h : clients.Serves acts) {number : Nat}
    (hn : ∀ handle, clients.handles[number]?.join = some handle → handle.isOpen = false) :
    (openAfter acts).filter (fun s => s.id != number) = openAfter acts := by
  refine List.filter_eq_self.mpr fun s hs => bne_iff_ne.mpr ?_
  rintro rfl
  cases hn _ (h.handle_of_open hs)

/-- Closing a handle ends its subscription and no other, if that has not been done before. -/
theorem Serves.close_feed (h : clients.Serves acts) (number : Nat) (dropped : Bool) :
    (clients.close number dropped).feed =
      { clients.feed with subscriptions := (openAfter acts).filter fun s => s.id != number } := by
  cases hn : clients.handles[number]?.join with
  | none =>
    rw [close, hn, h.not_open (by simp [hn]), ← h.subscriptions]
  | some handle =>
    obtain ⟨entry, hentry, hhandle⟩ := Option.bind_eq_some_iff.mp ((h.handle? number).symm.trans hn)
    have hid : handle.id = number := (Entry.id_of_handle? hhandle).trans (id_of_getElem? hentry)
    rw [close, hn]
    by_cases hopen : handle.isOpen
    · simp [Feed.close, hopen, hid, h.subscriptions]
    · rw [h.not_open (by simp [hn, hopen]), ← h.subscriptions]
      simp [Feed.close, hopen]

theorem Serves.close_handles (h : clients.Serves acts) (number : Nat) (dropped : Bool) :
    (clients.close number dropped).handles = (accepted 0 acts).map fun entry =>
      if entry.id = number then
        if dropped then none else entry.handle?.map fun handle => { handle with isOpen := false }
      else entry.handle? := by
  have hn := h.handle? number
  cases hjoin : clients.handles[number]?.join with
  | none =>
    rw [close, hjoin, h.handles]
    refine List.map_congr_left fun entry hentry => ?_
    by_cases hid : entry.id = number
    · have hnone : entry.handle? = none := by
        rw [hjoin, ← hid, getElem?_of_mem hentry] at hn
        exact hn.symm
      simp [hnone]
    · rw [if_neg hid]
  | some handle =>
    rw [hjoin] at hn
    obtain ⟨entry, hentry, hhandle⟩ := Option.bind_eq_some_iff.mp hn.symm
    rw [close, hjoin, h.handles]
    -- The id of an entry is its place, so the one place that is set is that of the number.
    refine List.ext_getElem? fun i => ?_
    obtain rfl | hi := eq_or_ne number i
    · have hlt := (List.getElem?_eq_some_iff.mp hentry).1
      rw [List.getElem?_set_self (by simpa using hlt), List.getElem?_map, hentry]
      simp [id_of_getElem? hentry, hhandle, close_handle]
    · cases hother : (accepted 0 acts)[i]? with
      | none => simp [hi, hother]
      | some other => simp [hi, hother, id_of_getElem? hother, hi.symm]

theorem length_accepted_concat (acts : List (Act α)) (act : Act α) :
    (accepted 0 (acts ++ [act])).length = (accepted 0 acts).length +
      if shut acts then 0 else (act.accepted? (accepted 0 acts).length).toList.length := by
  rw [accepted_concat]
  split_ifs <;> cases act <;> simp [Act.accepted?]

theorem handles_concat (acts : List (Act α)) (act : Act α) :
    (accepted 0 (acts ++ [act])).map Entry.handle? =
      (accepted 0 acts).map (fun entry => if act.drops entry.id then none
        else entry.handle?.map fun h => { h with isOpen := h.isOpen && !act.closes entry.id }) ++
      if shut acts then [] else
        ((act.accepted? (accepted 0 acts).length).map fun s => some { id := s.id }).toList := by
  rw [accepted_concat, List.map_append, List.map_map]
  congr 1
  · exact List.map_congr_left fun entry _ => Entry.handle?_extend act entry
  · split_ifs
    · rfl
    · cases act <;> simp [Act.accepted?, Entry.handle?, Entry.id]

theorem shut_concat (acts : List (Act α)) (act : Act α) :
    shut (acts ++ [act]) = (shut acts || act.shuts) := by
  simp [shut]

theorem Serves.subscribe (h : clients.Serves acts) (symbol : Symbol) (source : Source)
    (listener : α) : (clients.act (.subscribe symbol source listener)).1.Serves
      (acts ++ [.subscribe symbol source listener]) := by
  by_cases hshut : shut acts
  · have hact : clients.act (.subscribe symbol source listener) = (clients, .refused .closed) := by
      simp [Clients.act, Feed.subscribe, h.closed, hshut]
    rw [hact]
    refine ⟨?_, ?_, ?_, ?_⟩
    · simp [h.closed, shut_concat]
    · simp [h.nextId, length_accepted_concat, hshut]
    · simp [h.subscriptions, openAfter_concat, hshut]
    · simp [h.handles, handles_concat, hshut]
  · refine ⟨?_, ?_, ?_, ?_⟩ <;> simp only [Clients.act, Feed.subscribe, h.closed, hshut]
    · simp [shut_concat, hshut]
    · simp [h.nextId, length_accepted_concat, hshut]
    · simp [h.nextId, h.subscriptions, openAfter_concat, hshut]
    · simp [h.nextId, h.handles, handles_concat, hshut]

theorem Serves.close (h : clients.Serves acts) (number : Nat) (dropped : Bool) :
    (clients.close number dropped).Serves (acts ++ [.close number dropped]) := by
  refine ⟨?_, ?_, ?_, ?_⟩
  · simp [h.close_feed, h.closed, shut_concat]
  · simp [h.close_feed, h.nextId, length_accepted_concat]
  · simp [h.close_feed, openAfter_concat, bne, Bool.beq_comm]
  · rw [h.close_handles, handles_concat]
    simp only [Act.accepted?, Option.map_none, Option.toList_none, ite_self, List.append_nil]
    refine List.map_congr_left fun entry _ => ?_
    obtain rfl | hid := eq_or_ne number entry.id
    · simp
    · simp [hid.symm, beq_eq_false_iff_ne.mpr hid]

theorem Serves.act (h : clients.Serves acts) (act : Act α) :
    (clients.act act).1.Serves (acts ++ [act]) := by
  cases act with
  | subscribe symbol source listener => exact h.subscribe symbol source listener
  | close number dropped => exact h.close number dropped
  | shutdown =>
    refine ⟨?_, ?_, ?_, ?_⟩ <;> simp only [Clients.act, Feed.shutdown]
    · simp [shut_concat]
    · simp [h.nextId, length_accepted_concat]
    · simp [openAfter_concat]
    · simp [h.handles, handles_concat]
  | publish batch =>
    refine ⟨?_, ?_, ?_, ?_⟩ <;> simp only [Clients.act]
    · simp [h.closed, shut_concat]
    · simp [h.nextId, length_accepted_concat]
    · simp [h.subscriptions, openAfter_concat]
    · simp [h.handles, handles_concat]

theorem serves_run (acts : List (Act α)) : (({} : Clients α).run acts).Serves acts := by
  induction acts using List.reverseRecOn with
  | nil => exact serves_start
  | append_singleton acts act ih =>
    rw [run, List.foldl_append]
    exact ih.act act

/-- At every moment a batch is handed to the open subscriptions of its symbol and source, each once
and in the order of subscription, and their number is answered. Closing a handle takes away its own
subscription at most, and nothing when it has been done before or the feed was shut down. From the
first shutdown on nobody is subscribed or can be. -/
theorem lifecycle (acts : List (Act α)) :
    let clients := ({} : Clients α).run acts
    let left := openAfter acts
    (∀ batch : Batch,
      let reached := left.filter fun s => s.symbol == batch.symbol && s.source == batch.source
      clients.act (.publish batch) = (clients, .reached (reached.map (·.listener)) reached.length)) ∧
    left.Pairwise (fun a b => a.id < b.id) ∧
    clients.feed.subscriberCount = left.length ∧
    (∀ number dropped, (clients.act (.close number dropped)).1.feed.subscriptions =
      left.filter fun s => s.id != number) ∧
    (∀ number dropped, (∀ s ∈ left, s.id ≠ number) →
      (clients.act (.close number dropped)).1.feed = clients.feed) ∧
    (shut acts = false → ∀ symbol source listener,
      (clients.act (.subscribe symbol source listener)).2 =
        .accepted (accepted 0 acts).length) ∧
    (shut acts = true → clients.feed.subscriberCount = 0 ∧
      (∀ batch, clients.act (.publish batch) = (clients, .reached [] 0)) ∧
      ∀ symbol source listener, clients.act (.subscribe symbol source listener) =
        (clients, .refused .closed)) := by
  intro clients left
  have h : clients.Serves acts := serves_run acts
  have hleft : clients.feed.subscriptions = left := h.subscriptions
  have hlisteners : ∀ batch : Batch, clients.feed.listeners batch.symbol batch.source =
      (left.filter fun s => s.symbol == batch.symbol && s.source == batch.source).map
        (·.listener) := by
    intro batch
    rw [Feed.listeners, hleft]
  have hcount : clients.feed.subscriberCount = left.length := by
    rw [Feed.subscriberCount, hleft]
  refine ⟨fun batch => ?_, openAfter_ascending acts, hcount, fun number dropped => ?_,
    fun number dropped hnumber => ?_, fun hshut symbol source listener => ?_,
    fun hshut => ⟨?_, fun batch => ?_, fun symbol source listener => ?_⟩⟩
  · simp [act, hlisteners]
  · simp [act, h.close_feed, left]
  · have hall : left.filter (fun s => s.id != number) = left := by simpa using hnumber
    simp only [act, h.close_feed]
    rw [hall, ← hleft]
  · simp [act, Feed.subscribe, h.closed, hshut, h.handles]
  · simp [hcount, left, openAfter_shuts hshut]
  · simp [act, hlisteners, left, openAfter_shuts hshut]
  · simp [act, Feed.subscribe, h.closed, hshut]

/-- Two listeners of one pair and one of another, the first of which is closed twice. -/
def session : List (Act Nat) :=
  [.subscribe ⟨"X"⟩ ⟨"Y"⟩ 10, .subscribe ⟨"X"⟩ ⟨"Y"⟩ 11, .subscribe ⟨"Z"⟩ ⟨"Y"⟩ 12,
    .close 0 false, .close 0 true]

theorem lifecycle_session :
    (({} : Clients Nat).run session).act (.publish ⟨⟨"X"⟩, ⟨"Y"⟩, .order, []⟩) =
        (({} : Clients Nat).run session, .reached [11] 1) ∧
      (({} : Clients Nat).run session).feed.subscriberCount = 2 ∧
      (({} : Clients Nat).run (session ++ [.shutdown])).feed.subscriberCount = 0 := by
  obtain ⟨hpublish, -, hcount, -⟩ := lifecycle session
  obtain ⟨-, -, -, -, -, -, hshut⟩ := lifecycle (session ++ [.shutdown])
  exact ⟨hpublish _, hcount, (hshut rfl).1⟩

end Clients

end Feed

end MarketDepth
