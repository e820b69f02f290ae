import MarketDepth.LiveBook
import MarketDepth.Proofs.WindowRuns
import MarketDepth.Proofs.BookShape

/-! A call that breaks off leaves the book, its metrics and its observers alone, so that a live book
goes on as if the call had never been made. What the clock says decides about latencies only. -/

namespace MarketDepth

theorem Book.symbol_process (book : Book) (reports : List Report) (fresh : Bool) :
    (book.process reports fresh).1.symbol = book.symbol := by
  cases fresh <;> cases reports <;> rfl

def LatencyWindow.untimed (window : LatencyWindow) : LatencyWindow :=
  { window with samples := window.samples.map fun _ => 0 }

theorem LatencyWindow.untimed_record (window : LatencyWindow) (sample : UInt64) :
    (window.record sample).untimed = window.untimed.record 0 := by
  by_cases h : window.size = window.capacity
  · simp_all [untimed, record, size]
  · simp_all [untimed, record, size]

namespace Metrics

def untimed (metrics : Metrics) : Metrics := { metrics with latencies := metrics.latencies.untimed }

theorem untimed_recordCycle (metrics : Metrics) (records ignored latency : UInt64) :
    (metrics.recordCycle records ignored latency).untimed =
      metrics.untimed.recordCycle records ignored 0 := by
  simp [untimed, recordCycle, LatencyWindow.untimed_record]

theorem counters_untimed (metrics : Metrics) : metrics.untimed.counters = metrics.counters := by
  simp [counters, untimed, LatencyWindow.untimed, LatencyWindow.size]

end Metrics

namespace LiveBook

variable {τ α β : Type}

namespace Call

@[simp] theorem run_bind (part : Call τ α) (next : α → Call τ β) (scene : Scene τ) :
    (part >>= next).run scene = match part.run scene with
      | (.ok a, scene) => (next a).run scene
      | (.error breach, scene) => (.error breach, scene) := by
  rcases h : part.run scene with ⟨_ | _, _⟩ <;>
  · simp only [bind, ExceptT.bind, ExceptT.mk, ExceptT.run, StateT.bind] at h ⊢
    rw [h]
    rfl

@[simp] theorem run_get (scene : Scene τ) :
    (get : Call τ (Scene τ)).run scene = (.ok scene, scene) := rfl

@[simp] theorem run_modify (change : Scene τ → Scene τ) (scene : Scene τ) :
    (modify change : Call τ PUnit).run scene = (.ok ⟨⟩, change scene) := rfl

@[simp] theorem run_expect (promise : Bool) (breach : Breach) (scene : Scene τ) :
    (expect promise breach).run scene =
      (if promise then .ok () else .error breach, scene) := by
  cases promise <;> rfl

@[simp] theorem run_locked (part : Call τ α) (scene : Scene τ) :
    (locked part).run scene = match part.run scene with
      | (.ok a, scene) => (.ok a, scene)
      | (.error breach, scene) =>
        (.error breach, { scene with live := { scene.live with poisoned := true } }) := by
  rcases h : part.run scene with ⟨_ | _, _⟩ <;>
  · simp only [locked, tryCatch, tryCatchThe, MonadExceptOf.tryCatch, ExceptT.tryCatch, ExceptT.mk,
      ExceptT.run, bind, StateT.bind] at h ⊢
    rw [h]
    rfl

end Call

/-- Why the book of a symbol rejects a batch. The kind is looked at first. -/
def objection? (symbol : Symbol) (batch : Batch) : Option Breach :=
  if batch.kind ≠ .order then some .unsupportedKind
  else if batch.symbol ≠ symbol then some .otherSymbol
  else none

variable {live : LiveBook τ} {batch : Batch}

theorem call_rejected {breach : Breach} (h : objection? live.book.symbol batch = some breach)
    (fresh : Bool) (latency : UInt64) :
    ∃ poisoned, live.call batch fresh latency = ({ live with poisoned }, [], some breach) := by
  by_cases hkind : batch.kind = .order <;> by_cases hsymbol : batch.symbol = live.book.symbol <;>
    simp only [objection?, hkind, hsymbol, ne_eq, not_true_eq_false, not_false_eq_true, if_true,
      if_false, reduceCtorEq, Option.some.injEq] at h
  · exact ⟨true, by simp [call, handle, hkind, hsymbol, h]⟩
  · exact ⟨live.poisoned, by simp [call, handle, hkind, h]⟩
  · exact ⟨live.poisoned, by simp [call, handle, hkind, h]⟩

theorem call_accepted (h : objection? live.book.symbol batch = none) (fresh : Bool)
    (latency : UInt64) : live.call batch fresh latency =
      ((live.accept batch.reports fresh).timed latency,
        (live.accept batch.reports fresh).heard, none) := by
  by_cases hkind : batch.kind = .order <;> by_cases hsymbol : batch.symbol = live.book.symbol <;>
    simp only [objection?, hkind, hsymbol, ne_eq, not_true_eq_false, not_false_eq_true, if_true,
      if_false, reduceCtorEq] at h
  simp [call, handle, hkind, hsymbol]

/-- The live book but for the lock and for what the clock says. -/
def plain (live : LiveBook τ) : LiveBook τ :=
  { live with metrics := live.metrics.untimed, poisoned := false }

/-- What comes of batches that nothing is wrong with, however long each takes. -/
def absorb (live : LiveBook τ) : List (List Report × Bool) → LiveBook τ × List (τ × Announcement)
  | [] => (live, [])
  | (reports, fresh) :: rest =>
    let (last, heard) := absorb ((live.accept reports fresh).timed 0) rest
    (last, (live.accept reports fresh).heard ++ heard)

theorem plain_timed (live : LiveBook τ) (reports : List Report) (fresh : Bool) (latency : UInt64) :
    ((live.accept reports fresh).timed latency).plain =
      (live.plain.accept reports fresh).timed 0 := by
  simp only [Processed.timed, plain, Metrics.untimed_recordCycle, accept]
  rcases (live.book.process reports fresh).2.notice with _ | _ | _ <;> cases fresh <;> rfl

theorem symbol_timed (live : LiveBook τ) (reports : List Report) (fresh : Bool) (latency : UInt64) :
    ((live.accept reports fresh).timed latency).book.symbol = live.book.symbol :=
  live.book.symbol_process reports fresh

theorem book_absorb (live : LiveBook τ) (batches : List (List Report × Bool)) :
    (live.absorb batches).1.book = live.book.run batches := by
  induction batches generalizing live with
  | nil => rfl
  | cons batch rest ih => exact ih _

structure Delivery where
  batch : Batch
  fresh : Bool
  latency : UInt64

def Delivery.content (delivery : Delivery) : List Report × Bool :=
  (delivery.batch.reports, delivery.fresh)

/-- One call after the other, also after calls that broke off. -/
def run (live : LiveBook τ) :
    List Delivery → LiveBook τ × List (τ × Announcement) × List (Option Breach)
  | [] => (live, [], [])
  | ⟨batch, fresh, latency⟩ :: rest =>
    let (live, heard, breach) := live.call batch fresh latency
    let (live, more, breaches) := run live rest
    (live, heard ++ more, breach :: breaches)

def accepts (live : LiveBook τ) (delivery : Delivery) : Bool :=
  objection? live.book.symbol delivery.batch == none

theorem run_absorb (live : LiveBook τ) (deliveries : List Delivery) :
    let batches := (deliveries.filter live.accepts).map Delivery.content
    (live.run deliveries).1.plain = (live.plain.absorb batches).1 ∧
      (live.run deliveries).2.1 = (live.plain.absorb batches).2 ∧
      (live.run deliveries).2.2 =
        deliveries.map fun d => objection? live.book.symbol d.batch := by
  induction deliveries generalizing live with
  | nil => exact ⟨rfl, rfl, rfl⟩
  | cons delivery rest ih =>
    obtain ⟨batch, fresh, latency⟩ := delivery
    cases h : objection? live.book.symbol batch with
    | none =>
      obtain ⟨hlast, hheard, hbreaches⟩ := ih ((live.accept batch.reports fresh).timed latency)
      have haccepts : live.accepts ⟨batch, fresh, latency⟩ = true := by simp [accepts, h]
      -- A batch that is taken does not change the symbol, so the later ones are judged as before.
      have hfilter : ((live.accept batch.reports fresh).timed latency).accepts = live.accepts := by
        funext d
        rw [accepts, accepts, symbol_timed]
      rw [hfilter, plain_timed] at hlast hheard
      rw [symbol_timed] at hbreaches
      rw [run, call_accepted h, List.filter_cons_of_pos haccepts, List.map_cons, List.map_cons, h]
      exact ⟨hlast, congrArg (_ ++ ·) hheard, congrArg (none :: ·) hbreaches⟩
    | some breach =>
      obtain ⟨poisoned, hcall⟩ := call_rejected h fresh latency
      obtain ⟨hlast, hheard, hbreaches⟩ := ih { live with poisoned }
      have haccepts : ¬ live.accepts ⟨batch, fresh, latency⟩ = true := by simp [accepts, h]
      rw [run, hcall, List.filter_cons_of_neg haccepts, List.map_cons, h]
      exact ⟨hlast, hheard, congrArg (some breach :: ·) hbreaches⟩

end LiveBook

end MarketDepth
