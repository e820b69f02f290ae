import MarketDepth.Replay.Run
import MarketDepth.Proofs.Isolation
import MarketDepth.Proofs.ReplicaView

/-! What a replay writes is a matter of the recording alone. A replica that follows the announcements is in
step with the book after every batch, so that checking it finds nothing and changes nothing. -/

namespace MarketDepth.Replay

variable {S : Set Price} {scale : ∀ side, Scale side S} {depth : Nat}

/-- What is wrong with a line. -/
def fault? (line : String) : Option Json.Fault :=
  if isBlank line then none
  else match Entry.ofText line with
    | .ok _ => none
    | .error fault => some fault

def batch? (line : String) : Option (List Report × Bool) :=
  if isBlank line then none
  else match Entry.ofText line with
    | .ok entry => some (entry.reports, entry.fresh)
    | .error _ => none

/-- The lines before the first that something is wrong with. -/
def sound (texts : List String) : List String := texts.takeWhile fun line => (fault? line).isNone

def batches (texts : List String) : List (List Report × Bool) := (sound texts).filterMap batch?

/-- The first line that something is wrong with, counted from one. -/
def firstFault? (texts : List String) : Option (Nat × Json.Fault) :=
  (texts[(sound texts).length]?.bind fault?).map fun fault => ((sound texts).length + 1, fault)

section

variable {line : String} {rest : List String}

theorem sound_cons (line : String) (rest : List String) :
    sound (line :: rest) = if (fault? line).isNone then line :: sound rest else [] :=
  List.takeWhile_cons

theorem batches_of_fault {fault : Json.Fault} (h : fault? line = some fault) :
    batches (line :: rest) = [] := by
  rw [batches, sound_cons, h]
  rfl

theorem firstFault?_of_fault {fault : Json.Fault} (h : fault? line = some fault) :
    firstFault? (line :: rest) = some (1, fault) := by
  simp [firstFault?, sound_cons, h]

theorem batches_of_sound (h : fault? line = none) :
    batches (line :: rest) = (batch? line).toList ++ batches rest := by
  rw [batches, sound_cons, h, Option.isNone_none, if_pos rfl, List.filterMap_cons]
  cases batch? line <;> rfl

theorem firstFault?_of_sound (h : fault? line = none) :
    firstFault? (line :: rest) = (firstFault? rest).map fun flaw => (flaw.1 + 1, flaw.2) := by
  simp only [firstFault?, sound_cons, h, Option.isNone_none, if_true, List.length_cons,
    List.getElem?_cons_succ, Option.map_map]
  rfl

theorem fault?_of_batch {batch : List Report × Bool} (h : batch? line = some batch) :
    fault? line = none := by
  unfold batch? at h
  unfold fault?
  split_ifs at h ⊢ with hblank
  cases hentry : Entry.ofText line with
  | ok entry => rfl
  | error fault =>
    rw [hentry] at h
    cases h

end

/-- What is written of a batch: of a fresh one the whole book, of one without reports nothing, and of
any other one its changes before the book that they lead to. -/
def notices (book : Book) (reports : List Report) (fresh : Bool) : List String :=
  let next := (book.process reports fresh).1
  if fresh then [announce (.newBook next.visible)]
  else if reports.isEmpty then []
  else [announce (.changes (book.update reports).2.1), announce (.bookUpdate next.visible)]

def transcript (book : Book) : List (List Report × Bool) → List String
  | [] => []
  | (reports, fresh) :: rest =>
    notices book reports fresh ++ transcript (book.process reports fresh).1 rest

def everyone : Observers Unit := ⟨some (), some (), some ()⟩

theorem followAll_heard {live : LiveBook Unit} (h : live.observers = everyone) (replica : Replica)
    (reports : List Report) (fresh : Bool) :
    followAll replica ((live.accept reports fresh).heard.map (·.2)) =
      replica.hear (live.book.process reports fresh).2.notice := by
  unfold LiveBook.accept
  rw [h]
  dsimp only
  cases (live.book.process reports fresh).2.notice with
  | none => rfl
  | some notice =>
    cases notice with
    | newBook levels => rfl
    | changed changes levels =>
      rcases hnext : replica.apply changes with ⟨next, misfit⟩
      simp [followAll, Observers.hear, everyone, follow, Replica.hear, hnext]

theorem announced_everyone (book : Book) (reports : List Report) (fresh : Bool) :
    ((announced everyone book reports fresh).map (·.2)).map announce = notices book reports fresh := by
  unfold announced notices
  cases fresh with
  | true => rfl
  | false => cases reports <;> rfl

namespace Run

/-- A run with its replica in step. -/
structure InStep (scale : ∀ side, Scale side S) (depth : Nat) (run : Run) : Prop where
  shaped : ∃ ladders, run.live.book.Shaped scale depth ladders
  holds : run.replica.Holds scale run.live.book.visible
  observers : run.live.observers = everyone

variable {run : Run}

theorem InStep.settle (h : run.InStep scale depth) {reports : List Report} (hp : Reported S reports)
    (fresh verify : Bool) (latency : UInt64) :
    ∃ next, run.settle (run.live.accept reports fresh) verify latency =
        (next, notices run.live.book reports fresh, none) ∧
      next.InStep scale depth ∧ next.live.book = (run.live.book.process reports fresh).1 ∧
      next.line = run.line := by
  obtain ⟨ladders, hshaped⟩ := h.shaped
  obtain ⟨hnext, htells⟩ := hshaped.process hp fresh
  obtain ⟨replica, hhear, hholds⟩ :=
    Replica.hear_of_tells run.replica htells hnext.choose_spec.listed (.inl h.holds)
  have hagrees : replica.agrees (run.live.book.process reports fresh).1.snapshot = true := by
    simp [Replica.agrees, Replica.checksum, hholds.levels, Book.snapshot, Snapshot.ofLevels]
  have hbook : ((run.live.accept reports fresh).timed latency).book =
      (run.live.book.process reports fresh).1 := rfl
  refine ⟨{ run with live := (run.live.accept reports fresh).timed latency, replica }, ?_,
    ⟨hnext, hholds, h.observers⟩, hbook, rfl⟩
  simp only [Run.settle, followAll_heard h.observers, hhear, hbook, hagrees, if_true, ite_self]
  rw [accept_heard, h.observers, announced_everyone]

theorem InStep.next (h : run.InStep scale depth) : { run with line := run.line + 1 }.InStep scale depth :=
  ⟨h.shaped, h.holds, h.observers⟩

/-- What one line comes to. -/
theorem InStep.step (h : run.InStep scale depth) {line : String}
    (hp : ∀ batch ∈ batch? line, Reported S batch.1) (verify : Bool) (latency : UInt64) :
    (∃ fault, fault? line = some fault ∧
      (run.step verify latency line).2 = ([], some (.malformed (run.line + 1) fault))) ∨
    (fault? line = none ∧ batch? line = none ∧
      ∃ next, run.step verify latency line = (next, [], none) ∧ next.InStep scale depth ∧
        next.live.book = run.live.book ∧ next.line = run.line + 1) ∨
    ∃ reports fresh, fault? line = none ∧ batch? line = some (reports, fresh) ∧
      ∃ next, run.step verify latency line = (next, notices run.live.book reports fresh, none) ∧
        next.InStep scale depth ∧ next.live.book = (run.live.book.process reports fresh).1 ∧
        next.line = run.line + 1 := by
  by_cases hblank : isBlank line = true
  · refine .inr (.inl ⟨?_, ?_, { run with line := run.line + 1 }, ?_, h.next, rfl, rfl⟩)
    · simp only [fault?, hblank, if_true]
    · simp only [batch?, hblank, if_true]
    · simp only [Run.step, Run.read, hblank, if_true]
  cases hentry : Entry.ofText line with
  | error fault =>
    refine .inl ⟨fault, ?_, ?_⟩
    · simp only [fault?, hblank, hentry, if_false, Bool.false_eq_true]
    · simp only [Run.step, Run.read, hblank, hentry, if_false, Bool.false_eq_true]
      rfl
  | ok entry =>
    have hbatch : batch? line = some (entry.reports, entry.fresh) := by
      simp only [batch?, hblank, hentry, if_false, Bool.false_eq_true]
    obtain ⟨next, hsettle, hnext, hbook, hline⟩ :=
      h.next.settle (hp _ hbatch) entry.fresh verify latency
    refine .inr (.inr ⟨entry.reports, entry.fresh, ?_, hbatch, next, ?_, hnext, hbook, hline⟩)
    · simp only [fault?, hblank, hentry, if_false, Bool.false_eq_true]
    · simp only [Run.step, Run.read, hblank, hentry, if_false, Bool.false_eq_true]
      exact hsettle

theorem InStep.steps (h : run.InStep scale depth) {texts : List String}
    (hp : ∀ batch ∈ batches texts, Reported S batch.1) (verify : Bool) (latency : UInt64) :
    (run.steps verify latency texts).2 = (transcript run.live.book (batches texts),
      (firstFault? texts).map fun flaw => .malformed (run.line + flaw.1) flaw.2) := by
  induction texts generalizing run with
  | nil => rfl
  | cons line rest ih =>
    have hshift : (firstFault? rest).map (fun flaw => Failure.malformed (run.line + 1 + flaw.1) flaw.2) =
        ((firstFault? rest).map fun flaw => (flaw.1 + 1, flaw.2)).map
          fun flaw => .malformed (run.line + flaw.1) flaw.2 := by
      rw [Option.map_map]
      congr 1
      funext flaw
      simp only [Function.comp_apply, Nat.add_assoc, Nat.add_comm 1]
    have hbatch : ∀ batch ∈ batch? line, Reported S batch.1 := by
      intro batch hin
      refine hp batch ?_
      rw [batches_of_sound (fault?_of_batch hin), hin]
      exact List.mem_cons_self
    rcases h.step hbatch verify latency with
      ⟨fault, hfault, hstep⟩ | ⟨hsound, hnone, next, hstep, hnext, hbook, hline⟩ |
      ⟨reports, fresh, hsound, hsome, next, hstep, hnext, hbook, hline⟩
    · rcases hrun : run.step verify latency line with ⟨last, written, failure⟩
      rw [hrun] at hstep
      obtain ⟨rfl, rfl⟩ := Prod.mk.inj hstep
      rw [Run.steps, hrun, batches_of_fault hfault, firstFault?_of_fault hfault]
      rfl
    · rw [batches_of_sound hsound, hnone, Option.toList_none, List.nil_append] at hp ⊢
      rw [Run.steps, hstep, firstFault?_of_sound hsound, ← hshift, ← hline, ← hbook, ← ih hnext hp]
      rfl
    · rw [batches_of_sound hsound, hsome, Option.toList_some, List.singleton_append] at hp ⊢
      have hrest := ih hnext (List.forall_mem_cons.mp hp).2
      rw [Run.steps, hstep, firstFault?_of_sound hsound, ← hshift, ← hline, transcript, ← hbook]
      simp only [hrest]

end Run

end MarketDepth.Replay
