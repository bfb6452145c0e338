import Gringofts.App.Replay

/-!
# The SQLite store

`SQLiteStoreDao::persist` writes the events and the commands of a call in one transaction. Each
command is told that it has been persisted as soon as its row has been inserted, which is before the
transaction commits. And when a statement fails, the exception leaves the function as it is: nothing
rolls the transaction back, unless the failure itself has.

So a failure has three consequences. Commands have been told that they are persisted, and they may
not be. The rows that were inserted may be read on this connection from then on, though they are not
durable. And the next call cannot start its transaction, if there is one already.

SQLite is a parameter. Which statements fail is left open, and so is whether a failure rolls the
transaction back: for some errors it does.

## Main definitions

* `Sqlite` — connections and statements, with what is used of them
* `SQLiteStoreDao.persist`, `SQLiteStoreDao.persistAll`
* `PersistRecord.Safe` — what a call ought to do
* `PersistCall.Undisturbed` — nothing fails, or it fails in time

## Main results

* `SQLiteStoreDao.safe_persist_iff` — one call
* `SQLiteStoreDao.sqlite_store_is_safe_iff`, `sqlite_store_acknowledges_early`
-/

namespace Gringofts

/-- A row of one of the two tables. The tracking context is not stored. -/
inductive SqliteRow
  | command (metaData : CommandMetaData) (payload : List UInt8)
  | event (metaData : EventMetaData) (payload : List UInt8)
  deriving DecidableEq

/-- The row of a command. The payload is bound as a text that ends at its first zero byte. -/
def CommandEntry.row (c : CommandEntry (List UInt8)) : SqliteRow :=
  .command { c.metaData with trackingContext := "" } (c.entry.takeWhile fun b => b ≠ 0)

/-- The row of an event. -/
def EventEntry.row (e : EventEntry (List UInt8)) : SqliteRow :=
  .event { e.metaData with trackingContext := "" } (e.entry.takeWhile fun b => b ≠ 0)

/-- **SQLite**, with a connection of type `δ`: the statements, each with whether it works, and what
they do to transactions. A statement that fails may leave the transaction open or roll it back. -/
structure Sqlite (δ : Type) where
  /-- The connection when it has been opened. -/
  opened : δ
  execBegin : δ → Bool × δ
  insert : SqliteRow → δ → Bool × δ
  execCommit : δ → Bool × δ
  /-- A transaction is open. -/
  InTransaction : δ → Prop
  /-- The rows that are durable. -/
  committed : δ → List SqliteRow
  /-- The rows that a query sees on this connection. -/
  visible : δ → List SqliteRow
  opened_idle : ¬ InTransaction opened
  begin_inside : ∀ c, InTransaction c → (execBegin c).1 = false
  begin_opens : ∀ c, (execBegin c).1 = true → InTransaction (execBegin c).2
  begin_fails : ∀ c, (execBegin c).1 = false → (InTransaction (execBegin c).2 ↔ InTransaction c)
  insert_stays : ∀ c row, InTransaction c → (insert row c).1 = true →
    InTransaction (insert row c).2
  commit_ends : ∀ c, (execCommit c).1 = true → ¬ InTransaction (execCommit c).2
  committed_begin : ∀ c, committed (execBegin c).2 = committed c
  committed_insert : ∀ c row, InTransaction c → committed (insert row c).2 = committed c
  committed_commit : ∀ c, (execCommit c).1 = false → committed (execCommit c).2 = committed c
  visible_idle : ∀ c, ¬ InTransaction c → visible c = committed c

/-- A call of `persist`. -/
structure PersistCall where
  events : List (EventEntry (List UInt8))
  commands : List (CommandEntry (List UInt8))

/-- How a call ends. -/
inductive Ending
  | returned
  | thrown (what : String)
  /-- A failed assertion. The process ends, and the connection is closed. -/
  | aborted
  deriving DecidableEq

/-- What a command is told. -/
inductive Notice
  /-- `onPersisted`. -/
  | persisted
  /-- `onPersistFailed`. -/
  | failed (code : ℕ)
  deriving DecidableEq

namespace SQLiteStoreDao

variable {δ : Type} (db : Sqlite δ)

/-! ## Writing -/

/-- The exception of `handleResultCode`. -/
def saveError : Ending :=
  .thrown ("Error: Failed on save or query, possible reasons: 1. table doesn't exist; " ++
    "2. failed on constraint.")

/-- `persist(events)`. -/
def persistEvents : List (EventEntry (List UInt8)) → δ → δ × Ending
  | [], c => (c, .returned)
  | e :: events, c =>
    if e.metaData.id = 0 ∨ e.metaData.commandId = 0 then (c, .aborted)
    else if (db.insert e.row c).1 then persistEvents events (db.insert e.row c).2
    else ((db.insert e.row c).2, saveError)

/-- `persist(commands)`, with the position of the next command, and what commands have been
told. -/
def persistCommands : List (CommandEntry (List UInt8)) → ℕ → δ → List (ℕ × Notice) →
    δ × List (ℕ × Notice) × Ending
  | [], _, c, notices => (c, notices, .returned)
  | x :: commands, position, c, notices =>
    if x.metaData.id = 0 then (c, notices, .aborted)
    else if (db.insert x.row c).1 then
      persistCommands commands (position + 1) (db.insert x.row c).2
        (notices ++ [(position, .persisted)])
    else ((db.insert x.row c).2, notices ++ [(position, .failed 503)], saveError)

/-- `COMMIT`, if the loop over the commands has returned. -/
def commit : δ × List (ℕ × Notice) × Ending → δ × List (ℕ × Notice) × Ending
  | (c, notices, .returned) =>
    if (db.execCommit c).1 then ((db.execCommit c).2, notices, .returned)
    else
      ((db.execCommit c).2, notices,
        .thrown "Cannot persist commands and events, error when committing transaction")
  | x => x

/-- What follows the loop over the events. -/
def persistRest (commands : List (CommandEntry (List UInt8))) :
    δ × Ending → δ × List (ℕ × Notice) × Ending
  | (c, .returned) => commit db (persistCommands db commands 0 c [])
  | (c, ending) => (c, [], ending)

/-- `persist(commands, events)`: the connection afterwards, what the commands have been told, and
how the call ends. -/
def persist (c : δ) (call : PersistCall) : δ × List (ℕ × Notice) × Ending :=
  if (db.execBegin c).1 then
    persistRest db call.commands (persistEvents db call.events (db.execBegin c).2)
  else
    ((db.execBegin c).2, [],
      .thrown "Cannot persist commands and events, error when starting transaction")

end SQLiteStoreDao

/-- A call that has been made. -/
structure PersistRecord (δ : Type) where
  before : δ
  call : PersistCall
  after : δ
  notices : List (ℕ × Notice)
  ending : Ending

namespace SQLiteStoreDao

variable {δ : Type} (db : Sqlite δ)

/-- The record of a call. -/
def record (c : δ) (call : PersistCall) : PersistRecord δ where
  before := c
  call := call
  after := (persist db c call).1
  notices := (persist db c call).2.1
  ending := (persist db c call).2.2

/-- Calls one after the other, as long as the process runs. -/
def persistAll : List PersistCall → δ → List (PersistRecord δ)
  | [], _ => []
  | call :: calls, c =>
    record db c call ::
      if (record db c call).ending = .aborted then []
      else persistAll calls (record db c call).after

end SQLiteStoreDao

/-- **What a call ought to do.** A command is told that it is persisted only if the transaction
commits, no command is told anything twice, a call that throws leaves no rows to be read, and
afterwards no transaction is open, so that one can be started. -/
structure PersistRecord.Safe {δ : Type} (db : Sqlite δ) (r : PersistRecord δ) : Prop where
  acknowledges : ∀ position, (position, Notice.persisted) ∈ r.notices → r.ending = .returned
  once : (r.notices.map Prod.fst).Nodup
  hides : ∀ what, r.ending = .thrown what → db.visible r.after = db.visible r.before
  recovers : r.ending ≠ .aborted → ¬ db.InTransaction r.after

/-- The ids of the event are not `0`. -/
def EventEntry.Numbered (e : EventEntry (List UInt8)) : Prop :=
  ¬ (e.metaData.id = 0 ∨ e.metaData.commandId = 0)

/-- The id of the command is not `0`. -/
def CommandEntry.Numbered (c : CommandEntry (List UInt8)) : Prop := ¬ c.metaData.id = 0

namespace PersistCall

variable {δ : Type} (db : Sqlite δ)

/-- A statement that fails and rolls the transaction back. -/
def RollsBack (statement : δ → Bool × δ) (c : δ) : Prop :=
  (statement c).1 = false ∧ ¬ db.InTransaction (statement c).2

/-- The commands are all inserted, and committed. -/
def Commits : List (CommandEntry (List UInt8)) → δ → Prop
  | [], c => (db.execCommit c).1 = true
  | x :: commands, c =>
    x.Numbered ∧ (db.insert x.row c).1 = true ∧ Commits commands (db.insert x.row c).2

/-- The commands are committed, or the first statement fails and rolls back, or the first command
has no id. -/
def CommandsUndisturbed : List (CommandEntry (List UInt8)) → δ → Prop
  | [], c => (db.execCommit c).1 = true ∨ RollsBack db db.execCommit c
  | x :: commands, c =>
    ¬ x.Numbered ∨ RollsBack db (db.insert x.row) c ∨ Commits db (x :: commands) c

/-- The events are inserted and the commands are not disturbed, or it ends at an event that has no
id or whose statement fails and rolls back. -/
def EventsUndisturbed (commands : List (CommandEntry (List UInt8))) :
    List (EventEntry (List UInt8)) → δ → Prop
  | [], c => CommandsUndisturbed db commands c
  | e :: events, c =>
    ¬ e.Numbered ∨ RollsBack db (db.insert e.row) c ∨
      ((db.insert e.row c).1 = true ∧ EventsUndisturbed commands events (db.insert e.row c).2)

/-- **Nothing fails once the transaction has begun; or the first thing that does** is an assertion,
or a statement that rolls back, and no command has been told yet that it is persisted. -/
def Undisturbed (call : PersistCall) (c : δ) : Prop :=
  (db.execBegin c).1 = false ∨
    EventsUndisturbed db call.commands call.events (db.execBegin c).2

end PersistCall

namespace SQLiteStoreDao

variable {δ : Type} {db : Sqlite δ} {call : PersistCall} {notices : List (ℕ × Notice)} {b c c' : δ}

/-! ## How a call ends -/

/-- A call that returns is safe. -/
theorem safe_returned (hidle : ¬ db.InTransaction c') (honce : (notices.map Prod.fst).Nodup) :
    PersistRecord.Safe db ⟨b, call, c', notices, .returned⟩ :=
  ⟨fun _ _ => rfl, honce, nofun, fun _ => hidle⟩

/-- A call in which an assertion fails is safe if no command has been acknowledged. -/
theorem safe_aborted_iff (honce : (notices.map Prod.fst).Nodup) :
    PersistRecord.Safe db ⟨b, call, c', notices, .aborted⟩ ↔
      ∀ position, (position, Notice.persisted) ∉ notices := by
  constructor
  · intro hsafe position hmem
    cases hsafe.acknowledges position hmem
  · intro hnone
    exact ⟨fun position hmem => absurd hmem (hnone position), honce, nofun, fun h => absurd rfl h⟩

/-- A call that throws is safe if moreover the transaction has been rolled back. -/
theorem safe_thrown_iff {what : String} (hb : ¬ db.InTransaction b)
    (hcommitted : db.committed c' = db.committed b) (honce : (notices.map Prod.fst).Nodup) :
    PersistRecord.Safe db ⟨b, call, c', notices, .thrown what⟩ ↔
      (∀ position, (position, Notice.persisted) ∉ notices) ∧ ¬ db.InTransaction c' := by
  constructor
  · intro hsafe
    refine ⟨fun position hmem => ?_, hsafe.recovers nofun⟩
    cases hsafe.acknowledges position hmem
  · rintro ⟨hnone, hidle⟩
    refine ⟨fun position hmem => absurd hmem (hnone position), honce, fun _ _ => ?_, fun _ => hidle⟩
    change db.visible c' = db.visible b
    rw [db.visible_idle c' hidle, db.visible_idle b hb, hcommitted]

/-- How a call that has come to its end is judged. -/
def Judged (db : Sqlite δ) (b : δ) (call : PersistCall) (x : δ × List (ℕ × Notice) × Ending) :
    Prop := PersistRecord.Safe db ⟨b, call, x.1, x.2.1, x.2.2⟩

/-- Where the call stands in its transaction: nothing has been committed, and the commands up to a
position have been told something. -/
structure Stands (db : Sqlite δ) (b c : δ) (position : ℕ) (notices : List (ℕ × Notice)) : Prop where
  idle : ¬ db.InTransaction b
  inside : db.InTransaction c
  committed_eq : db.committed c = db.committed b
  positions : notices.map Prod.fst = List.range position

namespace Stands

variable {position : ℕ}

theorem once (h : Stands db b c position notices) : (notices.map Prod.fst).Nodup := by
  rw [h.positions]
  exact List.nodup_range

theorem positions_snoc (h : Stands db b c position notices) (notice : Notice) :
    (notices ++ [(position, notice)]).map Prod.fst = List.range (position + 1) := by
  rw [List.map_append, h.positions, List.range_succ]
  rfl

/-- An event has been inserted. -/
theorem insert (h : Stands db b c position notices) {row : SqliteRow}
    (hrow : (db.insert row c).1 = true) :
    Stands db b (db.insert row c).2 position notices where
  idle := h.idle
  inside := db.insert_stays c row h.inside hrow
  committed_eq := (db.committed_insert c row h.inside).trans h.committed_eq
  positions := h.positions

/-- A command has been inserted, and told. -/
theorem told (h : Stands db b c position notices) {row : SqliteRow} (notice : Notice)
    (hrow : (db.insert row c).1 = true) :
    Stands db b (db.insert row c).2 (position + 1) (notices ++ [(position, notice)]) :=
  { h.insert hrow with positions := h.positions_snoc notice }

/-- `COMMIT`. -/
theorem judged_commit_iff (h : Stands db b c position notices) :
    Judged db b call (commit db (c, notices, .returned)) ↔ (db.execCommit c).1 = true ∨
      (PersistCall.RollsBack db db.execCommit c ∧
        ∀ position, (position, Notice.persisted) ∉ notices) := by
  rw [commit, Judged, PersistCall.RollsBack]
  cases hcommit : (db.execCommit c).1 with
  | true => exact iff_of_true (safe_returned (db.commit_ends c hcommit) h.once) (Or.inl rfl)
  | false =>
    refine Iff.trans (safe_thrown_iff h.idle ((db.committed_commit c hcommit).trans h.committed_eq)
      h.once) ?_
    simp [and_comm]

/-- A command cannot be inserted. -/
theorem judged_insert_iff (h : Stands db b c position notices) (row : SqliteRow) :
    Judged db b call
        ((db.insert row c).2, notices ++ [(position, .failed 503)], saveError) ↔
      (∀ position, (position, Notice.persisted) ∉ notices) ∧
        ¬ db.InTransaction (db.insert row c).2 := by
  refine (safe_thrown_iff h.idle ((db.committed_insert c row h.inside).trans h.committed_eq)
    ?_).trans ?_
  · rw [h.positions_snoc]
    exact List.nodup_range
  · simp

/-- **After a command has been told that it is persisted**, everything has to work. -/
theorem judged_told_iff (h : Stands db b c position notices)
    (commands : List (CommandEntry (List UInt8)))
    (htold : ∃ position, (position, Notice.persisted) ∈ notices) :
    Judged db b call (commit db (persistCommands db commands position c notices)) ↔
      PersistCall.Commits db commands c := by
  have hnot : ¬ ∀ position, (position, Notice.persisted) ∉ notices := fun hnone =>
    htold.elim hnone
  induction commands generalizing position c notices with
  | nil =>
    rw [persistCommands, h.judged_commit_iff]
    exact or_iff_left fun hback => hnot hback.2
  | cons x commands ih =>
    rw [persistCommands, PersistCall.Commits]
    by_cases hid : x.metaData.id = 0
    · rw [if_pos hid]
      exact iff_of_false (mt (safe_aborted_iff h.once).mp hnot) fun hall => hall.1 hid
    · rw [if_neg hid, and_iff_right (show x.Numbered from hid)]
      cases hrow : (db.insert x.row c).1 with
      | true =>
        obtain ⟨p, hp⟩ := htold
        have htold' : ∃ p, (p, Notice.persisted) ∈ notices ++ [(position, .persisted)] :=
          ⟨p, List.mem_append_left _ hp⟩
        rw [if_pos rfl, and_iff_right rfl]
        exact ih (h.told .persisted hrow) htold' fun hnone => htold'.elim hnone
      | false =>
        rw [if_neg Bool.false_ne_true]
        exact iff_of_false (fun hsafe => hnot ((h.judged_insert_iff x.row).mp hsafe).1)
          fun hall => Bool.false_ne_true hall.1

/-- The commands, before any of them has been told anything. -/
theorem judged_commands_iff (h : Stands db b c 0 [])
    (commands : List (CommandEntry (List UInt8))) :
    Judged db b call (commit db (persistCommands db commands 0 c [])) ↔
      PersistCall.CommandsUndisturbed db commands c := by
  cases commands with
  | nil =>
    rw [persistCommands, h.judged_commit_iff]
    exact or_congr_right (and_iff_left nofun)
  | cons x commands =>
    rw [persistCommands, PersistCall.CommandsUndisturbed, PersistCall.Commits,
      PersistCall.RollsBack]
    by_cases hid : x.metaData.id = 0
    · rw [if_pos hid]
      exact iff_of_true ((safe_aborted_iff h.once).mpr nofun) (Or.inl fun hnum => hnum hid)
    · have hnum : x.Numbered := hid
      rw [if_neg hid, or_iff_right (not_not.mpr hnum), and_iff_right hnum]
      cases hrow : (db.insert x.row c).1 with
      | true =>
        rw [if_pos rfl, (h.told .persisted hrow).judged_told_iff commands
          ⟨0, List.mem_append_right _ List.mem_cons_self⟩]
        simp
      | false =>
        rw [if_neg Bool.false_ne_true]
        exact (h.judged_insert_iff x.row).trans (by simp)

/-- The events and what follows them. -/
theorem judged_events_iff (h : Stands db b c 0 []) (commands : List (CommandEntry (List UInt8)))
    (events : List (EventEntry (List UInt8))) :
    Judged db b call (persistRest db commands (persistEvents db events c)) ↔
      PersistCall.EventsUndisturbed db commands events c := by
  induction events generalizing c with
  | nil => exact h.judged_commands_iff commands
  | cons e events ih =>
    rw [persistEvents, PersistCall.EventsUndisturbed, PersistCall.RollsBack]
    by_cases hid : e.metaData.id = 0 ∨ e.metaData.commandId = 0
    · rw [if_pos hid]
      exact iff_of_true ((safe_aborted_iff h.once).mpr nofun) (Or.inl fun hnum => hnum hid)
    · rw [if_neg hid, or_iff_right (not_not.mpr (show e.Numbered from hid))]
      cases hrow : (db.insert e.row c).1 with
      | true =>
        rw [if_pos rfl, ih (h.insert hrow)]
        simp
      | false =>
        rw [if_neg Bool.false_ne_true]
        exact (safe_thrown_iff h.idle
          ((db.committed_insert c e.row h.inside).trans h.committed_eq) h.once).trans (by simp)

end Stands

/-- **One call is safe** exactly if it is undisturbed. -/
theorem safe_persist_iff (hc : ¬ db.InTransaction c) (call : PersistCall) :
    (record db c call).Safe db ↔ call.Undisturbed db c := by
  change Judged db c call (persist db c call) ↔ _
  rw [persist, PersistCall.Undisturbed]
  cases hbegin : (db.execBegin c).1 with
  | true =>
    have hstands : Stands db c (db.execBegin c).2 0 [] :=
      ⟨hc, db.begin_opens c hbegin, db.committed_begin c, rfl⟩
    rw [if_pos rfl, or_iff_right nofun]
    exact hstands.judged_events_iff call.commands call.events
  | false =>
    rw [if_neg Bool.false_ne_true]
    have honce : (([] : List (ℕ × Notice)).map Prod.fst).Nodup := List.nodup_nil
    refine iff_of_true ((safe_thrown_iff hc (db.committed_begin c) honce).mpr ?_) (Or.inl rfl)
    exact ⟨nofun, mt (db.begin_fails c hbegin).mp hc⟩

/-! ## Calls one after the other -/

/-- As long as the calls are undisturbed, no transaction is left open. -/
theorem safe_persistAll_iff (calls : List PersistCall) (hc : ¬ db.InTransaction c) :
    (∀ r ∈ persistAll db calls c, r.Safe db) ↔
      ∀ r ∈ persistAll db calls c, r.call.Undisturbed db r.before := by
  induction calls generalizing c with
  | nil => exact iff_of_true nofun nofun
  | cons call calls ih =>
    rw [persistAll, List.forall_mem_cons, List.forall_mem_cons]
    have hcall := safe_persist_iff hc call
    change _ ↔ call.Undisturbed db c ∧ _
    rw [← hcall]
    refine and_congr_right fun hsafe => ?_
    split
    · exact iff_of_true nofun nofun
    · next hrunning => exact ih (hsafe.recovers hrunning)

/-- **When the SQLite store is safe.** For every database, over every sequence of calls and
whichever statements fail: every call tells commands that they are persisted only if it commits,
tells none twice, leaves nothing to be read if it throws and lets the next transaction begin,
exactly if in every call nothing fails once the transaction has begun, or the first thing that fails
is an assertion or rolls back, before any command is told that it is persisted. -/
theorem sqlite_store_is_safe_iff (db : Sqlite δ) (calls : List PersistCall) :
    (∀ r ∈ persistAll db calls db.opened, r.Safe db) ↔
      ∀ r ∈ persistAll db calls db.opened, r.call.Undisturbed db r.before :=
  safe_persistAll_iff calls db.opened_idle

end SQLiteStoreDao

namespace Scenario

/-- A connection: the rows that are durable, and those of the transaction that is open. -/
structure Rows where
  committed : List SqliteRow
  pending : Option (List SqliteRow)

/-- A command with this id. -/
def storedCommand (id : ℕ) : CommandEntry (List UInt8) := ⟨⟨id, 1, 0, 0, 0, 0, ""⟩, [7]⟩

/-- A database with the row of the command `2`. Only a row that is there already cannot be inserted,
and the transaction stays open then. -/
def constrained : Sqlite Rows where
  opened := ⟨[(storedCommand 2).row], none⟩
  execBegin c := if c.pending.isSome then (false, c) else (true, { c with pending := some [] })
  insert row c :=
    if row ∈ c.committed ++ c.pending.getD [] then (false, c)
    else (true, { c with pending := some (c.pending.getD [] ++ [row]) })
  execCommit c := (true, ⟨c.committed ++ c.pending.getD [], none⟩)
  InTransaction c := c.pending.isSome = true
  committed := Rows.committed
  visible c := c.committed ++ c.pending.getD []
  opened_idle := nofun
  begin_inside c h := by rw [if_pos h]
  begin_opens c h := by
    split
    · assumption
    · rfl
  begin_fails c h := by
    split
    · rfl
    · next hnone =>
      rw [if_neg hnone] at h
      cases h
  insert_stays c row h hrow := by
    split
    · exact h
    · rfl
  commit_ends c _ := nofun
  committed_begin c := by split <;> rfl
  committed_insert c row _ := by split <;> rfl
  committed_commit c h := by cases h
  visible_idle c h := by
    have hnone : c.pending = none := by simpa using h
    rw [hnone]
    exact List.append_nil _

/-- The second of two commands cannot be inserted. -/
def disturbedCall : PersistCall := ⟨[], [storedCommand 1, storedCommand 2]⟩

/-- A call in which everything would work. -/
def quietCall : PersistCall := ⟨[], [storedCommand 3]⟩

end Scenario

open Scenario in
/-- **A command that is told it is persisted, and is not.** The call inserts one command, tells it,
and throws at the next one, of which there is a row already. The row of the first one can be read,
and is not durable. And the next call, in which every statement would work, cannot begin. -/
theorem sqlite_store_acknowledges_early :
    (SQLiteStoreDao.persistAll constrained [disturbedCall, quietCall] constrained.opened).map
        (fun r => (r.notices, r.ending, constrained.committed r.after,
          constrained.visible r.after)) =
      [([(0, .persisted), (1, .failed 503)], SQLiteStoreDao.saveError, [(storedCommand 2).row],
          [(storedCommand 2).row, (storedCommand 1).row]),
        ([], .thrown "Cannot persist commands and events, error when starting transaction",
          [(storedCommand 2).row], [(storedCommand 2).row, (storedCommand 1).row])] ∧
      ¬ ∀ r ∈ SQLiteStoreDao.persistAll constrained [disturbedCall, quietCall] constrained.opened,
        r.Safe constrained := by
  refine ⟨rfl, fun hsafe => ?_⟩
  have hreturned := (hsafe _ List.mem_cons_self).acknowledges 0 List.mem_cons_self
  cases hreturned

end Gringofts
