import Gringofts.App.Ledger
import Gringofts.App.Service

/-!
# What an application promises

The application of a leader processes a command on its own state, gives it the next index, and only
then hands it over to Raft. By then the node may have lost its office, may have regained it in
another term, and its log may have changed.

The argument is about the log of a leader in its term. The application that takes office knows how
long this log is, and its state is the one that this log gives. From then on it extends the log by
each command it numbers (`Ledger.promise`), and Raft appends nothing in this term but what was
promised. There is one exception: the node may have lost its office while the application was
waiting. Then the state may come from a later log, but nothing of the term will be appended any more
(`App.Office`).

## Main definitions

* `Scene` — what the application of a node can find
* `Scene.Passes` — the cluster goes on
* `PersistEntry.Promised`, `ReplyTask.Founded`, `App.Office` — what holds of a command on its way,
  of one that waits for its answer, and of an application that leads
* `App.Inv` — the invariant of an application

## Main results

* `App.Inv.passes` — it is kept while Raft goes on
* `App.Inv.commandLoop`, `App.Inv.processCommand`, `App.Inv.replyTask`, `App.Inv.withLoop` — and by
  each thread of the application
-/

namespace Gringofts

open Replication

variable {S : Setup} {σ ε : Type} {known : List LogEntry} {L : Ledger} {t index term k : ℕ}
  {phase : ReplyPhase} {l : Log} {n : Node}

/-! ## States -/

namespace StateMachine

variable {m : StateMachine σ ε} {d : EntryDecoder ε} {l l' : List LogEntry} {k : ℕ}

theorem stateAt_of_agree (h : Agree l l' k) : m.stateAt d l k = m.stateAt d l' k := by
  rw [stateAt, stateAt, EntryDecoder.bundles, EntryDecoder.bundles, h.2.2]

/-- One more entry. -/
theorem stateAt_concat {e : LogEntry} {b : Bundle ε} (hb : d.bundle? e = some b) :
    m.stateAt d (l ++ [e]) (l.length + 1) =
      b.events.foldl m.applyEvent (m.stateAt d l l.length) := by
  have hlast : d.bundles (l ++ [e]) l.length (l.length + 1) = [b] := by
    rw [EntryDecoder.bundles, List.take_of_length_le (by simp), List.drop_left]
    simp [hb]
  rw [← replay_stateAt (Nat.le_succ l.length), hlast,
    stateAt_of_isPrefix (List.prefix_append l [e]) (Nat.le_refl _)]
  rfl

end StateMachine

/-- **The entry of a command is read back.** -/
theorem PersistEntry.bundle?_entry {codec : EntryCodec ε} {p : PersistEntry σ ε}
    (h : p.events ≠ []) :
    codec.toEntryDecoder.bundle? (p.entry codec) = some ⟨p.index, p.events⟩ := by
  have hdecode := codec.decode_encode (p.entry codec) ⟨p.index, p.events⟩ rfl
  rw [EntryDecoder.bundle?, if_neg (by simp [entry]), hdecode]
  simp [h]

theorem EventApplyLoop.Tracks.le_commit {m : StateMachine σ ε} {d : EntryDecoder ε} {v : RaftView}
    {offset p : ℕ} {l : EventApplyLoop σ ε} (h : l.Tracks m d v known offset p) :
    p ≤ max offset v.commitIndex := by
  obtain ⟨k, hf, -⟩ := h.follows
  exact (hf.phase.le.trans hf.store.le_covered).trans hf.store.covered_le

/-! ## The invariant of an application -/

/-- What the application of a node can find. -/
structure Scene where
  /-- The leader of each term. -/
  leader : ℕ → Option ℕ
  ledger : Ledger
  /-- The committed log. -/
  known : List LogEntry
  node : Node

/-- Does the thread wait for its node to be ready? -/
def LoopPhase.waits : LoopPhase σ ε → Bool
  | .waiting => true
  | .sameTerm => true
  | .lastIndex _ => true
  | .commitIndex _ _ => true
  | .loadedIndex _ _ _ => true
  | .scanning _ _ => true
  | .ready _ => true
  | _ => false

/-- What a thread of the reply loop has found in the committed log. -/
def ReplyPhase.Finds (known : List LogEntry) (commitIndex index term : ℕ) : ReplyPhase → Prop
  | .reached => index ≤ commitIndex
  | .compared committed => index ≤ commitIndex ∧
    ∃ e, entryAt known index = some e ∧ committed = decide (e.term = term)
  | _ => True

section Definitions

variable (m : StateMachine σ ε) (codec : EntryCodec ε) (s : Scene) (i : ℕ)

/-- **A command on its way.** If it is the one with its index in the log of its term, then it was
processed on the log before it. -/
structure PersistEntry.Promised (p : PersistEntry σ ε) : Prop where
  led : s.leader p.term = some i
  /-- A leader in office has promised it. -/
  office : s.node.role = .leader → s.node.log.currentTerm = p.term →
    p.index ≤ (s.ledger.promised p.term).length
  basis : p.index ≤ (s.ledger.promised p.term).length →
    entryAt (s.ledger.promised p.term) p.index = some (p.entry codec) ∧
      p.basis = m.stateAt codec.toEntryDecoder (s.ledger.promised p.term) (p.index - 1)

/-- **A command that waits for its answer.** -/
structure ReplyTask.Founded (task : ReplyTask σ ε) : Prop where
  led : s.leader task.term = some i
  events : task.events ≠ [] → task.index ≤ (s.ledger.promised task.term).length →
    (∃ e, entryAt (s.ledger.promised task.term) task.index = some e ∧
      codec.toEntryDecoder.bundle? e = some ⟨task.index, task.events⟩) ∧
    task.basis = m.stateAt codec.toEntryDecoder (s.ledger.promised task.term) (task.index - 1)
  /-- Without events, it was processed on the log of its term or on a committed log. -/
  noEvents : task.events = [] → task.index ≤ (s.ledger.promised task.term).length →
    task.basis = m.stateAt codec.toEntryDecoder (s.ledger.promised task.term) task.index ∨
    ∃ k, task.index ≤ k ∧ k ≤ s.node.commitIndex ∧
      task.basis = m.stateAt codec.toEntryDecoder s.known k
  finds : task.phase.Finds s.known s.node.commitIndex task.index task.term

namespace App

/-- **The application has taken office** in a term. Either its state is that of the log of the term,
or the node has lost the term again. -/
inductive Office (term lastCommandId : ℕ) (state : σ) : Prop
  | sound (hid : lastCommandId = (s.ledger.promised term).length)
      (hstate : state = m.stateAt codec.toEntryDecoder (s.ledger.promised term) lastCommandId)
  | lost (hleft : ¬ (s.node.role = .leader ∧ s.node.log.currentTerm = term))
      (hid : (s.ledger.promised term).length ≤ lastCommandId)
      (hstate : lastCommandId = (s.ledger.promised term).length →
        ∃ k, lastCommandId ≤ k ∧ k ≤ s.node.commitIndex ∧
          state = m.stateAt codec.toEntryDecoder s.known k)

variable (app : App σ ε)

/-- The application may have numbered commands in the term. -/
def Entered (t : ℕ) : Prop :=
  t < app.logStore.logStoreTerm ∨ t = app.logStore.logStoreTerm ∧
    app.logStore.logStoreRole = .leader ∧ app.phase.waits = false

/-- The application may have given a command of the term the index. -/
def Issued (t k : ℕ) : Prop :=
  app.Entered t ∧ (t = app.logStore.logStoreTerm → k ≤ app.lastCommandId)

/-- The application is in office. -/
def InOffice : Prop :=
  Office m codec s app.logStore.logStoreTerm app.lastCommandId app.appStateMachine

/-- An application that is told to lead is in office, or will learn that the term is over. -/
def Settled : Prop :=
  app.logStore.logStoreRole = .leader →
    app.logStore.logStoreTerm < s.node.log.currentTerm ∨ app.InOffice m codec s

/-- What holds where the command loop is. -/
def Stage : LoopPhase σ ε → Prop
  | .refresh => app.Settled m codec s
  | .term1 term1 =>
    (app.logStore.logStoreTerm ≤ term1 ∧ term1 ≤ s.node.log.currentTerm) ∧ app.Settled m codec s
  | .role term1 role =>
    (app.logStore.logStoreTerm ≤ term1 ∧ term1 ≤ s.node.log.currentTerm) ∧
    (role = .leader → s.node.log.currentTerm = term1 → s.node.role = .leader) ∧
    app.Settled m codec s
  | .accepting => app.logStore.logStoreRole = .leader ∧ app.InOffice m codec s
  | .persisting _ => app.logStore.logStoreRole = .leader ∧ app.InOffice m codec s
  | phase => app.logStore.logStoreRole = .leader ∧
    s.ledger.Fresh app.logStore.logStoreTerm ∧
    phase.Informed m codec.toEntryDecoder s.node s.known app.eventApplyLoop
      app.logStore.logStoreTerm

/-- **The invariant of the application of node `i`.** -/
structure Inv : Prop where
  checked : app.logStore.Checked
  term_le : app.logStore.logStoreTerm ≤ s.node.log.currentTerm
  led : app.logStore.logStoreRole = .leader → s.leader app.logStore.logStoreTerm = some i
  stage : app.Stage m codec s app.phase
  /-- Nothing was promised in a term that the application has not entered. -/
  fresh : s.node.role = .leader → ¬ app.Entered s.node.log.currentTerm →
    s.ledger.Fresh s.node.log.currentTerm
  pending : ∀ p ∈ app.pending, app.Issued p.term p.index ∧ p.Promised m codec s i
  tasks : ∀ task ∈ app.tasks, app.Issued task.term task.index ∧ task.Founded m codec s i
  loop : app.eventApplyLoop.Torn ∨
    ∃ offset p, app.eventApplyLoop.Tracks m codec.toEntryDecoder s.node.view s.known offset p

end App

end Definitions

theorem App.stage_of_waits {m : StateMachine σ ε} {codec : EntryCodec ε} {s : Scene}
    {app : App σ ε} {phase : LoopPhase σ ε} (h : phase.waits = true) :
    app.Stage m codec s phase ↔ app.logStore.logStoreRole = .leader ∧
      s.ledger.Fresh app.logStore.logStoreTerm ∧
      phase.Informed m codec.toEntryDecoder s.node s.known app.eventApplyLoop
        app.logStore.logStoreTerm := by
  cases phase <;> first | exact Iff.rfl | cases h

theorem App.mem_pending {app : App σ ε} {p : PersistEntry σ ε} :
    p ∈ app.pending ↔ (∃ batch ∈ app.clientRequests, p ∈ batch) ∨ p ∈ app.batch ∨
      p ∈ app.persistQueue ∨ app.phase = .persisting p := by
  rw [pending, List.mem_append, List.mem_append, List.mem_append, List.mem_flatten]
  refine or_congr_right (or_congr_right (or_congr_right ?_))
  cases app.phase <;> simp [eq_comm]

/-- With no command in its hands, the command loop adds nothing to what is on its way. -/
theorem App.pending_of_idle {app : App σ ε} (phase : LoopPhase σ ε)
    (hidle : ∀ p, phase ≠ .persisting p) {p : PersistEntry σ ε}
    (hp : p ∈ ({ app with phase := phase } : App σ ε).pending) : p ∈ app.pending := by
  rw [mem_pending] at hp ⊢
  exact hp.imp_right (Or.imp_right (Or.imp_right fun heq => absurd heq (hidle p)))

/-! ## Raft goes on -/

namespace Scene

/-- What is right about every scene of node `i`. -/
structure Ok (s : Scene) (i : ℕ) : Prop where
  commit_le : s.node.commitIndex ≤ s.known.length
  leads : s.node.role = .leader → s.leader s.node.log.currentTerm = some i

/-- **Raft goes on**, as far as node `i` is concerned, and the node goes on running. -/
structure Passes (i : ℕ) (s s' : Scene) : Prop where
  leader : ∀ t, s.leader t = some i → s'.leader t = some i
  promised : ∀ t, s.leader t = some i → s'.ledger.promised t = s.ledger.promised t
  known : s.known <+: s'.known
  commit_le : s.node.commitIndex ≤ s'.node.commitIndex
  term_le : s.node.log.currentTerm ≤ s'.node.log.currentTerm
  stays : s.node.role = .leader → s'.node.log.currentTerm = s.node.log.currentTerm →
    s'.node.role = .leader
  /-- A term that was lost is not regained. -/
  office : ∀ t, s.leader t = some i → s'.node.role = .leader → s'.node.log.currentTerm = t →
    s.node.role = .leader ∧ s.node.log.currentTerm = t
  elected : s'.node.role = .leader →
    (s.node.role = .leader ∧ s'.node.log.currentTerm = s.node.log.currentTerm) ∨
      s'.ledger.Fresh s'.node.log.currentTerm

end Scene

section Passes

variable {m : StateMachine σ ε} {codec : EntryCodec ε} {s s' : Scene} {i : ℕ}

theorem Ledger.Fresh.of_promised {L' : Ledger} (h : L.Fresh t)
    (heq : L'.promised t = L.promised t) : L'.Fresh t := by
  rw [Fresh, heq]
  exact h

theorem ReplyPhase.Finds.mono {known' : List LogEntry} {commitIndex commitIndex' : ℕ}
    (h : phase.Finds known commitIndex index term) (hknown : known <+: known')
    (hcommit : commitIndex ≤ commitIndex') : phase.Finds known' commitIndex' index term := by
  cases phase with
  | reached => exact Nat.le_trans h hcommit
  | compared committed =>
    obtain ⟨hle, e, he, hc⟩ := h
    exact ⟨hle.trans hcommit, e, entryAt_of_isPrefix hknown he, hc⟩
  | _ => trivial

/-- A state of the committed log stays one. -/
theorem Scene.Passes.stateAt (hp : s.Passes i s') (hok : s.Ok i) {j : ℕ} {state : σ}
    (h : ∃ k, j ≤ k ∧ k ≤ s.node.commitIndex ∧ state = m.stateAt codec.toEntryDecoder s.known k) :
    ∃ k, j ≤ k ∧ k ≤ s'.node.commitIndex ∧
      state = m.stateAt codec.toEntryDecoder s'.known k := by
  obtain ⟨k, hj, hk, hstate⟩ := h
  refine ⟨k, hj, hk.trans hp.commit_le, ?_⟩
  rw [StateMachine.stateAt_of_isPrefix hp.known (hk.trans hok.commit_le)]
  exact hstate

theorem PersistEntry.Promised.passes {p : PersistEntry σ ε} (h : p.Promised m codec s i)
    (hp : s.Passes i s') : p.Promised m codec s' i := by
  have heq := hp.promised _ h.led
  refine ⟨hp.leader _ h.led, fun hrole hterm => ?_, ?_⟩
  · obtain ⟨hrole, hterm⟩ := hp.office _ h.led hrole hterm
    rw [heq]
    exact h.office hrole hterm
  · rw [heq]
    exact h.basis

theorem ReplyTask.Founded.passes {task : ReplyTask σ ε} (h : task.Founded m codec s i)
    (hok : s.Ok i) (hp : s.Passes i s') : task.Founded m codec s' i := by
  have heq := hp.promised _ h.led
  refine ⟨hp.leader _ h.led, ?_, fun hevents hle => ?_, h.finds.mono hp.known hp.commit_le⟩
  · rw [heq]
    exact h.events
  · rw [heq] at hle ⊢
    exact (h.noEvents hevents hle).imp_right (hp.stateAt hok)

/-- The log of a term becomes longer, above the index of the command. -/
theorem PersistEntry.Promised.extend {p : PersistEntry σ ε} (h : p.Promised m codec s i)
    (hgrown : s.ledger.promised p.term <+: L.promised p.term)
    (hle : p.index ≤ (L.promised p.term).length →
      p.index ≤ (s.ledger.promised p.term).length) :
    p.Promised m codec { s with ledger := L } i where
  led := h.led
  office hrole hterm := (h.office hrole hterm).trans hgrown.length_le
  basis hindex := by
    obtain ⟨hentry, hbasis⟩ := h.basis (hle hindex)
    refine ⟨entryAt_of_isPrefix hgrown hentry, ?_⟩
    rw [StateMachine.stateAt_of_isPrefix hgrown ((Nat.sub_le _ _).trans (hle hindex))]
    exact hbasis

theorem ReplyTask.Founded.extend {task : ReplyTask σ ε} (h : task.Founded m codec s i)
    (hgrown : s.ledger.promised task.term <+: L.promised task.term)
    (hle : task.index ≤ (L.promised task.term).length →
      task.index ≤ (s.ledger.promised task.term).length) :
    task.Founded m codec { s with ledger := L } i where
  led := h.led
  events hevents hindex := by
    obtain ⟨⟨e, he, hb⟩, hbasis⟩ := h.events hevents (hle hindex)
    refine ⟨⟨e, entryAt_of_isPrefix hgrown he, hb⟩, ?_⟩
    rw [StateMachine.stateAt_of_isPrefix hgrown ((Nat.sub_le _ _).trans (hle hindex))]
    exact hbasis
  noEvents hevents hindex := by
    refine (h.noEvents hevents (hle hindex)).imp_left fun hbasis => ?_
    rw [StateMachine.stateAt_of_isPrefix hgrown (hle hindex)]
    exact hbasis
  finds := h.finds

/-- The task of a command with events, which is pushed before the command. -/
theorem PersistEntry.Promised.founded {p : PersistEntry σ ε} (h : p.Promised m codec s i)
    (hevents : p.events ≠ []) :
    (⟨p.index, p.term, p.events, p.basis, .begin⟩ : ReplyTask σ ε).Founded m codec s i where
  led := h.led
  events _ hle :=
    ⟨⟨p.entry codec, (h.basis hle).1, PersistEntry.bundle?_entry hevents⟩, (h.basis hle).2⟩
  noEvents hnil := absurd hnil hevents
  finds := trivial

namespace App

theorem Office.passes {lastCommandId : ℕ} {state : σ}
    (h : Office m codec s term lastCommandId state) (hok : s.Ok i) (hp : s.Passes i s')
    (hlead : s.leader term = some i) : Office m codec s' term lastCommandId state := by
  have heq := hp.promised _ hlead
  cases h with
  | sound hid hstate =>
    refine .sound ?_ ?_
    · rw [heq]
      exact hid
    · rw [heq]
      exact hstate
  | lost hleft hid hstate =>
    refine .lost (fun hin => hleft (hp.office _ hlead hin.1 hin.2)) ?_ ?_
    · rw [heq]
      exact hid
    · rw [heq]
      exact fun hlast => hp.stateAt hok (hstate hlast)

variable {app : App σ ε}

theorem Settled.passes (h : app.Settled m codec s) (hok : s.Ok i) (hp : s.Passes i s')
    (hlead : app.logStore.logStoreRole = .leader →
      s.leader app.logStore.logStoreTerm = some i) : app.Settled m codec s' := fun hrole =>
  (h hrole).imp (fun hlt => hlt.trans_le hp.term_le) fun hin => hin.passes hok hp (hlead hrole)

theorem Stage.passes {phase : LoopPhase σ ε} (h : app.Stage m codec s phase) (hok : s.Ok i)
    (hp : s.Passes i s')
    (hlead : app.logStore.logStoreRole = .leader →
      s.leader app.logStore.logStoreTerm = some i) : app.Stage m codec s' phase := by
  by_cases hwaits : phase.waits = true
  · rw [stage_of_waits hwaits] at h ⊢
    obtain ⟨hrole, hfresh, hinformed⟩ := h
    exact ⟨hrole, hfresh.of_promised (hp.promised _ (hlead hrole)),
      hinformed.mono hp.commit_le hp.known fun offset p ht =>
        ⟨p, Nat.le_refl p, ht.grows hok.commit_le hp.known hp.commit_le⟩⟩
  · cases phase with
    | refresh => exact Settled.passes h hok hp hlead
    | term1 term1 => exact ⟨⟨h.1.1, h.1.2.trans hp.term_le⟩, h.2.passes hok hp hlead⟩
    | role term1 role =>
      obtain ⟨⟨hge, hle⟩, hrole, hsettled⟩ := h
      refine ⟨⟨hge, hle.trans hp.term_le⟩, fun hr hterm => ?_, hsettled.passes hok hp hlead⟩
      have hsame : s.node.log.currentTerm = term1 :=
        Nat.le_antisymm (hterm ▸ hp.term_le) hle
      exact hp.stays (hrole hr hsame) (hterm.trans hsame.symm)
    | accepting => exact ⟨h.1, h.2.passes hok hp (hlead h.1)⟩
    | persisting p => exact ⟨h.1, h.2.passes hok hp (hlead h.1)⟩
    | _ => exact absurd rfl hwaits

/-- **The invariant is kept while Raft goes on.** -/
theorem Inv.passes (h : app.Inv m codec s i) (hok : s.Ok i) (hp : s.Passes i s') :
    app.Inv m codec s' i where
  checked := h.checked
  term_le := h.term_le.trans hp.term_le
  led hrole := hp.leader _ (h.led hrole)
  stage := h.stage.passes hok hp h.led
  fresh hrole hentered := by
    rcases hp.elected hrole with ⟨hold, hterm⟩ | hfresh
    · rw [hterm] at hentered ⊢
      exact (h.fresh hold hentered).of_promised (hp.promised _ (hok.leads hold))
    · exact hfresh
  pending p hpending := (h.pending p hpending).imp_right fun hpromised => hpromised.passes hp
  tasks task htask := (h.tasks task htask).imp_right fun hfounded => hfounded.passes hok hp
  loop := h.loop.imp_right fun ⟨offset, p, ht⟩ =>
    ⟨offset, p, ht.grows hok.commit_le hp.known hp.commit_le⟩

end App

end Passes

/-! ## The threads of the application -/

namespace App

variable {m : StateMachine σ ε} {codec : EntryCodec ε} {s : Scene} {i : ℕ} {app app' : App σ ε}

/-- **The application goes on**, with nothing new on its way. What it has entered it has still
entered, and no index it has given is above its last one. -/
theorem Inv.next (h : app.Inv m codec s i) (hissued : ∀ t k, app.Issued t k → app'.Issued t k)
    (hpending : ∀ p ∈ app'.pending, p ∈ app.pending)
    (htasks : ∀ task ∈ app'.tasks, task.Founded m codec s i ∧ app.Issued task.term task.index)
    (hchecked : app'.logStore.Checked)
    (hterm : app'.logStore.logStoreTerm ≤ s.node.log.currentTerm)
    (hled : app'.logStore.logStoreRole = .leader →
      s.leader app'.logStore.logStoreTerm = some i)
    (hstage : app'.Stage m codec s app'.phase)
    (hloop : app'.eventApplyLoop.Torn ∨ ∃ offset p,
      app'.eventApplyLoop.Tracks m codec.toEntryDecoder s.node.view s.known offset p) :
    app'.Inv m codec s i where
  checked := hchecked
  term_le := hterm
  led := hled
  stage := hstage
  fresh hrole hentered := h.fresh hrole fun hold =>
    hentered (hissued _ 0 ⟨hold, fun _ => Nat.zero_le _⟩).1
  pending p hp := (h.pending p (hpending p hp)).imp_left (hissued _ _)
  tasks task htask := ⟨hissued _ _ (htasks task htask).2, (htasks task htask).1⟩
  loop := hloop

/-- The queues change. -/
theorem Inv.queues (h : app.Inv m codec s i) {persistQueue batch : List (PersistEntry σ ε)}
    {clientRequests : List (List (PersistEntry σ ε))}
    (hpending : ∀ p ∈ ({ app with
      persistQueue := persistQueue, batch := batch, clientRequests := clientRequests } :
        App σ ε).pending, p ∈ app.pending) :
    ({ app with persistQueue := persistQueue, batch := batch, clientRequests := clientRequests } :
      App σ ε).Inv m codec s i :=
  { h with pending := fun p hp => h.pending p (hpending p hp) }

theorem Inv.dequeue (h : app.Inv m codec s i) (hs : app.dequeue = some app') :
    app'.Inv m codec s i := by
  rw [App.dequeue] at hs
  split at hs
  next => cases hs
  next p ps hqueue =>
    obtain rfl := Option.some.inj hs
    refine h.queues fun q hq => ?_
    rw [mem_pending] at hq ⊢
    simpa [hqueue, or_assoc] using hq

theorem Inv.maySendBatch (h : app.Inv m codec s i) (hs : app.maySendBatch = some app') :
    app'.Inv m codec s i := by
  rw [App.maySendBatch] at hs
  split at hs
  next => cases hs
  next =>
    obtain rfl := Option.some.inj hs
    refine h.queues fun q hq => ?_
    rw [mem_pending] at hq ⊢
    simp only [List.mem_append, List.mem_cons, List.not_mem_nil, or_false, false_or] at hq
    rcases hq with ⟨batch, hbatch | rfl, hq⟩ | hq
    · exact Or.inl ⟨batch, hbatch, hq⟩
    · exact Or.inr (Or.inl hq)
    · exact Or.inr (Or.inr hq)

/-- Raft takes a batch. -/
theorem Inv.serve (h : app.Inv m codec s i) {inp : Input} (hs : app.serve codec inp = some app') :
    app'.Inv m codec s i := by
  rw [App.serve.eq_def] at hs
  split at hs
  · split at hs
    · cases hs
    · next batch rest hrequests =>
      split at hs
      · obtain rfl := Option.some.inj hs
        refine h.queues fun q hq => ?_
        rw [mem_pending] at hq ⊢
        refine hq.imp_left ?_
        rintro ⟨b, hb, hq⟩
        rw [hrequests]
        exact ⟨b, List.mem_cons_of_mem _ hb, hq⟩
      · cases hs
  · obtain rfl := Option.some.inj hs
    exact h

/-- The apply loop or a thread of its store takes a step. -/
theorem Inv.withLoop (h : app.Inv m codec s i) (hok : s.Ok i) {cfg : RaftConfig}
    {mv : EventApplyLoop.Move σ} (hcarries : (⟨l, s.node.commitIndex⟩ : RaftView).Carries s.known)
    (hnum : codec.toEntryDecoder.Numbered s.known)
    (hright : mv.Right m codec.toEntryDecoder s.known)
    (hs : app.withLoop (app.eventApplyLoop.move m cfg codec.toEntryDecoder
      ⟨l, s.node.commitIndex⟩ mv) = some app') : app'.Inv m codec s i := by
  obtain ⟨loop, hloop, rfl⟩ := Option.map_eq_some_iff.mp hs
  have hmove : ∀ offset p,
      app.eventApplyLoop.Tracks m codec.toEntryDecoder s.node.view s.known offset p →
        ∃ p', p ≤ p' ∧ loop.Tracks m codec.toEntryDecoder s.node.view s.known offset p' :=
    fun offset p ht => ht.step_of_view hcarries rfl hnum hloop
  have hstage : ({ app with eventApplyLoop := loop } : App σ ε).Stage m codec s app.phase := by
    have hold := h.stage
    by_cases hwaits : app.phase.waits = true
    · rw [stage_of_waits hwaits] at hold ⊢
      exact ⟨hold.1, hold.2.1, hold.2.2.mono (Nat.le_refl _) (List.prefix_refl _) hmove⟩
    · revert hold hwaits
      cases app.phase <;> intro hold hwaits <;> first | exact hold | exact absurd rfl hwaits
  refine { h with stage := hstage, loop := ?_ }
  rcases h.loop with htorn | ⟨offset, p, ht⟩
  · obtain ⟨offset, ht⟩ := htorn.step hright hloop
    exact Or.inr ⟨offset, offset, ht.grows hok.commit_le (List.prefix_refl _) (Nat.le_refl _)⟩
  · obtain ⟨p', -, ht'⟩ := hmove offset p ht
    exact Or.inr ⟨offset, p', ht'⟩

/-! ### The reply loop -/

/-- **A read tells the thread what it says**, whatever log it finds. -/
theorem finds_step {phase' : ReplyPhase} (h : phase.Finds known n.commitIndex index term)
    (hcarries : (⟨l, n.commitIndex⟩ : RaftView).Carries known)
    (hs : n.waitTillCommittedOrQuit l index term phase = some phase') :
    phase'.Finds known n.commitIndex index term := by
  obtain ⟨hreached, hcompared⟩ := Node.waitTillCommittedOrQuit_spec hs
  cases phase' with
  | reached => exact hreached rfl
  | compared committed =>
    obtain ⟨rfl, e, he, hc⟩ := hcompared committed rfl
    exact ⟨h, e, hcarries.entry index e h he, hc⟩
  | _ => trivial

theorem Inv.replyTask (h : app.Inv m codec s i)
    (hcarries : (⟨l, s.node.commitIndex⟩ : RaftView).Carries s.known)
    (hs : app.replyTask s.node l k = some app') : app'.Inv m codec s i := by
  obtain ⟨task, htask, hs⟩ := Option.bind_eq_some_iff.mp hs
  obtain ⟨phase, hphase, hs⟩ := Option.bind_eq_some_iff.mp hs
  obtain rfl := Option.some.inj hs
  refine { h with tasks := fun other hother => ?_ }
  rcases List.mem_or_eq_of_mem_set hother with hother | rfl
  · exact h.tasks other hother
  · obtain ⟨hissued, hfounded⟩ := h.tasks task (List.mem_of_getElem? htask)
    exact ⟨hissued, hfounded.led, hfounded.events, hfounded.noEvents,
      finds_step hfounded.finds hcarries hphase⟩

/-! ### The command loop -/

/-- The command loop goes on, with no command in its hands. -/
theorem Inv.rephase (h : app.Inv m codec s i) {phase : LoopPhase σ ε}
    (hidle : ∀ p, phase ≠ .persisting p)
    (hwaits : phase.waits = true → app.phase.waits = true) (hstage : app.Stage m codec s phase) :
    ({ app with phase := phase } : App σ ε).Inv m codec s i := by
  refine h.next (fun t k hissued => ⟨hissued.1.imp_right ?_, hissued.2⟩) (fun p hp => ?_)
    (fun task htask => (h.tasks task htask).symm) h.checked h.term_le h.led hstage h.loop
  · rintro ⟨hterm, hrole, hbusy⟩
    exact ⟨hterm, hrole, Bool.eq_false_iff.mpr fun hw => by simp [hwaits hw] at hbusy⟩
  · exact pending_of_idle phase hidle hp

/-- The term and the role have been read, and `detectTransition` returns. -/
theorem Inv.detect (h : app.Inv m codec s i) (hok : s.Ok i) {term1 : ℕ} {role : RaftRole}
    (hphase : app.phase = .role term1 role) (hterm : s.node.log.currentTerm = term1)
    {logStore : LogStore} {t : Transition} (hd : app.logStore.Detected term1 role logStore t)
    {phase : LoopPhase σ ε} (hacquires : t.Acquires → phase = .waiting)
    (hsame : t = .sameLeader → phase = .accepting)
    (hrejects : ¬ t.Acquires → t ≠ .sameLeader → phase = .refresh) :
    ({ app with logStore := logStore, phase := phase } : App σ ε).Inv m codec s i := by
  have hstage := h.stage
  rw [hphase] at hstage
  obtain ⟨⟨hge, -⟩, hrole, hsettled⟩ := hstage
  have hleads : role = .leader → s.leader term1 = some i := fun hr => by
    rw [← hterm]
    exact hok.leads (hrole hr hterm)
  have hidle : ∀ p, phase ≠ .persisting p := by
    intro p hp
    by_cases ht : t.Acquires
    · cases (hacquires ht).symm.trans hp
    · by_cases hleader : t = .sameLeader
      · cases (hsame hleader).symm.trans hp
      · cases (hrejects ht hleader).symm.trans hp
  refine h.next (fun k index hissued => ?_) (fun p hp => ?_)
    (fun task htask => (h.tasks task htask).symm) hd.checked (hd.term_eq.trans hterm.symm).le
    (fun hl => ?_) ?_ h.loop
  · obtain ⟨hentered, hle⟩ := hissued
    rcases hge.lt_or_eq with hlt | heq
    · -- a later term
      have hk : k < term1 := by
        rcases hentered with hk | ⟨rfl, -⟩
        · exact hk.trans hlt
        · exact hlt
      exact ⟨Or.inl (hd.term_eq ▸ hk), fun hcur => absurd (hcur.trans hd.term_eq) hk.ne⟩
    · refine ⟨hentered.imp (fun hk => (hk.trans_eq heq).trans_eq hd.term_eq.symm) ?_,
        fun hcur => hle (hcur.trans (hd.term_eq.trans heq.symm))⟩
      rintro ⟨rfl, hl, -⟩
      refine ⟨heq.trans hd.term_eq.symm, hd.stays heq hl, ?_⟩
      show phase.waits = false
      rw [hsame (hd.same.mpr ⟨heq, hl⟩)]
      rfl
  · exact pending_of_idle phase hidle hp
  · rw [hd.term_eq]
    rcases hd.leader hl with hr | ⟨heq, hold⟩
    · exact hleads hr
    · rw [← heq]
      exact h.led hold
  · show App.Stage m codec s _ phase
    by_cases ht : t.Acquires
    · obtain ⟨hl, hnew⟩ := hd.acquires.mp ht
      rw [hacquires ht]
      have hr := (hd.leader hl).resolve_right hnew
      refine ⟨hl, ?_, trivial⟩
      show s.ledger.Fresh logStore.logStoreTerm
      rw [hd.term_eq, ← hterm]
      refine h.fresh (hrole hr hterm) ?_
      rintro (hlt | ⟨heq, hold, -⟩)
      · exact absurd h.term_le (Nat.not_le.mpr hlt)
      · exact hnew ⟨heq.symm.trans hterm, hold⟩
    · by_cases hleader : t = .sameLeader
      · obtain ⟨heq, hold⟩ := hd.same.mp hleader
        rw [hsame hleader]
        refine ⟨hd.stays heq hold, ?_⟩
        have hin := (hsettled hold).resolve_left (by omega)
        show Office m codec s logStore.logStoreTerm app.lastCommandId app.appStateMachine
        rw [hd.term_eq, ← heq]
        exact hin
      · rw [hrejects ht hleader]
        intro hl
        by_cases hold : app.logStore.logStoreTerm = term1 ∧ app.logStore.logStoreRole = .leader
        · exact absurd (hd.same.mpr hold) hleader
        · exact absurd (hd.acquires.mpr ⟨hl, hold⟩) ht

/-- A thread that waits goes on waiting, or finds another term. -/
theorem waits_of_wait {store : EventStore ε} {phase phase' : LoopPhase σ ε}
    (hs : phase.waitTillLeaderIsReadyOrStepDown n l store term = some phase') :
    phase.waits = true ∧ (phase'.waits = true ∨
      phase' = .refresh ∧ phase = .waiting ∧ l.currentTerm ≠ term) := by
  cases phase with
  | waiting =>
    obtain rfl := Option.some.inj hs
    refine ⟨rfl, ?_⟩
    split
    · next hne => exact Or.inr ⟨rfl, rfl, hne⟩
    · exact Or.inl rfl
  | scanning last index =>
    refine ⟨rfl, Or.inl ?_⟩
    rw [LoopPhase.waitTillLeaderIsReadyOrStepDown] at hs
    split at hs
    · obtain rfl := Option.some.inj hs
      rfl
    · obtain ⟨e, -, rfl⟩ := Option.map_eq_some_iff.mp hs
      split_ifs <;> rfl
  | loadedIndex last commit loaded =>
    obtain rfl := Option.some.inj hs
    refine ⟨rfl, Or.inl ?_⟩
    split_ifs <;> rfl
  | sameTerm =>
    obtain rfl := Option.some.inj hs
    exact ⟨rfl, Or.inl rfl⟩
  | lastIndex last =>
    obtain rfl := Option.some.inj hs
    exact ⟨rfl, Or.inl rfl⟩
  | commitIndex last commit =>
    obtain rfl := Option.some.inj hs
    exact ⟨rfl, Or.inl rfl⟩
  | _ => cases hs

/-- The command loop waits. -/
theorem Inv.wait (h : app.Inv m codec s i) {found : Log} {phase : LoopPhase σ ε}
    (hcarries : (⟨l, s.node.commitIndex⟩ : RaftView).Carries s.known)
    (hown : app.phase = .waiting → found = s.node.log)
    (hfound : app.phase ≠ .waiting → app.phase ≠ .sameTerm → found = l)
    (hs : app.phase.waitTillLeaderIsReadyOrStepDown s.node found app.eventApplyLoop.store
      app.logStore.lastCheckedTerm = some phase) :
    ({ app with phase := phase } : App σ ε).Inv m codec s i := by
  obtain ⟨hwaits, hnext⟩ := waits_of_wait hs
  have hstage := h.stage
  rw [stage_of_waits hwaits] at hstage
  obtain ⟨hrole, hfresh, hinformed⟩ := hstage
  rw [h.checked.1] at hs
  rcases hnext with hnext | ⟨rfl, hphase, hne⟩
  · refine h.rephase ?_ (fun _ => hwaits) ((stage_of_waits hnext).mpr ⟨hrole, hfresh, ?_⟩)
    · rintro p rfl
      cases hnext
    · by_cases hwaiting : app.phase = .waiting
      · rw [hwaiting] at hs
        obtain rfl := Option.some.inj hs
        split <;> trivial
      · by_cases hsame : app.phase = .sameTerm
        · rw [hsame] at hs
          obtain rfl := Option.some.inj hs
          trivial
        · rw [hfound hwaiting hsame] at hs
          exact hinformed.wait hcarries h.loop hs
  · -- the term is over
    refine h.rephase nofun (fun _ => hwaits) fun _ => Or.inl (lt_of_le_of_ne h.term_le ?_)
    rw [hown hphase, h.checked.1] at hne
    exact hne.symm

/-- The application takes over what the apply loop has. -/
theorem Inv.swap (h : app.Inv m codec s i) {last : ℕ} (hphase : app.phase = .ready last)
    {state : σ} {loop : EventApplyLoop σ ε}
    (hoffice : Office m codec s app.logStore.logStoreTerm last app.eventApplyLoop.appStateMachine)
    (hs : app.eventApplyLoop.swapStateAndTeardown app.appStateMachine = some (state, loop)) :
    ({ app with
        lastCommandId := last
        appStateMachine := state
        eventApplyLoop := loop
        phase := .accepting } : App σ ε).Inv m codec s i := by
  have hstage := h.stage
  rw [hphase] at hstage
  obtain ⟨htorn, -, rfl⟩ := EventApplyLoop.torn_of_swap hs
  refine h.next (fun t k hissued => ?_) (fun p hp => ?_)
    (fun task htask => (h.tasks task htask).symm) h.checked h.term_le h.led
    ⟨hstage.1, hoffice⟩ (Or.inl htorn)
  · -- no command of the term has been numbered while the thread was waiting
    rcases hissued.1 with hlt | ⟨-, -, hbusy⟩
    · exact ⟨Or.inl hlt, fun heq => absurd heq hlt.ne⟩
    · rw [hphase] at hbusy
      cases hbusy
  · exact pending_of_idle .accepting nofun hp

/-- A command goes into the persist queue. -/
theorem Inv.persist (h : app.Inv m codec s i) {p : PersistEntry σ ε}
    (hphase : app.phase = .persisting p) :
    ({ app with persistQueue := app.persistQueue ++ [p], phase := .refresh } : App σ ε).Inv m codec
      s i := by
  have hstage := h.stage
  rw [hphase] at hstage
  refine h.next (fun t k hissued => ⟨hissued.1.imp_right ?_, hissued.2⟩) (fun q hq => ?_)
    (fun task htask => (h.tasks task htask).symm) h.checked h.term_le h.led
    (fun _ => Or.inr hstage.2) h.loop
  · exact fun ⟨hterm, hrole, _⟩ => ⟨hterm, hrole, rfl⟩
  · rw [mem_pending] at hq ⊢
    rw [hphase]
    simpa [or_assoc, eq_comm] using hq

/-- **The command loop takes a step** that is not the one of `processCommand`. -/
theorem Inv.commandLoop (h : app.Inv m codec s i) (hok : s.Ok i) {keyVersion : ℕ} {between : Bool}
    {command : Command ε} (hcarries : (⟨l, s.node.commitIndex⟩ : RaftView).Carries s.known)
    (hready : ∀ last, app.phase = .ready last → Office m codec s app.logStore.logStoreTerm last
      app.eventApplyLoop.appStateMachine) (haccepting : app.phase ≠ .accepting)
    (hs : app.commandLoop m s.node l keyVersion between command = some app') :
    app'.Inv m codec s i := by
  have hstage := h.stage
  rw [App.commandLoop.eq_def] at hs
  split at hs
  next hphase =>
    rw [hphase] at hstage
    obtain rfl := Option.some.inj hs
    exact h.rephase nofun nofun ⟨⟨h.term_le, Nat.le_refl _⟩, hstage⟩
  next term1 hphase =>
    rw [hphase] at hstage
    obtain rfl := Option.some.inj hs
    refine h.rephase nofun nofun ⟨hstage.1, fun hrole _ => ?_, hstage.2⟩
    split at hrole
    · cases hrole
    · exact hrole
  next term1 role hphase =>
    split at hs
    · rw [hphase] at hstage
      obtain rfl := Option.some.inj hs
      exact h.rephase nofun nofun hstage.2.2
    · next hterm =>
      rw [hphase] at hstage
      obtain ⟨logStore, t, hdetect, hd⟩ :=
        LogStore.exists_detected h.checked hstage.1.1 role
      rw [hdetect] at hs
      obtain rfl := Option.some.inj hs
      refine h.detect hok hphase (not_not.mp hterm) hd ?_ ?_ ?_
      · cases t <;> simp [Transition.Acquires]
      · rintro rfl
        rfl
      · cases t <;> simp [Transition.Acquires]
  next last hphase =>
    obtain ⟨⟨state, loop⟩, hswap, rfl⟩ := Option.map_eq_some_iff.mp hs
    exact h.swap hphase (hready last hphase) hswap
  next hphase => exact absurd hphase haccepting
  next p hphase =>
    obtain rfl := Option.some.inj hs
    exact h.persist hphase
  next =>
    obtain ⟨phase, hwait, rfl⟩ := Option.map_eq_some_iff.mp hs
    refine h.wait hcarries ?_ ?_ hwait
    · intro hphase
      rw [hphase]
    · intro hwaiting hsame
      split
      · next hphase => exact absurd hphase hwaiting
      · next hphase => exact absurd hphase hsame
      · rfl

/-! ### A command is processed -/

theorem Issued.processCommand (h : app.Issued t k) (m : StateMachine σ ε) (keyVersion : ℕ)
    (command : Command ε) : (app.processCommand m keyVersion command).Issued t k := by
  rw [App.processCommand]
  split
  · exact ⟨h.1.imp_right fun ⟨hterm, hrole, _⟩ => ⟨hterm, hrole, rfl⟩, h.2⟩
  · exact ⟨h.1.imp_right fun ⟨hterm, hrole, _⟩ => ⟨hterm, hrole, rfl⟩,
      fun hterm => (h.2 hterm).trans (Nat.le_succ _)⟩

/-- **A command without events** was processed on the state the application has. -/
theorem Inv.processCommand_nil (h : app.Inv m codec s i) (hphase : app.phase = .accepting)
    (keyVersion : ℕ) {command : Command ε} (hevents : command.events = []) :
    (app.processCommand m keyVersion command).Inv m codec s i := by
  have hstage := h.stage
  rw [hphase] at hstage
  obtain ⟨hrole, hin⟩ := hstage
  have hentered : app.Entered app.logStore.logStoreTerm :=
    Or.inr ⟨rfl, hrole, by rw [hphase]; rfl⟩
  have hissued : ∀ t k, app.Issued t k →
      (app.processCommand m keyVersion command).Issued t k :=
    fun t k hk => hk.processCommand m keyVersion command
  rw [App.processCommand, if_pos (List.isEmpty_iff.mpr hevents)] at hissued ⊢
  refine h.next hissued (fun p hp => ?_) (fun task htask => ?_) h.checked h.term_le h.led
    (fun _ => Or.inr hin) h.loop
  · exact pending_of_idle .refresh nofun hp
  · rcases List.mem_append.mp htask with htask | htask
    · exact (h.tasks task htask).symm
    · rw [List.mem_singleton.mp htask, h.checked.1]
      refine ⟨⟨h.led hrole, fun hne => absurd rfl hne, fun _ hle => ?_, trivial⟩, hentered,
        fun _ => Nat.le_refl _⟩
      cases hin with
      | sound hid hstate => exact Or.inl hstate
      | lost hleft hid hstate => exact Or.inr (hstate (Nat.le_antisymm hle hid))

/-- What a command with events becomes. -/
def issue (app : App σ ε) (keyVersion : ℕ) (command : Command ε) : PersistEntry σ ε where
  term := app.logStore.logStoreTerm
  index := app.lastCommandId + 1
  secretKeyVersion := keyVersion
  specialTag := command.specialTag
  events := command.events
  basis := app.appStateMachine

/-- A command with events, if the logs of the terms grow only above what was numbered before. -/
theorem Inv.processCommand_cons (h : app.Inv m codec s i) (hphase : app.phase = .accepting)
    (keyVersion : ℕ) {command : Command ε} (hevents : command.events ≠ [])
    (hgrown : ∀ t, s.ledger.promised t <+: L.promised t)
    (hne : ∀ t, t ≠ app.logStore.logStoreTerm → L.promised t = s.ledger.promised t)
    (hold : ∀ k, k ≤ app.lastCommandId → k ≤ (L.promised app.logStore.logStoreTerm).length →
      k ≤ (s.ledger.promised app.logStore.logStoreTerm).length)
    (hnew : (app.issue keyVersion command).Promised m codec { s with ledger := L } i)
    (hin : Office m codec { s with ledger := L } app.logStore.logStoreTerm (app.lastCommandId + 1)
      (command.events.foldl m.applyEvent app.appStateMachine)) :
    (app.processCommand m keyVersion command).Inv m codec { s with ledger := L } i := by
  have hstage := h.stage
  rw [hphase] at hstage
  have hrole := hstage.1
  have hissued : ∀ t k, app.Issued t k →
      (app.processCommand m keyVersion command).Issued t k :=
    fun t k hk => hk.processCommand m keyVersion command
  rw [App.processCommand, if_neg (by simpa using hevents), h.checked.1] at hissued ⊢
  -- what was numbered before is where it was
  have hkept : ∀ t k, app.Issued t k → k ≤ (L.promised t).length →
      k ≤ (s.ledger.promised t).length := by
    intro t k hk hle
    by_cases ht : t = app.logStore.logStoreTerm
    · subst ht
      exact hold k (hk.2 rfl) hle
    · rwa [hne t ht] at hle
  refine ⟨h.checked, h.term_le, h.led, ⟨hrole, hin⟩, fun hl hnot => ?_, fun p hp => ?_,
    fun task htask => ?_, h.loop⟩
  · have hterm : s.node.log.currentTerm ≠ app.logStore.logStoreTerm := fun heq =>
      hnot (Or.inr ⟨heq, hrole, rfl⟩)
    refine (h.fresh hl fun hold => hnot (hissued _ 0 ⟨hold, fun _ => Nat.zero_le _⟩).1).of_promised
      (hne _ hterm)
  · by_cases hp' : p ∈ app.pending
    · obtain ⟨hissue, hpromised⟩ := h.pending p hp'
      exact ⟨hissued _ _ hissue, hpromised.extend (hgrown _) (hkept _ _ hissue)⟩
    · rw [mem_pending] at hp hp'
      rw [not_or, not_or, not_or] at hp'
      have heq := ((hp.resolve_left hp'.1).resolve_left hp'.2.1).resolve_left hp'.2.2.1
      cases heq
      exact ⟨⟨Or.inr ⟨rfl, hrole, rfl⟩, fun _ => Nat.le_refl _⟩, hnew⟩
  · rcases List.mem_append.mp htask with htask | htask
    · obtain ⟨hissue, hfounded⟩ := h.tasks task htask
      exact ⟨hissued _ _ hissue, hfounded.extend (hgrown _) (hkept _ _ hissue)⟩
    · rw [List.mem_singleton.mp htask]
      exact ⟨⟨Or.inr ⟨rfl, hrole, rfl⟩, fun _ => Nat.le_refl _⟩, hnew.founded hevents⟩

/-- **A command is processed.** If the application has the state of the log of its term, this log
grows by the command. -/
theorem Inv.processCommand (h : app.Inv m codec s i) (hphase : app.phase = .accepting)
    (keyVersion : ℕ) (command : Command ε) :
    (app.processCommand m keyVersion command).Inv m codec s i ∨
      ∃ e : LogEntry, s.leader app.logStore.logStoreTerm = some i ∧
        e.index = (s.ledger.promised app.logStore.logStoreTerm).length + 1 ∧ codec.Made e ∧
        (app.processCommand m keyVersion command).Inv m codec
          { s with ledger := s.ledger.promise app.logStore.logStoreTerm e } i := by
  by_cases hevents : command.events = []
  · exact Or.inl (h.processCommand_nil hphase keyVersion hevents)
  have hstage := h.stage
  rw [hphase] at hstage
  obtain ⟨hrole, hin⟩ := hstage
  have hlead := h.led hrole
  cases hin with
  | lost hleft hid hstate =>
    refine Or.inl (h.processCommand_cons hphase keyVersion hevents (L := s.ledger)
      (fun _ => List.prefix_refl _) (fun _ _ => rfl) (fun _ _ => id)
      ⟨hlead, fun hl hterm => absurd ⟨hl, hterm⟩ hleft, fun hle => ?_⟩
      (.lost hleft (hid.trans (Nat.le_succ _)) fun heq => ?_))
    · -- the index is beyond the log of the term
      have hle : app.lastCommandId + 1 ≤
        (s.ledger.promised app.logStore.logStoreTerm).length := hle
      omega
    · have heq : app.lastCommandId + 1 =
        (s.ledger.promised app.logStore.logStoreTerm).length := heq
      omega
  | sound hid hstate =>
    have hindex : (app.issue keyVersion command).index =
        (s.ledger.promised app.logStore.logStoreTerm).length + 1 := congrArg (· + 1) hid
    refine Or.inr ⟨(app.issue keyVersion command).entry codec, hlead, hindex,
      Or.inr ⟨command.events, rfl⟩, ?_⟩
    have hpromise := s.ledger.promise_promised app.logStore.logStoreTerm
      ((app.issue keyVersion command).entry codec)
    refine h.processCommand_cons hphase keyVersion hevents
      (fun t => s.ledger.isPrefix_promise t _ _)
      (fun t ht => s.ledger.promise_promised_of_ne _ ht) (fun k hk _ => hid ▸ hk)
      ⟨hlead, fun _ _ => ?_, fun _ => ⟨?_, ?_⟩⟩ (.sound ?_ ?_)
    · show _ ≤ (Ledger.promised _ app.logStore.logStoreTerm).length
      rw [hpromise, List.length_append]
      exact hindex.le
    · show entryAt (Ledger.promised _ app.logStore.logStoreTerm) _ = _
      rw [hpromise, hindex, entryAt_succ, List.getElem?_concat_length]
    · show app.appStateMachine = m.stateAt _ (Ledger.promised _ app.logStore.logStoreTerm) _
      rw [hpromise, hindex, Nat.add_sub_cancel,
        StateMachine.stateAt_of_isPrefix (List.prefix_append _ _) (Nat.le_refl _), hstate, hid]
    · show app.lastCommandId + 1 = (Ledger.promised _ app.logStore.logStoreTerm).length
      rw [hpromise, List.length_append, hid]
      rfl
    · show _ = m.stateAt _ (Ledger.promised _ app.logStore.logStoreTerm) _
      rw [hpromise, hid, StateMachine.stateAt_concat (PersistEntry.bundle?_entry hevents), hstate,
        hid]
      rfl

end App

end Gringofts
