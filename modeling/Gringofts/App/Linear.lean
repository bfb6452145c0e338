import Gringofts.App.Accepted

/-!
# One order for clients

The committed log puts the commands in an order. Here it is compared with what can be seen from
outside. A client that has its answer may tell another one, who then sends a command of its own: the
order must not put the second command before the first, whatever nodes have handled them, in
whatever terms.

## A leader that is behind

A node may accept commands although another one has been elected, and it may then give indices that
are taken already. Such a command is never committed: the log of its term has nothing at this index
(`Service.Inv.known_lt_of_accepting`), and what is committed elsewhere is of another term.

## Main definitions

* `Service.RunsTo` — one state comes after another
* `Service.Accepts` — a command is processed and gets its place

## Main results

* `answered_before_accepted`
-/

namespace Gringofts

open Replication Scenario

variable {S : Setup} {σ ε : Type}

namespace Service

/-- The second state is one that may come after the first. -/
inductive RunsTo (S : Setup) (m : StateMachine σ ε) (codec : EntryCodec ε) (w : Service σ ε) :
    Service σ ε → Prop
  | refl : RunsTo S m codec w w
  | step {v u : Service σ ε} {act : Action σ ε} (h : RunsTo S m codec w v)
      (hright : act.Right m codec v.chronicle.known) (hs : v.step S m codec act = some u) :
      RunsTo S m codec w u

/-- **A node accepts a command** with events. In the term that was checked last, it gives it the id
after the last one. -/
structure Accepts (S : Setup) (m : StateMachine σ ε) (codec : EntryCodec ε) (w u : Service σ ε)
    (i : ℕ) : Prop where
  mem : i ∈ S.info.nodes.keys
  accepting : (w.app i).phase = .accepting
  exists_command : ∃ found between keyVersion command, command.events ≠ [] ∧
    w.step S m codec (.app i (.commandLoop found between keyVersion command)) = some u

/-- A thread of a reply loop has answered a command with success. -/
structure Answered (S : Setup) (w : Service σ ε) (task : ReplyTask σ ε) : Prop where
  exists_node : ∃ i ∈ S.info.nodes.keys, task ∈ (w.app i).tasks
  success : task.phase.result = some true
  events : task.events ≠ []

variable {m : StateMachine σ ε} {codec : EntryCodec ε} {w w' u : Service σ ε} {i : ℕ}
  {task : ReplyTask σ ε}

/-- The committed log only grows. -/
theorem known_step {act : Action σ ε} (hw : Reachable S m codec w)
    (hs : w.step S m codec act = some w') : w.chronicle.known <+: w'.chronicle.known := by
  obtain ⟨a, L, h⟩ := hw.inv
  cases hr : act.raft? with
  | some r =>
    obtain ⟨-, -, -, hknown⟩ := h.chronicle.step (raft_of_step hs hr).1
    exact hknown
  | none =>
    cases act with
    | raft act => cases hr
    | restart act asyncLoad threads snapshot => cases hr
    | app i act =>
      rw [Service.step] at hs
      split at hs
      · obtain ⟨app, -, rfl⟩ := Option.map_eq_some_iff.mp hs
        exact List.prefix_refl _
      · cases hs

theorem RunsTo.reachable (h : RunsTo S m codec w w') (hw : Reachable S m codec w) :
    Reachable S m codec w' ∧ w.chronicle.known <+: w'.chronicle.known := by
  induction h with
  | refl => exact ⟨hw, List.prefix_refl _⟩
  | step _ hright hs ih => exact ⟨ih.1.step hright hs, ih.2.trans (known_step ih.1 hs)⟩

/-- **What is committed of a term**, while a node accepts commands in it, is what the node has
numbered. -/
theorem Inv.known_lt_of_accepting {a : S.Abstract} {L : Ledger} (h : w.Inv S m codec a.1 L)
    (hi : i ∈ S.info.nodes.keys) (haccepting : (w.app i).phase = .accepting) {k : ℕ} {e : LogEntry}
    (he : entryAt w.chronicle.known k = some e)
    (hterm : e.term = (w.app i).logStore.lastCheckedTerm) : k ≤ (w.app i).lastCommandId := by
  have happ := h.app i hi
  have hstage := happ.stage
  rw [haccepting] at hstage
  obtain ⟨-, hagree⟩ := h.ledger.agree_promised h.chronicle he
  rw [hterm, happ.checked.1] at hagree
  refine hagree.2.1.trans ?_
  cases hstage.2 with
  | sound hid _ => exact hid.ge
  | lost _ hid _ => exact hid

end Service

/-- **The order of the log is one that clients cannot refute.** In every run of a cluster and of the
applications of its nodes: if a command has been answered with success before another one is
accepted, by whatever nodes, and the other one is answered with success later on, then the first
comes before the second in the committed log. There the first is found with its events, and the
second was processed on the state that the log gives before it. -/
theorem answered_before_accepted {m : StateMachine σ ε} {codec : EntryCodec ε}
    {w u w' : Service σ ε} {i : ℕ} {first second : ReplyTask σ ε}
    (hw : Service.Reachable S m codec w) (hfirst : w.Answered S first)
    (haccept : Service.Accepts S m codec w u i) (hrun : Service.RunsTo S m codec u w')
    (hsecond : w'.Answered S second) (hindex : second.index = (w.app i).lastCommandId + 1)
    (hterm : second.term = (w.app i).logStore.lastCheckedTerm) :
    first.index < second.index ∧
    (∃ e, entryAt w'.chronicle.known first.index = some e ∧
      codec.toEntryDecoder.bundle? e = some ⟨first.index, first.events⟩) ∧
    second.basis = m.stateAt codec.toEntryDecoder w'.chronicle.known (second.index - 1) := by
  obtain ⟨a, L, h⟩ := hw.inv
  obtain ⟨found, between, keyVersion, command, -, hs⟩ := haccept.exists_command
  obtain ⟨hw', hknown⟩ := hrun.reachable (hw.step (by exact trivial) hs)
  have hknown : w.chronicle.known <+: w'.chronicle.known :=
    (Service.known_step hw hs).trans hknown
  obtain ⟨a', L', h'⟩ := hw'.inv
  obtain ⟨⟨j, hj, hmem⟩, hresult, hevents⟩ := hfirst
  obtain ⟨⟨j', hj', hmem'⟩, hresult', hevents'⟩ := hsecond
  obtain ⟨⟨e, he, -, hbundle⟩, -⟩ := h.committed_of_success hj hmem hresult hevents
  obtain ⟨⟨f, hf, hfterm, -⟩, hbasis⟩ := h'.committed_of_success hj' hmem' hresult' hevents'
  refine ⟨?_, ⟨e, entryAt_of_isPrefix hknown he, hbundle⟩, hbasis⟩
  -- otherwise the second has been committed before it was accepted
  by_contra hle
  obtain ⟨f', hf'⟩ := exists_entryAt (le_length_of_entryAt hf).1
    ((Nat.le_of_not_lt hle).trans (le_length_of_entryAt he).2)
  have hsame : f' = f := Option.some.inj ((entryAt_of_isPrefix hknown hf').symm.trans hf)
  have hnumbered := h.known_lt_of_accepting haccept.mem haccept.accepting hf'
    (by rw [hsame, hfterm, hterm])
  omega

/-! ### A run -/

namespace Scenario

/-- The first command has been answered, and the loop is about to accept the next one. -/
def acceptingAgain : List (Service.Action ℕ UInt8) :=
  queued ++ answered ++ List.replicate 3 commandStep

theorem acceptingAgain_isPrefix : acceptingAgain <+: queued ++ answered ++ queuedAgain :=
  (List.prefix_append_right_inj _).mpr ⟨[commandStep, commandStep, _, _], rfl⟩

/-- The second one is committed and answered. -/
def answeredAgain : List (Service.Action ℕ UInt8) :=
  [commandStep, .app 1 .dequeue, .app 1 .maySendBatch, .raft servedAgain,
    .raft (.run 1 (.own .advanceCommitIndex))] ++ List.replicate 5 (.app 1 (.replyTask none 1))

theorem right_answeredAgain : ∀ act ∈ answeredAgain, ∀ known, act.Right sum plainCodec known := by
  simp [answeredAgain, commandStep, Service.Action.Right, EventApplyLoop.Move.Right]

/-- The loop is about to accept, the first command has been answered, and then the second. -/
def succeeded (w w' : Service ℕ UInt8) : Bool :=
  match (w.app 1).phase, (w.app 1).tasks, (w'.app 1).tasks with
  | .accepting, [first], [_, second] => first.phase.result = some true ∧ first.events ≠ [] ∧
    second.phase.result = some true ∧ second.events ≠ [] ∧
    second.index = (w.app 1).lastCommandId + 1 ∧
    second.term = (w.app 1).logStore.lastCheckedTerm
  | _, _, _ => false

end Scenario

/-- Both commands go through the same node. -/
theorem answered_before_accepted_again :
    ∃ (w u w' : Service ℕ UInt8) (first second : ReplyTask ℕ UInt8),
      w.Answered oneVoter first ∧
      Service.Accepts oneVoter sum plainCodec w u 1 ∧
      w'.Answered oneVoter second ∧ first.index < second.index ∧
      second.basis = sum.stateAt plainCodec.toEntryDecoder w'.chronicle.known
        (second.index - 1) := by
  have hplay : (playService acceptingAgain idleService).any (fun w =>
      (w.step oneVoter sum plainCodec commandStep).any fun u =>
        (playService answeredAgain u).any fun w' =>
          succeeded w w') = true := by
    decide +kernel
  obtain ⟨w, hw, hnext⟩ := (Option.any_eq_true _ _).mp hplay
  obtain ⟨u, hu, hnext⟩ := (Option.any_eq_true _ _).mp hnext
  obtain ⟨w', hw', hsucceeded⟩ := (Option.any_eq_true _ _).mp hnext
  have hreach := reachable_playService acceptingAgain_isPrefix hw
  have hrun : Service.RunsTo oneVoter sum plainCodec u w' :=
    foldlM_invariant hw' .refl fun act hact _ _ hu hs =>
      hu.step (right_answeredAgain act hact _) hs
  rw [succeeded] at hsucceeded
  split at hsucceeded
  · next first other second hphase htasks htasks' =>
    obtain ⟨hfirst, hevents, hsecond, hevents', hindex, hterm⟩ := of_decide_eq_true hsucceeded
    have hanswered : w.Answered oneVoter first :=
      ⟨⟨1, by decide, by simp [htasks]⟩, hfirst, hevents⟩
    have hanswered' : w'.Answered oneVoter second :=
      ⟨⟨1, by decide, by simp [htasks']⟩, hsecond, hevents'⟩
    have haccept : Service.Accepts oneVoter sum plainCodec w u 1 :=
      ⟨by decide, hphase, none, false, 0, ⟨none, [7, 8]⟩, by decide, hu⟩
    obtain ⟨hlt, -, hbasis⟩ :=
      answered_before_accepted hreach hanswered haccept hrun hanswered' hindex hterm
    exact ⟨w, u, w', first, second, hanswered, haccept, hanswered', hlt, hbasis⟩
  · cases hsucceeded

end Gringofts
