import Gringofts.App.Chronicle
import Gringofts.App.CommandLoop
import Gringofts.Lib.Rounds

/-!
# When a leader is ready

A node that has become leader must not process a command before everything its log holds has been
applied. `waitTillLeaderIsReadyOrStepDown` waits for that. It reads the term, the last index and the
commit index of Raft, and how far the event store has loaded and how far the apply loop has applied,
one after the other, while three threads change them. It returns when the first three indices are
equal and every entry above the last one is a `noop`, the last of them in the term it waits for.

What is read may be outdated when it is used. But an index that was committed stays committed, and
what was applied stays applied, so what the reader concludes stays true. There is one exception: a
teardown of the store sets its indices to `0` and the state aside. Only the thread that waits tears
down, and not while it waits.

## Main definitions

* `EventApplyLoop.move` — a step of the apply loop or of a thread of its store
* `EventApplyLoop.Tracks` — the loop has applied the log up to an index, and counts no more
* `LoopPhase.Informed` — what the waiting thread knows
* `Readiness`, `Readiness.step` — a cluster, the apply loop of one of its nodes, and a thread there
  that waits

## Main results

* `EventApplyLoop.Tracks.step`, `LoopPhase.Informed.wait` — what one step keeps
* `leader_readiness_sound`
-/

namespace Gringofts

open Replication Scenario EventApplyLoop

variable {S : Setup} {σ ε : Type} {segmentLast : ℕ} {l : Log}

/-! ## The indices of the store -/

namespace EventStore

variable {cfg : RaftConfig} {d : EntryDecoder ε} {v : RaftView} {s s' : EventStore ε}

/-- A thread of the store may load more, and touches no other index. -/
structure Loads (s s' : EventStore ε) : Prop where
  loaded_le : s.loadedIndex ≤ s'.loadedIndex
  applied_eq : s'.appliedIndex = s.appliedIndex
  applying_eq : s'.applyingIndex = s.applyingIndex

theorem Loads.of_some {t : EventStore ε} (hs : some t = some s') (h : s.Loads t) : s.Loads s' :=
  Option.some.inj hs ▸ h

theorem loads_of_loadEntriesThreadMain (hs : s.loadEntriesThreadMain cfg v segmentLast = some s') :
    s.Loads s' := by
  rw [loadEntriesThreadMain] at hs
  split at hs
  · split at hs
    · exact .of_some hs ⟨le_rfl, rfl, rfl⟩
    · exact .of_some hs ⟨le_rfl, rfl, rfl⟩
    · obtain ⟨es, -, hs⟩ := Option.bind_eq_some_iff.mp hs
      exact .of_some hs ⟨le_rfl, rfl, rfl⟩
    · exact .of_some hs ⟨Nat.le_add_right _ _, rfl, rfl⟩
    · exact .of_some hs ⟨le_rfl, rfl, rfl⟩
  · cases hs

theorem loads_of_decryptEntriesThreadMain {j : ℕ}
    (hs : s.decryptEntriesThreadMain d j = some s') : s.Loads s' := by
  rw [decryptEntriesThreadMain] at hs
  split at hs
  · obtain ⟨q, -, hs⟩ := Option.bind_eq_some_iff.mp hs
    exact .of_some hs ⟨le_rfl, rfl, rfl⟩
  · cases hs

theorem loads_of_trySyncLoadBundles (hs : s.trySyncLoadBundles cfg d v segmentLast = some s') :
    s.Loads s' := by
  rw [trySyncLoadBundles.eq_def] at hs
  split at hs
  · exact .of_some hs ⟨le_rfl, rfl, rfl⟩
  · obtain ⟨es, -, hs⟩ := Option.bind_eq_some_iff.mp hs
    exact .of_some hs ⟨le_rfl, rfl, rfl⟩
  · obtain ⟨bs, -, hs⟩ := Option.bind_eq_some_iff.mp hs
    exact .of_some hs ⟨le_rfl, rfl, rfl⟩
  · exact .of_some hs ⟨Nat.le_add_right _ _, rfl, rfl⟩
  · exact .of_some hs ⟨le_rfl, rfl, rfl⟩
  · cases hs

theorem loads_of_tryAsyncLoadBundles (hs : s.tryAsyncLoadBundles = some s') : s.Loads s' := by
  rw [tryAsyncLoadBundles.eq_def] at hs
  split at hs
  · exact .of_some hs ⟨le_rfl, rfl, rfl⟩
  · exact .of_some hs ⟨le_rfl, rfl, rfl⟩
  · obtain ⟨t, -, hs⟩ := Option.bind_eq_some_iff.mp hs
    exact .of_some hs ⟨le_rfl, rfl, rfl⟩
  · exact .of_some hs ⟨le_rfl, rfl, rfl⟩
  · obtain ⟨t, -, hs⟩ := Option.bind_eq_some_iff.mp hs
    exact .of_some hs ⟨le_rfl, rfl, rfl⟩
  · cases hs

/-- **What `loadNextCommandEvents` counts.** What was applying before the call has been applied. -/
theorem indices_of_loadNextCommandEvents {r : Option (Option (Bundle ε))}
    (hs : s.loadNextCommandEvents cfg d v segmentLast = some (s', r)) :
    s.loadedIndex ≤ s'.loadedIndex ∧ s'.appliedIndex ≤ max s.appliedIndex s.applyingIndex ∧
      ((∃ b, r = some (some b) ∧ s'.applyingIndex = b.commandId) ∨
        (∀ b, r ≠ some (some b)) ∧ s'.applyingIndex = s.applyingIndex) := by
  rw [loadNextCommandEvents.eq_def] at hs
  split at hs
  · cases Option.some.inj hs
    exact ⟨Nat.le_refl _, Nat.le_refl _, Or.inr ⟨nofun, rfl⟩⟩
  · split at hs
    · cases Option.some.inj hs
      exact ⟨Nat.le_refl _, Nat.le_max_left _ _, Or.inr ⟨nofun, rfl⟩⟩
    · cases Option.some.inj hs
      exact ⟨Nat.le_refl _, Nat.le_max_left _ _, Or.inl ⟨_, rfl, rfl⟩⟩
  · obtain ⟨t, ht, hs⟩ := Option.map_eq_some_iff.mp hs
    cases hs
    have hloads : s.Loads s' := by
      rw [tryLoadBundles] at ht
      split at ht
      · exact loads_of_tryAsyncLoadBundles ht
      · exact loads_of_trySyncLoadBundles ht
    exact ⟨hloads.loaded_le, hloads.applied_eq.le.trans (Nat.le_max_left _ _),
      Or.inr ⟨nofun, hloads.applying_eq⟩⟩

end EventStore

/-! ## How far the loop is -/

namespace EventApplyLoop

/-- What the loop or a thread of its store can do. -/
inductive Move (σ : Type)
  | loadThread (segmentLast : ℕ)
  | decryptThread (j : ℕ)
  | lock (snapshot : Option (ℕ × σ))
  | load (segmentLast : ℕ)
  | apply

/-- A step of the loop or of a thread of its store. -/
def move (m : StateMachine σ ε) (cfg : RaftConfig) (d : EntryDecoder ε) (v : RaftView)
    (l : EventApplyLoop σ ε) : Move σ → Option (EventApplyLoop σ ε)
  | .loadThread segmentLast => l.loadThread cfg v segmentLast
  | .decryptThread j => l.decryptThread d j
  | .lock snapshot => l.lock m snapshot
  | .load segmentLast => l.load cfg d v segmentLast
  | .apply => l.apply m

/-- A snapshot that the loop recovers from is right. -/
def Move.Right (m : StateMachine σ ε) (d : EntryDecoder ε) (known : List LogEntry) :
    Move σ → Prop
  | .lock snapshot => ∀ x, snapshot = some x → RightSnapshot m d known x
  | _ => True

/-- **The loop keeps track of the log**: its store was started at `offset`, its state is that after
the entries up to `p`, and no more is counted as applied. -/
structure Tracks (m : StateMachine σ ε) (d : EntryDecoder ε) (v : RaftView)
    (known : List LogEntry) (offset p : ℕ) (l : EventApplyLoop σ ε) : Prop where
  recovered : l.shouldRecover = false
  follows : ∃ k, l.Follows m d v known offset p k ∧ l.store.applyingIndex ≤ k
  applied_le : l.store.appliedIndex ≤ p
  offset_le : offset ≤ l.store.loadedIndex

/-- The store has been torn down, and the loop has not recovered yet. -/
structure Torn (l : EventApplyLoop σ ε) : Prop where
  shouldRecover : l.shouldRecover = true
  phase : l.phase = .unlocked
  store : ∃ asyncLoad threads, l.store = .start asyncLoad threads

variable {m : StateMachine σ ε} {cfg : RaftConfig} {d : EntryDecoder ε} {v v' : RaftView}
  {known known' : List LogEntry} {offset p : ℕ} {l l' : EventApplyLoop σ ε}

namespace Tracks

theorem state (h : l.Tracks m d v known offset p) :
    l.appStateMachine = m.stateAt d known p := by
  obtain ⟨k, hf, -⟩ := h.follows
  exact hf.state

/-- Commitment goes on, or the view of it is another. -/
theorem grows (h : l.Tracks m d v known offset p) (hv : v.commitIndex ≤ known.length)
    (hknown : known <+: known') (hcommit : v.commitIndex ≤ v'.commitIndex) :
    l.Tracks m d v' known' offset p := by
  obtain ⟨k, hf, hk⟩ := h.follows
  exact ⟨h.recovered, ⟨k, hf.grows hv hknown hcommit, hk⟩, h.applied_le, h.offset_le⟩

/-- A thread of the store takes a step. -/
theorem of_loads (h : l.Tracks m d v known offset p) {store : EventStore ε}
    (hloads : l.store.Loads store)
    (hf : ∀ k, l.Follows m d v known offset p k →
      ({ l with store := store } : EventApplyLoop σ ε).Follows m d v known offset p k) :
    ({ l with store := store } : EventApplyLoop σ ε).Tracks m d v known offset p := by
  obtain ⟨k, hfollows, hk⟩ := h.follows
  exact ⟨h.recovered, ⟨k, hf k hfollows, hloads.applying_eq.trans_le hk⟩,
    hloads.applied_eq.trans_le h.applied_le, h.offset_le.trans hloads.loaded_le⟩

theorem load (h : l.Tracks m d v known offset p) (hv : v.Carries known) (hnum : d.Numbered known)
    (hs : l.load cfg d v segmentLast = some l') : l'.Tracks m d v known offset p := by
  obtain ⟨k, hf, hk⟩ := h.follows
  obtain ⟨k', hf'⟩ := hf.load hv hnum hs
  rw [EventApplyLoop.load] at hs
  split at hs
  next hphase =>
    obtain ⟨⟨store, r⟩, hstore, hs⟩ := Option.bind_eq_some_iff.mp hs
    obtain rfl := Option.some.inj hs
    have hpk : p = k := by
      have hok := hf.phase
      rwa [hphase] at hok
    obtain ⟨hloaded, happlied, happlying⟩ := EventStore.indices_of_loadNextCommandEvents hstore
    refine ⟨h.recovered, ⟨k', hf', ?_⟩, ?_, h.offset_le.trans hloaded⟩
    · rcases happlying with ⟨b, rfl, hid⟩ | ⟨hr, hsame⟩
      · -- the bundle that was returned is that of the last entry
        obtain ⟨-, -, hk'⟩ := hf'.phase
        exact (hid.trans hk').le
      · have hle := hf'.phase.le
        show store.applyingIndex ≤ k'
        omega
    · have := h.applied_le
      show store.appliedIndex ≤ p
      omega
  next => cases hs

theorem apply (h : l.Tracks m d v known offset p) (hs : l.apply m = some l') :
    ∃ p', p ≤ p' ∧ l'.Tracks m d v known offset p' := by
  obtain ⟨k, hf, hk⟩ := h.follows
  obtain ⟨hf', -⟩ := hf.apply hs
  have hle := hf.phase.le
  rw [EventApplyLoop.apply] at hs
  split at hs
  next =>
    cases Option.some.inj hs
    exact ⟨k, hle, h.recovered, ⟨k, hf', hk⟩, h.applied_le.trans hle, h.offset_le⟩
  next => cases hs

/-- The loop takes its mutex. It has nothing to recover from. -/
theorem lock (h : l.Tracks m d v known offset p) {snapshot : Option (ℕ × σ)}
    (hs : l.lock m snapshot = some l') : l'.Tracks m d v known offset p := by
  obtain ⟨k, hf, hk⟩ := h.follows
  rw [EventApplyLoop.lock] at hs
  split at hs
  next hphase =>
    rw [h.recovered] at hs
    cases Option.some.inj hs
    have hok := hf.phase
    rw [hphase] at hok
    exact ⟨h.recovered, ⟨k, ⟨hf.store, hf.offset_le, hf.state, hok⟩, hk⟩, h.applied_le, h.offset_le⟩
  next => cases hs

/-- **Each step keeps track**, and the state does not fall behind. -/
theorem step (h : l.Tracks m d v known offset p) (hv : v.Carries known) (hnum : d.Numbered known)
    {mv : Move σ} (hs : l.move m cfg d v mv = some l') :
    ∃ p', p ≤ p' ∧ l'.Tracks m d v known offset p' := by
  cases mv with
  | loadThread segmentLast =>
    obtain ⟨store, hstore, heq⟩ := Option.bind_eq_some_iff.mp hs
    cases Option.some.inj heq
    exact ⟨p, Nat.le_refl p, h.of_loads (EventStore.loads_of_loadEntriesThreadMain hstore)
      fun k hf => hf.loadThread hv hs⟩
  | decryptThread j =>
    obtain ⟨store, hstore, heq⟩ := Option.bind_eq_some_iff.mp hs
    cases Option.some.inj heq
    exact ⟨p, Nat.le_refl p, h.of_loads (EventStore.loads_of_decryptEntriesThreadMain hstore)
      fun k hf => hf.decryptThread hs⟩
  | lock snapshot => exact ⟨p, Nat.le_refl p, h.lock hs⟩
  | load segmentLast => exact ⟨p, Nat.le_refl p, h.load hv hnum hs⟩
  | apply => exact h.apply hs

/-- The same, for a step that finds another log up to the same commit index. -/
theorem step_of_view (h : l.Tracks m d v known offset p) (hv : v'.Carries known)
    (heq : v'.commitIndex = v.commitIndex) (hnum : d.Numbered known) {mv : Move σ}
    (hs : l.move m cfg d v' mv = some l') :
    ∃ p', p ≤ p' ∧ l'.Tracks m d v known offset p' := by
  have hle := hv.commit_le
  obtain ⟨p', hp, ht⟩ :=
    (h.grows (heq ▸ hle) (List.prefix_refl _) heq.ge).step hv hnum hs
  exact ⟨p', hp, ht.grows hle (List.prefix_refl _) heq.le⟩

end Tracks

/-- A loop that has recovered keeps track of the log from there on. -/
theorem tracks_recoverSelf {asyncLoad : Bool} {threads : ℕ} {snapshot : Option (ℕ × σ)}
    (hstore : l.store = .start asyncLoad threads)
    (hright : ∀ x, snapshot = some x → RightSnapshot m d known x) (hphase : l.phase = .unlocked)
    (hs : l.recoverSelf m snapshot = some l') :
    ∃ offset, l'.Tracks m d v known offset offset ∧ l'.phase = .unlocked := by
  obtain ⟨offset, hf, hunlocked, hrecovered, happlied, happlying, -, hoffset⟩ :=
    follows_recoverSelf (v := v) hstore hright hphase hs
  refine ⟨offset, ⟨hrecovered, ⟨offset, hf, happlying.trans_le (Nat.zero_le _)⟩, happlied.le, ?_⟩,
    hunlocked⟩
  cases snapshot with
  | none =>
    rw [hoffset]
    exact Nat.zero_le _
  | some x =>
    obtain ⟨store, hset, hs⟩ := Option.bind_eq_some_iff.mp hs
    rw [EventStore.setCurrentOffset] at hset
    split at hset
    · cases Option.some.inj hset
      cases Option.some.inj hs
      exact hoffset.le
    · cases hset

/-- **A loop that was torn down** does nothing but recover. -/
theorem Torn.step (h : l.Torn) {mv : Move σ} (hright : mv.Right m d known)
    (hs : l.move m cfg d v mv = some l') : ∃ offset, l'.Tracks m d v known offset offset := by
  obtain ⟨asyncLoad, threads, hstore⟩ := h.store
  cases mv with
  | loadThread segmentLast =>
    rw [move, loadThread, hstore] at hs
    simp [EventStore.loadEntriesThreadMain, EventStore.start] at hs
  | decryptThread j =>
    rw [move, decryptThread, hstore] at hs
    simp [EventStore.decryptEntriesThreadMain, EventStore.start] at hs
  | lock snapshot =>
    rw [move, lock, h.phase] at hs
    obtain ⟨n, hn, rfl⟩ := Option.map_eq_some_iff.mp hs
    rw [if_pos h.shouldRecover] at hn
    obtain ⟨offset, htracks, hunlocked⟩ := tracks_recoverSelf (v := v) hstore hright h.phase hn
    obtain ⟨k, hf, hk⟩ := htracks.follows
    have hok := hf.phase
    rw [hunlocked] at hok
    exact ⟨offset, htracks.recovered, ⟨k, ⟨hf.store, hf.offset_le, hf.state, hok⟩, hk⟩,
      htracks.applied_le, htracks.offset_le⟩
  | load segmentLast =>
    rw [move, load, h.phase] at hs
    cases hs
  | apply =>
    rw [move, apply, h.phase] at hs
    cases hs

/-- After a swap the loop is torn down. -/
theorem torn_of_swap {target state : σ} (hs : l.swapStateAndTeardown target = some (state, l')) :
    l'.Torn ∧ l.phase = .unlocked ∧ state = l.appStateMachine := by
  rw [swapStateAndTeardown] at hs
  split at hs
  next hphase =>
    cases Option.some.inj hs
    exact ⟨⟨rfl, hphase, _, _, rfl⟩, hphase, rfl⟩
  next => cases hs

end EventApplyLoop

/-! ## What the waiting thread knows -/

/-- The entries from some index that was applied up to `j`, without `j`, have been found to be
`noop`s. -/
def Scanned (known : List LogEntry) (p j : ℕ) : Prop :=
  ∃ a ≤ p, ∀ i, a < i → i < j → ∃ e, entryAt known i = some e ∧ e.noop = true

namespace Scanned

variable {known known' : List LogEntry} {p p' j : ℕ}

theorem mono (h : Scanned known p j) (hknown : known <+: known') (hp : p ≤ p') :
    Scanned known' p' j := by
  obtain ⟨a, ha, hnoop⟩ := h
  refine ⟨a, ha.trans hp, fun i hai hij => ?_⟩
  obtain ⟨e, he, hn⟩ := hnoop i hai hij
  exact ⟨e, entryAt_of_isPrefix hknown he, hn⟩

theorem succ (h : Scanned known p j) {e : LogEntry} (he : entryAt known j = some e)
    (hnoop : e.noop = true) : Scanned known p (j + 1) := by
  obtain ⟨a, ha, hall⟩ := h
  refine ⟨a, ha, fun i hai hij => ?_⟩
  rcases Nat.lt_succ_iff_lt_or_eq.mp hij with hlt | rfl
  · exact hall i hai hlt
  · exact ⟨e, he, hnoop⟩

/-- **What was found to be `noop`s changes no state.** -/
theorem stateAt_eq (h : Scanned known p (j + 1)) (m : StateMachine σ ε) (d : EntryDecoder ε) :
    m.stateAt d known (max p j) = m.stateAt d known p := by
  rcases Nat.le_total j p with hle | hle
  · rw [Nat.max_eq_left hle]
  · rw [Nat.max_eq_right hle]
    obtain ⟨a, ha, hnoop⟩ := h
    have hnil : d.bundles known p j = [] := by
      rw [EntryDecoder.bundles, List.filterMap_eq_nil_iff]
      intro e he
      obtain ⟨k, hk⟩ := List.mem_iff_getElem?.mp he
      rw [List.getElem?_drop, List.getElem?_take] at hk
      split at hk
      · next hlt =>
        obtain ⟨f, hf, hn⟩ := hnoop (p + k + 1) (by omega) (by omega)
        rw [entryAt_succ, hk] at hf
        rw [EntryDecoder.bundle?, Option.some.inj hf, hn]
        rfl
      · cases hk
    rw [← StateMachine.replay_stateAt hle, hnil]
    rfl

end Scanned

namespace LoopPhase

variable {m : StateMachine σ ε} {d : EntryDecoder ε} {n n' : Node} {known known' : List LogEntry}
  {loop loop' : EventApplyLoop σ ε} {term : ℕ} {phase phase' : LoopPhase σ ε}

/-- **What the waiting thread knows**, from what it has read. An index other than `0` that the store
has loaded says that the loop keeps track of the log. -/
def Informed (m : StateMachine σ ε) (d : EntryDecoder ε) (n : Node) (known : List LogEntry)
    (loop : EventApplyLoop σ ε) (term : ℕ) : LoopPhase σ ε → Prop
  | .commitIndex _ commit => commit ≤ n.commitIndex
  | .loadedIndex _ commit loaded => commit ≤ n.commitIndex ∧
    (loaded = 0 ∨ ∃ offset p, loop.Tracks m d n.view known offset p ∧ offset ≤ loaded)
  | .scanning last j => last ≤ n.commitIndex ∧
    (last = 0 ∨ ∃ offset p, loop.Tracks m d n.view known offset p ∧ offset ≤ last ∧
      Scanned known p j)
  | .ready last => last ≤ n.commitIndex ∧
    (∃ e, entryAt known last = some e ∧ e.noop = true ∧ e.term = term) ∧
    ∃ offset p, loop.Tracks m d n.view known offset p ∧ offset ≤ last ∧ Scanned known p (last + 1)
  | _ => True

/-- It stays true while the commit index and the loop go on. -/
theorem Informed.mono (h : phase.Informed m d n known loop term)
    (hcommit : n.commitIndex ≤ n'.commitIndex) (hknown : known <+: known')
    (hloop : ∀ offset p, loop.Tracks m d n.view known offset p →
      ∃ p', p ≤ p' ∧ loop'.Tracks m d n'.view known' offset p') :
    phase.Informed m d n' known' loop' term := by
  cases phase with
  | commitIndex last commit => exact Nat.le_trans h hcommit
  | loadedIndex last commit loaded =>
    obtain ⟨hle, hloaded⟩ := h
    refine ⟨hle.trans hcommit, hloaded.imp_right ?_⟩
    rintro ⟨offset, p, htracks, hoffset⟩
    obtain ⟨p', -, htracks'⟩ := hloop offset p htracks
    exact ⟨offset, p', htracks', hoffset⟩
  | scanning last j =>
    obtain ⟨hle, hlast⟩ := h
    refine ⟨hle.trans hcommit, hlast.imp_right ?_⟩
    rintro ⟨offset, p, htracks, hoffset, hscanned⟩
    obtain ⟨p', hp, htracks'⟩ := hloop offset p htracks
    exact ⟨offset, p', htracks', hoffset, hscanned.mono hknown hp⟩
  | ready last =>
    obtain ⟨hle, ⟨e, he, hnoop, hterm⟩, offset, p, htracks, hoffset, hscanned⟩ := h
    obtain ⟨p', hp, htracks'⟩ := hloop offset p htracks
    exact ⟨hle.trans hcommit, ⟨e, entryAt_of_isPrefix hknown he, hnoop, hterm⟩, offset, p',
      htracks', hoffset, hscanned.mono hknown hp⟩
  | _ => trivial

/-- **A read tells the thread what it says**, whatever log it finds. -/
theorem Informed.wait (h : phase.Informed m d n known loop term)
    (hcarries : (⟨l, n.commitIndex⟩ : RaftView).Carries known)
    (hloop : loop.Torn ∨ ∃ offset p, loop.Tracks m d n.view known offset p)
    (hs : phase.waitTillLeaderIsReadyOrStepDown n l loop.store term = some phase') :
    phase'.Informed m d n known loop term := by
  cases phase with
  | waiting =>
    obtain rfl := Option.some.inj hs
    split <;> trivial
  | sameTerm =>
    obtain rfl := Option.some.inj hs
    trivial
  | lastIndex last =>
    obtain rfl := Option.some.inj hs
    exact Nat.le_refl _
  | commitIndex last commit =>
    obtain rfl := Option.some.inj hs
    refine ⟨h, ?_⟩
    rcases hloop with htorn | ⟨offset, p, htracks⟩
    · obtain ⟨asyncLoad, threads, hstore⟩ := htorn.store
      left
      rw [hstore]
      rfl
    · exact Or.inr ⟨offset, p, htracks, htracks.offset_le⟩
  | loadedIndex last commit loaded =>
    obtain rfl := Option.some.inj hs
    split
    · trivial
    · next heq =>
      rw [not_or, not_not, not_not] at heq
      obtain ⟨rfl, rfl⟩ := heq
      obtain ⟨hle, hloaded⟩ := h
      refine ⟨hle, hloaded.imp_right ?_⟩
      rintro ⟨offset, p, htracks, hoffset⟩
      exact ⟨offset, p, htracks, hoffset, loop.store.appliedIndex, htracks.applied_le,
        fun i hi hij => absurd hij (by omega)⟩
  | scanning last j =>
    obtain ⟨hle, hlast⟩ := h
    rw [waitTillLeaderIsReadyOrStepDown] at hs
    split at hs
    · obtain rfl := Option.some.inj hs
      trivial
    · next hj =>
      obtain ⟨e, he, rfl⟩ := Option.map_eq_some_iff.mp hs
      have hentry : entryAt known j = some e :=
        hcarries.entry j e ((Nat.le_of_not_lt hj).trans hle) (Node.getEntry_of_readEntry he)
      have hpos := (le_length_of_entryAt hentry).1
      have htracks := hlast.resolve_left (by omega)
      obtain ⟨offset, p, htracks, hoffset, hscanned⟩ := htracks
      split
      · trivial
      · next hnoop =>
        have hnoop : e.noop = true := by simpa using hnoop
        have hnext := hscanned.succ hentry hnoop
        split
        · next hready =>
          obtain ⟨rfl, hterm⟩ := hready
          exact ⟨hle, ⟨e, hentry, hnoop, hterm⟩, offset, p, htracks, hoffset, hnext⟩
        · exact ⟨hle, Or.inr ⟨offset, p, htracks, hoffset, hnext⟩⟩
  | _ => cases hs

end LoopPhase

/-! ## What a thread finds of the log -/

/-- **Whatever log a thread finds** holds the committed log as far as the node has counted it. -/
theorem Chronicle.Inv.carries_visible {w : Chronicle} {a : S.Abstract} {i : ℕ} (h : w.Inv S a.1)
    (hi : i ∈ S.info.nodes.keys) (hl : w.cluster.Visible S i l) :
    (⟨l, (w.cluster.nodes i).commitIndex⟩ : RaftView).Carries w.known where
  commit_le := h.commit_le i hi
  entry j e hj he := by
    obtain ⟨b, hab, hb⟩ := h.refines.visible hi hl
    have hle := Nat.le_trans hj (h.refines.nodes i hi).commit_le
    rw [(h.agree hi hj).entryAt_eq (Nat.le_refl j), h.archive i hi,
      ← ((S.grows_of_reach hab).committed_log i).entryAt_eq hle]
    exact hb.entryAt_of_getEntry he

/-! ## Runs -/

/-- A cluster, the apply loop of one of its nodes, and a thread of that node that waits, or has
waited. `.refresh` stands for a thread that does not wait, and for the answer `0`. -/
structure Readiness (σ ε : Type) where
  chronicle : Chronicle
  loop : EventApplyLoop σ ε
  expectedTerm : ℕ
  phase : LoopPhase σ ε

namespace Readiness

/-- Whose step it is. A thread finds the log that the node has, or one in the course of an
event. -/
inductive Action (σ : Type)
  /-- A step of the cluster in which the node goes on running. -/
  | raft (act : Gringofts.Action)
  /-- The node stops and starts again, with a new application. -/
  | restart (act : Gringofts.Action) (asyncLoad : Bool) (threads : ℕ) (snapshot : Option (ℕ × σ))
  | loop (found : Option (Input × ℕ)) (move : EventApplyLoop.Move σ)
  | wait (found : Option (Input × ℕ))
  /-- `waitTillLeaderIsReadyOrStepDown` is called. -/
  | call (expectedTerm : ℕ)
  /-- The thread swaps the state of the loop for another one. -/
  | swap (target : σ)

/-- Has the thread returned? -/
def returned (w : Readiness σ ε) : Bool :=
  match w.phase with
  | .refresh => true
  | .ready _ => true
  | _ => false

variable (S : Setup) (m : StateMachine σ ε) (d : EntryDecoder ε) (i : ℕ)

/-- The node. -/
def node (w : Readiness σ ε) : Node := w.chronicle.cluster.nodes i

/-- **One step.** -/
def step (w : Readiness σ ε) : Action σ → Option (Readiness σ ε)
  | .raft act =>
    if act.node = i ∧ act.isCrash = true then none
    else (w.chronicle.step S act).map fun c => { w with chronicle := c }
  | .restart act asyncLoad threads snapshot =>
    if act.node = i ∧ act.isCrash = true then do
      let c ← w.chronicle.step S act
      let loop ← (start m asyncLoad threads).recoverSelf m snapshot
      some ⟨c, loop, 0, .refresh⟩
    else none
  | .loop found mv => do
    let l ← w.chronicle.cluster.glimpse S i found
    let loop ← w.loop.move m (S.config i) d ⟨l, (w.node i).commitIndex⟩ mv
    some { w with loop := loop }
  | .wait found => do
    let l ← w.chronicle.cluster.glimpse S i found
    let phase ← w.phase.waitTillLeaderIsReadyOrStepDown (w.node i) l w.loop.store w.expectedTerm
    some { w with phase := phase }
  | .call expectedTerm =>
    if w.returned then some { w with expectedTerm := expectedTerm, phase := .waiting } else none
  | .swap target =>
    if w.returned then (w.loop.swapStateAndTeardown target).map fun (_, loop) =>
      { w with loop := loop, phase := .refresh }
    else none

/-- A snapshot that is recovered from is right. -/
def Action.Right (known : List LogEntry) : Action σ → Prop
  | .restart _ _ _ snapshot =>
    ∀ x, snapshot = some x → EventApplyLoop.RightSnapshot m d known x
  | .loop _ mv => mv.Right m d known
  | _ => True

/-- **The runs.** -/
inductive Reachable : Readiness σ ε → Prop
  | start {asyncLoad : Bool} {threads : ℕ} {snapshot : Option (ℕ × σ)} {loop : EventApplyLoop σ ε}
      (hright : ∀ x, snapshot = some x → EventApplyLoop.RightSnapshot m d [] x)
      (hloop : (start m asyncLoad threads).recoverSelf m snapshot = some loop) :
      Reachable ⟨Chronicle.init S, loop, 0, .refresh⟩
  | step {w w' : Readiness σ ε} {act : Action σ} (h : Reachable w)
      (hright : act.Right m d w.chronicle.known) (hs : w.step S m d i act = some w') :
      Reachable w'

/-- **The invariant.** -/
structure Inv (w : Readiness σ ε) (a : State ℕ LogEntry) : Prop where
  chronicle : w.chronicle.Inv S a
  loop : w.loop.Torn ∨
    ∃ offset p, w.loop.Tracks m d (w.node i).view w.chronicle.known offset p
  informed : w.phase.Informed m d (w.node i) w.chronicle.known w.loop w.expectedTerm

variable {S m d i} {w w' : Readiness σ ε} {a : S.Abstract}

/-- The cluster takes a step in which the node goes on running. -/
theorem Inv.raft (h : w.Inv S m d i a.1) (hi : i ∈ S.info.nodes.keys) {act : Gringofts.Action}
    {c : Chronicle} (hact : ¬ (act.node = i ∧ act.isCrash = true))
    (hs : w.chronicle.step S act = some c) :
    ∃ b : S.Abstract, Inv S m d i { w with chronicle := c } b.1 := by
  obtain ⟨b, -, hb, hknown⟩ := h.chronicle.step hs
  obtain ⟨c', hc, rfl⟩ := Option.map_eq_some_iff.mp hs
  have hrunning : i = act.node → act.isCrash = false := fun heq => by
    simpa [heq.symm] using hact
  have hcommit := Cluster.step_commit_le h.chronicle.refines hc hrunning
  have hloop : ∀ offset p, w.loop.Tracks m d (w.node i).view w.chronicle.known offset p →
      ∃ p', p ≤ p' ∧ w.loop.Tracks m d (c'.nodes i).view (w.chronicle.record act.node c').known
        offset p' := fun offset p ht =>
    ⟨p, Nat.le_refl p, ht.grows (h.chronicle.commit_le i hi) hknown hcommit⟩
  refine ⟨b, hb, h.loop.imp_right ?_, h.informed.mono hcommit hknown hloop⟩
  rintro ⟨offset, p, ht⟩
  obtain ⟨p', -, ht'⟩ := hloop offset p ht
  exact ⟨offset, p', ht'⟩

/-- **Each step keeps the invariant.** -/
theorem Inv.step (h : w.Inv S m d i a.1) (hi : i ∈ S.info.nodes.keys) {act : Action σ}
    (hright : act.Right m d w.chronicle.known) (hs : w.step S m d i act = some w')
    (hnum : d.Numbered w.chronicle.known) : ∃ b : S.Abstract, w'.Inv S m d i b.1 := by
  cases act with
  | raft act =>
    rw [Readiness.step] at hs
    split at hs
    · cases hs
    · next hact =>
      obtain ⟨c, hc, rfl⟩ := Option.map_eq_some_iff.mp hs
      exact h.raft hi hact hc
  | restart act asyncLoad threads snapshot =>
    rw [Readiness.step] at hs
    split at hs
    · obtain ⟨c, hc, hs⟩ := Option.bind_eq_some_iff.mp hs
      obtain ⟨loop, hloop, hs⟩ := Option.bind_eq_some_iff.mp hs
      obtain rfl := Option.some.inj hs
      obtain ⟨b, -, hb, hknown⟩ := h.chronicle.step hc
      obtain ⟨offset, ht, -⟩ := tracks_recoverSelf (v := (c.cluster.nodes i).view)
        rfl (fun x hx => (hright x hx).of_isPrefix hknown) rfl hloop
      exact ⟨b, hb, Or.inr ⟨offset, offset, ht⟩, trivial⟩
    · cases hs
  | loop found mv =>
    obtain ⟨l, hl, hs⟩ := Option.bind_eq_some_iff.mp hs
    obtain ⟨loop, hloop, hs⟩ := Option.bind_eq_some_iff.mp hs
    obtain rfl := Option.some.inj hs
    have hcarries := h.chronicle.carries_visible hi ⟨found, hl⟩
    have hmove : ∀ offset p, w.loop.Tracks m d (w.node i).view w.chronicle.known offset p →
        ∃ p', p ≤ p' ∧ loop.Tracks m d (w.node i).view w.chronicle.known offset p' :=
      fun offset p ht => ht.step_of_view hcarries rfl hnum hloop
    refine ⟨a, h.chronicle, ?_, h.informed.mono (Nat.le_refl _) (List.prefix_refl _) hmove⟩
    rcases h.loop with htorn | ⟨offset, p, ht⟩
    · obtain ⟨offset, ht⟩ := htorn.step hright hloop
      exact Or.inr ⟨offset, offset, ht.grows (h.chronicle.commit_le i hi) (List.prefix_refl _)
        (Nat.le_refl _)⟩
    · obtain ⟨p', -, ht'⟩ := hmove offset p ht
      exact Or.inr ⟨offset, p', ht'⟩
  | wait found =>
    obtain ⟨l, hl, hs⟩ := Option.bind_eq_some_iff.mp hs
    obtain ⟨phase, hphase, hs⟩ := Option.bind_eq_some_iff.mp hs
    obtain rfl := Option.some.inj hs
    exact ⟨a, h.chronicle, h.loop,
      h.informed.wait (h.chronicle.carries_visible hi ⟨found, hl⟩) h.loop hphase⟩
  | call expectedTerm =>
    rw [Readiness.step] at hs
    split at hs
    · obtain rfl := Option.some.inj hs
      exact ⟨a, h.chronicle, h.loop, trivial⟩
    · cases hs
  | swap target =>
    rw [Readiness.step] at hs
    split at hs
    · obtain ⟨⟨state, loop⟩, hswap, rfl⟩ := Option.map_eq_some_iff.mp hs
      obtain ⟨htorn, -, -⟩ := torn_of_swap hswap
      exact ⟨a, h.chronicle, Or.inl htorn, trivial⟩
    · cases hs

/-- A step that is not one of the cluster leaves it alone. -/
theorem chronicle_of_step {act : Action σ} (hs : w.step S m d i act = some w') :
    w'.chronicle = w.chronicle ∨ ∃ act, w.chronicle.step S act = some w'.chronicle := by
  cases act with
  | raft act =>
    rw [Readiness.step] at hs
    split at hs
    · cases hs
    · obtain ⟨c, hc, rfl⟩ := Option.map_eq_some_iff.mp hs
      exact Or.inr ⟨act, hc⟩
  | restart act asyncLoad threads snapshot =>
    rw [Readiness.step] at hs
    split at hs
    · obtain ⟨c, hc, hs⟩ := Option.bind_eq_some_iff.mp hs
      obtain ⟨loop, -, hs⟩ := Option.bind_eq_some_iff.mp hs
      obtain rfl := Option.some.inj hs
      exact Or.inr ⟨act, hc⟩
    · cases hs
  | loop found mv =>
    obtain ⟨l, -, hs⟩ := Option.bind_eq_some_iff.mp hs
    obtain ⟨loop, -, hs⟩ := Option.bind_eq_some_iff.mp hs
    obtain rfl := Option.some.inj hs
    exact Or.inl rfl
  | wait found =>
    obtain ⟨l, -, hs⟩ := Option.bind_eq_some_iff.mp hs
    obtain ⟨phase, -, hs⟩ := Option.bind_eq_some_iff.mp hs
    obtain rfl := Option.some.inj hs
    exact Or.inl rfl
  | call expectedTerm =>
    rw [Readiness.step] at hs
    split at hs
    · obtain rfl := Option.some.inj hs
      exact Or.inl rfl
    · cases hs
  | swap target =>
    rw [Readiness.step] at hs
    split at hs
    · obtain ⟨x, -, rfl⟩ := Option.map_eq_some_iff.mp hs
      exact Or.inl rfl
    · cases hs

theorem known_of_step (ha : w.chronicle.Inv S a.1) {act : Action σ}
    (hs : w.step S m d i act = some w') :
    w.chronicle.known <+: w'.chronicle.known ∧ ∃ b : S.Abstract, w'.chronicle.Inv S b.1 := by
  rcases chronicle_of_step hs with heq | ⟨act, hc⟩
  · rw [heq]
    exact ⟨List.prefix_refl _, a, ha⟩
  · obtain ⟨b, -, hb, hknown⟩ := ha.step hc
    exact ⟨hknown, b, hb⟩

theorem Reachable.chronicle (h : Reachable S m d i w) :
    ∃ a : S.Abstract, w.chronicle.Inv S a.1 := by
  induction h with
  | start hright hloop => exact ⟨⟨_, (refines_init S).inv⟩, Chronicle.inv_init S⟩
  | step hw hright hs ih =>
    obtain ⟨a, ha⟩ := ih
    exact (known_of_step ha hs).2

/-- **Every run keeps the invariant**, if the commands are numbered. -/
theorem Reachable.inv (h : Reachable S m d i w) (hi : i ∈ S.info.nodes.keys)
    (hnum : d.Numbered w.chronicle.known) : ∃ a : S.Abstract, w.Inv S m d i a.1 := by
  induction h with
  | start hright hloop =>
    obtain ⟨offset, ht, -⟩ := tracks_recoverSelf rfl hright rfl hloop
    exact ⟨⟨_, (refines_init S).inv⟩, Chronicle.inv_init S, Or.inr ⟨offset, offset, ht⟩, trivial⟩
  | @step w w' act hw hright hs ih =>
    obtain ⟨a, ha⟩ := hw.chronicle
    have hnum' := hnum.of_isPrefix (known_of_step ha hs).1
    obtain ⟨a, h⟩ := ih hnum'
    exact h.step hi hright hs hnum'

end Readiness

/-- **A leader that is ready has caught up.** In every run of a cluster, of the apply loop of a node
and of a thread there that waits for a term, whose reads happen at different moments: when the
thread has returned `n`, the entry `n` is a `noop` of that term, it is committed, and the state of
the apply loop is the result of applying the committed log up to `n`, or further. -/
theorem leader_readiness_sound {m : StateMachine σ ε} {d : EntryDecoder ε} {i n : ℕ}
    {w : Readiness σ ε} (hi : i ∈ S.info.nodes.keys) (hw : Readiness.Reachable S m d i w)
    (hnum : d.Numbered w.chronicle.known) (hready : w.phase = .ready n) :
    0 < n ∧ n ≤ (w.node i).commitIndex ∧ Agree w.chronicle.known (w.chronicle.archive i) n ∧
    (∃ e, entryAt w.chronicle.known n = some e ∧ e.noop = true ∧ e.term = w.expectedTerm) ∧
    ∃ k, n ≤ k ∧ w.loop.appStateMachine = m.stateAt d w.chronicle.known k := by
  obtain ⟨a, h⟩ := hw.inv hi hnum
  have hinformed := h.informed
  rw [hready] at hinformed
  obtain ⟨hle, ⟨e, he, hnoop, hterm⟩, offset, p, ht, -, hscanned⟩ := hinformed
  refine ⟨(le_length_of_entryAt he).1, hle, h.chronicle.agree hi hle, ⟨e, he, hnoop, hterm⟩,
    max p n, Nat.le_max_right _ _, ?_⟩
  rw [hscanned.stateAt_eq, ht.state]

/-! ### A run -/

namespace Scenario

/-- One voter. -/
def oneVoter : Setup := setup ⟨[(1, ⟨"a", 1, .voter⟩)], by decide⟩ (by decide) (by decide)

/-- Steps one after the other. -/
def playReadiness (acts : List (Readiness.Action ℕ)) (w : Readiness ℕ UInt8) :
    Option (Readiness ℕ UInt8) :=
  acts.foldlM (fun w act => w.step oneVoter sum plainDecoder 1 act) w

/-- The only node is elected, takes a command and crashes. It is elected again, and commits its
`noop` and everything before it. -/
def reenthroned : List (Readiness.Action ℕ) :=
  [.raft (.run 1 (.own (.electionTimeout ⟨10, 1⟩))), .raft (.run 1 (.own (.becomeLeader ⟨11, 1⟩))),
    .raft (.run 1 (.own (.clientRequests [⟨⟨1, 2, false, 0, [2, 7, 8], 0, none⟩, none⟩]))),
    .restart (.crash 1 (.own .advanceCommitIndex) 0 .follower ⟨20, 1⟩) false 0 none,
    .raft (.run 1 (.own (.electionTimeout ⟨30, 1⟩))), .raft (.run 1 (.own (.becomeLeader ⟨31, 1⟩))),
    .raft (.run 1 (.own .advanceCommitIndex))]

/-- The apply loop loads the log and applies the command, and a thread waits for term `2`. -/
def awaited : List (Readiness.Action ℕ) :=
  .loop none (.lock none) :: List.replicate 7 (.loop none (.load 3)) ++
  .loop none .apply :: .loop none (.lock none) :: List.replicate 3 (.loop none (.load 3)) ++
  .call 2 :: List.replicate 6 (.wait none)

/-- The application before anything has happened. -/
def idle : Readiness ℕ UInt8 :=
  ⟨Chronicle.init oneVoter,
    { start sum false 0 with store := (EventStore.start false 0).init }, 0, .refresh⟩

/-- The log of both terms. -/
def twoTerms : List LogEntry :=
  [⟨1, 1, true, 11, [], 0, none⟩, ⟨1, 2, false, 0, [2, 7, 8], 0, none⟩,
    ⟨2, 3, true, 31, [], 0, none⟩]

theorem numbered_twoTerms : plainDecoder.Numbered twoTerms := by
  intro i e b he hb
  match i, he with
  | 1, he | 3, he =>
    cases he
    cases hb
  | 2, he =>
    cases he
    cases hb
    rfl

/-- Both terms are committed and applied, and the wait has returned `n`. -/
def readyAt (n : ℕ) (w : Readiness ℕ UInt8) : Bool :=
  match w.phase with
  | .ready k => k = n ∧ w.chronicle.known = twoTerms ∧ w.loop.appStateMachine = 15
  | _ => false

end Scenario

theorem leader_readiness_sound_reelected :
    ∃ w : Readiness ℕ UInt8,
      Readiness.Reachable oneVoter sum plainDecoder 1 w ∧
      w.phase = .ready 3 ∧
      (∃ e, entryAt w.chronicle.known 3 = some e ∧ e.noop = true ∧ e.term = w.expectedTerm) ∧
      w.loop.appStateMachine = 15 ∧ ∃ k, 3 ≤ k ∧ w.loop.appStateMachine =
        sum.stateAt plainDecoder w.chronicle.known k := by
  have hplay : (playReadiness (reenthroned ++ awaited)
      idle).any (readyAt 3) = true := by
    decide +kernel
  obtain ⟨w, hw, hp⟩ := (Option.any_eq_true _ _).mp hplay
  rw [readyAt] at hp
  split at hp
  · next k hphase =>
    obtain ⟨rfl, hknown, hstate⟩ := of_decide_eq_true hp
    have hstart : Readiness.Reachable oneVoter sum plainDecoder 1
        idle := .start (fun x (hx : none = some x) => by cases hx) rfl
    have hright : ∀ act ∈ reenthroned ++ awaited, ∀ known,
        act.Right sum plainDecoder known := by
      simp [reenthroned, awaited, Readiness.Action.Right,
        EventApplyLoop.Move.Right]
    have hreach : Readiness.Reachable oneVoter sum plainDecoder 1 w :=
      foldlM_invariant hw hstart fun act hact _ _ hu hs => hu.step (hright act hact _) hs
    obtain ⟨-, -, -, hentry, happlied⟩ := leader_readiness_sound (by decide) hreach
      (hknown ▸ numbered_twoTerms) hphase
    exact ⟨w, hreach, hphase, hentry, hstate, happlied⟩
  · cases hp

end Gringofts
