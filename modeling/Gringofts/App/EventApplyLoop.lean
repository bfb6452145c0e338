import Gringofts.App.Delivery

/-!
# The loop that applies events

`EventApplyLoop` for a state machine in memory. The loop takes the bundles of the committed log and
applies their events. When its node becomes leader, the command loop swaps its own state for that of
this loop, and this loop has to recover: from the latest snapshot, or from the beginning of the log.
A snapshot may be asked for whenever the loop does not hold its mutex.

Three variables belong together: the state, the index of the last bundle that was applied to it, and
the position from which the store goes on. Recovery sets all three from a snapshot. Without one it
clears the state and starts the store anew, but it leaves the index as it was. Until the next bundle
arrives, the index is that of a state the loop no longer has, and a snapshot taken then is filed
under it (`stale_offset_snapshot`).

## Main definitions

* `StateMachine.stateAt` — the state after so much of the log
* `EventApplyLoop` — the loop, with the steps of its thread and the calls of the others
* `EventApplyLoop.Follows` — the loop has applied the log up to some index
* `Applies` — the runs of the loop

## Main results

* `snapshot_offset_describes_state`
-/

namespace Gringofts

open Scenario

variable {σ ε : Type} {segmentLast j threads : ℕ} {asyncLoad : Bool}

/-! ## State machines -/

/-- A state machine: the state that `clearState` leaves, and `applyEvent`. -/
structure StateMachine (σ ε : Type) where
  clearState : σ
  applyEvent : σ → ε → σ

namespace StateMachine

variable (m : StateMachine σ ε)

/-- Apply the events of a bundle. -/
def applyBundle (s : σ) (b : Bundle ε) : σ := b.events.foldl m.applyEvent s

/-- Apply the events of several bundles. -/
def replay (s : σ) (bs : List (Bundle ε)) : σ := bs.foldl m.applyBundle s

/-- **The state after the entries with an index up to `n`.** -/
def stateAt (d : EntryDecoder ε) (known : List LogEntry) (n : ℕ) : σ :=
  m.replay m.clearState (d.bundles known 0 n)

variable {m} {d : EntryDecoder ε} {known known' : List LogEntry} {a b : ℕ}

theorem replay_append (s : σ) (bs cs : List (Bundle ε)) :
    m.replay s (bs ++ cs) = m.replay (m.replay s bs) cs :=
  List.foldl_append

/-- Going on from an index. -/
theorem replay_stateAt (h : a ≤ b) :
    m.replay (m.stateAt d known a) (d.bundles known a b) = m.stateAt d known b := by
  rw [stateAt, ← replay_append, EntryDecoder.bundles_append (Nat.zero_le a) h, stateAt]

theorem stateAt_of_isPrefix (h : known <+: known') (ha : a ≤ known.length) :
    m.stateAt d known' a = m.stateAt d known a := by
  rw [stateAt, EntryDecoder.bundles_of_isPrefix h (Or.inl ha), stateAt]

end StateMachine

/-! ## Snapshots -/

/-- `getLargestSnapshot` among the files of the snapshot directory. -/
def latestSnapshot : List (ℕ × σ) → Option (ℕ × σ)
  | [] => none
  | x :: xs =>
    match latestSnapshot xs with
    | none => some x
    | some y => if y.1 < x.1 then some x else some y

/-- Rename a finished snapshot to its name, which is its offset. -/
def persistSnapshot (x : ℕ × σ) (xs : List (ℕ × σ)) : List (ℕ × σ) :=
  x :: xs.filter fun y => y.1 ≠ x.1

theorem latestSnapshot_mem {xs : List (ℕ × σ)} {x : ℕ × σ} (h : latestSnapshot xs = some x) :
    x ∈ xs := by
  induction xs with
  | nil => cases h
  | cons y ys ih =>
    rw [latestSnapshot] at h
    split at h
    · cases h
      exact List.mem_cons_self
    · next z hz =>
      split at h
      · cases h
        exact List.mem_cons_self
      · cases h
        exact List.mem_cons_of_mem _ (ih hz)

/-! ## The loop -/

/-- Where the loop is. -/
inductive ApplyPhase (ε : Type)
  /-- `mLoopMutex` is free. -/
  | unlocked
  /-- In `loadNextCommandEvents`. -/
  | loading
  /-- A bundle has been returned. -/
  | applying (b : Bundle ε)

/-- `EventApplyLoop` for a state machine in memory. -/
structure EventApplyLoop (σ ε : Type) where
  appStateMachine : σ
  lastAppliedLogEntryIndex : ℕ
  shouldRecover : Bool
  store : EventStore ε
  phase : ApplyPhase ε

namespace EventApplyLoop

variable (m : StateMachine σ ε) (cfg : RaftConfig) (d : EntryDecoder ε) (v : RaftView)

/-- What the constructor has made before it calls `recoverSelf`. -/
def start (asyncLoad : Bool) (threads : ℕ) : EventApplyLoop σ ε where
  appStateMachine := m.clearState
  lastAppliedLogEntryIndex := 0
  shouldRecover := false
  store := .start asyncLoad threads
  phase := .unlocked

variable (l : EventApplyLoop σ ε)

/-- `recoverSelf`, with the latest snapshot. Only the indices of the store can be read by another
thread meanwhile, and they are set at once: while `mLoadedIndex` is still `0`, a reader learns
nothing from `mAppliedIndex`. -/
def recoverSelf (snapshot : Option (ℕ × σ)) : Option (EventApplyLoop σ ε) :=
  match snapshot with
  | some (offset, state) => do
    let store ← l.store.setCurrentOffset offset
    some { l with
      appStateMachine := state
      lastAppliedLogEntryIndex := offset
      shouldRecover := false
      store := store.init }
  | none =>
    some { l with
      appStateMachine := m.clearState
      shouldRecover := false
      store := l.store.init }

/-- The loop takes its mutex, and recovers if it has to. -/
def lock (snapshot : Option (ℕ × σ)) : Option (EventApplyLoop σ ε) :=
  match l.phase with
  | .unlocked =>
    (if l.shouldRecover then l.recoverSelf m snapshot else some l).map fun l =>
      { l with phase := .loading }
  | _ => none

/-- The next step of `loadNextCommandEvents`. Without a bundle the loop starts over. -/
def load (segmentLast : ℕ) : Option (EventApplyLoop σ ε) :=
  match l.phase with
  | .loading => do
    let (store, r) ← l.store.loadNextCommandEvents cfg d v segmentLast
    some { l with
      store := store
      phase := match r with
        | none => .loading
        | some none => .unlocked
        | some (some b) => .applying b }
  | _ => none

/-- The loop applies the events of a bundle. -/
def apply : Option (EventApplyLoop σ ε) :=
  match l.phase with
  | .applying b =>
    some { l with
      appStateMachine := m.applyBundle l.appStateMachine b
      lastAppliedLogEntryIndex := b.commandId
      phase := .unlocked }
  | _ => none

/-- `swapStateAndTeardown`, called by another thread: what that thread gets, and the loop after
it. -/
def swapStateAndTeardown (target : σ) : Option (σ × EventApplyLoop σ ε) :=
  match l.phase with
  | .unlocked =>
    some (l.appStateMachine,
      { l with appStateMachine := target, store := l.store.teardown, shouldRecover := true })
  | _ => none

/-- `takeSnapshotAndPersist`, called by another thread: what is written. -/
def takeSnapshotAndPersist : Option (ℕ × σ) :=
  match l.phase with
  | .unlocked =>
    if l.shouldRecover then none else some (l.lastAppliedLogEntryIndex, l.appStateMachine)
  | _ => none

/-- A step of the load thread of the store. -/
def loadThread (segmentLast : ℕ) : Option (EventApplyLoop σ ε) := do
  let store ← l.store.loadEntriesThreadMain cfg v segmentLast
  some { l with store := store }

/-- A step of a decrypt thread of the store. -/
def decryptThread (j : ℕ) : Option (EventApplyLoop σ ε) := do
  let store ← l.store.decryptEntriesThreadMain d j
  some { l with store := store }

end EventApplyLoop

/-! ## Following the log -/

/-- The id of a command is the index of its entry: `persistAsync` makes it so. -/
def EntryDecoder.Numbered (d : EntryDecoder ε) (known : List LogEntry) : Prop :=
  ∀ i e b, entryAt known i = some e → d.bundle? e = some b → b.commandId = i

theorem EntryDecoder.Numbered.of_isPrefix {d : EntryDecoder ε} {known known' : List LogEntry}
    (h : d.Numbered known') (hp : known <+: known') : d.Numbered known := by
  intro i e b he hb
  exact h i e b (entryAt_of_isPrefix hp he) hb

namespace EventApplyLoop

/-- Where the state is, given that everything up to `k` has been returned: there, or one bundle
behind. -/
def PhaseOk (d : EntryDecoder ε) (known : List LogEntry) (p k : ℕ) : ApplyPhase ε → Prop
  | .applying b => p ≤ k ∧ d.bundles known p k = [b] ∧ b.commandId = k
  | _ => p = k

/-- **The loop follows the log**: its store was started at `offset` and has returned everything up
to `k`, and the state is that after the entries up to `p`. -/
structure Follows (m : StateMachine σ ε) (d : EntryDecoder ε) (v : RaftView)
    (known : List LogEntry) (offset p k : ℕ) (l : EventApplyLoop σ ε) : Prop where
  store : l.store.Inv d v known offset k
  offset_le : offset ≤ known.length
  state : l.appStateMachine = m.stateAt d known p
  phase : PhaseOk d known p k l.phase

variable {m : StateMachine σ ε} {cfg : RaftConfig} {d : EntryDecoder ε} {v v' : RaftView}
  {known known' : List LogEntry} {offset p k : ℕ} {l l' : EventApplyLoop σ ε}

theorem PhaseOk.le {x : ApplyPhase ε} (h : PhaseOk d known p k x) : p ≤ k := by
  cases x with
  | unlocked => exact Nat.le_of_eq h
  | loading => exact Nat.le_of_eq h
  | applying b => exact h.1

/-- What has been returned is committed. -/
theorem Follows.le_length (h : l.Follows m d v known offset p k)
    (hv : v.commitIndex ≤ known.length) : k ≤ known.length := by
  have hle := h.store.le_covered.trans h.store.covered_le
  have hoff := h.offset_le
  omega

theorem Follows.grows (h : l.Follows m d v known offset p k) (hv : v.commitIndex ≤ known.length)
    (hknown : known <+: known') (hcommit : v.commitIndex ≤ v'.commitIndex) :
    l.Follows m d v' known' offset p k where
  store := h.store.grows hv hknown hcommit
  offset_le := h.offset_le.trans hknown.length_le
  state := by
    rw [StateMachine.stateAt_of_isPrefix hknown (h.phase.le.trans (h.le_length hv))]
    exact h.state
  phase := by
    have hk := h.le_length hv
    have hphase := h.phase
    revert hphase
    cases l.phase with
    | unlocked => exact id
    | loading => exact id
    | applying b =>
      rintro ⟨hle, hb, hid⟩
      exact ⟨hle, by rw [EntryDecoder.bundles_of_isPrefix hknown (Or.inl hk), hb], hid⟩

theorem Follows.loadThread (h : l.Follows m d v known offset p k) (hv : v.Carries known)
    (hs : l.loadThread cfg v segmentLast = some l') : l'.Follows m d v known offset p k := by
  obtain ⟨store, hstore, hs⟩ := Option.bind_eq_some_iff.mp hs
  rw [← Option.some.inj hs]
  exact ⟨h.store.load hv hstore, h.offset_le, h.state, h.phase⟩

theorem Follows.decryptThread (h : l.Follows m d v known offset p k)
    (hs : l.decryptThread d j = some l') : l'.Follows m d v known offset p k := by
  obtain ⟨store, hstore, hs⟩ := Option.bind_eq_some_iff.mp hs
  rw [← Option.some.inj hs]
  exact ⟨h.store.decrypt hstore, h.offset_le, h.state, h.phase⟩

/-- A bundle that is returned is the next one. -/
theorem Follows.load (h : l.Follows m d v known offset p k) (hv : v.Carries known)
    (hnum : d.Numbered known) (hs : l.load cfg d v segmentLast = some l') :
    ∃ k', l'.Follows m d v known offset p k' := by
  rw [EventApplyLoop.load] at hs
  split at hs
  next hphase =>
    obtain ⟨⟨store, r⟩, hstore, hs⟩ := Option.bind_eq_some_iff.mp hs
    have hpk : p = k := by
      have := h.phase
      rwa [hphase] at this
    rw [← Option.some.inj hs]
    rcases h.store.consume hv hstore with ⟨hr, hinv⟩ | ⟨b, i, e, rfl, hki, he, hb, hbs, hinv⟩
    · refine ⟨k, hinv, h.offset_le, h.state, ?_⟩
      match r, hr with
      | none, _ => exact hpk
      | some none, _ => exact hpk
    · refine ⟨i, hinv, h.offset_le, h.state, ?_⟩
      subst hpk
      exact ⟨hki.le, hbs, hnum i e b he hb⟩
  next => cases hs

/-- Applying a bundle brings the state to where the store is. -/
theorem Follows.apply (h : l.Follows m d v known offset p k) (hs : l.apply m = some l') :
    l'.Follows m d v known offset k k ∧ l'.lastAppliedLogEntryIndex = k := by
  rw [EventApplyLoop.apply] at hs
  split at hs
  next b hphase =>
    have hok := h.phase
    rw [hphase] at hok
    obtain ⟨hle, hb, hid⟩ := hok
    rw [← Option.some.inj hs]
    refine ⟨⟨h.store, h.offset_le, ?_, rfl⟩, hid⟩
    show m.applyBundle l.appStateMachine b = _
    rw [h.state, ← StateMachine.replay_stateAt hle, hb]
    rfl
  next => cases hs

/-- A snapshot that is what it says it is. -/
def RightSnapshot (m : StateMachine σ ε) (d : EntryDecoder ε) (known : List LogEntry)
    (x : ℕ × σ) : Prop :=
  x.1 ≤ known.length ∧ x.2 = m.stateAt d known x.1

theorem RightSnapshot.of_isPrefix {x : ℕ × σ} (h : RightSnapshot m d known x)
    (hp : known <+: known') : RightSnapshot m d known' x :=
  ⟨h.1.trans hp.length_le, by rw [StateMachine.stateAt_of_isPrefix hp h.1, h.2]⟩

/-- **After recovery** the loop follows the log from the offset of the snapshot, or from its
beginning. -/
theorem follows_recoverSelf {snapshot : Option (ℕ × σ)}
    (hstore : l.store = .start asyncLoad threads)
    (hright : ∀ x, snapshot = some x → RightSnapshot m d known x) (hphase : l.phase = .unlocked)
    (hs : l.recoverSelf m snapshot = some l') :
    ∃ offset, l'.Follows m d v known offset offset offset ∧ l'.phase = .unlocked ∧
      l'.shouldRecover = false ∧ l'.store.appliedIndex = offset ∧ l'.store.applyingIndex = 0 ∧
      l'.lastAppliedLogEntryIndex = (snapshot.map Prod.fst).getD l.lastAppliedLogEntryIndex ∧
      offset = (snapshot.map Prod.fst).getD 0 := by
  cases snapshot with
  | some x =>
    obtain ⟨o, s⟩ := x
    obtain ⟨hle, hstate⟩ := hright _ rfl
    obtain ⟨store, hoffset, hs⟩ := Option.bind_eq_some_iff.mp hs
    rw [hstore] at hoffset
    cases Option.some.inj hoffset
    rw [← Option.some.inj hs]
    refine ⟨o, ⟨EventStore.inv_start _ _ _ _, hle, hstate, ?_⟩, hphase, rfl, rfl, rfl, rfl, rfl⟩
    rw [hphase]
    rfl
  | none =>
    rw [← Option.some.inj hs]
    refine ⟨0, ⟨?_, Nat.zero_le _, ?_, ?_⟩, hphase, rfl, ?_, ?_, rfl, rfl⟩
    · rw [hstore]
      exact EventStore.inv_start _ _ _ 0
    · rw [StateMachine.stateAt, EntryDecoder.bundles_of_le (Nat.le_refl 0)]
      rfl
    · rw [hphase]
      rfl
    · rw [hstore]
      rfl
    · rw [hstore]
      rfl

end EventApplyLoop

/-! ## Runs -/

/-- **The runs of the loop**: what is committed, the loop, and the snapshots that have been written.
It starts with snapshots that are right. The threads of its store, its own thread and the calls of
others take steps in any order. A recovery has to be allowed where it happens. -/
inductive Applies (m : StateMachine σ ε) (cfg : RaftConfig) (d : EntryDecoder ε) (asyncLoad : Bool)
    (threads : ℕ) (allowed : EventApplyLoop σ ε → List (ℕ × σ) → Prop) :
    CommittedLog → EventApplyLoop σ ε → List (ℕ × σ) → Prop
  | start (c : CommittedLog) {xs : List (ℕ × σ)} {l : EventApplyLoop σ ε}
      (hxs : ∀ x ∈ xs, EventApplyLoop.RightSnapshot m d c.known x)
      (hs : (EventApplyLoop.start m asyncLoad threads).recoverSelf m (latestSnapshot xs) = some l) :
      Applies m cfg d asyncLoad threads allowed c l xs
  | commit {c c' : CommittedLog} {l : EventApplyLoop σ ε} {xs : List (ℕ × σ)}
      (h : Applies m cfg d asyncLoad threads allowed c l xs) (hc : c.Grows c') :
      Applies m cfg d asyncLoad threads allowed c' l xs
  | loadThread {c : CommittedLog} {l l' : EventApplyLoop σ ε} {xs : List (ℕ × σ)}
      (h : Applies m cfg d asyncLoad threads allowed c l xs) (segmentLast : ℕ)
      (hs : l.loadThread cfg c.toRaftView segmentLast = some l') :
      Applies m cfg d asyncLoad threads allowed c l' xs
  | decryptThread {c : CommittedLog} {l l' : EventApplyLoop σ ε} {xs : List (ℕ × σ)}
      (h : Applies m cfg d asyncLoad threads allowed c l xs) (j : ℕ)
      (hs : l.decryptThread d j = some l') : Applies m cfg d asyncLoad threads allowed c l' xs
  | lock {c : CommittedLog} {l l' : EventApplyLoop σ ε} {xs : List (ℕ × σ)}
      (h : Applies m cfg d asyncLoad threads allowed c l xs)
      (ha : l.shouldRecover = true → allowed l xs)
      (hs : l.lock m (latestSnapshot xs) = some l') :
      Applies m cfg d asyncLoad threads allowed c l' xs
  | load {c : CommittedLog} {l l' : EventApplyLoop σ ε} {xs : List (ℕ × σ)}
      (h : Applies m cfg d asyncLoad threads allowed c l xs) (segmentLast : ℕ)
      (hs : l.load cfg d c.toRaftView segmentLast = some l') :
      Applies m cfg d asyncLoad threads allowed c l' xs
  | apply {c : CommittedLog} {l l' : EventApplyLoop σ ε} {xs : List (ℕ × σ)}
      (h : Applies m cfg d asyncLoad threads allowed c l xs) (hs : l.apply m = some l') :
      Applies m cfg d asyncLoad threads allowed c l' xs
  | swap {c : CommittedLog} {l l' : EventApplyLoop σ ε} {xs : List (ℕ × σ)} {s : σ}
      (h : Applies m cfg d asyncLoad threads allowed c l xs) (target : σ)
      (hs : l.swapStateAndTeardown target = some (s, l')) :
      Applies m cfg d asyncLoad threads allowed c l' xs
  | snapshot {c : CommittedLog} {l : EventApplyLoop σ ε} {xs : List (ℕ × σ)} {x : ℕ × σ}
      (h : Applies m cfg d asyncLoad threads allowed c l xs)
      (hs : l.takeSnapshotAndPersist = some x) :
      Applies m cfg d asyncLoad threads allowed c l (persistSnapshot x xs)

/-- Recovery finds a snapshot, unless nothing has been applied yet. -/
def EventApplyLoop.FindsSnapshot (l : EventApplyLoop σ ε) (xs : List (ℕ × σ)) : Prop :=
  latestSnapshot xs = none → l.lastAppliedLogEntryIndex = 0

namespace EventApplyLoop

variable {m : StateMachine σ ε} {cfg : RaftConfig} {d : EntryDecoder ε} {v v' : RaftView}
  {known known' : List LogEntry} {l l' : EventApplyLoop σ ε}

/-- What holds of a loop whose recoveries find a snapshot: it follows the log, and its index says
how far; or it waits for its recovery. -/
inductive Aligned (m : StateMachine σ ε) (d : EntryDecoder ε) (v : RaftView)
    (known : List LogEntry) (l : EventApplyLoop σ ε) : Prop
  | torn {asyncLoad : Bool} {threads : ℕ} (hrecover : l.shouldRecover = true)
      (hphase : l.phase = .unlocked) (hstore : l.store = .start asyncLoad threads)
  | follows {offset k : ℕ} (hrecover : l.shouldRecover = false)
      (h : l.Follows m d v known offset l.lastAppliedLogEntryIndex k)

theorem Aligned.of_follows {offset k p : ℕ} (hrecover : l.shouldRecover = false)
    (h : l.Follows m d v known offset p k) (hp : l.lastAppliedLogEntryIndex = p) :
    l.Aligned m d v known := by
  subst hp
  exact .follows hrecover h

/-- Recovery brings the three variables together. -/
theorem aligned_recoverSelf {xs : List (ℕ × σ)} (hstore : l.store = .start asyncLoad threads)
    (hphase : l.phase = .unlocked) (hxs : ∀ x ∈ xs, RightSnapshot m d known x)
    (hfinds : l.FindsSnapshot xs) (hs : l.recoverSelf m (latestSnapshot xs) = some l') :
    l'.shouldRecover = false ∧ l'.phase = .unlocked ∧ ∃ offset,
      l'.Follows m d v known offset offset offset ∧ l'.lastAppliedLogEntryIndex = offset := by
  obtain ⟨offset, hfollows, hphase', hrecover, -, -, hlast, hoff⟩ :=
    follows_recoverSelf hstore (fun x hx => hxs x (latestSnapshot_mem hx)) hphase hs
  refine ⟨hrecover, hphase', offset, hfollows, ?_⟩
  rw [hlast, hoff]
  cases hlatest : latestSnapshot xs with
  | none => exact hfinds hlatest
  | some x => rfl

/-! What each step of the loop and of its threads keeps. -/

namespace Aligned

variable {xs : List (ℕ × σ)}

theorem grows (h : l.Aligned m d v known) (hle : v.commitIndex ≤ known.length)
    (hknown : known <+: known') (hcommit : v.commitIndex ≤ v'.commitIndex) :
    l.Aligned m d v' known' := by
  cases h with
  | torn hrecover hphase hstore => exact .torn hrecover hphase hstore
  | follows hrecover hf => exact .follows hrecover (hf.grows hle hknown hcommit)

theorem loadThread (h : l.Aligned m d v known) (hv : v.Carries known)
    (hs : l.loadThread cfg v segmentLast = some l') : l'.Aligned m d v known := by
  cases h with
  | torn _ _ hstore =>
    -- the threads do not run
    rw [EventApplyLoop.loadThread, hstore] at hs
    simp [EventStore.loadEntriesThreadMain, EventStore.start] at hs
  | follows hrecover hf =>
    have hf' := hf.loadThread hv hs
    obtain ⟨store, -, hs⟩ := Option.bind_eq_some_iff.mp hs
    cases Option.some.inj hs
    exact .follows hrecover hf'

theorem decryptThread (h : l.Aligned m d v known) (hs : l.decryptThread d j = some l') :
    l'.Aligned m d v known := by
  cases h with
  | torn _ _ hstore =>
    rw [EventApplyLoop.decryptThread, hstore] at hs
    simp [EventStore.decryptEntriesThreadMain, EventStore.start] at hs
  | follows hrecover hf =>
    have hf' := hf.decryptThread hs
    obtain ⟨store, -, hs⟩ := Option.bind_eq_some_iff.mp hs
    cases Option.some.inj hs
    exact .follows hrecover hf'

/-- The loop recovers when it takes the lock, if it has to. -/
theorem lock (h : l.Aligned m d v known) (hxs : ∀ x ∈ xs, RightSnapshot m d known x)
    (hfinds : l.shouldRecover = true → l.FindsSnapshot xs)
    (hs : l.lock m (latestSnapshot xs) = some l') : l'.Aligned m d v known := by
  rw [EventApplyLoop.lock] at hs
  split at hs
  next hunlocked =>
    obtain ⟨n, hn, rfl⟩ := Option.map_eq_some_iff.mp hs
    cases h with
    | torn hrecover hphase hstore =>
      rw [if_pos hrecover] at hn
      obtain ⟨hrecover', -, offset, hf, hlast⟩ :=
        aligned_recoverSelf hstore hphase hxs (hfinds hrecover) hn
      exact .of_follows hrecover' ⟨hf.store, hf.offset_le, hf.state, rfl⟩ hlast
    | follows hrecover hf =>
      rw [if_neg (by simp [hrecover])] at hn
      cases Option.some.inj hn
      have hphase := hf.phase
      rw [hunlocked] at hphase
      exact .follows hrecover ⟨hf.store, hf.offset_le, hf.state, hphase⟩
  next => cases hs

theorem load (h : l.Aligned m d v known) (hv : v.Carries known) (hnum : d.Numbered known)
    (hs : l.load cfg d v segmentLast = some l') : l'.Aligned m d v known := by
  cases h with
  | torn _ hphase _ =>
    rw [EventApplyLoop.load, hphase] at hs
    cases hs
  | follows hrecover hf =>
    obtain ⟨k, hf'⟩ := hf.load hv hnum hs
    rw [EventApplyLoop.load] at hs
    split at hs
    next =>
      obtain ⟨x, -, hs⟩ := Option.bind_eq_some_iff.mp hs
      cases Option.some.inj hs
      exact .follows hrecover hf'
    next => cases hs

theorem apply (h : l.Aligned m d v known) (hs : l.apply m = some l') : l'.Aligned m d v known := by
  cases h with
  | torn _ hphase _ =>
    rw [EventApplyLoop.apply, hphase] at hs
    cases hs
  | follows hrecover hf =>
    obtain ⟨hf', hlast⟩ := hf.apply hs
    rw [EventApplyLoop.apply] at hs
    split at hs
    next =>
      cases Option.some.inj hs
      exact .of_follows hrecover hf' hlast
    next => cases hs

/-- A snapshot is taken of the state at the index that it names. -/
theorem rightSnapshot (h : l.Aligned m d v known) (hle : v.commitIndex ≤ known.length) {x : ℕ × σ}
    (hs : l.takeSnapshotAndPersist = some x) : RightSnapshot m d known x := by
  rw [EventApplyLoop.takeSnapshotAndPersist] at hs
  split at hs
  next hphase =>
    split at hs
    next => cases hs
    next hrecover =>
      cases Option.some.inj hs
      cases h with
      | torn hrecover' _ _ => exact absurd hrecover' hrecover
      | follows _ hf => exact ⟨hf.phase.le.trans (hf.le_length hle), hf.state⟩
  next => cases hs

end Aligned

/-- Whoever takes the state leaves a loop that has to recover. -/
theorem aligned_swap {s target : σ} (hs : l.swapStateAndTeardown target = some (s, l')) :
    l'.Aligned m d v known := by
  rw [EventApplyLoop.swapStateAndTeardown] at hs
  split at hs
  next hphase =>
    cases Option.some.inj hs
    exact .torn rfl hphase rfl
  next => cases hs

end EventApplyLoop

/-- **In every run whose recoveries find a snapshot**, the three variables belong together, and the
snapshots are right. -/
theorem Applies.aligned {m : StateMachine σ ε} {cfg : RaftConfig} {d : EntryDecoder ε}
    {c : CommittedLog} {l : EventApplyLoop σ ε} {xs : List (ℕ × σ)}
    (h : Applies m cfg d asyncLoad threads EventApplyLoop.FindsSnapshot c l xs)
    (hnum : d.Numbered c.known) :
    l.Aligned m d c.toRaftView c.known ∧
      ∀ x ∈ xs, EventApplyLoop.RightSnapshot m d c.known x := by
  induction h with
  | start c hxs hs =>
    obtain ⟨hrecover, -, offset, hfollows, hlast⟩ :=
      EventApplyLoop.aligned_recoverSelf rfl rfl hxs (fun _ => rfl) hs
    exact ⟨.of_follows hrecover hfollows hlast, hxs⟩
  | @commit c c' l xs _ hc ih =>
    obtain ⟨hl, hxs⟩ := ih (hnum.of_isPrefix hc.known)
    exact ⟨hl.grows c.carries.commit_le hc.known hc.commit_le,
      fun x hx => (hxs x hx).of_isPrefix hc.known⟩
  | @loadThread c l l' xs _ segmentLast hs ih =>
    obtain ⟨hl, hxs⟩ := ih hnum
    exact ⟨hl.loadThread c.carries hs, hxs⟩
  | decryptThread _ j hs ih =>
    obtain ⟨hl, hxs⟩ := ih hnum
    exact ⟨hl.decryptThread hs, hxs⟩
  | lock _ ha hs ih =>
    obtain ⟨hl, hxs⟩ := ih hnum
    exact ⟨hl.lock hxs ha hs, hxs⟩
  | @load c l l' xs _ segmentLast hs ih =>
    obtain ⟨hl, hxs⟩ := ih hnum
    exact ⟨hl.load c.carries hnum hs, hxs⟩
  | apply _ hs ih =>
    obtain ⟨hl, hxs⟩ := ih hnum
    exact ⟨hl.apply hs, hxs⟩
  | swap _ target hs ih => exact ⟨EventApplyLoop.aligned_swap hs, (ih hnum).2⟩
  | @snapshot c l xs x _ hs ih =>
    obtain ⟨hl, hxs⟩ := ih hnum
    refine ⟨hl, fun y hy => ?_⟩
    rcases List.mem_cons.mp hy with rfl | hy
    · exact hl.rightSnapshot c.carries.commit_le hs
    · exact hxs y (List.mem_of_mem_filter hy)

/-- **A snapshot offset describes the snapshotted state**, in every run in which a recovery finds a
snapshot unless nothing has been applied yet. Whenever the mutex is free and no recovery is due, the
state is the result of applying the committed bundles up to the last applied index. And every
snapshot, replayed from its offset on, gives the state of a full replay. -/
theorem snapshot_offset_describes_state {m : StateMachine σ ε} {cfg : RaftConfig}
    {d : EntryDecoder ε} {asyncLoad : Bool} {threads : ℕ} {c : CommittedLog}
    {l : EventApplyLoop σ ε} {xs : List (ℕ × σ)}
    (h : Applies m cfg d asyncLoad threads EventApplyLoop.FindsSnapshot c l xs)
    (hnum : d.Numbered c.known) :
    (l.phase = .unlocked → l.shouldRecover = false →
      l.appStateMachine = m.stateAt d c.known l.lastAppliedLogEntryIndex) ∧
    ∀ x ∈ xs, ∀ n, x.1 ≤ n → m.replay x.2 (d.bundles c.known x.1 n) = m.stateAt d c.known n := by
  obtain ⟨hl, hxs⟩ := h.aligned hnum
  constructor
  · intro _ hrecover
    cases hl with
    | torn hrecover' _ _ =>
      rw [hrecover] at hrecover'
      cases hrecover'
    | follows _ hf => exact hf.state
  · intro x hx n hn
    rw [(hxs x hx).2]
    exact StateMachine.replay_stateAt hn

/-! ### A run -/

namespace Scenario

/-- A state machine that adds up its events. -/
def sum : StateMachine ℕ UInt8 where
  clearState := 0
  applyEvent s e := s + e.toNat

/-- Two of the three entries are committed. -/
def twoCommitted : CommittedLog := threeCommitted 2 (by decide)

theorem numbered_twoCommitted : plainDecoder.Numbered twoCommitted.known := by
  intro i e b he hb
  match i, he with
  | 1, he =>
    cases he
    cases hb
  | 2, he =>
    cases he
    cases hb
    rfl
  | 3, he =>
    cases he
    cases hb
    rfl

/-- A loop that has applied the bundle of the second entry. -/
def appliedTwo : EventApplyLoop ℕ UInt8 where
  appStateMachine := 7
  lastAppliedLogEntryIndex := 2
  shouldRecover := false
  store :=
    { EventStore.start true 1 with
      running := true
      loadedIndex := 2
      applyingIndex := 2
      taskQueue :=
        { tasks := [⟨threeEntries.take 2, [], .done⟩], popped := 1, workers := [.idle] } }
  phase := .unlocked

/-- The loop starts without a snapshot and comes there. -/
theorem applies_appliedTwo (allowed : EventApplyLoop ℕ UInt8 → List (ℕ × ℕ) → Prop) :
    Applies sum wide plainDecoder true 1 allowed twoCommitted appliedTwo [] := by
  have hstart : Applies sum wide plainDecoder true 1 allowed twoCommitted _ [] :=
    .start _ (by simp) rfl
  -- the load thread puts the two entries into the queue
  have hsized := hstart.loadThread 9 rfl
  have hbounded := hsized.loadThread 9 rfl
  have hfetched := hbounded.loadThread 9 rfl
  have hcounted := hfetched.loadThread 9 rfl
  have hpushed := hcounted.loadThread 9 rfl
  -- the decrypt thread works on them
  have hclaimed := hpushed.decryptThread 0 rfl
  have hperformed := hclaimed.decryptThread 0 rfl
  have hdecrypted := hperformed.decryptThread 0 rfl
  -- the loop takes the bundle and applies it
  have hlocked := hdecrypted.lock (fun h => absurd h Bool.false_ne_true) rfl
  have hempty := hlocked.load 9 rfl
  have hnonempty := hempty.load 9 rfl
  have hpeeked := hnonempty.load 9 rfl
  have hchecked := hpeeked.load 9 rfl
  have hpopped := hchecked.load 9 rfl
  have hcached := hpopped.load 9 rfl
  have hreturned := hcached.load 9 rfl
  exact hreturned.apply rfl

end Scenario

/-- The loop applies a bundle, a snapshot is taken, the node becomes leader, and the loop recovers
from the snapshot. -/
theorem snapshot_offset_describes_state_recovered :
    ∃ l : EventApplyLoop ℕ UInt8,
      Applies sum wide plainDecoder true 1
        EventApplyLoop.FindsSnapshot twoCommitted l [(2, 7)] ∧
      plainDecoder.Numbered twoCommitted.known ∧
      l.phase = .unlocked ∧ l.shouldRecover = false ∧ l.lastAppliedLogEntryIndex = 2 ∧
      l.appStateMachine =
        sum.stateAt plainDecoder twoCommitted.known 2 := by
  have htaken := (applies_appliedTwo EventApplyLoop.FindsSnapshot).snapshot
    rfl
  have hswapped := htaken.swap 0 rfl
  have hrecovered := hswapped.lock (fun _ h => by cases h) rfl
  -- nothing has been loaded yet
  have hempty := hrecovered.load 9 rfl
  have hreturning := hempty.load 9 rfl
  have hreturned := hreturning.load 9 rfl
  exact ⟨_, hreturned, numbered_twoCommitted, rfl, rfl, rfl,
    (snapshot_offset_describes_state hreturned numbered_twoCommitted).1 rfl rfl⟩

/-- **The index of a state that is gone.** The loop applies the bundle of index `2`, its node
becomes leader, and it recovers without a snapshot. The state is that of an empty log now, but a
snapshot is filed under offset `2`; the events of index `2` are missing from whatever recovers from
it. -/
theorem stale_offset_snapshot :
    ∃ l : EventApplyLoop ℕ UInt8,
      Applies sum wide plainDecoder true 1 (fun _ _ => True)
        twoCommitted l [(2, 0)] ∧
      plainDecoder.Numbered twoCommitted.known ∧
      l.phase = .unlocked ∧ l.shouldRecover = false ∧
      l.appStateMachine ≠ sum.stateAt plainDecoder twoCommitted.known
        l.lastAppliedLogEntryIndex ∧
      sum.replay 0
          (plainDecoder.bundles twoCommitted.known 2 3) ≠
        sum.stateAt plainDecoder twoCommitted.known 3 := by
  have hswapped :=
    (applies_appliedTwo fun _ _ => True).swap 0 rfl
  have hrecovered := hswapped.lock (fun _ => trivial) rfl
  have hempty := hrecovered.load 9 rfl
  have hreturning := hempty.load 9 rfl
  have hreturned := hreturning.load 9 rfl
  have htaken := hreturned.snapshot rfl
  exact ⟨_, htaken, numbered_twoCommitted, rfl, rfl, by decide, by decide⟩

end Gringofts
