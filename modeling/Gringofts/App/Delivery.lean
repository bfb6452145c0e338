import Gringofts.App.EventStore

/-!
# Bundles are delivered once and in order

Whatever the threads of an event store are doing, every committed entry above the starting offset
and up to `mLoadedIndex` is in exactly one place: its bundle has been returned, or lies in the
cache, or in the hands of the consumer, or its entry is in the queue, or in the hands of the load
thread.
And these places follow one another in the order of the log. That is the invariant
(`EventStore.Inv`), and the rest follows from it.

## What the store relies on

Raft keeps what is committed. `RaftView.Carries` says so of what one node shows: there is one
committed log, `known`, and whatever the node retains up to its commit index is part of it. The
node's commit index may lag behind what is committed elsewhere, and the starting offset may be
ahead of it.

## Main definitions

* `EntryDecoder.bundle?`, `EntryDecoder.bundles` — what an entry, and a part of the log, delivers
* `CommittedLog` — what is committed, and what a node shows of it
* `Delivers` — the runs of a store
* `EventStore.Inv` — the invariant

## Main results

* `EventStore.Inv.load`, `EventStore.Inv.decrypt`, `EventStore.Inv.consume` — every thread keeps it
* `delivered_in_order`
-/

namespace Gringofts

open EntryDecoder Consumer TaskQueue

variable {ε : Type} {es : List LogEntry} {cfg : RaftConfig} {segmentLast i offset : ℕ}

/-! ## What an entry delivers -/

namespace EntryDecoder

variable (d : EntryDecoder ε)

/-- The bundle an entry delivers: none if the entry is a `noop` or its command has no events. -/
def bundle? (e : LogEntry) : Option (Bundle ε) :=
  if e.noop then none else (d.decode e).filter fun b => !b.events.isEmpty

/-- The bundles of the entries with an index above `a` and up to `b`. -/
def bundles (known : List LogEntry) (a b : ℕ) : List (Bundle ε) :=
  ((known.take b).drop a).filterMap d.bundle?

variable {d} {known known' : List LogEntry} {a b c : ℕ}

/-- `decryptEntries` gives what the entries deliver. -/
theorem decryptEntries_eq {bs : List (Bundle ε)} (h : d.decryptEntries es = some bs) :
    bs = es.filterMap d.bundle? := by
  induction es generalizing bs with
  | nil => exact (Option.some.inj h).symm
  | cons e es ih =>
    rw [decryptEntries] at h
    split at h
    · next hnoop =>
      have hnone : d.bundle? e = none := by simp [bundle?, hnoop]
      rw [List.filterMap_cons, hnone]
      exact ih h
    · next hnoop =>
      obtain ⟨b, hb, h⟩ := Option.bind_eq_some_iff.mp h
      obtain ⟨rest, hrest, h⟩ := Option.bind_eq_some_iff.mp h
      have hbs := (Option.some.inj h).symm
      rw [ih hrest] at hbs
      have hbundle : d.bundle? e = if b.events.isEmpty then none else some b := by
        rw [bundle?, if_neg hnoop, hb, Option.filter_some]
        cases b.events.isEmpty <;> rfl
      rw [List.filterMap_cons, hbundle, hbs]
      cases b.events.isEmpty <;> rfl

theorem bundles_of_le (h : b ≤ a) : d.bundles known a b = [] := by
  have hnil : (known.take b).drop a = [] := by
    rw [List.drop_eq_nil_iff, List.length_take]
    omega
  rw [bundles, hnil]
  rfl

theorem take_window {l : List LogEntry} (hbc : b ≤ c) :
    ((l.take c).drop a).take (b - a) = (l.take b).drop a := by
  rw [← List.drop_take, List.take_take, Nat.min_eq_left hbc]

theorem bundles_append (hab : a ≤ b) (hbc : b ≤ c) :
    d.bundles known a b ++ d.bundles known b c = d.bundles known a c := by
  have hsplit : (known.take c).drop a = (known.take b).drop a ++ (known.take c).drop b := by
    have hdrop : (known.take c).drop b = ((known.take c).drop a).drop (b - a) := by
      rw [List.drop_drop]
      congr 1
      omega
    rw [hdrop, ← take_window hbc, List.take_append_drop]
  rw [bundles, bundles, bundles, hsplit, List.filterMap_append]

/-- What is appended above does not matter. -/
theorem bundles_of_isPrefix (h : known <+: known') (hb : b ≤ known.length ∨ b ≤ a) :
    d.bundles known' a b = d.bundles known a b := by
  rcases hb with hb | hb
  · obtain ⟨x, rfl⟩ := h
    rw [bundles, List.take_append_of_le_length hb, bundles]
  · rw [bundles_of_le hb, bundles_of_le hb]

/-- The first bundle is that of some entry, and the others follow it. -/
theorem exists_of_bundles_eq_cons {x : Bundle ε} {xs : List (Bundle ε)}
    (h : d.bundles known a c = x :: xs) :
    ∃ i e, a < i ∧ i ≤ c ∧ entryAt known i = some e ∧ d.bundle? e = some x ∧
      d.bundles known a i = [x] ∧ d.bundles known i c = xs := by
  obtain ⟨l₁, e, l₂, hl, hnone, he, hrest⟩ := List.filterMap_eq_cons_iff.mp h
  have hlen := congrArg List.length hl
  simp only [List.length_drop, List.length_take, List.length_append, List.length_cons] at hlen
  have hentry : known[a + l₁.length]? = some e := by
    have hat := congrArg (fun l => l[l₁.length]?) hl
    simp only [List.getElem?_append_right (Nat.le_refl _), Nat.sub_self,
      List.getElem?_cons_zero] at hat
    rw [List.getElem?_drop, List.getElem?_take] at hat
    split at hat
    · exact hat
    · cases hat
  have hfirst : (known.take (a + l₁.length + 1)).drop a = l₁ ++ [e] := by
    rw [← take_window (show a + l₁.length + 1 ≤ c by omega), hl,
      show a + l₁.length + 1 - a = l₁.length + 1 by omega]
    simp [List.take_append]
  have hafter : (known.take c).drop (a + l₁.length + 1) = l₂ := by
    rw [Nat.add_assoc, ← List.drop_drop, hl]
    simp [List.drop_append]
  refine ⟨a + l₁.length + 1, e, by omega, by omega, hentry, he, ?_, ?_⟩
  · rw [bundles, hfirst, List.filterMap_append, List.filterMap_eq_nil_iff.mpr hnone]
    simp [he]
  · rw [bundles, hafter]
    exact hrest

end EntryDecoder

/-! ## What is committed -/

/-- What a node shows up to its commit index is part of the committed log. -/
structure RaftView.Carries (v : RaftView) (known : List LogEntry) : Prop where
  commit_le : v.commitIndex ≤ known.length
  entry : ∀ i e, i ≤ v.commitIndex → v.log.getEntry i = some e → entryAt known i = some e

/-- The committed log, and what a node shows of it. -/
structure CommittedLog extends RaftView where
  /-- Everything that is committed somewhere. -/
  known : List LogEntry
  carries : toRaftView.Carries known

namespace CommittedLog

/-- What the node itself has counted as committed. -/
def committed (l : CommittedLog) : List LogEntry := l.known.take l.commitIndex

/-- The committed log grows, and so does the commit index. -/
structure Grows (l l' : CommittedLog) : Prop where
  known : l.known <+: l'.known
  commit_le : l.commitIndex ≤ l'.commitIndex

end CommittedLog

/-- **What is read is what is committed**, from the index asked for on. -/
theorem RaftView.Carries.getEntries {v : RaftView} {known : List LogEntry} (h : v.Carries known)
    {l c : ℕ} (hl : l < c) (hes : v.getEntries cfg (l + 1) (c - l) segmentLast = some es) :
    l + es.length ≤ c ∧ c ≤ v.commitIndex ∧ (known.take (l + es.length)).drop l = es := by
  rw [RaftView.getEntries] at hes
  split at hes
  · next hc =>
    obtain rfl := Option.some.inj hes
    have hcommit : c ≤ v.commitIndex := by omega
    rw [Log.getEntries]
    split
    · next hfirst =>
      have hbatch := Log.takeBatch_isPrefix cfg.byteSize cfg.maxLenInBytes 0
        ((v.log.entries.drop (l + 1 - v.log.firstIndex)).take
          (min (c - l) (v.log.segmentRest (l + 1) segmentLast)))
      generalize Log.takeBatch cfg.byteSize cfg.maxLenInBytes 0 _ = es at hbatch
      have hlen : es.length ≤ c - l := by
        have := hbatch.length_le
        rw [List.length_take] at this
        omega
      refine ⟨by omega, hcommit, List.ext_getElem? fun j => ?_⟩
      rcases Nat.lt_or_ge j es.length with hj | hj
      · -- an entry that is read lies in the window and below the commit index
        have hread : v.log.getEntry (l + 1 + j) = es[j]? := by
          have hp := hbatch.trans (List.take_prefix _ _)
          rw [Log.getEntry, if_pos (by omega)]
          obtain ⟨x, hx⟩ := hp
          have happend : es[j]? = (es ++ x)[j]? := (List.getElem?_append_left hj).symm
          rw [happend, hx, List.getElem?_drop]
          congr 1
          omega
        obtain ⟨e, he⟩ : ∃ e, es[j]? = some e := ⟨es[j], List.getElem?_eq_getElem hj⟩
        have hknown := h.entry (l + 1 + j) e (by omega) (hread.trans he)
        rw [show l + 1 + j = l + j + 1 by omega, entryAt_succ] at hknown
        rw [List.getElem?_drop, List.getElem?_take_of_lt (by omega), hknown, he]
      · rw [List.getElem?_eq_none hj, List.getElem?_eq_none]
        rw [List.length_drop, List.length_take]
        omega
    · refine ⟨hl.le, hcommit, ?_⟩
      rw [List.length_nil, Nat.add_zero, List.drop_eq_nil_iff, List.length_take]
      omega
  · cases hes

/-! ## The invariant -/

/-- The entries in the hands of the load thread. -/
def Loader.held : Loader → List LogEntry
  | .fetched es => es
  | .counted es => es
  | _ => []

/-- How many of them are not counted in `mLoadedIndex`. -/
def Loader.uncounted : Loader → ℕ
  | .fetched es => es.length
  | _ => 0

namespace Consumer

/-- How many entries in the hands of the consumer are not counted in `mLoadedIndex`. -/
def uncounted : Consumer ε → ℕ
  | .fetched es => es.length
  | .decrypted size _ => size
  | _ => 0

/-- Is the consumer filling its cache? -/
def loads : Consumer ε → Bool
  | .idle => false
  | .returning => false
  | _ => true

/-- Is it reading the log itself? -/
def reads : Consumer ε → Bool
  | .bounded _ => true
  | .fetched _ => true
  | .decrypted _ _ => true
  | .counted _ => true
  | _ => false

variable (d : EntryDecoder ε) (q : TaskQueue (List LogEntry) (Bundle ε))

/-- The bundles in the hands of the consumer. -/
def taken : Consumer ε → List (Bundle ε)
  | .popped k => (q.tasks[k]?.map Task.output).getD []
  | .fetched es => es.filterMap d.bundle?
  | .decrypted _ bs => bs
  | .counted bs => bs
  | _ => []

/-- What the consumer knows of the queue: nobody else takes the front off. -/
def Ok : Consumer ε → Prop
  | .sized => q.popped < q.tasks.length
  | .peeked k => k = q.popped
  | .checked k => k = q.popped ∧ ∃ t, q.tasks[k]? = some t ∧ t.flag = .done
  | .popped k => k < q.popped ∧ ∃ t, q.tasks[k]? = some t ∧ t.flag = .done ∧
    d.decryptEntries t.input = some t.output
  | _ => True

end Consumer

/-- What the tasks in the queue deliver. -/
def TaskQueue.queued (q : TaskQueue (List LogEntry) (Bundle ε)) (d : EntryDecoder ε) :
    List (Bundle ε) :=
  ((q.tasks.map Task.input).drop q.popped).flatMap fun es => es.filterMap d.bundle?

/-- Something happens to the queue that the consumer does not notice: the tasks it may look at are
still there, and as they were if they are done. -/
theorem Consumer.Ok.of_queue {d : EntryDecoder ε} {x : Consumer ε}
    {q q' : TaskQueue (List LogEntry) (Bundle ε)} (h : x.Ok d q) (hpopped : q'.popped = q.popped)
    (hlength : q.tasks.length ≤ q'.tasks.length)
    (hdone : ∀ (i : ℕ) (t : Task (List LogEntry) (Bundle ε)), q.tasks[i]? = some t →
      t.flag = .done → q'.tasks[i]? = some t) : x.Ok d q' ∧ x.taken d q' = x.taken d q := by
  cases x with
  | sized =>
    refine ⟨?_, rfl⟩
    show q'.popped < q'.tasks.length
    rw [hpopped]
    exact Nat.lt_of_lt_of_le h hlength
  | peeked i => exact ⟨Eq.trans h hpopped.symm, rfl⟩
  | checked i =>
    obtain ⟨hi, t, ht, hflag⟩ := h
    exact ⟨⟨hi.trans hpopped.symm, t, hdone i t ht hflag, hflag⟩, rfl⟩
  | popped i =>
    obtain ⟨hi, t, ht, hflag, hright⟩ := h
    refine ⟨⟨hi.trans_eq hpopped.symm, t, hdone i t ht hflag, hflag, hright⟩, ?_⟩
    show (q'.tasks[i]?.map Task.output).getD [] = (q.tasks[i]?.map Task.output).getD []
    rw [hdone i t ht hflag, ht]
  | _ => exact ⟨trivial, rfl⟩

namespace EventStore

/-- How far the log has been read. -/
def covered (s : EventStore ε) : ℕ := s.loadedIndex + s.loader.uncounted + s.consumer.uncounted

/-- What has been read and not been returned, in order. -/
def pending (d : EntryDecoder ε) (s : EventStore ε) : List (Bundle ε) :=
  s.cachedBundles ++ (s.consumer.taken d s.taskQueue ++
    (s.taskQueue.queued d ++ s.loader.held.filterMap d.bundle?))

/-- **The invariant** of a store that was started at `offset` and has returned everything up to
`k`. -/
structure Inv (d : EntryDecoder ε) (v : RaftView) (known : List LogEntry) (offset k : ℕ)
    (s : EventStore ε) : Prop where
  sound : s.taskQueue.Sound d.decryptEntries
  /-- What is left to return is what the log delivers above `k`. -/
  order : s.pending d = d.bundles known k s.covered
  offset_le : offset ≤ k
  le_covered : k ≤ s.covered
  covered_le : s.covered ≤ max offset v.commitIndex
  /-- A commit index that was read is ahead. -/
  loader : ∀ i, s.loader = .bounded i → i ≤ v.commitIndex ∧ s.loadedIndex < i
  consumer : ∀ i, s.consumer = .bounded i → i ≤ v.commitIndex ∧ s.loadedIndex < i
  queue : s.consumer.Ok d s.taskQueue
  /-- The consumer loads only when its cache is empty. -/
  cache : s.consumer.loads = true → s.cachedBundles = []
  /-- With a load thread, the consumer reads nothing itself. -/
  async : s.asyncLoad = true → s.consumer.reads = false
  /-- Without one there is no thread but the consumer. -/
  sync : s.asyncLoad = false → s.taskQueue.tasks = [] ∧ s.loader = .idle

variable {d : EntryDecoder ε} {s s' : EventStore ε} {cfg : RaftConfig} {v v' : RaftView}
  {known known' : List LogEntry} {offset k : ℕ}

/-- A store that has just been started. -/
theorem inv_start (asyncLoad running : Bool) (threads applied : ℕ) :
    Inv d v known offset offset
      { start asyncLoad threads with
        running := running, appliedIndex := applied, loadedIndex := offset } where
  sound := sound_start threads
  order := (bundles_of_le (Nat.le_refl offset)).symm
  offset_le := Nat.le_refl _
  le_covered := Nat.le_refl _
  covered_le := Nat.le_max_left _ _
  loader := nofun
  consumer := nofun
  queue := trivial
  cache := nofun
  async := fun _ => rfl
  sync := fun _ => ⟨rfl, rfl⟩

/-- **Commitment goes on** without the store noticing. -/
theorem Inv.grows (h : Inv d v known offset k s) (hv : v.commitIndex ≤ known.length)
    (hknown : known <+: known') (hcommit : v.commitIndex ≤ v'.commitIndex) :
    Inv d v' known' offset k s := by
  have hle := h.covered_le
  have hoff := h.offset_le
  exact
    { h with
      order := by
        rw [bundles_of_isPrefix hknown (by omega)]
        exact h.order
      covered_le := by omega
      loader := fun i hi => ⟨(h.loader i hi).1.trans hcommit, (h.loader i hi).2⟩
      consumer := fun i hi => ⟨(h.consumer i hi).1.trans hcommit, (h.consumer i hi).2⟩ }

/-- What is read next follows what was read before. -/
theorem Inv.fetch (h : Inv d v known offset k s) (hv : v.Carries known) (hi : s.loadedIndex < i)
    (hcovered : s.covered = s.loadedIndex)
    (hes : v.getEntries cfg (s.loadedIndex + 1) (i - s.loadedIndex) segmentLast = some es) :
    s.pending d ++ es.filterMap d.bundle? = d.bundles known k (s.loadedIndex + es.length) ∧
      k ≤ s.loadedIndex + es.length ∧
      s.loadedIndex + es.length ≤ max offset v.commitIndex := by
  obtain ⟨hle, hcommit, hwindow⟩ := hv.getEntries hi hes
  have hread : es.filterMap d.bundle? =
      d.bundles known s.loadedIndex (s.loadedIndex + es.length) := by
    rw [bundles, hwindow]
  have hk : k ≤ s.loadedIndex := hcovered ▸ h.le_covered
  refine ⟨?_, by omega, by omega⟩
  rw [h.order, hcovered, hread, bundles_append hk (Nat.le_add_right _ _)]

/-! ### The load thread -/

/-- The load thread goes on with nothing new in its hands. -/
theorem Inv.setLoader (h : Inv d v known offset k s) (hasync : s.asyncLoad = true) {l l' : Loader}
    (hloader : s.loader = l) (hheld : l'.held = l.held) (huncounted : l'.uncounted = l.uncounted)
    (hl : ∀ i, l' = .bounded i → i ≤ v.commitIndex ∧ s.loadedIndex < i) :
    Inv d v known offset k { s with loader := l' } := by
  have hcovered : covered { s with loader := l' } = s.covered := by
    simp [covered, hloader, huncounted]
  exact
    { h with
      order := by simpa [hcovered, pending, hloader, hheld] using h.order
      le_covered := hcovered ▸ h.le_covered
      covered_le := hcovered ▸ h.covered_le
      loader := hl
      sync := fun hf => absurd hf (by simp [hasync]) }

theorem queued_push {q : TaskQueue (List LogEntry) (Bundle ε)} (hle : q.popped ≤ q.tasks.length)
    (es : List LogEntry) : (q.push es).queued d = q.queued d ++ es.filterMap d.bundle? := by
  have hdrop : ((q.push es).tasks.map Task.input).drop q.popped =
      (q.tasks.map Task.input).drop q.popped ++ [es] := by
    show ((q.tasks ++ [_]).map Task.input).drop _ = _
    rw [List.map_append, List.drop_append_of_le_length (by simpa using hle)]
    rfl
  show List.flatMap _ (((q.push es).tasks.map Task.input).drop q.popped) = _
  rw [hdrop, List.flatMap_append]
  simp [queued]

/-- In asynchronous mode the consumer reads no entries itself. -/
theorem Inv.uncounted_eq_zero (h : Inv d v known offset k s) (hasync : s.asyncLoad = true) :
    s.consumer.uncounted = 0 := by
  have hreads := h.async hasync
  revert hreads
  cases s.consumer <;> simp [reads, uncounted]

/-- The loader reads the entries after those that are covered. -/
theorem Inv.loaderFetched (h : Inv d v known offset k s) (hv : v.Carries known)
    (hasync : s.asyncLoad = true) (hloader : s.loader = .bounded i)
    (hes : v.getEntries cfg (s.loadedIndex + 1) (i - s.loadedIndex) segmentLast = some es) :
    Inv d v known offset k { s with loader := .fetched es } := by
  have hzero := h.uncounted_eq_zero hasync
  have hcovered : s.covered = s.loadedIndex := by
    rw [covered, hzero, hloader]
    rfl
  obtain ⟨horder, hk, hle⟩ := h.fetch hv (h.loader i hloader).2 hcovered hes
  have hcovered' : covered { s with loader := .fetched es } = s.loadedIndex + es.length := by
    simp [covered, hzero, Loader.uncounted]
  exact
    { h with
      order := by
        rw [hcovered', ← horder]
        simp [pending, hloader, Loader.held]
      le_covered := hcovered' ▸ hk
      covered_le := hcovered' ▸ hle
      loader := nofun
      sync := fun hf => absurd hf (by simp [hasync]) }

/-- The loader counts the entries it holds in `mLoadedIndex`. -/
theorem Inv.loaderCounted (h : Inv d v known offset k s) (hasync : s.asyncLoad = true)
    (hloader : s.loader = .fetched es) :
    Inv d v known offset k
      { s with loadedIndex := s.loadedIndex + es.length, loader := .counted es } := by
  have hcovered : covered
      { s with loadedIndex := s.loadedIndex + es.length, loader := .counted es } =
        s.covered := by
    simp [covered, hloader, Loader.uncounted]
  exact
    { h with
      order := by
        rw [hcovered, ← h.order]
        simp [pending, hloader, Loader.held]
      le_covered := hcovered ▸ h.le_covered
      covered_le := hcovered ▸ h.covered_le
      loader := nofun
      consumer := fun i hi => by
        have hreads := h.async hasync
        rw [show s.consumer = .bounded i from hi] at hreads
        cases hreads
      sync := fun hf => absurd hf (by simp [hasync]) }

/-- The loader hands the entries it holds to the queue. -/
theorem Inv.loaderPushed (h : Inv d v known offset k s) (hasync : s.asyncLoad = true)
    (hloader : s.loader = .counted es) :
    Inv d v known offset k { s with taskQueue := s.taskQueue.push es, loader := .idle } := by
  have hpush : ∀ (i : ℕ) (t : Task (List LogEntry) (Bundle ε)),
      s.taskQueue.tasks[i]? = some t → t.flag = .done →
      (s.taskQueue.push es).tasks[i]? = some t := by
    intro i t ht _
    show (s.taskQueue.tasks ++ [_])[i]? = some t
    rw [List.getElem?_append_left (List.getElem?_eq_some_iff.mp ht).1, ht]
  obtain ⟨hok, htaken⟩ : s.consumer.Ok d (s.taskQueue.push es) ∧
      s.consumer.taken d (s.taskQueue.push es) = s.consumer.taken d s.taskQueue :=
    h.queue.of_queue rfl (by simp [push]) hpush
  have hcovered : covered { s with taskQueue := s.taskQueue.push es, loader := .idle } =
      s.covered := by
    simp [covered, hloader, Loader.uncounted]
  exact
    { h with
      sound := h.sound.push es
      order := by
        rw [hcovered, ← h.order]
        simp [pending, htaken, queued_push h.sound.popped_le, hloader, Loader.held]
      le_covered := hcovered ▸ h.le_covered
      covered_le := hcovered ▸ h.covered_le
      loader := nofun
      queue := hok
      sync := fun hf => absurd hf (by simp [hasync]) }

/-- **The load thread keeps the invariant.** -/
theorem Inv.load (h : Inv d v known offset k s) (hv : v.Carries known)
    (hs : s.loadEntriesThreadMain cfg v segmentLast = some s') : Inv d v known offset k s' := by
  rw [loadEntriesThreadMain] at hs
  split at hs
  next hrunning =>
    obtain ⟨hasync, -⟩ := hrunning
    split at hs
    · next hloader =>
      rw [← Option.some.inj hs]
      refine h.setLoader hasync hloader ?_ ?_ ?_ <;> split <;> simp [Loader.held, Loader.uncounted]
    · next hloader =>
      rw [← Option.some.inj hs]
      refine h.setLoader hasync hloader (by split <;> rfl) (by split <;> rfl) fun i hi => ?_
      split at hi
      · cases hi
      · next hlt =>
        cases hi
        exact ⟨Nat.le_refl _, Nat.not_le.mp hlt⟩
    · next i hloader =>
      obtain ⟨es, hes, hs⟩ := Option.bind_eq_some_iff.mp hs
      exact Option.some.inj hs ▸ h.loaderFetched hv hasync hloader hes
    · next es hloader => exact Option.some.inj hs ▸ h.loaderCounted hasync hloader
    · next es hloader => exact Option.some.inj hs ▸ h.loaderPushed hasync hloader
  next => cases hs

/-! ### The decrypt threads -/

/-- **A decrypt thread keeps the invariant.** -/
theorem Inv.decrypt (h : Inv d v known offset k s) {j : ℕ}
    (hs : s.decryptEntriesThreadMain d j = some s') : Inv d v known offset k s' := by
  rw [decryptEntriesThreadMain] at hs
  split at hs
  next hrunning =>
    obtain ⟨hasync, -⟩ := hrunning
    obtain ⟨q, hq, hs⟩ := Option.bind_eq_some_iff.mp hs
    obtain ⟨hinputs, hpopped⟩ := workerStep_inputs hq
    have hlength : q.tasks.length = s.taskQueue.tasks.length := by
      simpa using congrArg List.length hinputs
    obtain ⟨hok, htaken⟩ : s.consumer.Ok d q ∧
        s.consumer.taken d q = s.consumer.taken d s.taskQueue :=
      h.queue.of_queue hpopped hlength.ge fun i t ht hflag => h.sound.workerStep_done hq ht hflag
    have hqueued : q.queued d = s.taskQueue.queued d := by
      rw [queued, hinputs, hpopped, queued]
    rw [← Option.some.inj hs]
    exact
      { h with
        sound := h.sound.workerStep hq
        order := by
          show s.cachedBundles ++ (s.consumer.taken d q ++ (q.queued d ++ _)) = _
          rw [htaken, hqueued]
          exact h.order
        queue := hok
        sync := fun hf => absurd hf (by simp [hasync]) }
  next => cases hs

/-! ### The consumer -/

/-- The consumer goes on with nothing new in its hands. -/
theorem Inv.setConsumer (h : Inv d v known offset k s) {x x' : Consumer ε} (hcons : s.consumer = x)
    (htaken : x'.taken d s.taskQueue = x.taken d s.taskQueue)
    (huncounted : x'.uncounted = x.uncounted)
    (hx : ∀ i, x' = .bounded i → i ≤ v.commitIndex ∧ s.loadedIndex < i)
    (hok : x'.Ok d s.taskQueue) (hcache : x'.loads = true → s.cachedBundles = [])
    (hreads : s.asyncLoad = true → x'.reads = false) :
    Inv d v known offset k { s with consumer := x' } := by
  have hcovered : covered { s with consumer := x' } = s.covered := by
    simp [covered, hcons, huncounted]
  exact
    { h with
      order := by simpa [hcovered, pending, hcons, htaken] using h.order
      le_covered := hcovered ▸ h.le_covered
      covered_le := hcovered ▸ h.covered_le
      consumer := hx
      queue := hok
      cache := hcache
      async := hreads }

/-- Taking the front off moves what it delivers from the queue into the consumer's hands. -/
theorem queued_eq_append {q : TaskQueue (List LogEntry) (Bundle ε)}
    {t : Task (List LogEntry) (Bundle ε)} (ht : q.tasks[q.popped]? = some t) :
    q.queued d = t.input.filterMap d.bundle? ++ q.pop.queued d := by
  have hinput : (q.tasks.map Task.input)[q.popped]? = some t.input := by
    rw [List.getElem?_map, ht]
    rfl
  have hdrop : (q.tasks.map Task.input).drop q.popped =
      t.input :: (q.tasks.map Task.input).drop (q.popped + 1) := by
    rw [List.drop_eq_getElem?_toList_append, hinput]
    rfl
  rw [queued, hdrop, List.flatMap_cons]
  rfl

/-- The consumer takes the front, which is done, off the queue. -/
theorem Inv.consumerPopped (h : Inv d v known offset k s) (hasync : s.asyncLoad = true)
    (hcons : s.consumer = .checked i) :
    Inv d v known offset k { s with taskQueue := s.taskQueue.pop, consumer := .popped i } := by
  have hcache := h.cache (by rw [hcons]; rfl)
  have hok := h.queue
  rw [hcons] at hok
  obtain ⟨rfl, t, ht, hflag⟩ := hok
  have hright := h.sound.done _ t (Nat.le_refl _) ht hflag
  have hcovered : covered { s with
      taskQueue := s.taskQueue.pop, consumer := .popped s.taskQueue.popped } = s.covered := by
    simp [covered, hcons, uncounted]
  have htaken : taken d s.taskQueue.pop (.popped s.taskQueue.popped) =
      t.input.filterMap d.bundle? := by
    show (s.taskQueue.tasks[s.taskQueue.popped]?.map Task.output).getD [] = _
    rw [ht]
    exact decryptEntries_eq hright
  exact
    { h with
      sound := h.sound.pop ht
      order := by
        rw [hcovered, ← h.order]
        show s.cachedBundles ++ (taken d s.taskQueue.pop _ ++ (_ ++ _)) = _
        rw [htaken]
        simp [pending, hcons, taken, queued_eq_append ht]
      le_covered := hcovered ▸ h.le_covered
      covered_le := hcovered ▸ h.covered_le
      consumer := nofun
      queue := ⟨Nat.lt_succ_self _, t, ht, hflag, hright⟩
      cache := fun _ => hcache
      async := fun _ => rfl
      sync := fun hf => absurd hf (by simp [hasync]) }

/-- The consumer swaps the bundles of the task it took for its empty cache. -/
theorem Inv.consumerSwapped (h : Inv d v known offset k s) (hasync : s.asyncLoad = true)
    (hcons : s.consumer = .popped i) {t : Task (List LogEntry) (Bundle ε)}
    (ht : s.taskQueue.tasks[i]? = some t) :
    Inv d v known offset k { s with
      cachedBundles := t.output
      taskQueue := s.taskQueue.setOutput i s.cachedBundles
      consumer := .returning } := by
  have hcache := h.cache (by rw [hcons]; rfl)
  have hok := h.queue
  rw [hcons] at hok
  obtain ⟨hi, t', ht', hflag, -⟩ := hok
  obtain rfl : t = t' := Option.some.inj (ht.symm.trans ht')
  have hqueued : ∀ out, (s.taskQueue.setOutput i out).queued d = s.taskQueue.queued d := by
    intro out
    rw [queued, setOutput_inputs]
    rfl
  have hcovered : covered { s with
      cachedBundles := t.output
      taskQueue := s.taskQueue.setOutput i s.cachedBundles
      consumer := .returning } = s.covered := by
    simp [covered, hcons, uncounted]
  exact
    { h with
      sound := h.sound.setOutput hi ht hflag _
      order := by
        rw [hcovered, ← h.order]
        simp [pending, hcons, taken, ht, hqueued, hcache]
      le_covered := hcovered ▸ h.le_covered
      covered_le := hcovered ▸ h.covered_le
      consumer := nofun
      queue := trivial
      cache := nofun
      async := fun _ => rfl
      sync := fun hf => absurd hf (by simp [hasync]) }

/-- The next step of `tryAsyncLoadBundles` keeps the invariant. -/
theorem Inv.consume_async (h : Inv d v known offset k s) (hasync : s.asyncLoad = true)
    (hs : s.tryAsyncLoadBundles = some s') : Inv d v known offset k s' := by
  rw [tryAsyncLoadBundles] at hs
  split at hs
  · next hcons =>
    have hcache := h.cache (by rw [hcons]; rfl)
    rw [← Option.some.inj hs]
    split
    · exact h.setConsumer hcons rfl rfl nofun trivial nofun fun _ => rfl
    · next hsize =>
      refine h.setConsumer hcons rfl rfl nofun ?_ (fun _ => hcache) fun _ => rfl
      show s.taskQueue.popped < s.taskQueue.tasks.length
      rw [size, waiting, List.length_drop] at hsize
      omega
  · next hcons =>
    have hcache := h.cache (by rw [hcons]; rfl)
    rw [← Option.some.inj hs]
    exact h.setConsumer hcons rfl rfl nofun rfl (fun _ => hcache) fun _ => rfl
  · next i hcons =>
    have hcache := h.cache (by rw [hcons]; rfl)
    obtain ⟨t, ht, hs⟩ := Option.bind_eq_some_iff.mp hs
    have hi := h.queue
    rw [hcons] at hi
    rw [← Option.some.inj hs]
    split
    · next hflag =>
      exact h.setConsumer hcons rfl rfl nofun ⟨hi, t, ht, hflag⟩ (fun _ => hcache) fun _ => rfl
    · exact h.setConsumer hcons rfl rfl nofun trivial nofun fun _ => rfl
  · next i hcons => exact Option.some.inj hs ▸ h.consumerPopped hasync hcons
  · next i hcons =>
    obtain ⟨t, ht, hs⟩ := Option.bind_eq_some_iff.mp hs
    exact Option.some.inj hs ▸ h.consumerSwapped hasync hcons ht
  · cases hs

/-- In synchronous mode the consumer reads the entries after those that are covered. -/
theorem Inv.consumerFetched (h : Inv d v known offset k s) (hv : v.Carries known)
    (hsync : s.asyncLoad = false) (hcons : s.consumer = .bounded i)
    (hes : v.getEntries cfg (s.loadedIndex + 1) (i - s.loadedIndex) segmentLast = some es) :
    Inv d v known offset k { s with consumer := .fetched es } := by
  obtain ⟨htasks, hloader⟩ := h.sync hsync
  have hqueued : s.taskQueue.queued d = [] := by simp [queued, htasks]
  have hcache := h.cache (by rw [hcons]; rfl)
  have hcovered : s.covered = s.loadedIndex := by
    simp [covered, hcons, hloader, Loader.uncounted, uncounted]
  obtain ⟨horder, hk, hle⟩ := h.fetch hv (h.consumer i hcons).2 hcovered hes
  have hcovered' : covered { s with consumer := .fetched es } = s.loadedIndex + es.length := by
    simp [covered, hloader, Loader.uncounted, uncounted]
  exact
    { h with
      order := by
        rw [hcovered', ← horder]
        simp [pending, hcons, hcache, hqueued, hloader, Loader.held, taken]
      le_covered := hcovered' ▸ hk
      covered_le := hcovered' ▸ hle
      consumer := nofun
      queue := trivial
      cache := fun _ => hcache
      async := fun hf => absurd hf (by simp [hsync]) }

/-- The consumer counts the entries it has read in `mLoadedIndex`. -/
theorem Inv.consumerCounted (h : Inv d v known offset k s) (hsync : s.asyncLoad = false)
    {size : ℕ} {bs : List (Bundle ε)} (hcons : s.consumer = .decrypted size bs) :
    Inv d v known offset k
      { s with loadedIndex := s.loadedIndex + size, consumer := .counted bs } := by
  obtain ⟨-, hloader⟩ := h.sync hsync
  have hcache := h.cache (by rw [hcons]; rfl)
  have hcovered : covered
      { s with loadedIndex := s.loadedIndex + size, consumer := .counted bs } = s.covered := by
    simp [covered, hcons, hloader, Loader.uncounted, uncounted]
  exact
    { h with
      order := by
        rw [hcovered, ← h.order]
        simp [pending, hcons, taken]
      le_covered := hcovered ▸ h.le_covered
      covered_le := hcovered ▸ h.covered_le
      loader := fun i hi => by
        rw [show s.loader = .bounded i from hi] at hloader
        cases hloader
      consumer := nofun
      queue := trivial
      cache := fun _ => hcache
      async := fun hf => absurd hf (by simp [hsync]) }

/-- The consumer puts the bundles it has read into its empty cache. -/
theorem Inv.consumerCached (h : Inv d v known offset k s) (hsync : s.asyncLoad = false)
    {bs : List (Bundle ε)} (hcons : s.consumer = .counted bs) :
    Inv d v known offset k { s with cachedBundles := bs, consumer := .returning } := by
  have hcache := h.cache (by rw [hcons]; rfl)
  have hcovered : covered { s with cachedBundles := bs, consumer := .returning } =
      s.covered := by
    simp [covered, hcons, uncounted]
  exact
    { h with
      order := by
        rw [hcovered, ← h.order]
        simp [pending, hcons, hcache, taken]
      le_covered := hcovered ▸ h.le_covered
      covered_le := hcovered ▸ h.covered_le
      consumer := nofun
      queue := trivial
      cache := nofun
      async := fun hf => absurd hf (by simp [hsync]) }

/-- The next step of `trySyncLoadBundles` keeps the invariant. -/
theorem Inv.consume_sync (h : Inv d v known offset k s) (hv : v.Carries known)
    (hsync : s.asyncLoad = false) (hs : s.trySyncLoadBundles cfg d v segmentLast = some s') :
    Inv d v known offset k s' := by
  have hasync : s.asyncLoad = true → False := by simp [hsync]
  rw [trySyncLoadBundles] at hs
  split at hs
  · next hcons =>
    have hcache := h.cache (by rw [hcons]; rfl)
    rw [← Option.some.inj hs]
    split
    · exact h.setConsumer hcons rfl rfl nofun trivial nofun fun _ => rfl
    · next hlt =>
      refine h.setConsumer hcons rfl rfl (fun i hi => ?_) trivial (fun _ => hcache)
        fun hf => (hasync hf).elim
      cases hi
      exact ⟨Nat.le_refl _, Nat.not_le.mp hlt⟩
  · next i hcons =>
    obtain ⟨es, hes, hs⟩ := Option.bind_eq_some_iff.mp hs
    exact Option.some.inj hs ▸ h.consumerFetched hv hsync hcons hes
  · next es hcons =>
    have hcache := h.cache (by rw [hcons]; rfl)
    obtain ⟨bs, hbs, hs⟩ := Option.bind_eq_some_iff.mp hs
    rw [← Option.some.inj hs]
    exact h.setConsumer hcons (decryptEntries_eq hbs) rfl nofun trivial
      (fun _ => hcache) fun hf => (hasync hf).elim
  · next size bs hcons => exact Option.some.inj hs ▸ h.consumerCounted hsync hcons
  · next bs hcons => exact Option.some.inj hs ▸ h.consumerCached hsync hcons
  · cases hs

/-- **The consumer keeps the invariant**, and a bundle it returns is the next one. -/
theorem Inv.consume (h : Inv d v known offset k s) (hv : v.Carries known)
    {r : Option (Option (Bundle ε))}
    (hs : s.loadNextCommandEvents cfg d v segmentLast = some (s', r)) :
    (r.join = none ∧ Inv d v known offset k s') ∨
      ∃ b i e, r = some (some b) ∧ k < i ∧ entryAt known i = some e ∧ d.bundle? e = some b ∧
        d.bundles known k i = [b] ∧ Inv d v known offset i s' := by
  rw [loadNextCommandEvents] at hs
  split at hs
  · next hcons =>
    cases Option.some.inj hs
    refine Or.inl ⟨rfl, ?_⟩
    have happlied : Inv d v known offset k
        { s with appliedIndex := max s.appliedIndex s.applyingIndex } := { h with }
    split
    · next hcache =>
      exact happlied.setConsumer hcons rfl rfl nofun trivial (fun _ => List.isEmpty_iff.mp hcache)
        fun _ => rfl
    · exact happlied.setConsumer hcons rfl rfl nofun trivial nofun fun _ => rfl
  · next hcons =>
    split at hs
    · cases Option.some.inj hs
      exact Or.inl ⟨rfl, h.setConsumer hcons rfl rfl nofun trivial nofun fun _ => rfl⟩
    · next b bs hcache =>
      cases Option.some.inj hs
      have hcovered : covered
          { s with cachedBundles := bs, applyingIndex := b.commandId, consumer := .idle } =
            s.covered := by
        simp [covered, hcons, uncounted]
      have hpending : s.pending d = b :: pending d
          { s with cachedBundles := bs, applyingIndex := b.commandId, consumer := .idle } := by
        simp [pending, hcons, hcache, taken]
      obtain ⟨i, e, hki, hic, he, hb, hfirst, hrest⟩ :=
        exists_of_bundles_eq_cons (h.order.symm.trans hpending)
      refine Or.inr ⟨b, i, e, rfl, hki, he, hb, hfirst, ?_⟩
      exact
        { h with
          order := by
            rw [hcovered]
            exact hrest.symm
          offset_le := h.offset_le.trans hki.le
          le_covered := hcovered ▸ hic
          covered_le := hcovered ▸ h.covered_le
          consumer := nofun
          queue := trivial
          cache := nofun
          async := fun _ => rfl }
  · obtain ⟨x, hx, hs⟩ := Option.map_eq_some_iff.mp hs
    cases hs
    refine Or.inl ⟨rfl, ?_⟩
    rw [tryLoadBundles] at hx
    split at hx
    · next hasync => exact h.consume_async hasync hx
    · next hsync => exact h.consume_sync hv (Bool.eq_false_iff.mpr hsync) hx

end EventStore

/-! ## Runs -/

/-- **The runs of a store**: what is committed, the store, and what it has returned so far. The
store was given `offset`, and its load thread, its decrypt threads and its consumer take steps in
any order, while commitment goes on. -/
inductive Delivers (cfg : RaftConfig) (d : EntryDecoder ε) (asyncLoad : Bool) (threads offset : ℕ) :
    CommittedLog → EventStore ε → List (Bundle ε) → Prop
  | start (l : CommittedLog) {s : EventStore ε}
      (hs : (EventStore.start asyncLoad threads).setCurrentOffset offset = some s) :
      Delivers cfg d asyncLoad threads offset l s.init []
  | commit {l l' : CommittedLog} {s : EventStore ε} {out : List (Bundle ε)}
      (h : Delivers cfg d asyncLoad threads offset l s out) (hl : l.Grows l') :
      Delivers cfg d asyncLoad threads offset l' s out
  | load {l : CommittedLog} {s s' : EventStore ε} {out : List (Bundle ε)}
      (h : Delivers cfg d asyncLoad threads offset l s out) (segmentLast : ℕ)
      (hs : s.loadEntriesThreadMain cfg l.toRaftView segmentLast = some s') :
      Delivers cfg d asyncLoad threads offset l s' out
  | decrypt {l : CommittedLog} {s s' : EventStore ε} {out : List (Bundle ε)}
      (h : Delivers cfg d asyncLoad threads offset l s out) (j : ℕ)
      (hs : s.decryptEntriesThreadMain d j = some s') :
      Delivers cfg d asyncLoad threads offset l s' out
  | consume {l : CommittedLog} {s s' : EventStore ε} {out : List (Bundle ε)}
      {r : Option (Option (Bundle ε))} (h : Delivers cfg d asyncLoad threads offset l s out)
      (segmentLast : ℕ)
      (hs : s.loadNextCommandEvents cfg d l.toRaftView segmentLast = some (s', r)) :
      Delivers cfg d asyncLoad threads offset l s' (out ++ r.join.toList)

/-- In every run, what was returned is what the log delivers up to some index, and what was read
and not returned is what it delivers after it. -/
theorem Delivers.inv {d : EntryDecoder ε} {asyncLoad : Bool} {threads : ℕ} {l : CommittedLog}
    {s : EventStore ε} {out : List (Bundle ε)}
    (h : Delivers cfg d asyncLoad threads offset l s out) :
    ∃ k, out = d.bundles l.known offset k ∧ s.Inv d l.toRaftView l.known offset k := by
  induction h with
  | start l hs =>
    cases Option.some.inj hs
    exact ⟨offset, (bundles_of_le (Nat.le_refl _)).symm,
      EventStore.inv_start _ _ _ _⟩
  | @commit l l' s out _ hl ih =>
    obtain ⟨k, rfl, hk⟩ := ih
    refine ⟨k, ?_, hk.grows l.carries.commit_le hl.known hl.commit_le⟩
    have hcommit := l.carries.commit_le
    have h1 := hk.le_covered
    have h2 := hk.covered_le
    exact (bundles_of_isPrefix hl.known (by omega)).symm
  | @load l _ _ _ _ _ hs ih =>
    obtain ⟨k, hout, hk⟩ := ih
    exact ⟨k, hout, hk.load l.carries hs⟩
  | decrypt _ _ hs ih =>
    obtain ⟨k, hout, hk⟩ := ih
    exact ⟨k, hout, hk.decrypt hs⟩
  | @consume l _ _ _ _ _ _ hs ih =>
    obtain ⟨k, rfl, hk⟩ := ih
    rcases hk.consume l.carries hs with ⟨hr, hk'⟩ | ⟨b, i, e, rfl, hki, -, -, hb, hi⟩
    · refine ⟨k, ?_, hk'⟩
      rw [hr]
      exact List.append_nil _
    · refine ⟨i, ?_, hi⟩
      rw [← bundles_append hk.offset_le hki.le, hb]
      rfl

/-- Nothing is left to load, to decrypt or to return. -/
structure EventStore.Quiet (s : EventStore ε) (l : CommittedLog) : Prop where
  loaded : l.commitIndex ≤ s.loadedIndex
  cache : s.cachedBundles = []
  queue : s.taskQueue.size = 0
  loader : s.loader = .idle
  consumer : s.consumer = .idle

theorem EventStore.Inv.eq_of_quiet {d : EntryDecoder ε} {s : EventStore ε} {l : CommittedLog}
    {k : ℕ} (h : s.Inv d l.toRaftView l.known offset k) (hq : s.Quiet l) :
    d.bundles l.known offset k = d.bundles l.known offset l.commitIndex := by
  have hwaiting : (s.taskQueue.tasks.map Task.input).drop s.taskQueue.popped = [] := by
    have hsize := hq.queue
    rw [size, waiting, List.length_drop] at hsize
    rw [List.drop_eq_nil_iff, List.length_map]
    omega
  have hpending : s.pending d = [] := by
    simp [EventStore.pending, hq.cache, hq.loader, hq.consumer, taken, Loader.held,
      queued, hwaiting]
  have hcovered : s.covered = s.loadedIndex := by
    simp [EventStore.covered, hq.loader, hq.consumer, Loader.uncounted, uncounted]
  have hnone := h.order
  rw [hpending, hcovered] at hnone
  have hle := h.covered_le
  have hk := h.le_covered
  have hoff := h.offset_le
  have hcommit := hq.loaded
  rw [hcovered] at hle hk
  rcases Nat.lt_or_ge l.commitIndex offset with hlt | hge
  · rw [bundles_of_le hlt.le, bundles_of_le (by omega)]
  · rw [show l.commitIndex = s.loadedIndex by omega, ← bundles_append hoff hk,
      ← hnone, List.append_nil]

/-- **Bundles are delivered once and in order.** However the threads are interleaved, however many
there are and however commitment goes on, what was returned is an initial part of what the committed
entries above the offset deliver: all of it when nothing is left to do. So two stores deliver the
same, whether they load asynchronously or not, as far as both have come. -/
theorem delivered_in_order {cfg : RaftConfig} {d : EntryDecoder ε} {asyncLoad : Bool}
    {threads offset : ℕ} {l : CommittedLog} {s : EventStore ε} {out : List (Bundle ε)}
    (h : Delivers cfg d asyncLoad threads offset l s out) :
    out <+: (l.committed.drop offset).filterMap d.bundle? ∧
      (s.Quiet l → out = (l.committed.drop offset).filterMap d.bundle?) ∧
      ∀ (asyncLoad' : Bool) (threads' : ℕ) (s' : EventStore ε) (out' : List (Bundle ε)),
        Delivers cfg d asyncLoad' threads' offset l s' out' → out <+: out' ∨ out' <+: out := by
  have hinitial : ∀ (asyncLoad : Bool) (threads : ℕ) (s : EventStore ε) (out : List (Bundle ε)),
      Delivers cfg d asyncLoad threads offset l s out →
      out <+: (l.committed.drop offset).filterMap d.bundle? := by
    intro asyncLoad threads s out h
    obtain ⟨k, rfl, hk⟩ := h.inv
    have hle := hk.le_covered.trans hk.covered_le
    have hoff := hk.offset_le
    show d.bundles l.known offset k <+: d.bundles l.known offset l.commitIndex
    rcases Nat.lt_or_ge l.commitIndex k with hlt | hge
    · rw [bundles_of_le (by omega)]
      exact List.nil_prefix
    · rw [← bundles_append hoff hge]
      exact List.prefix_append _ _
  refine ⟨hinitial _ _ _ _ h, ?_, ?_⟩
  · intro hq
    obtain ⟨k, rfl, hk⟩ := h.inv
    exact hk.eq_of_quiet hq
  · intro asyncLoad' threads' s' out' h'
    exact List.prefix_or_prefix_of_prefix (hinitial _ _ _ _ h) (hinitial _ _ _ _ h')

namespace Scenario

/-- Limits that are not reached. -/
def wide : RaftConfig :=
  { maxBatchSize := 10, maxLenInBytes := 1000, maxDecrStep := 100, preVoteEnabled := false,
    heartBeatIntervalInMillis := 1, maxElectionTimeoutInMillis := 10,
    initialElectionTimeout := 0, byteSize := fun _ => 1, latestSecKeyVersion := 0,
    maxBatchSize_pos := by decide, maxLenInBytes_pos := by decide,
    maxDecrStep_pos := by decide }

/-- Payloads in the clear: the id of the command, then one byte for each event. -/
def plainDecoder : EntryDecoder UInt8 where
  enabled := false
  decrypt _ p := some p
  parse
    | [] => none
    | id :: events => some ⟨id.toNat, events⟩

/-- The entry of a new leader, then two commands. -/
def threeEntries : List LogEntry :=
  [⟨1, 1, true, 0, [], 0, none⟩, ⟨1, 2, false, 0, [2, 7], 0, none⟩,
    ⟨1, 3, false, 0, [3, 8, 9], 0, none⟩]

/-- A log with these three entries, of which the first `commitIndex` are committed. -/
def threeCommitted (commitIndex : ℕ) (h : commitIndex ≤ 3) : CommittedLog where
  log :=
    { Log.empty with
      entries := threeEntries
      indexed := by
        intro j e hj
        match j, hj with
        | 0, hj => cases hj; rfl
        | 1, hj => cases hj; rfl
        | 2, hj => cases hj; rfl
        | j + 3, hj => cases hj }
  commitIndex := commitIndex
  known := threeEntries
  carries :=
    { commit_le := h
      entry := by
        intro i e _ he
        cases i with
        | zero => cases he
        | succ i => exact he }

end Scenario

/-- Two entries are committed when the load thread reads them, and one of two decrypt threads works
on them. The third is committed then. The first bundle is returned. -/
theorem delivered_in_order_two_threads :
    ∃ (cfg : RaftConfig) (s : EventStore UInt8),
      Delivers cfg Scenario.plainDecoder true 2 0 (Scenario.threeCommitted 3 (by decide)) s
        [⟨2, [7]⟩] ∧
      [⟨2, [7]⟩] <+: ((Scenario.threeCommitted 3 (by decide)).committed.drop 0).filterMap
        Scenario.plainDecoder.bundle? := by
  have hstart : Delivers Scenario.wide Scenario.plainDecoder true 2 0
    (Scenario.threeCommitted 2 (by decide)) _ [] := .start _ rfl
  -- the load thread puts the two entries into the queue
  have hsized := hstart.load 9 rfl
  have hbounded := hsized.load 9 rfl
  have hfetched := hbounded.load 9 rfl
  have hcounted := hfetched.load 9 rfl
  have hpushed := hcounted.load 9 rfl
  -- the second decrypt thread claims them
  have hclaimed := hpushed.decrypt 1 rfl
  have hperformed := hclaimed.decrypt 1 rfl
  have hdecrypted := hperformed.decrypt 1 rfl
  have hgrows : (Scenario.threeCommitted 2 (by decide)).Grows
    (Scenario.threeCommitted 3 (by decide)) := ⟨List.prefix_refl _, by decide⟩
  have hcommitted := hdecrypted.commit hgrows
  -- the consumer takes the front off
  have hloading := hcommitted.consume 9 rfl
  have hnonempty := hloading.consume 9 rfl
  have hpeeked := hnonempty.consume 9 rfl
  have hchecked := hpeeked.consume 9 rfl
  have hpopped := hchecked.consume 9 rfl
  have hcached := hpopped.consume 9 rfl
  have hreturned := hcached.consume 9 rfl
  exact ⟨Scenario.wide, _, hreturned, (delivered_in_order hreturned).1⟩

end Gringofts
