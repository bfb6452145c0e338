import Gringofts.Raft.RaftCore

/-!
# Synchronising the log of another cluster

A new cluster begins with the log of an old one. Until it does its nodes are `Syncer`s:
`LogSyncService` fetches the committed entries of the old cluster, from one reader after the other,
and hands them to Raft in sync requests. It stops at the entry that carries the tag of the split
command with the plan it was given.

Two threads are at work. The sync thread keeps in `mLastIndex` how far it has got and puts requests
into the queue of Raft. The raft thread takes them off and appends their entries, and asserts that
each begins where its log ends. What ties the two together is the queue: its requests cover, without
a gap, what lies between the end of the log and the end of what has been sent.

## Main definitions

* `LogSyncService.endLog`, `LogSyncService.truncateLogs`, `LogSyncService.run`
* `SyncSystem`, `SyncSystem.Step` — the two threads and the queue between them
* `Log.WindowOf` — a log holds a prefix of another, as far as it has not been cut off in front
* `SyncSystem.Inv` — what holds between any two steps

## Main results

* `LogSyncService.truncateLogs_eq` — what is kept of a batch ends at its first tagged entry
* `Node.handleSyncRequest_extends` — a request that continues the log is taken
* `SyncSystem.Inv.step` — the invariant is kept
* `log_sync_copies_prefix`
-/

namespace Gringofts

open Outcome

variable {source logs : List LogEntry} {n : Node} {r : SyncRequest} {e : LogEntry}
  {rs : List SyncRequest}

/-! ## The service -/

/-- `SPILT_COMMAND`. -/
def splitCommandType : ℕ := 101

/-- Where the sync thread is. -/
inductive SyncPhase
  /-- At the head of its loop. -/
  | top
  /-- It has a reader and asks it. -/
  | fetching
  /-- The reader has answered. -/
  | fetched (logs : List LogEntry)
  /-- `mEndLogFlag` is set, and there is something to send. -/
  | truncated (logs : List LogEntry)
  /-- A request has been sent, and `mLastIndex` is still to be set. -/
  | enqueued (endIndex : ℕ)
  /-- It has left its loop. -/
  | stopped

/-- `LogSyncService`. -/
structure LogSyncService where
  /-- `mPlanId`, in bytes. -/
  planId : List UInt8
  lastIndex : ℕ
  endLogFlag : Bool
  clientIdx : ℕ
  phase : SyncPhase

namespace LogSyncService

/-- The constructor, and the first call of `setTargets`. -/
def start (planId : List UInt8) (lastIndex : ℕ) : LogSyncService where
  planId := planId
  lastIndex := lastIndex
  endLogFlag := false
  clientIdx := 0
  phase := .top

/-- `endLog`: the entry is the split command of the plan. -/
def endLog (planId : List UInt8) (e : LogEntry) : Bool :=
  match e.specialTag with
  | some tag => tag.identifier == splitCommandType && tag.payload == planId
  | none => false

/-- The loop of `truncateLogs`: an entry is erased once the end has been found. -/
def truncateLogs (planId : List UInt8) : List LogEntry → Bool → List LogEntry × Bool
  | [], truncated => ([], truncated)
  | _ :: es, true => truncateLogs planId es true
  | e :: es, false =>
    let (kept, truncated) := truncateLogs planId es (endLog planId e)
    (e :: kept, truncated)

/-- `run`, up to the next access to something that another thread sees: the service, and the request
that is sent. `fetch` is the answer of the reader, `none` if it failed. Nothing is returned where an
assertion fails. -/
def run (readers : ℕ) (fetch : Option (List LogEntry)) (s : LogSyncService) :
    Option (LogSyncService × Option SyncRequest) :=
  match s.phase with
  | .top =>
    if s.endLogFlag then some ({ s with phase := .stopped }, none)
    else some ({ s with clientIdx := s.clientIdx % readers, phase := .fetching }, none)
  | .fetching =>
    match fetch with
    | none => some ({ s with clientIdx := (s.clientIdx + 1) % readers, phase := .top }, none)
    | some logs => some ({ s with phase := .fetched logs }, none)
  | .fetched logs =>
    if s.endLogFlag then none
    else
      let (kept, truncated) := truncateLogs s.planId logs false
      some ({ s with
        endLogFlag := truncated
        phase := if kept.isEmpty then .top else .truncated kept }, none)
  | .truncated logs =>
    some ({ s with phase := .enqueued (s.lastIndex + logs.length) },
      some ⟨logs, s.lastIndex + 1, s.lastIndex + logs.length, none⟩)
  | .enqueued endIndex => some ({ s with lastIndex := endIndex, phase := .top }, none)
  | .stopped => some (s, none)

/-- What has been cut and is still to be sent. -/
def inHand (s : LogSyncService) : List LogEntry :=
  match s.phase with
  | .truncated logs => logs
  | _ => []

/-- The index of the last entry that has been sent. -/
def sentIndex (s : LogSyncService) : ℕ :=
  match s.phase with
  | .enqueued endIndex => endIndex
  | _ => s.lastIndex

end LogSyncService

/-! ## Both threads -/

/-- The sync thread, the raft thread and the queue between them, with a record of the entries that
have been sent. -/
structure SyncSystem where
  service : LogSyncService
  queue : List SyncRequest
  node : Node
  sent : List LogEntry

namespace SyncSystem

/-- A service that has just been started, at a node that is a syncer. -/
def start (planId : List UInt8) (n : Node) : SyncSystem :=
  ⟨LogSyncService.start planId n.log.lastIndex, [], n, []⟩

/-- **A step of one of the threads.** A reader that answers gives entries of the source from the
index that it was asked for on, any number of them. -/
inductive Step (source : List LogEntry) (readers : ℕ) : SyncSystem → SyncSystem → Prop
  | sync {s : SyncSystem} {service : LogSyncService} (fetch : Option (List LogEntry))
      (request : Option SyncRequest)
      (hfetch : ∀ logs, fetch = some logs → logs <+: source.drop s.service.lastIndex)
      (hrun : s.service.run readers fetch = some (service, request)) :
      Step source readers s
        { s with
          service := service
          queue := s.queue ++ request.toList
          sent := s.sent ++ request.toList.flatMap SyncRequest.entries }
  | raft {s : SyncSystem} {r : SyncRequest} {rs : List SyncRequest} {m : Node} (clk : Clock)
      (hqueue : s.queue = r :: rs) (hm : (s.node.handleSyncRequest clk r).result = .ok m) :
      Step source readers s { s with queue := rs, node := m }
  /-- What else the raft thread does leaves a syncer's log alone, or cuts it off in front. -/
  | other {s : SyncSystem} (m : Node) (k : ℕ) (hrole : m.role = s.node.role)
      (hk : k ≤ s.node.log.lastIndex) (hlog : m.log = s.node.log.truncatePrefix k) :
      Step source readers s { s with node := m }

/-- A run. -/
inductive RunsTo (source : List LogEntry) (readers : ℕ) (s : SyncSystem) : SyncSystem → Prop
  | refl : RunsTo source readers s s
  | step {t u : SyncSystem} (hrun : RunsTo source readers s t) (hstep : Step source readers t u) :
      RunsTo source readers s u

end SyncSystem

/-! ## Prefixes of the source -/

/-- The log of the other cluster: entries are counted from `1`. -/
def Counted (source : List LogEntry) : Prop :=
  ∀ i e, entryAt source i = some e → e.index = i

namespace Log

variable {source : List LogEntry} {l : Log} {e : LogEntry}

/-- **The log holds the source up to its last index**, as far as it has not been cut off in
front. -/
structure WindowOf (source : List LogEntry) (l : Log) : Prop where
  last_le : l.lastIndex ≤ source.length
  entries_eq : l.entries = (source.take l.lastIndex).drop (l.firstIndex - 1)

namespace WindowOf

theorem appendEntry (hl : l.WindowOf source) (he : entryAt source (l.lastIndex + 1) = some e)
    (h : e.index = l.lastIndex + 1) : (l.appendEntry e h).WindowOf source where
  last_le := by
    rw [lastIndex_appendEntry]
    exact (le_length_of_entryAt he).2
  entries_eq := by
    have hfirst : l.firstIndex - 1 ≤ (source.take l.lastIndex).length := by
      have := l.lastIndex_add_one
      rw [List.length_take_of_le hl.last_le]
      omega
    rw [lastIndex_appendEntry, List.take_add_one, show source[l.lastIndex]? = some e from he]
    show l.entries ++ [e] = _
    rw [hl.entries_eq]
    exact (List.drop_append_of_le_length hfirst).symm

theorem setCurrentTerm (hl : l.WindowOf source) (t : ℕ) :
    (l.setCurrentTerm t).WindowOf source := ⟨hl.last_le, hl.entries_eq⟩

theorem truncatePrefix {k : ℕ} (hl : l.WindowOf source) (hk : k ≤ l.lastIndex) :
    (l.truncatePrefix k).WindowOf source ∧ (l.truncatePrefix k).lastIndex = l.lastIndex := by
  rw [Log.truncatePrefix]
  split
  · next hlt =>
    have hlast : k + (l.entries.drop (k - l.firstIndex)).length - 1 = l.lastIndex := by
      have := l.lastIndex_add_one
      rw [List.length_drop]
      omega
    refine ⟨⟨?_, ?_⟩, hlast⟩
    · exact hlast.trans_le hl.last_le
    · have hsum : l.firstIndex - 1 + (k - l.firstIndex) = k - 1 := by
        have := l.first_pos
        omega
      show l.entries.drop (k - l.firstIndex) =
        (source.take (k + (l.entries.drop (k - l.firstIndex)).length - 1)).drop (k - 1)
      rw [hlast, ← hsum, ← List.drop_drop, ← hl.entries_eq]
  · exact ⟨hl, rfl⟩

end WindowOf

end Log

/-- **Entries of the source are appended** one after the other, and the log on disk is a prefix of
the source at each moment. -/
theorem appendAll_copies (hsource : Counted source) {l : Log} {es : List LogEntry}
    (hl : l.WindowOf source) (hes : es <+: source.drop l.lastIndex) :
    (appendAll l es).Sat (fun l' => l'.WindowOf source)
      (fun l' => l'.WindowOf source ∧ l'.lastIndex = l.lastIndex + es.length)
      fun _ => False := by
  induction es generalizing l with
  | nil => exact sat_pure.mpr ⟨hl, rfl⟩
  | cons e es ih =>
    obtain ⟨rest, hrest⟩ := hes
    have he : entryAt source (l.lastIndex + 1) = some e := by
      rw [entryAt_succ, ← Nat.add_zero l.lastIndex, ← List.getElem?_drop, ← hrest]
      rfl
    have hidx : e.index = l.lastIndex + 1 := hsource _ _ he
    have hl' := hl.appendEntry he hidx
    have hlast := l.lastIndex_appendEntry hidx
    rw [appendAll, dif_pos hidx]
    refine sat_persist_bind hl' fun _ => (ih hl' ⟨rest, ?_⟩).imp fun l' h => ⟨h.1, ?_⟩
    · rw [hlast, ← List.drop_drop, ← hrest]
      rfl
    · rw [h.2, hlast, List.length_cons]
      omega

/-- A request that continues a log which ends at `a`. -/
structure SyncRequest.Continues (source : List LogEntry) (a : ℕ) (r : SyncRequest) : Prop where
  entries_ne : r.entries ≠ []
  entries_front : r.entries <+: source.drop a
  start_eq : r.startIndex = a + 1
  end_eq : r.endIndex = a + r.entries.length
  finish_eq : r.finishMeta = none

/-- **A request that continues the log is taken**: no assertion fails, and the log that is on disk
is a prefix of the source at each moment. -/
theorem Node.handleSyncRequest_extends (hsource : Counted source) (clk : Clock)
    (hrole : n.role = .syncer) (hl : n.log.WindowOf source)
    (hr : r.Continues source n.log.lastIndex) :
    (n.handleSyncRequest clk r).Sat (fun l => l.WindowOf source)
      (fun m => m.role = .syncer ∧ m.log.WindowOf source ∧
        m.log.lastIndex = n.log.lastIndex + r.entries.length)
      fun _ => False := by
  obtain ⟨last, hlast⟩ : ∃ last, r.entries.getLast? = some last :=
    ⟨_, List.getLast?_eq_some_getLast hr.entries_ne⟩
  obtain ⟨e, es, hes⟩ := List.exists_cons_of_ne_nil hr.entries_ne
  have happend : (n.log.appendEntries r.entries).Sat (fun l => l.WindowOf source)
      (fun x => x.2 = true ∧ x.1.WindowOf source ∧
        x.1.lastIndex = n.log.lastIndex + r.entries.length) fun _ => False := by
    have hall := appendAll_copies hsource hl hr.entries_front
    have hidx : e.index = n.log.lastIndex + 1 := by
      obtain ⟨rest, hrest⟩ := hr.entries_front
      refine hsource _ _ ?_
      rw [entryAt_succ, ← Nat.add_zero n.log.lastIndex, ← List.getElem?_drop, ← hrest, hes]
      rfl
    rw [hes] at hall ⊢
    rw [Log.appendEntries, if_neg (not_not.mpr hidx)]
    exact hall.bind fun l' h => sat_pure.mpr ⟨rfl, h⟩
  rw [handleSyncRequest, if_neg (not_not.mpr hrole), hr.finish_eq]
  refine sat_check_bind (fun h => h hr.start_eq) fun _ => ?_
  rw [hlast]
  refine Sat.bind (R := fun _ => True) (sat_pure.mpr trivial) fun x _ =>
    happend.bind fun y hy => ?_
  obtain ⟨l, ok⟩ := y
  obtain ⟨hok, hwindow, hnew⟩ := hy
  refine sat_check_bind (fun h => h hok) fun _ => ?_
  refine sat_check_bind (fun h => h (hnew.trans hr.end_eq.symm))
    fun _ => ?_
  have hwritten := hwindow.setCurrentTerm x.term
  refine Sat.bind (R := fun m => m.role = .syncer ∧ m.log = l.setCurrentTerm x.term) ?_
    fun m hm => sat_pure.mpr ⟨hm.1, hm.2 ▸ hwritten, hm.2 ▸ hnew⟩
  exact sat_persist_bind hwritten fun _ => sat_pure.mpr ⟨hrole, rfl⟩

/-! ## What the sync thread has seen -/

section Examined

variable {source : List LogEntry} {planId : List UInt8} {a k : ℕ} {es : List LogEntry}

/-- No entry up to `k` ends the log. -/
def Clean (source : List LogEntry) (planId : List UInt8) (k : ℕ) : Prop :=
  ∀ e ∈ source.take k, LogSyncService.endLog planId e = false

/-- **The first entry of the source that ends the log** is `e`, at index `k`. -/
structure EndsAt (source : List LogEntry) (planId : List UInt8) (k : ℕ) (e : LogEntry) : Prop where
  entry : entryAt source k = some e
  ends : LogSyncService.endLog planId e = true
  clean : Clean source planId (k - 1)

/-- What the flag says of the entries up to `k`. -/
def Examined (source : List LogEntry) (planId : List UInt8) (k : ℕ) : Bool → Prop
  | true => ∃ e, EndsAt source planId k e
  | false => Clean source planId k

/-- A batch from `a` on, put behind what lies before it. -/
theorem take_append_batch (hes : es <+: source.drop a) :
    source.take (a + es.length) = source.take a ++ es := by
  rw [List.take_add, ← List.prefix_iff_eq_take.mp hes]

/-- The end is not below an index up to which there is none. -/
theorem EndsAt.lt_of_clean (h : EndsAt source planId k e) (ha : Clean source planId a) : a < k := by
  by_contra hle
  have hmem : e ∈ source.take a := by
    obtain ⟨hpos, hget⟩ := entryAt_eq_some_iff.mp h.entry
    rw [List.mem_iff_getElem?]
    exact ⟨k - 1, by rw [List.getElem?_take, if_pos (by omega), hget]⟩
  have := ha e hmem
  rw [h.ends] at this
  cases this

theorem EndsAt.unique {f : LogEntry} (h : EndsAt source planId k e)
    (h' : EndsAt source planId a f) : a = k := by
  have h1 := h.lt_of_clean h'.clean
  have h2 := h'.lt_of_clean h.clean
  omega

/-- The end is not below what has been examined. -/
theorem Examined.le_of_endsAt {flag : Bool} (h : Examined source planId a flag)
    (hk : EndsAt source planId k e) : a ≤ k := by
  cases flag with
  | true =>
    obtain ⟨f, hf⟩ := h
    exact (hk.unique hf).le
  | false => exact (hk.lt_of_clean h).le

theorem LogSyncService.truncateLogs_true (es : List LogEntry) :
    truncateLogs planId es true = ([], true) := by
  induction es with
  | nil => rfl
  | cons e es ih => exact ih

/-- **What is kept of a batch** ends at its first tagged entry, and is the whole batch if there is
none. -/
theorem LogSyncService.truncateLogs_eq (planId : List UInt8) (es : List LogEntry) :
    (truncateLogs planId es false = (es, false) ∧ ∀ e ∈ es, endLog planId e = false) ∨
      ∃ pre e post, es = pre ++ e :: post ∧
        truncateLogs planId es false = (pre ++ [e], true) ∧
        endLog planId e = true ∧ ∀ x ∈ pre, endLog planId x = false := by
  induction es with
  | nil => exact Or.inl ⟨rfl, nofun⟩
  | cons e es ih =>
    rw [truncateLogs]
    cases hend : endLog planId e with
    | true =>
      rw [truncateLogs_true]
      exact Or.inr ⟨[], e, es, rfl, rfl, hend, nofun⟩
    | false =>
      rcases ih with ⟨heq, hnone⟩ | ⟨pre, f, post, rfl, heq, hf, hpre⟩
      · rw [heq]
        exact Or.inl ⟨rfl, List.forall_mem_cons.mpr ⟨hend, hnone⟩⟩
      · rw [heq]
        exact Or.inr ⟨e :: pre, f, post, rfl, rfl, hf, List.forall_mem_cons.mpr ⟨hend, hpre⟩⟩

/-- Truncating a batch from `a` on examines what it keeps. -/
theorem Examined.truncateLogs (h : Clean source planId a) (hes : es <+: source.drop a) :
    (LogSyncService.truncateLogs planId es false).1 <+: source.drop a ∧
      Examined source planId (a + (LogSyncService.truncateLogs planId es false).1.length)
        (LogSyncService.truncateLogs planId es false).2 := by
  have hclean : ∀ xs, xs <+: source.drop a → (∀ e ∈ xs, LogSyncService.endLog planId e = false) →
      Clean source planId (a + xs.length) := by
    intro xs hxs hnone e he
    rw [take_append_batch hxs, List.mem_append] at he
    exact he.elim (h e) (hnone e)
  rcases LogSyncService.truncateLogs_eq planId es with
    ⟨heq, hnone⟩ | ⟨pre, e, post, rfl, heq, hend, hpre⟩
  · rw [heq]
    exact ⟨hes, hclean es hes hnone⟩
  · rw [heq]
    have hkept : pre ++ [e] <+: source.drop a :=
      List.IsPrefix.trans ⟨post, by rw [List.append_assoc]; rfl⟩ hes
    refine ⟨hkept, e, ?_, hend, ?_⟩
    · obtain ⟨rest, hrest⟩ := hkept
      rw [List.length_append, List.length_singleton, ← Nat.add_assoc, entryAt_succ,
        ← List.getElem?_drop, ← hrest]
      simp
    · have hlen : a + (pre ++ [e]).length - 1 = a + pre.length := by
        rw [List.length_append, List.length_singleton]
        omega
      rw [hlen]
      exact hclean pre ((List.prefix_append pre [e]).trans hkept) hpre

end Examined

/-! ## The invariant -/

/-- The requests in the queue cover the source from `a` to `b`. -/
inductive Queued (source : List LogEntry) : ℕ → List SyncRequest → ℕ → Prop
  | nil (a : ℕ) : Queued source a [] a
  | cons {a b : ℕ} {r : SyncRequest} {rs : List SyncRequest} (hr : r.Continues source a)
      (hrs : Queued source (a + r.entries.length) rs b) : Queued source a (r :: rs) b

theorem Queued.snoc {a b : ℕ} (h : Queued source a rs b) (hr : r.Continues source b) :
    Queued source a (rs ++ [r]) (b + r.entries.length) := by
  induction h with
  | nil a => exact .cons hr (.nil _)
  | cons hr' _ ih => exact .cons hr' (ih hr)

namespace LogSyncService

/-- What the sync thread holds in its hand. -/
def Holds (source : List LogEntry) (s : LogSyncService) : Prop :=
  match s.phase with
  | .fetching => s.endLogFlag = false
  | .fetched logs => s.endLogFlag = false ∧ logs <+: source.drop s.lastIndex
  | .truncated logs => logs ≠ [] ∧ logs <+: source.drop s.lastIndex
  | _ => True

/-- The flag speaks of all that has been sent and of what is in hand. -/
structure Sound (source : List LogEntry) (planId : List UInt8) (s : LogSyncService) : Prop where
  plan : s.planId = planId
  holds : s.Holds source
  le_length : s.sentIndex + s.inHand.length ≤ source.length
  examined : Examined source planId (s.sentIndex + s.inHand.length) s.endLogFlag

variable {source : List LogEntry} {planId : List UInt8} {s s' : LogSyncService} {readers : ℕ}
  {fetch : Option (List LogEntry)} {request : Option SyncRequest}

/-- The assertion of `truncateLogs` holds: what is fetched is fetched before the end is found. -/
theorem Sound.exists_run (h : s.Sound source planId) (readers : ℕ)
    (fetch : Option (List LogEntry)) : ∃ x, s.run readers fetch = some x := by
  have hholds := h.holds
  rw [Holds] at hholds
  unfold run
  cases hphase : s.phase with
  | top =>
    dsimp only
    split <;> exact ⟨_, rfl⟩
  | fetching => cases fetch <;> exact ⟨_, rfl⟩
  | fetched logs =>
    rw [hphase] at hholds
    dsimp only
    rw [hholds.1]
    exact ⟨_, rfl⟩
  | truncated logs => exact ⟨_, rfl⟩
  | enqueued endIndex => exact ⟨_, rfl⟩
  | stopped => exact ⟨_, rfl⟩

/-- A batch that was fetched is cut. -/
theorem Sound.truncateLogs {lastIndex clientIdx : ℕ}
    (h : Sound source planId ⟨planId, lastIndex, false, clientIdx, .fetched logs⟩) :
    Sound source planId ⟨planId, lastIndex, (truncateLogs planId logs false).2, clientIdx,
      if (truncateLogs planId logs false).1.isEmpty then .top
      else .truncated (truncateLogs planId logs false).1⟩ := by
  obtain ⟨hfront, hnew⟩ := Examined.truncateLogs h.examined h.holds.2
  generalize LogSyncService.truncateLogs planId logs false = x at hfront hnew ⊢
  obtain ⟨kept, flag⟩ := x
  cases kept with
  | nil => exact ⟨rfl, trivial, h.le_length, hnew⟩
  | cons e kept =>
    refine ⟨rfl, ⟨List.cons_ne_nil _ _, hfront⟩, ?_, hnew⟩
    have hlen : (e :: kept).length ≤ (source.drop lastIndex).length := hfront.length_le
    have hle : lastIndex + 0 ≤ source.length := h.le_length
    rw [List.length_drop] at hlen
    show lastIndex + (e :: kept).length ≤ source.length
    omega

/-- **A step of the sync thread.** It sends nothing, or a request that continues what has been
sent. -/
theorem Sound.run (h : s.Sound source planId)
    (hfetch : ∀ logs, fetch = some logs → logs <+: source.drop s.lastIndex)
    (hrun : s.run readers fetch = some (s', request)) :
    s'.Sound source planId ∧
      (request = none ∧ s'.sentIndex = s.sentIndex ∨
        ∃ r, request = some r ∧ r.Continues source s.sentIndex ∧
          s'.sentIndex = s.sentIndex + r.entries.length) := by
  obtain ⟨plan, lastIndex, flag, clientIdx, phase⟩ := s
  obtain rfl : plan = planId := h.plan
  cases phase with
  | top =>
    cases flag with
    | true =>
      cases hrun
      exact ⟨⟨rfl, trivial, h.le_length, h.examined⟩, Or.inl ⟨rfl, rfl⟩⟩
    | false =>
      cases hrun
      exact ⟨⟨rfl, rfl, h.le_length, h.examined⟩, Or.inl ⟨rfl, rfl⟩⟩
  | fetching =>
    cases fetch with
    | none =>
      cases hrun
      exact ⟨⟨rfl, trivial, h.le_length, h.examined⟩, Or.inl ⟨rfl, rfl⟩⟩
    | some logs =>
      cases hrun
      exact ⟨⟨rfl, ⟨h.holds, hfetch logs rfl⟩, h.le_length, h.examined⟩, Or.inl ⟨rfl, rfl⟩⟩
  | fetched logs =>
    obtain rfl : flag = false := h.holds.1
    cases hrun
    refine ⟨h.truncateLogs, Or.inl ⟨rfl, ?_⟩⟩
    rw [sentIndex]
    dsimp only
    split
    · next heq => split at heq <;> cases heq
    · rfl
  | truncated logs =>
    cases hrun
    exact ⟨⟨rfl, trivial, h.le_length, h.examined⟩,
      Or.inr ⟨_, rfl, ⟨h.holds.1, h.holds.2, rfl, rfl, rfl⟩, rfl⟩⟩
  | enqueued endIndex =>
    cases hrun
    exact ⟨⟨rfl, trivial, h.le_length, h.examined⟩, Or.inl ⟨rfl, rfl⟩⟩
  | stopped =>
    cases hrun
    exact ⟨h, Or.inl ⟨rfl, rfl⟩⟩

end LogSyncService

/-- **The invariant.** The log and the queue cover the source up to the end of what has been
sent. -/
structure SyncSystem.Inv (source : List LogEntry) (planId : List UInt8) (base : ℕ)
    (s : SyncSystem) : Prop where
  service : s.service.Sound source planId
  role : s.node.role = .syncer
  window : s.node.log.WindowOf source
  queued : Queued source s.node.log.lastIndex s.queue s.service.sentIndex
  base_le : base ≤ s.service.sentIndex
  sent_eq : s.sent = (source.take s.service.sentIndex).drop base

namespace SyncSystem

variable {source : List LogEntry} {planId : List UInt8} {base readers : ℕ} {s t : SyncSystem}

theorem inv_start (hrole : n.role = .syncer) (hl : n.log.WindowOf source)
    (hclean : Clean source planId n.log.lastIndex) :
    Inv source planId n.log.lastIndex (start planId n) where
  service := ⟨rfl, trivial, hl.last_le, hclean⟩
  role := hrole
  window := hl
  queued := .nil _
  base_le := Nat.le_refl _
  sent_eq := by
    show [] = (source.take n.log.lastIndex).drop n.log.lastIndex
    rw [List.drop_take, Nat.sub_self, List.take_zero]

namespace Inv

/-- The front of the queue continues the log. -/
theorem handleSyncRequest (h : Inv source planId base s) (hsource : Counted source)
    (hqueue : s.queue = r :: rs) (clk : Clock) :
    (s.node.handleSyncRequest clk r).Sat (fun l => l.WindowOf source)
      (fun m => m.role = .syncer ∧ m.log.WindowOf source ∧
        Queued source m.log.lastIndex rs s.service.sentIndex) fun _ => False := by
  have hqueued := h.queued
  rw [hqueue] at hqueued
  cases hqueued with
  | cons hr hrs =>
    refine (Node.handleSyncRequest_extends hsource clk h.role h.window hr).imp fun m hm => ?_
    obtain ⟨hrole, hwindow, hlast⟩ := hm
    exact ⟨hrole, hwindow, hlast ▸ hrs⟩

/-- What was sent, with a batch behind it. -/
theorem sent_append (h : Inv source planId base s)
    (hlogs : logs <+: source.drop s.service.sentIndex) :
    s.sent ++ logs = (source.take (s.service.sentIndex + logs.length)).drop base := by
  have hle : s.service.sentIndex ≤ source.length :=
    (Nat.le_add_right _ _).trans h.service.le_length
  have hbase : base ≤ (source.take s.service.sentIndex).length := by
    rw [List.length_take_of_le hle]
    exact h.base_le
  rw [take_append_batch hlogs, List.drop_append_of_le_length hbase, h.sent_eq]

/-- **Each step keeps the invariant.** -/
theorem step (h : Inv source planId base s) (hsource : Counted source)
    (hstep : Step source readers s t) : Inv source planId base t := by
  cases hstep with
  | sync fetch request hfetch hrun =>
    obtain ⟨hsound, ⟨rfl, hsent⟩ | ⟨r, rfl, hr, hsent⟩⟩ := h.service.run hfetch hrun
    · refine ⟨hsound, h.role, h.window, ?_, hsent ▸ h.base_le, ?_⟩
      · simpa [hsent] using h.queued
      · simpa [hsent] using h.sent_eq
    · refine ⟨hsound, h.role, h.window, ?_, ?_, ?_⟩
      · show Queued source s.node.log.lastIndex (s.queue ++ [r]) _
        rw [hsent]
        exact h.queued.snoc hr
      · show base ≤ _
        rw [hsent]
        exact h.base_le.trans (Nat.le_add_right _ _)
      · have happend := h.sent_append hr.entries_front
        simpa [hsent] using happend
  | raft clk hqueue hm =>
    obtain ⟨hrole, hwindow, hqueued⟩ := (h.handleSyncRequest hsource hqueue clk).of_result hm
    exact ⟨h.service, hrole, hwindow, hqueued, h.base_le, h.sent_eq⟩
  | other m k hrole hk hlog =>
    obtain ⟨hwindow, hlast⟩ := h.window.truncatePrefix hk
    rw [← hlog] at hwindow hlast
    refine ⟨h.service, hrole.trans h.role, hwindow, ?_, h.base_le, h.sent_eq⟩
    show Queued source m.log.lastIndex s.queue _
    rw [hlast]
    exact h.queued

/-- **Every run keeps the invariant.** -/
theorem run (h : Inv source planId base s) (hsource : Counted source)
    (hrun : RunsTo source readers s t) : Inv source planId base t := by
  induction hrun with
  | refl => exact h
  | step _ hstep ih => exact ih.step hsource hstep

/-- What is in hand is examined, and follows what has been sent. -/
theorem sent_append_inHand (h : Inv source planId base s) :
    s.sent ++ s.service.inHand =
      (source.take (s.service.sentIndex + s.service.inHand.length)).drop base := by
  refine h.sent_append ?_
  have hholds := h.service.holds
  rw [LogSyncService.Holds] at hholds
  rw [LogSyncService.inHand, LogSyncService.sentIndex]
  cases hphase : s.service.phase with
  | truncated logs =>
    rw [hphase] at hholds
    exact hholds.2
  | _ => exact List.nil_prefix

end Inv

end SyncSystem

/-- **Log sync copies the source up to the end of the plan.** The source is a log, and the node a
syncer that has a prefix of it without the end. In every state of every run:

* the log on disk is a prefix of the source, before and at each write of a request;
* no assertion fails, neither in the sync thread nor when the raft thread takes the next request;
* the entries that have been sent follow the first log without a gap, and none lies after the end;
* once the flag is set, what has been sent and what the thread has cut to be sent next lead up to
  the end. -/
theorem log_sync_copies_prefix {source : List LogEntry} {planId : List UInt8} {readers : ℕ}
    {n : Node} {s : SyncSystem} (hsource : Counted source) (hrole : n.role = .syncer)
    (hfront : n.log.WindowOf source) (hclean : Clean source planId n.log.lastIndex)
    (hrun : SyncSystem.RunsTo source readers (SyncSystem.start planId n) s) :
    s.node.log.WindowOf source ∧
    (∀ fetch, ∃ x, s.service.run readers fetch = some x) ∧
    (∀ r rs clk, s.queue = r :: rs →
      (∃ m, (s.node.handleSyncRequest clk r).result = .ok m) ∧
      ∀ l ∈ (s.node.handleSyncRequest clk r).writes, l.WindowOf source) ∧
    s.sent <+: source.drop n.log.lastIndex ∧
    (∀ k e, EndsAt source planId k e → s.sent <+: (source.take k).drop n.log.lastIndex) ∧
    (s.service.endLogFlag = true → ∃ k e, EndsAt source planId k e ∧
      s.sent ++ s.service.inHand = (source.take k).drop n.log.lastIndex ∧
      (s.sent ++ s.service.inHand).getLast? = some e) := by
  have h := (SyncSystem.inv_start hrole hfront hclean).run hsource hrun
  refine ⟨h.window, fun fetch => h.service.exists_run readers fetch, ?_, ?_, ?_, ?_⟩
  · intro r rs clk hqueue
    have hsat := h.handleSyncRequest hsource hqueue clk
    obtain ⟨m, hm, -⟩ := hsat.exists_result
    exact ⟨⟨m, hm⟩, hsat.1⟩
  · rw [h.sent_eq]
    exact (List.take_prefix _ _).drop _
  · intro k e hk
    rw [h.sent_eq]
    have hle := h.service.examined.le_of_endsAt hk
    exact (List.take_prefix_take_left (by omega)).drop _
  · intro hflag
    have hexamined := h.service.examined
    rw [hflag] at hexamined
    obtain ⟨e, hend⟩ := hexamined
    refine ⟨_, e, hend, h.sent_append_inHand, ?_⟩
    rw [h.sent_append_inHand]
    have hlt := hend.lt_of_clean hclean
    obtain ⟨hpos, hget⟩ := entryAt_eq_some_iff.mp hend.entry
    have hle := h.service.le_length
    generalize s.service.sentIndex + s.service.inHand.length = k at hlt hpos hget hle
    have hindex : n.log.lastIndex + (k - n.log.lastIndex - 1) = k - 1 := by omega
    rw [List.getLast?_eq_getElem?, List.getElem?_drop, List.length_drop,
      List.length_take_of_le hle, hindex, List.getElem?_take, if_pos (by omega), hget]

namespace Scenario

/-- Three entries, of which the second is a split command with the plan `[7]`. -/
def divided : List LogEntry :=
  [⟨1, 1, true, 0, [], 0, none⟩, ⟨1, 2, false, 0, [1], 0, some ⟨101, [7]⟩⟩,
    ⟨2, 3, true, 0, [], 0, none⟩]

/-- A syncer that has nothing yet. -/
def pristine : Node where
  members :=
    ⟨1, "a:1", Table.empty, Table.empty, Table.empty, IdSet.empty, IdSet.empty, IdSet.empty⟩
  role := .syncer
  leaderId := 0
  electionTimePoint := 0
  commitIndex := 0
  beginIndex := 1
  log := Log.empty
  pendingClientRequests := []
  outbox := []

/-- The three entries are fetched at once, and two of them are sent. -/
def halved : SyncSystem where
  service := ⟨[7], 0, true, 0, .enqueued 2⟩
  queue := [⟨divided.take 2, 1, 2, none⟩]
  node := pristine
  sent := divided.take 2

theorem counted_divided : Counted divided := by
  intro i e he
  match i, he with
  | 1, he => cases he; rfl
  | 2, he => cases he; rfl
  | 3, he => cases he; rfl
  | i + 4, he => cases he

theorem runsTo_halved : SyncSystem.RunsTo divided 2 (SyncSystem.start [7] pristine) halved := by
  have hfetching : SyncSystem.RunsTo divided 2 (SyncSystem.start [7] pristine)
      ⟨⟨[7], 0, false, 0, .fetching⟩, [], pristine, []⟩ := .step .refl (.sync none none nofun rfl)
  have hfetched : SyncSystem.RunsTo divided 2 (SyncSystem.start [7] pristine)
      ⟨⟨[7], 0, false, 0, .fetched divided⟩, [], pristine, []⟩ :=
    .step hfetching (.sync (some divided) none (fun _ h => Option.some.inj h ▸ List.prefix_refl _)
      rfl)
  have htruncated : SyncSystem.RunsTo divided 2 (SyncSystem.start [7] pristine)
      ⟨⟨[7], 0, true, 0, .truncated (divided.take 2)⟩, [], pristine, []⟩ :=
    .step hfetched (.sync none none nofun rfl)
  exact .step htruncated (.sync none (some ⟨divided.take 2, 1, 2, none⟩) nofun rfl)

end Scenario

theorem log_sync_copies_prefix_halved :
    Scenario.halved.service.endLogFlag = true ∧
    ∃ k e, EndsAt Scenario.divided [7] k e ∧
      Scenario.halved.sent ++ Scenario.halved.service.inHand = (Scenario.divided.take k).drop 0 ∧
      (Scenario.halved.sent ++ Scenario.halved.service.inHand).getLast? = some e := by
  have hclean : Clean Scenario.divided [7] Scenario.pristine.log.lastIndex := by
    intro e he
    cases he
  have h := log_sync_copies_prefix Scenario.counted_divided rfl ⟨by decide, rfl⟩ hclean
    Scenario.runsTo_halved
  exact ⟨rfl, h.2.2.2.2.2 rfl⟩

end Gringofts
