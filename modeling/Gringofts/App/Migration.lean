import Gringofts.App.Accepted
import Gringofts.App.LogSync

/-!
# Nodes that copy the log of a running cluster

The source of a new cluster is an old one that goes on running: leaders change, nodes stop and start
again, and cut off what they have applied. Each new node asks the nodes of the old cluster one after
the other, whatever their roles are, and knows nothing of the other new nodes. An operator ends the
copying at each of them. From then on they are a Raft cluster, so they must have the same log.

They do, since all that a node of the old cluster gives away is part of one committed log, and the
entry at which the copying ends is the same for all who read that log.

## Main definitions

* `StreamingService.GetEntries`, `LogReader.fetch` — both sides of a request for entries
* `LogSyncService.terminateSyncMode`
* `Migration`, `Migration.Step` — the old cluster with its past, and the new nodes

## Main results

* `Chronicle.Inv.fetch_isPrefix` — what is fetched is committed
* `Migration.Inv.step` — each new node takes part in a run of its own, over the committed log
* `split_off_nodes_agree`
-/

namespace Gringofts

open Replication Scenario

variable {S : Setup} {logs : List LogEntry} {start k tagCommitIndex begin : ℕ} {l : Log}
  {s t : SyncSystem} {planId : List UInt8}

/-! ## A request for entries -/

/-- `GetEntries::Response`. -/
structure GetEntriesResponse where
  code : ℕ
  message : String
  firstIndex : ℕ
  lastIndex : ℕ
  commitIndex : ℕ
  entries : List LogEntry
  deriving DecidableEq

namespace StreamingService

variable (cfg : RaftConfig) (v : RaftView) (commitIndex firstIndex lastIndex startIndex : ℕ)

/-- `getEntries`. The commit index is read first, then the bounds of the log, and then its entries,
while Raft goes on: `v` is what it shows in the end. -/
def getEntries (segmentLast : ℕ) : Option GetEntriesResponse :=
  if commitIndex < startIndex then
    some ⟨1, "Reject. StartIndex > CommitIndex", firstIndex, lastIndex, commitIndex, []⟩
  else
    (v.getEntries cfg startIndex (commitIndex - startIndex + 1) segmentLast).map
      (⟨0, "Success", firstIndex, lastIndex, commitIndex, ·⟩)

/-- `GetEntries`. The code of a rejection is overwritten. -/
def GetEntries (maxConcurrency currentConcurrency segmentLast : ℕ) : Option GetEntriesResponse :=
  if currentConcurrency ≤ maxConcurrency then
    (getEntries cfg v commitIndex firstIndex lastIndex startIndex segmentLast).map
      ({ · with code := 0 })
  else some ⟨1, "TooManyConnections", 0, 0, 0, []⟩

end StreamingService

inductive FetchStatus
  | ok
  | nodata
  | error

/-- `LogReaderImpl::fetch`, where the call fails or has a response. A response without a first index
is taken for that of a node that is starting. -/
def LogReader.fetch (startIndex : ℕ) :
    Option GetEntriesResponse → Option (FetchStatus × List LogEntry)
  | none => some (.error, [])
  | some r =>
    if r.firstIndex = 0 then some (.ok, [])
    else if r.firstIndex ≤ startIndex then
      some (if r.entries.isEmpty then (.nodata, []) else (.ok, r.entries))
    else none

/-- What the sync thread goes on with. -/
def FetchStatus.logs? : FetchStatus × List LogEntry → Option (List LogEntry)
  | (.ok, logs) => some logs
  | _ => none

/-- What is fetched is what the response holds. -/
theorem LogReader.logs_of_fetch {startIndex : ℕ} {response : Option GetEntriesResponse}
    {x : FetchStatus × List LogEntry} (hfetch : LogReader.fetch startIndex response = some x)
    (hlogs : FetchStatus.logs? x = some logs) :
    logs = [] ∨ ∃ r, response = some r ∧ logs = r.entries := by
  cases response with
  | none =>
    cases Option.some.inj hfetch
    cases hlogs
  | some r =>
    rw [LogReader.fetch] at hfetch
    split at hfetch
    · cases Option.some.inj hfetch
      cases Option.some.inj hlogs
      exact Or.inl rfl
    · split at hfetch
      · cases Option.some.inj hfetch
        split at hlogs
        · cases hlogs
        · cases Option.some.inj hlogs
          exact Or.inr ⟨r, rfl, rfl⟩
      · cases hfetch

namespace Chronicle

/-- A node of the cluster gives this response, at this moment. -/
structure Answers (S : Setup) (w : Chronicle) (startIndex : ℕ) (r : GetEntriesResponse) : Prop where
  exists_node : ∃ i ∈ S.info.nodes.keys, ∃ l, w.cluster.Visible S i l ∧
    ∃ commitIndex ≤ (w.cluster.nodes i).commitIndex,
      ∃ firstIndex lastIndex maxConcurrency currentConcurrency segmentLast,
        StreamingService.GetEntries (S.config i) ⟨l, (w.cluster.nodes i).commitIndex⟩ commitIndex
          firstIndex lastIndex startIndex maxConcurrency currentConcurrency segmentLast = some r

variable {w w' : Chronicle} {a : S.Abstract}

/-- **What a node gives away is committed**, from the index asked for on. -/
theorem Inv.answers_isPrefix (h : w.Inv S a.1) {r : GetEntriesResponse}
    (hr : w.Answers S (start + 1) r) : r.entries <+: w.known.drop start := by
  obtain ⟨i, hi, l, hl, c, -, first, last, most, now, segmentLast, hr⟩ := hr.exists_node
  rw [StreamingService.GetEntries] at hr
  split at hr
  · obtain ⟨x, hx, rfl⟩ := Option.map_eq_some_iff.mp hr
    rw [StreamingService.getEntries] at hx
    split at hx
    · cases Option.some.inj hx
      exact List.nil_prefix
    · next hle =>
      obtain ⟨es, hes, rfl⟩ := Option.map_eq_some_iff.mp hx
      have hsize : c - (start + 1) + 1 = c - start := by omega
      rw [hsize] at hes
      obtain ⟨-, -, heq⟩ := (h.carries_visible hi hl).getEntries (by omega) hes
      show es <+: w.known.drop start
      nth_rewrite 1 [← heq]
      exact (List.take_prefix _ _).drop _
  · cases Option.some.inj hr
    exact List.nil_prefix

/-- **What is fetched is committed.** -/
theorem Inv.fetch_isPrefix (h : w.Inv S a.1) {response : Option GetEntriesResponse}
    {x : FetchStatus × List LogEntry}
    (hresponse : ∀ r, response = some r → w.Answers S (start + 1) r)
    (hfetch : LogReader.fetch (start + 1) response = some x)
    (hlogs : FetchStatus.logs? x = some logs) : logs <+: w.known.drop start := by
  rcases LogReader.logs_of_fetch hfetch hlogs with rfl | ⟨r, hr, rfl⟩
  · exact List.nil_prefix
  · exact h.answers_isPrefix (hresponse r hr)

/-- The entries of whole logs and of the committed log are where their indices say. -/
structure Numbered (S : Setup) (w : Chronicle) : Prop where
  archive : ∀ i ∈ S.info.nodes.keys, Counted (w.archive i)
  known : Counted w.known

theorem Numbered.step (hw : w.Numbered S) (h : w.Inv S a.1) {act : Action}
    (hs : w.step S act = some w') : w'.Numbered S := by
  have hacting : Counted (w'.archive act.node) := fun k e he =>
    (h.entryAt_step hs he).elim (hw.archive _ (node_mem hs) k e) And.right
  refine ⟨fun i hi => ?_, fun k e he => (Inv.known_step hs he).elim (hw.known k e) (hacting k e)⟩
  by_cases hin : i = act.node
  · exact hin ▸ hacting
  · exact archive_of_ne hs hin ▸ hw.archive i hi

end Chronicle

/-! ## A source that grows -/

section Grows

variable {known known' : List LogEntry} {planId : List UInt8} {readers : ℕ}

theorem Log.WindowOf.grows (h : l.WindowOf known) (hp : known <+: known') : l.WindowOf known' where
  last_le := h.last_le.trans hp.length_le
  entries_eq := by
    obtain ⟨x, rfl⟩ := hp
    rw [List.take_append_of_le_length h.last_le, h.entries_eq]

theorem Clean.grows (h : Clean known planId k) (hk : k ≤ known.length) (hp : known <+: known') :
    Clean known' planId k := by
  obtain ⟨x, rfl⟩ := hp
  rw [Clean, List.take_append_of_le_length hk]
  exact h

theorem SyncSystem.Step.grows (h : SyncSystem.Step known readers s t) (hp : known <+: known') :
    SyncSystem.Step known' readers s t := by
  cases h with
  | sync fetch request hfetch hrun =>
    exact .sync fetch request (fun logs hlogs => (hfetch logs hlogs).trans (hp.drop _)) hrun
  | raft clk hqueue hm => exact .raft clk hqueue hm
  | other m k hrole hk hlog => exact .other m k hrole hk hlog

theorem SyncSystem.RunsTo.grows (h : SyncSystem.RunsTo known readers s t) (hp : known <+: known') :
    SyncSystem.RunsTo known' readers s t := by
  induction h with
  | refl => exact .refl
  | step _ hstep ih => exact .step ih (hstep.grows hp)

end Grows

/-! ## The end of the copying -/

/-- Why `terminateSyncMode` refuses. -/
inductive SyncRefusal
  /-- "still syncing logs" -/
  | stillSyncing
  /-- "last index should be %d" -/
  | lastIndexShouldBe (lastIndex : ℕ)
  /-- "last index log has no split Tag" -/
  | noSplitTag
  /-- "split Tag planId is %s, but we want %s" -/
  | otherPlan (found wanted : List UInt8)

/-- `terminateSyncMode`, with the log that is found: the first index of the new cluster. An entry
that is not there counts as one without a tag. -/
def LogSyncService.terminateSyncMode (s : LogSyncService) (l : Log) (planId : List UInt8)
    (tagCommitIndex : ℕ) : Except SyncRefusal ℕ :=
  if s.endLogFlag = false then .error .stillSyncing
  else if tagCommitIndex ≠ 0 ∧ tagCommitIndex ≠ s.lastIndex then
    .error (.lastIndexShouldBe s.lastIndex)
  else
    match (l.getEntry s.lastIndex).bind LogEntry.specialTag with
    | none => .error .noSplitTag
    | some tag =>
      if tag.payload = planId then .ok (s.lastIndex + 1)
      else .error (.otherPlan tag.payload planId)

theorem LogSyncService.of_terminateSyncMode {s : LogSyncService}
    (h : s.terminateSyncMode l planId tagCommitIndex = .ok begin) :
    s.endLogFlag = true ∧ begin = s.lastIndex + 1 ∧ ∃ e tag, l.getEntry s.lastIndex = some e ∧
      e.specialTag = some tag ∧ tag.payload = planId := by
  rw [terminateSyncMode] at h
  split at h
  · cases h
  · next hflag =>
    split at h
    · cases h
    · split at h
      · cases h
      · next tag htag =>
        obtain ⟨e, he, htag⟩ := Option.bind_eq_some_iff.mp htag
        split at h
        · next hplan =>
          exact ⟨by simpa using hflag, (Except.ok.inj h).symm, e, tag, he, htag, hplan⟩
        · cases h

theorem Log.WindowOf.entryAt_of_getEntry {source : List LogEntry} {e : LogEntry}
    (h : l.WindowOf source) (he : l.getEntry k = some e) : entryAt source k = some e := by
  have hfirst := Log.first_le_of_getEntry he
  have hpos := l.first_pos
  have hindex : l.firstIndex - 1 + (k - l.firstIndex) = k - 1 := by omega
  rw [Log.getEntry, if_pos hfirst, h.entries_eq, List.getElem?_drop, hindex] at he
  exact entryAt_of_isPrefix (List.take_prefix _ _) (entryAt_eq_some_iff.mpr ⟨by omega, he⟩)

theorem Queued.le {source : List LogEntry} {a b : ℕ} {rs : List SyncRequest}
    (h : Queued source a rs b) : a ≤ b ∧ (a = b → rs = []) := by
  induction h with
  | nil a => exact ⟨Nat.le_refl a, fun _ => rfl⟩
  | cons hr _ ih =>
    have hpos := List.length_pos_iff.mpr hr.entries_ne
    exact ⟨by omega, fun heq => by omega⟩

/-- **A node that may stop copying** has the log up to the end of the plan, and nothing is on its
way any more. -/
theorem SyncSystem.Inv.of_terminateSyncMode {source : List LogEntry} {base : ℕ}
    (h : s.Inv source planId base)
    (hsplit : ∀ e ∈ source, ∀ tag, e.specialTag = some tag → tag.identifier = splitCommandType)
    (hend : s.service.terminateSyncMode s.node.log planId tagCommitIndex = .ok begin) :
    s.queue = [] ∧ begin = s.node.log.lastIndex + 1 ∧
      ∃ e, EndsAt source planId s.node.log.lastIndex e := by
  obtain ⟨hflag, rfl, e, tag, he, htag, hplan⟩ := LogSyncService.of_terminateSyncMode hend
  have hentry := h.window.entryAt_of_getEntry he
  obtain ⟨hpos, hget⟩ := entryAt_eq_some_iff.mp hentry
  have hexamined := h.service.examined
  rw [hflag] at hexamined
  obtain ⟨f, hf⟩ := hexamined
  -- the entry ends the log, so it is not before the first one that does
  have hends : LogSyncService.endLog planId e = true := by
    rw [LogSyncService.endLog, htag]
    simp [hsplit e (List.mem_of_getElem? hget) tag htag, hplan]
  have hge : s.service.sentIndex + s.service.inHand.length ≤ s.service.lastIndex := by
    by_contra hlt
    have hfalse := hf.clean e (List.mem_of_getElem?
      ((List.getElem?_take_of_lt (by omega)).trans hget))
    exact absurd (hends.symm.trans hfalse) (by decide)
  -- and it has been sent and taken
  obtain ⟨hle, hnil⟩ := h.queued.le
  have hlast := Log.last_ge_of_getEntry he
  have hk : s.service.sentIndex + s.service.inHand.length = s.node.log.lastIndex := by omega
  exact ⟨hnil (by omega), by omega, f, hk ▸ hf⟩

/-! ## The old cluster and the new nodes -/

/-- The old cluster with its past, and the new nodes. -/
structure Migration where
  source : Chronicle
  sync : ℕ → SyncSystem

namespace Migration

/-- **A step.** -/
inductive Step (S : Setup) (readers : ℕ) (planId : List UInt8) : Migration → Migration → Prop
  | source {w : Migration} {c : Chronicle} (act : Action) (hs : w.source.step S act = some c) :
      Step S readers planId w { w with source := c }
  /-- The sync thread of a new node goes on, with the answer of a node of the old cluster. -/
  | fetch {w : Migration} (j : ℕ) (response : Option GetEntriesResponse)
      (x : FetchStatus × List LogEntry) (service : LogSyncService) (request : Option SyncRequest)
      (hresponse : ∀ r, response = some r →
        w.source.Answers S ((w.sync j).service.lastIndex + 1) r)
      (hfetch : LogReader.fetch ((w.sync j).service.lastIndex + 1) response = some x)
      (hrun : (w.sync j).service.run readers (FetchStatus.logs? x) = some (service, request)) :
      Step S readers planId w { w with
        sync := Function.update w.sync j { w.sync j with
          service := service
          queue := (w.sync j).queue ++ request.toList
          sent := (w.sync j).sent ++ request.toList.flatMap SyncRequest.entries } }
  /-- A step of a new node in which nothing is fetched. -/
  | alone {w : Migration} (j : ℕ) {t : SyncSystem}
      (hstep : SyncSystem.Step [] readers (w.sync j) t) :
      Step S readers planId w { w with sync := Function.update w.sync j t }
  /-- A new node is started, for the first time or with a log that has been copied. -/
  | join {w : Migration} (j : ℕ) (n : Node) (hrole : n.role = .syncer)
      (hlog : n.log.WindowOf w.source.known)
      (hclean : Clean w.source.known planId n.log.lastIndex) :
      Step S readers planId w
        { w with sync := Function.update w.sync j (SyncSystem.start planId n) }

/-- **The runs**: nothing has been committed and nothing has been copied in the beginning. -/
inductive Reachable (S : Setup) (readers : ℕ) (planId : List UInt8) : Migration → Prop
  | start (node : ℕ → Node) (hrole : ∀ j, (node j).role = .syncer)
      (hlog : ∀ j, (node j).log.WindowOf []) :
      Reachable S readers planId ⟨Chronicle.init S, fun j => SyncSystem.start planId (node j)⟩
  | step {w w' : Migration} (h : Reachable S readers planId w) (hs : Step S readers planId w w') :
      Reachable S readers planId w'

/-- A new node takes part in a run over this log. -/
structure Copies (readers : ℕ) (planId : List UInt8) (known : List LogEntry) (s : SyncSystem) :
    Prop where
  exists_start : ∃ n : Node, n.role = .syncer ∧ n.log.WindowOf known ∧
    Clean known planId n.log.lastIndex ∧
    SyncSystem.RunsTo known readers (SyncSystem.start planId n) s

variable {readers : ℕ} {planId : List UInt8} {known known' : List LogEntry} {w w' : Migration}

theorem Copies.step (h : Copies readers planId known s)
    (hstep : SyncSystem.Step known readers s t) : Copies readers planId known t := by
  obtain ⟨n, hrole, hlog, hclean, hrun⟩ := h.exists_start
  exact ⟨n, hrole, hlog, hclean, .step hrun hstep⟩

theorem Copies.grows (h : Copies readers planId known s) (hp : known <+: known') :
    Copies readers planId known' s := by
  obtain ⟨n, hrole, hlog, hclean, hrun⟩ := h.exists_start
  exact ⟨n, hrole, hlog.grows hp, hclean.grows hlog.last_le hp, hrun.grows hp⟩

/-- **The invariant.** -/
structure Inv (S : Setup) (readers : ℕ) (planId : List UInt8) (w : Migration)
    (a : State ℕ LogEntry) : Prop where
  source : w.source.Inv S a
  numbered : w.source.Numbered S
  copies : ∀ j, Copies readers planId w.source.known (w.sync j)

/-- **Each step keeps the invariant.** -/
theorem Inv.step {a : S.Abstract} (h : w.Inv S readers planId a.1)
    (hs : Step S readers planId w w') : ∃ b : S.Abstract, w'.Inv S readers planId b.1 := by
  have hupdate : ∀ {j : ℕ} {t : SyncSystem}, Copies readers planId w.source.known t →
      Inv S readers planId { w with sync := Function.update w.sync j t } a.1 := by
    intro j t ht
    refine ⟨h.source, h.numbered, fun i => ?_⟩
    show Copies readers planId w.source.known (Function.update w.sync j t i)
    rw [Function.update_apply]
    split
    · exact ht
    · exact h.copies i
  cases hs with
  | source act hs =>
    obtain ⟨b, -, hb, hknown⟩ := h.source.step hs
    exact ⟨b, hb, h.numbered.step h.source hs, fun j => (h.copies j).grows hknown⟩
  | fetch j response x service request hresponse hfetch hrun =>
    exact ⟨a, hupdate ((h.copies j).step (.sync _ request
      (fun logs hlogs => h.source.fetch_isPrefix hresponse hfetch hlogs) hrun))⟩
  | alone j hstep => exact ⟨a, hupdate ((h.copies j).step (hstep.grows List.nil_prefix))⟩
  | join j n hrole hlog hclean => exact ⟨a, hupdate ⟨n, hrole, hlog, hclean, .refl⟩⟩

theorem Reachable.inv (h : Reachable S readers planId w) :
    ∃ a : S.Abstract, w.Inv S readers planId a.1 := by
  induction h with
  | start node hrole hlog =>
    have hcounted : Counted [] := fun k e he => by
      rw [entryAt_nil] at he
      cases he
    have hclean : ∀ k, Clean [] planId k := fun k e he => by simp at he
    exact ⟨⟨_, (refines_init S).inv⟩, Chronicle.inv_init S, ⟨fun _ _ => hcounted, hcounted⟩,
      fun j => ⟨node j, hrole j, hlog j, hclean _, .refl⟩⟩
  | step _ hs ih =>
    obtain ⟨a, ha⟩ := ih
    exact ha.step hs

end Migration

/-- **The nodes that are split off have the same log.** In every run of the old cluster and of the
new nodes, where only split commands are tagged:

* the log of each new node is a window of what the old cluster has committed;
* no assertion of `truncateLogs` and `handleSyncRequest` fails (that of `fetch` does where the old
  cluster has cut off what is asked for: there is no such step);
* any two new nodes at which the copying may be ended have the same last index, which is that of the
  split command of the plan, and the same entry wherever both have one. -/
theorem split_off_nodes_agree {readers : ℕ} {planId : List UInt8} {w : Migration}
    (h : Migration.Reachable S readers planId w)
    (hsplit : ∀ e ∈ w.source.known, ∀ tag, e.specialTag = some tag →
      tag.identifier = splitCommandType) :
    (∀ j, (w.sync j).node.log.WindowOf w.source.known ∧
      (∀ fetch, ∃ x, (w.sync j).service.run readers fetch = some x) ∧
      ∀ r rs clk, (w.sync j).queue = r :: rs →
        ∃ m, ((w.sync j).node.handleSyncRequest clk r).result = .ok m) ∧
    ∀ i j t u begin begin',
      (w.sync i).service.terminateSyncMode (w.sync i).node.log planId t = .ok begin →
      (w.sync j).service.terminateSyncMode (w.sync j).node.log planId u = .ok begin' →
      begin = begin' ∧ begin = (w.sync i).node.log.lastIndex + 1 ∧ (w.sync i).queue = [] ∧
      (∃ e, EndsAt w.source.known planId (w.sync i).node.log.lastIndex e) ∧
      ∀ k e f, (w.sync i).node.log.getEntry k = some e → (w.sync j).node.log.getEntry k = some f →
        e = f := by
  obtain ⟨a, ha⟩ := h.inv
  have hinv : ∀ j, ∃ base, (w.sync j).Inv w.source.known planId base := fun j => by
    obtain ⟨n, hrole, hlog, hclean, hrun⟩ := (ha.copies j).exists_start
    exact ⟨_, (SyncSystem.inv_start hrole hlog hclean).run ha.numbered.known hrun⟩
  refine ⟨fun j => ?_, fun i j t u begin begin' hi hj => ?_⟩
  · obtain ⟨base, hj⟩ := hinv j
    refine ⟨hj.window, fun fetch => hj.service.exists_run readers fetch, fun r rs clk hqueue => ?_⟩
    obtain ⟨m, hm, -⟩ := (hj.handleSyncRequest ha.numbered.known hqueue clk).exists_result
    exact ⟨m, hm⟩
  · obtain ⟨base, hsi⟩ := hinv i
    obtain ⟨base', hsj⟩ := hinv j
    obtain ⟨hqueue, hbegin, e, he⟩ := hsi.of_terminateSyncMode hsplit hi
    obtain ⟨-, hbegin', f, hf⟩ := hsj.of_terminateSyncMode hsplit hj
    refine ⟨?_, hbegin, hqueue, ⟨e, he⟩, fun k x y hx hy => ?_⟩
    · rw [hbegin, hbegin', he.unique hf]
    · have hx' := hsi.window.entryAt_of_getEntry hx
      rw [hsj.window.entryAt_of_getEntry hy] at hx'
      exact (Option.some.inj hx').symm

/-! ### A run -/

namespace Migration

variable {readers : ℕ} {planId : List UInt8} {c c' : Chronicle} {sync : ℕ → SyncSystem}

/-- The old cluster goes on. -/
theorem Reachable.source {acts : List Action} (h : Reachable S readers planId ⟨c, sync⟩)
    (hs : acts.foldlM (fun c act => Chronicle.step S act c) c = some c') :
    Reachable S readers planId ⟨c', sync⟩ :=
  foldlM_invariant (P := fun c => Reachable S readers planId ⟨c, sync⟩) hs h
    fun act _ _ _ hc hs => .step hc (.source act hs)

/-- A new node goes on by itself. -/
theorem Reachable.alone {j : ℕ} (h : Reachable S readers planId ⟨c, Function.update sync j s⟩)
    (hrun : SyncSystem.RunsTo [] readers s t) :
    Reachable S readers planId ⟨c, Function.update sync j t⟩ := by
  induction hrun with
  | refl => exact h
  | step _ hstep ih => simpa using Reachable.step ih (.alone j (by simpa using hstep))

end Migration

namespace Scenario

/-- The `noop` of a leader, and a split command. -/
def inherited : List LogEntry :=
  [⟨1, 1, true, 11, [], 0, none⟩, ⟨1, 2, false, 0, [1], 0, some ⟨101, [7]⟩⟩]

/-- A node is elected, and both entries are committed. -/
def parted : List Action :=
  [.run 1 (.own (.electionTimeout ⟨10, 1⟩)), .run 1 (.own (.becomeLeader ⟨11, 1⟩)),
    .run 1 (.own (.clientRequests [⟨⟨1, 2, false, 0, [1], 0, some ⟨101, [7]⟩⟩, none⟩])),
    .run 1 (.own .advanceCommitIndex)]

/-- A new node that has taken the two entries. -/
def taken : Node :=
  match (pristine.handleSyncRequest ⟨0, 1⟩ ⟨inherited, 1, 2, none⟩).result with
  | .ok m => m
  | .error _ => pristine

/-- It has copied all there is to copy. -/
def synced : SyncSystem := ⟨⟨[7], 2, true, 0, .top⟩, [], taken, inherited⟩

/-- A new node asks the leader of the old cluster. -/
theorem reachable_synced {c : Chronicle} {sync : ℕ → SyncSystem} (j : ℕ)
    (h : Migration.Reachable oneVoter 1 [7] ⟨c, sync⟩)
    (hj : sync j = SyncSystem.start [7] pristine)
    (hc : c.Answers oneVoter 1 ⟨0, "Success", 1, 2, 2, inherited⟩) :
    Migration.Reachable oneVoter 1 [7] ⟨c, Function.update sync j synced⟩ := by
  rw [← Function.update_eq_self j sync, hj] at h
  have hfetching := h.alone (t := ⟨⟨[7], 0, false, 0, .fetching⟩, [], pristine, []⟩)
    (.step .refl (.sync none none nofun rfl))
  have hfetched : Migration.Reachable oneVoter 1 [7] ⟨c, Function.update sync j
      ⟨⟨[7], 0, false, 0, .fetched inherited⟩, [], pristine, []⟩⟩ := by
    have hnext := hfetching.step (.fetch j (some ⟨0, "Success", 1, 2, 2, inherited⟩)
      (.ok, inherited) ⟨[7], 0, false, 0, .fetched inherited⟩ none
      (by simpa using hc) (by simp; rfl) (by simp; rfl))
    simpa using hnext
  have htruncated : SyncSystem.RunsTo [] 1
      ⟨⟨[7], 0, false, 0, .fetched inherited⟩, [], pristine, []⟩
      ⟨⟨[7], 0, true, 0, .truncated inherited⟩, [], pristine, []⟩ :=
    .step .refl (.sync none none nofun rfl)
  have henqueued := htruncated.step (.sync none (some ⟨inherited, 1, 2, none⟩) nofun rfl)
  have htaken := henqueued.step (.raft ⟨0, 1⟩ rfl (m := taken) rfl)
  exact hfetched.alone (htaken.step (.sync none none nofun rfl))

end Scenario

/-- Two new nodes have copied the log of a cluster of one node. -/
theorem split_off_nodes_agree_pair :
    ∃ w : Migration, Migration.Reachable oneVoter 1 [7] w ∧
      (w.sync 0).service.terminateSyncMode (w.sync 0).node.log [7] 2 = .ok 3 ∧
      (∃ e, EndsAt w.source.known [7] 2 e) ∧
      ∀ k e f, (w.sync 0).node.log.getEntry k = some e → (w.sync 1).node.log.getEntry k = some f →
        e = f := by
  have hrun : (parted.foldlM (fun c act => Chronicle.step oneVoter act c)
      (Chronicle.init oneVoter)).any (fun c => c.known = inherited ∧
        2 ≤ (c.cluster.nodes 1).commitIndex ∧
        StreamingService.GetEntries (oneVoter.config 1) (c.cluster.nodes 1).view 2 1 2 1 10
          1 2 = some ⟨0, "Success", 1, 2, 2, inherited⟩) = true := by
    decide +kernel
  obtain ⟨c, hc, hp⟩ := (Option.any_eq_true _ _).mp hrun
  obtain ⟨hknown, hcommit, hentries⟩ := of_decide_eq_true hp
  have hstart : Migration.Reachable oneVoter 1 [7]
      ⟨Chronicle.init oneVoter, fun _ => SyncSystem.start [7] pristine⟩ :=
    .start (fun _ => pristine) (fun _ => rfl) fun _ => ⟨Nat.le_refl 0, rfl⟩
  have hanswers : c.Answers oneVoter 1 ⟨0, "Success", 1, 2, 2, inherited⟩ :=
    ⟨1, by decide, _, ⟨none, rfl⟩, 2, hcommit, 1, 2, 10, 1, 2, hentries⟩
  have hpair := reachable_synced 1
    (reachable_synced 0 (hstart.source hc) rfl hanswers) rfl hanswers
  obtain ⟨-, hagree⟩ := split_off_nodes_agree hpair
    (by simp [hknown, inherited, splitCommandType])
  obtain ⟨-, -, -, hends, hsame⟩ := hagree 0 1 2 2 3 3 rfl rfl
  exact ⟨_, hpair, rfl, hends, hsame⟩

end Gringofts
