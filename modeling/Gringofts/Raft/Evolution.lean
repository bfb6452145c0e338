import Gringofts.Raft.RaftCore

/-!
# What a step can do to a node

The code of `RaftCore` is followed once, function by function, whatever the messages it is given.
Most of it does one thing: it changes registers, timers and the role, and leaves the window, the
commit index and the clients alone, but for a leader that steps down (`Node.Idles`). What the other
functions do is one case each of `Node.Handles`, and what they leave on disk where they are
interrupted is one case each of `Node.Writes`. Everything said about a step is then read off these
cases.

## Main definitions

* `Log.Rises`, `Log.Extends`, `Log.Follows` — what becomes of a log
* `Node.Stays`, `Node.Quiet`, `Node.Mute`, `Node.Rests` — what becomes of a leader, of its requests
  and of its clients
* `Node.Handles`, `Node.Writes` — what an event does

## Main results

* `Node.handle_sat` — every event but a reconfiguration
* `Node.handle_sheds`, `Node.handle_first` — what the window loses
-/

namespace Gringofts

open Outcome Log

variable {e : LogEntry} {l l' l'' : Log} {es fs : List LogEntry} {n k : Node} {id : ℕ}
  {f : Peer → Peer} {o : Act Node} {r : AppendEntriesRequest}

/-! ## Functions that write nothing -/

theorem ClusterMemberShip.initialRole_reads (m : ClusterMemberShip) (id : ℕ) :
    (m.initialRole id).Reads := reads_ofOption _ _

theorem ClusterMemberShip.isVoter_reads (m : ClusterMemberShip) (id : ℕ) : (m.isVoter id).Reads :=
  (m.initialRole_reads id).bind fun _ => reads_pure _

theorem ClusterMemberShip.isLearner_reads (m : ClusterMemberShip) (id : ℕ) :
    (m.isLearner id).Reads :=
  (m.initialRole_reads id).bind fun _ => reads_pure _

namespace Node

variable (n : Node)

theorem peerAt_reads (id : ℕ) : (n.peerAt id).Reads := reads_ofOption _ _

theorem termOfLogEntryAt_reads (j : ℕ) : (n.termOfLogEntryAt j).Reads := reads_ofOption _ _

theorem collect_reads (role : RaftRole) {value : ℕ → Act ℕ} (hv : ∀ id, (value id).Reads)
    (ids : List ℕ) : (n.collect role value ids).Reads := by
  induction ids with
  | nil => exact reads_pure _
  | cons id ids ih =>
    exact (n.members.initialRole_reads id).bind fun _ =>
      .ite ih ((hv id).bind fun _ => ih.bind fun _ => reads_pure _)

theorem contribution_reads (self : ℕ) (value : Peer → ℕ) (id : ℕ) :
    (n.contribution self value id).Reads :=
  .ite (reads_pure _) ((n.peerAt_reads id).bind fun _ => reads_pure _)

theorem middle_reads (xs : List ℕ) : (middle xs).Reads := reads_ofOption _ _

theorem getMajorityIndexofVoters_reads (ids : IdSet) : (n.getMajorityIndexofVoters ids).Reads :=
  (n.collect_reads _ (n.contribution_reads _ _) _).bind middle_reads

theorem getMajorityIndex_reads : n.getMajorityIndex.Reads := by
  have hv := n.getMajorityIndexofVoters_reads
  have hl : ∀ ids, (n.getMajorityIndexofLearners ids).Reads := fun ids =>
    (n.collect_reads _ (fun id => (n.peerAt_reads id).bind fun _ => reads_pure _) _).bind
      middle_reads
  exact .ite ((hv _).bind fun _ => (hv _).bind fun _ => reads_pure _)
    (.ite (hv _) ((hv _).bind fun _ => (hl _).bind fun _ => reads_pure _))

theorem countVotes_reads (ids : List ℕ) : (n.countVotes ids).Reads := by
  induction ids with
  | nil => exact reads_pure _
  | cons id ids ih =>
    have hvote : (n.hasVote id).Reads :=
      .ite (reads_pure _) ((n.peerAt_reads id).bind fun _ => reads_pure _)
    exact (n.members.isLearner_reads id).bind fun _ =>
      .ite (ih.bind fun _ => reads_pure _) (hvote.bind fun _ => ih.bind fun _ => reads_pure _)

theorem checkVotePass_reads : n.checkVotePass.Reads := by
  have hq : ∀ ids, (n.checkQuorumVoteofInput ids).Reads := fun ids =>
    (n.countVotes_reads _).bind fun _ => reads_pure _
  exact .ite ((hq _).bind fun _ => .ite (hq _) (reads_pure _)) (hq _)

theorem getMajorityTimeElapse_reads (clk : Clock) : (n.getMajorityTimeElapse clk).Reads := by
  have hq : ∀ ids, (n.getMajorityTimeElapseofInput clk ids).Reads := fun ids =>
    (n.collect_reads _ (n.contribution_reads _ _) _).bind fun _ =>
      (middle_reads _).bind fun _ => reads_pure _
  exact .ite ((hq _).bind fun _ => (hq _).bind fun _ => reads_pure _) (hq _)

theorem logIsOk_reads (j t : ℕ) : (n.logIsOk j t).Reads :=
  .ite (reads_pure _)
    (.ite ((n.termOfLogEntryAt_reads _).bind fun _ => reads_pure _) (reads_pure _))

end Node

/-! ## The window -/

/-- Nothing is taken out of the window, and the term does not fall. -/
structure Log.Keeps (l l' : Log) : Prop where
  term_le : l.currentTerm ≤ l'.currentTerm
  first_eq : l'.firstIndex = l.firstIndex
  entry : ∀ j e, l.getEntry j = some e → l'.getEntry j = some e

namespace Log

variable {l l' l'' : Log}

theorem Keeps.refl (l : Log) : l.Keeps l := ⟨Nat.le_refl _, rfl, fun _ _ => id⟩

theorem Keeps.trans (h : l.Keeps l') (h' : l'.Keeps l'') : l.Keeps l'' where
  term_le := h.term_le.trans h'.term_le
  first_eq := h'.first_eq.trans h.first_eq
  entry j e he := h'.entry j e (h.entry j e he)

theorem keeps_appendEntry (h : e.index = l.lastIndex + 1) : l.Keeps (l.appendEntry e h) where
  term_le := Nat.le_refl _
  first_eq := rfl
  entry j e' he := by
    change (if l.firstIndex ≤ j then (l.entries ++ [e])[j - l.firstIndex]? else none) = some e'
    rw [getEntry] at he
    split at he
    · next hj =>
      rw [if_pos hj, List.getElem?_append_left (List.getElem?_eq_some_iff.mp he).1, he]
    · cases he

end Log

/-- Only the front of the window may be cut off. -/
structure Log.Sheds (l l' : Log) : Prop where
  first_le : l.firstIndex ≤ l'.firstIndex
  entry : ∀ j e, l'.firstIndex ≤ j → l.getEntry j = some e → l'.getEntry j = some e

theorem Log.Keeps.sheds (h : l.Keeps l') : l.Sheds l' :=
  ⟨h.first_eq.ge, fun j e _ => h.entry j e⟩

theorem Log.sheds_truncatePrefix (l : Log) (k : ℕ) : l.Sheds (l.truncatePrefix k) where
  first_le := by
    rw [truncatePrefix_firstIndex]
    exact Nat.le_max_left _ _
  entry j e hj he := by rw [getEntry_truncatePrefix hj, he]

/-- The window is the same, and the term does not fall. -/
structure Log.Rises (l l' : Log) : Prop extends l.SameWindow l' where
  term_le : l.currentTerm ≤ l'.currentTerm

theorem Log.Rises.refl (l : Log) : l.Rises l := ⟨.refl l, Nat.le_refl _⟩

theorem Log.Rises.trans (h : l.Rises l') (h' : l'.Rises l'') : l.Rises l'' :=
  ⟨h.toSameWindow.trans h'.toSameWindow, h.term_le.trans h'.term_le⟩

theorem Log.Rises.keeps (h : l.Rises l') : l.Keeps l' :=
  ⟨h.term_le, h.first_eq, fun j _ he => (h.getEntry_eq j).trans he⟩

/-! ## New entries -/

/-- What is in the second log is in the first, or among the entries. -/
def Log.Draws (l : Log) (es : List LogEntry) (l' : Log) : Prop :=
  ∀ e ∈ l'.entries, e ∈ l.entries ∨ e ∈ es

theorem Log.SameWindow.draws (h : l.SameWindow l') (es : List LogEntry) : l.Draws es l' := by
  intro e he
  rw [h.entries_eq] at he
  exact Or.inl he

theorem Log.draws_truncateSuffix (l : Log) (k : ℕ) (es : List LogEntry) :
    l.Draws es (l.truncateSuffix k) := by
  intro e he
  rw [truncateSuffix] at he
  split at he
  · exact Or.inl (List.mem_of_mem_take he)
  · exact Or.inl he

theorem Log.draws_truncatePrefix (l : Log) (k : ℕ) (es : List LogEntry) :
    l.Draws es (l.truncatePrefix k) := by
  intro e he
  rw [truncatePrefix_entries] at he
  exact Or.inl (List.mem_of_mem_drop he)

theorem Log.draws_appendEntry (h : e.index = l.lastIndex + 1) (he : e ∈ es) :
    l.Draws es (l.appendEntry e h) := by
  intro e' he'
  rcases List.mem_append.mp he' with he' | he'
  · exact Or.inl he'
  · rw [List.mem_singleton.mp he']
    exact Or.inr he

theorem Log.Draws.trans (h : l.Draws es l') (h' : l'.Draws es l'') : l.Draws es l'' := by
  intro e he
  rcases h' e he with he | he
  · exact h e he
  · exact Or.inr he

/-- The window is kept, the term is the same, and what is new is among the entries. -/
structure Log.Extends (l : Log) (es : List LogEntry) (l' : Log) : Prop extends l.Keeps l' where
  term_eq : l'.currentTerm = l.currentTerm
  draws : l.Draws es l'

theorem Log.Extends.refl (l : Log) (es : List LogEntry) : l.Extends es l :=
  ⟨.refl l, rfl, fun _ => Or.inl⟩

theorem appendAll_extends (l : Log) (hes : es ⊆ fs) :
    (appendAll l es).Sat (l.Extends fs) (l.Extends fs) fun _ => True := by
  induction es generalizing l with
  | nil => exact sat_pure.mpr (.refl l fs)
  | cons e es ih =>
    rw [appendAll]
    split
    · next h =>
      have hdraws := draws_appendEntry h (hes List.mem_cons_self)
      have htrans : ∀ l', (l.appendEntry e h).Extends fs l' → l.Extends fs l' := fun l' hl' =>
        ⟨(keeps_appendEntry h).trans hl'.toKeeps, hl'.term_eq, hdraws.trans hl'.draws⟩
      refine sat_persist_bind (htrans _ (.refl _ fs)) fun _ => ?_
      exact (ih _ (List.subset_of_cons_subset hes)).mono htrans htrans fun _ => id
    · exact sat_fail.mpr trivial

theorem Log.appendEntries_extends (l : Log) (hes : es ⊆ fs) :
    (l.appendEntries es).Sat (l.Extends fs) (fun x => l.Extends fs x.1) fun _ => True := by
  rw [appendEntries.eq_def]
  split
  · exact sat_pure.mpr (.refl l fs)
  · split
    · exact sat_pure.mpr (.refl l fs)
    · exact (appendAll_extends l hes).bind fun _ h => sat_pure.mpr h

/-- The term and the front of the window are the same, and what is new is among the entries. -/
structure Log.Follows (l : Log) (es : List LogEntry) (l' : Log) : Prop where
  term_eq : l'.currentTerm = l.currentTerm
  first_eq : l'.firstIndex = l.firstIndex
  draws : l.Draws es l'

theorem Log.Follows.refl (l : Log) (es : List LogEntry) : l.Follows es l :=
  ⟨rfl, rfl, fun _ => Or.inl⟩

theorem Log.Follows.trans (h : l.Follows es l') (h' : l'.Follows es l'') : l.Follows es l'' :=
  ⟨h'.term_eq.trans h.term_eq, h'.first_eq.trans h.first_eq, h.draws.trans h'.draws⟩

theorem Log.Extends.follows (h : l.Extends es l') : l.Follows es l' :=
  ⟨h.term_eq, h.first_eq, h.draws⟩

/-- The loop over the entries of a request cuts the log at most, and what is to be appended is from
the request. -/
theorem Node.mergeEntries_sat (commitIndex index : ℕ) (es fs : List LogEntry) (l : Log) :
    (mergeEntries commitIndex index es l).Sat (l.Follows fs)
      (fun x => l.Follows fs x.1 ∧ x.2 ⊆ es) fun _ => True := by
  induction es generalizing index l with
  | nil => exact sat_pure.mpr ⟨.refl l fs, List.Subset.refl _⟩
  | cons e es ih =>
    have hskip : (mergeEntries commitIndex (index + 1) es l).Sat (l.Follows fs)
        (fun x => l.Follows fs x.1 ∧ x.2 ⊆ e :: es) fun _ => True :=
      (ih (index + 1) l).imp fun x hx => ⟨hx.1, List.subset_cons_of_subset e hx.2⟩
    have htake : ∀ l', (mergeEntries commitIndex (index + 1) es l' >>= fun x =>
        pure (x.1, e :: x.2)).Sat (l'.Follows fs) (fun x => l'.Follows fs x.1 ∧ x.2 ⊆ e :: es)
        fun _ => True := fun l' =>
      (ih (index + 1) l').bind fun x hx =>
        sat_pure.mpr ⟨hx.1, List.cons_subset_cons e hx.2⟩
    rw [mergeEntries]
    refine (reads_check _ _).sat.bind fun _ _ => ?_
    split
    · exact hskip
    · next hfirst =>
      split
      · refine (reads_ofOption _ _).sat.bind fun _ _ => ?_
        split
        · exact hskip
        · refine (reads_check _ _).sat.bind fun _ _ => ?_
          have hcut : l.Follows fs (l.truncateSuffix (e.index - 1)) :=
            ⟨truncateSuffix_currentTerm, truncateSuffix_firstIndex (by omega),
              l.draws_truncateSuffix _ _⟩
          refine sat_persist_bind hcut fun _ => ?_
          exact (htake _).mono (fun _ hw => hcut.trans hw) (fun _ hx => ⟨hcut.trans hx.1, hx.2⟩)
            fun _ => id
      · exact htake l

/-! ## Leadership -/

namespace Node

/-- What a leader knows of a peer: the next index and the match index. -/
def progress (n : Node) (id : ℕ) : Option (ℕ × ℕ) :=
  (n.peer? id).map fun p => (p.nextIndex, p.matchIndex)

theorem progress_modifyPeer (hnext : ∀ p, (f p).nextIndex = p.nextIndex)
    (hmatch : ∀ p, (f p).matchIndex = p.matchIndex) :
    (n.modifyPeer id f).progress = n.progress := by
  funext j
  by_cases hj : j = id
  · subst hj
    simp [progress, peer?, modifyPeer, Function.comp_def, hnext, hmatch]
  · simp [progress, peer?, modifyPeer, Table.find?_modify_of_ne _ _ hj]

theorem progress_mapPeers (hnext : ∀ p, (f p).nextIndex = p.nextIndex)
    (hmatch : ∀ p, (f p).matchIndex = p.matchIndex) : (n.mapPeers f).progress = n.progress := by
  funext j
  simp [progress, peer?, mapPeers, Function.comp_def, hnext, hmatch]

/-- The node keeps its office: the term does not fall, and a leader stays leader as long as the
term is the same. -/
structure Stays (n m : Node) : Prop where
  term_le : n.log.currentTerm ≤ m.log.currentTerm
  office : n.role = .leader → m.log.currentTerm = n.log.currentTerm → m.role = .leader
  role_ne : n.role ≠ .syncer → m.role ≠ .syncer

/-- A node that stays in office, and that is leader after the step only if it was so before, with
the same knowledge of its peers. -/
structure Quiet (n m : Node) : Prop extends n.Stays m where
  leader : m.role = .leader → n.role = .leader ∧ m.log.currentTerm = n.log.currentTerm ∧
    n.commitIndex ≤ m.commitIndex ∧ m.log.firstIndex = n.log.firstIndex ∧ m.progress = n.progress

variable {n m : Node}

theorem Stays.trans (h : n.Stays m) (h' : m.Stays k) : n.Stays k where
  term_le := h.term_le.trans h'.term_le
  office hr ht := by
    -- the term in between is squeezed
    have h1 := h.term_le
    have h2 := h'.term_le
    exact h'.office (h.office hr (by omega)) (by omega)
  role_ne hr := h'.role_ne (h.role_ne hr)

theorem Quiet.trans (h : n.Quiet m) (h' : m.Quiet k) : n.Quiet k where
  toStays := h.toStays.trans h'.toStays
  leader hr := by
    obtain ⟨hr', ht', hc', hf', hp'⟩ := h'.leader hr
    obtain ⟨hr, ht, hc, hf, hp⟩ := h.leader hr'
    exact ⟨hr, ht'.trans ht, hc.trans hc', hf'.trans hf, hp'.trans hp⟩

theorem stays_of_eq (hterm : m.log.currentTerm = n.log.currentTerm) (hrole : m.role = n.role) :
    n.Stays m :=
  ⟨hterm.ge, fun h _ => hrole.trans h, fun h => by rwa [hrole]⟩

theorem quiet_of_eq (hterm : m.log.currentTerm = n.log.currentTerm)
    (hfirst : m.log.firstIndex = n.log.firstIndex) (hrole : m.role = n.role)
    (hc : n.commitIndex ≤ m.commitIndex) (hp : m.progress = n.progress) : n.Quiet m :=
  ⟨stays_of_eq hterm hrole, fun h => ⟨hrole.symm.trans h, hterm, hc, hfirst, hp⟩⟩

/-- A step into another role than leader, in a higher term or from another role. -/
theorem quiet_of_not_leader (ht : n.log.currentTerm ≤ m.log.currentTerm)
    (hm : m.role ≠ .leader) (hs : n.role ≠ .syncer → m.role ≠ .syncer)
    (hn : n.role = .leader → n.log.currentTerm < m.log.currentTerm) : n.Quiet m where
  term_le := ht
  office hr heq := absurd heq (hn hr).ne'
  role_ne := hs
  leader hr := absurd hr hm

/-- No AE request is handed over that was not already. -/
def Mute (n m : Node) : Prop :=
  ∀ dst r, .appendEntries dst r ∈ m.outbox → .appendEntries dst r ∈ n.outbox

/-- Clients are answered, and no more. -/
theorem mute_of_replies {os : List Output} (ho : m.outbox = n.outbox ++ os)
    (hos : ∀ dst r, .appendEntries dst r ∉ os) : n.Mute m := by
  intro dst r h
  rw [ho] at h
  exact (List.mem_append.mp h).resolve_right (hos dst r)

theorem mute_of_eq (ho : m.outbox = n.outbox) : n.Mute m := fun _ _ h => ho ▸ h

theorem appendEntries_not_mem_replyPending (code : ℕ) (message : String) (dst : ℕ)
    (r : AppendEntriesRequest) (ps : List (ℕ × Option ℕ)) :
    .appendEntries dst r ∉ n.replyPending code message ps := by
  induction ps with
  | nil => exact List.not_mem_nil
  | cons p ps ih =>
    obtain ⟨index, handle⟩ := p
    cases handle with
    | none => exact ih
    | some handle =>
      intro h
      rcases List.mem_cons.mp h with h | h
      · cases h
      · exact ih h

/-! ## The clients that wait -/

end Node

/-- The handle that is answered, and the code. -/
def Output.reply? : Output → Option (ℕ × ℕ)
  | .reply handle code _ _ => some (handle, code)
  | _ => none

/-- Every handle of the list, answered with the code. -/
def repliesTo (code : ℕ) (ps : List (ℕ × Option ℕ)) : List (ℕ × ℕ) :=
  ps.filterMap fun p => p.2.map fun handle => (handle, code)

namespace Node

/-- The answers in the outbox of a node. -/
def replies (n : Node) : List (ℕ × ℕ) := n.outbox.filterMap Output.reply?

variable {n m : Node}

theorem filterMap_replyPending (code : ℕ) (message : String) (ps : List (ℕ × Option ℕ)) :
    (n.replyPending code message ps).filterMap Output.reply? = repliesTo code ps := by
  induction ps with
  | nil => rfl
  | cons p ps ih =>
    obtain ⟨i, handle⟩ := p
    cases handle with
    | none => simp [replyPending, repliesTo, ih]
    | some handle => simp [replyPending, repliesTo, Output.reply?, ih]

/-- **Nothing happens to the clients**, unless the node stops leading: then all of them are turned
away. -/
structure Rests (n m : Node) : Prop where
  stays : m.role = .leader → n.role = .leader ∧
    m.pendingClientRequests = n.pendingClientRequests ∧ m.replies = n.replies
  leaves : m.role ≠ .leader → n.role = .leader → m.pendingClientRequests = [] ∧
    m.replies = n.replies ++ repliesTo 301 n.pendingClientRequests
  follows : m.role ≠ .leader → n.role ≠ .leader →
    m.pendingClientRequests = n.pendingClientRequests ∧ m.replies = n.replies

theorem rests_of_eq (hrole : m.role = n.role)
    (hpending : m.pendingClientRequests = n.pendingClientRequests)
    (hreplies : m.replies = n.replies) : n.Rests m where
  stays h := ⟨hrole.symm.trans h, hpending, hreplies⟩
  leaves h h' := absurd (hrole.trans h') h
  follows _ _ := ⟨hpending, hreplies⟩

/-- Somebody who does not lead may take another role. -/
theorem rests_of_ne (hn : n.role ≠ .leader) (hm : m.role ≠ .leader)
    (hpending : m.pendingClientRequests = n.pendingClientRequests)
    (hreplies : m.replies = n.replies) : n.Rests m where
  stays h := absurd h hm
  leaves _ h := absurd h hn
  follows _ _ := ⟨hpending, hreplies⟩

theorem Rests.trans (h : n.Rests m) (h' : m.Rests k) : n.Rests k where
  stays hk := by
    obtain ⟨hm, hpending', hreplies'⟩ := h'.stays hk
    obtain ⟨hn, hpending, hreplies⟩ := h.stays hm
    exact ⟨hn, hpending'.trans hpending, hreplies'.trans hreplies⟩
  leaves hk hn := by
    by_cases hm : m.role = .leader
    · obtain ⟨-, hpending, hreplies⟩ := h.stays hm
      rw [← hpending, ← hreplies]
      exact h'.leaves hk hm
    · obtain ⟨hpending', hreplies'⟩ := h'.follows hk hm
      rw [hpending', hreplies']
      exact h.leaves hm hn
  follows hk hn := by
    have hm : m.role ≠ .leader := fun hm => hn (h.stays hm).1
    obtain ⟨hpending', hreplies'⟩ := h'.follows hk hm
    rw [hpending', hreplies']
    exact h.follows hm hn

/-! ## Idle steps -/

/-- **An idle step**: the window and the commit index are the same, a leader is left alone or steps
down, and no AE request is handed over. -/
structure Idles (n m : Node) : Prop where
  log : n.log.Rises m.log
  commit_eq : m.commitIndex = n.commitIndex
  quiet : n.Quiet m
  mute : n.Mute m
  rests : n.Rests m

theorem Idles.trans (h : n.Idles m) (h' : m.Idles k) : n.Idles k where
  log := h.log.trans h'.log
  commit_eq := h'.commit_eq.trans h.commit_eq
  quiet := h.quiet.trans h'.quiet
  mute dst r ho := h.mute dst r (h'.mute dst r ho)
  rests := h.rests.trans h'.rests

/-- Nothing that matters here has changed. -/
theorem idles_of_eq (hlog : m.log = n.log) (hrole : m.role = n.role)
    (hcommit : m.commitIndex = n.commitIndex) (hp : m.progress = n.progress)
    (hpending : m.pendingClientRequests = n.pendingClientRequests)
    (hout : m.outbox = n.outbox) : n.Idles m where
  log := hlog ▸ .refl _
  commit_eq := hcommit
  quiet := quiet_of_eq (by rw [hlog]) (by rw [hlog]) hrole hcommit.ge hp
  mute := mute_of_eq hout
  rests := rests_of_eq hrole hpending (by rw [replies, hout, replies])

theorem Idles.refl (n : Node) : n.Idles n := idles_of_eq rfl rfl rfl rfl rfl rfl

/-- A step of somebody who does not lead into another role. -/
theorem idles_of_ne (hlog : n.log.Rises m.log) (hcommit : m.commitIndex = n.commitIndex)
    (hn : n.role ≠ .leader) (hm : m.role ≠ .leader) (hs : n.role ≠ .syncer → m.role ≠ .syncer)
    (hpending : m.pendingClientRequests = n.pendingClientRequests)
    (hout : m.outbox = n.outbox) : n.Idles m where
  log := hlog
  commit_eq := hcommit
  quiet := quiet_of_not_leader hlog.term_le hm hs fun h => absurd h hn
  mute := mute_of_eq hout
  rests := rests_of_ne hn hm hpending (by rw [replies, hout, replies])

/-- A computation that is idle, also where it is interrupted. -/
def Idle (n : Node) (o : Act Node) : Prop := o.Sat n.log.Rises n.Idles fun _ => True

theorem idle_pure (h : n.Idles m) : n.Idle (pure m) := sat_pure.mpr h

theorem idle_refl : n.Idle (pure n) := idle_pure (.refl n)

theorem Idle.after (h : m.Idle o) (he : n.Idles m) : n.Idle o :=
  h.mono (fun _ hw => he.log.trans hw) (fun _ hm => he.trans hm) fun _ => id

theorem Idle.bind {f : Node → Act Node} (h : n.Idle o) (hf : ∀ m : Node, m.Idle (f m)) :
    n.Idle (o >>= f) :=
  Sat.bind h fun m hm => (hf m).after hm

theorem Idle.read {α : Type} {o : Act α} {f : α → Act Node} (h : o.Reads)
    (hf : ∀ a, n.Idle (f a)) : n.Idle (o >>= f) :=
  Sat.bind h.sat fun a _ => hf a

theorem Idle.ite {p : Prop} [Decidable p] {o' : Act Node} (h : p → n.Idle o)
    (h' : ¬ p → n.Idle o') : n.Idle (if p then o else o') :=
  Sat.ite h h'

theorem write_voteFor_idle (v : ℕ) : n.Idle (n.write (n.log.setVoteFor v)) := by
  refine sat_persist_bind ⟨⟨rfl, rfl⟩, Nat.le_refl _⟩ fun _ => sat_pure.mpr ?_
  exact ⟨⟨⟨rfl, rfl⟩, Nat.le_refl _⟩, rfl, quiet_of_eq rfl rfl rfl (Nat.le_refl _) rfl,
    mute_of_eq rfl, rests_of_eq rfl rfl rfl⟩

/-! ## Stepping down and standing -/

/-- Learners and prefollowers stay what they are, and the others become followers. -/
theorem demotedRole_cases :
    n.demotedRole = .follower ∨ n.demotedRole = .learner ∨ n.demotedRole = .preFollower := by
  rw [demotedRole]
  split
  · exact Or.inl rfl
  · next h =>
    rw [not_and_or, not_not, not_not] at h
    exact Or.inr h

theorem demotedRole_ne : n.demotedRole ≠ .leader := by
  rcases n.demotedRole_cases with h | h | h <;> rw [h] <;> exact nofun

theorem demotedRole_ne_syncer : n.demotedRole ≠ .syncer := by
  rcases n.demotedRole_cases with h | h | h <;> rw [h] <;> exact nofun

/-- Stepping down, before the clients are turned away: the registers are written, and a leader
steps down only into a higher term. -/
theorem adoptTerm_sat (prevRole : RaftRole) (t : ℕ) :
    (n.adoptTerm prevRole t).Sat n.log.Rises
      (fun m => ∃ l i, m = { n with log := l, leaderId := i } ∧ n.log.Rises l ∧
        (prevRole = .leader → n.log.currentTerm < l.currentTerm)) fun _ => True := by
  rw [adoptTerm]
  split
  · next hlt =>
    have hrises : n.log.Rises (n.log.setCurrentTerm t) := ⟨⟨rfl, rfl⟩, hlt.le⟩
    refine (sat_persist_bind hrises fun _ => sat_pure.mpr rfl).bind ?_
    rintro m rfl
    have hvote : n.log.Rises ((n.log.setCurrentTerm t).setVoteFor 0) := ⟨⟨rfl, rfl⟩, hlt.le⟩
    exact sat_persist_bind hvote fun _ =>
      sat_pure.mpr ⟨_, 0, rfl, hvote, fun _ => hlt⟩
  · refine sat_check_bind (fun _ => trivial) fun hprev => ?_
    refine (reads_check _ _).sat.bind fun _ _ => ?_
    -- in the same term only somebody who is standing steps down
    refine sat_pure.mpr ⟨n.log, n.leaderId, rfl, .refl _, fun hr => ?_⟩
    rw [hr] at hprev
    rcases hprev with h | h <;> cases h

/-- Who steps down does not lead, and nobody waits at it. -/
theorem stepDown_sat (clk : Clock) (t : ℕ) :
    (n.stepDown clk t).Sat n.log.Rises (fun m => n.Idles m ∧ m.role ≠ .leader) fun _ => True := by
  refine (reads_check _ _).sat.bind fun _ _ => ?_
  refine Sat.bind (adoptTerm_sat (n := { n with role := n.demotedRole }) n.role t) ?_
  rintro _ ⟨l, i, rfl, hl, hhigher⟩
  have hne : n.demotedRole ≠ .leader := demotedRole_ne
  have hquiet : ∀ m : Node, m.log = l → m.role = n.demotedRole → n.Quiet m := by
    rintro m rfl hm
    exact quiet_of_not_leader hl.term_le (hm ▸ hne) (fun _ => hm ▸ demotedRole_ne_syncer) hhigher
  by_cases hlead : n.role = .leader
  · rw [if_pos hlead]
    refine sat_pure.mpr ⟨⟨hl, rfl, hquiet _ rfl rfl, mute_of_replies rfl fun _ _ =>
      appendEntries_not_mem_replyPending _ _ _ _ _, fun h => absurd h hne, fun _ _ => ⟨rfl, ?_⟩,
      fun _ h => absurd hlead h⟩, hne⟩
    rw [replies, dropPending, updateElectionTimePoint, List.filterMap_append,
      filterMap_replyPending]
    rfl
  · rw [if_neg hlead]
    exact sat_pure.mpr ⟨idles_of_ne hl rfl hlead hne (fun _ => demotedRole_ne_syncer) rfl
      rfl, hne⟩

theorem stepDown_idle (clk : Clock) (t : ℕ) : n.Idle (n.stepDown clk t) :=
  (stepDown_sat clk t).imp fun _ hm => hm.1

theorem standForElection_idle (clk : Clock) (hne : n.role ≠ .leader) :
    n.Idle (n.standForElection >>= fun m => pure (m.scheduleVotes clk)) := by
  refine .bind (.bind ?_ fun m => write_voteFor_idle _) fun m => idle_pure ?_
  · have hrises : n.log.Rises (n.log.setCurrentTerm (n.log.currentTerm + 1)) :=
      ⟨⟨rfl, rfl⟩, Nat.le_succ _⟩
    exact sat_persist_bind hrises fun _ => sat_pure.mpr
      (idles_of_ne hrises rfl hne nofun (fun _ => nofun) rfl rfl)
  · exact idles_of_eq rfl rfl rfl (progress_mapPeers (fun _ => rfl) fun _ => rfl) rfl rfl

theorem becomeCandidate_idle (clk : Clock) : n.Idle (n.becomeCandidate clk) := by
  refine .ite (fun _ => idle_refl) fun hr => .read n.checkVotePass_reads fun _ =>
    .ite (fun _ => standForElection_idle clk fun hlead => ?_) fun _ => idle_refl
  rw [not_not.mp hr] at hlead
  cases hlead

theorem electionTimeout_idle (cfg : RaftConfig) (clk : Clock) :
    n.Idle (n.electionTimeout cfg clk) := by
  refine .ite (fun _ => idle_refl) fun hr => .ite (fun _ => idle_refl) fun _ => ?_
  have hne : n.role ≠ .leader := fun h => hr (Or.inl h)
  refine .ite (fun _ => idle_pure ?_) fun _ => standForElection_idle clk hne
  exact idles_of_ne (.refl _) rfl hne nofun (fun _ => nofun) rfl rfl

theorem leadershipTimeout_idle (cfg : RaftConfig) (clk : Clock) :
    n.Idle (n.leadershipTimeout cfg clk) :=
  .ite (fun _ => idle_refl) fun _ => .read (n.getMajorityTimeElapse_reads clk) fun _ =>
    .ite (fun _ => idle_refl) fun _ => stepDown_idle clk _

/-! ## Sending -/

/-- Only the timers of a peer and its switch for bulk data change. -/
theorem modifyPeer_idles (hnext : ∀ p, (f p).nextIndex = p.nextIndex)
    (hmatch : ∀ p, (f p).matchIndex = p.matchIndex) : n.Idles (n.modifyPeer id f) :=
  idles_of_eq rfl rfl rfl (progress_modifyPeer hnext hmatch) rfl rfl

theorem requestVoteTo_idle (clk : Clock) (ids : List ℕ) : n.Idle (requestVoteTo clk ids n) := by
  induction ids generalizing n with
  | nil => exact idle_refl
  | cons id ids ih =>
    refine .read (n.peerAt_reads id) fun _ => .read (n.members.isVoter_reads id) fun _ =>
      .ite (fun _ => ih) fun _ => .ite (fun _ => ih) fun _ =>
        .read (n.termOfLogEntryAt_reads _) fun t => ih.after ?_
    have hsend : n.Idles (n.send (.requestVote id
        { term := n.log.currentTerm, candidateId := n.selfId, lastLogIndex := n.log.lastIndex,
          lastLogTerm := t, prevote := n.role = .preCandidate })) := by
      refine ⟨.refl _, rfl, quiet_of_eq rfl rfl rfl (Nat.le_refl _) rfl,
        mute_of_replies rfl (by simp), rests_of_eq rfl rfl ?_⟩
      rw [replies, send, List.filterMap_append]
      exact List.append_nil _
    exact hsend.trans (modifyPeer_idles (fun _ => rfl) fun _ => rfl)

/-- The request is one for the state that the peer is known to be in: it starts at the next index,
where the previous index lies in the window it carries its term, and it brings what is in the
log. -/
def Sends (n : Node) (dst : ℕ) (r : AppendEntriesRequest) : Prop :=
  r.term = n.log.currentTerm ∧ r.entries ⊆ n.log.entries ∧
    ∃ x, n.progress dst = some x ∧ r.prevLogIndex = x.1 - 1 ∧
      (n.log.firstIndex ≤ r.prevLogIndex → r.prevLogIndex ≤ n.log.lastIndex →
        n.log.getTerm r.prevLogIndex = some r.prevLogTerm)

theorem entriesFor_subset (cfg : RaftConfig) (segmentLast : ℕ → ℕ) (p : Peer) (suppress : Bool) :
    (n.entriesFor cfg segmentLast p suppress).Sat (fun _ => False) (· ⊆ n.log.entries)
      fun _ => True := by
  rw [entriesFor]
  split
  · exact sat_pure.mpr (List.nil_subset _)
  split
  · exact (reads_check _ _).sat.bind fun _ _ =>
      sat_pure.mpr (List.nil_subset _)
  · refine sat_pure.mpr fun e he => ?_
    exact List.mem_of_mem_drop ((n.log.getEntries_isPrefix _ _ _ _ _).subset he)

theorem buildAppendEntries_sends (cfg : RaftConfig) (segmentLast : ℕ → ℕ) {p : Peer}
    (hp : n.peer? id = some p) :
    (n.buildAppendEntries cfg segmentLast p).Sat (fun _ => False) (fun x => n.Sends id x.1)
      fun _ => True := by
  have hprogress : n.progress id = some (p.nextIndex, p.matchIndex) := by
    rw [progress, hp]
    rfl
  have hprev : (n.prevLogTermFor p).Sat (fun _ => False) (fun x => n.log.firstIndex ≤
      p.nextIndex - 1 → p.nextIndex - 1 ≤ n.log.lastIndex →
        n.log.getTerm (p.nextIndex - 1) = some x.1) fun _ => True := by
    rw [prevLogTermFor]
    split
    · next hout => exact sat_pure.mpr fun _ _ => by omega
    · refine Sat.bind (R := fun t => n.log.getTerm (p.nextIndex - 1) = some t)
        (sat_ofOption.mpr ⟨fun _ h => h, fun _ => trivial⟩) fun t ht => ?_
      exact sat_pure.mpr fun _ _ => ht
  exact hprev.bind fun _ hx => (entriesFor_subset cfg segmentLast p _).bind fun _ hes =>
    sat_pure.mpr ⟨rfl, hes, _, hprogress, rfl, hx⟩

/-- What sending AE requests leads to: the requests are handed over, and nothing else that matters
here changes. -/
structure Dispatches (n m : Node) : Prop where
  log_eq : m.log = n.log
  role_eq : m.role = n.role
  commit_eq : m.commitIndex = n.commitIndex
  progress_eq : m.progress = n.progress
  pending_eq : m.pendingClientRequests = n.pendingClientRequests
  replies_eq : m.replies = n.replies
  outbox : ∀ dst r, .appendEntries dst r ∈ m.outbox →
    .appendEntries dst r ∈ n.outbox ∨ n.Sends dst r

theorem Dispatches.refl (n : Node) : n.Dispatches n :=
  ⟨rfl, rfl, rfl, rfl, rfl, rfl, fun _ _ => Or.inl⟩

theorem Dispatches.sends_iff (h : n.Dispatches m) {dst : ℕ} : m.Sends dst r ↔ n.Sends dst r := by
  rw [Sends, Sends, h.log_eq, h.progress_eq]

theorem Dispatches.trans (h : n.Dispatches m) (h' : m.Dispatches k) : n.Dispatches k where
  log_eq := h'.log_eq.trans h.log_eq
  role_eq := h'.role_eq.trans h.role_eq
  commit_eq := h'.commit_eq.trans h.commit_eq
  progress_eq := h'.progress_eq.trans h.progress_eq
  pending_eq := h'.pending_eq.trans h.pending_eq
  replies_eq := h'.replies_eq.trans h.replies_eq
  outbox dst r ho := by
    rcases h'.outbox dst r ho with ho | ho
    · exact h.outbox dst r ho
    · exact Or.inr (h.sends_iff.mp ho)

theorem Dispatches.quiet (h : n.Dispatches m) : n.Quiet m :=
  quiet_of_eq (by rw [h.log_eq]) (by rw [h.log_eq]) h.role_eq h.commit_eq.ge h.progress_eq

theorem appendEntriesTo_sat (cfg : RaftConfig) (clk : Clock) (segmentLast : ℕ → ℕ)
    (ids : List ℕ) :
    (appendEntriesTo cfg clk segmentLast ids n).Sat (fun _ => False) n.Dispatches
      fun _ => True := by
  induction ids generalizing n with
  | nil => exact sat_pure.mpr (.refl n)
  | cons id ids ih =>
    refine Sat.bind (R := fun p => n.peer? id = some p)
      (sat_ofOption.mpr ⟨fun _ h => h, fun _ => trivial⟩) fun p hp => ?_
    split
    · exact ih
    · refine (buildAppendEntries_sends cfg segmentLast hp).bind fun x hx => ih.imp fun m hm => ?_
      refine Dispatches.trans ?_ hm
      refine ⟨rfl, rfl, rfl, ?_, rfl, ?_, fun dst r ho => ?_⟩
      · refine progress_modifyPeer ?_ ?_ <;> exact fun _ => rfl
      · rw [replies, modifyPeer, send, List.filterMap_append]
        exact List.append_nil _
      · rcases List.mem_append.mp ho with ho | ho
        · exact Or.inl ho
        · cases List.mem_singleton.mp ho
          exact Or.inr hx

/-! ## Voting -/

theorem handleRequestVoteResponse_idle (clk : Clock) (r : RequestVoteResponse) :
    n.Idle (n.handleRequestVoteResponse clk r) :=
  .ite (fun _ => idle_refl) fun _ => .ite (fun _ => stepDown_idle clk _) fun _ =>
    idle_pure (modifyPeer_idles (fun _ => rfl) fun _ => rfl)

theorem receiveRequestVoteResponse_idle (cfg : RaftConfig) (clk : Clock) (peerId : ℕ)
    (r : Option RequestVoteResponse) :
    n.Idle (n.receiveRequestVoteResponse cfg clk peerId r) := by
  rw [receiveRequestVoteResponse]
  split
  · exact idle_refl
  · cases r with
    | none => exact idle_pure (modifyPeer_idles (fun _ => rfl) fun _ => rfl)
    | some r =>
      refine (handleRequestVoteResponse_idle clk r).after ?_
      refine (modifyPeer_idles ?_ ?_).trans (modifyPeer_idles ?_ ?_) <;> exact fun _ => rfl

theorem decideVote_sat (clk : Clock) (r : RequestVoteRequest) (t : ℕ) :
    (n.decideVote clk r t).Sat n.log.Rises (fun x => n.Idles x.1) fun _ => True := by
  refine (n.termOfLogEntryAt_reads _).sat.bind fun _ _ => ?_
  split
  · exact sat_pure.mpr (.refl n)
  · split
    · refine Sat.bind (write_voteFor_idle r.candidateId) fun m hm => ?_
      exact sat_pure.mpr (hm.trans (idles_of_eq rfl rfl rfl rfl rfl rfl))
    · exact sat_pure.mpr (.refl n)

theorem handleRequestVoteRequest_sat (clk : Clock) (r : RequestVoteRequest) :
    (n.handleRequestVoteRequest clk r).Sat n.log.Rises (fun x => n.Idles x.1)
      fun _ => True := by
  rw [handleRequestVoteRequest]
  split
  · exact sat_pure.mpr (.refl n)
  refine (n.members.isLearner_reads _).sat.bind fun _ _ => ?_
  split
  · exact sat_pure.mpr (.refl n)
  split
  · exact sat_pure.mpr (.refl n)
  have hdown : n.Idle (n.stepDownForVote clk r) :=
    .ite (fun _ => stepDown_idle clk _) fun _ => idle_refl
  refine Sat.bind hdown fun m hm => Sat.bind
    (R := fun x : Node × RequestVoteResponse => n.Idles x.1) ?_ fun x hx =>
      sat_pure.mpr hx
  exact (decideVote_sat clk r _).mono (fun w hw => hm.log.trans hw) (fun x hx => hm.trans hx)
    fun _ => id

/-! ## Following -/

/-- What an AE request does to a node that has stepped down for it. -/
structure Obeys (n : Node) (r : AppendEntriesRequest) (m : Node) : Prop where
  log : n.log.Follows r.entries m.log
  commit_le : n.commitIndex ≤ m.commitIndex
  role_eq : m.role = n.role
  progress_eq : m.progress = n.progress
  pending_eq : m.pendingClientRequests = n.pendingClientRequests
  outbox_eq : m.outbox = n.outbox

theorem Obeys.quiet (h : n.Obeys r m) : n.Quiet m :=
  quiet_of_eq h.log.term_eq h.log.first_eq h.role_eq h.commit_le h.progress_eq

/-- Who has stepped down for an AE request does not lead, unless it takes the sender for its
leader. -/
theorem stepDownForLeader_sat (clk : Clock) (r : AppendEntriesRequest) :
    (n.stepDownForLeader clk r).Sat n.log.Rises
      (fun m => n.Idles m ∧ (m.role = .leader → m = n)) fun _ => True :=
  .ite (fun _ => (stepDown_sat clk _).imp fun _ hm => ⟨hm.1, fun h => absurd h hm.2⟩)
    fun _ => sat_pure.mpr ⟨.refl n, fun _ => rfl⟩

theorem hail_sat (leaderId : ℕ) :
    (n.hail leaderId).Sat (fun _ => False)
      (fun m => n.Idles m ∧ m.role = n.role ∧ (n.leaderId = 0 ∨ n.leaderId = leaderId))
      fun _ => True := by
  rw [hail]
  split
  · next hzero =>
    exact sat_pure.mpr ⟨idles_of_eq rfl rfl rfl rfl rfl rfl, rfl, Or.inl hzero⟩
  · exact sat_check_bind (fun _ => trivial) fun hid =>
      sat_pure.mpr ⟨.refl n, rfl, Or.inr hid⟩

theorem applyEntries_sat (r : AppendEntriesRequest) :
    (n.applyEntries r).Sat (n.log.Follows r.entries) (n.Obeys r) fun _ => True := by
  refine (mergeEntries_sat _ _ _ r.entries _).bind fun x hx => ?_
  have happ := (appendEntries_extends x.1 hx.2).mono (fun _ hl => hx.1.trans hl.follows)
    (fun _ hy => hx.1.trans hy.follows) fun _ => id
  refine happ.bind fun y hy => (reads_check _ _).sat.bind fun _ _ => ?_
  exact sat_pure.mpr ⟨hy, Nat.le_refl _, rfl, rfl, rfl, rfl⟩

theorem followCommit_obeys (h : n.Obeys r m) :
    (m.followCommit r).Sat (fun _ => False) (n.Obeys r) fun _ => True := by
  rw [followCommit]
  split
  · next hlt =>
    exact (reads_check _ _).sat.bind fun _ _ =>
      sat_pure.mpr { h with commit_le := h.commit_le.trans hlt.le }
  · exact sat_pure.mpr h

/-- Once the node has stepped down, the rest of an AE request leaves its term. -/
theorem acceptOrReject_sat (clk : Clock) (r : AppendEntriesRequest) :
    (n.acceptOrReject clk r).Sat (n.log.Follows r.entries) (fun x => n.Obeys r x.1)
      fun _ => True := by
  refine (n.logIsOk_reads _ _).sat.bind fun _ _ => ?_
  split
  · exact sat_pure.mpr ⟨.refl _ _, Nat.le_refl _, rfl, rfl, rfl, rfl⟩
  · refine (applyEntries_sat r).bind fun m hm => ?_
    refine ((followCommit_obeys hm).mono (fun _ => False.elim) (fun _ => id) fun _ => id).bind
      fun k hk => sat_pure.mpr { hk with }

/-! ## Leading -/

/-- What a leader does with an AE response: the record of one peer changes. -/
structure Records (n : Node) (r : AppendEntriesResponse) (m : Node) : Prop where
  leader : n.role = .leader
  term_eq : r.savedTerm = n.log.currentTerm
  log_eq : m.log = n.log
  role_eq : m.role = n.role
  commit_eq : m.commitIndex = n.commitIndex
  pending_eq : m.pendingClientRequests = n.pendingClientRequests
  outbox_eq : m.outbox = n.outbox
  other : ∀ id, id ≠ r.id → m.progress id = n.progress id
  /-- The match index is the one of a success, nothing, or the old one. -/
  match_cases : ∀ x, m.progress r.id = some x → (r.success = true ∧ x.2 = r.matchIndex) ∨
    x.2 = 0 ∨ ∃ y, n.progress r.id = some y ∧ x.2 = y.2

/-- The match index of a peer after a response. -/
theorem peerAfterResponse_match (cfg : RaftConfig) (r : AppendEntriesResponse) (p : Peer) :
    (n.peerAfterResponse cfg r p).Sat (fun _ => False)
      (fun p' => (r.success = true ∧ p'.matchIndex = r.matchIndex) ∨ p'.matchIndex = 0 ∨
        p'.matchIndex = p.matchIndex) fun _ => True := by
  rw [peerAfterResponse]
  split
  · next hs =>
    exact (reads_check _ _).sat.bind fun _ _ => sat_pure.mpr (Or.inl ⟨hs, rfl⟩)
  split
  · exact sat_pure.mpr (Or.inr (Or.inl rfl))
  split
  · exact sat_pure.mpr (Or.inr (Or.inl rfl))
  · exact (reads_check _ _).sat.bind fun _ _ =>
      sat_pure.mpr (Or.inr (Or.inr rfl))

theorem handleAppendEntriesResponse_sat (cfg : RaftConfig) (clk : Clock)
    (r : AppendEntriesResponse) :
    (n.handleAppendEntriesResponse cfg clk r).Sat n.log.Rises
      (fun m => n.Idles m ∨ n.Records r m) fun _ => True := by
  rw [handleAppendEntriesResponse]
  split
  · exact sat_pure.mpr (Or.inl (.refl n))
  next hterm =>
  refine sat_check_bind (fun _ => trivial) fun hlead => ?_
  split
  · exact Sat.imp (stepDown_idle clk _) fun _ => Or.inl
  split
  · exact sat_pure.mpr (Or.inl (.refl n))
  next p hp =>
  split
  · exact sat_pure.mpr (Or.inl (.refl n))
  refine ((peerAfterResponse_match cfg r p).mono (fun _ => False.elim) (fun _ => id)
    fun _ => id).bind fun p' hp' => sat_pure.mpr (Or.inr ?_)
  refine ⟨hlead, (not_not.mp hterm).symm, rfl, rfl, rfl, rfl, rfl, fun id hid => ?_, fun x hx => ?_⟩
  · simp [progress, peer?, modifyPeer, Table.find?_modify_of_ne _ _ hid]
  · have hfind : n.members.peers.find? r.id = some p := hp
    have hx : (p'.nextIndex, p'.matchIndex) = x := by
      simpa [progress, peer?, modifyPeer, hfind] using hx
    rw [← hx]
    exact hp'.imp_right fun h => h.imp_right fun h =>
      ⟨(p.nextIndex, p.matchIndex), by rw [progress, hp]; rfl, h⟩

theorem receiveAppendEntriesResponse_sat (cfg : RaftConfig) (clk : Clock) (peerId : ℕ)
    (r : Option AppendEntriesResponse) :
    (n.receiveAppendEntriesResponse cfg clk peerId r).Sat n.log.Rises
      (fun m => n.Idles m ∨ ∃ q, r = some q ∧ n.Records q m) fun _ => True := by
  rw [receiveAppendEntriesResponse]
  split
  · exact sat_pure.mpr (Or.inl (.refl n))
  cases r with
  | none =>
    refine sat_pure.mpr (Or.inl ?_)
    refine (modifyPeer_idles ?_ ?_).trans (modifyPeer_idles ?_ ?_) <;> exact fun _ => rfl
  | some r =>
    -- the timers of the peer do not matter
    refine (handleAppendEntriesResponse_sat cfg clk r).imp fun m hm => ?_
    rcases hm with hm | hm
    · refine Or.inl (Idles.trans ?_ hm)
      refine (modifyPeer_idles ?_ ?_).trans (modifyPeer_idles ?_ ?_) <;> exact fun _ => rfl
    · obtain ⟨hlead, hterm, hlog, hrole, hcommit, hpending, hout, hother, hmatch⟩ := hm
      rw [progress_modifyPeer, progress_modifyPeer] at hother hmatch
      · exact Or.inr ⟨r, rfl, hlead, hterm, hlog, hrole, hcommit, hpending, hout, hother, hmatch⟩
      all_goals exact fun _ => rfl

/-- What becoming leader leads to: the `noop` is appended, and no match is known. -/
structure Wins (n : Node) (cfg : RaftConfig) (clk : Clock) (m : Node) : Prop where
  candidate : n.role = .candidate
  log_eq : m.log = n.log.appendEntry (n.noopEntry cfg clk) rfl
  role_eq : m.role = .leader
  commit_eq : m.commitIndex = n.commitIndex
  pending_eq : m.pendingClientRequests = n.pendingClientRequests
  outbox_eq : m.outbox = n.outbox
  match_eq : ∀ id x, m.progress id = some x → x.2 = 0

/-! ## Every event -/

/-- **What an event does.** -/
inductive Handles (cfg : RaftConfig) (n : Node) : Event → Node → Prop
  | idles {ev : Event} {m : Node} (h : n.Idles m) : Handles cfg n ev m
  | dispatches {clk : Clock} {segmentLast : ℕ → ℕ} {m : Node} (leader : n.role = .leader)
      (h : n.Dispatches m) : Handles cfg n (.appendEntries clk segmentLast) m
  | obeys {clk : Clock} {r : AppendEntriesRequest} {k m : Node} (h : n.Idles k)
      (hleader : k.role = .leader → n.leaderId = 0 ∨ n.leaderId = r.leaderId)
      (h' : k.Obeys r m) : Handles cfg n (.appendEntriesRequest clk r) m
  | records {clk : Clock} {peerId : ℕ} {r : AppendEntriesResponse} {m : Node}
      (h : n.Records r m) : Handles cfg n (.appendEntriesResponse clk peerId (some r)) m
  | refuses {cs : List ClientRequest} (role_ne : n.role ≠ .leader) :
      Handles cfg n (.clientRequests cs)
        { n with
          outbox := n.outbox ++
            n.replyPending 301 "NotLeaderAnyMore" (cs.map ClientRequest.pending) }
  | takes {cs : List ClientRequest} {l : Log} (leader : n.role = .leader)
      (h : n.log.Extends
        ((selectRequests n.log.currentTerm n.log.lastIndex cs).map ClientRequest.entry) l) :
      Handles cfg n (.clientRequests cs)
        { n with
          log := l
          pendingClientRequests := n.pendingClientRequests ++
            (selectRequests n.log.currentTerm n.log.lastIndex cs).map ClientRequest.pending }
  | commits {k : ℕ} (leader : n.role = .leader) (commit_lt : n.commitIndex < k) :
      Handles cfg n .advanceCommitIndex
        { n with
          commitIndex := k
          outbox := n.outbox ++ replyPending { n with commitIndex := k } 200 "Success"
            (splitPending k n.pendingClientRequests).1
          pendingClientRequests := (splitPending k n.pendingClientRequests).2 }
  | wins {clk : Clock} {m : Node} (h : n.Wins cfg clk m) : Handles cfg n (.becomeLeader clk) m
  | truncates {k : ℕ} (hk : k ≤ n.commitIndex) :
      Handles cfg n (.truncatePrefix k) { n with log := n.log.truncatePrefix k }

/-- **What an event leaves on disk**, also where it is interrupted. -/
inductive Writes (cfg : RaftConfig) (n : Node) : Event → Log → Prop
  | registers {ev : Event} {l : Log} (h : n.log.Rises l) : Writes cfg n ev l
  | obeys {clk : Clock} {r : AppendEntriesRequest} {l : Log}
      (first_eq : l.firstIndex = n.log.firstIndex) (draws : n.log.Draws r.entries l) :
      Writes cfg n (.appendEntriesRequest clk r) l
  | takes {cs : List ClientRequest} {l : Log} (leader : n.role = .leader)
      (h : n.log.Extends
        ((selectRequests n.log.currentTerm n.log.lastIndex cs).map ClientRequest.entry) l) :
      Writes cfg n (.clientRequests cs) l
  | wins {clk : Clock} (candidate : n.role = .candidate) :
      Writes cfg n (.becomeLeader clk) (n.log.appendEntry (n.noopEntry cfg clk) rfl)
  | truncates {k : ℕ} (hk : k ≤ n.commitIndex) :
      Writes cfg n (.truncatePrefix k) (n.log.truncatePrefix k)

section Handlers

variable (cfg : RaftConfig) (clk : Clock)

theorem appendEntries_handles (segmentLast : ℕ → ℕ) :
    (n.appendEntries cfg clk segmentLast).Sat (fun _ => False)
      (n.Handles cfg (.appendEntries clk segmentLast)) fun _ => True := by
  rw [appendEntries]
  split
  · exact sat_pure.mpr (.idles (.refl n))
  · next hr =>
    exact (appendEntriesTo_sat cfg clk segmentLast _).imp fun m hm =>
      .dispatches (not_not.mp hr) hm

theorem handleAppendEntriesRequest_handles (r : AppendEntriesRequest) :
    (n.handleAppendEntriesRequest clk r).Sat (n.Writes cfg (.appendEntriesRequest clk r))
      (fun x => n.Handles cfg (.appendEntriesRequest clk r) x.1) fun _ => True := by
  refine (n.members.isVoter_reads _).sat.bind fun _ _ => ?_
  split
  · exact sat_pure.mpr (.idles (.refl n))
  split
  · exact sat_pure.mpr (.idles (.refl n))
  split
  · exact sat_pure.mpr (.idles (.refl n))
  refine Sat.bind ((stepDownForLeader_sat clk r).mono (fun _ => .registers) (fun _ => id)
    fun _ => id) ?_
  rintro m ⟨hm, hsame⟩
  refine Sat.bind ((hail_sat r.leaderId).mono (fun _ => False.elim) (fun _ => id)
    fun _ => id) ?_
  rintro k ⟨hk, hrole, hid⟩
  have htimer : m.Idles (m.updateElectionTimePoint clk) := idles_of_eq rfl rfl rfl rfl rfl rfl
  have hidle : n.Idles k := hm.trans (htimer.trans hk)
  refine Sat.bind ((acceptOrReject_sat clk r).mono (fun l hl => ?_) (fun _ => id)
    fun _ => id) fun x hx => sat_pure.mpr (.obeys hidle (fun hlead => ?_) hx)
  · exact .obeys (hl.first_eq.trans hidle.log.first_eq)
      ((hidle.log.draws _).trans hl.draws)
  · rw [← hsame (hrole.symm.trans hlead)]
    exact hid

theorem handleClientRequests_handles (cs : List ClientRequest) :
    (n.handleClientRequests cs).Sat (n.Writes cfg (.clientRequests cs))
      (n.Handles cfg (.clientRequests cs)) fun _ => True := by
  rw [handleClientRequests]
  split
  · next hr => exact sat_pure.mpr (.refuses hr)
  · next hr =>
    refine ((n.log.appendEntries_extends (List.Subset.refl _)).mono
      (fun _ => .takes (not_not.mp hr)) (fun _ => id) fun _ => id).bind fun x hx => ?_
    exact sat_pure.mpr (.takes (not_not.mp hr) hx)

theorem advanceCommitIndex_handles :
    n.advanceCommitIndex.Sat (fun _ => False) (n.Handles cfg .advanceCommitIndex)
      fun _ => True := by
  rw [advanceCommitIndex]
  split
  · exact sat_pure.mpr (.idles (.refl n))
  next hr =>
  refine n.getMajorityIndex_reads.sat.bind fun k _ => ?_
  split
  · exact sat_pure.mpr (.idles (.refl n))
  next hk =>
  refine (n.termOfLogEntryAt_reads k).sat.bind fun _ _ => ?_
  split
  · exact sat_pure.mpr (.idles (.refl n))
  · exact (reads_check _ _).sat.bind fun _ _ =>
      sat_pure.mpr (.commits (not_not.mp hr) (Nat.not_le.mp hk))

theorem becomeLeader_handles :
    (n.becomeLeader cfg clk).Sat (n.Writes cfg (.becomeLeader clk))
      (n.Handles cfg (.becomeLeader clk)) fun _ => True := by
  rw [becomeLeader]
  split
  · exact sat_pure.mpr (.idles (.refl n))
  next hr =>
  have hcand := not_not.mp hr
  refine n.checkVotePass_reads.sat.bind fun _ _ => ?_
  split
  · refine sat_persist_bind (.wins hcand) fun _ => sat_pure.mpr (.wins ?_)
    refine ⟨hcand, rfl, rfl, rfl, rfl, rfl, fun id x hx => ?_⟩
    rw [progress, Option.map_eq_some_iff] at hx
    obtain ⟨p, hp, rfl⟩ := hx
    rw [peer?, mapPeers, Table.find?_map, Option.map_eq_some_iff] at hp
    obtain ⟨q, -, rfl⟩ := hp
    rfl
  · exact sat_pure.mpr (.idles (.refl n))

theorem truncatePrefix_sat (k : ℕ) :
    (n.truncatePrefix k).Sat (fun l => k ≤ n.commitIndex ∧ l = n.log.truncatePrefix k)
      (fun m => k ≤ n.commitIndex ∧ m = { n with log := n.log.truncatePrefix k })
      fun _ => True := by
  refine sat_check_bind (fun _ => trivial) fun hk => ?_
  exact sat_persist_bind ⟨hk, rfl⟩ fun _ => sat_pure.mpr ⟨hk, rfl⟩

/-- **Every event but a reconfiguration**, at a node that is not being synchronised. -/
theorem handle_sat {ev : Event} (hs : ∀ clk r, ev = .syncRequest clk r → n.role ≠ .syncer)
    (hconf : ∀ clk selfId info, ev ≠ .reconfigureRequest clk selfId info) :
    (n.handle cfg ev).Sat (Writes cfg { n with outbox := [] } ev)
      (fun x => Handles cfg { n with outbox := [] } ev x.1) fun _ => True := by
  have hsilent : ∀ {o : Act Node}, o.Sat (Writes cfg { n with outbox := [] } ev)
      (Handles cfg { n with outbox := [] } ev) (fun _ => True) →
      (o >>= fun m => pure (m, (none : Option Answer))).Sat (Writes cfg { n with outbox := [] } ev)
        (fun x => Handles cfg { n with outbox := [] } ev x.1) fun _ => True := fun h =>
    h.bind fun m hm => sat_pure.mpr hm
  have hidle : ∀ {o : Act Node}, Idle { n with outbox := [] } o →
      (o >>= fun m => pure (m, (none : Option Answer))).Sat (Writes cfg { n with outbox := [] } ev)
        (fun x => Handles cfg { n with outbox := [] } ev x.1) fun _ => True := fun h =>
    hsilent (Sat.mono h (fun _ => .registers) (fun _ => .idles) fun _ => id)
  cases ev with
  | appendEntries clk segmentLast =>
    exact hsilent ((appendEntries_handles cfg clk segmentLast).mono (fun _ => False.elim)
      (fun _ => id) fun _ => id)
  | requestVote clk => exact hidle (.ite (fun _ => idle_refl) fun _ => requestVoteTo_idle _ _)
  | appendEntriesRequest clk r =>
    exact (handleAppendEntriesRequest_handles cfg clk r).bind fun x hx => sat_pure.mpr hx
  | appendEntriesResponse clk peerId r =>
    refine hsilent ((receiveAppendEntriesResponse_sat cfg clk peerId r).mono (fun _ => .registers)
      (fun m hm => ?_) fun _ => id)
    rcases hm with hm | ⟨q, rfl, hm⟩
    · exact .idles hm
    · exact .records hm
  | requestVoteRequest clk r =>
    exact ((handleRequestVoteRequest_sat clk r).mono (fun _ => .registers) (fun _ => id)
      fun _ => id).bind fun x hx => sat_pure.mpr (.idles hx)
  | requestVoteResponse clk peerId r =>
    exact hidle (receiveRequestVoteResponse_idle cfg clk peerId r)
  | clientRequests cs => exact hsilent (handleClientRequests_handles cfg cs)
  | syncRequest clk r =>
    exact hidle (.ite (fun _ => idle_refl) fun h => absurd (hs clk r rfl) h)
  | reconfigureRequest clk selfId info => exact absurd rfl (hconf clk selfId info)
  | advanceCommitIndex =>
    exact hsilent ((advanceCommitIndex_handles cfg).mono (fun _ => False.elim) (fun _ => id)
      fun _ => id)
  | becomeCandidate clk => exact hidle (becomeCandidate_idle clk)
  | becomeLeader clk => exact hsilent (becomeLeader_handles cfg clk)
  | electionTimeout clk => exact hidle (electionTimeout_idle cfg clk)
  | leadershipTimeout clk => exact hidle (leadershipTimeout_idle cfg clk)
  | truncatePrefix k =>
    refine hsilent ((truncatePrefix_sat k).mono ?_ ?_ fun _ => id)
    · rintro l ⟨hk, rfl⟩
      exact .truncates hk
    · rintro m ⟨hk, rfl⟩
      exact .truncates hk

end Handlers

/-! ## What follows for every event -/

variable {cfg : RaftConfig} {ev : Event}

theorem Handles.writes (h : n.Handles cfg ev m) : n.Writes cfg ev m.log := by
  cases h with
  | idles h => exact .registers h.log
  | dispatches leader h => exact .registers (h.log_eq ▸ .refl _)
  | obeys h hleader h' =>
    exact .obeys (h'.log.first_eq.trans h.log.first_eq) ((h.log.draws _).trans h'.log.draws)
  | records h => exact .registers (h.log_eq ▸ .refl _)
  | refuses role_ne => exact .registers (.refl _)
  | takes leader h => exact .takes leader h
  | commits leader commit_lt => exact .registers (.refl _)
  | wins h => exact h.log_eq ▸ .wins h.candidate
  | truncates hk => exact .truncates hk

/-- Only an AE response, an election that is won and a truncation are not quiet. -/
theorem Handles.quiet_or (h : n.Handles cfg ev m) : n.Quiet m ∨
    (∃ clk peerId r, ev = .appendEntriesResponse clk peerId (some r) ∧ n.Records r m) ∨
    (∃ clk, ev = .becomeLeader clk ∧ n.Wins cfg clk m) ∨
    ∃ k ≤ n.commitIndex, m = { n with log := n.log.truncatePrefix k } := by
  cases h with
  | idles h => exact Or.inl h.quiet
  | dispatches leader h => exact Or.inl h.quiet
  | obeys h hleader h' => exact Or.inl (h.quiet.trans h'.quiet)
  | records h => exact Or.inr (Or.inl ⟨_, _, _, rfl, h⟩)
  | refuses role_ne => exact Or.inl (quiet_of_eq rfl rfl rfl (Nat.le_refl _) rfl)
  | takes leader h => exact Or.inl (quiet_of_eq h.term_eq h.first_eq rfl (Nat.le_refl _) rfl)
  | commits leader commit_lt => exact Or.inl (quiet_of_eq rfl rfl rfl commit_lt.le rfl)
  | wins h => exact Or.inr (Or.inr (Or.inl ⟨_, rfl, h⟩))
  | truncates hk => exact Or.inr (Or.inr (Or.inr ⟨_, hk, rfl⟩))

theorem Handles.stays (h : n.Handles cfg ev m) : n.Stays m := by
  rcases h.quiet_or with hq | ⟨-, -, r, -, hr⟩ | ⟨clk, -, hw⟩ | ⟨k, -, rfl⟩
  · exact hq.toStays
  · exact stays_of_eq (by rw [hr.log_eq]) hr.role_eq
  · refine ⟨by rw [hw.log_eq]; exact Nat.le_refl _, fun _ _ => hw.role_eq, fun _ => ?_⟩
    rw [hw.role_eq]
    exact nofun
  · exact stays_of_eq truncatePrefix_currentTerm rfl

theorem Handles.commit_le (h : n.Handles cfg ev m) : n.commitIndex ≤ m.commitIndex := by
  cases h with
  | idles h => exact h.commit_eq.ge
  | dispatches leader h => exact h.commit_eq.ge
  | obeys h hleader h' => exact h.commit_eq.ge.trans h'.commit_le
  | records h => exact h.commit_eq.ge
  | commits leader commit_lt => exact commit_lt.le
  | wins h => exact h.commit_eq.ge
  | _ => exact Nat.le_refl _

/-- AE requests are handed over by a leader, for the state it is in. -/
theorem Handles.mute_or (h : n.Handles cfg ev m) :
    n.Mute m ∨ (n.role = .leader ∧ n.Dispatches m) := by
  have hreplies : ∀ {code message ps} {m k : Node},
      m.outbox = n.outbox ++ k.replyPending code message ps → n.Mute m := fun ho =>
    mute_of_replies ho fun _ _ => appendEntries_not_mem_replyPending _ _ _ _ _
  cases h with
  | idles h => exact Or.inl h.mute
  | dispatches leader h => exact Or.inr ⟨leader, h⟩
  | obeys h hleader h' =>
    exact Or.inl fun dst r ho => h.mute dst r (mute_of_eq h'.outbox_eq dst r ho)
  | records h => exact Or.inl (mute_of_eq h.outbox_eq)
  | refuses role_ne => exact Or.inl (hreplies rfl)
  | takes leader h => exact Or.inl (mute_of_eq rfl)
  | commits leader commit_lt => exact Or.inl (hreplies rfl)
  | wins h => exact Or.inl (mute_of_eq h.outbox_eq)
  | truncates hk => exact Or.inl (mute_of_eq rfl)

theorem Writes.sheds (h : n.Writes cfg ev l) (hreq : ∀ clk r, ev ≠ .appendEntriesRequest clk r) :
    n.log.Sheds l := by
  cases h with
  | registers h => exact h.keeps.sheds
  | obeys first_eq draws => exact absurd rfl (hreq _ _)
  | takes leader h => exact h.sheds
  | wins candidate => exact (keeps_appendEntry rfl).sheds
  | truncates hk => exact n.log.sheds_truncatePrefix _

theorem Writes.first (h : n.Writes cfg ev l) :
    l.firstIndex = n.log.firstIndex ∨ l.firstIndex ≤ n.commitIndex := by
  cases h with
  | registers h => exact Or.inl h.first_eq
  | obeys first_eq draws => exact Or.inl first_eq
  | takes leader h => exact Or.inl h.first_eq
  | wins candidate => exact Or.inl rfl
  | truncates hk =>
    rw [truncatePrefix_firstIndex]
    omega

section Events

variable (cfg : RaftConfig) (hs : n.role ≠ .syncer)
  (hconf : ∀ clk selfId info, ev ≠ .reconfigureRequest clk selfId info)
include hs hconf

/-- What is on disk after an event, or where it is interrupted. -/
theorem handle_writes {W : Log → Prop} (hW : ∀ l, Writes cfg { n with outbox := [] } ev l → W l) :
    (n.handle cfg ev).Sat W (fun x => W x.1.log) fun _ => True :=
  (handle_sat cfg (fun _ _ _ => hs) hconf).mono hW (fun _ hx => hW _ hx.writes) fun _ => id

/-- **Every event but an AE request** takes nothing out of the log but the front of the window. -/
theorem handle_sheds (hreq : ∀ clk r, ev ≠ .appendEntriesRequest clk r) :
    (n.handle cfg ev).Sat n.log.Sheds (fun x => n.log.Sheds x.1.log) fun _ => True :=
  handle_writes cfg hs hconf fun _ hl => hl.sheds hreq

/-- **The window loses at its front only what the node has counted as committed.** -/
theorem handle_first :
    (n.handle cfg ev).Sat
      (fun l => l.firstIndex = n.log.firstIndex ∨ l.firstIndex ≤ n.commitIndex)
      (fun x => x.1.log.firstIndex = n.log.firstIndex ∨ x.1.log.firstIndex ≤ n.commitIndex)
      fun _ => True :=
  handle_writes cfg hs hconf fun _ hl => hl.first

end Events

end Node

end Gringofts
