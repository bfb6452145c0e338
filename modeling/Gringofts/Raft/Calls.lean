import Gringofts.Raft.Safety

/-!
# Open calls

What a leader knows of a peer changes with the answers of that peer only, and with one open call
to a peer an answer finds the peer in the state in which the request was made. So a rejection that
arrives in the term of its request says something about the match index that the leader still has:
it lies below the index that was probed, unless the leader has cut that index off or the peer has
lost what it had acknowledged.

## Main definitions

* `Node.Leaves` — a step that leaves what a leader knows of a peer
* `Node.Awaits`, `Node.Explains` — what an open call and an answer to it say of the caller
* `CallsOk` — all of this for a cluster

## Main results

* `Node.handle_leaves` — every event but an answer of the peer
* `Refines.explains` — a follower rejects for a reason
-/

namespace Gringofts

open Replication Outcome

variable {S : Setup} {ev : Event} {dst src i : ℕ} {a : S.Abstract} {r : AppendEntriesRequest}
  {c : Cluster} {n : Node} {os : List Output}

/-- The message is an AE response. -/
def Envelope.isAppendEntriesResponse (e : Envelope) : Bool :=
  match e.msg with
  | .appendEntriesResponse _ => true
  | _ => false

namespace Node

variable {n m : Node}

/-! ## What a leader knows of a peer -/

/-- The node stays in office, and as a leader it keeps what it knows of `dst`. -/
structure Leaves (n m : Node) (dst : ℕ) : Prop extends n.Stays m where
  same : n.role = .leader → m.role = .leader →
    n.log.firstIndex ≤ m.log.firstIndex ∧ m.progress dst = n.progress dst

theorem Quiet.leaves (h : n.Quiet m) (dst : ℕ) : n.Leaves m dst where
  toStays := h.toStays
  same _ hr := by
    obtain ⟨-, -, -, hfirst, hprogress⟩ := h.leader hr
    exact ⟨hfirst.ge, by rw [hprogress]⟩

theorem Handles.leaves {cfg : RaftConfig} (h : n.Handles cfg ev m)
    (hdst : ∀ clk peerId r, ev = .appendEntriesResponse clk peerId (some r) → dst ≠ r.id) :
    n.Leaves m dst := by
  refine ⟨h.stays, fun hl hl' => ?_⟩
  rcases h.quiet_or with hq | ⟨clk, peerId, r, rfl, hr⟩ | ⟨clk, -, hw⟩ | ⟨k, -, rfl⟩
  · exact (hq.leaves dst).same hl hl'
  · exact ⟨by rw [hr.log_eq], hr.other dst (hdst clk peerId r rfl)⟩
  · -- a leader is not made a leader again
    rw [hw.candidate] at hl
    cases hl
  · exact ⟨(n.log.sheds_truncatePrefix k).first_le, rfl⟩

/-- **Every event but the answer of a peer** leaves what a leader knows of that peer, and AE
requests are sent by a leader, in the state it is in. -/
theorem handle_leaves (cfg : RaftConfig) (hs : n.role ≠ .syncer)
    (hconf : ∀ clk selfId info, ev ≠ .reconfigureRequest clk selfId info) :
    (n.handle cfg ev).Sat (fun _ => True)
      (fun x => (∀ dst, (∀ clk peerId r, ev = .appendEntriesResponse clk peerId (some r) →
          dst ≠ r.id) → n.Leaves x.1 dst) ∧
        ∀ dst r, .appendEntries dst r ∈ x.1.outbox → x.1.role = .leader ∧ x.1.Sends dst r)
      fun _ => True := by
  refine (handle_sat cfg (fun _ _ _ => hs) hconf).mono (fun _ _ => trivial) ?_ fun _ => id
  refine fun x hx => ⟨fun dst hdst => { hx.leaves hdst with }, fun dst r ho => ?_⟩
  rcases hx.mute_or with hmute | ⟨hl, hd⟩
  · exact absurd (hmute dst r ho) List.not_mem_nil
  · have hsends := (hd.outbox dst r ho).resolve_left List.not_mem_nil
    exact ⟨hd.role_eq.trans hl, hd.sends_iff.mpr hsends⟩

/-! ## Answers -/

/-- A rejection in the term of the request: the node has the index that was probed, or could have
it, and another term there. -/
structure Rejects (m : Node) (r : AppendEntriesRequest) (q : AppendEntriesResponse) : Prop where
  term_eq : m.log.currentTerm = r.term
  lastLogIndex_eq : q.lastLogIndex = m.log.lastIndex
  first_le : m.log.firstIndex ≤ r.prevLogIndex
  getTerm_ne : r.prevLogIndex ≤ m.log.lastIndex →
    m.log.getTerm r.prevLogIndex ≠ some r.prevLogTerm

/-- The answer carries what the request said, and a success reaches at least as far as the
request started. -/
structure Answers (r : AppendEntriesRequest) (q : AppendEntriesResponse) : Prop where
  savedTerm_eq : q.savedTerm = r.term
  savedPrevLogIndex_eq : q.savedPrevLogIndex = r.prevLogIndex
  le_match : q.success = true → r.prevLogIndex ≤ q.matchIndex

theorem logIsOk_sat (j t : ℕ) :
    (n.logIsOk j t).Sat (fun _ => True) (fun ok => ok = false → n.log.firstIndex ≤ j ∧
      (j ≤ n.log.lastIndex → n.log.getTerm j ≠ some t)) fun _ => True := by
  rw [logIsOk]
  split
  · exact sat_pure.mpr fun h => by cases h
  next hfirst =>
  split
  · refine Sat.bind (R := fun t' => n.log.getTerm j = some t')
      (sat_ofOption.mpr ⟨fun _ h => h, fun _ => trivial⟩) fun t' ht' => ?_
    refine sat_pure.mpr fun hne => ⟨Nat.not_lt.mp hfirst, fun _ heq => ?_⟩
    rw [ht'] at heq
    exact of_decide_eq_false hne (Option.some.inj heq)
  · next hlast =>
    exact sat_pure.mpr fun _ => ⟨Nat.not_lt.mp hfirst, fun h => absurd h hlast⟩

theorem acceptOrReject_answers (clk : Clock) (r : AppendEntriesRequest)
    (hterm : n.log.currentTerm = r.term) :
    (n.acceptOrReject clk r).Sat (fun _ => True)
      (fun x => Answers r x.2 ∧ (x.2.success = false → x.1.Rejects r x.2)) fun _ => True := by
  refine (logIsOk_sat _ _).bind fun ok hok => ?_
  split
  · next hrej =>
    have hno := hok (by simpa using hrej)
    exact sat_pure.mpr ⟨⟨rfl, rfl, nofun⟩, fun _ => ⟨hterm, rfl, hno.1, hno.2⟩⟩
  · refine Sat.bind ((applyEntries_sat r).mono (fun _ _ => trivial) (fun _ => id)
      fun _ => id) fun m _ => ?_
    refine Sat.bind (R := fun _ => True) ?_ fun k _ =>
      sat_pure.mpr ⟨⟨rfl, rfl, fun _ => Nat.le_add_right _ _⟩, nofun⟩
    rw [followCommit]
    split
    · exact (reads_check _ _).sat.bind fun _ _ => sat_pure.mpr trivial
    · exact sat_pure.mpr trivial

/-- What a node says in answer to an AE request. -/
theorem handleAppendEntriesRequest_answers (clk : Clock) (hd : Describes S a.1 i n)
    (hr : AppendEntriesOk S a.1 src i r) :
    (n.handleAppendEntriesRequest clk r).Sat (fun _ => True)
      (fun x => ∀ q, x.2 = some q →
        Answers r q ∧ (q.success = false → q.term ≤ r.term → x.1.Rejects r q))
      fun _ => True := by
  have hmem : r.leaderId ∈ S.info.nodes.keys := hr.leaderId_eq ▸ hr.src_mem
  rw [handleAppendEntriesRequest, S.roleKey_eq hmem, hd.members.isVoter_eq hmem, pure_bind]
  split
  · exact sat_pure.mpr fun _ h => by cases h
  split
  · next hlt =>
    refine sat_pure.mpr ?_
    rintro q hq
    cases hq
    -- the term of the answer is higher than that of the request
    exact ⟨⟨rfl, rfl, fun h => by cases h⟩, fun _ hle => absurd hle (Nat.not_le.mpr hlt)⟩
  next hge =>
  split
  · exact sat_pure.mpr fun _ h => by cases h
  have hle : a.1.term i ≤ r.term := by
    rw [← hd.durable.term_eq]
    exact Nat.not_lt.mp hge
  refine Sat.bind ((stepDownForLeader_sim clk hd hr hle).mono (fun _ _ => trivial)
    (fun _ => id) fun _ => False.elim) ?_
  rintro m ⟨b, hab, hdm, hfm, hterm⟩
  refine Sat.bind ((hail_sim (hdm.updateElectionTimePoint clk) hfm
    (hr.grows (S.grows_of_reach hab)) hterm).mono (fun _ _ => trivial) (fun _ => id)
      fun _ => False.elim) ?_
  rintro m' ⟨b', -, rfl, hdm', -⟩
  refine (acceptOrReject_answers clk r (hdm'.durable.term_eq.trans hterm)).bind fun x hx =>
    sat_pure.mpr ?_
  rintro q hq
  cases hq
  exact ⟨hx.1, fun hs _ => hx.2 hs⟩

/-- Only an AE request is answered by an AE response. -/
theorem handle_answer (cfg : RaftConfig) (ev : Event) :
    (n.handle cfg ev).Sat (fun _ => True) (fun x => ∀ q, x.2 = some (.appendEntries q) →
      ∃ clk r, ev = .appendEntriesRequest clk r) fun _ => True := by
  have hsilent : ∀ o : Act Node, (o >>= fun m => pure (m, (none : Option Answer))).Sat
      (fun _ => True) (fun x => ∀ q, x.2 = some (.appendEntries q) →
        ∃ clk r, ev = .appendEntriesRequest clk r) fun _ => True := fun o =>
    o.sat_trivial.bind fun _ _ => sat_pure.mpr nofun
  cases ev with
  | appendEntriesRequest clk r =>
    exact (sat_trivial _).imp fun _ _ _ _ => ⟨clk, r, rfl⟩
  | requestVoteRequest clk r =>
    refine (sat_trivial _).bind fun x _ => sat_pure.mpr fun q hq => ?_
    obtain ⟨y, -, hy⟩ := Option.map_eq_some_iff.mp hq
    cases hy
  | _ => exact hsilent _

/-! ## What an open call says of the caller -/

/-- The caller is still leader, if it is still in the term of its request, and the request carries
the term of the index it starts after, if the caller still has that index. -/
structure Awaits (a : State ℕ LogEntry) (n : Node) (r : AppendEntriesRequest) : Prop where
  term_le : r.term ≤ n.log.currentTerm
  leader : r.term = n.log.currentTerm → n.role = .leader
  prevLogTerm_eq : r.term = n.log.currentTerm → n.log.firstIndex ≤ r.prevLogIndex →
    r.prevLogTerm = termAt LogEntry.term (a.llog r.term) r.prevLogIndex

/-- A rejection that arrives in the term of its request has a reason. -/
def Explains (n : Node) (dst : ℕ) (r : AppendEntriesRequest) (q : AppendEntriesResponse) : Prop :=
  r.term = n.log.currentTerm → q.success = false → q.term ≤ r.term →
    ∀ x, n.progress dst = some x →
      x.2 < r.prevLogIndex ∨ r.prevLogIndex < n.log.firstIndex ∨ q.lastLogIndex < x.2

section Leaves

variable {a b : State ℕ LogEntry} {src dst : ℕ} {r : AppendEntriesRequest}
  {q : AppendEntriesResponse}

theorem Awaits.grows (h : Awaits a n r) (hr : AppendEntriesOk S a src dst r) (hg : Grows a b) :
    Awaits b n r where
  term_le := h.term_le
  leader := h.leader
  prevLogTerm_eq ht hfirst := by
    rw [h.prevLogTerm_eq ht hfirst]
    have hle : r.prevLogIndex ≤ (a.llog r.term).length :=
      (Nat.le_add_right _ _).trans hr.le_length
    exact ((hg.llog_agree hle).termAt_eq (Nat.le_refl _)).symm

/-- The term of the caller is squeezed between that of the request and the later one. -/
theorem Awaits.term_eq (h : Awaits a n r) (hl : n.Stays m) (ht : r.term = m.log.currentTerm) :
    r.term = n.log.currentTerm := by
  have h1 := h.term_le
  have h2 := hl.term_le
  omega

theorem Awaits.leaves (h : Awaits a n r) (hl : n.Leaves m dst) : Awaits a m r := by
  have hlead : r.term = m.log.currentTerm → m.role = .leader := fun ht => by
    have ht' := h.term_eq hl.toStays ht
    exact hl.office (h.leader ht') (ht.symm.trans ht')
  refine ⟨h.term_le.trans hl.term_le, hlead, fun ht hfirst => ?_⟩
  have ht' := h.term_eq hl.toStays ht
  exact h.prevLogTerm_eq ht' ((hl.same (h.leader ht') (hlead ht)).1.trans hfirst)

theorem Explains.leaves (h : n.Explains dst r q) (haw : Awaits a n r) (hl : n.Leaves m dst) :
    m.Explains dst r q := by
  intro ht hs hq x hx
  have ht' := haw.term_eq hl.toStays ht
  obtain ⟨hfirst, hprogress⟩ := hl.same (haw.leader ht') ((haw.leaves hl).leader ht)
  rw [hprogress] at hx
  have hwhy := h ht' hs hq x hx
  omega

end Leaves

end Node

/-- What a leader takes for matching, a peer of no later term still has. -/
theorem Refines.agree_match {id : ℕ} {p : Peer} (h : Refines S c a.1) (hi : i ∈ S.info.nodes.keys)
    (hl : (c.nodes i).role = .leader) (hp : (c.nodes i).peer? id = some p)
    (hid : id ∈ S.info.nodes.keys)
    (hterm : (c.nodes id).log.currentTerm ≤ (c.nodes i).log.currentTerm) :
    Agree (a.1.log id) (a.1.log i) p.matchIndex := by
  have hd := h.nodes i hi
  have hack := (hd.peers hl id p hp).match_le
  rw [← hd.log_eq hl]
  refine a.2.ack_log hack fun v hlt hle => ?_
  -- no later term has begun at the peer
  rw [← (h.nodes id hid).durable.term_eq] at hle
  rw [← hd.durable.term_eq] at hlt
  omega

/-- **A follower rejects for a reason**: as far as its leader takes its log to match, it does. -/
theorem Refines.explains {q : AppendEntriesResponse} (h : Refines S c a.1)
    (hsrc : src ∈ S.info.nodes.keys) (hi : i ∈ S.info.nodes.keys)
    (haw : Node.Awaits a.1 (c.nodes src) r)
    (hrej : q.success = false → q.term ≤ r.term → (c.nodes i).Rejects r q) :
    (c.nodes src).Explains i r q := by
  intro hterm hs hq x hx
  obtain ⟨heq, hlast, hfirst, hne⟩ := hrej hs hq
  obtain ⟨p, hp, rfl⟩ := Option.map_eq_some_iff.mp hx
  have hl := haw.leader hterm
  have hag := h.agree_match hsrc hl hp hi (heq.trans hterm).le
  by_contra hcon
  obtain ⟨hmatch, hwindow, hle⟩ : r.prevLogIndex ≤ p.matchIndex ∧
      (c.nodes src).log.firstIndex ≤ r.prevLogIndex ∧ p.matchIndex ≤ q.lastLogIndex := by
    have hcon : ¬ (p.matchIndex < r.prevLogIndex ∨
      r.prevLogIndex < (c.nodes src).log.firstIndex ∨ q.lastLogIndex < p.matchIndex) := hcon
    omega
  have hprev : r.prevLogIndex ≤ (c.nodes i).log.lastIndex := by omega
  refine hne hprev ?_
  have hd := h.nodes src hsrc
  rw [(h.nodes i hi).durable.getTerm_eq hfirst hprev, hag.termAt_eq hmatch, ← hd.log_eq hl,
    haw.prevLogTerm_eq hterm hwindow, hterm, hd.durable.term_eq]

/-! ## The calls of a cluster -/

/-- What is known of an open call whose request is `r`. -/
structure CallOk (c : Cluster) (a : State ℕ LogEntry) (k : Call) (r : AppendEntriesRequest) :
    Prop where
  sent : ⟨k.src, k.dst, k.id, .appendEntriesRequest r⟩ ∈ c.net
  awaits : Node.Awaits a (c.nodes k.src) r
  answered : ∀ q, ⟨k.dst, k.src, k.id, .appendEntriesResponse q⟩ ∈ c.net →
    (c.nodes k.src).Explains k.dst r q

/-- **What is known of the calls of a cluster.** -/
structure CallsOk (c : Cluster) (a : State ℕ LogEntry) : Prop where
  /-- The number of the next call is a new one. -/
  fresh : ∀ e ∈ c.net, e.call < c.nextCall
  /-- A call has one request. -/
  unique : ∀ e ∈ c.net, ∀ e' ∈ c.net, ∀ r r', e.msg = .appendEntriesRequest r →
    e'.msg = .appendEntriesRequest r' → e.call = e'.call → e = e'
  calls : ∀ k ∈ c.calls, ∃ r, CallOk c a k r
  /-- An answer has a request that it answers. -/
  answers : ∀ e ∈ c.net, ∀ q, e.msg = .appendEntriesResponse q →
    ∃ r, ⟨e.dst, e.src, e.call, .appendEntriesRequest r⟩ ∈ c.net ∧ Node.Answers r q

theorem callsOk_init (S : Setup) (a : State ℕ LogEntry) : CallsOk S.init a :=
  ⟨nofun, nofun, nofun, nofun⟩

namespace CallsOk

variable {c : Cluster} {a b : State ℕ LogEntry} {i : ℕ}

/-- A node takes a step that leaves what the open calls rely on. -/
theorem setNode (h : CallsOk c a) {ks : List Call} (hnet : ∀ e ∈ c.net, MessageOk S a e)
    (hg : Grows a b) (hks : ∀ k ∈ ks, k ∈ c.calls)
    (hn : ∀ k ∈ ks, k.src = i → (c.nodes i).Leaves n k.dst) :
    CallsOk { c.setNode i n with calls := ks } b where
  fresh := h.fresh
  unique := h.unique
  calls k hk := by
    obtain ⟨r, hsent, haw, hans⟩ := h.calls k (hks k hk)
    have haw' : Node.Awaits b (c.nodes k.src) r := haw.grows (hnet _ hsent) hg
    have hl : (c.nodes k.src).Leaves ((c.setNode i n).nodes k.src) k.dst := by
      by_cases hki : k.src = i
      · simpa [Cluster.setNode, hki] using hn k hk hki
      · simpa [Cluster.setNode, hki] using (Node.Idles.refl _).quiet.leaves k.dst
    exact ⟨r, hsent, haw'.leaves hl, fun q hq => (hans q hq).leaves haw hl⟩
  answers := h.answers

/-- An AE request is put on the network. -/
theorem send (h : CallsOk c a) (hr : Node.Awaits a (c.nodes i) r) :
    CallsOk { c with
      net := c.net ++ [⟨i, dst, c.nextCall, .appendEntriesRequest r⟩]
      calls := c.calls ++ [⟨c.nextCall, i, dst⟩]
      nextCall := c.nextCall + 1 } a := by
  have hold : ∀ e ∈ c.net, e.call ≠ c.nextCall := fun e he => (h.fresh e he).ne
  refine ⟨fun e he => ?_, fun e he e' he' r r' hm hm' hcall => ?_, fun k hk => ?_,
    fun e he q hq => ?_⟩
  · rcases List.mem_append.mp he with he | he
    · exact Nat.lt_succ_of_lt (h.fresh e he)
    · rw [List.mem_singleton.mp he]
      exact Nat.lt_succ_self _
  · rcases List.mem_append.mp he with he | he <;> rcases List.mem_append.mp he' with he' | he'
    · exact h.unique e he e' he' r r' hm hm' hcall
    · cases List.mem_singleton.mp he'
      exact absurd hcall (hold e he)
    · cases List.mem_singleton.mp he
      exact absurd hcall.symm (hold e' he')
    · rw [List.mem_singleton.mp he, List.mem_singleton.mp he']
  · rcases List.mem_append.mp hk with hk | hk
    · obtain ⟨r', hsent, haw, hans⟩ := h.calls k hk
      refine ⟨r', List.mem_append_left _ hsent, haw, fun q hq => hans q ?_⟩
      exact (List.mem_append.mp hq).resolve_right (by simp)
    · cases List.mem_singleton.mp hk
      refine ⟨r, List.mem_append_right _ List.mem_cons_self, hr, fun q hq => ?_⟩
      -- nobody has answered yet
      rcases List.mem_append.mp hq with hq | hq
      · exact absurd rfl (hold _ hq)
      · simp at hq
  · rcases List.mem_append.mp he with he | he
    · obtain ⟨r', hr', hans⟩ := h.answers e he q hq
      exact ⟨r', List.mem_append_left _ hr', hans⟩
    · cases List.mem_singleton.mp he
      cases hq

/-- Something else is put on the network. -/
theorem add (h : CallsOk c a) {m : Envelope} {next : ℕ} (hnext : c.nextCall ≤ next)
    (hcall : m.call < next) (hreq : ∀ r, m.msg ≠ .appendEntriesRequest r)
    (hans : ∀ q, m.msg = .appendEntriesResponse q →
      (∃ r, ⟨m.dst, m.src, m.call, .appendEntriesRequest r⟩ ∈ c.net ∧ Node.Answers r q) ∧
      ∀ k ∈ c.calls, k.id = m.call → ∀ r, CallOk c a k r → (c.nodes k.src).Explains k.dst r q) :
    CallsOk { c with net := c.net ++ [m], nextCall := next } a := by
  refine ⟨fun e he => ?_, fun e he e' he' r r' hm hm' => ?_, fun k hk => ?_, fun e he q hq => ?_⟩
  · rcases List.mem_append.mp he with he | he
    · exact (h.fresh e he).trans_le hnext
    · rw [List.mem_singleton.mp he]
      exact hcall
  · rcases List.mem_append.mp he with he | he
    · rcases List.mem_append.mp he' with he' | he'
      · exact h.unique e he e' he' r r' hm hm'
      · rw [List.mem_singleton.mp he'] at hm'
        exact absurd hm' (hreq r')
    · rw [List.mem_singleton.mp he] at hm
      exact absurd hm (hreq r)
  · obtain ⟨r, hk'⟩ := h.calls k hk
    refine ⟨r, List.mem_append_left _ hk'.sent, hk'.awaits, fun q hq => ?_⟩
    rcases List.mem_append.mp hq with hq | hq
    · exact hk'.answered q hq
    · have hq := List.mem_singleton.mp hq
      exact (hans q (by rw [← hq])).2 k hk (by rw [← hq]) r hk'
  · have hall : ∃ r, ⟨e.dst, e.src, e.call, .appendEntriesRequest r⟩ ∈ c.net ∧
        Node.Answers r q := by
      rcases List.mem_append.mp he with he | he
      · exact h.answers e he q hq
      · rw [List.mem_singleton.mp he] at hq ⊢
        exact (hans q hq).1
    obtain ⟨r, hr, hrq⟩ := hall
    exact ⟨r, List.mem_append_left _ hr, hrq⟩

/-- A node hands its requests to the network. -/
theorem post (h : CallsOk c a)
    (hos : ∀ dst r, .appendEntries dst r ∈ os → Node.Awaits a (c.nodes i) r) :
    CallsOk (Cluster.post i os c) a := by
  induction os generalizing c with
  | nil => exact h
  | cons o os ih =>
    have hos' : ∀ dst r, .appendEntries dst r ∈ os → Node.Awaits a (c.nodes i) r :=
      fun dst r ho => hos dst r (List.mem_cons_of_mem _ ho)
    cases o with
    | appendEntries dst r => exact ih (h.send (hos dst r List.mem_cons_self)) hos'
    | requestVote dst r =>
      exact ih (h.add (Nat.le_succ _) (Nat.lt_succ_self _) nofun nofun) hos'
    | reply handle code message leaderId => exact ih h hos'

end CallsOk

/-- A leader that sends a request awaits the answer. -/
theorem Describes.awaits (h : Describes S a.1 i n) (hl : n.role = .leader) (hs : n.Sends dst r) :
    Node.Awaits a.1 n r := by
  obtain ⟨hterm, -, x, hx, hprev, hget⟩ := hs
  refine ⟨hterm.le, fun _ => hl, fun _ hfirst => ?_⟩
  obtain ⟨p, hp, rfl⟩ := Option.map_eq_some_iff.mp hx
  have hprev : r.prevLogIndex = p.nextIndex - 1 := hprev
  have hnext := (h.peers hl dst p hp).next_le
  rw [← h.durable.lastIndex_eq] at hnext
  have hlast : r.prevLogIndex ≤ n.log.lastIndex := by omega
  have heq := hget hfirst hlast
  rw [h.durable.getTerm_eq hfirst hlast, ← h.log_eq hl, ← h.durable.term_eq] at heq
  rw [hterm]
  exact (Option.some.inj heq).symm

/-! ## Runs with one open call to a peer -/

namespace Cluster

/-- Two open calls of one node to one peer are the same call. -/
def OneCallPerPeer (c : Cluster) : Prop :=
  ∀ k ∈ c.calls, ∀ k' ∈ c.calls, k.src = k'.src → k.dst = k'.dst → k = k'

/-- An AE response that node `i` handles answers an open call of the node. -/
def Expects (c : Cluster) : Action → Prop
  | .run i inp => ∀ x ∈ c.event? i inp, ∀ e ∈ x.2, e.isAppendEntriesResponse = true →
      ⟨e.call, i, e.src⟩ ∈ c.calls
  | .crash _ _ _ _ _ => True

/-- A step in which an AE response is handled only where its call is open, and after which no node
has two open calls to one peer. -/
def Orderly (S : Setup) (c : Cluster) (act : Action) : Prop :=
  c.Expects act ∧ ∀ c' ∈ c.step S act, c'.OneCallPerPeer

instance (c : Cluster) : Decidable c.OneCallPerPeer :=
  inferInstanceAs (Decidable (∀ k ∈ c.calls, ∀ k' ∈ c.calls, _))

instance (S : Setup) (c : Cluster) (act : Action) : Decidable (c.Orderly S act) :=
  have : Decidable (c.Expects act) :=
    match act with
    | .run i inp => inferInstanceAs (Decidable (∀ x ∈ c.event? i inp, ∀ e ∈ x.2,
        e.isAppendEntriesResponse = true → (⟨e.call, i, e.src⟩ : Call) ∈ c.calls))
    | .crash _ _ _ _ _ => isTrue trivial
  inferInstanceAs (Decidable (_ ∧ _))

theorem endCall_eq (c : Cluster) (i : ℕ) (ev : Event) (o : Option Envelope) :
    c.endCall i ev o = { c with calls := (c.endCall i ev o).calls } := by
  unfold endCall
  split <;> rfl

theorem mem_calls_of_endCall {o : Option Envelope} {k : Call} (h : k ∈ (c.endCall i ev o).calls) :
    k ∈ c.calls := by
  unfold endCall at h
  split at h
  · exact (List.mem_filter.mp h).1
  · exact List.mem_of_mem_eraseP h
  · exact h

theorem mem_net_post {e : Envelope} (h : e ∈ c.net) : e ∈ (post i os c).net := by
  induction os generalizing c with
  | nil => exact h
  | cons o os ih =>
    cases o with
    | appendEntries dst r => exact ih (List.mem_append_left _ h)
    | requestVote dst r => exact ih (List.mem_append_left _ h)
    | reply handle code message leaderId => exact ih h

end Cluster

end Gringofts
