import Gringofts.Raft.Calls

/-!
# What a leader knows of its peers

With at most one open call to a peer, what a leader takes for matching is there at the peer, and
no assertion fails in the handler of AE responses.

## Main results

* `CallsOk.step`, `RunsUnder.callsOk` — what is known of the calls, along a run
* `leader_peer_invariant`
-/

namespace Gringofts

open Replication Outcome Scenario Cluster

variable {S : Setup} {c : Cluster} {a : S.Abstract} {i : ℕ} {x : Option Answer}
  {origin : Option Envelope} {inp : Input} {ev : Event} {p : Peer}

/-! ## Runs -/

/-- An answer is sent back: it answers the request, and a rejection has a reason. -/
theorem CallsOk.answer (h : CallsOk c a.1) (ha : Refines S c a.1) (hi : i ∈ S.info.nodes.keys)
    (hmem : ∀ e, origin = some e → e ∈ c.net ∧ e.dst = i)
    (hx : ∀ q e, x = some (.appendEntries q) → origin = some e →
      ∃ r, e.msg = .appendEntriesRequest r ∧ Node.Answers r q ∧
        (q.success = false → q.term ≤ r.term → (c.nodes i).Rejects r q)) :
    CallsOk (c.answer i x origin) a.1 := by
  match x, origin, hx, hmem with
  | none, _, _, _ => exact h
  | some _, none, _, _ => exact h
  | some y, some e, hx, hmem =>
    obtain ⟨he, hdst⟩ := hmem e rfl
    refine h.add (Nat.le_refl _) (h.fresh e he) (fun r => by cases y <;> exact nofun) ?_
    intro q hq
    cases y with
    | requestVote => cases hq
    | appendEntries q' =>
      obtain rfl : q' = q := Message.appendEntriesResponse.inj hq
      obtain ⟨r, hmsg, hans, hrej⟩ := hx q' e rfl rfl
      obtain ⟨src, dst, call, msg⟩ := e
      obtain rfl : msg = .appendEntriesRequest r := hmsg
      obtain rfl : dst = i := hdst
      refine ⟨⟨r, he, hans⟩, fun k _ hid r' hk => ?_⟩
      -- the request of an open call with this number is the one that is answered
      have heq := h.unique _ hk.sent _ he r' r rfl rfl hid
      obtain ⟨rfl, rfl, -, rfl⟩ : k.src = src ∧ k.dst = dst ∧ k.id = call ∧ r' = r := by
        simpa using heq
      exact ha.explains (ha.net _ he).src_mem hi hk.awaits hrej

/-- What describes a cluster after an answer was sent described it before. -/
theorem Refines.of_answer {a : State ℕ LogEntry} (h : Refines S (c.answer i x origin) a) :
    Refines S c a := by
  refine ⟨h.inv, fun j hj => c.answer_nodes i x origin ▸ h.nodes j hj, fun e he => h.net e ?_⟩
  unfold answer
  split
  · exact List.mem_append_left _ he
  · exact he

/-- What a node says in answer to a message of the network. -/
theorem Refines.answers {m : Node} (h : Refines S c a.1) (hi : i ∈ S.info.nodes.keys)
    (hev : c.event? i inp = some (ev, origin))
    (hres : ((c.nodes i).handle (S.config i) ev).result = .ok (m, x)) (q : AppendEntriesResponse)
    (e : Envelope) (hx : x = some (.appendEntries q)) (he : origin = some e) :
    ∃ r, e.msg = .appendEntriesRequest r ∧ Node.Answers r q ∧
      (q.success = false → q.term ≤ r.term → m.Rejects r q) := by
  obtain ⟨clk, r, rfl⟩ := (Node.handle_answer (S.config i) ev).of_result hres q hx
  rcases event?_cases hev with ⟨hlocal, -⟩ | ⟨e', clk', hmem, hdst, hmsg, horigin⟩
  · cases hlocal
  obtain rfl : e' = e := Option.some.inj (horigin.symm.trans he)
  obtain ⟨src, dst, call, msg⟩ := e'
  cases msg <;> cases hmsg
  obtain rfl : dst = i := hdst
  refine ⟨r, rfl, ?_⟩
  have hsat : ((c.nodes dst).handle (S.config dst) (.appendEntriesRequest clk r)).Sat
      (fun _ => True) (fun y => ∀ q, y.2 = some (.appendEntries q) → Node.Answers r q ∧
        (q.success = false → q.term ≤ r.term → y.1.Rejects r q)) fun _ => True := by
    refine (Node.handleAppendEntriesRequest_answers clk (h.nodes dst hi).clearOutbox
      (h.net _ hmem)).bind fun y hy => sat_pure.mpr fun q hq => ?_
    obtain ⟨q', hq', heq⟩ := Option.map_eq_some_iff.mp hq
    cases heq
    exact hy q hq'
  exact hsat.of_result hres q hx

/-- When an answer is handled, no other call to the peer is open. -/
theorem Cluster.OneCallPerPeer.dst_ne {a : State ℕ LogEntry} (hone : c.OneCallPerPeer)
    (h : Refines S c a) (hexp : c.Expects (.run i inp)) (hev : c.event? i inp = some (ev, origin))
    {k : Call} (hk : k ∈ (c.endCall i ev origin).calls) (hsrc : k.src = i) (clk : Clock)
    (peerId : ℕ) (r : AppendEntriesResponse)
    (heq : ev = .appendEntriesResponse clk peerId (some r)) : k.dst ≠ r.id := by
  subst heq
  rcases event?_cases hev with ⟨hlocal, -⟩ | ⟨e, clk', hmem, hdst, hmsg, rfl⟩
  · cases hlocal
  have hcall := hexp _ hev e rfl
  have hid := h.net e hmem
  obtain ⟨src, dst, call, msg⟩ := e
  cases msg <;> cases hmsg
  intro hcon
  have hsame := hone k (mem_calls_of_endCall hk) _ (hcall rfl) hsrc (hcon.trans hid.1)
  have hne := (List.mem_filter.mp hk).2
  rw [hsame] at hne
  simp at hne

/-- **One step** of a run with one open call to a peer. -/
theorem CallsOk.step {c' : Cluster} {act : Action} (h : CallsOk c a.1) (ha : Refines S c a.1)
    (hone : c.OneCallPerPeer) (hexp : c.Expects act) (hs : c.step S act = some c') :
    ∃ b : S.Abstract, Refines S c' b.1 ∧ CallsOk c' b.1 := by
  obtain ⟨_, b, hab, hb⟩ := step_refines ha hs
  have hg := S.grows_of_reach hab
  refine ⟨b, hb, ?_⟩
  rcases step_cases hs with ⟨i, inp, ev, origin, m, x, rfl, hi, hev, hres, rfl⟩ |
    ⟨i, inp, ev, origin, k, role, clk, l, rfl, hi, hev, hl, rfl⟩
  · have hleaves := (Node.handle_leaves (S.config i) (ha.nodes i hi).role_ne
      (event?_ne_reconfigure hev)).of_result hres
    have hset : CallsOk ((c.endCall i ev origin).setNode i m) b.1 := by
      rw [endCall_eq]
      exact h.setNode ha.net hg (fun _ => mem_calls_of_endCall) fun k hk hsrc =>
        hleaves.1 k.dst (hone.dst_ne ha hexp hev hk hsrc)
    have hb' := hb.of_answer
    have hd := hb'.nodes i hi
    have hnode : (Cluster.post i m.outbox ((c.endCall i ev origin).setNode i m)).nodes i = m := by
      simp [Cluster.setNode]
    rw [hnode] at hd
    refine CallsOk.answer (hset.post fun dst r ho => ?_) hb' hi (fun e he => ?_) fun q e hx he => ?_
    · obtain ⟨hl, hsends⟩ := hleaves.2 dst r ho
      simpa [Cluster.setNode] using hd.awaits hl hsends
    · rcases event?_cases hev with ⟨-, rfl⟩ | ⟨e', clk, hmem, hdst, -, rfl⟩
      · cases he
      · obtain rfl : e' = e := Option.some.inj he
        exact ⟨Cluster.mem_net_post (by simpa [Cluster.setNode] using hmem), hdst⟩
    · rw [hnode]
      exact ha.answers hi hev hres q e hx he
  · -- a node that stops forgets its calls
    refine h.setNode ha.net hg (fun k hk => (List.mem_filter.mp hk).1) fun k hk hsrc => ?_
    exact absurd hsrc (by simpa using (List.mem_filter.mp hk).2)

/-- **A whole run** with one open call to a peer. -/
theorem RunsUnder.callsOk (h : RunsUnder S (Cluster.Orderly S) S.init c) :
    ∃ a : S.Abstract, Refines S c a.1 ∧ CallsOk c a.1 ∧ c.OneCallPerPeer := by
  induction h with
  | refl =>
    exact ⟨⟨_, (refines_init S).inv⟩, refines_init S, callsOk_init S _, nofun⟩
  | tail _ hok hs ih =>
    obtain ⟨a, ha, hcalls, hone⟩ := ih
    obtain ⟨b, hb, hcalls'⟩ := hcalls.step ha hone hok.1 hs
    exact ⟨b, hb, hcalls', hok.2 _ hs⟩

/-! ## Handling an answer -/

namespace Node

variable {n : Node} {a : S.Abstract} {i : ℕ} {r : AppendEntriesRequest}
  {q : AppendEntriesResponse}

/-- What is known of the open call is what the assertions on a peer ask for. -/
theorem peerAfterResponse_ok (cfg : RaftConfig) (hp : n.peer? q.id = some p)
    (hlt : p.matchIndex < p.nextIndex) (hprev : r.prevLogIndex = p.nextIndex - 1)
    (hmatch : q.success = true → r.prevLogIndex ≤ q.matchIndex)
    (hwhy : q.success = false → ∀ x, n.progress q.id = some x → x.2 < r.prevLogIndex ∨
      r.prevLogIndex < n.log.firstIndex ∨ q.lastLogIndex < x.2) :
    (n.peerAfterResponse cfg q p).Sat (fun _ => True) (fun _ => True) fun _ => False := by
  rw [peerAfterResponse]
  split
  · next hs =>
    have hle : p.matchIndex ≤ q.matchIndex := by
      have := hmatch hs
      omega
    exact sat_check_bind (absurd hle) fun _ => sat_pure.mpr trivial
  next hs =>
  split
  · exact sat_pure.mpr trivial
  next hlast =>
  split
  · exact sat_pure.mpr trivial
  next hfirst =>
  have hgap : p.matchIndex + 1 < p.nextIndex := by
    have hcases : p.matchIndex < r.prevLogIndex ∨ r.prevLogIndex < n.log.firstIndex ∨
        q.lastLogIndex < p.matchIndex :=
      hwhy (by simpa using hs) (p.nextIndex, p.matchIndex) (by rw [progress, hp]; rfl)
    omega
  exact sat_check_bind (absurd hgap) fun _ => sat_pure.mpr trivial

theorem handleAppendEntriesResponse_ok (cfg : RaftConfig) (clk : Clock)
    (hd : Describes S a.1 i n) (hans : Answers r q) (haw : Awaits a.1 n r)
    (hex : n.Explains q.id r q) :
    (n.handleAppendEntriesResponse cfg clk q).Sat (fun _ => True) (fun _ => True)
      fun _ => False := by
  rw [handleAppendEntriesResponse]
  split
  · exact sat_pure.mpr trivial
  next hsaved =>
  have hterm : r.term = n.log.currentTerm :=
    hans.savedTerm_eq.symm.trans (not_not.mp hsaved).symm
  have hl := haw.leader hterm
  refine sat_check_bind (absurd hl) fun _ => ?_
  split
  · next hlt =>
    rw [hd.durable.term_eq] at hlt
    exact (stepDown_sim hd clk (Or.inl hlt)).mono (fun _ _ => trivial) (fun _ _ => trivial)
      fun _ => id
  next hge =>
  split
  · exact sat_pure.mpr trivial
  next p hp =>
  split
  · exact sat_pure.mpr trivial
  next hprev =>
  refine Sat.bind (peerAfterResponse_ok cfg hp (hd.peers hl q.id p hp).match_lt
    (hans.savedPrevLogIndex_eq.symm.trans (not_not.mp hprev)) hans.le_match fun hs => ?_)
    fun _ _ => sat_pure.mpr trivial
  exact hex hterm hs (hterm ▸ Nat.not_lt.mp hge)

theorem receiveAppendEntriesResponse_ok (cfg : RaftConfig) (clk : Clock) (peerId : ℕ)
    (hd : Describes S a.1 i n) (hans : Answers r q) (haw : Awaits a.1 n r)
    (hex : n.Explains q.id r q) :
    (n.receiveAppendEntriesResponse cfg clk peerId (some q)).Sat (fun _ => True)
      (fun _ => True) fun _ => False := by
  rw [receiveAppendEntriesResponse]
  split
  · exact sat_pure.mpr trivial
  -- the timers of the peer do not matter
  have hl : ∀ {f g : Peer → Peer}, (∀ p, (f p).nextIndex = p.nextIndex) →
      (∀ p, (f p).matchIndex = p.matchIndex) → (∀ p, (g p).nextIndex = p.nextIndex) →
      (∀ p, (g p).matchIndex = p.matchIndex) →
      n.Leaves ((n.modifyPeer peerId f).modifyPeer peerId g) q.id := fun h1 h2 h3 h4 =>
    ((modifyPeer_idles h1 h2).trans (modifyPeer_idles h3 h4)).quiet.leaves q.id
  refine handleAppendEntriesResponse_ok (i := i) cfg clk ?_ hans (haw.leaves (hl ?_ ?_ ?_ ?_))
    (hex.leaves haw (hl ?_ ?_ ?_ ?_))
  · refine Describes.modifyPeer_times ?_ (fun _ => rfl) (fun _ => rfl) fun _ => rfl
    exact hd.modifyPeer_times (fun _ => rfl) (fun _ => rfl) fun _ => rfl
  all_goals exact fun _ => rfl

end Node

/-! ## Peers -/

/-- What a leader takes for matching, a peer of no later term has, or it has cut it off as
committed. -/
theorem Reachable.match_truthful (hc : Reachable S c) {id j : ℕ} {e : LogEntry}
    (hi : i ∈ S.info.nodes.keys) (hl : (c.nodes i).role = .leader)
    (hp : (c.nodes i).peer? id = some p)
    (hterm : (c.nodes id).log.currentTerm ≤ (c.nodes i).log.currentTerm) (hj : j ≤ p.matchIndex)
    (he : (c.nodes i).log.getEntry j = some e) :
    (c.nodes id).log.getEntry j = some e ∨ (j < (c.nodes id).log.firstIndex ∧
      ∃ d, Reachable S d ∧ RunsTo S d c ∧ (d.nodes id).log.getEntry j = some e ∧
        j ≤ (d.nodes id).commitIndex) := by
  have hkey : ∀ b : S.Abstract, Refines S c b.1 →
      id ∈ S.info.nodes.keys ∧ entryAt (b.1.log id) j = some e := by
    intro b hb
    have hid := (Node.mem_keys_of_peer (hb.nodes i hi).members hp).1
    refine ⟨hid, ?_⟩
    rw [(hb.agree_match hi hl hp hid hterm).entryAt_eq hj]
    exact (hb.nodes i hi).durable.entryAt_of_getEntry he
  obtain ⟨a, ha⟩ := hc.refines
  obtain ⟨hid, hentry⟩ := hkey a ha
  rcases Nat.lt_or_ge j (c.nodes id).log.firstIndex with hlt | hge
  · have hpos := (c.nodes i).log.first_pos.trans (Log.first_le_of_getEntry he)
    obtain ⟨d, f, hd, hrun, hf, hcommit⟩ := hc.cut_off hid hpos hlt
    obtain ⟨b, hb⟩ := hd.refines
    obtain ⟨b', hg, hb'⟩ := hrun.refines hb
    have hsame := (hg.committed_log id).entryAt_eq (hcommit.trans (hb.nodes id hid).commit_le)
    rw [(hkey b' hb').2, (hb.nodes id hid).durable.entryAt_of_getEntry hf] at hsame
    exact Or.inr ⟨hlt, d, hd, hrun, hf.trans hsame.symm, hcommit⟩
  · exact Or.inl (by rw [(ha.nodes id hid).durable.getEntry_eq hge, hentry])

/-- **What a leader knows of its peers.** In every run with at most one open call to a peer, the
next index of a peer lies above its match index and not beyond the leader's log, a peer of no later
term has what the leader takes for matching, or has cut it off as committed, and the answer to an
open call fails no assertion. -/
theorem leader_peer_invariant {c : Cluster} (hc : RunsUnder S (Cluster.Orderly S) S.init c) {i : ℕ}
    (hi : i ∈ S.info.nodes.keys) :
    ((c.nodes i).role = .leader → ∀ id p, (c.nodes i).peer? id = some p →
      (1 ≤ p.nextIndex ∧ p.matchIndex < p.nextIndex ∧
        p.nextIndex ≤ (c.nodes i).log.lastIndex + 1) ∧
      ((c.nodes id).log.currentTerm ≤ (c.nodes i).log.currentTerm → ∀ j e, j ≤ p.matchIndex →
        (c.nodes i).log.getEntry j = some e →
        (c.nodes id).log.getEntry j = some e ∨ (j < (c.nodes id).log.firstIndex ∧
          ∃ d, Reachable S d ∧ RunsTo S d c ∧ (d.nodes id).log.getEntry j = some e ∧
            j ≤ (d.nodes id).commitIndex))) ∧
    (∀ src call q, ⟨src, i, call, .appendEntriesResponse q⟩ ∈ c.net →
      ⟨call, i, src⟩ ∈ c.calls → ∀ clk, ∃ x,
        ((c.nodes i).handle (S.config i) (.appendEntriesResponse clk src (some q))).result =
          .ok x) := by
  obtain ⟨a, ha, hcalls, -⟩ := hc.callsOk
  have hd := ha.nodes i hi
  constructor
  · intro hl id p hp
    have hpeer := hd.peers hl id p hp
    rw [← hd.durable.lastIndex_eq] at hpeer
    refine ⟨⟨Nat.lt_of_le_of_lt (Nat.zero_le _) hpeer.match_lt, hpeer.match_lt, hpeer.next_le⟩, ?_⟩
    intro hterm j e hj he
    exact Reachable.match_truthful hc.runsTo hi hl hp hterm hj he
  · intro src call q hmem hopen clk
    obtain ⟨r, hcall⟩ := hcalls.calls _ hopen
    obtain ⟨r', hmem', hans⟩ := hcalls.answers _ hmem q rfl
    obtain rfl : r = r' := by
      simpa using hcalls.unique _ hcall.sent _ hmem' r r' rfl rfl rfl
    have hid : q.id = src := (ha.net _ hmem).1
    have hsat := Node.receiveAppendEntriesResponse_ok (S.config i) clk src hd.clearOutbox hans
      { hcall.awaits with } (hid ▸ hcall.answered q hmem)
    have hall : ((c.nodes i).handle (S.config i) (.appendEntriesResponse clk src (some q))).Sat
        (fun _ => True) (fun _ => True) fun _ => False :=
      Sat.bind hsat fun _ _ => sat_pure.mpr trivial
    obtain ⟨x, hx, -⟩ := hall.exists_result
    exact ⟨x, hx⟩

/-- Node `1` of three voters answers a heartbeat of node `2`, to which it has acknowledged two
entries before. -/
def Scenario.heartbeat : List Action := replicated ++ [replicate 2 4000000, deliver 1 8 4000001]

theorem leader_peer_invariant_heartbeat :
    ∃ c p e q x, RunsUnder threeVoters (Cluster.Orderly threeVoters)
        threeVoters.init c ∧ (c.nodes 2).role = .leader ∧
      (c.nodes 2).peer? 1 = some p ∧ p.matchIndex = 2 ∧ (c.nodes 2).log.getEntry 2 = some e ∧
      ((c.nodes 1).log.getEntry 2 = some e ∨ 2 < (c.nodes 1).log.firstIndex) ∧
      ⟨1, 2, 5, .appendEntriesResponse q⟩ ∈ c.net ∧ ⟨5, 2, 1⟩ ∈ c.calls ∧
      ((c.nodes 2).handle config
        (.appendEntriesResponse ⟨4000002, 1⟩ 1 (some q))).result = .ok x := by
  have hrun : (threeVoters.init.runUnder threeVoters
      (Cluster.Orderly threeVoters) heartbeat).any (fun c =>
        (c.nodes 2).role = .leader ∧ ((c.nodes 2).peer? 1).any (fun p => p.matchIndex = 2) ∧
        (c.nodes 1).log.currentTerm ≤ (c.nodes 2).log.currentTerm ∧
        (c.nodes 2).log.getEntry 2 = some ⟨1, 2, false, 0, [], 0, none⟩ ∧
        c.net[9]? = some ⟨1, 2, 5, .appendEntriesResponse ⟨1, true, 1, 1, 2, 2, 2⟩⟩ ∧
        ⟨5, 2, 1⟩ ∈ c.calls) = true := by
    decide +kernel
  obtain ⟨c, hc, hp⟩ := (Option.any_eq_true _ _).mp hrun
  obtain ⟨hl, hpeer, hterm, he, hq, hcall⟩ := of_decide_eq_true hp
  obtain ⟨p, hp, hmatch⟩ := (Option.any_eq_true _ _).mp hpeer
  have hmatch := of_decide_eq_true hmatch
  have hc := runsUnder_of_runUnder .refl hc
  have hq := List.mem_of_getElem? hq
  have hinv := leader_peer_invariant hc (i := 2) (by decide)
  obtain ⟨x, hx⟩ := hinv.2 1 5 _ hq hcall ⟨4000002, 1⟩
  refine ⟨c, p, _, _, x, hc, hl, hp, hmatch, he, ?_, hq, hcall, hx⟩
  exact ((hinv.1 hl 1 p hp).2 hterm 2 _ hmatch.ge he).imp_right fun h => h.1

end Gringofts
