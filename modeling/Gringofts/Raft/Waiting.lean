import Gringofts.Raft.Clients

/-!
# The clients that wait at a node

A leader remembers the handles of the requests it has appended until their entries are committed.
They are answered in two places only. A leader that raises its commit index answers the front of
the list with code `200`, and a leader that steps down turns everybody away with code `301`. Every
other event leaves the list alone, and leaves the log above the commit index as it is; what a node
does while it does not lead does not matter, for then nobody waits.

## Main definitions

* `Node.Attends` — what an event does to the clients that wait, with one case for each thing that
  can happen
* `Node.Waits` — the waiting requests are those whose entries are not committed yet

## Main results

* `Node.handle_attends` — every event attends to the clients
* `Node.Waits.attends`, `Node.Attends.count_le`, `Node.Waits.committed` — what follows for the
  list, for how often a handle is answered, and for what code `200` says
-/

namespace Gringofts

open ClientRequest

variable {handle k : ℕ} {ps : List (ℕ × Option ℕ)} {ev : Event} {p : ℕ × Option ℕ}
  {cs : List ClientRequest}

/-! ## Answers -/

/-- The handles that wait. -/
def handlesOf (ps : List (ℕ × Option ℕ)) : List ℕ := ps.filterMap Prod.snd

theorem handlesOf_append (ps qs : List (ℕ × Option ℕ)) :
    handlesOf (ps ++ qs) = handlesOf ps ++ handlesOf qs :=
  List.filterMap_append

theorem map_fst_repliesTo (code : ℕ) (ps : List (ℕ × Option ℕ)) :
    (repliesTo code ps).map Prod.fst = handlesOf ps := by
  rw [repliesTo, handlesOf, List.map_filterMap]
  congr 1
  funext p
  cases p.2 <;> rfl

theorem handlesOf_pending (cs : List ClientRequest) :
    handlesOf (cs.map ClientRequest.pending) = cs.filterMap ClientRequest.handle := by
  rw [handlesOf, List.filterMap_map]
  rfl

theorem mem_repliesTo {code code' : ℕ} (h : (handle, code') ∈ repliesTo code ps) :
    code' = code ∧ ∃ p ∈ ps, p.2 = some handle := by
  obtain ⟨p, hp, heq⟩ := List.mem_filterMap.mp h
  obtain ⟨handle', hhandle, heq'⟩ := Option.map_eq_some_iff.mp heq
  cases heq'
  exact ⟨rfl, p, hp, hhandle⟩

namespace Node

variable {n m : Node}

/-! ## What an event does to the clients -/

/-- The node goes on leading, with the same commit index, and has everything above it still. -/
structure Holds (n m : Node) : Prop where
  role_eq : m.role = .leader
  commit_eq : m.commitIndex = n.commitIndex
  entry : ∀ j e, n.commitIndex < j → n.log.getEntry j = some e → m.log.getEntry j = some e

/-- **What an event does to the clients that wait**, where `cs` is the batch that the event
brings. -/
inductive Attends (n : Node) (cs : List ClientRequest) (m : Node) : Prop
  /-- Nobody is answered, and nobody waits in addition. -/
  | keeps (pending_eq : m.pendingClientRequests = n.pendingClientRequests)
      (replies_eq : m.replies = []) (holds : n.role = .leader → n.Holds m)
  /-- All are turned away. -/
  | dismisses (role_ne : m.role ≠ .leader) (pending_eq : m.pendingClientRequests = [])
      (replies_eq : m.replies = repliesTo 301 n.pendingClientRequests)
  /-- The commit index has risen, and those are answered whom it has passed. -/
  | commits (role_eq : m.role = .leader) (log_eq : m.log = n.log)
      (pending_eq : m.pendingClientRequests =
        (splitPending m.commitIndex n.pendingClientRequests).2)
      (replies_eq : m.replies =
        repliesTo 200 (splitPending m.commitIndex n.pendingClientRequests).1)
  /-- The batch is taken. -/
  | takes (role_eq : m.role = .leader) (commit_eq : m.commitIndex = n.commitIndex)
      (first_eq : m.log.firstIndex = n.log.firstIndex)
      (entries_eq : m.log.entries = n.log.entries ++
        (selectRequests n.log.currentTerm n.log.lastIndex cs).map entry)
      (pending_eq : m.pendingClientRequests = n.pendingClientRequests ++
        (selectRequests n.log.currentTerm n.log.lastIndex cs).map pending)
      (replies_eq : m.replies = [])
  /-- The batch is refused. -/
  | refuses (role_ne : n.role ≠ .leader) (role_eq : m.role = n.role)
      (pending_eq : m.pendingClientRequests = n.pendingClientRequests)
      (replies_eq : m.replies = repliesTo 301 (cs.map pending))

/-- The node goes on leading with the same commit index and the same window, or it leads no
more. -/
theorem Rests.attends (h : n.Rests m) (hout : n.replies = []) (cs : List ClientRequest)
    (hholds : m.role = .leader → n.Holds m) : n.Attends cs m := by
  by_cases hm : m.role = .leader
  · obtain ⟨-, hpending, hreplies⟩ := h.stays hm
    exact .keeps hpending (hreplies.trans hout) fun _ => hholds hm
  · by_cases hn : n.role = .leader
    · obtain ⟨hpending, hreplies⟩ := h.leaves hm hn
      rw [hout] at hreplies
      exact .dismisses hm hpending hreplies
    · obtain ⟨hpending, hreplies⟩ := h.follows hm hn
      exact .keeps hpending (hreplies.trans hout) fun hlead => absurd hlead hn

theorem Idles.attends (h : n.Idles m) (hout : n.replies = []) (cs : List ClientRequest) :
    n.Attends cs m :=
  h.rests.attends hout cs fun hm => ⟨hm, h.commit_eq, fun j _ _ => h.log.keeps.entry j _⟩

theorem handleClientRequests_attends (cs : List ClientRequest) (hout : n.replies = []) :
    (n.handleClientRequests cs).Sat (fun _ => True) (n.Attends cs) fun _ => True := by
  by_cases hrole : n.role = .leader
  · obtain ⟨l, hres, hfirst, hentries⟩ := handleClientRequests_leader cs hrole
    refine ⟨fun _ _ => trivial, ?_⟩
    rw [hres]
    exact .takes hrole rfl hfirst hentries rfl hout
  · rw [handleClientRequests, if_pos hrole]
    refine Outcome.sat_pure.mpr (.refuses hrole rfl rfl ?_)
    rw [replies, List.filterMap_append, filterMap_replyPending]
    exact congrArg (· ++ _) hout

/-- Every event but a batch of requests, at a leader that is its own leader and gets no AE request
in its own name. -/
theorem Handles.attends {cfg : RaftConfig} (h : n.Handles cfg ev m) (hout : n.replies = [])
    (hbatch : ∀ cs, ev ≠ .clientRequests cs)
    (hleader : ∀ clk r, ev = .appendEntriesRequest clk r → n.role = .leader →
      n.leaderId ≠ 0 ∧ n.leaderId ≠ r.leaderId) : n.Attends [] m := by
  -- the outbox is left alone by most events
  have hsilent : ∀ {k : Node}, k.outbox = n.outbox → k.replies = [] := by
    intro k hk
    rw [replies, hk]
    exact hout
  cases h with
  | idles h => exact h.attends hout []
  | dispatches leader h =>
    refine .keeps h.pending_eq (h.replies_eq.trans hout) fun _ =>
      ⟨h.role_eq.trans leader, h.commit_eq, fun j e _ he => ?_⟩
    rw [h.log_eq, he]
  | @obeys clk r k _ h hsender h' =>
    -- a leader that has not stepped down takes nobody else for its leader
    have hne : k.role ≠ .leader := fun hk => by
      obtain ⟨hzero, hother⟩ := hleader clk r rfl (h.quiet.leader hk).1
      exact (hsender hk).elim hzero hother
    have hne' : m.role ≠ .leader := h'.role_eq ▸ hne
    have hreplies : m.replies = k.replies := by rw [replies, h'.outbox_eq, replies]
    exact (h.rests.trans (rests_of_ne hne hne' h'.pending_eq hreplies)).attends hout []
      fun hm => absurd hm hne'
  | records h =>
    refine .keeps h.pending_eq (hsilent h.outbox_eq) fun _ =>
      ⟨h.role_eq.trans h.leader, h.commit_eq, fun j e _ he => ?_⟩
    rw [h.log_eq, he]
  | refuses role_ne => exact absurd rfl (hbatch _)
  | takes leader h => exact absurd rfl (hbatch _)
  | commits leader commit_lt =>
    refine .commits leader rfl rfl ?_
    rw [replies, List.filterMap_append, filterMap_replyPending]
    exact congrArg (· ++ _) hout
  | wins h =>
    -- a candidate has nobody waiting, so it may append to its log
    refine .keeps h.pending_eq (hsilent h.outbox_eq) fun hlead => ?_
    rw [h.candidate] at hlead
    cases hlead
  | truncates hk =>
    refine .keeps rfl hout fun hrole => ⟨hrole, rfl, fun j e hj he => ?_⟩
    -- what is cut off is committed
    refine (n.log.sheds_truncatePrefix _).entry j e ?_ he
    rw [Log.truncatePrefix_firstIndex]
    exact max_le (Log.first_le_of_getEntry he) (hk.trans hj.le)

end Node

/-- The requests that an event brings. -/
def Event.batch : Event → List ClientRequest
  | .clientRequests cs => cs
  | _ => []

/-- **Every event attends to the clients**, if a leader is its own leader and gets no AE request
in its own name. -/
theorem Node.handle_attends (cfg : RaftConfig) {n : Node} (hs : n.role ≠ .syncer)
    (hconf : ∀ clk selfId info, ev ≠ .reconfigureRequest clk selfId info)
    (hleader : ∀ clk r, ev = .appendEntriesRequest clk r → n.role = .leader →
      n.leaderId ≠ 0 ∧ n.leaderId ≠ r.leaderId) :
    (n.handle cfg ev).Sat (fun _ => True) (fun x => n.Attends ev.batch x.1) fun _ => True := by
  -- the outbox is emptied first, and nothing else of the node is looked at
  have hfresh : ∀ {cs : List ClientRequest} {m : Node},
      Attends { n with outbox := [] } cs m → n.Attends cs m := by
    intro cs m hm
    cases hm with
    | keeps hpending hreplies hholds => exact .keeps hpending hreplies fun hr => { hholds hr with }
    | dismisses hrole hpending hreplies => exact .dismisses hrole hpending hreplies
    | commits hrole hlog hpending hreplies => exact .commits hrole hlog hpending hreplies
    | takes hrole hcommit hfirst hentries hpending hreplies =>
      exact .takes hrole hcommit hfirst hentries hpending hreplies
    | refuses hne hrole hpending hreplies => exact .refuses hne hrole hpending hreplies
  by_cases hbatch : ∃ cs, ev = .clientRequests cs
  · obtain ⟨cs, rfl⟩ := hbatch
    exact (handleClientRequests_attends (n := { n with outbox := [] }) cs rfl).bind
      fun m hm => Outcome.sat_pure.mpr (hfresh hm)
  · have hempty : ev.batch = [] := by
      cases ev with
      | clientRequests cs => exact absurd ⟨cs, rfl⟩ hbatch
      | _ => rfl
    rw [hempty]
    exact (handle_sat cfg (fun _ _ _ => hs) hconf).mono (fun _ _ => trivial)
      (fun x hx => hfresh (hx.attends rfl (fun cs h => hbatch ⟨cs, h⟩) hleader)) fun _ => id

namespace Node

variable {n m : Node}

/-! ## The list of those who wait -/

theorem splitPending_append (k : ℕ) (ps : List (ℕ × Option ℕ)) :
    (splitPending k ps).1 ++ (splitPending k ps).2 = ps := by
  induction ps with
  | nil => rfl
  | cons p ps ih =>
    rw [splitPending]
    split
    · rfl
    · exact congrArg (p :: ·) ih

theorem le_of_mem_splitPending (hp : p ∈ (splitPending k ps).1) : p.1 ≤ k := by
  induction ps with
  | nil => cases hp
  | cons q ps ih =>
    rw [splitPending] at hp
    split at hp
    · cases hp
    · next hq =>
      rcases List.mem_cons.mp hp with rfl | hp
      · exact Nat.not_lt.mp hq
      · exact ih hp

/-- Only the front of the list is looked at, which is enough since the list is sorted. -/
theorem lt_of_mem_splitPending (hsorted : ps.Pairwise fun p q => p.1 < q.1)
    (hp : p ∈ (splitPending k ps).2) : k < p.1 := by
  induction ps with
  | nil => cases hp
  | cons q ps ih =>
    obtain ⟨hq, hps⟩ := List.pairwise_cons.mp hsorted
    rw [splitPending] at hp
    split at hp
    · next hlt =>
      rcases List.mem_cons.mp hp with rfl | hp
      · exact hlt
      · exact hlt.trans (hq p hp)
    · exact ih hps hp

theorem lt_of_mem_selectRequests {t last : ℕ} {c : ClientRequest}
    (hc : c ∈ selectRequests t last cs) : last < c.entry.index := by
  obtain ⟨j, hj⟩ := List.mem_iff_getElem?.mp (List.mem_map_of_mem (f := entry) hc)
  have hindex := (selectRequests_spec cs last j hj).2
  omega

/-- What a leader takes carries one index after the other. -/
theorem selectRequests_sorted (t last : ℕ) (cs : List ClientRequest) :
    ((selectRequests t last cs).map pending).Pairwise fun p q => p.1 < q.1 := by
  rw [List.pairwise_map]
  induction cs generalizing last with
  | nil => exact .nil
  | cons c cs ih =>
    rw [selectRequests]
    split
    · next hc =>
      refine List.pairwise_cons.mpr ⟨fun d hd => ?_, ih _⟩
      have hlt := lt_of_mem_selectRequests hd
      change c.entry.index < d.entry.index
      omega
    · exact ih _

/-- **The waiting requests** of a node, among those that were submitted to it: nobody waits unless
the node leads, the indices rise, none of them is committed, and each has its own entry in the
log. -/
structure Waits (n : Node) (submitted : List ClientRequest) : Prop where
  idle : n.role ≠ .leader → n.pendingClientRequests = []
  sorted : n.pendingClientRequests.Pairwise fun p q => p.1 < q.1
  commit_lt : ∀ p ∈ n.pendingClientRequests, n.commitIndex < p.1
  entry : ∀ p ∈ n.pendingClientRequests,
    ∃ c ∈ submitted, c.pending = p ∧ n.log.getEntry p.1 = some c.entry

theorem waits_of_idle (h : n.pendingClientRequests = []) (submitted : List ClientRequest) :
    n.Waits submitted where
  idle _ := h
  sorted := by
    rw [h]
    exact .nil
  commit_lt p hp := by
    rw [h] at hp
    cases hp
  entry p hp := by
    rw [h] at hp
    cases hp

namespace Waits

variable {submitted cs : List ClientRequest}

/-- Whoever waits, waits for an index of the log. -/
theorem le_last (h : n.Waits submitted) (hp : p ∈ n.pendingClientRequests) :
    p.1 ≤ n.log.lastIndex := by
  obtain ⟨c, -, -, hentry⟩ := h.entry p hp
  exact Log.last_ge_of_getEntry hentry

/-- A leader that takes a batch puts it behind those who wait. -/
theorem takes (h : n.Waits submitted) (hle : n.commitIndex ≤ n.log.lastIndex)
    (hrole : m.role = .leader) (hcommit : m.commitIndex = n.commitIndex)
    (hfirst : m.log.firstIndex = n.log.firstIndex)
    (hentries : m.log.entries = n.log.entries ++
      (selectRequests n.log.currentTerm n.log.lastIndex cs).map ClientRequest.entry)
    (hpending : m.pendingClientRequests = n.pendingClientRequests ++
      (selectRequests n.log.currentTerm n.log.lastIndex cs).map pending) :
    m.Waits (submitted ++ cs) := by
  constructor
  · exact fun hne => absurd hrole hne
  · rw [hpending]
    refine List.pairwise_append.mpr ⟨h.sorted, selectRequests_sorted _ _ _, fun p hp q hq => ?_⟩
    obtain ⟨c, hc, rfl⟩ := List.mem_map.mp hq
    exact (h.le_last hp).trans_lt (lt_of_mem_selectRequests hc)
  · intro p hp
    rw [hpending] at hp
    rw [hcommit]
    rcases List.mem_append.mp hp with hp | hp
    · exact h.commit_lt p hp
    · obtain ⟨c, hc, rfl⟩ := List.mem_map.mp hp
      exact hle.trans_lt (lt_of_mem_selectRequests hc)
  · intro p hp
    rw [hpending] at hp
    rcases List.mem_append.mp hp with hp | hp
    · obtain ⟨c, hc, heq, hentry⟩ := h.entry p hp
      refine ⟨c, List.mem_append_left _ hc, heq, ?_⟩
      exact (Log.getEntry_eq_of_entries hfirst hentries (h.le_last hp)).trans hentry
    · obtain ⟨c, hc, rfl⟩ := List.mem_map.mp hp
      refine ⟨c, List.mem_append_right _ ?_, rfl, getEntry_of_selected hfirst hentries hc⟩
      exact (selectRequests_sublist _ _ cs).subset hc

/-- **An event keeps the list in order.** -/
theorem attends (h : n.Waits submitted) (hle : n.commitIndex ≤ n.log.lastIndex)
    (ha : n.Attends cs m) : m.Waits (submitted ++ cs) := by
  cases ha with
  | keeps hpending hreplies hholds =>
    by_cases hrole : n.role = .leader
    · have hheld := hholds hrole
      constructor
      · exact fun hne => absurd hheld.role_eq hne
      · rw [hpending]
        exact h.sorted
      · intro p hp
        rw [hpending] at hp
        rw [hheld.commit_eq]
        exact h.commit_lt p hp
      · intro p hp
        rw [hpending] at hp
        obtain ⟨c, hc, heq, hentry⟩ := h.entry p hp
        exact ⟨c, List.mem_append_left _ hc, heq, hheld.entry _ _ (h.commit_lt p hp) hentry⟩
    · exact waits_of_idle (hpending.trans (h.idle hrole)) _
  | dismisses hrole hpending hreplies => exact waits_of_idle hpending _
  | commits hrole hlog hpending hreplies =>
    have hsub : ∀ p ∈ m.pendingClientRequests, p ∈ n.pendingClientRequests := by
      intro p hp
      rw [hpending] at hp
      rw [← splitPending_append m.commitIndex n.pendingClientRequests]
      exact List.mem_append_right _ hp
    constructor
    · exact fun hne => absurd hrole hne
    · have hsorted := h.sorted
      rw [← splitPending_append m.commitIndex n.pendingClientRequests] at hsorted
      rw [hpending]
      exact (List.pairwise_append.mp hsorted).2.1
    · intro p hp
      rw [hpending] at hp
      exact lt_of_mem_splitPending h.sorted hp
    · intro p hp
      obtain ⟨c, hc, heq, hentry⟩ := h.entry p (hsub p hp)
      rw [hlog]
      exact ⟨c, List.mem_append_left _ hc, heq, hentry⟩
  | takes hrole hcommit hfirst hentries hpending hreplies =>
    exact h.takes hle hrole hcommit hfirst hentries hpending
  | refuses hne hrole hpending hreplies =>
    exact waits_of_idle (hpending.trans (h.idle hne)) _

/-- **Code `200` is the truth.** A handle is answered with it only if a request was submitted with
that handle, its very entry is at its index, and the index is committed. -/
theorem committed (h : n.Waits submitted) (ha : n.Attends cs m)
    (hreply : (handle, 200) ∈ m.replies) :
    ∃ c ∈ submitted, c.handle = some handle ∧ m.log.getEntry c.entry.index = some c.entry ∧
      c.entry.index ≤ m.commitIndex := by
  have hother : ∀ {ps : List (ℕ × Option ℕ)}, (handle, 200) ∉ repliesTo 301 ps := by
    intro ps hmem
    have hcode := (mem_repliesTo hmem).1
    omega
  cases ha with
  | keeps hpending hreplies hholds =>
    rw [hreplies] at hreply
    cases hreply
  | dismisses hrole hpending hreplies =>
    rw [hreplies] at hreply
    exact absurd hreply hother
  | commits hrole hlog hpending hreplies =>
    rw [hreplies] at hreply
    obtain ⟨-, p, hp, hhandle⟩ := mem_repliesTo hreply
    have hmem : p ∈ n.pendingClientRequests := by
      rw [← splitPending_append m.commitIndex n.pendingClientRequests]
      exact List.mem_append_left _ hp
    obtain ⟨c, hc, rfl, hentry⟩ := h.entry p hmem
    rw [hlog]
    exact ⟨c, hc, hhandle, hentry, le_of_mem_splitPending hp⟩
  | takes hrole hcommit hfirst hentries hpending hreplies =>
    rw [hreplies] at hreply
    cases hreply
  | refuses hne hrole hpending hreplies =>
    rw [hreplies] at hreply
    exact absurd hreply hother

end Waits

/-- **Nobody is answered twice.** What an event answers, and what waits after it, has waited before
or is of the batch. -/
theorem Attends.count_le (ha : n.Attends cs m) (handle : ℕ) :
    (m.replies.map Prod.fst).count handle + (handlesOf m.pendingClientRequests).count handle ≤
      (handlesOf n.pendingClientRequests).count handle +
        (cs.filterMap ClientRequest.handle).count handle := by
  cases ha with
  | keeps hpending hreplies hholds =>
    rw [hpending, hreplies, List.map_nil, List.count_nil]
    omega
  | dismisses hrole hpending hreplies =>
    rw [hpending, hreplies, map_fst_repliesTo]
    exact Nat.add_le_add_left (Nat.zero_le _) _
  | commits hrole hlog hpending hreplies =>
    have hsplit := congrArg handlesOf (splitPending_append m.commitIndex n.pendingClientRequests)
    rw [handlesOf_append] at hsplit
    rw [hpending, hreplies, map_fst_repliesTo, ← hsplit, List.count_append]
    exact Nat.le_add_right _ _
  | takes hrole hcommit hfirst hentries hpending hreplies =>
    have hsub := ((selectRequests_sublist n.log.currentTerm n.log.lastIndex cs).filterMap
      ClientRequest.handle).count_le handle
    rw [← handlesOf_pending] at hsub
    rw [hpending, hreplies, List.map_nil, List.count_nil, Nat.zero_add, handlesOf_append,
      List.count_append]
    exact Nat.add_le_add_left hsub _
  | refuses hne hrole hpending hreplies =>
    rw [hpending, hreplies, map_fst_repliesTo, handlesOf_pending]
    omega

end Node

end Gringofts
