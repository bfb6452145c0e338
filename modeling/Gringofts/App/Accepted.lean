import Gringofts.App.Promises

/-!
# What an accepted command has seen

A command that is appended in the end has been processed on exactly the log before it, and one that
is answered with success rests on entries that are committed. This holds in every run of a
replicated application, whatever its threads read at what moment, and however often the office
changes hands.

## Main definitions

* `Chronicle.scene` — what the application of a node can find in a cluster
* `Service.Inv` — the invariant of a replicated application

## Main results

* `Ledger.Inv.office_of_ready` — an application that takes office has the state of its log
* `Service.Inv.step`, `Service.Reachable.inv`
* `accepted_command_sees_log`
* `success_reply_committed`
-/

namespace Gringofts

open Replication Scenario

variable {S : Setup} {σ ε : Type} {e : LogEntry} {s : Scene} {c : Chronicle}
  {act : Gringofts.Action}

/-! ## The scenes of a cluster -/

/-- What the application of node `i` can find. -/
def Chronicle.scene (w : Chronicle) (a : State ℕ LogEntry) (L : Ledger) (i : ℕ) : Scene :=
  ⟨a.leader, L, w.known, w.cluster.nodes i⟩

section Scenes

variable {m : StateMachine σ ε} {codec : EntryCodec ε} {w w' : Chronicle} {a b : S.Abstract}
  {L L' : Ledger} {i : ℕ}

theorem Chronicle.Inv.leads (hw : w.Inv S a.1) (hi : i ∈ S.info.nodes.keys)
    (hrole : (w.cluster.nodes i).role = .leader) :
    a.1.leader (w.cluster.nodes i).log.currentTerm = some i := by
  have hd := hw.refines.nodes i hi
  rw [hd.durable.term_eq]
  exact (hd.leader hrole).1

theorem Chronicle.Inv.scene_ok (hw : w.Inv S a.1) (hi : i ∈ S.info.nodes.keys) :
    (w.scene a.1 L i).Ok i :=
  ⟨hw.commit_le i hi, hw.leads hi⟩

/-- **An application that takes office** has the state of the log of its term, or the node has lost
the term. -/
theorem Ledger.Inv.office_of_ready (hL : L.Inv S codec w a.1) (hw : w.Inv S a.1)
    (hi : i ∈ S.info.nodes.keys) {loop : EventApplyLoop σ ε} {term last : ℕ}
    (hfresh : L.Fresh term)
    (h : (LoopPhase.ready last : LoopPhase σ ε).Informed m codec.toEntryDecoder
      (w.cluster.nodes i) w.known loop term) :
    App.Office m codec (w.scene a.1 L i) term last loop.appStateMachine := by
  obtain ⟨hcommit, ⟨e, he, -, rfl⟩, offset, p, ht, hoffset, hscanned⟩ := h
  obtain ⟨hle, hagree⟩ := hL.agree_promised hw he
  have hlast : last = (L.promised e.term).length := by
    refine hfresh last e ?_ rfl
    rw [← hagree.entryAt_eq (Nat.le_refl last)]
    exact he
  have hp : p ≤ (w.cluster.nodes i).commitIndex :=
    ht.le_commit.trans (max_le (hoffset.trans hcommit) (Nat.le_refl _))
  have hstate : loop.appStateMachine = m.stateAt codec.toEntryDecoder w.known (max p last) := by
    rw [hscanned.stateAt_eq, ht.state]
  by_cases hin : (w.cluster.nodes i).role = .leader ∧ (w.cluster.nodes i).log.currentTerm = e.term
  · -- the log of the term ends with its `noop`, so nothing beyond it is committed at its leader
    obtain ⟨hrole, hterm⟩ := hin
    have hlength : (w.archive i).length ≤ last := by
      rw [← hL.leaders i hi hrole, hterm, hlast]
      exact (hL.appended_promised _).length_le
    have hknown : (w.cluster.nodes i).commitIndex ≤ (w.archive i).length :=
      (hw.agree hi (Nat.le_refl _)).2.1
    refine .sound hlast ?_
    rw [hstate, max_eq_right (hp.trans (hknown.trans hlength))]
    exact StateMachine.stateAt_of_agree hagree
  · exact .lost hin hlast.ge fun _ =>
      ⟨max p last, le_max_right _ _, max_le hp hcommit, hstate⟩

/-- A promise of node `i` is nothing to the others. -/
theorem passes_promise {j t : ℕ} (hlead : a.1.leader t = some i) (hji : j ≠ i) :
    (w.scene a.1 L j).Passes j (w.scene a.1 (L.promise t e) j) where
  leader _ := id
  promised s hs := L.promise_promised_of_ne e fun heq => by
    subst heq
    exact hji (Option.some.inj (hs.symm.trans hlead))
  known := List.prefix_refl _
  commit_le := Nat.le_refl _
  term_le := Nat.le_refl _
  stays hrole _ := hrole
  office _ _ hrole hterm := ⟨hrole, hterm⟩
  elected hrole := Or.inl ⟨hrole, rfl⟩

/-- **A step of the cluster**, for a node that goes on running. -/
theorem Chronicle.Inv.passes_step (hw : w.Inv S a.1) {act : Action} (hs : w.step S act = some w')
    (hg : Grows a.1 b.1) (hknown : w.known <+: w'.known)
    (hpromised : ∀ t, a.1.leader t ≠ none → L'.promised t = L.promised t)
    (hfresh : (w'.cluster.nodes act.node).role = .leader →
      (w.cluster.nodes act.node).role ≠ .leader →
      L'.Fresh (w'.cluster.nodes act.node).log.currentTerm)
    (hi : i ∈ S.info.nodes.keys) (hrun : i = act.node → act.isCrash = false) :
    (w.scene a.1 L i).Passes i (w'.scene b.1 L' i) := by
  have hcluster := Chronicle.cluster_step hs
  have hkeeps : ∀ t, a.1.leader t = some i → L'.promised t = L.promised t := fun t ht =>
    hpromised t (ht ▸ Option.some_ne_none i)
  have hcommit := Cluster.step_commit_le hw.refines hcluster hrun
  by_cases hin : i = act.node
  · subst hin
    have hstays := Cluster.step_stays hw.refines hcluster (hrun rfl)
    refine ⟨fun t => hg.leader_eq, hkeeps, hknown, hcommit, hstays.term_le, hstays.office,
      fun t ht hl hterm => ?_, fun hl => ?_⟩
    · obtain ⟨-, hsame, hrole | ⟨hcand, clk, hown⟩⟩ :=
        Cluster.step_leader hw.refines hcluster hl
      · exact ⟨hrole, hsame.symm.trans hterm⟩
      · -- the term was open, so nobody has led it
        rcases hw.candidate_step hs hown hcand with ⟨-, hne⟩ | ⟨hopen, -⟩
        · exact absurd hl hne
        · have ht : a.1.leader t = some act.node := ht
          rw [← hsame.symm.trans hterm] at ht
          cases hopen.symm.trans ht
    · obtain ⟨-, hsame, hrole | ⟨hcand, -⟩⟩ := Cluster.step_leader hw.refines hcluster hl
      · exact Or.inl ⟨hrole, hsame⟩
      · refine Or.inr (hfresh hl ?_)
        rw [hcand]
        exact nofun
  · have hnode : (w'.scene b.1 L' i).node = w.cluster.nodes i := Chronicle.nodes_of_ne hs hin
    refine ⟨fun t => hg.leader_eq, hkeeps, hknown, hcommit, ?_, ?_, ?_, ?_⟩
    · rw [hnode]
      exact Nat.le_refl _
    · rw [hnode]
      exact fun hrole _ => hrole
    · rw [hnode]
      exact fun t _ hrole hterm => ⟨hrole, hterm⟩
    · rw [hnode]
      exact fun hrole => Or.inl ⟨hrole, rfl⟩

/-- **A step of the application** keeps its invariant. It may promise another entry. -/
theorem App.Inv.step {app app' : App σ ε} (h : app.Inv m codec (w.scene a.1 L i) i)
    (hw : w.Inv S a.1) (hL : L.Inv S codec w a.1) (hi : i ∈ S.info.nodes.keys)
    {act : App.Action σ ε}
    (hright : ∀ found mv, act = .loop found mv → mv.Right m codec.toEntryDecoder w.known)
    (hs : app.step S m codec w.cluster i act = some app') :
    app'.Inv m codec (w.scene a.1 L i) i ∨
      ∃ t e, a.1.leader t = some i ∧ e.index = (L.promised t).length + 1 ∧ codec.Made e ∧
        app'.Inv m codec (w.scene a.1 (L.promise t e) i) i := by
  have hok := hw.scene_ok (L := L) hi
  cases act with
  | commandLoop found between keyVersion command =>
    obtain ⟨l, hl, hs⟩ := Option.bind_eq_some_iff.mp hs
    by_cases hphase : app.phase = .accepting
    · rw [App.commandLoop.eq_def, hphase] at hs
      obtain rfl := Option.some.inj hs
      refine (h.processCommand hphase keyVersion command).imp_right ?_
      rintro ⟨e, hlead, hindex, hmade, hinv⟩
      exact ⟨_, e, hlead, hindex, hmade, hinv⟩
    · refine Or.inl (h.commandLoop hok (hw.carries_visible hi ⟨found, hl⟩) (fun last hready => ?_)
        hphase hs)
      have hstage := h.stage
      rw [hready] at hstage
      exact hL.office_of_ready hw hi hstage.2.1 hstage.2.2
  | dequeue => exact Or.inl (h.dequeue hs)
  | maySendBatch => exact Or.inl (h.maySendBatch hs)
  | loop found mv =>
    obtain ⟨l, hl, hs⟩ := Option.bind_eq_some_iff.mp hs
    exact Or.inl (h.withLoop hok (hw.carries_visible hi ⟨found, hl⟩) hL.numbered
      (hright found mv rfl) hs)
  | replyTask found k =>
    obtain ⟨l, hl, hs⟩ := Option.bind_eq_some_iff.mp hs
    exact Or.inl (h.replyTask (hw.carries_visible hi ⟨found, hl⟩) hs)

/-- An application that has just been started. -/
theorem App.inv_start {loop : EventApplyLoop σ ε} (hrole : s.node.role ≠ .leader) {offset p : ℕ}
    (ht : loop.Tracks m codec.toEntryDecoder s.node.view s.known offset p) :
    (App.start m loop).Inv m codec s i where
  checked := ⟨rfl, rfl⟩
  term_le := Nat.zero_le _
  led := nofun
  stage := nofun
  fresh hl := absurd hl hrole
  pending _ hp := absurd hp List.not_mem_nil
  tasks _ htask := absurd htask List.not_mem_nil
  loop := Or.inr ⟨offset, p, ht⟩

/-- **What a leader is about to append** was promised, and processed on the log before it. -/
theorem App.Inv.selected {app app' : App σ ε} (h : app.Inv m codec s i) {cs : List ClientRequest}
    (hs : app.serve codec (.own (.clientRequests cs)) = some app') (hrole : s.node.role = .leader)
    (he : e ∈ (Node.selectRequests s.node.log.currentTerm s.node.log.lastIndex cs).map
      ClientRequest.entry) :
    e.term = s.node.log.currentTerm ∧ ∃ p batch rest, app.clientRequests = batch :: rest ∧
      p ∈ batch ∧ e = p.entry codec ∧
      entryAt (s.ledger.promised s.node.log.currentTerm) e.index = some e ∧
      p.basis = m.stateAt codec.toEntryDecoder (s.ledger.promised s.node.log.currentTerm)
        (e.index - 1) := by
  obtain ⟨j, hj⟩ := List.mem_iff_getElem?.mp he
  have hterm := (Node.selectRequests_spec cs _ j hj).1
  refine ⟨hterm, ?_⟩
  rw [App.serve] at hs
  split at hs
  · cases hs
  · next batch rest hrequests =>
    split at hs
    · next hcs =>
      have hmem := ((Node.selectRequests_sublist _ _ cs).map ClientRequest.entry).subset he
      rw [hcs, List.map_map] at hmem
      obtain ⟨p, hp, rfl⟩ := List.mem_map.mp hmem
      have hterm : p.term = s.node.log.currentTerm := hterm
      have hpending : p ∈ app.pending := by
        rw [mem_pending, hrequests]
        exact Or.inl ⟨batch, List.mem_cons_self, hp⟩
      have hpromised := (h.pending p hpending).2
      have hbasis := hpromised.basis (hpromised.office hrole hterm.symm)
      rw [hterm] at hbasis
      exact ⟨p, batch, rest, hrequests, hp, rfl, hbasis⟩
    · cases hs

end Scenes

/-! ## Runs -/

namespace Service

/-- **The invariant of a replicated application.** -/
structure Inv (S : Setup) (m : StateMachine σ ε) (codec : EntryCodec ε) (w : Service σ ε)
    (a : State ℕ LogEntry) (L : Ledger) : Prop where
  chronicle : w.chronicle.Inv S a
  ledger : L.Inv S codec w.chronicle a
  app : ∀ i ∈ S.info.nodes.keys, (w.app i).Inv m codec (w.chronicle.scene a L i) i

variable {m : StateMachine σ ε} {codec : EntryCodec ε} {w w' : Service σ ε} {a : S.Abstract}
  {L : Ledger}

/-- One application changes. -/
theorem apps_update {b : State ℕ LogEntry} {L' : Ledger} {i : ℕ} {app : App σ ε}
    (hself : i ∈ S.info.nodes.keys → app.Inv m codec (c.scene b L' i) i)
    (hothers : ∀ j ∈ S.info.nodes.keys, j ≠ i → (w.app j).Inv m codec (c.scene b L' j) j) :
    ∀ j ∈ S.info.nodes.keys,
      (Function.update w.app i app j).Inv m codec (c.scene b L' j) j := by
  intro j hj
  by_cases hji : j = i
  · subst hji
    rw [Function.update_self]
    exact hself hj
  · rw [Function.update_of_ne hji]
    exact hothers j hj hji

/-- **Raft takes a step**, and takes from the queue what the application has put there. -/
theorem Inv.raft (h : w.Inv S m codec a.1 L) (hs : w.chronicle.step S act = some c) {app : App σ ε}
    (happ : (w.app act.node).serve codec act.input = some app) :
    ∃ (b : S.Abstract) (L' : Ledger), c.Inv S b.1 ∧ L'.Inv S codec c b.1 ∧
      w.chronicle.known <+: c.known ∧
      ∀ i ∈ S.info.nodes.keys, (i = act.node → act.isCrash = false) →
        (w.chronicle.scene a.1 L i).Passes i (c.scene b.1 L' i) := by
  obtain ⟨b, hab, hb, hknown⟩ := h.chronicle.step hs
  have hg := S.grows_of_reach hab
  have hnode := Chronicle.node_mem hs
  obtain ⟨L', hL', hpromised, hfresh⟩ := h.ledger.step h.chronicle hs hb hg
    fun cs hinput hrole e he => by
      rw [hinput] at happ
      obtain ⟨-, p, batch, rest, -, -, -, hentry, -⟩ := (h.app _ hnode).selected happ hrole he
      exact hentry
  exact ⟨b, L', hb, hL', hknown, fun i hi hrun =>
    h.chronicle.passes_step hs hg hknown hpromised hfresh hi hrun⟩

/-- A node that has started again does not lead. -/
theorem role_of_crash {c c' : Cluster} (hs : c.step S act = some c') (hcrash : act.isCrash = true) :
    (c'.nodes act.node).role ≠ .leader := by
  obtain ⟨ev, origin, -, ⟨hrun, -⟩ | ⟨-, l, role, clk, heq, -⟩⟩ := Cluster.step_acting hs
  · rw [hrun] at hcrash
    cases hcrash
  · rw [heq]
    exact S.start_ne_leader _ _ _ _

/-- A node starts again, with a new application. -/
theorem Inv.restart (h : w.Inv S m codec a.1 L) (hs : w.chronicle.step S act = some c)
    (hcrash : act.isCrash = true) {app : App σ ε}
    (happ : (w.app act.node).serve codec act.input = some app) {asyncLoad : Bool} {threads : ℕ}
    {snapshot : Option (ℕ × σ)} {loop : EventApplyLoop σ ε} (hright : ∀ x, snapshot = some x →
      EventApplyLoop.RightSnapshot m codec.toEntryDecoder w.chronicle.known x)
    (hloop : (EventApplyLoop.start m asyncLoad threads).recoverSelf m snapshot = some loop) :
    ∃ (b : S.Abstract) (L' : Ledger),
      Inv S m codec ⟨c, Function.update w.app act.node (App.start m loop)⟩ b.1 L' := by
  obtain ⟨b, L', hb, hL', hknown, hpasses⟩ := h.raft hs happ
  refine ⟨b, L', hb, hL', apps_update (fun hi => ?_) fun i hi hin => ?_⟩
  · obtain ⟨offset, ht, -⟩ := EventApplyLoop.tracks_recoverSelf
      (v := (c.cluster.nodes act.node).view) rfl (fun x hx => (hright x hx).of_isPrefix hknown) rfl
      hloop
    exact App.inv_start (role_of_crash (Chronicle.cluster_step hs) hcrash) ht
  · exact (h.app i hi).passes (h.chronicle.scene_ok hi) (hpasses i hi fun heq => absurd heq hin)

/-- **Each step keeps the invariant.** -/
theorem Inv.step (h : w.Inv S m codec a.1 L) {act : Action σ ε}
    (hright : act.Right m codec w.chronicle.known) (hs : w.step S m codec act = some w') :
    ∃ (b : S.Abstract) (L' : Ledger), w'.Inv S m codec b.1 L' := by
  cases act with
  | raft act =>
    rw [Service.step] at hs
    split at hs
    · cases hs
    · next hrun =>
      obtain ⟨c, hc, hs⟩ := Option.bind_eq_some_iff.mp hs
      obtain ⟨app, happ, hs⟩ := Option.bind_eq_some_iff.mp hs
      obtain rfl := Option.some.inj hs
      obtain ⟨b, L', hb, hL', -, hpasses⟩ := h.raft hc happ
      have hpass : ∀ i ∈ S.info.nodes.keys,
          (w.chronicle.scene a.1 L i).Passes i (c.scene b.1 L' i) :=
        fun i hi => hpasses i hi fun _ => by simpa using hrun
      exact ⟨b, L', hb, hL', apps_update
        (fun hi => ((h.app _ hi).serve happ).passes (h.chronicle.scene_ok hi) (hpass _ hi))
        fun i hi _ => (h.app i hi).passes (h.chronicle.scene_ok hi) (hpass i hi)⟩
  | restart act asyncLoad threads snapshot =>
    rw [Service.step] at hs
    split at hs
    · next hcrash =>
      obtain ⟨c, hc, hs⟩ := Option.bind_eq_some_iff.mp hs
      obtain ⟨app, happ, hs⟩ := Option.bind_eq_some_iff.mp hs
      obtain ⟨loop, hloop, hs⟩ := Option.bind_eq_some_iff.mp hs
      obtain rfl := Option.some.inj hs
      exact h.restart hc hcrash happ hright hloop
    · cases hs
  | app i act =>
    rw [Service.step] at hs
    split at hs
    · next hi =>
      obtain ⟨app, happ, rfl⟩ := Option.map_eq_some_iff.mp hs
      have hmoves : ∀ found mv, act = .loop found mv →
          mv.Right m codec.toEntryDecoder w.chronicle.known := by
        rintro found mv rfl
        exact hright
      rcases (h.app i hi).step h.chronicle h.ledger hi hmoves happ with
        hinv | ⟨t, e, hlead, hindex, hmade, hinv⟩
      · exact ⟨a, L, h.chronicle, h.ledger, apps_update (fun _ => hinv) fun j hj _ => h.app j hj⟩
      · have hne : a.1.leader t ≠ none := hlead ▸ Option.some_ne_none i
        exact ⟨a, L.promise t e, h.chronicle, h.ledger.promise hne hindex hmade,
          apps_update (fun _ => hinv) fun j hj hji =>
            (h.app j hj).passes (h.chronicle.scene_ok hj) (passes_promise hlead hji)⟩
    · cases hs

/-- **Every run keeps the invariant.** -/
theorem Reachable.inv (h : Reachable S m codec w) :
    ∃ (a : S.Abstract) (L : Ledger), w.Inv S m codec a.1 L := by
  induction h with
  | @start app happ =>
    refine ⟨⟨_, (refines_init S).inv⟩, Ledger.init, Chronicle.inv_init S, Ledger.inv_init S codec,
      fun i hi => ?_⟩
    obtain ⟨asyncLoad, threads, snapshot, loop, hright, hloop, heq⟩ := happ i
    obtain ⟨offset, ht, -⟩ := EventApplyLoop.tracks_recoverSelf
      (v := ((Chronicle.init S).cluster.nodes i).view) rfl hright rfl hloop
    show (app i).Inv m codec _ i
    rw [heq]
    exact App.inv_start (S.start_ne_leader _ _ _ _) ht
  | step hw hright hs ih =>
    obtain ⟨a, L, hinv⟩ := ih
    exact hinv.step hright hs

/-- What Raft does in a step. -/
theorem raft_of_step {act : Action σ ε} {r : Gringofts.Action}
    (hs : w.step S m codec act = some w') (hr : act.raft? = some r) :
    w.chronicle.step S r = some w'.chronicle ∧
      ∃ app, (w.app r.node).serve codec r.input = some app := by
  cases act with
  | raft act =>
    cases hr
    rw [Service.step] at hs
    split at hs
    · cases hs
    · obtain ⟨c, hc, hs⟩ := Option.bind_eq_some_iff.mp hs
      obtain ⟨app, happ, hs⟩ := Option.bind_eq_some_iff.mp hs
      obtain rfl := Option.some.inj hs
      exact ⟨hc, app, happ⟩
  | restart act asyncLoad threads snapshot =>
    cases hr
    rw [Service.step] at hs
    split at hs
    · obtain ⟨c, hc, hs⟩ := Option.bind_eq_some_iff.mp hs
      obtain ⟨app, happ, hs⟩ := Option.bind_eq_some_iff.mp hs
      obtain ⟨loop, -, hs⟩ := Option.bind_eq_some_iff.mp hs
      obtain rfl := Option.some.inj hs
      exact ⟨hc, app, happ⟩
    · cases hs
  | app i act => cases hr

end Service

/-- **Accepted commands see exactly the log they are appended to.** In every run of a cluster and of
the applications of its nodes, whose threads take their steps in any order: an entry that a node
appends when it handles requests of clients is one that its application has made from a command, and
the state on which the command was processed is the one that the entries before it give in the log
of this node. Where the node crashes in the course of it, the same holds for what is on its disk. -/
theorem accepted_command_sees_log {m : StateMachine σ ε} {codec : EntryCodec ε}
    {w w' : Service σ ε} {act : Service.Action σ ε} {r : Action} {cs : List ClientRequest}
    {k : ℕ} {e : LogEntry} (hw : Service.Reachable S m codec w)
    (hs : w.step S m codec act = some w') (hr : act.raft? = some r)
    (hinput : r.input = .own (.clientRequests cs))
    (hk : (w.chronicle.archive r.node).length < k)
    (he : entryAt (w'.chronicle.archive r.node) k = some e) :
    (w.chronicle.cluster.nodes r.node).role = .leader ∧
    e.term = (w.chronicle.cluster.nodes r.node).log.currentTerm ∧ e.index = k ∧
    ∃ p batch rest, (w.app r.node).clientRequests = batch :: rest ∧ p ∈ batch ∧
      e = p.entry codec ∧
      p.basis = m.stateAt codec.toEntryDecoder (w'.chronicle.archive r.node) (k - 1) := by
  obtain ⟨a, L, h⟩ := hw.inv
  obtain ⟨hc, app, happ⟩ := Service.raft_of_step hs hr
  rw [hinput] at happ
  have hnode := Chronicle.node_mem hc
  obtain ⟨hlocal, hmem, rfl⟩ := h.chronicle.mem_brings hc hinput hk he
  rcases Event.brings_cases hlocal hmem with ⟨hrole, cs', heq, hsel⟩ | ⟨-, clk, heq, -⟩
  · cases heq
    obtain ⟨hterm, p, batch, rest, hrequests, hp, hentry, -, hbasis⟩ :=
      (h.app _ hnode).selected happ hrole hsel
    refine ⟨hrole, hterm, rfl, p, batch, rest, hrequests, hp, hentry, ?_⟩
    have hlog := h.ledger.archive_promised h.chronicle hc hinput hrole fun f hf => by
      obtain ⟨-, p, batch, rest, -, -, -, hf, -⟩ := (h.app _ hnode).selected happ hrole hf
      exact hf
    rw [hbasis]
    exact StateMachine.stateAt_of_isPrefix hlog
      ((Nat.sub_le _ _).trans (le_length_of_entryAt he).2)
  · cases heq

/-! ### A run -/

namespace Scenario

/-- The id of a command in unary, and its events. -/
def plainCodec : EntryCodec UInt8 where
  enabled := false
  decrypt _ p := some p
  parse p := some ⟨(p.takeWhile (· == 1)).length, (p.dropWhile (· == 1)).tail⟩
  encode _ b := List.replicate b.commandId 1 ++ 0 :: b.events
  decode_encode e b h := by simp [EntryDecoder.decode, EntryDecoder.payload, h]

/-- Steps one after the other. -/
def playService (acts : List (Service.Action ℕ UInt8)) (w : Service ℕ UInt8) :
    Option (Service ℕ UInt8) :=
  acts.foldlM (fun w act => w.step oneVoter sum plainCodec act) w

/-- The applications before anything has happened. -/
def idleService : Service ℕ UInt8 :=
  ⟨Chronicle.init oneVoter, fun _ => App.start sum
    { EventApplyLoop.start sum false 0 with store := (EventStore.start false 0).init }⟩

/-- The command loop takes a step, with a command that gives two events. -/
def commandStep : Service.Action ℕ UInt8 := .app 1 (.commandLoop none false 0 ⟨none, [7, 8]⟩)

/-- The apply loop goes on loading. -/
def loadStep : Service.Action ℕ UInt8 := .app 1 (.loop none (.load 1))

/-- The only node is elected and commits its `noop`, and the apply loop loads it. The command loop
finds the node ready and takes the state over. It processes a command, which comes into the queue of
Raft. -/
def queued : List (Service.Action ℕ UInt8) :=
  [.raft (.run 1 (.own (.electionTimeout ⟨10, 1⟩))), .raft (.run 1 (.own (.becomeLeader ⟨11, 1⟩))),
    .raft (.run 1 (.own .advanceCommitIndex)), .app 1 (.loop none (.lock none))] ++
  List.replicate 5 loadStep ++ List.replicate 9 commandStep ++ List.replicate 2 loadStep ++
  List.replicate 3 commandStep ++ [.app 1 .dequeue, .app 1 .maySendBatch]

/-- Raft takes the command from its queue. -/
def served : Action :=
  .run 1 (.own (.clientRequests
    [PersistEntry.request plainCodec (⟨1, 2, 0, none, [7, 8], 0⟩ : PersistEntry ℕ UInt8)]))

/-- Raft commits the command, and a thread of the reply loop finds it so. -/
def answered : List (Service.Action ℕ UInt8) :=
  [.raft served, .raft (.run 1 (.own .advanceCommitIndex))] ++
  List.replicate 5 (.app 1 (.replyTask none 0))

/-- The command loop processes a second command, which comes into the queue of Raft. -/
def queuedAgain : List (Service.Action ℕ UInt8) :=
  List.replicate 5 commandStep ++ [.app 1 .dequeue, .app 1 .maySendBatch]

/-- Raft takes it from its queue. It was processed on the state with the events of the first. -/
def servedAgain : Action :=
  .run 1 (.own (.clientRequests
    [PersistEntry.request plainCodec (⟨1, 3, 0, none, [7, 8], 15⟩ : PersistEntry ℕ UInt8)]))

theorem right_played : ∀ act ∈ queued ++ answered ++ queuedAgain, ∀ known,
    act.Right sum plainCodec known := by
  simp [queued, answered, queuedAgain, commandStep, loadStep, Service.Action.Right,
    EventApplyLoop.Move.Right]

theorem reachable_playService {acts : List (Service.Action ℕ UInt8)} {w : Service ℕ UInt8}
    (hacts : acts <+: queued ++ answered ++ queuedAgain)
    (hw : playService acts idleService = some w) :
    Service.Reachable oneVoter sum plainCodec w :=
  foldlM_invariant hw (.start fun _ => ⟨false, 0, none, _, nofun, rfl, rfl⟩)
    fun act hact _ _ hu hs => hu.step (right_played act (hacts.subset hact) _) hs

end Scenario

/-- The command is the second one, so that the state before it has the events of the first. -/
theorem accepted_command_sees_log_second :
    ∃ w w' : Service ℕ UInt8,
      Service.Reachable oneVoter sum plainCodec w ∧
      w.step oneVoter sum plainCodec (.raft servedAgain) =
        some w' ∧
      ∃ p : PersistEntry ℕ UInt8,
        entryAt (w'.chronicle.archive 1) 3 = some (p.entry plainCodec) ∧
        p.basis = sum.stateAt plainCodec.toEntryDecoder
          (w'.chronicle.archive 1) 2 ∧ p.basis = 15 := by
  have hplay : (playService (queued ++ answered ++ queuedAgain)
      idleService).any (fun w =>
        (w.step oneVoter sum plainCodec
          (.raft servedAgain)).any fun w' => (w.chronicle.archive 1).length < 3 ∧
            (entryAt (w'.chronicle.archive 1) 3).isSome ∧
            sum.stateAt plainCodec.toEntryDecoder
              (w'.chronicle.archive 1) 2 = 15) = true := by
    decide +kernel
  obtain ⟨w, hw, hnext⟩ := (Option.any_eq_true _ _).mp hplay
  obtain ⟨w', hs, hlog⟩ := (Option.any_eq_true _ _).mp hnext
  obtain ⟨hlength, hentry, hstate⟩ := of_decide_eq_true hlog
  obtain ⟨e, he⟩ := Option.isSome_iff_exists.mp hentry
  have hreach := reachable_playService (List.prefix_refl _) hw
  obtain ⟨-, -, -, p, batch, rest, -, -, rfl, hbasis⟩ :=
    accepted_command_sees_log hreach hs rfl rfl hlength he
  exact ⟨w, w', hreach, hs, p, he, hbasis, hbasis.trans hstate⟩

namespace Service.Inv

variable {m : StateMachine σ ε} {codec : EntryCodec ε} {w : Service σ ε} {a : S.Abstract}
  {L : Ledger} {i : ℕ} {task : ReplyTask σ ε}

/-- Where a command is answered with success, the committed log is the one that was promised in its
term. -/
theorem agree_of_success (h : w.Inv S m codec a.1 L) (hi : i ∈ S.info.nodes.keys)
    (htask : task ∈ (w.app i).tasks) (hphase : task.phase.result = some true) :
    task.index ≤ (w.chronicle.cluster.nodes i).commitIndex ∧
    (∃ e, entryAt w.chronicle.known task.index = some e ∧ e.term = task.term) ∧
    Agree w.chronicle.known (L.promised task.term) task.index := by
  have hfinds := ((h.app i hi).tasks task htask).2.finds
  cases hp : task.phase with
  | compared committed =>
    rw [hp] at hphase hfinds
    obtain rfl := Option.some.inj hphase
    obtain ⟨hle, e, he, hterm⟩ := hfinds
    have he : entryAt w.chronicle.known task.index = some e := he
    have hterm : e.term = task.term := of_decide_eq_true hterm.symm
    obtain ⟨-, hagree⟩ := h.ledger.agree_promised h.chronicle he
    exact ⟨hle, ⟨e, he, hterm⟩, hterm ▸ hagree⟩
  | _ =>
    rw [hp] at hphase
    cases hphase

/-- **A command that is answered with success** and has events is committed with them, and was
processed on the state that the log gives before it. -/
theorem committed_of_success (h : w.Inv S m codec a.1 L) (hi : i ∈ S.info.nodes.keys)
    (htask : task ∈ (w.app i).tasks) (hphase : task.phase.result = some true)
    (hevents : task.events ≠ []) :
    (∃ e, entryAt w.chronicle.known task.index = some e ∧ e.term = task.term ∧
      codec.toEntryDecoder.bundle? e = some ⟨task.index, task.events⟩) ∧
    task.basis = m.stateAt codec.toEntryDecoder w.chronicle.known (task.index - 1) := by
  obtain ⟨-, ⟨e, he, hterm⟩, hagree⟩ := h.agree_of_success hi htask hphase
  obtain ⟨⟨f, hf, hb⟩, hbasis⟩ := ((h.app i hi).tasks task htask).2.events hevents hagree.2.1
  have hf : entryAt (L.promised task.term) task.index = some f := hf
  rw [← hagree.entryAt_eq (Nat.le_refl _), he] at hf
  refine ⟨⟨e, he, hterm, Option.some.inj hf ▸ hb⟩, hbasis.trans ?_⟩
  exact (StateMachine.stateAt_of_agree (hagree.mono (Nat.sub_le _ _))).symm

end Service.Inv

/-- **A success reply is never premature.** In every run of a cluster and of the applications of its
nodes, when a thread of the reply loop answers a command with success, the entry with the id of the
command has the term in which it was processed, and is committed. It holds the events of the
command, if there are any, and the command was processed on the state that the entries before it
give. A command without events has the id of the command before, and it was processed on the state
of a committed log up to this id, or further. -/
theorem success_reply_committed {m : StateMachine σ ε} {codec : EntryCodec ε} {w : Service σ ε}
    {i : ℕ} {task : ReplyTask σ ε} (hw : Service.Reachable S m codec w)
    (hi : i ∈ S.info.nodes.keys) (htask : task ∈ (w.app i).tasks)
    (hphase : task.phase.result = some true) :
    task.index ≤ (w.chronicle.cluster.nodes i).commitIndex ∧
    (∃ e, entryAt w.chronicle.known task.index = some e ∧ e.term = task.term ∧
      (task.events ≠ [] →
        codec.toEntryDecoder.bundle? e = some ⟨task.index, task.events⟩)) ∧
    (task.events ≠ [] →
      task.basis = m.stateAt codec.toEntryDecoder w.chronicle.known (task.index - 1)) ∧
    (task.events = [] → ∃ k, task.index ≤ k ∧ k ≤ (w.chronicle.cluster.nodes i).commitIndex ∧
      task.basis = m.stateAt codec.toEntryDecoder w.chronicle.known k) := by
  obtain ⟨a, L, h⟩ := hw.inv
  obtain ⟨hle, ⟨e, he, hterm⟩, hagree⟩ := h.agree_of_success hi htask hphase
  have hcommitted := h.committed_of_success hi htask hphase
  refine ⟨hle, ⟨e, he, hterm, fun hevents => ?_⟩, fun hevents => (hcommitted hevents).2,
    fun hevents => ?_⟩
  · obtain ⟨⟨f, hf, -, hb⟩, -⟩ := hcommitted hevents
    rw [he] at hf
    exact Option.some.inj hf ▸ hb
  · rcases ((h.app i hi).tasks task htask).2.noEvents hevents hagree.2.1 with hbasis | hbasis
    · refine ⟨task.index, Nat.le_refl _, hle, hbasis.trans ?_⟩
      exact (StateMachine.stateAt_of_agree hagree).symm
    · exact hbasis

theorem success_reply_committed_first :
    ∃ w : Service ℕ UInt8,
      Service.Reachable oneVoter sum plainCodec w ∧
      ∃ task ∈ (w.app 1).tasks, task.phase.result = some true ∧ task.events = [7, 8] ∧
        task.index ≤ (w.chronicle.cluster.nodes 1).commitIndex ∧
        (∃ e, entryAt w.chronicle.known task.index = some e ∧ e.term = task.term) ∧
        task.basis = sum.stateAt plainCodec.toEntryDecoder w.chronicle.known
          (task.index - 1) := by
  have hplay : (playService (queued ++ answered)
      idleService).any (fun w => (w.app 1).tasks.any fun task =>
        task.phase.result = some true ∧ task.events = [7, 8]) = true := by
    decide +kernel
  obtain ⟨w, hw, htasks⟩ := (Option.any_eq_true _ _).mp hplay
  obtain ⟨task, htask, hdone⟩ := List.any_eq_true.mp htasks
  obtain ⟨hresult, hevents⟩ := of_decide_eq_true hdone
  have hreach := reachable_playService (List.prefix_append _ _) hw
  have hne : task.events ≠ [] := by simp [hevents]
  obtain ⟨hle, ⟨e, he, hterm, -⟩, hbasis, -⟩ :=
    success_reply_committed hreach (by decide) htask hresult
  exact ⟨w, hreach, task, htask, hresult, hevents, hle, ⟨e, he, hterm⟩, hbasis hne⟩

end Gringofts
