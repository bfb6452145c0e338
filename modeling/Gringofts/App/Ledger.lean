import Gringofts.App.Readiness
import Gringofts.App.Transition
import Gringofts.Raft.Repair.Windows

/-!
# The logs of leaders

A leader appends its own entries to its log, and everybody else copies from it. So an entry of a
term is, wherever it is found, an entry of the log that the leader of the term has had. The record
of a cluster (`Chronicle`) is extended by these logs, one for each term, and by what the application
of a leader has numbered already but not appended yet.

## Main definitions

* `Ledger` — for each term, what its leader has appended and what its application has promised
* `Ledger.Inv` — the ledger is right

## Main results

* `Ledger.Inv.step` — a step of the cluster keeps the ledger right, if a leader appends nothing but
  what was promised
* `Ledger.Inv.agree_promised` — a committed log is, up to an entry of a term, the log of that term
-/

namespace Gringofts

open Replication Outcome Cluster Chronicle

variable {S : Setup} {ev : Event} {i t s : ℕ} {origin : Option Envelope} {clk : Clock} {n : Node}
  {e : LogEntry} {a : S.Abstract} {cs : List ClientRequest}

/-! ## The node that takes a step -/

namespace Node

variable {n : Node}

/-- Who is leader after an event has been so before, or is a candidate that wins. -/
theorem handle_leader (cfg : RaftConfig) (hs : n.role ≠ .syncer)
    (hconf : ∀ clk selfId info, ev ≠ .reconfigureRequest clk selfId info) :
    (n.handle cfg ev).Sat (fun _ => True)
      (fun x => x.1.role = .leader →
        n.role = .leader ∨ n.role = .candidate ∧ ∃ clk, ev = .becomeLeader clk)
      fun _ => True := by
  refine (handle_sat cfg (fun _ _ _ => hs) hconf).mono (fun _ _ => trivial) ?_ fun _ => id
  intro x hx hl
  rcases hx.quiet_or with hq | ⟨-, -, r, -, hr⟩ | ⟨clk, rfl, hw⟩ | ⟨k, -, heq⟩
  · exact Or.inl (hq.leader hl).1
  · exact Or.inl hr.leader
  · exact Or.inr ⟨hw.candidate, clk, rfl⟩
  · rw [heq] at hl
    exact Or.inl hl

end Node

/-- Nobody starts as leader. -/
theorem Setup.start_ne_leader (S : Setup) (i : ℕ) (clk : Clock) (role : BootRole) (log : Log) :
    (S.start i clk role log).role ≠ .leader := by
  cases role <;> exact nofun

namespace Cluster

variable {c c' : Cluster} {a : S.Abstract} {act : Action}

/-- The event of a step: it was handled, or the node has started again from a log that was on its
disk then. -/
theorem step_acting (h : c.step S act = some c') :
    ∃ ev origin, c.event? act.node act.input = some (ev, origin) ∧
      ((act.isCrash = false ∧ ∃ x, ((c.nodes act.node).handle (S.config act.node) ev).result =
          .ok (c'.nodes act.node, x)) ∨
        act.isCrash = true ∧ ∃ l role clk, c'.nodes act.node = S.start act.node clk role l ∧
          l ∈ (c.nodes act.node).log ::
            ((c.nodes act.node).handle (S.config act.node) ev).writes) := by
  rcases step_cases h with ⟨i, inp, ev, origin, n, x, rfl, -, hev, hres, rfl⟩ |
    ⟨i, inp, ev, origin, k, role, clk, l, rfl, -, hev, hl, rfl⟩
  · refine ⟨ev, origin, hev, Or.inl ⟨rfl, x, ?_⟩⟩
    simpa [Action.node, setNode] using hres
  · refine ⟨ev, origin, hev, Or.inr ⟨rfl, l, role, clk, ?_, hl⟩⟩
    simp [Action.node, setNode]

/-- What an event does to the log, also where it is interrupted, is done by the step. -/
theorem step_log_acting {W : Log → Prop} (h : c.step S act = some c')
    (h0 : W (c.nodes act.node).log)
    (hW : ∀ ev origin, c.event? act.node act.input = some (ev, origin) →
      ((c.nodes act.node).handle (S.config act.node) ev).Sat W (fun x => W x.1.log)
        fun _ => True) : W (c'.nodes act.node).log := by
  obtain ⟨ev, origin, hev, ⟨-, x, hres⟩ | ⟨-, l, role, clk, heq, hl⟩⟩ := step_acting h
  · exact (hW ev origin hev).of_result hres
  · rw [heq]
    rcases List.mem_cons.mp hl with rfl | hl
    · exact h0
    · exact (hW ev origin hev).1 l hl

theorem event?_own {ev' : Event} (h : c.event? i (.own ev) = some (ev', origin)) :
    ev' = ev ∧ ev.isLocal = true := by
  rw [event?] at h
  split at h
  · next hlocal =>
    cases h
    exact ⟨rfl, hlocal⟩
  · cases h

theorem event?_becomeLeader {inp : Input} (h : c.event? i inp = some (.becomeLeader clk, origin)) :
    inp = .own (.becomeLeader clk) := by
  cases inp with
  | own ev => rw [(event?_own h).1]
  | deliver k clk' =>
    obtain ⟨⟨_, _, _, msg⟩, -, -, hev, -⟩ := event?_deliver h
    cases msg <;> cases hev

/-- **A leader after a step** has gone on running, in the same term, and was leader or has won. -/
theorem step_leader (href : Refines S c a.1) (h : c.step S act = some c')
    (hl : (c'.nodes act.node).role = .leader) :
    act.isCrash = false ∧
      (c'.nodes act.node).log.currentTerm = (c.nodes act.node).log.currentTerm ∧
      ((c.nodes act.node).role = .leader ∨
        (c.nodes act.node).role = .candidate ∧ ∃ clk, act.input = .own (.becomeLeader clk)) := by
  obtain ⟨ev, origin, hev, ⟨hrun, x, hres⟩ | ⟨-, l, role, clk, heq, -⟩⟩ := step_acting h
  · have hsyncer := (href.nodes _ (step_mem h)).role_ne
    have hconf := event?_ne_reconfigure hev
    have hkeeps : ev.KeepsMembers (c.nodes act.node) := by
      cases ev with
      | reconfigureRequest clk selfId info => exact hconf clk selfId info rfl
      | syncRequest clk r => exact fun hr => absurd hr hsyncer
      | _ => trivial
    refine ⟨hrun, ((Node.handle_advances _ hkeeps).of_result hres).leader hl, ?_⟩
    refine ((Node.handle_leader _ hsyncer hconf).of_result hres hl).imp_right ?_
    rintro ⟨hcand, clk, rfl⟩
    exact ⟨hcand, clk, event?_becomeLeader hev⟩
  · rw [heq] at hl
    exact absurd hl (S.start_ne_leader _ _ _ _)

/-- **A leader stays leader** as long as it goes on running in its term. -/
theorem step_stays (href : Refines S c a.1) (h : c.step S act = some c')
    (hrun : act.isCrash = false) : (c.nodes act.node).Stays (c'.nodes act.node) := by
  obtain ⟨ev, origin, hev, ⟨-, x, hres⟩ | ⟨hcrash, -⟩⟩ := step_acting h
  · refine (Node.handle_stays _ (href.nodes _ (step_mem h)).role_ne fun _ hdemotes => ?_).of_result
      hres
    cases ev with
    | reconfigureRequest clk selfId info => exact event?_ne_reconfigure hev clk selfId info rfl
    | _ => exact hdemotes
  · rw [hrun] at hcrash
    cases hcrash

end Cluster

/-! ## What a node adds to its log -/

/-- What a node adds to its log by itself: requests of clients, or the `noop` of a new leader. -/
theorem Event.brings_cases {cfg : RaftConfig} (hlocal : ev.isLocal = true)
    (he : e ∈ ev.brings cfg n) :
    (n.role = .leader ∧ ∃ cs, ev = .clientRequests cs ∧
      e ∈ (Node.selectRequests n.log.currentTerm n.log.lastIndex cs).map ClientRequest.entry) ∨
    n.role = .candidate ∧ ∃ clk, ev = .becomeLeader clk ∧ e = n.noopEntry cfg clk := by
  cases ev with
  | clientRequests cs =>
    rw [brings] at he
    split at he
    · next hrole => exact Or.inl ⟨hrole, cs, rfl, he⟩
    · cases he
  | becomeLeader clk =>
    rw [brings] at he
    split at he
    · next hrole => exact Or.inr ⟨hrole, clk, rfl, List.mem_singleton.mp he⟩
    · cases he
  | appendEntriesRequest clk r => cases hlocal
  | _ => cases he

/-- A candidate that appends its `noop` has won a term that nobody has won before. -/
theorem Describes.becomeLeader_sat (h : Describes S a.1 i n) (hi : i ∈ S.info.nodes.keys)
    (hcand : n.role = .candidate) (cfg : RaftConfig) (clk : Clock) :
    (n.becomeLeader cfg clk).Sat
      (fun l => a.1.leader n.log.currentTerm = none ∧ l.lastIndex = n.log.lastIndex + 1)
      (fun m => m.role = .candidate ∧ m.log = n.log ∨
        a.1.leader n.log.currentTerm = none ∧ m.log.lastIndex = n.log.lastIndex + 1)
      fun _ => True := by
  rw [Node.becomeLeader, if_neg (not_not.mpr hcand), Node.checkVotePass_eq h.members hi, pure_bind]
  split
  · next hpass =>
    have hst := h.candidate hcand
    obtain ⟨hE, hb⟩ := hst.elects h (of_decide_eq_true hpass)
    have hopen : a.1.leader n.log.currentTerm = none := by
      rw [h.durable.term_eq]
      exact a.2.leader_open hst.leader_ne hE hb
    exact sat_persist_bind ⟨hopen, n.log.lastIndex_appendEntry rfl⟩ fun _ =>
        sat_pure.mpr (Or.inr ⟨hopen, n.log.lastIndex_appendEntry rfl⟩)
  · exact sat_pure.mpr (Or.inl ⟨hcand, rfl⟩)

theorem Describes.handle_becomeLeader (h : Describes S a.1 i n) (hi : i ∈ S.info.nodes.keys)
    (hcand : n.role = .candidate) (cfg : RaftConfig) (clk : Clock) :
    (n.handle cfg (.becomeLeader clk)).Sat
      (fun l => a.1.leader n.log.currentTerm = none ∧ l.lastIndex = n.log.lastIndex + 1)
      (fun x => x.1.role = .candidate ∧ x.1.log = n.log ∨
        a.1.leader n.log.currentTerm = none ∧ x.1.log.lastIndex = n.log.lastIndex + 1)
      fun _ => True :=
  (h.clearOutbox.becomeLeader_sat hi hcand cfg clk).bind fun _ hm => sat_pure.mpr hm

namespace Chronicle.Inv

variable {w w' : Chronicle} {a b : S.Abstract} {act : Action} {k : ℕ} {e : LogEntry}

/-- What is in the window of a node is in its whole log. -/
theorem entryAt_of_mem (h : w.Inv S a.1) (hi : i ∈ S.info.nodes.keys)
    (he : e ∈ (w.cluster.nodes i).log.entries) : entryAt (w.archive i) e.index = some e := by
  obtain ⟨k, hk⟩ := List.mem_iff_getElem?.mp he
  have hindex := (w.cluster.nodes i).log.indexed k e hk
  have hentry : (w.cluster.nodes i).log.getEntry e.index = some e := by
    rw [Log.getEntry, if_pos (by omega), hindex, Nat.add_sub_cancel_left, hk]
  rw [h.archive i hi]
  exact (h.refines.nodes i hi).durable.entryAt_of_getEntry hentry

theorem lastIndex_eq (h : w.Inv S a.1) (hi : i ∈ S.info.nodes.keys) :
    (w.cluster.nodes i).log.lastIndex = (w.archive i).length := by
  rw [h.archive i hi]
  exact (h.refines.nodes i hi).durable.lastIndex_eq

/-- Where an entry comes from that is in a whole log after a step. -/
theorem entryAt_step (h : w.Inv S a.1) (hs : w.step S act = some w')
    (he : entryAt (w'.archive act.node) k = some e) :
    entryAt (w.archive act.node) k = some e ∨
      e ∈ (w'.cluster.nodes act.node).log.entries ∧ e.index = k := by
  obtain ⟨b, hab, hb, -⟩ := h.step hs
  have hi := node_mem hs
  rw [hb.archive _ hi] at he
  rcases Nat.lt_or_ge k (w'.cluster.nodes act.node).log.firstIndex with hlt | hge
  · left
    have hk := (Nat.le_sub_one_of_lt hlt).trans (h.first_le hi (cluster_step hs))
    rw [h.archive _ hi, ← he]
    exact (((S.grows_of_reach hab).committed_log _).entryAt_eq hk).symm
  · right
    rw [← (hb.refines.nodes _ hi).durable.getEntry_eq hge] at he
    refine ⟨?_, Log.index_of_getEntry he⟩
    rw [Log.getEntry, if_pos (Log.first_le_of_getEntry he)] at he
    exact List.mem_of_getElem? he

/-- What a node does by itself extends its whole log. -/
theorem archive_isPrefix (h : w.Inv S a.1) (hs : w.step S act = some w')
    (hown : act.input = .own ev) : w.archive act.node <+: w'.archive act.node := by
  obtain ⟨b, hab, hb, -⟩ := h.step hs
  have hi := node_mem hs
  have hd := (h.refines.nodes _ hi).durable
  have hd' := (hb.refines.nodes _ hi).durable
  have hsheds : (w.cluster.nodes act.node).log.Sheds (w'.cluster.nodes act.node).log := by
    refine step_log_acting (cluster_step hs) ⟨Nat.le_refl _, fun _ _ _ => id⟩
      fun ev' origin hev => ?_
    rw [hown] at hev
    obtain ⟨rfl, hlocal⟩ := event?_own hev
    refine Node.handle_sheds _ (h.refines.nodes _ hi).role_ne
      (event?_ne_reconfigure hev) ?_
    rintro clk r rfl
    cases hlocal
  refine isPrefix_of_entryAt fun k e he => ?_
  rw [h.archive _ hi] at he
  rw [hb.archive _ hi]
  rcases Nat.lt_or_ge k (w'.cluster.nodes act.node).log.firstIndex with hlt | hge
  · have hk := (Nat.le_sub_one_of_lt hlt).trans (h.first_le hi (cluster_step hs))
    rw [((S.grows_of_reach hab).committed_log _).entryAt_eq hk, he]
  · rw [← hd.getEntry_eq (hsheds.first_le.trans hge)] at he
    exact hd'.entryAt_of_getEntry (hsheds.entry k e hge he)

/-- What is new after a step of the node itself was brought by its event. -/
theorem mem_brings (h : w.Inv S a.1) (hs : w.step S act = some w') (hown : act.input = .own ev)
    (hk : (w.archive act.node).length < k) (he : entryAt (w'.archive act.node) k = some e) :
    ev.isLocal = true ∧ e ∈ ev.brings (S.config act.node) (w.cluster.nodes act.node) ∧
      e.index = k := by
  have hold : entryAt (w.archive act.node) k ≠ some e := fun h =>
    absurd (le_length_of_entryAt h).2 (Nat.not_le.mpr hk)
  obtain ⟨hmem, hindex⟩ := (h.entryAt_step hs he).resolve_left hold
  have hi := node_mem hs
  obtain ⟨ev', origin, hev, -⟩ := step_acting (cluster_step hs)
  rw [hown] at hev
  refine ⟨(event?_own hev).2, ?_, hindex⟩
  have hdraws : (w.cluster.nodes act.node).log.Draws
      (ev.brings (S.config act.node) (w.cluster.nodes act.node))
      (w'.cluster.nodes act.node).log := by
    refine step_log_acting (cluster_step hs) (fun _ => Or.inl) fun ev' origin hev => ?_
    rw [hown] at hev
    obtain ⟨rfl, -⟩ := event?_own hev
    exact (Node.handle_draws _ (h.refines.nodes _ hi).role_ne
      (event?_ne_reconfigure hev)).imp fun _ hx => hx.1
  refine (hdraws e hmem).resolve_left fun hmem => hold ?_
  rw [← hindex]
  exact h.entryAt_of_mem hi hmem

/-- A whole log that the node has changed by itself ends with something that its event brought. -/
theorem exists_brought (h : w.Inv S a.1) (hs : w.step S act = some w') (hown : act.input = .own ev)
    (hnew : w'.archive act.node ≠ w.archive act.node) :
    ∃ e, entryAt (w'.archive act.node) (w'.archive act.node).length = some e ∧
      ev.isLocal = true ∧ e ∈ ev.brings (S.config act.node) (w.cluster.nodes act.node) := by
  have hgrown := h.archive_isPrefix hs hown
  have hlt : (w.archive act.node).length < (w'.archive act.node).length :=
    lt_of_le_of_ne hgrown.length_le fun heq => hnew (hgrown.eq_of_length heq).symm
  obtain ⟨e, he⟩ := exists_entryAt (Nat.one_le_of_lt hlt) (Nat.le_refl _)
  obtain ⟨hlocal, hmem, -⟩ := h.mem_brings hs hown hlt he
  exact ⟨e, he, hlocal, hmem⟩

theorem whole_archive (h : w.Inv S a.1) (hi : i ∈ S.info.nodes.keys) :
    (w.cluster.nodes i).log.whole (w.archive i) = w.archive i := by
  have hd := (h.refines.nodes i hi).durable
  rw [h.archive i hi]
  exact hd.whole_eq (Agree.refl hd.first_sub_le)

/-- **A candidate** stays what it is, or it wins a term that was open and appends one entry. -/
theorem candidate_step (h : w.Inv S a.1) (hs : w.step S act = some w')
    (hown : act.input = .own (.becomeLeader clk))
    (hcand : (w.cluster.nodes act.node).role = .candidate) :
    (w'.archive act.node = w.archive act.node ∧ (w'.cluster.nodes act.node).role ≠ .leader) ∨
      a.1.leader (w.cluster.nodes act.node).log.currentTerm = none ∧
        (w'.archive act.node).length = (w.archive act.node).length + 1 := by
  obtain ⟨b, -, hb, -⟩ := h.step hs
  have hi := node_mem hs
  have hsat := (h.refines.nodes _ hi).handle_becomeLeader hi hcand (S.config act.node) clk
  have hsame : (w'.cluster.nodes act.node).log = (w.cluster.nodes act.node).log →
      w'.archive act.node = w.archive act.node := by
    intro heq
    rw [archive_acting hs, heq]
    exact h.whole_archive hi
  have hlength : (w'.cluster.nodes act.node).log.lastIndex =
        (w.cluster.nodes act.node).log.lastIndex + 1 →
      (w'.archive act.node).length = (w.archive act.node).length + 1 := by
    intro hlast
    rw [← h.lastIndex_eq hi, ← hlast]
    exact (hb.lastIndex_eq hi).symm
  obtain ⟨ev, origin, hev, hacting⟩ := step_acting (cluster_step hs)
  rw [hown] at hev
  obtain ⟨rfl, -⟩ := event?_own hev
  rcases hacting with ⟨-, x, hres⟩ | ⟨-, l, role, clk, heq, hl⟩
  · rcases hsat.of_result hres with ⟨hrole, hlog⟩ | ⟨hopen, hlast⟩
    · refine Or.inl ⟨hsame hlog, ?_⟩
      rw [hrole]
      exact nofun
    · exact Or.inr ⟨hopen, hlength hlast⟩
  · rcases List.mem_cons.mp hl with rfl | hl
    · refine Or.inl ⟨hsame (by rw [heq]; rfl), ?_⟩
      rw [heq]
      exact S.start_ne_leader _ _ _ _
    · obtain ⟨hopen, hlast⟩ := hsat.1 l hl
      exact Or.inr ⟨hopen, hlength (by rw [heq]; exact hlast)⟩

/-- A log that ends with an entry of a term is a part of the log of the leader of that term. -/
theorem archive_llog (h : w.Inv S a.1) (hi : i ∈ S.info.nodes.keys)
    (he : entryAt (w.archive i) (w.archive i).length = some e) :
    a.1.leader e.term ≠ none ∧ w.archive i <+: a.1.llog e.term := by
  have hpos := (le_length_of_entryAt he).1
  rw [h.archive i hi] at he hpos ⊢
  obtain ⟨hlead, hag⟩ := a.2.log_rooted i _ hpos (Nat.le_refl _)
  rw [termAt_of_entryAt he] at hlead hag
  exact ⟨hlead, hag.isPrefix⟩

/-- Where an entry comes from that is in the committed log after a step. -/
theorem known_step (hs : w.step S act = some w') (he : entryAt w'.known k = some e) :
    entryAt w.known k = some e ∨ entryAt (w'.archive act.node) k = some e := by
  obtain ⟨c, -, rfl⟩ := Option.map_eq_some_iff.mp hs
  rw [record_archive_self]
  simp only [record] at he
  split at he
  · exact Or.inr (entryAt_of_isPrefix (List.take_prefix _ _) he)
  · exact Or.inl he

end Chronicle.Inv

/-- A term that is open was so before. -/
theorem Replication.Grows.leader_none {ι ε : Type} {s s' : State ι ε} (h : Grows s s')
    (ht : s'.leader t = none) : s.leader t = none := by
  by_contra hne
  exact h.leader_ne hne ht

/-! ## The ledger -/

variable {ε : Type}

/-- An entry as `becomeLeader` and `dequeue` make them. -/
def EntryCodec.Made (codec : EntryCodec ε) (e : LogEntry) : Prop :=
  e.noop = true ∨ ∃ events, e.payload = codec.encode e.secretKeyVersion ⟨e.index, events⟩

/-- The log of the leader of each term: what the leader has appended, and what its application has
numbered. -/
structure Ledger where
  appended : ℕ → List LogEntry
  promised : ℕ → List LogEntry

namespace Ledger

/-- The entry is one of the log of the leader of its term. -/
def Has (L : Ledger) (e : LogEntry) : Prop := entryAt (L.appended e.term) e.index = some e

/-- **The ledger is right.** -/
structure Inv (S : Setup) (codec : EntryCodec ε) (w : Chronicle) (a : State ℕ LogEntry)
    (L : Ledger) : Prop where
  appended_llog : ∀ t, L.appended t <+: a.llog t
  appended_promised : ∀ t, L.appended t <+: L.promised t
  opens : ∀ t, a.leader t = none → L.promised t = []
  promised : ∀ t k e, entryAt (L.promised t) k = some e → e.index = k ∧ codec.Made e
  holds : w.cluster.Holds S L.Has
  archive : ∀ i ∈ S.info.nodes.keys, ∀ k e, entryAt (w.archive i) k = some e →
    e.index = k ∧ L.Has e
  known : ∀ k e, entryAt w.known k = some e → e.index = k ∧ L.Has e
  leaders : ∀ i ∈ S.info.nodes.keys, (w.cluster.nodes i).role = .leader →
    L.appended (w.cluster.nodes i).log.currentTerm = w.archive i

/-- Before anything has happened. -/
def init : Ledger := ⟨fun _ => [], fun _ => []⟩

theorem inv_init (S : Setup) (codec : EntryCodec ε) :
    init.Inv S codec (Chronicle.init S) (State.init ℕ LogEntry) where
  appended_llog _ := List.prefix_refl _
  appended_promised _ := List.prefix_refl _
  opens _ _ := rfl
  promised t k e he := by
    rw [init, entryAt_nil] at he
    cases he
  holds := ⟨fun i _ e he => absurd he List.not_mem_nil, fun m hm => absurd hm List.not_mem_nil⟩
  archive i _ k e he := by
    rw [Chronicle.init, entryAt_nil] at he
    cases he
  known k e he := by
    rw [Chronicle.init, entryAt_nil] at he
    cases he
  leaders i _ _ := rfl

variable {codec : EntryCodec ε} {w w' : Chronicle} {a b : S.Abstract} {L L' : Ledger} {act : Action}

theorem Inv.made (h : L.Inv S codec w a.1) (he : L.Has e) : codec.Made e :=
  (h.promised _ _ e (entryAt_of_isPrefix (h.appended_promised _) he)).2

/-- **The commands of the committed log are numbered.** -/
theorem Inv.numbered (h : L.Inv S codec w a.1) : codec.toEntryDecoder.Numbered w.known := by
  intro k e b he hb
  obtain ⟨rfl, hhas⟩ := h.known k e he
  rw [EntryDecoder.bundle?] at hb
  split at hb
  · cases hb
  · next hnoop =>
    obtain ⟨events, hpayload⟩ := (h.made hhas).resolve_left hnoop
    rw [codec.decode_encode e _ hpayload, Option.filter_eq_some_iff] at hb
    cases hb.1
    rfl

/-! ### A step of the cluster -/

/-- What is in a whole log after a step, or in the committed log, was there before or is in a
window. -/
theorem Inv.logs_step (h : L.Inv S codec w a.1) (hw : w.Inv S a.1) (hs : w.step S act = some w')
    (hmono : ∀ e, L.Has e → L'.Has e) (hholds : w'.cluster.Holds S L'.Has) :
    (∀ i ∈ S.info.nodes.keys, ∀ k e, entryAt (w'.archive i) k = some e → e.index = k ∧ L'.Has e) ∧
      ∀ k e, entryAt w'.known k = some e → e.index = k ∧ L'.Has e := by
  have hnode := node_mem hs
  have hacting : ∀ k e, entryAt (w'.archive act.node) k = some e → e.index = k ∧ L'.Has e := by
    intro k e he
    rcases hw.entryAt_step hs he with hold | ⟨hmem, hindex⟩
    · exact (h.archive _ hnode k e hold).imp_right (hmono e)
    · exact ⟨hindex, hholds.logs _ hnode e hmem⟩
  refine ⟨fun i hi k e he => ?_, fun k e he => ?_⟩
  · by_cases hin : i = act.node
    · subst hin
      exact hacting k e he
    · rw [archive_of_ne hs hin] at he
      exact (h.archive i hi k e he).imp_right (hmono e)
  · rcases Chronicle.Inv.known_step hs he with hold | hnew
    · exact (h.known k e hold).imp_right (hmono e)
    · exact hacting k e hnew

/-- A leader that goes on leading has the log it had, unless it has appended something. -/
theorem Inv.leader_keeps (h : L.Inv S codec w a.1) (hw : w.Inv S a.1) (hb : w'.Inv S b.1)
    (hg : Grows a.1 b.1) (hi : i ∈ S.info.nodes.keys) (hrole : (w.cluster.nodes i).role = .leader)
    (hrole' : (w'.cluster.nodes i).role = .leader)
    (hterm : (w'.cluster.nodes i).log.currentTerm = (w.cluster.nodes i).log.currentTerm)
    (harchive : ∀ k e, entryAt (w'.archive i) k = some e → e.index = k ∧ L.Has e) :
    w'.archive i = w.archive i := by
  have hd := hw.refines.nodes i hi
  have hd' := hb.refines.nodes i hi
  have hterm' : b.1.term i = a.1.term i := by
    rw [← hd.durable.term_eq, ← hd'.durable.term_eq, hterm]
  have hlog := hd'.log_eq hrole'
  rw [hterm'] at hlog
  have hne : a.1.leader (a.1.term i) ≠ none := (hd.leader hrole).1 ▸ Option.some_ne_none i
  have hgrown := hg.llog_isPrefix (a.1.term i)
  rw [hlog, hd.log_eq hrole, ← hw.archive i hi, ← hb.archive i hi] at hgrown
  obtain ⟨x, hx⟩ := hgrown
  cases x with
  | nil => rw [← hx, List.append_nil]
  | cons y ys =>
    -- an entry of the term that is not in the ledger
    have hy : entryAt (w'.archive i) ((w.archive i).length + 1) = some y := by
      rw [← hx, entryAt_succ, List.getElem?_append_right (Nat.le_refl _), Nat.sub_self]
      rfl
    have hyterm : y.term = a.1.term i := by
      obtain ⟨z, hz, hzterm⟩ := b.2.llog_elog (a.1.term i)
      have hle : (b.1.elog (a.1.term i)).length ≤ (w.archive i).length := by
        rw [hg.elog_eq hne, hw.archive i hi, ← hd.log_eq hrole]
        exact a.2.elog_le
      rw [hb.archive i hi, ← hlog, hz, entryAt_succ, List.getElem?_append_right hle] at hy
      exact hzterm y (List.mem_of_getElem? hy)
    obtain ⟨hindex, hhas⟩ := harchive _ y hy
    rw [Has, hindex, hyterm, ← hd.durable.term_eq, h.leaders i hi hrole] at hhas
    exact absurd (le_length_of_entryAt hhas).2 (by omega)

/-- **Nothing is appended**: the ledger stays as it is. -/
theorem Inv.keep (h : L.Inv S codec w a.1) (hw : w.Inv S a.1) (hs : w.step S act = some w')
    (hb : w'.Inv S b.1) (hg : Grows a.1 b.1)
    (hkeep : ∀ ev, act.input = .own ev → w'.archive act.node = w.archive act.node) :
    L.Inv S codec w' b.1 := by
  have hnode := node_mem hs
  have hcluster := cluster_step hs
  have hholds : w'.cluster.Holds S L.Has := by
    refine step_entries h.holds hw.refines hcluster fun ev hown e _ he => ?_
    have hat := hb.entryAt_of_mem hnode he
    rw [hkeep ev hown] at hat
    exact (h.archive _ hnode _ e hat).2
  obtain ⟨harchive, hknown⟩ := h.logs_step hw hs (fun _ => id) hholds
  refine ⟨fun t => (h.appended_llog t).trans (hg.llog_isPrefix t), h.appended_promised,
    fun t ht => h.opens t (hg.leader_none ht), h.promised, hholds, harchive, hknown,
    fun i hi hl => ?_⟩
  by_cases hin : i = act.node
  · subst hin
    obtain ⟨-, hterm, hrole | ⟨hcand, clk, hown⟩⟩ := step_leader hw.refines hcluster hl
    · rw [hterm, h.leaders _ hi hrole]
      exact (h.leader_keeps hw hb hg hi hrole hl hterm (harchive _ hi)).symm
    · rcases hw.candidate_step hs hown hcand with ⟨-, hne⟩ | ⟨-, hlength⟩
      · exact absurd hl hne
      · rw [hkeep _ hown] at hlength
        omega
  · rw [nodes_of_ne hs hin] at hl ⊢
    rw [h.leaders i hi hl, archive_of_ne hs hin]

/-- **Something is appended** that belongs to one term. -/
theorem Inv.make (h : L.Inv S codec w a.1) (hw : w.Inv S a.1) (hs : w.step S act = some w')
    (hb : w'.Inv S b.1) (hg : Grows a.1 b.1) (hown : act.input = .own ev)
    (hnew : w'.archive act.node ≠ w.archive act.node)
    (hcurrent : (w.cluster.nodes act.node).log.currentTerm = t)
    (hterm : ∀ e ∈ ev.brings (S.config act.node) (w.cluster.nodes act.node), e.term = t)
    (hothers : ∀ i ∈ S.info.nodes.keys, i ≠ act.node → (w.cluster.nodes i).role = .leader →
      (w.cluster.nodes i).log.currentTerm ≠ t) (hold : L.appended t <+: w.archive act.node)
    (hself : L'.appended t = w'.archive act.node) (hne : ∀ s, s ≠ t → L'.appended s = L.appended s)
    (happended : ∀ s, L'.appended s <+: L'.promised s)
    (hopens : ∀ s, b.1.leader s = none → L'.promised s = [])
    (hmade : ∀ s k e, entryAt (L'.promised s) k = some e → e.index = k ∧ codec.Made e) :
    L'.Inv S codec w' b.1 := by
  have hnode := node_mem hs
  have hcluster := cluster_step hs
  have hgrown := hw.archive_isPrefix hs hown
  have hmono : ∀ e, L.Has e → L'.Has e := by
    intro e he
    rw [Has] at he ⊢
    by_cases het : e.term = t
    · rw [het] at he ⊢
      rw [hself]
      exact entryAt_of_isPrefix (hold.trans hgrown) he
    · rwa [hne _ het]
  have hholds : w'.cluster.Holds S L'.Has := by
    refine step_entries (h.holds.mono hmono) hw.refines hcluster
      fun ev' hown' e hbrings he => ?_
    rw [hown] at hown'
    cases hown'
    rw [Has, hterm e hbrings, hself]
    exact hb.entryAt_of_mem hnode he
  obtain ⟨harchive, hknown⟩ := h.logs_step hw hs hmono hholds
  refine ⟨fun s => ?_, happended, hopens, hmade, hholds, harchive, hknown, fun i hi hl => ?_⟩
  · by_cases hst : s = t
    · subst hst
      rw [hself]
      -- the last entry is a new one
      obtain ⟨e, he, -, hbrings⟩ := hw.exists_brought hs hown hnew
      have hllog := (hb.archive_llog hnode he).2
      rwa [hterm e hbrings] at hllog
    · rw [hne s hst]
      exact (h.appended_llog s).trans (hg.llog_isPrefix s)
  · by_cases hin : i = act.node
    · subst hin
      rw [(step_leader hw.refines hcluster hl).2.1, hcurrent, hself]
    · rw [nodes_of_ne hs hin] at hl ⊢
      rw [archive_of_ne hs hin, hne _ (hothers i hi hin hl)]
      exact h.leaders i hi hl

/-- What the leader of a term has appended by now. -/
def append (L : Ledger) (t : ℕ) (log : List LogEntry) : Ledger :=
  { L with appended := Function.update L.appended t log }

/-- The log with which a leader begins. -/
def elect (L : Ledger) (t : ℕ) (log : List LogEntry) : Ledger :=
  ⟨Function.update L.appended t log, Function.update L.promised t log⟩

section Entries

variable (L : Ledger) (t : ℕ) (log : List LogEntry)

@[simp] theorem append_appended : (L.append t log).appended t = log := Function.update_self _ _ _

theorem append_appended_of_ne (h : s ≠ t) :
    (L.append t log).appended s = L.appended s := Function.update_of_ne h _ _

@[simp] theorem append_promised : (L.append t log).promised = L.promised := rfl

@[simp] theorem elect_appended : (L.elect t log).appended t = log := Function.update_self _ _ _

theorem elect_appended_of_ne (h : s ≠ t) : (L.elect t log).appended s = L.appended s :=
  Function.update_of_ne h _ _

@[simp] theorem elect_promised : (L.elect t log).promised t = log := Function.update_self _ _ _

theorem elect_promised_of_ne (h : s ≠ t) : (L.elect t log).promised s = L.promised s :=
  Function.update_of_ne h _ _

end Entries

/-- Nothing has been promised in a term but the `noop` of its leader. -/
def Fresh (L : Ledger) (t : ℕ) : Prop :=
  ∀ k e, entryAt (L.promised t) k = some e → e.term = t → k = (L.promised t).length

/-- What a leader makes of requests has been promised. -/
def Covers (L : Ledger) (n : Node) (cs : List ClientRequest) : Prop :=
  ∀ e ∈ (Node.selectRequests n.log.currentTerm n.log.lastIndex cs).map ClientRequest.entry,
    entryAt (L.promised n.log.currentTerm) e.index = some e

/-- A leader that appends what was promised has a log that was promised. -/
theorem Inv.archive_promised (h : L.Inv S codec w a.1) (hw : w.Inv S a.1)
    (hs : w.step S act = some w') (hown : act.input = .own (.clientRequests cs))
    (hrole : (w.cluster.nodes act.node).role = .leader)
    (hclients : L.Covers (w.cluster.nodes act.node) cs) :
    w'.archive act.node <+: L.promised (w.cluster.nodes act.node).log.currentTerm := by
  refine isPrefix_of_entryAt fun k e he => ?_
  rcases Nat.lt_or_ge (w.archive act.node).length k with hlt | hge
  · obtain ⟨-, hmem, rfl⟩ := hw.mem_brings hs hown hlt he
    rw [Event.brings, if_pos hrole] at hmem
    exact hclients e hmem
  · rw [← (agree_of_isPrefix (hw.archive_isPrefix hs hown) hge).entryAt_eq (Nat.le_refl k),
      ← h.leaders _ (node_mem hs) hrole] at he
    exact entryAt_of_isPrefix (h.appended_promised _) he

/-- **A leader appends** what its application has promised. -/
theorem Inv.append (h : L.Inv S codec w a.1) (hw : w.Inv S a.1) (hs : w.step S act = some w')
    (hb : w'.Inv S b.1) (hg : Grows a.1 b.1) (hown : act.input = .own (.clientRequests cs))
    (hnew : w'.archive act.node ≠ w.archive act.node)
    (hrole : (w.cluster.nodes act.node).role = .leader)
    (hclients : L.Covers (w.cluster.nodes act.node) cs) :
    (L.append (w.cluster.nodes act.node).log.currentTerm (w'.archive act.node)).Inv S codec w'
      b.1 := by
  have hnode := node_mem hs
  have hbrings : (Event.clientRequests cs).brings (S.config act.node)
      (w.cluster.nodes act.node) = (Node.selectRequests
        (w.cluster.nodes act.node).log.currentTerm
        (w.cluster.nodes act.node).log.lastIndex cs).map ClientRequest.entry := if_pos hrole
  have happended := h.leaders _ hnode hrole
  refine h.make hw hs hb hg hown hnew rfl (fun e he => ?_) ?_ (happended ▸ List.prefix_refl _)
    (append_appended _ _ _) (fun s hst => append_appended_of_ne _ _ _ hst) (fun s => ?_)
    (fun s hopen => h.opens s (hg.leader_none hopen)) h.promised
  · rw [hbrings] at he
    obtain ⟨j, hj⟩ := List.mem_iff_getElem?.mp he
    exact (Node.selectRequests_spec cs _ j hj).1
  · -- a term has one leader
    intro i hi hin hl heq
    have hlead := ((hw.refines.nodes i hi).leader hl).1
    rw [← (hw.refines.nodes i hi).durable.term_eq, heq,
      (hw.refines.nodes _ hnode).durable.term_eq,
      ((hw.refines.nodes _ hnode).leader hrole).1] at hlead
    exact hin (Option.some.inj hlead).symm
  · rw [append_promised]
    by_cases hst : s = (w.cluster.nodes act.node).log.currentTerm
    · subst hst
      rw [append_appended]
      exact h.archive_promised hw hs hown hrole hclients
    · rw [append_appended_of_ne _ _ _ hst]
      exact h.appended_promised s

/-- **A candidate wins**, and appends its `noop`. -/
theorem Inv.elect (h : L.Inv S codec w a.1) (hw : w.Inv S a.1) (hs : w.step S act = some w')
    (hb : w'.Inv S b.1) (hg : Grows a.1 b.1) (hown : act.input = .own (.becomeLeader clk))
    (hnew : w'.archive act.node ≠ w.archive act.node)
    (hcand : (w.cluster.nodes act.node).role = .candidate) :
    a.1.leader (w.cluster.nodes act.node).log.currentTerm = none ∧
    (L.elect (w.cluster.nodes act.node).log.currentTerm (w'.archive act.node)).Inv S codec w'
      b.1 ∧
    (L.elect (w.cluster.nodes act.node).log.currentTerm (w'.archive act.node)).Fresh
      (w.cluster.nodes act.node).log.currentTerm := by
  have hnode := node_mem hs
  have hd := hw.refines.nodes _ hnode
  obtain ⟨hopen, hlength⟩ := (hw.candidate_step hs hown hcand).resolve_left fun h => hnew h.1
  have hterm : ∀ e ∈ (Event.becomeLeader clk).brings (S.config act.node)
      (w.cluster.nodes act.node), e.term = (w.cluster.nodes act.node).log.currentTerm ∧
        e.noop = true := by
    intro e he
    rw [Event.brings, if_pos hcand] at he
    rw [List.mem_singleton.mp he]
    exact ⟨rfl, rfl⟩
  have hempty : L.appended (w.cluster.nodes act.node).log.currentTerm = [] := by
    have hle := h.appended_promised (w.cluster.nodes act.node).log.currentTerm
    rw [h.opens _ hopen] at hle
    exact List.prefix_nil.mp hle
  -- what was there is older, and what is new is the `noop`
  have hentry : ∀ k e, entryAt (w'.archive act.node) k = some e →
      (entryAt (w.archive act.node) k = some e ∧
        e.term < (w.cluster.nodes act.node).log.currentTerm) ∨
      k = (w'.archive act.node).length ∧ e.index = k ∧
        e.term = (w.cluster.nodes act.node).log.currentTerm ∧ e.noop = true := by
    intro k e he
    rcases Nat.lt_or_ge (w.archive act.node).length k with hlt | hge
    · obtain ⟨-, hmem, hindex⟩ := hw.mem_brings hs hown hlt he
      have hle := (le_length_of_entryAt he).2
      exact Or.inr ⟨by omega, hindex, hterm e hmem⟩
    · rw [← (agree_of_isPrefix (hw.archive_isPrefix hs hown) hge).entryAt_eq (Nat.le_refl k)] at he
      refine Or.inl ⟨he, ?_⟩
      rw [hw.archive _ hnode] at he
      rw [hd.durable.term_eq]
      exact (a.2.cand_terms (hd.candidate hcand).cand_eq).2 e (entryAt_mem he)
  refine ⟨hopen, h.make hw hs hb hg hown hnew rfl (fun e he => (hterm e he).1) ?_
    (hempty ▸ List.nil_prefix) (elect_appended _ _ _)
    (fun s hst => elect_appended_of_ne _ _ _ hst) (fun s => ?_) (fun s hs' => ?_)
    (fun s k e he => ?_), fun k e he het => ?_⟩
  · intro i hi hin hl heq
    have hlead := ((hw.refines.nodes i hi).leader hl).1
    rw [← (hw.refines.nodes i hi).durable.term_eq, heq, hopen] at hlead
    cases hlead
  · by_cases hst : s = (w.cluster.nodes act.node).log.currentTerm
    · rw [hst, elect_appended, elect_promised]
    · rw [elect_appended_of_ne _ _ _ hst, elect_promised_of_ne _ _ _ hst]
      exact h.appended_promised s
  · rw [elect_promised_of_ne]
    · exact h.opens s (hg.leader_none hs')
    · rintro rfl
      -- the term has been won
      obtain ⟨e, he, -, hmem⟩ := hw.exists_brought hs hown hnew
      have hne := (hb.archive_llog hnode he).1
      rw [(hterm e hmem).1] at hne
      exact hne hs'
  · by_cases hst : s = (w.cluster.nodes act.node).log.currentTerm
    · rw [hst, elect_promised] at he
      rcases hentry k e he with ⟨hold, -⟩ | ⟨-, hindex, -, hnoop⟩
      · obtain ⟨hindex, hhas⟩ := h.archive _ hnode k e hold
        exact ⟨hindex, h.made hhas⟩
      · exact ⟨hindex, Or.inl hnoop⟩
    · rw [elect_promised_of_ne _ _ _ hst] at he
      exact h.promised s k e he
  · rw [elect_promised] at he ⊢
    rcases hentry k e he with ⟨-, hlt⟩ | ⟨hk, -⟩
    · omega
    · exact hk

/-- **A step of the cluster** keeps the ledger right, if a leader appends nothing but what was
promised. -/
theorem Inv.step (h : L.Inv S codec w a.1) (hw : w.Inv S a.1) (hs : w.step S act = some w')
    (hb : w'.Inv S b.1) (hg : Grows a.1 b.1)
    (hclients : ∀ cs, act.input = .own (.clientRequests cs) →
      (w.cluster.nodes act.node).role = .leader → L.Covers (w.cluster.nodes act.node) cs) :
    ∃ L' : Ledger, L'.Inv S codec w' b.1 ∧
      (∀ t, a.1.leader t ≠ none → L'.promised t = L.promised t) ∧
      ((w'.cluster.nodes act.node).role = .leader → (w.cluster.nodes act.node).role ≠ .leader →
        L'.Fresh (w'.cluster.nodes act.node).log.currentTerm) := by
  have hcluster := cluster_step hs
  by_cases hkeep : ∀ ev, act.input = .own ev → w'.archive act.node = w.archive act.node
  · refine ⟨L, h.keep hw hs hb hg hkeep, fun _ _ => rfl, fun hl hne => ?_⟩
    obtain ⟨-, -, hrole | ⟨hcand, clk, hown⟩⟩ := step_leader hw.refines hcluster hl
    · exact absurd hrole hne
    · rcases hw.candidate_step hs hown hcand with ⟨-, hne⟩ | ⟨-, hlength⟩
      · exact absurd hl hne
      · rw [hkeep _ hown] at hlength
        omega
  · obtain ⟨ev, hev⟩ := not_forall.mp hkeep
    obtain ⟨hown, hnew⟩ := Classical.not_imp.mp hev
    -- a new entry says who has made it
    obtain ⟨e, -, hlocal, hmem⟩ := hw.exists_brought hs hown hnew
    rcases Event.brings_cases hlocal hmem with ⟨hrole, cs, rfl, -⟩ | ⟨hcand, clk, rfl, -⟩
    · exact ⟨_, h.append hw hs hb hg hown hnew hrole (hclients cs hown hrole), fun _ _ => rfl,
        fun _ hne => absurd hrole hne⟩
    · obtain ⟨hopen, hinv, hfresh⟩ := h.elect hw hs hb hg hown hnew hcand
      refine ⟨_, hinv, fun t ht => elect_promised_of_ne _ _ _ ?_, fun hl _ => ?_⟩
      · rintro rfl
        exact ht hopen
      · rw [(step_leader hw.refines hcluster hl).2.1]
        exact hfresh

/-- **Up to an entry of a term**, the committed log is the log of the leader of that term. -/
theorem Inv.agree_promised (h : L.Inv S codec w a.1) (hw : w.Inv S a.1) {k : ℕ}
    (he : entryAt w.known k = some e) :
    k ≤ (L.appended e.term).length ∧ Agree w.known (L.promised e.term) k := by
  obtain ⟨rfl, hhas⟩ := h.known k e he
  have hle := (le_length_of_entryAt hhas).2
  have hroot := (hw.known.rooted a.2 _ (le_length_of_entryAt he).1 (le_length_of_entryAt he).2).2
  rw [termAt_of_entryAt he] at hroot
  have hllog := agree_of_isPrefix (h.appended_llog e.term) hle
  exact ⟨hle, hroot.trans (hllog.symm.trans (agree_of_isPrefix (h.appended_promised _) hle))⟩

/-! ### A promise -/

/-- The application of the leader of a term has numbered another command. -/
def promise (L : Ledger) (t : ℕ) (e : LogEntry) : Ledger :=
  { L with promised := Function.update L.promised t (L.promised t ++ [e]) }

@[simp] theorem promise_promised (L : Ledger) (t : ℕ) (e : LogEntry) :
    (L.promise t e).promised t = L.promised t ++ [e] := Function.update_self _ _ _

theorem promise_promised_of_ne (L : Ledger) (e : LogEntry) (h : s ≠ t) :
    (L.promise t e).promised s = L.promised s := Function.update_of_ne h _ _

theorem isPrefix_promise (L : Ledger) (s t : ℕ) (e : LogEntry) :
    L.promised s <+: (L.promise t e).promised s := by
  by_cases hst : s = t
  · rw [hst, promise_promised]
    exact List.prefix_append _ _
  · rw [promise_promised_of_ne _ _ hst]

theorem Inv.promise (h : L.Inv S codec w a.1) (hlead : a.1.leader t ≠ none)
    (hindex : e.index = (L.promised t).length + 1) (hmade : codec.Made e) :
    (L.promise t e).Inv S codec w a.1 :=
  { appended_llog := h.appended_llog
    appended_promised := fun s => (h.appended_promised s).trans (L.isPrefix_promise s t e)
    opens := fun s hs => by
      rw [promise_promised_of_ne]
      · exact h.opens s hs
      · rintro rfl
        exact hlead hs
    promised := fun s k f hf => by
      by_cases hst : s = t
      · rw [hst, promise_promised] at hf
        rcases Nat.lt_or_ge (L.promised t).length k with hlt | hge
        · have hle := (le_length_of_entryAt hf).2
          rw [List.length_append, List.length_singleton] at hle
          obtain rfl : k = (L.promised t).length + 1 := by omega
          rw [entryAt_succ, List.getElem?_concat_length] at hf
          rw [← Option.some.inj hf]
          exact ⟨hindex, hmade⟩
        · rw [entryAt_append_left hge] at hf
          exact h.promised t k f hf
      · rw [promise_promised_of_ne _ _ hst] at hf
        exact h.promised s k f hf
    holds := h.holds
    archive := h.archive
    known := h.known
    leaders := h.leaders }

end Ledger

end Gringofts
