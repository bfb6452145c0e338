import Gringofts.App.Delivery
import Gringofts.Raft.Safety

/-!
# A cluster with its past

What a node has cut off in front it does not know any more, and what is committed somewhere need not
be known anywhere else. To speak of the whole log of a node, and of the committed log, the state of
a cluster is extended by a record of both. A step extends the record by what the step shows, and
nothing a node does depends on it.

## Main definitions

* `Log.whole` — a window, put behind what was cut off
* `Chronicle`, `Chronicle.step` — a cluster with the whole logs and the committed log
* `Chosen` — a log that the protocol has committed

## Main results

* `Chronicle.Inv.step` — the record is right: whole logs are those of the protocol, and the
  committed log only grows
* `Chronicle.Inv.carries` — what a node shows is part of the committed log
-/

namespace Gringofts

open Replication

variable {S : Setup} {i j : ℕ}

/-! ## Whole logs -/

/-- The whole log of a node: what it had below its window, and the window. -/
def Log.whole (l : Log) (past : List LogEntry) : List LogEntry :=
  past.take (l.firstIndex - 1) ++ l.entries

/-- The whole log is that of the protocol, if what was cut off is. -/
theorem Durable.whole_eq {b : State ℕ LogEntry} {l : Log} {past : List LogEntry} (h : Durable b i l)
    (hag : Agree (b.log i) past (l.firstIndex - 1)) : l.whole past = b.log i := by
  rw [Log.whole, h.entries_eq, ← hag.2.2]
  exact List.take_append_drop _ _

/-! ## Committed logs -/

/-- **A log that has been committed**, by the leader of some term. -/
def Chosen (S : Setup) (a : State ℕ LogEntry) (known : List LogEntry) : Prop :=
  known = [] ∨ ∃ t k, S.protocol.Committed a t k ∧ known.length ≤ k ∧
    Agree known (a.llog t) known.length

namespace Chosen

variable {a b : State ℕ LogEntry} {known : List LogEntry} {i j : ℕ}

theorem grows (h : Chosen S a known) (hg : Grows a b) : Chosen S b known := by
  rcases h with rfl | ⟨t, k, hc, hle, hag⟩
  · exact Or.inl rfl
  · exact Or.inr ⟨t, k, hg.committed hc, hle, hg.agree_llog hag⟩

/-- It is what every node has that has counted as much. -/
theorem agree (h : Chosen S a known) (ha : S.protocol.Inv a) (hj : j ≤ known.length)
    (hi : j ≤ a.committed i) : Agree known (a.log i) j := by
  rcases h with rfl | ⟨t, k, hc, hle, hag⟩
  · obtain rfl : j = 0 := Nat.le_zero.mp hj
    exact agree_zero _ _
  rcases ha.committed_log i with h0 | ⟨t', k', -, hc', hle', hag'⟩
  · obtain rfl : j = 0 := by omega
    exact agree_zero _ _
  have hknown := hag.mono hj
  have hlog := hag'.mono hi
  rcases Nat.le_total t t' with htt | htt
  · exact hknown.trans (((ha.committed_agree_llog hc htt hc'.1).mono (hj.trans hle)).symm.trans
      hlog.symm)
  · exact hknown.trans (((ha.committed_agree_llog hc' htt hc.1).mono (hi.trans hle')).trans
      hlog.symm)

/-- It is made of pieces of the logs of leaders. -/
theorem rooted (h : Chosen S a known) (ha : S.protocol.Inv a) : S.protocol.Rooted a known := by
  rcases h with rfl | ⟨t, k, hc, hle, hag⟩
  · exact Protocol.rooted_nil _ _
  · exact (ha.llog_rooted t).of_isPrefix hag.isPrefix

/-- What a node has counted as committed has been committed. -/
theorem of_committed (ha : S.protocol.Inv a) (hj : j ≤ a.committed i) :
    Chosen S a ((a.log i).take j) := by
  have hlen : ((a.log i).take j).length = j :=
    List.length_take_of_le (hj.trans (ha.committed_le i))
  rcases ha.committed_log i with h0 | ⟨t, k, -, hc, hle, hag⟩
  · obtain rfl : j = 0 := by omega
    exact Or.inl rfl
  · refine Or.inr ⟨t, k, hc, hlen.symm ▸ hj.trans hle, ?_⟩
    rw [hlen]
    exact (hag.mono hj).take_left (Nat.le_refl j)

end Chosen

/-! ## Steps -/

/-- A cluster, the whole log of each node, and the longest log that a node has counted as
committed. -/
structure Chronicle where
  cluster : Cluster
  archive : ℕ → List LogEntry
  known : List LogEntry

namespace Chronicle

/-- Before anything has happened. -/
def init (S : Setup) : Chronicle := ⟨S.init, fun _ => [], []⟩

/-- The record after a step of node `i`. -/
def record (w : Chronicle) (i : ℕ) (c : Cluster) : Chronicle where
  cluster := c
  archive := Function.update w.archive i ((c.nodes i).log.whole (w.archive i))
  known :=
    if w.known.length < (c.nodes i).commitIndex then
      ((c.nodes i).log.whole (w.archive i)).take (c.nodes i).commitIndex
    else w.known

theorem record_archive_self (w : Chronicle) (i : ℕ) (c : Cluster) :
    (w.record i c).archive i = (c.nodes i).log.whole (w.archive i) :=
  Function.update_self _ _ _

theorem record_archive_of_ne (w : Chronicle) (c : Cluster) (h : j ≠ i) :
    (w.record i c).archive j = w.archive j :=
  Function.update_of_ne h _ _

/-- One step. -/
def step (S : Setup) (act : Action) (w : Chronicle) : Option Chronicle :=
  (w.cluster.step S act).map (w.record act.node)

section Step

variable {w w' : Chronicle} {act : Action} {i : ℕ}

theorem cluster_step (hs : w.step S act = some w') : w.cluster.step S act = some w'.cluster := by
  obtain ⟨c, hc, rfl⟩ := Option.map_eq_some_iff.mp hs
  exact hc

theorem node_mem (hs : w.step S act = some w') : act.node ∈ S.info.nodes.keys :=
  Cluster.step_mem (cluster_step hs)

theorem nodes_of_ne (hs : w.step S act = some w') (hi : i ≠ act.node) :
    w'.cluster.nodes i = w.cluster.nodes i :=
  Cluster.step_other (cluster_step hs) hi

theorem archive_of_ne (hs : w.step S act = some w') (hi : i ≠ act.node) :
    w'.archive i = w.archive i := by
  obtain ⟨c, -, rfl⟩ := Option.map_eq_some_iff.mp hs
  exact record_archive_of_ne _ _ hi

theorem archive_acting (hs : w.step S act = some w') :
    w'.archive act.node =
      (w'.cluster.nodes act.node).log.whole (w.archive act.node) := by
  obtain ⟨c, -, rfl⟩ := Option.map_eq_some_iff.mp hs
  exact record_archive_self _ _ _

end Step

/-- **The record is right.** -/
structure Inv (S : Setup) (w : Chronicle) (a : State ℕ LogEntry) : Prop where
  refines : Refines S w.cluster a
  archive : ∀ i ∈ S.info.nodes.keys, w.archive i = a.log i
  commit_le : ∀ i ∈ S.info.nodes.keys, (w.cluster.nodes i).commitIndex ≤ w.known.length
  known : Chosen S a w.known

theorem inv_init (S : Setup) : (init S).Inv S (State.init ℕ LogEntry) where
  refines := refines_init S
  archive _ _ := rfl
  commit_le _ _ := Nat.le_refl _
  known := Or.inl rfl

variable {w w' : Chronicle} {a : S.Abstract} {i : ℕ} {act : Action}

/-- A node knows the committed log as far as it has counted it. -/
theorem Inv.agree (h : w.Inv S a.1) (hi : i ∈ S.info.nodes.keys)
    (hj : j ≤ (w.cluster.nodes i).commitIndex) : Agree w.known (w.archive i) j := by
  rw [h.archive i hi]
  exact h.known.agree a.2 (hj.trans (h.commit_le i hi)) (hj.trans (h.refines.nodes i hi).commit_le)

/-- What a node cuts off it has counted as committed. -/
theorem Inv.first_le (h : w.Inv S a.1) (hi : i ∈ S.info.nodes.keys) {c : Cluster}
    (hs : w.cluster.step S act = some c) :
    (c.nodes i).log.firstIndex - 1 ≤ a.1.committed i := by
  have hd := h.refines.nodes i hi
  have hfirst := Cluster.step_log (W := fun l =>
    l.firstIndex = (w.cluster.nodes i).log.firstIndex ∨
      l.firstIndex ≤ (w.cluster.nodes i).commitIndex) hs (Or.inl rfl) fun inp ev origin _ hev =>
        Node.handle_first (S.config i) hd.role_ne (Cluster.event?_ne_reconfigure hev)
  have hcommit := hd.commit_le
  rcases hd.durable.first_le with hone | hle <;> omega

/-- **One step**: the protocol takes steps of the same node, the record stays right, and the
committed log grows. -/
theorem Inv.step (h : w.Inv S a.1) (hs : w.step S act = some w') :
    ∃ b : S.Abstract, (S.abstraction act.node).reach a b ∧ w'.Inv S b.1 ∧
      w.known <+: w'.known := by
  obtain ⟨c, hc, rfl⟩ := Option.map_eq_some_iff.mp hs
  obtain ⟨b, hab, hb⟩ := Cluster.step_refines_node h.refines hc
  have hg := S.grows_of_reach hab
  have hwhole : ∀ i ∈ S.info.nodes.keys, (c.nodes i).log.whole (w.archive i) = b.1.log i := by
    intro i hi
    refine (hb.nodes i hi).durable.whole_eq ?_
    rw [h.archive i hi]
    exact (hg.committed_log i).mono (h.first_le hi hc)
  have hchosen := h.known.grows hg
  have hnode := Cluster.step_mem hc
  have hcommit : (c.nodes act.node).commitIndex ≤ b.1.committed act.node :=
    (hb.nodes _ hnode).commit_le
  have hlen : ((b.1.log act.node).take (c.nodes act.node).commitIndex).length =
      (c.nodes act.node).commitIndex :=
    List.length_take_of_le (hcommit.trans (b.2.committed_le _))
  have hgrows : w.known <+: (w.record act.node c).known := by
    simp only [record, hwhole _ hnode]
    split
    · next hlt =>
      have hag := (hchosen.agree b.2 (Nat.le_refl _) (hlt.le.trans hcommit)).symm.take_left hlt.le
      exact hag.symm.isPrefix
    · exact List.prefix_refl _
  refine ⟨b, hab, ⟨hb, fun i hi => ?_, fun i hi => ?_, ?_⟩, hgrows⟩
  · by_cases hin : i = act.node
    · subst hin
      rw [record_archive_self]
      exact hwhole _ hi
    · rw [record_archive_of_ne _ _ hin, h.archive i hi]
      exact ((Protocol.Steps.sameElsewhere hab) i hin).2.2.1.symm
  · by_cases hin : i = act.node
    · subst hin
      simp only [record, hwhole _ hnode]
      split
      · exact hlen.ge
      · next hlt => exact Nat.not_lt.mp hlt
    · have hold := (h.commit_le i hi).trans hgrows.length_le
      rw [← Cluster.step_other hc hin] at hold
      exact hold
  · simp only [record, hwhole _ hnode]
    split
    · exact Chosen.of_committed b.2 hcommit
    · exact hchosen

end Chronicle

end Gringofts
