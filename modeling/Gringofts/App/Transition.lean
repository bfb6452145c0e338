import Gringofts.App.CommandLoop
import Gringofts.Raft.Office

/-!
# What the application sees of leadership

The application asks `detectTransition` whether the node has become leader or has ceased to be. The
role and the term of the node are two atomic variables of the raft thread, and `refresh` reads the
term, the role and the term again until both terms are equal.

The raft thread writes the two one after the other. Every function of it that changes both writes
the role first and the term after it, and none writes one of them twice. So an event leads from the
role and the term of the node, through its new role in the old term, to its new role in the new
term. Because the term never falls, a role that is read between two equal terms has been the role in
that term. A role that belongs to the next term already is never `Leader`: a node becomes leader
without a change of the term.

## Main definitions

* `Event.KeepsMembers` — no reconfiguration, and no request of a log sync that lowers the term
* `Node.Advances` — the term does not fall, and a leader has the term it had before the event
* `Watch`, `Watch.Step` — the raft thread between its two writes, and `detectTransition` between its
  reads
* `Transition.Acquires` — the transitions after which the application is leader

## Main results

* `Node.handle_advances` — what an event does to role and term
* `Watch.Inv.step` — the invariant is kept
* `transitions_possible`
-/

namespace Gringofts

open Outcome Scenario

variable {cfg : RaftConfig} {ev : Event}

/-! ## Role and term -/

/-- **The term does not fall**, and a node that is leader after an event has the term from before
it. -/
structure Node.Advances (n m : Node) : Prop where
  term_le : n.log.currentTerm ≤ m.log.currentTerm
  leader : m.role = .leader → m.log.currentTerm = n.log.currentTerm

/-- The membership stays as it is. The entries that a log sync copies are those of a log, in which
terms do not fall. -/
def Event.KeepsMembers (n : Node) : Event → Prop
  | .reconfigureRequest _ _ _ => False
  | .syncRequest _ r => n.role = .syncer → ∀ e, r.entries.getLast? = some e →
    n.log.currentTerm ≤ e.term
  | _ => True

namespace Node

variable {n m : Node}

theorem advances_of_eq (h : m.log.currentTerm = n.log.currentTerm) : n.Advances m :=
  ⟨h.ge, fun _ => h⟩

theorem Handles.advances (h : n.Handles cfg ev m) : n.Advances m := by
  rcases h.quiet_or with hq | ⟨-, -, r, -, hr⟩ | ⟨clk, -, hw⟩ | ⟨k, -, rfl⟩
  · exact ⟨hq.term_le, fun hm => (hq.leader hm).2.1⟩
  · exact advances_of_eq (by rw [hr.log_eq])
  · exact advances_of_eq (by rw [hw.log_eq]; rfl)
  · exact advances_of_eq Log.truncatePrefix_currentTerm

/-- A sync request sets the term of its last entry. The last one leaves it. -/
theorem handleSyncRequest_advances (clk : Clock) (r : SyncRequest)
    (hterm : n.role = .syncer → ∀ e, r.entries.getLast? = some e → n.log.currentTerm ≤ e.term) :
    (n.handleSyncRequest clk r).Sat (fun _ => True) n.Advances fun _ => True := by
  rw [handleSyncRequest]
  split
  · exact sat_pure.mpr (advances_of_eq rfl)
  next hrole =>
  have hrole := not_not.mp hrole
  split
  · exact (n.members.initialRole_reads _).sat.bind fun _ _ =>
      sat_pure.mpr (advances_of_eq rfl)
  · refine (reads_check _ _).sat.bind fun _ _ => ?_
    refine Sat.bind (R := fun e => r.entries.getLast? = some e)
      (sat_ofOption.mpr ⟨fun _ => id, fun _ => trivial⟩) fun e he => ?_
    refine (sat_trivial _).bind fun x _ => ?_
    refine (reads_check _ _).sat.bind fun _ _ => ?_
    refine (reads_check _ _).sat.bind fun _ _ => ?_
    refine Sat.bind (R := fun m => m.role = .syncer ∧ m.log.currentTerm = e.term) ?_
      fun m hm => sat_pure.mpr ⟨(hterm hrole e he).trans hm.2.ge, fun hl => ?_⟩
    · exact sat_persist_bind trivial fun _ => sat_pure.mpr ⟨hrole, rfl⟩
    · rw [show m.role = .syncer from hm.1] at hl
      cases hl

/-- **What an event does to role and term.** -/
theorem handle_advances (cfg : RaftConfig) (hev : ev.KeepsMembers n) :
    (n.handle cfg ev).Sat (fun _ => True) (fun x => n.Advances x.1) fun _ => True := by
  by_cases hsync : ∃ clk r, ev = .syncRequest clk r
  · obtain ⟨clk, r, rfl⟩ := hsync
    exact (handleSyncRequest_advances (n := { n with outbox := [] }) clk r hev).bind
      fun _ hm => sat_pure.mpr { hm with }
  · refine (handle_sat cfg (fun clk r h => absurd ⟨clk, r, h⟩ hsync) ?_).mono (fun _ _ => trivial)
      (fun _ hx => { hx.advances with }) fun _ => id
    rintro clk selfId info rfl
    exact hev

end Node

/-! ## Two threads -/

/-- Where `refresh` is. Between two calls it is about to read the term. -/
inductive RefreshPhase
  | term1
  | role (term1 : ℕ)
  | term2 (term1 : ℕ) (role : RaftRole)

/-- The raft thread and the thread that calls `detectTransition`. -/
structure Watch where
  /-- The node between two events. Its term is the term that is read. -/
  node : Node
  /-- What an event makes of it, once the role of that has been written. -/
  next : Option Node
  /-- The roles and terms that the node has had. -/
  past : List (RaftRole × ℕ)
  phase : RefreshPhase
  store : LogStore
  /-- What `detectTransition` has returned, each time with the term. -/
  returned : List (Transition × ℕ)

namespace Watch

/-- The application is started. -/
def start (n : Node) : Watch :=
  ⟨n, none, [(n.role, n.log.currentTerm)], .term1, LogStore.start, []⟩

/-- `getCurrentTerm`. -/
def term (w : Watch) : ℕ := w.node.log.currentTerm

/-- `getRaftRole`. -/
def role (w : Watch) : RaftRole := (w.next.getD w.node).role

/-- **One write of the raft thread, or one read of the other.** -/
inductive Step (cfg : RaftConfig) (w : Watch) : Watch → Prop
  /-- An event happens. Its role is written. -/
  | event {m : Node} {ev : Event} {x : Option Answer} (hnext : w.next = none)
      (hev : ev.KeepsMembers w.node) (hm : (w.node.handle cfg ev).result = .ok (m, x)) :
      Step cfg w
        { w with
          next := some m
          past := w.past ++ [(m.role, m.log.currentTerm)] }
  /-- Its term is written. -/
  | settle {m : Node} (hnext : w.next = some m) : Step cfg w { w with node := m, next := none }
  | term1 (hphase : w.phase = .term1) : Step cfg w { w with phase := .role w.term }
  | role {term1 : ℕ} (hphase : w.phase = .role term1) :
      Step cfg w { w with phase := .term2 term1 w.role }
  /-- The term has changed: both are read again. -/
  | again {term1 : ℕ} {role : RaftRole} (hphase : w.phase = .term2 term1 role)
      (hterm : w.term ≠ term1) : Step cfg w { w with phase := .term1 }
  /-- The term is the same: `detectTransition` returns. -/
  | detect {role : RaftRole} {store : LogStore} {t : Transition}
      (hphase : w.phase = .term2 w.term role)
      (hdetect : w.store.detectTransition w.term role = some (store, t)) :
      Step cfg w
        { w with
          phase := .term1
          store := store
          returned := w.returned ++ [(t, store.logStoreTerm)] }

/-- A run. -/
inductive RunsTo (cfg : RaftConfig) (w : Watch) : Watch → Prop
  | refl : RunsTo cfg w w
  | step {u v : Watch} (hrun : RunsTo cfg w u) (hstep : Step cfg u v) : RunsTo cfg w v

end Watch

/-! ## The table of transitions -/

/-- The application becomes leader. -/
def Transition.Acquires (t : Transition) : Prop := t = .followerToLeader ∨ t = .oldLeaderToNewLeader

instance : DecidablePred Transition.Acquires := fun _ => inferInstanceAs (Decidable (_ ∨ _))

namespace LogStore

variable {s : LogStore} {term : ℕ} {role : RaftRole}

/-- The store has been checked since it was last refreshed. -/
def Checked (s : LogStore) : Prop :=
  s.lastCheckedTerm = s.logStoreTerm ∧ s.lastCheckedRole = s.logStoreRole

/-- What `detectTransition` makes of a term that is not below the one it knows. -/
structure Detected (s : LogStore) (term : ℕ) (role : RaftRole) (s' : LogStore) (t : Transition) :
    Prop where
  checked : s'.Checked
  term_eq : s'.logStoreTerm = term
  /-- It is leader of the term, or the application has been told so before. -/
  leader : s'.logStoreRole = .leader →
    role = .leader ∨ s.logStoreTerm = term ∧ s.logStoreRole = .leader
  /-- A leader stays leader of the term. -/
  stays : s.logStoreTerm = term → s.logStoreRole = .leader → s'.logStoreRole = .leader
  same : t = .sameLeader ↔ s.logStoreTerm = term ∧ s.logStoreRole = .leader
  acquires : t.Acquires ↔
    s'.logStoreRole = .leader ∧ ¬ (s.logStoreTerm = term ∧ s.logStoreRole = .leader)

/-- **Both assertions of `detectTransition` hold** where the term does not fall. -/
theorem exists_detected (hs : s.Checked) (hterm : s.logStoreTerm ≤ term) (role : RaftRole) :
    ∃ s' t, s.detectTransition term role = some (s', t) ∧ s.Detected term role s' t := by
  obtain ⟨known, knownRole, checked, checkedRole⟩ := s
  obtain ⟨rfl, rfl⟩ : checked = known ∧ checkedRole = knownRole := hs
  by_cases hleader : checked = term ∧ checkedRole = .leader
  · -- the role is not taken over if it is another
    obtain ⟨rfl, rfl⟩ := hleader
    have hrefresh : refresh ⟨checked, .leader, checked, .leader⟩ checked role =
        ⟨checked, .leader, checked, .leader⟩ := by
      rw [refresh]
      split
      · rfl
      · next h =>
        have hrole : role = .leader := by simpa using h
        rw [hrole]
    refine ⟨⟨checked, .leader, checked, .leader⟩, .sameLeader, ?_, ⟨rfl, rfl⟩, rfl,
      fun _ => Or.inr ⟨rfl, rfl⟩, fun _ _ => rfl, by simp, by simp [Transition.Acquires]⟩
    rw [detectTransition, hrefresh]
    simp [transition?]
  · have hrefresh : refresh ⟨checked, checkedRole, checked, checkedRole⟩ term role =
        ⟨term, role, checked, checkedRole⟩ :=
      if_neg fun h => hleader ⟨h.1, h.2.1⟩
    have hstays : checked = term → checkedRole = .leader → role = .leader :=
      fun h h' => absurd ⟨h, h'⟩ hleader
    have hfinish : ∀ t, transition? ⟨term, role, checked, checkedRole⟩ = some t →
        t ≠ .sameLeader → (t.Acquires ↔ role = .leader) →
        ∃ s' t, detectTransition ⟨checked, checkedRole, checked, checkedRole⟩ term role =
          some (s', t) ∧ Detected ⟨checked, checkedRole, checked, checkedRole⟩ term role s' t := by
      intro t ht hsame hacquires
      refine ⟨⟨term, role, term, role⟩, t, ?_, ⟨rfl, rfl⟩, rfl, Or.inl, hstays, ?_, ?_⟩
      · rw [detectTransition, hrefresh, ht]
        rfl
      · exact iff_of_false hsame hleader
      · exact hacquires.trans (and_iff_left hleader).symm
    rcases hterm.lt_or_eq with hlt | heq
    · have hlt : checked < term := hlt
      by_cases hold : checkedRole = .leader <;> by_cases hnew : role = .leader
      · exact hfinish .oldLeaderToNewLeader (by simp [transition?, hlt, hlt.ne, hold, hnew]) nofun
          (by simp [Transition.Acquires, hnew])
      · exact hfinish .leaderToFollower (by simp [transition?, hlt, hlt.ne, hold, hnew]) nofun
          (by simp [Transition.Acquires, hnew])
      · exact hfinish .followerToLeader (by simp [transition?, hlt, hlt.ne, hold, hnew]) nofun
          (by simp [Transition.Acquires, hnew])
      · exact hfinish .oldFollowerToNewFollower (by simp [transition?, hlt, hlt.ne, hold, hnew])
          nofun (by simp [Transition.Acquires, hnew])
    · obtain rfl : checked = term := heq
      have hold : checkedRole ≠ .leader := fun h => hleader ⟨rfl, h⟩
      by_cases hnew : role = .leader
      · exact hfinish .followerToLeader (by simp [transition?, hold, hnew]) nofun
          (by simp [Transition.Acquires, hnew])
      · exact hfinish .sameFollower (by simp [transition?, hold, hnew]) nofun
          (by simp [Transition.Acquires, hnew])

end LogStore

/-! ## What the application has been told -/

/-- **What the application has been told.** It is told that it leads a term once, before it is told
that it still does, and if the node did. -/
structure Told (past : List (RaftRole × ℕ)) (store : LogStore) (returned : List (Transition × ℕ)) :
    Prop where
  checked : store.Checked
  returned_le : ∀ x ∈ returned, x.2 ≤ store.logStoreTerm
  /-- The application leads the term of the store exactly if it was told so. -/
  acquired : store.logStoreRole = .leader ↔
    ∃ t : Transition, t.Acquires ∧ (t, store.logStoreTerm) ∈ returned
  once : ∀ term, (returned.filter fun x => x.1.Acquires ∧ x.2 = term).length ≤ 1
  before : ∀ pre term post, returned = pre ++ (.sameLeader, term) :: post →
    ∃ t : Transition, t.Acquires ∧ (t, term) ∈ pre
  real : ∀ t term, Transition.Acquires t → (t, term) ∈ returned → (.leader, term) ∈ past

namespace Told

variable {past : List (RaftRole × ℕ)} {s s' : LogStore} {returned : List (Transition × ℕ)}
  {term : ℕ} {role : RaftRole} {t : Transition}

theorem start : Told past LogStore.start [] where
  checked := ⟨rfl, rfl⟩
  returned_le := nofun
  acquired := by
    constructor
    · intro h
      cases h
    · rintro ⟨t, -, ht⟩
      cases ht
  once _ := Nat.zero_le _
  before pre term post h := by simp at h
  real := nofun

theorem mono {past' : List (RaftRole × ℕ)} (h : Told past s returned) (hsub : past ⊆ past') :
    Told past' s returned :=
  { h with real := fun t term ht hmem => hsub (h.real t term ht hmem) }

/-- The application was told that it leads the term that is read now. -/
theorem leads_of_mem (h : Told past s returned) (hle : s.logStoreTerm ≤ term) (ht : t.Acquires)
    (hmem : (t, term) ∈ returned) : s.logStoreTerm = term ∧ s.logStoreRole = .leader := by
  have heq : s.logStoreTerm = term := Nat.le_antisymm hle (h.returned_le _ hmem)
  exact ⟨heq, h.acquired.mpr ⟨t, ht, heq.symm ▸ hmem⟩⟩

theorem once_append (h : Told past s returned) (hle : s.logStoreTerm ≤ term)
    (hd : s.Detected term role s' t) (k : ℕ) :
    ((returned ++ [(t, term)]).filter fun x => x.1.Acquires ∧ x.2 = k).length ≤ 1 := by
  rw [List.filter_append, List.length_append]
  by_cases hnew : t.Acquires ∧ term = k
  · obtain ⟨ht, rfl⟩ := hnew
    -- it was not told so before
    have hnone : (returned.filter fun x => x.1.Acquires ∧ x.2 = term) = [] := by
      rw [List.filter_eq_nil_iff]
      rintro ⟨u, k⟩ hx hdec
      obtain ⟨hu, rfl⟩ : u.Acquires ∧ k = term := of_decide_eq_true hdec
      exact (hd.acquires.mp ht).2 (h.leads_of_mem hle hu hx)
    rw [hnone, List.length_nil, Nat.zero_add]
    exact List.length_filter_le _ _
  · have hnil : ([(t, term)].filter fun x => x.1.Acquires ∧ x.2 = k) = [] := by
      simpa [List.filter_eq_nil_iff] using hnew
    rw [hnil]
    exact h.once k

theorem before_append (h : Told past s returned) (hd : s.Detected term role s' t)
    {pre post : List (Transition × ℕ)} {k : ℕ}
    (heq : returned ++ [(t, term)] = pre ++ (.sameLeader, k) :: post) :
    ∃ u : Transition, u.Acquires ∧ (u, k) ∈ pre := by
  rcases List.eq_nil_or_concat post with rfl | ⟨post, x, rfl⟩
  · obtain rfl := List.append_inj_left' heq rfl
    cases List.append_inj_right' heq rfl
    obtain ⟨rfl, hrole⟩ := hd.same.mp rfl
    exact h.acquired.mp hrole
  · rw [List.concat_eq_append, ← List.cons_append, ← List.append_assoc] at heq
    exact h.before pre k post (List.append_inj_left' heq rfl)

/-- **One more call.** -/
theorem detect (h : Told past s returned) (hle : s.logStoreTerm ≤ term)
    (hd : s.Detected term role s' t) (hreal : role = .leader → (.leader, term) ∈ past) :
    Told past s' (returned ++ [(t, s'.logStoreTerm)]) := by
  rw [hd.term_eq]
  constructor
  · exact hd.checked
  · intro x hx
    rw [hd.term_eq]
    rcases List.mem_append.mp hx with hx | hx
    · exact (h.returned_le x hx).trans hle
    · rw [List.mem_singleton.mp hx]
  · rw [hd.term_eq]
    constructor
    · intro hrole
      by_cases ht : t.Acquires
      · exact ⟨t, ht, List.mem_append_right _ (List.mem_singleton_self _)⟩
      · have hbefore : s.logStoreTerm = term ∧ s.logStoreRole = .leader := by
          by_contra hnot
          exact ht (hd.acquires.mpr ⟨hrole, hnot⟩)
        obtain ⟨u, hu, hmem⟩ := h.acquired.mp hbefore.2
        exact ⟨u, hu, List.mem_append_left _ (hbefore.1 ▸ hmem)⟩
    · rintro ⟨u, hu, hmem⟩
      rcases List.mem_append.mp hmem with hmem | hmem
      · obtain ⟨hterm, hrole⟩ := h.leads_of_mem hle hu hmem
        exact hd.stays hterm hrole
      · cases List.mem_singleton.mp hmem
        exact (hd.acquires.mp hu).1
  · exact h.once_append hle hd
  · intro pre k post heq
    exact h.before_append hd heq
  · intro u k hu hmem
    rcases List.mem_append.mp hmem with hmem | hmem
    · exact h.real u k hu hmem
    · cases List.mem_singleton.mp hmem
      obtain ⟨hrole, hnot⟩ := hd.acquires.mp hu
      exact hreal ((hd.leader hrole).resolve_right hnot)

end Told

/-! ## The invariant -/

namespace Watch

variable {cfg : RaftConfig} {w v : Watch}

/-- What has been read so far: a term that is not above the term, and a role that the node had since
then. -/
def Read (w : Watch) : Prop :=
  match w.phase with
  | .term1 => True
  | .role term1 => w.store.logStoreTerm ≤ term1 ∧ term1 ≤ w.term
  | .term2 term1 role => w.store.logStoreTerm ≤ term1 ∧ term1 ≤ w.term ∧
    (role = .leader → ∃ t, term1 ≤ t ∧ t ≤ w.term ∧ (.leader, t) ∈ w.past)

/-- **The invariant.** -/
structure Inv (w : Watch) : Prop where
  settled : (w.node.role, w.node.log.currentTerm) ∈ w.past
  next : ∀ m, w.next = some m → w.node.Advances m ∧ (m.role, m.log.currentTerm) ∈ w.past
  store_le : w.store.logStoreTerm ≤ w.term
  read : w.Read
  told : Told w.past w.store w.returned

theorem inv_start (n : Node) : (start n).Inv where
  settled := List.mem_singleton_self _
  next := nofun
  store_le := Nat.zero_le _
  read := trivial
  told := Told.start

/-- What has been read stays true. -/
theorem Read.mono (h : w.Read) (hphase : v.phase = w.phase) (hstore : v.store = w.store)
    (hterm : w.term ≤ v.term) (hpast : w.past ⊆ v.past) : v.Read := by
  rw [Read] at h ⊢
  rw [hphase, hstore]
  cases hp : w.phase with
  | term1 => trivial
  | role term1 =>
    rw [hp] at h
    exact ⟨h.1, h.2.trans hterm⟩
  | term2 term1 role =>
    rw [hp] at h
    refine ⟨h.1, h.2.1.trans hterm, fun hrole => ?_⟩
    obtain ⟨t, hlow, hhigh, hmem⟩ := h.2.2 hrole
    exact ⟨t, hlow, hhigh.trans hterm, hpast hmem⟩

namespace Inv

/-- A role of leader that is read is held in the term of that moment. -/
theorem leader_mem_past (h : w.Inv) (hrole : w.role = .leader) : (.leader, w.term) ∈ w.past := by
  rw [role] at hrole
  cases hnext : w.next with
  | none =>
    rw [hnext] at hrole
    have hmem := h.settled
    rwa [show w.node.role = .leader from hrole] at hmem
  | some m =>
    obtain ⟨hadv, hmem⟩ := h.next m hnext
    rw [hnext] at hrole
    rwa [show m.role = .leader from hrole, hadv.leader hrole] at hmem

/-- **`detectTransition` returns**, and says what `Detected` says. -/
theorem exists_detected (h : w.Inv) {r : RaftRole} (hphase : w.phase = .term2 w.term r) :
    ∃ s t, w.store.detectTransition w.term r = some (s, t) ∧
      w.store.Detected w.term r s t ∧ (r = .leader → (.leader, w.term) ∈ w.past) := by
  obtain ⟨s, t, hdetect, hd⟩ := LogStore.exists_detected h.told.checked h.store_le r
  refine ⟨s, t, hdetect, hd, fun hrole => ?_⟩
  have hread := h.read
  rw [Read, hphase] at hread
  obtain ⟨k, hlow, hhigh, hmem⟩ := hread.2.2 hrole
  rwa [Nat.le_antisymm hhigh hlow] at hmem

/-- **Every step keeps the invariant.** -/
theorem step (h : w.Inv) (hstep : Step cfg w v) : v.Inv := by
  cases hstep with
  | @event m ev x hnext hev hm =>
    have hsub : w.past ⊆ w.past ++ [(m.role, m.log.currentTerm)] := List.subset_append_left _ _
    refine ⟨hsub h.settled, ?_, h.store_le, h.read.mono rfl rfl (Nat.le_refl _) hsub,
      h.told.mono hsub⟩
    rintro _ ⟨⟩
    exact ⟨(Node.handle_advances cfg hev).of_result hm,
      List.mem_append_right _ (List.mem_singleton_self _)⟩
  | @settle m hnext =>
    obtain ⟨hadv, hmem⟩ := h.next m hnext
    exact ⟨hmem, nofun, h.store_le.trans hadv.term_le,
      h.read.mono rfl rfl hadv.term_le (List.Subset.refl _), h.told⟩
  | term1 hphase =>
    exact ⟨h.settled, h.next, h.store_le, ⟨h.store_le, Nat.le_refl _⟩, h.told⟩
  | @role term1 hphase =>
    have hread := h.read
    rw [Read, hphase] at hread
    refine ⟨h.settled, h.next, h.store_le, ⟨hread.1, hread.2, fun hrole => ?_⟩, h.told⟩
    exact ⟨w.term, hread.2, Nat.le_refl _, h.leader_mem_past hrole⟩
  | again hphase hterm => exact ⟨h.settled, h.next, h.store_le, trivial, h.told⟩
  | @detect r s t hphase hdetect =>
    obtain ⟨s', t', hdetect', hd, hreal⟩ := h.exists_detected hphase
    rw [hdetect] at hdetect'
    obtain ⟨rfl, rfl⟩ := Prod.mk.inj (Option.some.inj hdetect')
    refine ⟨h.settled, h.next, hd.term_eq.le, trivial, ?_⟩
    exact h.told.detect h.store_le hd hreal

theorem run (h : w.Inv) (hrun : RunsTo cfg w v) : v.Inv := by
  induction hrun with
  | refl => exact h
  | step _ hstep ih => exact ih.step hstep

end Inv

end Watch

/-- **The application sees no impossible transition.** In every state of every run of a node with
fixed members, whose role and term are written and read one at a time:

* `detectTransition` fails no assertion when it has read a term and a role;
* `SameLeader` is returned for a term only after a transition that acquired it;
* a term is acquired once, and only if the node was its leader. -/
theorem transitions_possible {cfg : RaftConfig} {n : Node} {w : Watch}
    (hrun : Watch.RunsTo cfg (Watch.start n) w) :
    (∀ r, w.phase = .term2 w.term r → ∃ s t, w.store.detectTransition w.term r = some (s, t)) ∧
    (∀ pre term post, w.returned = pre ++ (.sameLeader, term) :: post →
      ∃ t : Transition, t.Acquires ∧ (t, term) ∈ pre) ∧
    (∀ term, (w.returned.filter fun x => x.1.Acquires ∧ x.2 = term).length ≤ 1) ∧
    ∀ t term, Transition.Acquires t → (t, term) ∈ w.returned → (.leader, term) ∈ w.past := by
  have h := (Watch.inv_start n).run hrun
  refine ⟨fun r hphase => ?_, h.told.before, h.told.once, h.told.real⟩
  obtain ⟨s, t, hdetect, -⟩ := h.exists_detected hphase
  exact ⟨s, t, hdetect⟩

namespace Scenario

/-- The raft thread handles events, one after the other, while nothing is read. -/
theorem watch_handleAll {evs : List Event} {m : Node} {u w : Watch} (hrun : Watch.RunsTo cfg u w)
    (hnext : w.next = none) (hev : ∀ ev ∈ evs, ∀ n, ev.KeepsMembers n)
    (h : handleAll cfg evs w.node = some m) :
    ∃ past, Watch.RunsTo cfg u { w with node := m, next := none, past := past } := by
  induction evs generalizing w with
  | nil =>
    obtain rfl : w.node = m := Option.some.inj h
    refine ⟨w.past, ?_⟩
    rw [← hnext]
    exact hrun
  | cons ev evs ih =>
    obtain ⟨⟨k, x⟩, hx, hrest⟩ := Option.bind_eq_some_iff.mp h
    have hevent := hrun.step (.event hnext (hev ev List.mem_cons_self w.node)
      (Outcome.value?_eq_some.mp hx))
    have hsettled : Watch.RunsTo cfg u
        { w with node := k, next := none, past := w.past ++ [(k.role, k.log.currentTerm)] } :=
      hevent.step (.settle rfl)
    obtain ⟨past, hpast⟩ := ih hsettled rfl (fun e he => hev e (List.mem_cons_of_mem _ he)) hrest
    exact ⟨past, hpast⟩

end Scenario

/-- Node `1` wins term `1`, and the application is told so once and then that it is still
leader. -/
theorem transitions_possible_winning :
    ∃ w, Watch.RunsTo config (Watch.start fresh) w ∧
      w.returned = [(.followerToLeader, 1), (.sameLeader, 1)] ∧
      (∃ t : Transition, t.Acquires ∧ (t, 1) ∈ [(Transition.followerToLeader, 1)]) ∧
      (.leader, 1) ∈ w.past := by
  have hwins : (handleAll config winning fresh).any
      (fun n => n.role = .leader ∧ n.log.currentTerm = 1) = true := by
    decide +kernel
  obtain ⟨n, hn, hp⟩ := (Option.any_eq_true _ _).mp hwins
  obtain ⟨hrole, hterm⟩ := of_decide_eq_true hp
  have hev : ∀ ev ∈ winning, ∀ n, ev.KeepsMembers n := by
    intro ev hev n
    simp only [winning, List.mem_cons, List.not_mem_nil, or_false] at hev
    rcases hev with rfl | rfl | rfl | rfl <;> exact trivial
  obtain ⟨past, hrun⟩ := watch_handleAll (.refl : Watch.RunsTo config
    (Watch.start fresh) _) rfl hev hn
  have hpoll : ∀ (store store' : LogStore) (t : Transition) (returned : List (Transition × ℕ)),
      store.detectTransition 1 .leader = some (store', t) →
      Watch.RunsTo config (Watch.start fresh)
        ⟨n, none, past, .term1, store, returned⟩ →
      Watch.RunsTo config (Watch.start fresh)
        ⟨n, none, past, .term1, store', returned ++ [(t, store'.logStoreTerm)]⟩ := by
    intro store store' t returned hdetect h
    rw [← hterm, ← hrole] at hdetect
    exact ((h.step (.term1 rfl)).step (.role rfl)).step (.detect rfl hdetect)
  have hfirst := hpoll LogStore.start ⟨1, .leader, 1, .leader⟩ .followerToLeader [] rfl hrun
  have hsecond := hpoll ⟨1, .leader, 1, .leader⟩ ⟨1, .leader, 1, .leader⟩ .sameLeader _ rfl hfirst
  obtain ⟨-, hbefore, -, hreal⟩ := transitions_possible hsecond
  exact ⟨_, hsecond, rfl, hbefore [(.followerToLeader, 1)] 1 [] rfl,
    hreal .followerToLeader 1 (Or.inl rfl) (List.mem_cons_self)⟩

end Gringofts
