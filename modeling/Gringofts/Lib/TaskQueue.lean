import Mathlib.Data.List.Basic

/-!
# A queue of tasks with several workers

One thread appends tasks to a queue, several workers carry them out, and one thread takes them off
the front. A task has a flag. A worker claims the first task whose flag is still `initial`, by
setting it to `doing`, and works on it without holding a lock; when it is through, it sets the flag
to `done`. The front of the queue may be taken off when its flag is `done`. So tasks are finished in
any order and leave the queue in the order they came in.

A worker *appends* to the output of its task: that the output is right in the end rests on the task
having been claimed once only.

## Tasks that have left

A worker refers to a task by a pointer, and the pointer stays good when the task leaves the queue.
So the model keeps every task ever appended, oldest first, and counts how many have left. The
pointer to a task is its position.

## Main definitions

* `TaskQueue` — the tasks, how many have left, and the workers
* `TaskQueue.workerStep` — the next step of a worker
* `TaskQueue.Sound` — the invariant

## Main results

* `Sound.push`, `Sound.workerStep`, `Sound.pop` — the invariant is kept
* `workerStep_inputs`, `Sound.workerStep_done` — what a worker leaves alone
-/

namespace Gringofts

/-- How far a task has come. -/
inductive TaskFlag
  | initial
  | doing
  | done
  deriving DecidableEq

/-- A task: what there is to do, and what has come out of it. -/
structure Task (α β : Type) where
  input : α
  output : List β
  flag : TaskFlag

/-- What a worker is about to do: look for a task, work on the one it has claimed, or set the flag
of the one it has worked on. -/
inductive Worker
  | idle
  | claimed (k : ℕ)
  | performed (k : ℕ)
  deriving DecidableEq

/-- The task a worker has. -/
def Worker.task? : Worker → Option ℕ
  | .idle => none
  | .claimed k => some k
  | .performed k => some k

/-- The queue and its workers. -/
structure TaskQueue (α β : Type) where
  /-- Every task ever appended, oldest first. -/
  tasks : List (Task α β)
  /-- How many tasks have left at the front. -/
  popped : ℕ
  workers : List Worker

namespace TaskQueue

variable {α β : Type} (q : TaskQueue α β)

/-- An empty queue with so many workers. -/
def start (n : ℕ) : TaskQueue α β := ⟨[], 0, List.replicate n .idle⟩

/-- The tasks in the queue. -/
def waiting : List (Task α β) := q.tasks.drop q.popped

/-- The number of tasks in the queue. -/
def size : ℕ := q.waiting.length

/-- Append a task. -/
def push (a : α) : TaskQueue α β := { q with tasks := q.tasks ++ [⟨a, [], .initial⟩] }

/-- Take the front off. -/
def pop : TaskQueue α β := { q with popped := q.popped + 1 }

/-- Worker `j` changes the task at `k` and goes on as `w`. -/
def update (k : ℕ) (f : Task α β → Task α β) (j : ℕ) (w : Worker) : TaskQueue α β :=
  { q with tasks := q.tasks.modify k f, workers := q.workers.set j w }

/-- The first task that nobody has claimed. -/
def unclaimed? : Option ℕ :=
  (q.waiting.findIdx? fun t => t.flag = .initial).map fun i => q.popped + i

/-- The next step of worker `j`. There is none if the work fails. -/
def workerStep (work : α → Option (List β)) (j : ℕ) : Option (TaskQueue α β) :=
  match q.workers[j]? with
  | none => none
  | some .idle =>
    match q.unclaimed? with
    | none => some q
    | some k => some (q.update k (fun t => { t with flag := .doing }) j (.claimed k))
  | some (.claimed k) => do
    let t ← q.tasks[k]?
    let out ← work t.input
    some (q.update k (fun t => { t with output := t.output ++ out }) j (.performed k))
  | some (.performed k) => some (q.update k (fun t => { t with flag := .done }) j .idle)

/-- Exchange the output of a task for another one. -/
def setOutput (k : ℕ) (out : List β) : TaskQueue α β :=
  { q with tasks := q.tasks.modify k fun t => { t with output := out } }

variable {q} {q' : TaskQueue α β} {work : α → Option (List β)} {j k : ℕ} {t : Task α β}

theorem getElem?_update (f : Task α β → Task α β) (w : Worker) (i : ℕ) :
    (q.update k f j w).tasks[i]? = if k = i then q.tasks[i]?.map f else q.tasks[i]? := by
  rw [update, List.getElem?_modify]
  split
  · rfl
  · exact Option.map_id'

theorem getElem?_update_workers {f : Task α β → Task α β} {w w' : Worker} {i : ℕ}
    (h : (q.update k f j w).workers[i]? = some w') :
    (i = j ∧ w' = w) ∨ (i ≠ j ∧ q.workers[i]? = some w') := by
  rw [update, List.getElem?_set] at h
  split at h
  · next hji =>
    split at h
    · exact Or.inl ⟨hji.symm, (Option.some.inj h).symm⟩
    · cases h
  · next hji => exact Or.inr ⟨fun h => hji h.symm, h⟩

/-- A task that nobody has claimed. -/
theorem unclaimed?_eq_some (h : q.unclaimed? = some k) :
    q.popped ≤ k ∧ ∃ t, q.tasks[k]? = some t ∧ t.flag = .initial := by
  obtain ⟨i, hi, rfl⟩ := Option.map_eq_some_iff.mp h
  obtain ⟨hlt, hflag, -⟩ := List.findIdx?_eq_some_iff_getElem.mp hi
  refine ⟨Nat.le_add_right _ _, q.waiting[i], ?_, of_decide_eq_true hflag⟩
  rw [← List.getElem?_drop]
  exact List.getElem?_eq_getElem hlt

/-- **What a worker does**: it finds nothing, or it claims a task that nobody has claimed, or it
works on its task, or it is through with it. -/
theorem workerStep_cases (h : q.workerStep work j = some q') :
    q' = q ∨
    (∃ k, q.workers[j]? = some .idle ∧ q.unclaimed? = some k ∧
      q' = q.update k (fun t => { t with flag := .doing }) j (.claimed k)) ∨
    (∃ k t out, q.workers[j]? = some (.claimed k) ∧ q.tasks[k]? = some t ∧
      work t.input = some out ∧
      q' = q.update k (fun t => { t with output := t.output ++ out }) j (.performed k)) ∨
    (∃ k, q.workers[j]? = some (.performed k) ∧
      q' = q.update k (fun t => { t with flag := .done }) j .idle) := by
  rw [workerStep] at h
  split at h
  · cases h
  · next hw =>
    split at h
    · exact Or.inl (Option.some.inj h).symm
    · next k hk => exact Or.inr (Or.inl ⟨k, hw, hk, (Option.some.inj h).symm⟩)
  · next k hw =>
    obtain ⟨t, ht, h⟩ := Option.bind_eq_some_iff.mp h
    obtain ⟨out, hout, h⟩ := Option.bind_eq_some_iff.mp h
    exact Or.inr (Or.inr (Or.inl ⟨k, t, out, hw, ht, hout, (Option.some.inj h).symm⟩))
  · next k hw => exact Or.inr (Or.inr (Or.inr ⟨k, hw, (Option.some.inj h).symm⟩))

/-! ## The invariant -/

/-- What holds of a worker that has a task: the task is being done, and its output is still empty,
or what the work gives. -/
def WorkerOk (work : α → Option (List β)) (tasks : List (Task α β)) : Worker → Prop
  | .idle => True
  | .claimed k => ∃ t, tasks[k]? = some t ∧ t.flag = .doing ∧ t.output = []
  | .performed k => ∃ t, tasks[k]? = some t ∧ t.flag = .doing ∧ work t.input = some t.output

/-- **The invariant of the queue.** -/
structure Sound (work : α → Option (List β)) (q : TaskQueue α β) : Prop where
  popped_le : q.popped ≤ q.tasks.length
  initial : ∀ (k : ℕ) (t : Task α β), q.tasks[k]? = some t → t.flag = .initial →
    t.output = []
  /-- The output of a task that is done and has not left is right. -/
  done : ∀ (k : ℕ) (t : Task α β), q.popped ≤ k → q.tasks[k]? = some t → t.flag = .done →
    work t.input = some t.output
  workers : ∀ (j : ℕ) (w : Worker), q.workers[j]? = some w → WorkerOk work q.tasks w
  /-- No two workers have the same task. -/
  exclusive : ∀ (i j : ℕ) (v w : Worker) (k : ℕ), q.workers[i]? = some v →
    q.workers[j]? = some w → v.task? = some k → w.task? = some k → i = j

theorem sound_start (n : ℕ) : (start n : TaskQueue α β).Sound work := by
  have hidle : ∀ (j : ℕ) (w : Worker), (List.replicate n Worker.idle)[j]? = some w → w = .idle := by
    intro j w h
    exact List.eq_of_mem_replicate (List.mem_of_getElem? h)
  refine ⟨Nat.zero_le _, by simp [start], by simp [start], ?_, ?_⟩
  · intro j w h
    rw [hidle j w h]
    trivial
  · intro i j v w k hv _ hk
    rw [hidle i v hv] at hk
    cases hk

/-- A worker that has a task has one that is being done. -/
theorem Sound.doing (h : q.Sound work) {w : Worker} (hw : q.workers[j]? = some w)
    (hk : w.task? = some k) : ∃ t, q.tasks[k]? = some t ∧ t.flag = .doing := by
  have hok := h.workers j w hw
  cases w with
  | idle => cases hk
  | claimed i =>
    obtain rfl : i = k := Option.some.inj hk
    obtain ⟨t, ht, hflag, -⟩ := hok
    exact ⟨t, ht, hflag⟩
  | performed i =>
    obtain rfl : i = k := Option.some.inj hk
    obtain ⟨t, ht, hflag, -⟩ := hok
    exact ⟨t, ht, hflag⟩

theorem WorkerOk.mono {tasks tasks' : List (Task α β)} {w : Worker} (h : WorkerOk work tasks w)
    (hkeep : ∀ k t, w.task? = some k → tasks[k]? = some t → tasks'[k]? = some t) :
    WorkerOk work tasks' w := by
  cases w with
  | idle => trivial
  | claimed k =>
    obtain ⟨t, ht, hrest⟩ := h
    exact ⟨t, hkeep k t rfl ht, hrest⟩
  | performed k =>
    obtain ⟨t, ht, hrest⟩ := h
    exact ⟨t, hkeep k t rfl ht, hrest⟩

theorem Sound.push (h : q.Sound work) (a : α) : (q.push a).Sound work := by
  have hold : ∀ (k : ℕ) (t : Task α β), (q.tasks ++ [⟨a, [], .initial⟩])[k]? = some t →
      q.tasks[k]? = some t ∨ t = ⟨a, [], .initial⟩ := by
    intro k t ht
    rcases Nat.lt_or_ge k q.tasks.length with hlt | hge
    · rw [List.getElem?_append_left hlt] at ht
      exact Or.inl ht
    · rw [List.getElem?_append_right hge] at ht
      exact Or.inr (List.mem_singleton.mp (List.mem_of_getElem? ht))
  refine ⟨?_, ?_, ?_, ?_, h.exclusive⟩
  · show q.popped ≤ (q.tasks ++ _).length
    rw [List.length_append]
    exact Nat.le_add_right_of_le h.popped_le
  · intro k t ht hflag
    rcases hold k t ht with ht | rfl
    · exact h.initial k t ht hflag
    · rfl
  · intro k t hk ht hflag
    rcases hold k t ht with ht | rfl
    · exact h.done k t hk ht hflag
    · cases hflag
  · intro j w hw
    refine (h.workers j w hw).mono fun k t _ ht => ?_
    show (q.tasks ++ _)[k]? = some t
    rw [List.getElem?_append_left (List.getElem?_eq_some_iff.mp ht).1, ht]

/-- **One worker changes its task**: what is left to show is about that task and that worker. -/
theorem Sound.update (h : q.Sound work) {f : Task α β → Task α β} {w : Worker}
    (ht : q.tasks[k]? = some t)
    (hfree : ∀ (i : ℕ) (v : Worker), i ≠ j → q.workers[i]? = some v → v.task? ≠ some k)
    (hinitial : (f t).flag = .initial → (f t).output = [])
    (hdone : (f t).flag = .done → work (f t).input = some (f t).output)
    (hworker : WorkerOk work (q.update k f j w).tasks w)
    (htask : ∀ i, w.task? = some i → i = k) : (q.update k f j w).Sound work := by
  have hcases : ∀ (i : ℕ) (s : Task α β), (q.update k f j w).tasks[i]? = some s →
      (i = k ∧ s = f t) ∨ (i ≠ k ∧ q.tasks[i]? = some s) := by
    intro i s hs
    rw [getElem?_update] at hs
    split at hs
    · next hki =>
      subst hki
      rw [ht] at hs
      exact Or.inl ⟨rfl, (Option.some.inj hs).symm⟩
    · next hki => exact Or.inr ⟨fun h => hki h.symm, hs⟩
  refine ⟨?_, ?_, ?_, ?_, ?_⟩
  · show q.popped ≤ (q.tasks.modify k f).length
    rw [List.length_modify]
    exact h.popped_le
  · intro i s hs hflag
    rcases hcases i s hs with ⟨-, rfl⟩ | ⟨-, hs⟩
    · exact hinitial hflag
    · exact h.initial i s hs hflag
  · intro i s hi hs hflag
    rcases hcases i s hs with ⟨-, rfl⟩ | ⟨-, hs⟩
    · exact hdone hflag
    · exact h.done i s hi hs hflag
  · intro i v hv
    rcases getElem?_update_workers hv with ⟨rfl, rfl⟩ | ⟨hij, hv⟩
    · exact hworker
    · refine (h.workers i v hv).mono fun k' s hk' hs => ?_
      have hne : ¬ k = k' := fun heq => hfree i v hij hv (heq ▸ hk')
      rw [getElem?_update, if_neg hne]
      exact hs
  · intro i i' v v' k' hv hv' hk hk'
    rcases getElem?_update_workers hv with ⟨rfl, rfl⟩ | ⟨hij, hold⟩ <;>
      rcases getElem?_update_workers hv' with ⟨rfl, rfl⟩ | ⟨hij', hold'⟩
    · rfl
    · exact absurd (htask k' hk ▸ hk') (hfree i' v' hij' hold')
    · exact absurd (htask k' hk' ▸ hk) (hfree i v hij hold)
    · exact h.exclusive i i' v v' k' hold hold' hk hk'

theorem Sound.free_of_holds (h : q.Sound work) {w : Worker} (hw : q.workers[j]? = some w)
    (hk : w.task? = some k) :
    ∀ (i : ℕ) (v : Worker), i ≠ j → q.workers[i]? = some v → v.task? ≠ some k :=
  fun i v hij hv hvk => hij (h.exclusive i j v w k hv hw hvk hk)

/-- **Every step of a worker keeps the invariant.** -/
theorem Sound.workerStep (h : q.Sound work) (hs : q.workerStep work j = some q') :
    q'.Sound work := by
  rcases workerStep_cases hs with rfl | ⟨k, hw, hk, rfl⟩ | ⟨k, t, out, hw, ht, hout, rfl⟩ |
    ⟨k, hw, rfl⟩
  · exact h
  · obtain ⟨-, t, ht, hflag⟩ := unclaimed?_eq_some hk
    have hfree : ∀ (i : ℕ) (v : Worker), i ≠ j → q.workers[i]? = some v → v.task? ≠ some k := by
      intro i v _ hv hvk
      obtain ⟨t', ht', hdoing⟩ := h.doing hv hvk
      rw [ht] at ht'
      rw [← Option.some.inj ht', hflag] at hdoing
      cases hdoing
    refine h.update ht hfree nofun nofun ?_ fun i hi => (Option.some.inj hi).symm
    refine ⟨{ t with flag := .doing }, ?_, rfl, h.initial k t ht hflag⟩
    rw [getElem?_update, if_pos rfl, ht]
    rfl
  · obtain ⟨t', ht', hdoing, hempty⟩ := h.workers j _ hw
    obtain rfl : t = t' := Option.some.inj (ht.symm.trans ht')
    refine h.update ht (h.free_of_holds hw rfl) ?_ ?_ ?_ fun i hi => (Option.some.inj hi).symm
    · intro hflag
      rw [hdoing] at hflag
      cases hflag
    · intro hflag
      rw [hdoing] at hflag
      cases hflag
    · refine ⟨{ t with output := t.output ++ out }, ?_, hdoing, ?_⟩
      · rw [getElem?_update, if_pos rfl, ht]
        rfl
      · rw [hempty]
        exact hout
  · obtain ⟨t, ht, -, hright⟩ := h.workers j _ hw
    exact h.update ht (h.free_of_holds hw rfl) nofun (fun _ => hright) trivial nofun

/-- A task that is done is left alone. -/
theorem Sound.workerStep_done (h : q.Sound work) (hs : q.workerStep work j = some q')
    (ht : q.tasks[k]? = some t) (hflag : t.flag = .done) : q'.tasks[k]? = some t := by
  have hkeep : ∀ (i : ℕ) (s : Task α β) (f : Task α β → Task α β) (w : Worker),
      q.tasks[i]? = some s → s.flag ≠ .done →
      (q.update i f j w).tasks[k]? = some t := by
    intro i s f w hs hne
    rw [getElem?_update, if_neg, ht]
    rintro rfl
    obtain rfl : s = t := Option.some.inj (hs.symm.trans ht)
    exact hne hflag
  rcases workerStep_cases hs with rfl | ⟨i, -, hi, rfl⟩ | ⟨i, s, out, hw, -, -, rfl⟩ | ⟨i, hw, rfl⟩
  · exact ht
  · obtain ⟨-, s, hs', hinit⟩ := unclaimed?_eq_some hi
    exact hkeep i s _ _ hs' (by rw [hinit]; exact nofun)
  · obtain ⟨s, hs', hdoing⟩ := h.doing hw rfl
    exact hkeep i s _ _ hs' (by rw [hdoing]; exact nofun)
  · obtain ⟨s, hs', hdoing⟩ := h.doing hw rfl
    exact hkeep i s _ _ hs' (by rw [hdoing]; exact nofun)

theorem map_input_modify (tasks : List (Task α β)) {f : Task α β → Task α β}
    (hf : ∀ t, (f t).input = t.input) :
    (tasks.modify k f).map Task.input = tasks.map Task.input := by
  refine List.ext_getElem? fun i => ?_
  rw [List.getElem?_map, List.getElem?_map, List.getElem?_modify]
  cases tasks[i]? with
  | none => rfl
  | some t =>
    show some (Task.input (if k = i then f t else t)) = some t.input
    split
    · rw [hf]
    · rfl

/-- **A worker leaves the queue as it is**: what there is to do, and how much has left. -/
theorem workerStep_inputs (hs : q.workerStep work j = some q') :
    q'.tasks.map Task.input = q.tasks.map Task.input ∧ q'.popped = q.popped := by
  rcases workerStep_cases hs with rfl | ⟨k, -, -, rfl⟩ | ⟨k, t, out, -, -, -, rfl⟩ | ⟨k, -, rfl⟩
  · exact ⟨rfl, rfl⟩
  · exact ⟨map_input_modify _ fun _ => rfl, rfl⟩
  · exact ⟨map_input_modify _ fun _ => rfl, rfl⟩
  · exact ⟨map_input_modify _ fun _ => rfl, rfl⟩

theorem setOutput_inputs (out : List β) :
    (q.setOutput k out).tasks.map Task.input = q.tasks.map Task.input :=
  map_input_modify _ fun _ => rfl

/-- Only a task that is there can leave. -/
theorem Sound.pop (h : q.Sound work) (ht : q.tasks[q.popped]? = some t) : q.pop.Sound work where
  popped_le := (List.getElem?_eq_some_iff.mp ht).1
  initial := h.initial
  done := fun k s hk => h.done k s (Nat.le_of_succ_le hk)
  workers := h.workers
  exclusive := h.exclusive

/-- What has left and is done may lose its output. -/
theorem Sound.setOutput (h : q.Sound work) (hk : k < q.popped) (ht : q.tasks[k]? = some t)
    (hflag : t.flag = .done) (out : List β) : (q.setOutput k out).Sound work := by
  have hcases : ∀ (i : ℕ) (s : Task α β), (q.setOutput k out).tasks[i]? = some s →
      (i = k ∧ s.flag = .done) ∨ q.tasks[i]? = some s := by
    intro i s hs
    have hs' : (q.update k (fun t => { t with output := out }) q.workers.length .idle).tasks[i]? =
        some s := hs
    rw [getElem?_update] at hs'
    split at hs'
    · next hki =>
      subst hki
      rw [ht] at hs'
      exact Or.inl ⟨rfl, (Option.some.inj hs') ▸ hflag⟩
    · exact Or.inr hs'
  refine ⟨?_, ?_, ?_, ?_, h.exclusive⟩
  · show q.popped ≤ (q.tasks.modify k _).length
    rw [List.length_modify]
    exact h.popped_le
  · intro i s hs hinit
    rcases hcases i s hs with ⟨-, hd⟩ | hs
    · rw [hd] at hinit
      cases hinit
    · exact h.initial i s hs hinit
  · intro i s hi hs hd
    rcases hcases i s hs with ⟨rfl, -⟩ | hs
    · exact absurd hk (Nat.not_lt.mpr hi)
    · exact h.done i s hi hs hd
  · intro i w hw
    refine (h.workers i w hw).mono fun k' s hk' hs => ?_
    show (q.tasks.modify k _)[k']? = some s
    have hne : ¬ k = k' := by
      rintro rfl
      obtain ⟨s', hs', hdoing⟩ := h.doing hw hk'
      rw [ht] at hs'
      rw [← Option.some.inj hs', hflag] at hdoing
      cases hdoing
    rw [List.getElem?_modify, hs]
    simp [hne]

end TaskQueue

end Gringofts
