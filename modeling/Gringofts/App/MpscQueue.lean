import Gringofts.Lib.Fifo
import Mathlib.Logic.Function.Basic

/-!
# The double-buffer queue

Producers append to one buffer under a mutex. The consumer takes from another buffer, which it has
for itself; when that one is empty, it takes the mutex and swaps the two. An atomic counter has the
size of both.

Each thread is a small program of its own, and its steps are what happens between two accesses that
others can see: taking the mutex, reading or writing an atomic variable. The threads are interleaved
in any order. The mutex is held from the step that takes it to the step that gives it back, so that
the counter is increased while the producer still has it, and `wait` gives it up.

A consumer that waits may wake up at any time: the standard allows it, and then it looks at the
condition again. So notifications need no place in the model. Whether a waiting consumer wakes up in
the end is another question.

## Main definitions

* `MpscDoubleBufferQueue` — the buffers, the counter, the mutex and the threads
* `MpscDoubleBufferQueue.step`, `MpscDoubleBufferQueue.run` — interleavings
* `MpscDoubleBufferQueue.Sound` — the invariant

## Main results

* `MpscDoubleBufferQueue.Sound.step` — each step keeps the invariant and is an operation of a queue
* `double_buffer_queue_is_fifo`
-/

namespace Gringofts

/-- Where a producer is in `enqueue`. -/
inductive MpscProducer (α : Type)
  | idle
  /-- It has seen that the queue is not shut down, and wants the mutex. -/
  | checked (t : α)
  /-- It has the mutex and has appended its element. -/
  | pushed

/-- Where the consumer is in `dequeue`. -/
inductive MpscConsumer
  | idle
  /-- Its buffer is empty, and it wants the mutex. -/
  | locking
  /-- It has the mutex and looks at the buffer of the producers. -/
  | locked
  /-- It has the mutex and tests the condition of `wait`. -/
  | testing
  /-- It waits. -/
  | blocked
  /-- It has the mutex and is through with `wait`. -/
  | woken
  /-- Its buffer is not empty. -/
  | taking
  /-- It has decreased the counter. -/
  | popping
  deriving DecidableEq

/-- The consumer has the mutex. -/
def MpscConsumer.Holds : MpscConsumer → Prop
  | locked | testing | woken => True
  | idle | locking | blocked | taking | popping => False

/-- The consumer has found its buffer empty. -/
def MpscConsumer.Starved : MpscConsumer → Prop
  | locking | locked | testing | blocked | woken => True
  | idle | taking | popping => False

/-- The consumer has an element to take. -/
def MpscConsumer.Served : MpscConsumer → Prop
  | taking | popping => True
  | idle | locking | locked | testing | blocked | woken => False

/-- `MpscDoubleBufferQueue`, with its threads. -/
structure MpscDoubleBufferQueue (ι α : Type) where
  producerQueue : List α
  consumerQueue : List α
  queueSize : ℕ
  shouldExit : Bool
  /-- Who has the mutex: a producer, or the consumer. -/
  mutex : Option (Option ι)
  producers : ι → MpscProducer α
  consumer : MpscConsumer

/-- What may happen next. -/
inductive MpscEvent (ι α : Type)
  /-- A producer calls `enqueue`. -/
  | enqueue (i : ι) (t : α)
  /-- A producer goes on. -/
  | produce (i : ι)
  /-- The consumer calls `dequeue`. -/
  | dequeue
  /-- The consumer goes on. -/
  | consume
  | empty
  | shutdown

/-- What is to be seen of a step. -/
inductive MpscOutput (α : Type)
  | silent
  /-- An element has been appended, under the mutex. -/
  | pushed (t : α)
  /-- `dequeue` returns. -/
  | returned (t : α)
  /-- `dequeue` throws `QueueStoppedException`. -/
  | stopped
  /-- `enqueue` throws `QueueStoppedException`. -/
  | rejected
  /-- `empty` returns. -/
  | isEmpty (b : Bool)

/-- What a step is for the queue. -/
def MpscOutput.op {α : Type} : MpscOutput α → FifoOp α
  | .pushed t => .push t
  | .returned t => .pop t
  | .silent | .stopped | .rejected | .isEmpty _ => .other

namespace MpscDoubleBufferQueue

variable {ι α : Type}

/-- The queue as it is constructed. -/
def initial : MpscDoubleBufferQueue ι α := ⟨[], [], 0, false, none, fun _ => .idle, .idle⟩

variable (s : MpscDoubleBufferQueue ι α)

/-- The consumer throws and gives the mutex back. -/
def stop : MpscDoubleBufferQueue ι α := { s with mutex := none, consumer := .idle }

/-- The consumer swaps the buffers and gives the mutex back. -/
def swap : MpscDoubleBufferQueue ι α :=
  { s with
    producerQueue := s.consumerQueue
    consumerQueue := s.producerQueue
    mutex := none
    consumer := .taking }

/-- The next step of the consumer, if it can go on. -/
def consume : Option (MpscDoubleBufferQueue ι α × MpscOutput α) :=
  match s.consumer with
  | .idle => none
  | .locking =>
    if s.mutex.isNone then some ({ s with mutex := some none, consumer := .locked }, .silent)
    else none
  | .locked =>
    if s.producerQueue.isEmpty then
      if s.shouldExit then some (s.stop, .stopped)
      else some ({ s with consumer := .testing }, .silent)
    else some (s.swap, .silent)
  | .testing =>
    if ¬ s.producerQueue.isEmpty ∨ s.shouldExit then
      some ({ s with consumer := .woken }, .silent)
    else some ({ s with mutex := none, consumer := .blocked }, .silent)
  | .blocked =>
    if s.mutex.isNone then some ({ s with mutex := some none, consumer := .testing }, .silent)
    else none
  | .woken =>
    if s.producerQueue.isEmpty then some (s.stop, .stopped)
    else some (s.swap, .silent)
  | .taking => some ({ s with queueSize := s.queueSize - 1, consumer := .popping }, .silent)
  | .popping =>
    match s.consumerQueue with
    -- the front of an empty list
    | [] => none
    | t :: rest => some ({ s with consumerQueue := rest, consumer := .idle }, .returned t)

variable [DecidableEq ι]

/-- The next step of a producer, if it can go on. -/
def produce (i : ι) : Option (MpscDoubleBufferQueue ι α × MpscOutput α) :=
  match s.producers i with
  | .idle => none
  | .checked t =>
    if s.mutex.isNone then
      some ({ s with
        producerQueue := s.producerQueue ++ [t]
        mutex := some (some i)
        producers := Function.update s.producers i .pushed }, .pushed t)
    else none
  | .pushed =>
    some ({ s with
      queueSize := s.queueSize + 1
      mutex := none
      producers := Function.update s.producers i .idle }, .silent)

/-- One step, if it is possible. A thread calls a function only when it is in none. -/
def step (e : MpscEvent ι α) : Option (MpscDoubleBufferQueue ι α × MpscOutput α) :=
  match e with
  | .enqueue i t =>
    match s.producers i with
    | .idle =>
      if s.shouldExit then some (s, .rejected)
      else some ({ s with producers := Function.update s.producers i (.checked t) }, .silent)
    | .checked _ => none
    | .pushed => none
  | .produce i => s.produce i
  | .dequeue =>
    match s.consumer with
    | .idle =>
      some ({ s with consumer := if s.consumerQueue.isEmpty then .locking else .taking }, .silent)
    | _ => none
  | .consume => s.consume
  | .empty => some (s, .isEmpty (s.queueSize = 0))
  | .shutdown => some ({ s with shouldExit := true }, .silent)

/-- Steps one after the other, with what is to be seen of them. -/
def run : List (MpscEvent ι α) → MpscDoubleBufferQueue ι α →
    Option (MpscDoubleBufferQueue ι α × List (MpscOutput α))
  | [], s => some (s, [])
  | e :: es, s => do
    let (s, o) ← s.step e
    let (s, os) ← run es s
    return (s, o :: os)

omit [DecidableEq ι]

/-- The elements, oldest first. -/
def contents : List α := s.consumerQueue ++ s.producerQueue

/-- No operation is in progress. -/
def Quiet : Prop := s.consumer = .idle ∧ ∀ i, s.producers i = .idle

/-- Elements that have been appended and are not counted yet. -/
def uncounted : ℕ :=
  match s.mutex with
  | some (some _) => 1
  | some none => 0
  | none => 0

/-- Elements that are not counted any more and have not been taken yet. -/
def discounted : ℕ :=
  match s.consumer with
  | .popping => 1
  | _ => 0

/-- What holds after every step. -/
structure Sound : Prop where
  /-- The producer that has appended its element has the mutex. -/
  producer : ∀ i, s.producers i = .pushed ↔ s.mutex = some (some i)
  consumer : s.consumer.Holds ↔ s.mutex = some none
  starved : s.consumer.Starved → s.consumerQueue = []
  served : s.consumer.Served → s.consumerQueue ≠ []
  /-- The consumer is through with `wait` when the condition holds. -/
  woken : s.consumer = .woken → s.producerQueue ≠ [] ∨ s.shouldExit = true
  /-- The element that is not counted yet is there. -/
  appended : 0 < s.uncounted → s.producerQueue ≠ []
  counted : s.queueSize + s.uncounted + s.discounted = s.contents.length

variable {s s' : MpscDoubleBufferQueue ι α} {o : MpscOutput α}

theorem sound_initial : (initial : MpscDoubleBufferQueue ι α).Sound where
  producer i := by simp [initial]
  consumer := by simp [initial, MpscConsumer.Holds]
  starved h := h.elim
  served h := h.elim
  woken h := nomatch h
  appended h := absurd h (by simp [initial, uncounted])
  counted := rfl

/-! ## Steps of the consumer -/

/-- Whether an element is not counted yet depends on whether a producer has the mutex. -/
theorem uncounted_congr (h : ∀ i, s'.mutex = some (some i) ↔ s.mutex = some (some i)) :
    s'.uncounted = s.uncounted := by
  rw [uncounted, uncounted]
  rcases hs : s.mutex with _ | _ | i
  · rcases hs' : s'.mutex with _ | _ | j
    · rfl
    · rfl
    · simpa [hs, hs'] using h j
  · rcases hs' : s'.mutex with _ | _ | j
    · rfl
    · rfl
    · simpa [hs, hs'] using h j
  · rw [(h i).mpr hs]

theorem uncounted_of_free (h : ∀ i, s.mutex ≠ some (some i)) : s.uncounted = 0 := by
  rw [uncounted]
  rcases hs : s.mutex with _ | _ | i
  · rfl
  · rfl
  · exact absurd hs (h i)

theorem discounted_of_ne (h : s.consumer ≠ .popping) : s.discounted = 0 := by
  rw [discounted]
  split
  · contradiction
  · rfl

theorem Sound.free (h : s.Sound) (hc : ¬ s.consumer.Holds) : s.mutex ≠ some none :=
  fun hmutex => hc (h.consumer.mpr hmutex)

/-- The consumer goes on, and takes the mutex or gives it back. -/
theorem Sound.move (h : s.Sound) {m : Option (Option ι)} {c : MpscConsumer}
    (hm : ∀ i, m = some (some i) ↔ s.mutex = some (some i)) (hholds : c.Holds ↔ m = some none)
    (hstarved : c.Starved → s.consumerQueue = []) (hserved : c.Served → s.consumerQueue ≠ [])
    (hwoken : c = .woken → s.producerQueue ≠ [] ∨ s.shouldExit = true)
    (hpopping : s.consumer ≠ .popping) (hpopping' : c ≠ .popping) :
    { s with mutex := m, consumer := c }.Sound := by
  have huncounted : { s with mutex := m, consumer := c }.uncounted = s.uncounted :=
    uncounted_congr hm
  constructor
  · intro i
    exact (h.producer i).trans (hm i).symm
  · exact hholds
  · exact hstarved
  · exact hserved
  · exact hwoken
  · rw [huncounted]
    exact h.appended
  · have hcounted := h.counted
    rw [discounted_of_ne hpopping] at hcounted
    rw [huncounted, discounted_of_ne hpopping']
    exact hcounted

/-- The consumer swaps the buffers. -/
theorem Sound.swap (h : s.Sound) (hholds : s.consumer.Holds) (hstarved : s.consumer.Starved)
    (hne : s.producerQueue ≠ []) : s.swap.Sound ∧ s.swap.contents = s.contents := by
  have hempty := h.starved hstarved
  have hmutex : s.mutex = some none := h.consumer.mp hholds
  have hcontents : s.swap.contents = s.contents := by
    simp [contents, MpscDoubleBufferQueue.swap, hempty]
  refine ⟨?_, hcontents⟩
  have hpopping : s.consumer ≠ .popping := by
    intro hc
    rw [hc] at hholds
    exact hholds
  constructor
  · intro i
    simp [MpscDoubleBufferQueue.swap, h.producer i, hmutex]
  · simp [MpscDoubleBufferQueue.swap, MpscConsumer.Holds]
  · exact fun hc => hc.elim
  · exact fun _ => hne
  · exact nofun
  · exact fun hc => absurd hc (Nat.lt_irrefl 0)
  · have hcounted := h.counted
    rw [discounted_of_ne hpopping, uncounted_of_free (by simp [hmutex])] at hcounted
    rw [hcontents]
    exact hcounted

/-- **What the consumer can do** when it goes on. -/
inductive Consumes (s : MpscDoubleBufferQueue ι α) :
    MpscDoubleBufferQueue ι α → MpscOutput α → Prop
  | lock (hc : s.consumer = .locking) (hfree : s.mutex = none) :
    s.Consumes { s with mutex := some none, consumer := .locked } .silent
  | relock (hc : s.consumer = .blocked) (hfree : s.mutex = none) :
    s.Consumes { s with mutex := some none, consumer := .testing } .silent
  | wait (hc : s.consumer = .locked) : s.Consumes { s with consumer := .testing } .silent
  | wake (hc : s.consumer = .testing) (hcond : s.producerQueue ≠ [] ∨ s.shouldExit = true) :
    s.Consumes { s with consumer := .woken } .silent
  | block (hc : s.consumer = .testing) :
    s.Consumes { s with mutex := none, consumer := .blocked } .silent
  | swap (hc : s.consumer = .locked ∨ s.consumer = .woken) (hne : s.producerQueue ≠ []) :
    s.Consumes s.swap .silent
  | stop (hc : s.consumer = .locked ∧ s.shouldExit = true ∨ s.consumer = .woken)
    (hempty : s.producerQueue = []) : s.Consumes s.stop .stopped
  | discount (hc : s.consumer = .taking) :
    s.Consumes { s with queueSize := s.queueSize - 1, consumer := .popping } .silent
  | pop (t : α) (rest : List α) (hc : s.consumer = .popping) (hq : s.consumerQueue = t :: rest) :
    s.Consumes { s with consumerQueue := rest, consumer := .idle } (.returned t)

theorem consumes_of_consume (hstep : s.consume = some (s', o)) : s.Consumes s' o := by
  rw [MpscDoubleBufferQueue.consume] at hstep
  cases hc : s.consumer with
  | idle =>
    rw [hc] at hstep
    cases hstep
  | locking =>
    simp only [hc] at hstep
    split at hstep
    · next hfree =>
      cases hstep
      exact .lock hc (Option.isNone_iff_eq_none.mp hfree)
    · cases hstep
  | locked =>
    simp only [hc] at hstep
    split at hstep
    · next hempty =>
      split at hstep
      · next hexit =>
        cases hstep
        exact .stop (Or.inl ⟨hc, hexit⟩) (List.isEmpty_iff.mp hempty)
      · cases hstep
        exact .wait hc
    · next hne =>
      cases hstep
      exact .swap (Or.inl hc) (by simpa using hne)
  | testing =>
    simp only [hc] at hstep
    split at hstep
    · next hcond =>
      cases hstep
      exact .wake hc (by simpa using hcond)
    · cases hstep
      exact .block hc
  | blocked =>
    simp only [hc] at hstep
    split at hstep
    · next hfree =>
      cases hstep
      exact .relock hc (Option.isNone_iff_eq_none.mp hfree)
    · cases hstep
  | woken =>
    simp only [hc] at hstep
    split at hstep
    · next hempty =>
      cases hstep
      exact .stop (Or.inr hc) (List.isEmpty_iff.mp hempty)
    · next hne =>
      cases hstep
      exact .swap (Or.inr hc) (by simpa using hne)
  | taking =>
    simp only [hc] at hstep
    cases hstep
    exact .discount hc
  | popping =>
    simp only [hc] at hstep
    cases hq : s.consumerQueue with
    | nil =>
      rw [hq] at hstep
      cases hstep
    | cons t rest =>
      rw [hq] at hstep
      cases hstep
      exact .pop t rest hc hq

/-- The consumer takes an element off the counter. There is one: an element that is not counted yet
is with the producers. -/
theorem Sound.discount (h : s.Sound) (hc : s.consumer = .taking) :
    { s with queueSize := s.queueSize - 1, consumer := .popping }.Sound := by
  have hserved : s.consumerQueue ≠ [] := h.served (hc ▸ trivial)
  constructor
  · exact h.producer
  · exact iff_of_false id (h.free (hc ▸ id))
  · exact fun hstarved => hstarved.elim
  · exact fun _ => hserved
  · exact nofun
  · exact h.appended
  · have hcounted := h.counted
    have hpos := List.length_pos_iff.mpr hserved
    have huncounted : s.uncounted ≤ s.producerQueue.length := by
      by_cases hu : 0 < s.uncounted
      · have hle : s.uncounted ≤ 1 := by
          rw [uncounted]
          split <;> omega
        have happended := List.length_pos_iff.mpr (h.appended hu)
        omega
      · omega
    have hdiscounted : s.discounted = 0 := discounted_of_ne (by simp [hc])
    change s.queueSize - 1 + s.uncounted + 1 = s.contents.length
    rw [contents, List.length_append] at hcounted ⊢
    omega

/-- The consumer takes an element. -/
theorem Sound.pop (h : s.Sound) {t : α} {rest : List α} (hc : s.consumer = .popping)
    (hcontents : s.contents = t :: (rest ++ s.producerQueue)) :
    { s with consumerQueue := rest, consumer := .idle }.Sound := by
  constructor
  · exact h.producer
  · exact iff_of_false id (h.free (hc ▸ id))
  · exact fun hstarved => hstarved.elim
  · exact fun hserved => hserved.elim
  · exact nofun
  · exact h.appended
  · have hcounted := h.counted
    have hdiscounted : s.discounted = 1 := by rw [discounted, hc]
    rw [hdiscounted, hcontents, List.length_cons] at hcounted
    exact Nat.succ.inj hcounted

theorem Sound.consume (h : s.Sound) (hstep : s.consume = some (s', o)) :
    s'.Sound ∧ o.op.Moves s.contents s'.contents := by
  cases consumes_of_consume hstep with
  | lock hc hfree =>
    exact ⟨h.move (by simp [hfree]) (by simp [MpscConsumer.Holds])
      (fun _ => h.starved (hc ▸ trivial)) nofun nofun (by simp [hc]) nofun, rfl⟩
  | relock hc hfree =>
    exact ⟨h.move (by simp [hfree]) (by simp [MpscConsumer.Holds])
      (fun _ => h.starved (hc ▸ trivial)) nofun nofun (by simp [hc]) nofun, rfl⟩
  | wait hc =>
    have hmutex : s.mutex = some none := h.consumer.mp (hc ▸ trivial)
    exact ⟨h.move (by simp) (by simp [MpscConsumer.Holds, hmutex])
      (fun _ => h.starved (hc ▸ trivial)) nofun nofun (by simp [hc]) nofun, rfl⟩
  | wake hc hcond =>
    have hmutex : s.mutex = some none := h.consumer.mp (hc ▸ trivial)
    exact ⟨h.move (by simp) (by simp [MpscConsumer.Holds, hmutex])
      (fun _ => h.starved (hc ▸ trivial)) nofun (fun _ => hcond) (by simp [hc]) nofun, rfl⟩
  | block hc =>
    have hmutex : s.mutex = some none := h.consumer.mp (hc ▸ trivial)
    exact ⟨h.move (by simp [hmutex]) (by simp [MpscConsumer.Holds])
      (fun _ => h.starved (hc ▸ trivial)) nofun nofun (by simp [hc]) nofun, rfl⟩
  | swap hc hne =>
    rcases hc with hc | hc
    · exact h.swap (hc ▸ trivial) (hc ▸ trivial) hne
    · exact h.swap (hc ▸ trivial) (hc ▸ trivial) hne
  | stop hc hempty =>
    have hholds : s.consumer.Holds := by
      rcases hc with ⟨hc, -⟩ | hc
      · exact hc ▸ trivial
      · exact hc ▸ trivial
    have hmutex : s.mutex = some none := h.consumer.mp hholds
    have hpopping : s.consumer ≠ .popping := by
      intro hc'
      rw [hc'] at hholds
      exact hholds
    exact ⟨h.move (by simp [hmutex]) (by simp [MpscConsumer.Holds]) nofun nofun nofun hpopping
      nofun, rfl⟩
  | discount hc => exact ⟨h.discount hc, rfl⟩
  | pop t rest hc hq =>
    have hcontents : s.contents = t :: (rest ++ s.producerQueue) := by
      rw [contents, hq, List.cons_append]
    exact ⟨h.pop hc hcontents, hcontents⟩

/-! ## Steps of the producers -/

variable [DecidableEq ι]

/-- One producer goes on, and the mutex is as it should be. -/
theorem producer_update {f : ι → MpscProducer α} {m : Option (Option ι)} {i : ι}
    {p : MpscProducer α} (hi : p = .pushed ↔ m = some (some i))
    (hne : ∀ j, j ≠ i → (f j = .pushed ↔ m = some (some j))) (j : ι) :
    Function.update f i p j = .pushed ↔ m = some (some j) := by
  by_cases hj : j = i
  · subst hj
    rw [Function.update_self]
    exact hi
  · rw [Function.update_of_ne hj]
    exact hne j hj

theorem Sound.produce (h : s.Sound) {i : ι} (hstep : s.produce i = some (s', o)) :
    s'.Sound ∧ o.op.Moves s.contents s'.contents := by
  rw [MpscDoubleBufferQueue.produce] at hstep
  cases hi : s.producers i with
  | idle =>
    rw [hi] at hstep
    cases hstep
  | checked t =>
    simp only [hi] at hstep
    split at hstep
    · next hfree =>
      have hmutex : s.mutex = none := Option.isNone_iff_eq_none.mp hfree
      cases hstep
      refine ⟨?_, (List.append_assoc _ _ _).symm⟩
      constructor
      · refine producer_update (iff_of_true rfl rfl) fun j hj => iff_of_false ?_ ?_
        · rw [h.producer j, hmutex]
          nofun
        · exact fun heq => hj (Option.some.inj (Option.some.inj heq)).symm
      · refine iff_of_false (fun hholds => ?_) nofun
        rw [h.consumer, hmutex] at hholds
        cases hholds
      · exact h.starved
      · exact h.served
      · exact fun _ => Or.inl (List.append_ne_nil_of_right_ne_nil _ (List.cons_ne_nil t []))
      · exact fun _ => List.append_ne_nil_of_right_ne_nil _ (List.cons_ne_nil t [])
      · have hcounted := h.counted
        rw [uncounted_of_free (by simp [hmutex])] at hcounted
        change s.queueSize + 1 + s.discounted =
          (s.consumerQueue ++ (s.producerQueue ++ [t])).length
        rw [contents] at hcounted
        rw [← List.append_assoc, List.length_append, List.length_singleton, ← hcounted]
        omega
    · cases hstep
  | pushed =>
    simp only [hi] at hstep
    cases hstep
    have hmutex : s.mutex = some (some i) := (h.producer i).mp hi
    refine ⟨?_, rfl⟩
    constructor
    · refine producer_update (iff_of_false nofun nofun) fun j hj => iff_of_false ?_ nofun
      rw [h.producer j, hmutex]
      exact fun heq => hj (Option.some.inj (Option.some.inj heq)).symm
    · refine iff_of_false (fun hholds => ?_) nofun
      rw [h.consumer, hmutex] at hholds
      cases hholds
    · exact h.starved
    · exact h.served
    · exact h.woken
    · exact fun hc => absurd hc (Nat.lt_irrefl 0)
    · have hcounted := h.counted
      have huncounted : s.uncounted = 1 := by rw [uncounted, hmutex]
      rw [huncounted] at hcounted
      exact hcounted

/-! ## Runs -/

/-- **Each step keeps the invariant and is an operation of a queue.** -/
theorem Sound.step (h : s.Sound) {e : MpscEvent ι α} (hstep : s.step e = some (s', o)) :
    s'.Sound ∧ o.op.Moves s.contents s'.contents := by
  cases e with
  | enqueue i t =>
    simp only [MpscDoubleBufferQueue.step] at hstep
    cases hi : s.producers i with
    | idle =>
      have hmutex : s.mutex ≠ some (some i) := fun hmutex => by
        rw [(h.producer i).mpr hmutex] at hi
        cases hi
      simp only [hi] at hstep
      split at hstep
      · cases hstep
        exact ⟨h, rfl⟩
      · cases hstep
        refine ⟨⟨?_, h.consumer, h.starved, h.served, h.woken, h.appended, h.counted⟩, rfl⟩
        exact producer_update (iff_of_false nofun hmutex) fun j _ => h.producer j
    | checked u =>
      rw [hi] at hstep
      cases hstep
    | pushed =>
      rw [hi] at hstep
      cases hstep
  | produce i => exact h.produce hstep
  | dequeue =>
    simp only [MpscDoubleBufferQueue.step] at hstep
    cases hc : s.consumer with
    | idle =>
      simp only [hc] at hstep
      cases hstep
      have hfree : s.mutex ≠ some none := h.free (hc ▸ id)
      have hsound : ∀ c : MpscConsumer, ¬ c.Holds → c ≠ .popping →
          (c.Starved → s.consumerQueue = []) → (c.Served → s.consumerQueue ≠ []) →
          c ≠ .woken → { s with consumer := c }.Sound :=
        fun c hholds hpopping hstarved hserved hwoken =>
        h.move (fun i => Iff.rfl) (iff_of_false hholds hfree) hstarved hserved
          (fun hc' => absurd hc' hwoken) (by simp [hc]) hpopping
      refine ⟨?_, rfl⟩
      by_cases hempty : s.consumerQueue.isEmpty
      · rw [if_pos hempty]
        exact hsound .locking id nofun (fun _ => List.isEmpty_iff.mp hempty) nofun nofun
      · rw [if_neg hempty]
        exact hsound .taking id nofun nofun (fun _ => by simpa using hempty) nofun
    | _ =>
      rw [hc] at hstep
      cases hstep
  | consume => exact h.consume hstep
  | empty =>
    cases hstep
    exact ⟨h, rfl⟩
  | shutdown =>
    cases hstep
    exact ⟨⟨h.producer, h.consumer, h.starved, h.served, fun _ => Or.inr rfl, h.appended,
      h.counted⟩, rfl⟩

/-- **A run keeps the invariant and is a run of a queue.** -/
theorem Sound.run (h : s.Sound) {es : List (MpscEvent ι α)} {os : List (MpscOutput α)}
    (hrun : run es s = some (s', os)) :
    s'.Sound ∧ FifoOp.Run (os.map MpscOutput.op) s.contents s'.contents := by
  induction es generalizing s os with
  | nil =>
    cases hrun
    exact ⟨h, FifoOp.Run.nil _⟩
  | cons e es ih =>
    obtain ⟨⟨t, o⟩, hstep, hrun⟩ := Option.bind_eq_some_iff.mp hrun
    obtain ⟨⟨u, os'⟩, hrest, hrun⟩ := Option.bind_eq_some_iff.mp hrun
    cases hrun
    obtain ⟨hsound, hmoves⟩ := h.step hstep
    obtain ⟨hsound', hruns⟩ := ih hsound hrest
    exact ⟨hsound', FifoOp.Run.cons hmoves hruns⟩

/-- Only `shutdown` sets the flag, and nothing clears it. -/
theorem shouldExit_step {e : MpscEvent ι α} (hstep : s.step e = some (s', o))
    (h : s'.shouldExit = true) : s.shouldExit = true ∨ e = .shutdown := by
  cases e with
  | enqueue i t =>
    left
    simp only [MpscDoubleBufferQueue.step] at hstep
    split at hstep
    · split at hstep <;> cases hstep <;> exact h
    · cases hstep
    · cases hstep
  | produce i =>
    left
    simp only [MpscDoubleBufferQueue.step, MpscDoubleBufferQueue.produce] at hstep
    split at hstep
    · cases hstep
    · split at hstep <;> cases hstep
      exact h
    · cases hstep
      exact h
  | dequeue =>
    left
    simp only [MpscDoubleBufferQueue.step] at hstep
    split at hstep <;> cases hstep
    exact h
  | consume =>
    left
    cases consumes_of_consume hstep <;> exact h
  | empty =>
    cases hstep
    exact Or.inl h
  | shutdown => exact Or.inr rfl

/-- The flag is set after `shutdown` has been called only. -/
theorem shutdown_mem_of_run {es : List (MpscEvent ι α)} {os : List (MpscOutput α)}
    (hrun : run es s = some (s', os)) (h : s'.shouldExit = true) :
    s.shouldExit = true ∨ .shutdown ∈ es := by
  induction es generalizing s os with
  | nil =>
    cases hrun
    exact Or.inl h
  | cons e es ih =>
    obtain ⟨⟨t, o⟩, hstep, hrun⟩ := Option.bind_eq_some_iff.mp hrun
    obtain ⟨⟨u, os'⟩, hrest, hrun⟩ := Option.bind_eq_some_iff.mp hrun
    cases hrun
    rcases ih hrest with ht | hmem
    · rcases shouldExit_step hstep ht with hs | rfl
      · exact Or.inl hs
      · exact Or.inr List.mem_cons_self
    · exact Or.inr (List.mem_cons_of_mem e hmem)

/-- **`dequeue` throws** only if the queue is shut down and has no element. -/
theorem Sound.stopped (h : s.Sound) {e : MpscEvent ι α} (hstep : s.step e = some (s', .stopped)) :
    s.shouldExit = true ∧ s.producerQueue = [] ∧ s.consumerQueue = [] := by
  cases e with
  | enqueue i t =>
    simp only [MpscDoubleBufferQueue.step] at hstep
    split at hstep
    · split at hstep <;> cases hstep
    · cases hstep
    · cases hstep
  | produce i =>
    simp only [MpscDoubleBufferQueue.step, MpscDoubleBufferQueue.produce] at hstep
    split at hstep
    · cases hstep
    · split at hstep <;> cases hstep
    · cases hstep
  | dequeue =>
    simp only [MpscDoubleBufferQueue.step] at hstep
    split at hstep <;> cases hstep
  | empty => cases hstep
  | shutdown => cases hstep
  | consume =>
    cases consumes_of_consume hstep with
    | stop hc hempty =>
      rcases hc with ⟨hc, hexit⟩ | hc
      · exact ⟨hexit, hempty, h.starved (hc ▸ trivial)⟩
      · exact ⟨(h.woken hc).resolve_left fun hne => hne hempty, hempty, h.starved (hc ▸ trivial)⟩

/-- The consumer that is about to take an element finds one. -/
theorem Sound.returns (h : s.Sound) (hc : s.consumer = .popping) :
    ∃ s' t, s.step (.consume : MpscEvent ι α) = some (s', .returned t) := by
  obtain ⟨t, rest, hq⟩ := List.exists_cons_of_ne_nil (h.served (hc ▸ trivial))
  simp only [MpscDoubleBufferQueue.step, MpscDoubleBufferQueue.consume, hc, hq]
  exact ⟨_, t, rfl⟩

omit [DecidableEq ι] in
/-- When no operation is in progress, the counter is right. -/
theorem Sound.queueSize_of_quiet (h : s.Sound) (hquiet : s.Quiet) :
    s.queueSize = s.consumerQueue.length + s.producerQueue.length := by
  have hcounted := h.counted
  have hfree : ∀ i, s.mutex ≠ some (some i) := fun i hmutex => by
    have hpushed := (h.producer i).mpr hmutex
    rw [hquiet.2 i] at hpushed
    cases hpushed
  rw [uncounted_of_free hfree, discounted_of_ne (by simp [hquiet.1]), contents,
    List.length_append] at hcounted
  exact hcounted

end MpscDoubleBufferQueue

open MpscDoubleBufferQueue in
/-- **The double-buffer queue is a FIFO queue.** After any interleaving of any producers with the
consumer: the elements that were appended, in the order in which the producers had the mutex, are
those that have been returned, in order, followed by those in the buffers; what is returned next is
the oldest that is left, and there is one when the consumer takes it; the counter is right when no
operation is in progress; and `dequeue` throws only after `shutdown` was called, with both buffers
empty. -/
theorem double_buffer_queue_is_fifo {ι α : Type} [DecidableEq ι] {es : List (MpscEvent ι α)}
    {s : MpscDoubleBufferQueue ι α} {os : List (MpscOutput α)}
    (h : run es initial = some (s, os)) :
    FifoOp.pushes (os.map MpscOutput.op) =
        FifoOp.pops (os.map MpscOutput.op) ++ s.consumerQueue ++ s.producerQueue ∧
      (∀ e s' t, s.step e = some (s', .returned t) →
        (FifoOp.pushes (os.map MpscOutput.op))[(FifoOp.pops (os.map MpscOutput.op)).length]? =
          some t) ∧
      (s.consumer = .popping → ∃ s' t, s.step .consume = some (s', .returned t)) ∧
      (s.Quiet → s.queueSize = s.consumerQueue.length + s.producerQueue.length) ∧
      (∀ e s', s.step e = some (s', .stopped) →
        .shutdown ∈ es ∧ s.producerQueue = [] ∧ s.consumerQueue = []) := by
  obtain ⟨hsound, hrun⟩ := sound_initial.run h
  refine ⟨?_, fun e s' t hstep => ?_, hsound.returns, hsound.queueSize_of_quiet,
    fun e s' hstep => ?_⟩
  · have hall := hrun.conserves
    rw [List.append_assoc]
    exact hall
  · exact hrun.oldest (hsound.step hstep).2
  · obtain ⟨hexit, hempty⟩ := hsound.stopped hstep
    exact ⟨(shutdown_mem_of_run h hexit).resolve_left nofun, hempty⟩

namespace Scenario

/-- Two producers append an element each, in the order `2`, `1`, though the first one has called
`enqueue` before. The consumer takes one, the queue is shut down, and the consumer takes the other
one and calls `dequeue` again. -/
def twoProducers : List (MpscEvent Bool ℕ) :=
  [.enqueue false 1, .enqueue true 2, .produce true, .produce true, .produce false,
    .dequeue, .produce false, .consume, .consume, .consume, .consume, .shutdown, .dequeue, .consume,
    .consume, .dequeue, .consume]

end Scenario

theorem double_buffer_queue_is_fifo_twoProducers :
    ∃ s os, MpscDoubleBufferQueue.run Scenario.twoProducers .initial = some (s, os) ∧
      FifoOp.pops (os.map MpscOutput.op) = [2, 1] ∧
      FifoOp.pushes (os.map MpscOutput.op) =
        FifoOp.pops (os.map MpscOutput.op) ++ s.consumerQueue ++ s.producerQueue ∧
      (∃ s', s.step .consume = some (s', .stopped)) ∧
      ∀ e s', s.step e = some (s', .stopped) →
        .shutdown ∈ Scenario.twoProducers ∧ s.producerQueue = [] ∧ s.consumerQueue = [] := by
  obtain ⟨s, os, hrun, hpops, hstep⟩ : ∃ s os,
      MpscDoubleBufferQueue.run Scenario.twoProducers .initial = some (s, os) ∧
      FifoOp.pops (os.map MpscOutput.op) = [2, 1] ∧
      ∃ s', s.step .consume = some (s', .stopped) := ⟨_, _, rfl, rfl, _, rfl⟩
  obtain ⟨hall, -, -, -, hstopped⟩ := double_buffer_queue_is_fifo hrun
  exact ⟨s, os, hrun, hpops, hall, hstep, hstopped⟩

end Gringofts
