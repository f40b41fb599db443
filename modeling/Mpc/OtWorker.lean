import Mpc.Lib.Trace
import Mathlib.Data.List.Basic

/- The task queue of an `OTManager` and its worker thread (ot_manager.hpp). The sections
   under the mutex, of `enqueue`, of `run` and of the destructor, are single steps;
   between them the worker sleeps on the condition variable, which may also wake it for
   nothing, or executes the task it took.

   `worker_runs_tasks` says that the executed tasks are always the first of the enqueued
   ones, and all of them once the worker has returned; `destructor_joins` that after the
   destructor's section every schedule leads there. -/
namespace Mpc.OTManager
open Trace

/-- Where the worker thread is in `run`. -/
inductive WorkerAt (τ : Type) where
  /-- About to take the mutex. -/
  | awake
  /-- In `cv_.wait`, the mutex released. -/
  | asleep
  | executing (task : τ)
  | returned

/-- The members that the sections read and write, and the worker's position. -/
structure Manager (τ : Type) where
  tasks : List τ
  running : Bool
  worker : WorkerAt τ

section
variable {τ : Type}

/-- The constructor starts the worker. -/
def init : Manager τ := ⟨[], true, .awake⟩

/-- `cv_.notify_one()`: a sleeping worker wakes up. -/
def notifyOne (m : Manager τ) : Manager τ :=
  match m.worker with
  | .asleep => { m with worker := .awake }
  | _ => m

def enqueue (m : Manager τ) (task : τ) : Manager τ :=
  notifyOne { m with tasks := m.tasks ++ [task] }

/-- The destructor's section. The destructor then joins the worker. -/
def shutdown (m : Manager τ) : Manager τ :=
  notifyOne { m with running := false }

/-- One pass of `run` under the mutex: the wait sleeps again unless its predicate holds,
    then the worker returns or takes the front task. -/
def runSection (m : Manager τ) : Manager τ :=
  if !m.running || !m.tasks.isEmpty then
    match m.running, m.tasks with
    | false, [] => { m with worker := .returned }
    | _, task :: tasks => { m with tasks := tasks, worker := .executing task }
    | true, [] => m
  else { m with worker := .asleep }

inductive Event (τ : Type) where
  | enqueue (task : τ)
  | shutdown
  | wake
  | runSection
  | execute (task : τ)

/-- One step. The owner enqueues tasks while the object lives and destroys it once. -/
inductive Step : Manager τ → Event τ → Manager τ → Prop
  | enqueue (m : Manager τ) (task : τ) (hlive : m.running = true) :
    Step m (.enqueue task) (enqueue m task)
  | shutdown (m : Manager τ) (hlive : m.running = true) : Step m .shutdown (shutdown m)
  | wake (m : Manager τ) (hw : m.worker = .asleep) : Step m .wake { m with worker := .awake }
  | runSection (m : Manager τ) (hw : m.worker = .awake) : Step m .runSection (runSection m)
  | execute (m : Manager τ) (task : τ) (hw : m.worker = .executing task) :
    Step m (.execute task) { m with worker := .awake }

/-- The tasks a run enqueued, in order. -/
def enqueued (es : List (Event τ)) : List τ :=
  es.filterMap fun e => match e with
    | .enqueue task => some task
    | _ => none

/-- The tasks a run executed, in order. -/
def executed (es : List (Event τ)) : List τ :=
  es.filterMap fun e => match e with
    | .execute task => some task
    | _ => none

theorem enqueued_concat (es : List (Event τ)) (e : Event τ) :
    enqueued (es ++ [e]) = enqueued es ++ enqueued [e] := List.filterMap_append

theorem executed_concat (es : List (Event τ)) (e : Event τ) :
    executed (es ++ [e]) = executed es ++ executed [e] := List.filterMap_append

/-- The task the worker has taken and not finished. -/
def WorkerAt.current : WorkerAt τ → List τ
  | .executing task => [task]
  | _ => []

/-- What holds along every run: no task is lost or reordered, a sleeping worker has
    nothing to do, and a worker that returned left nothing. -/
structure Inv (es : List (Event τ)) (m : Manager τ) : Prop where
  split : executed es ++ m.worker.current ++ m.tasks = enqueued es
  sleeps : m.worker = .asleep → m.running = true ∧ m.tasks = []
  ends : m.worker = .returned → m.running = false ∧ m.tasks = []

/-! A notification changes at most a sleeping worker's position. -/

@[simp] theorem notifyOne_tasks (m : Manager τ) : (notifyOne m).tasks = m.tasks := by
  unfold notifyOne
  split <;> rfl

@[simp] theorem notifyOne_running (m : Manager τ) : (notifyOne m).running = m.running := by
  unfold notifyOne
  split <;> rfl

@[simp] theorem notifyOne_current (m : Manager τ) :
    (notifyOne m).worker.current = m.worker.current := by
  unfold notifyOne
  split
  · next h => simp [WorkerAt.current, h]
  · rfl

theorem notifyOne_not_asleep (m : Manager τ) : (notifyOne m).worker ≠ .asleep := by
  unfold notifyOne
  split
  · exact nofun
  · next h => exact h

theorem notifyOne_returned {m : Manager τ} (h : (notifyOne m).worker = .returned) :
    m.worker = .returned := by
  unfold notifyOne at h
  split at h
  · exact nomatch h
  · exact h

/-- What a pass of `run` under the mutex does. -/
theorem runSection_cases (m : Manager τ) :
    (m.running = true ∧ m.tasks = [] ∧ runSection m = { m with worker := .asleep }) ∨
    (m.running = false ∧ m.tasks = [] ∧ runSection m = { m with worker := .returned }) ∨
    ∃ task tasks, m.tasks = task :: tasks ∧
      runSection m = { m with tasks := tasks, worker := .executing task } := by
  obtain ⟨tasks, running, worker⟩ := m
  cases tasks with
  | nil =>
    cases running with
    | true => exact .inl ⟨rfl, rfl, rfl⟩
    | false => exact .inr (.inl ⟨rfl, rfl, rfl⟩)
  | cons task tasks => cases running <;> exact .inr (.inr ⟨task, tasks, rfl, rfl⟩)

theorem inv_init : Inv (τ := τ) [] init where
  split := rfl
  sleeps := nofun
  ends := nofun

theorem Inv.step {es : List (Event τ)} {m m' : Manager τ} {e : Event τ} (hi : Inv es m)
    (h : Step m e m') : Inv (es ++ [e]) m' := by
  obtain ⟨hsplit, hsleeps, hends⟩ := hi
  cases h with
  | enqueue task hlive =>
    refine ⟨?_, fun h => absurd h (notifyOne_not_asleep _), fun h => ?_⟩
    · rw [executed_concat, enqueued_concat, ← hsplit]
      simp [executed, enqueued, OTManager.enqueue]
    · have hw := notifyOne_returned (m := { m with tasks := m.tasks ++ [task] }) h
      rw [(hends hw).1] at hlive
      exact nomatch hlive
  | shutdown hlive =>
    refine ⟨?_, fun h => absurd h (notifyOne_not_asleep _), fun h => ?_⟩
    · rw [executed_concat, enqueued_concat, ← hsplit]
      simp [executed, enqueued, OTManager.shutdown]
    · have hw := notifyOne_returned (m := { m with running := false }) h
      rw [(hends hw).1] at hlive
      exact nomatch hlive
  | wake hw =>
    refine ⟨?_, nofun, nofun⟩
    rw [executed_concat, enqueued_concat, ← hsplit]
    simp [executed, enqueued, WorkerAt.current, hw]
  | runSection hw =>
    have hes : executed (es ++ [.runSection]) ++ m.tasks = enqueued (es ++ [.runSection]) := by
      rw [executed_concat, enqueued_concat, ← hsplit]
      simp [executed, enqueued, WorkerAt.current, hw]
    rcases runSection_cases m with ⟨hr, ht, hm⟩ | ⟨hr, ht, hm⟩ | ⟨task, tasks, ht, hm⟩
    · rw [hm]
      exact ⟨by simpa [WorkerAt.current] using hes, fun _ => ⟨hr, ht⟩, nofun⟩
    · rw [hm]
      exact ⟨by simpa [WorkerAt.current] using hes, nofun, fun _ => ⟨hr, ht⟩⟩
    · rw [hm]
      refine ⟨?_, nofun, nofun⟩
      rw [ht] at hes
      simpa [WorkerAt.current] using hes
  | execute task hw =>
    refine ⟨?_, nofun, nofun⟩
    rw [executed_concat, enqueued_concat, ← hsplit]
    simp [executed, enqueued, WorkerAt.current, hw]

theorem inv_of_run {es : List (Event τ)} {m : Manager τ} (h : Run Step init es m) : Inv es m :=
  h.inv inv_init fun _ _ _ _ hi hstep => hi.step hstep

/-- A worker that returned has executed everything. -/
theorem Inv.executed_all {es : List (Event τ)} {m : Manager τ} (hi : Inv es m)
    (hw : m.worker = .returned) : executed es = enqueued es := by
  rw [← hi.split, (hi.ends hw).2]
  simp [WorkerAt.current, hw]

/-- The worker runs every task once and in order, also across shutdown: in every run the
    executed tasks are the first of the enqueued ones, none of them twice, and the
    worker returns only when all of them have been executed. -/
theorem worker_runs_tasks {es : List (Event τ)} {m : Manager τ} (h : Run Step init es m) :
    executed es <+: enqueued es ∧ ((enqueued es).Nodup → (executed es).Nodup) ∧
      (m.worker = .returned → executed es = enqueued es) := by
  have hi := inv_of_run h
  have hpre : executed es <+: enqueued es :=
    ⟨m.worker.current ++ m.tasks, by rw [← hi.split, List.append_assoc]⟩
  exact ⟨hpre, fun hnd => hnd.sublist hpre.sublist, hi.executed_all⟩

/-- Two tasks, the second enqueued while the first executes, the destructor before the worker
    is back: it executes both and returns. -/
theorem worker_runs_two_tasks :
    let es : List (Event Nat) := [.runSection, .wake, .runSection, .enqueue 7, .runSection, .enqueue 8,
      .shutdown, .execute 7, .runSection, .execute 8, .runSection]
    Run Step init es ⟨[], false, .returned⟩ ∧ executed es = [7, 8] ∧ executed es = enqueued es := by
  intro es
  have hasleep : Run Step init _ _ := Run.single (.runSection (init (τ := Nat)) rfl)
  have hfirst := ((hasleep.tail (.wake _ rfl)).tail (.runSection _ rfl)).tail (.enqueue _ 7 rfl)
  have hstop := ((hfirst.tail (.runSection _ rfl)).tail (.enqueue _ 8 rfl)).tail (.shutdown _ rfl)
  have hsecond := (hstop.tail (.execute _ 7 rfl)).tail (.runSection _ rfl)
  have hrun := (hsecond.tail (.execute _ 8 rfl)).tail (.runSection _ rfl)
  exact ⟨hrun, rfl, (worker_runs_tasks hrun).2.2 rfl⟩

/-! After the destructor's section. -/

/-- The steps the worker still takes. -/
def work (m : Manager τ) : Nat :=
  2 * m.tasks.length + match m.worker with
    | .returned => 0
    | .awake => 1
    | .asleep => 2
    | .executing _ => 2

/-- The object is being destroyed and the worker cannot sleep again. -/
def Stopping (m : Manager τ) : Prop := m.running = false ∧ m.worker ≠ .asleep

theorem Stopping.step {m m' : Manager τ} {e : Event τ} (hm : Stopping m) (h : Step m e m') :
    Stopping m' ∧ work m' + 1 = work m := by
  obtain ⟨hr, hw'⟩ := hm
  cases h with
  | enqueue _ hlive => exact absurd (hlive.symm.trans hr) nofun
  | shutdown hlive => exact absurd (hlive.symm.trans hr) nofun
  | wake hw => exact absurd hw hw'
  | execute task hw => exact ⟨⟨hr, nofun⟩, by simp only [work, hw]⟩
  | runSection hw =>
    rcases runSection_cases m with ⟨hr', -, -⟩ | ⟨-, ht, hm⟩ | ⟨task, tasks, ht, hm⟩
    · exact absurd (hr'.symm.trans hr) nofun
    · rw [hm]
      exact ⟨⟨hr, nofun⟩, by simp only [work, hw]⟩
    · rw [hm]
      refine ⟨⟨hr, nofun⟩, ?_⟩
      simp only [work, hw, ht, List.length_cons]
      omega

/-- After the destructor's section every schedule of the worker is finite, and where it can
    go no further the worker has returned with every task executed. -/
theorem destructor_joins {es fs : List (Event τ)} {m m' : Manager τ} (h : Run Step init es m)
    (hstop : m.running = false) (h' : Run Step m fs m') :
    fs.length + work m' = work m ∧
      ((∀ e m'', ¬ Step m' e m'') →
        m'.worker = .returned ∧ executed (es ++ fs) = enqueued (es ++ fs)) := by
  have hm : Stopping m := by
    refine ⟨hstop, fun hw => ?_⟩
    rw [((inv_of_run h).sleeps hw).1] at hstop
    exact nomatch hstop
  obtain ⟨hm', hlen⟩ := h'.length_add (fun _ _ _ hs ht => (hs.step ht).1)
    (fun _ _ _ hs ht => (hs.step ht).2) hm
  refine ⟨hlen, fun hstuck => ?_⟩
  have hreturned : m'.worker = .returned := by
    cases hw : m'.worker with
    | awake => exact absurd (.runSection m' hw) (hstuck _ _)
    | asleep => exact absurd hw hm'.2
    | executing task => exact absurd (.execute m' task hw) (hstuck _ _)
    | returned => rfl
  exact ⟨hreturned, (inv_of_run (h.trans h')).executed_all hreturned⟩

end
end Mpc.OTManager
