import Mathlib.Algebra.BigOperators.Group.List.Basic
import Mathlib.Algebra.GroupWithZero.Nat
import Mathlib.Data.List.Perm.Basic
import Mathlib.Tactic.Common

/-!
# The thread pool

`ThreadPool` of `server.cc` and of `fe_server.cc`: workers that share a queue of tasks,
a mutex and a condition variable. What a thread does while it holds the mutex is one
step. `notify_one` comes after the mutex has been given back, so it is a step of its
own; it wakes some worker that waits, if there is one, and a worker may wake up for no
reason.

The pool of the storage node takes no task once the destructor has begun. That of the
front end does.
-/

namespace NCloud.Server.ThreadPool

variable {τ : Type}

/-- Where a worker is. -/
inductive Worker (τ : Type) where
  /-- On its way to the mutex. -/
  | ready
  /-- In `cv_.wait`. -/
  | asleep
  | running (task : τ)
  | exited

namespace Worker

/-- It waits. -/
def isAsleep : Worker τ → Bool
  | .asleep => true
  | _ => false

/-- It will look at the queue. -/
def isReady : Worker τ → Bool
  | .ready => true
  | _ => false

/-- It has returned. -/
def isExited : Worker τ → Bool
  | .exited => true
  | _ => false

/-- What it works on. -/
def task : Worker τ → Option τ
  | .running t => some t
  | _ => none

/-- What `notify_all` does to it. -/
def wake : Worker τ → Worker τ
  | .asleep => .ready
  | w => w

end Worker

/-- The pool, and what has become of the tasks so far. -/
structure Pool (τ : Type) where
  tasks : List τ
  workers : List (Worker τ)
  stop : Bool
  /-- Calls of `enqueue` that have still to notify. -/
  notifies : Nat
  /-- So has the destructor. -/
  notifiesAll : Bool
  /-- Tasks that `enqueue` took, in order. -/
  accepted : List τ
  /-- Tasks that a worker took, in order. -/
  taken : List τ
  /-- Tasks that have returned. -/
  done : List τ

/-- What can happen next. -/
inductive Event (τ : Type) where
  | enqueue (task : τ)
  /-- `notify_one`, and whom it wakes. -/
  | notifyOne (i : Option Nat)
  /-- The destructor's critical section. -/
  | stop
  | notifyAll
  /-- A worker gets the mutex and looks at the queue. -/
  | look (i : Nat)
  /-- It wakes up unasked. -/
  | spurious (i : Nat)
  /-- Its task returns. -/
  | finish (i : Nat)

namespace Pool

/-- `ThreadPool(n)`. -/
def start (τ : Type) (n : Nat) : Pool τ :=
  { tasks := [], workers := List.replicate n .ready, stop := false, notifies := 0, notifiesAll := false
    accepted := [], taken := [], done := [] }

/-- A worker that waits goes on. -/
def rouse (s : Pool τ) (i : Nat) : Option (Pool τ) :=
  match s.workers[i]? with
  | some .asleep => some { s with workers := s.workers.set i .ready }
  | _ => none

/-- The loop of a worker up to `task()`. -/
def look (s : Pool τ) (i : Nat) : Option (Pool τ) :=
  match s.workers[i]?, s.tasks with
  | some .ready, t :: rest =>
      some { s with tasks := rest, workers := s.workers.set i (.running t), taken := s.taken ++ [t] }
  | some .ready, [] => some { s with workers := s.workers.set i (if s.stop then .exited else .asleep) }
  | _, _ => none

/-- One step. `refuses` tells the two pools apart. -/
def step (refuses : Bool) (s : Pool τ) : Event τ → Option (Pool τ)
  | .enqueue t =>
      if s.stop ∧ refuses then none
      else some { s with
        tasks := s.tasks ++ [t], notifies := s.notifies + 1, accepted := s.accepted ++ [t] }
  | .notifyOne i =>
      if s.notifies = 0 then none
      else
        match i with
        | some i => ({ s with notifies := s.notifies - 1 } : Pool τ).rouse i
        | none => if s.workers.any Worker.isAsleep then none else some { s with notifies := s.notifies - 1 }
  | .stop => if s.stop then none else some { s with stop := true, notifiesAll := true }
  | .notifyAll =>
      if s.notifiesAll then some { s with workers := s.workers.map Worker.wake, notifiesAll := false } else none
  | .look i => s.look i
  | .spurious i => s.rouse i
  | .finish i =>
      match s.workers[i]? with
      | some (.running t) => some { s with workers := s.workers.set i .ready, done := s.done ++ [t] }
      | _ => none

/-- One after the other. -/
def run (refuses : Bool) (s : Pool τ) : List (Event τ) → Option (Pool τ)
  | [] => some s
  | e :: es => (s.step refuses e).bind (fun s' => s'.run refuses es)

/-! ## Counting workers -/

/-- How many wait. -/
def sleepers (s : Pool τ) : Nat := s.workers.countP Worker.isAsleep

/-- How many will look at the queue. -/
def ready (s : Pool τ) : Nat := s.workers.countP Worker.isReady

/-- What is being worked on. -/
def running (s : Pool τ) : List τ := s.workers.filterMap Worker.task

end Pool

/-- A worker and the others. -/
theorem split_workers {ws : List (Worker τ)} {i : Nat} {w : Worker τ} (h : ws[i]? = some w) :
    ∃ others, ws.Perm (w :: others) ∧ ∀ w', (ws.set i w').Perm (w' :: others) := by
  obtain ⟨hi, rfl⟩ := List.getElem?_eq_some_iff.mp h
  exact ⟨ws.eraseIdx i, (List.getElem_cons_eraseIdx_perm hi).symm, List.set_perm_cons_eraseIdx hi⟩

/-! ## What one step does -/

/-- The workers before and after, when one of them goes from one place to another. -/
structure Moves (ws : List (Worker τ)) (w w' : Worker τ) (ws' : List (Worker τ)) : Prop where
  ex : ∃ others, ws.Perm (w :: others) ∧ ws'.Perm (w' :: others)

theorem Moves.set {ws : List (Worker τ)} {i : Nat} {w : Worker τ} (h : ws[i]? = some w) (w' : Worker τ) :
    Moves ws w w' (ws.set i w') := by
  obtain ⟨others, hold, hnew⟩ := split_workers h
  exact ⟨others, hold, hnew w'⟩

section Moves

variable {ws ws' : List (Worker τ)} {w w' : Worker τ}

theorem Moves.countP (h : Moves ws w w' ws') (p : Worker τ → Bool) :
    ws'.countP p + (if p w then 1 else 0) = ws.countP p + (if p w' then 1 else 0) := by
  obtain ⟨others, hold, hnew⟩ := h.ex
  rw [hold.countP_eq p, hnew.countP_eq p, List.countP_cons, List.countP_cons]
  omega

theorem Moves.sum (h : Moves ws w w' ws') (f : Worker τ → Nat) :
    (ws'.map f).sum + f w = (ws.map f).sum + f w' := by
  obtain ⟨others, hold, hnew⟩ := h.ex
  rw [(hold.map f).sum_nat, (hnew.map f).sum_nat, List.map_cons, List.map_cons, List.sum_cons, List.sum_cons]
  omega

/-- The same tasks are worked on. -/
theorem Moves.filterMap_same (h : Moves ws w w' ws') (hw : w.task = w'.task) :
    (ws'.filterMap Worker.task).Perm (ws.filterMap Worker.task) := by
  obtain ⟨others, hold, hnew⟩ := h.ex
  refine (hnew.filterMap _).trans (List.Perm.trans ?_ (hold.filterMap _).symm)
  rw [List.filterMap_cons, List.filterMap_cons, hw]

/-- One more is worked on. -/
theorem Moves.filterMap_begin {t : τ} (h : Moves ws .ready (.running t) ws') :
    (ws'.filterMap Worker.task).Perm (t :: ws.filterMap Worker.task) := by
  obtain ⟨others, hold, hnew⟩ := h.ex
  exact (hnew.filterMap _).trans ((hold.filterMap Worker.task).symm.cons t)

/-- One has returned. -/
theorem Moves.filterMap_finish {t : τ} (h : Moves ws (.running t) .ready ws') :
    (ws.filterMap Worker.task).Perm (t :: ws'.filterMap Worker.task) := by
  obtain ⟨others, hold, hnew⟩ := h.ex
  exact (hold.filterMap _).trans ((hnew.filterMap Worker.task).symm.cons t)

end Moves

/-- What a step can have done. -/
inductive Did (refuses : Bool) (s s' : Pool τ) : Prop where
  | enqueued (t : τ) (h : ¬ (s.stop = true ∧ refuses = true))
      (hs : s' = { s with tasks := s.tasks ++ [t], notifies := s.notifies + 1, accepted := s.accepted ++ [t] })
  | notified (ws : List (Worker τ)) (h : Moves s.workers .asleep .ready ws) (hpos : 0 < s.notifies)
      (hs : s' = { s with workers := ws, notifies := s.notifies - 1 })
  | nobody (h : s.sleepers = 0) (hpos : 0 < s.notifies) (hs : s' = { s with notifies := s.notifies - 1 })
  | stopped (h : s.stop = false) (hs : s' = { s with stop := true, notifiesAll := true })
  | notifiedAll (h : s.notifiesAll = true)
      (hs : s' = { s with workers := s.workers.map Worker.wake, notifiesAll := false })
  | took (t : τ) (rest : List τ) (ws : List (Worker τ)) (h : Moves s.workers .ready (.running t) ws)
      (htasks : s.tasks = t :: rest)
      (hs : s' = { s with tasks := rest, workers := ws, taken := s.taken ++ [t] })
  | slept (ws : List (Worker τ)) (h : Moves s.workers .ready .asleep ws) (htasks : s.tasks = [])
      (hstop : s.stop = false) (hs : s' = { s with workers := ws })
  | left (ws : List (Worker τ)) (h : Moves s.workers .ready .exited ws) (htasks : s.tasks = [])
      (hstop : s.stop = true) (hs : s' = { s with workers := ws })
  | woke (ws : List (Worker τ)) (h : Moves s.workers .asleep .ready ws) (hs : s' = { s with workers := ws })
  | finished (t : τ) (ws : List (Worker τ)) (h : Moves s.workers (.running t) .ready ws)
      (hs : s' = { s with workers := ws, done := s.done ++ [t] })

theorem rouse_some {s s' : Pool τ} {i : Nat} (h : s.rouse i = some s') :
    ∃ ws, Moves s.workers .asleep .ready ws ∧ s' = { s with workers := ws } := by
  unfold Pool.rouse at h
  split at h
  · rename_i hi
    obtain rfl := Option.some.inj h
    exact ⟨_, Moves.set hi .ready, rfl⟩
  · exact absurd h nofun

theorem did_look {refuses : Bool} {s s' : Pool τ} {i : Nat} (h : s.look i = some s') : Did refuses s s' := by
  unfold Pool.look at h
  split at h
  · rename_i t rest hi htasks
    obtain rfl := Option.some.inj h
    exact .took t rest _ (Moves.set hi _) htasks rfl
  · rename_i hi htasks
    obtain rfl := Option.some.inj h
    cases hstop : s.stop with
    | true =>
        refine .left _ (Moves.set hi .exited) htasks hstop ?_
        rw [hstop]
        rfl
    | false =>
        refine .slept _ (Moves.set hi .asleep) htasks hstop ?_
        rw [hstop]
        rfl
  · exact absurd h nofun

theorem did_step {refuses : Bool} {s s' : Pool τ} {e : Event τ} (h : s.step refuses e = some s') :
    Did refuses s s' := by
  cases e with
  | enqueue t =>
      simp only [Pool.step] at h
      split at h
      · exact absurd h nofun
      · rename_i hopen
        exact .enqueued t hopen (Option.some.inj h).symm
  | notifyOne i =>
      simp only [Pool.step] at h
      split at h
      · exact absurd h nofun
      · rename_i hpos
        cases i with
        | some i =>
            obtain ⟨ws, hmoves, rfl⟩ := rouse_some h
            exact .notified ws hmoves (Nat.pos_of_ne_zero hpos) rfl
        | none =>
            dsimp only at h
            split at h
            · exact absurd h nofun
            · rename_i hnobody
              refine .nobody ?_ (Nat.pos_of_ne_zero hpos) (Option.some.inj h).symm
              rw [Pool.sleepers, List.countP_eq_zero]
              intro w hw hasleep
              exact hnobody (List.any_eq_true.mpr ⟨w, hw, hasleep⟩)
  | stop =>
      simp only [Pool.step] at h
      split at h
      · exact absurd h nofun
      · rename_i hstop
        exact .stopped (Bool.eq_false_iff.mpr hstop) (Option.some.inj h).symm
  | notifyAll =>
      simp only [Pool.step] at h
      split at h
      · rename_i hall
        exact .notifiedAll hall (Option.some.inj h).symm
      · exact absurd h nofun
  | look i => exact did_look h
  | spurious i =>
      obtain ⟨ws, hmoves, rfl⟩ := rouse_some h
      exact .woke ws hmoves rfl
  | finish i =>
      simp only [Pool.step] at h
      split at h
      · rename_i t hi
        obtain rfl := Option.some.inj h
        exact .finished t _ (Moves.set hi .ready) rfl
      · exact absurd h nofun

/-! ## The invariant -/

/-- What holds of a pool at any moment. -/
structure Inv (refuses : Bool) (s : Pool τ) : Prop where
  /-- Tasks are taken in the order in which they came. -/
  order : s.accepted = s.taken ++ s.tasks
  /-- What was taken has returned or is being worked on by one worker. -/
  once : (s.done ++ s.running).Perm s.taken
  /-- As long as somebody waits, there are wake-ups for all tasks. -/
  awake : 0 < s.sleepers → s.tasks.length ≤ s.notifies + s.ready
  /-- Nobody sleeps through the end. -/
  stopping : s.stop = true → s.notifiesAll = true ∨ s.sleepers = 0
  /-- Nobody leaves before it, or leaves work behind. -/
  exited : 0 < s.workers.countP Worker.isExited → s.stop = true ∧ (refuses = true → s.tasks = [])

theorem inv_start (refuses : Bool) (n : Nat) : Inv refuses (Pool.start τ n) := by
  have hsleep : (Pool.start τ n).sleepers = 0 := by
    rw [Pool.sleepers, List.countP_eq_zero]
    intro w hw
    rw [List.eq_of_mem_replicate hw]
    exact Bool.false_ne_true
  have hexited : (Pool.start τ n).workers.countP Worker.isExited = 0 := by
    rw [List.countP_eq_zero]
    intro w hw
    rw [List.eq_of_mem_replicate hw]
    exact Bool.false_ne_true
  have hrunning : (Pool.start τ n).running = [] := by
    rw [Pool.running, List.filterMap_eq_nil_iff]
    intro w hw
    rw [List.eq_of_mem_replicate hw]
    rfl
  refine ⟨rfl, ?_, fun _ => Nat.zero_le _, fun _ => .inr hsleep, ?_⟩
  · rw [hrunning]
    exact List.Perm.refl _
  · intro h
    omega

/-! ### Waking everybody -/

theorem isAsleep_wake (w : Worker τ) : w.wake.isAsleep = false := by cases w <;> rfl

theorem isExited_wake (w : Worker τ) : w.wake.isExited = w.isExited := by cases w <;> rfl

theorem task_wake (w : Worker τ) : w.wake.task = w.task := by cases w <;> rfl

theorem sleepers_wake (ws : List (Worker τ)) : (ws.map Worker.wake).countP Worker.isAsleep = 0 := by
  rw [List.countP_eq_zero]
  intro w hw
  obtain ⟨w₀, -, rfl⟩ := List.mem_map.mp hw
  rw [isAsleep_wake]
  exact Bool.false_ne_true

theorem countP_isExited_wake (ws : List (Worker τ)) :
    (ws.map Worker.wake).countP Worker.isExited = ws.countP Worker.isExited := by
  rw [List.countP_map]
  exact List.countP_congr fun w _ => by rw [Function.comp_apply, isExited_wake]

theorem running_wake (ws : List (Worker τ)) :
    (ws.map Worker.wake).filterMap Worker.task = ws.filterMap Worker.task := by
  rw [List.filterMap_map]
  exact List.filterMap_congr fun w _ => task_wake w

/-! ### Steps -/

section Steps

variable {refuses : Bool} {s s' : Pool τ} {ws : List (Worker τ)} {w w' : Worker τ}

/-- How the counts change. -/
theorem Moves.counts (h : Moves s.workers w w' ws) :
    ws.countP Worker.isAsleep + (if w.isAsleep then 1 else 0) = s.sleepers + (if w'.isAsleep then 1 else 0) ∧
      ws.countP Worker.isReady + (if w.isReady then 1 else 0) = s.ready + (if w'.isReady then 1 else 0) ∧
      ws.countP Worker.isExited + (if w.isExited then 1 else 0) =
        s.workers.countP Worker.isExited + (if w'.isExited then 1 else 0) :=
  ⟨h.countP _, h.countP _, h.countP _⟩

/-- A worker that has waited looks at the queue again. -/
theorem Inv.woken (h : Inv refuses s) (hmoves : Moves s.workers .asleep .ready ws) {n : Nat} (hn : s.notifies ≤ n + 1) :
    Inv refuses { s with workers := ws, notifies := n } := by
  obtain ⟨hsleepers, hready, hexited⟩ := hmoves.counts
  simp only [Worker.isAsleep, Worker.isReady, Worker.isExited, if_true, if_false, Bool.false_eq_true]
    at hsleepers hready hexited
  refine ⟨h.order, ((hmoves.filterMap_same rfl).append_left s.done).trans h.once, ?_, ?_, ?_⟩
  · intro _
    have hle := h.awake (by omega)
    show s.tasks.length ≤ n + ws.countP Worker.isReady
    omega
  · intro hstop
    refine (h.stopping hstop).imp id fun hnone => ?_
    show ws.countP Worker.isAsleep = 0
    omega
  · intro hpos
    have hpos : 0 < ws.countP Worker.isExited := hpos
    exact h.exited (by omega)

/-- A worker takes the oldest task. -/
theorem Inv.took (h : Inv refuses s) {t : τ} {rest : List τ} (hmoves : Moves s.workers .ready (.running t) ws)
    (htasks : s.tasks = t :: rest) :
    Inv refuses { s with tasks := rest, workers := ws, taken := s.taken ++ [t] } := by
  obtain ⟨hsleepers, hready, hexited⟩ := hmoves.counts
  simp only [Worker.isAsleep, Worker.isReady, Worker.isExited, if_true, if_false, Bool.false_eq_true]
    at hsleepers hready hexited
  refine ⟨?_, ?_, ?_, ?_, ?_⟩
  · rw [h.order, htasks, List.append_assoc]
    rfl
  · have hperm := (hmoves.filterMap_begin.append_left s.done).trans List.perm_middle
    exact hperm.trans ((h.once.cons t).trans (List.perm_append_singleton t s.taken).symm)
  · intro hpos
    have hpos : 0 < ws.countP Worker.isAsleep := hpos
    have hle := h.awake (by omega)
    rw [htasks, List.length_cons] at hle
    show rest.length ≤ s.notifies + ws.countP Worker.isReady
    omega
  · intro hstop
    refine (h.stopping hstop).imp id fun hnone => ?_
    show ws.countP Worker.isAsleep = 0
    omega
  · intro hpos
    have hpos : 0 < ws.countP Worker.isExited := hpos
    obtain ⟨hstop, hempty⟩ := h.exited (by omega)
    refine ⟨hstop, fun hrefuses => ?_⟩
    rw [hempty hrefuses] at htasks
    exact absurd htasks nofun

/-- A worker finds nothing to do, and goes to sleep or leaves. -/
theorem Inv.idle (h : Inv refuses s) (hmoves : Moves s.workers .ready w ws) (htasks : s.tasks = [])
    (hw : w = .asleep ∧ s.stop = false ∨ w = .exited ∧ s.stop = true) : Inv refuses { s with workers := ws } := by
  obtain ⟨hsleepers, -, hexited⟩ := hmoves.counts
  have htask : w.task = none := by
    rcases hw with ⟨rfl, -⟩ | ⟨rfl, -⟩
    · rfl
    · rfl
  refine ⟨h.order, ((hmoves.filterMap_same htask.symm).append_left s.done).trans h.once, ?_, ?_, ?_⟩
  · intro _
    show s.tasks.length ≤ _
    rw [htasks]
    exact Nat.zero_le _
  · intro hstop
    rcases hw with ⟨-, hopen⟩ | ⟨rfl, -⟩
    · exact absurd (hopen.symm.trans hstop) nofun
    · simp only [Worker.isAsleep, if_false, Bool.false_eq_true] at hsleepers
      refine (h.stopping hstop).imp id fun hnone => ?_
      show ws.countP Worker.isAsleep = 0
      omega
  · intro hpos
    have hpos : 0 < ws.countP Worker.isExited := hpos
    rcases hw with ⟨rfl, -⟩ | ⟨rfl, hstop⟩
    · simp only [Worker.isExited, if_false, Bool.false_eq_true] at hexited
      exact h.exited (by omega)
    · exact ⟨hstop, fun _ => htasks⟩

/-- A task returns. -/
theorem Inv.finished (h : Inv refuses s) {t : τ} (hmoves : Moves s.workers (.running t) .ready ws) :
    Inv refuses { s with workers := ws, done := s.done ++ [t] } := by
  obtain ⟨hsleepers, hready, hexited⟩ := hmoves.counts
  simp only [Worker.isAsleep, Worker.isReady, Worker.isExited, if_true, if_false, Bool.false_eq_true]
    at hsleepers hready hexited
  refine ⟨h.order, ?_, ?_, ?_, ?_⟩
  · have hperm : (s.done ++ [t] ++ ws.filterMap Worker.task).Perm (s.done ++ s.running) := by
      rw [List.append_assoc]
      exact hmoves.filterMap_finish.symm.append_left s.done
    exact hperm.trans h.once
  · intro hpos
    have hpos : 0 < ws.countP Worker.isAsleep := hpos
    have hle := h.awake (by omega)
    show s.tasks.length ≤ s.notifies + ws.countP Worker.isReady
    omega
  · intro hstop
    refine (h.stopping hstop).imp id fun hnone => ?_
    show ws.countP Worker.isAsleep = 0
    omega
  · intro hpos
    have hpos : 0 < ws.countP Worker.isExited := hpos
    exact h.exited (by omega)

/-- **One step keeps the invariant.** -/
theorem inv_step {e : Event τ} (h : Inv refuses s) (hs : s.step refuses e = some s') : Inv refuses s' := by
  cases did_step hs with
  | enqueued t hopen hs =>
      subst hs
      refine ⟨by rw [h.order, List.append_assoc], h.once, ?_, h.stopping, ?_⟩
      · intro hsleep
        have hle := h.awake hsleep
        show (s.tasks ++ [t]).length ≤ s.notifies + 1 + s.ready
        rw [List.length_append, List.length_singleton]
        omega
      · intro hleft
        obtain ⟨hstop, -⟩ := h.exited hleft
        exact ⟨hstop, fun hrefuses => absurd ⟨hstop, hrefuses⟩ hopen⟩
  | notified ws hmoves hpos hs =>
      subst hs
      exact h.woken hmoves (by omega)
  | nobody hnone hpos hs =>
      subst hs
      refine ⟨h.order, h.once, ?_, h.stopping, h.exited⟩
      intro hsleep
      exact absurd hnone (Nat.ne_of_gt hsleep)
  | stopped hstop hs =>
      subst hs
      refine ⟨h.order, h.once, h.awake, fun _ => .inl rfl, ?_⟩
      intro hleft
      rw [(h.exited hleft).1] at hstop
      exact absurd hstop nofun
  | notifiedAll hall hs =>
      subst hs
      refine ⟨h.order, ?_, ?_, fun _ => .inr (sleepers_wake s.workers), ?_⟩
      · show (s.done ++ (s.workers.map Worker.wake).filterMap Worker.task).Perm s.taken
        rw [running_wake]
        exact h.once
      · intro hsleep
        exact absurd (sleepers_wake s.workers) (Nat.ne_of_gt hsleep)
      · intro hleft
        refine h.exited ?_
        rw [← countP_isExited_wake]
        exact hleft
  | took t rest ws hmoves htasks hs =>
      subst hs
      exact h.took hmoves htasks
  | slept ws hmoves htasks hstop hs =>
      subst hs
      exact h.idle hmoves htasks (.inl ⟨rfl, hstop⟩)
  | left ws hmoves htasks hstop hs =>
      subst hs
      exact h.idle hmoves htasks (.inr ⟨rfl, hstop⟩)
  | woke ws hmoves hs =>
      subst hs
      exact h.woken hmoves (Nat.le_succ _)
  | finished t ws hmoves hs =>
      subst hs
      exact h.finished hmoves

theorem inv_run {es : List (Event τ)} (h : Inv refuses s) (hs : s.run refuses es = some s') : Inv refuses s' := by
  induction es generalizing s with
  | nil =>
      obtain rfl := Option.some.inj hs
      exact h
  | cons e es ih =>
      obtain ⟨s₁, he, hes⟩ := Option.bind_eq_some_iff.mp hs
      exact ih (inv_step h he) hes

end Steps

/-! ## The end -/

/-- Steps that a worker may still take, at most. -/
def Worker.cost : Worker τ → Nat
  | .ready => 1
  | .asleep => 2
  | .running _ => 2
  | .exited => 0

/-- Steps that may still be taken once the destructor has begun. -/
def Pool.left (s : Pool τ) : Nat :=
  2 * s.tasks.length + (s.workers.map Worker.cost).sum + s.notifies + (if s.notifiesAll then 1 else 0)

section End

variable {s s' : Pool τ}

theorem sum_cost_wake (ws : List (Worker τ)) : ((ws.map Worker.wake).map Worker.cost).sum ≤ (ws.map Worker.cost).sum := by
  induction ws with
  | nil => exact Nat.le_refl _
  | cons w ws ih =>
      have hw : w.wake.cost ≤ w.cost := by
        cases w with
        | ready => exact Nat.le_refl _
        | asleep => exact Nat.le_succ _
        | running t => exact Nat.le_refl _
        | exited => exact Nat.le_refl _
      simp only [List.map_cons, List.sum_cons]
      omega

/-- Every step brings the end nearer. -/
theorem left_step {e : Event τ} (hstop : s.stop = true) (hs : s.step true e = some s') :
    s'.stop = true ∧ s'.left < s.left := by
  cases did_step hs with
  | enqueued t hopen hs => exact absurd ⟨hstop, rfl⟩ hopen
  | notified ws hmoves hpos hs =>
      subst hs
      have hsum := hmoves.sum Worker.cost
      simp only [Worker.cost] at hsum
      refine ⟨hstop, ?_⟩
      unfold Pool.left
      dsimp only
      omega
  | nobody hnone hpos hs =>
      subst hs
      refine ⟨hstop, ?_⟩
      unfold Pool.left
      dsimp only
      omega
  | stopped hopen hs => exact absurd (hopen.symm.trans hstop) nofun
  | notifiedAll hall hs =>
      subst hs
      have hsum := sum_cost_wake s.workers
      refine ⟨hstop, ?_⟩
      unfold Pool.left
      rw [hall]
      dsimp only
      simp only [if_true, if_false, Bool.false_eq_true]
      omega
  | took t rest ws hmoves htasks hs =>
      subst hs
      have hsum := hmoves.sum Worker.cost
      simp only [Worker.cost] at hsum
      refine ⟨hstop, ?_⟩
      unfold Pool.left
      rw [htasks, List.length_cons]
      dsimp only
      omega
  | slept ws hmoves htasks hopen hs => exact absurd (hopen.symm.trans hstop) nofun
  | left ws hmoves htasks hstop hs =>
      subst hs
      have hsum := hmoves.sum Worker.cost
      simp only [Worker.cost] at hsum
      refine ⟨hstop, ?_⟩
      unfold Pool.left
      dsimp only
      omega
  | woke ws hmoves hs =>
      subst hs
      have hsum := hmoves.sum Worker.cost
      simp only [Worker.cost] at hsum
      refine ⟨hstop, ?_⟩
      unfold Pool.left
      dsimp only
      omega
  | finished t ws hmoves hs =>
      subst hs
      have hsum := hmoves.sum Worker.cost
      simp only [Worker.cost] at hsum
      refine ⟨hstop, ?_⟩
      unfold Pool.left
      dsimp only
      omega

theorem length_le_left {es : List (Event τ)} (hstop : s.stop = true) (hs : s.run true es = some s') :
    es.length ≤ s.left := by
  induction es generalizing s with
  | nil => exact Nat.zero_le _
  | cons e es ih =>
      obtain ⟨s₁, he, hes⟩ := Option.bind_eq_some_iff.mp hs
      obtain ⟨hstop₁, hlt⟩ := left_step hstop he
      have hle := ih hstop₁ hes
      rw [List.length_cons]
      omega

/-- When nothing can happen any more, everybody has left. -/
theorem exited_of_stuck {refuses : Bool} (h : Inv refuses s) (hstop : s.stop = true)
    (hstuck : ∀ e, s.step refuses e = none) : ∀ w ∈ s.workers, w = .exited := by
  have hquiet : s.notifiesAll = false := by
    have hstep := hstuck .notifyAll
    simp only [Pool.step] at hstep
    split at hstep
    · exact absurd hstep nofun
    · rename_i hquiet
      exact Bool.eq_false_iff.mpr hquiet
  have hnone : s.sleepers = 0 := (h.stopping hstop).resolve_left (by rw [hquiet]; exact Bool.false_ne_true)
  intro w hw
  obtain ⟨i, hi⟩ := List.mem_iff_getElem?.mp hw
  cases w with
  | exited => rfl
  | asleep => exact absurd rfl (List.countP_eq_zero.mp hnone _ hw)
  | ready =>
      have hstep := hstuck (.look i)
      simp only [Pool.step, Pool.look, hi] at hstep
      cases htasks : s.tasks with
      | nil =>
          rw [htasks] at hstep
          exact absurd hstep nofun
      | cons t rest =>
          rw [htasks] at hstep
          exact absurd hstep nofun
  | running t =>
      have hstep := hstuck (.finish i)
      simp only [Pool.step, hi] at hstep
      exact absurd hstep nofun

end End

/-! ## Runs -/

/-- What a pool can be relied on for. -/
structure Works (refuses : Bool) (s : Pool τ) : Prop where
  /-- Tasks are begun in the order in which they came. -/
  order : s.accepted = s.taken ++ s.tasks
  /-- Each that was begun has returned once, or one worker is at it. -/
  once : (s.done ++ s.running).Perm s.taken
  /-- No wake-up is lost: while a worker waits, others are on their way to every task. -/
  awake : 0 < s.sleepers → s.tasks.length ≤ s.notifies + s.ready
  /-- A task that waits has somebody to wait for. -/
  served : s.tasks ≠ [] → s.stop = false → 0 < s.notifies ∨ 0 < s.ready ∨ s.running ≠ []
  /-- The destructor returns, and everything that was accepted has been done by then. -/
  ends : refuses = true → s.stop = true →
    (∀ es s', s.run refuses es = some s' → es.length ≤ s.left) ∧
      ((∀ e, s.step refuses e = none) → (∀ w ∈ s.workers, w = .exited) ∧ s.done.Perm s.accepted)

section Runs

variable {refuses : Bool} {s s' : Pool τ}

theorem Moves.length {ws ws' : List (Worker τ)} {w w' : Worker τ} (h : Moves ws w w' ws') : ws'.length = ws.length := by
  obtain ⟨others, hold, hnew⟩ := h.ex
  rw [hold.length_eq, hnew.length_eq, List.length_cons, List.length_cons]

theorem length_workers_step {e : Event τ} (hs : s.step refuses e = some s') : s'.workers.length = s.workers.length := by
  cases did_step hs with
  | enqueued t hopen hs => rw [hs]
  | notified ws hmoves hpos hs => rw [hs]; exact hmoves.length
  | nobody hnone hpos hs => rw [hs]
  | stopped hopen hs => rw [hs]
  | notifiedAll hall hs => rw [hs]; exact List.length_map _
  | took t rest ws hmoves htasks hs => rw [hs]; exact hmoves.length
  | slept ws hmoves htasks hopen hs => rw [hs]; exact hmoves.length
  | left ws hmoves htasks hstop hs => rw [hs]; exact hmoves.length
  | woke ws hmoves hs => rw [hs]; exact hmoves.length
  | finished t ws hmoves hs => rw [hs]; exact hmoves.length

theorem length_workers_run {es : List (Event τ)} (hs : s.run refuses es = some s') :
    s'.workers.length = s.workers.length := by
  induction es generalizing s with
  | nil =>
      obtain rfl := Option.some.inj hs
      rfl
  | cons e es ih =>
      obtain ⟨s₁, he, hes⟩ := Option.bind_eq_some_iff.mp hs
      rw [ih hes, length_workers_step he]

theorem Inv.served (h : Inv refuses s) (hpos : 0 < s.workers.length) (htasks : s.tasks ≠ []) (hopen : s.stop = false) :
    0 < s.notifies ∨ 0 < s.ready ∨ s.running ≠ [] := by
  have hwaiting : 0 < s.tasks.length := List.length_pos_iff.mpr htasks
  by_cases hsleep : 0 < s.sleepers
  · have hle := h.awake hsleep
    by_cases hnotifies : 0 < s.notifies
    · exact .inl hnotifies
    · exact .inr (.inl (by omega))
  · -- any worker will do
    have hw : s.workers[0] ∈ s.workers := List.getElem_mem hpos
    cases hcase : s.workers[0] with
    | ready =>
        refine .inr (.inl (List.countP_pos_iff.mpr ⟨_, hw, ?_⟩))
        rw [hcase]
        rfl
    | asleep =>
        refine absurd (List.countP_pos_iff.mpr ⟨_, hw, ?_⟩) hsleep
        rw [hcase]
        rfl
    | running t =>
        have hrunning : t ∈ s.running := List.mem_filterMap.mpr ⟨_, hw, by rw [hcase]; rfl⟩
        exact .inr (.inr (List.ne_nil_of_mem hrunning))
    | exited =>
        have hleft : 0 < s.workers.countP Worker.isExited := by
          refine List.countP_pos_iff.mpr ⟨_, hw, ?_⟩
          rw [hcase]
          rfl
        rw [(h.exited hleft).1] at hopen
        exact absurd hopen nofun

end Runs

/-! ## Two workers -/

/-- Two tasks, and a destructor that begins before the second is taken. -/
def twoTasks : List (Event Nat) :=
  [.look 0, .look 1, .enqueue 7, .enqueue 8, .notifyOne (some 1), .look 1, .stop, .notifyOne (some 0), .look 0,
   .notifyAll, .finish 1, .look 1, .finish 0, .look 0]

end NCloud.Server.ThreadPool
