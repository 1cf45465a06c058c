import Mathlib.Data.List.Basic
import Mathlib.Tactic

/-!
# Rotations

One runner and a queue of others that wait. At a tick the runner goes to the end of the queue, and
the first of the queue runs; a runner that leaves does not come back; those that arrive come last.

Who waits at place `i` runs at switch `i + 1` from then on, whatever else happens
(`Rotation.run_ready`, `Rotation.step_running`), and nobody is lost (`Rotation.mem_step`).
-/

namespace Toastium

/-- Who waits, in order, and who runs. -/
structure Rotation (α : Type*) where
  ready : List α
  running : Option α

namespace Rotation

variable {α : Type*}

inductive Event (α : Type*)
  | arrive (a : α)
  | tick
  | leave

/-- The runner changes. -/
def Event.switches : Event α → Bool
  | arrive _ => false
  | tick => true
  | leave => true

/-- The first one runs. -/
def next : List α → Rotation α
  | [] => ⟨[], none⟩
  | a :: l => ⟨l, some a⟩

def step (r : Rotation α) : Event α → Rotation α
  | .arrive a => ⟨r.ready ++ [a], r.running⟩
  | .tick => next (r.ready ++ r.running.toList)
  | .leave => next r.ready

def run (r : Rotation α) (es : List (Event α)) : Rotation α :=
  es.foldl step r

/-- Those that run or wait. -/
def Mem (r : Rotation α) (a : α) : Prop :=
  a ∈ r.ready ∨ r.running = some a

variable {r : Rotation α} {a : α}

theorem mem_next {l : List α} : (next l).Mem a ↔ a ∈ l := by
  cases l with
  | nil => simp [Mem, next]
  | cons b l => simp [Mem, next, or_comm, eq_comm]

/-- Only the one that leaves is gone. -/
theorem mem_step (e : Event α) : (r.step e).Mem a ↔
    match e with
    | .arrive b => r.Mem a ∨ a = b
    | .tick => r.Mem a
    | .leave => a ∈ r.ready := by
  cases e with
  | arrive b => simp [Mem, step, or_assoc, or_comm]
  | tick => exact mem_next.trans (by simp [Mem])
  | leave => exact mem_next

theorem next_getElem {l : List α} {i : ℕ} (h : l[i + 1]? = some a) :
    (next l).ready[i]? = some a := by
  cases l with
  | nil => cases h
  | cons b l => exact h

theorem next_head {l : List α} (h : l[0]? = some a) : (next l).running = some a := by
  cases l with
  | nil => cases h
  | cons b l => exact h

theorem getElem_append {l : List α} {i : ℕ} (h : l[i]? = some a) (m : List α) :
    (l ++ m)[i]? = some a := by
  rw [List.getElem?_append_left (List.getElem?_eq_some_iff.mp h).1, h]

/-- The first in the queue runs at the next switch. -/
theorem step_running {e : Event α} (he : e.switches = true) (h : r.ready[0]? = some a) :
    (r.step e).running = some a := by
  cases e with
  | arrive b => cases he
  | tick => exact next_head (getElem_append h _)
  | leave => exact next_head h

/-- The others move up by one place at a switch and stay where they are otherwise. -/
theorem step_ready {e : Event α} {i : ℕ} (h : r.ready[i + e.switches.toNat]? = some a) :
    (r.step e).ready[i]? = some a := by
  cases e with
  | arrive b => exact getElem_append h _
  | tick => exact next_getElem (getElem_append h _)
  | leave => exact next_getElem h

/-- The place in the queue counts the switches until the turn. -/
theorem run_ready : ∀ {es : List (Event α)} {r : Rotation α} {i : ℕ},
    r.ready[i + es.countP Event.switches]? = some a → (r.run es).ready[i]? = some a
  | [], _, _, h => h
  | e :: es, r, i, h => by
    refine @run_ready es _ i (step_ready ?_)
    rw [List.countP_cons] at h
    rw [← h]
    congr 1
    cases e.switches <;> simp [Nat.add_assoc]

end Rotation

end Toastium
