import Mathlib.Logic.Basic

/-!
# Runs of a labelled transition system

`Reach init step` is the set of states a labelled transition system reaches from its
initial states. An invariant is proved once, by `Reach.invariant`, from what one step
preserves. `Guarded cond step` keeps the steps whose label and source state satisfy
`cond`, so `Reach init (Guarded cond step)` is the set of states of the runs all of
whose steps meet `cond`. `Path step s l s'` is a run from `s` to `s'` with the labels `l`.
-/

namespace Toastium

variable {σ α : Type*}

/-- The states reached from `init` by `step`. -/
inductive Reach (init : σ → Prop) (step : σ → α → σ → Prop) : σ → Prop
  | start {s : σ} : init s → Reach init step s
  | next {s s' : σ} {a : α} : Reach init step s → step s a s' → Reach init step s'

/-- The steps taken in a state and with a label that satisfy `cond`. -/
def Guarded (cond : σ → α → Prop) (step : σ → α → σ → Prop) : σ → α → σ → Prop :=
  fun s a s' => cond s a ∧ step s a s'

/-- A property of the initial states that every step keeps holds of every run. -/
theorem Reach.invariant {init : σ → Prop} {step : σ → α → σ → Prop} (Inv : σ → Prop)
    (h0 : ∀ s, init s → Inv s) (hstep : ∀ s a s', Inv s → step s a s' → Inv s') {s : σ}
    (h : Reach init step s) : Inv s := by
  induction h with
  | start hi => exact h0 _ hi
  | next _ hs ih => exact hstep _ _ _ ih hs

/-- A run that is computed : the steps of `f` are steps of the system. -/
theorem Reach.of_foldlM {init : σ → Prop} {step : σ → α → σ → Prop} {f : σ → α → Option σ}
    (hf : ∀ s a s', f s a = some s' → step s a s') :
    ∀ {l : List α} {s s' : σ}, Reach init step s → l.foldlM f s = some s' → Reach init step s'
  | [], s, s', hs, h => by
    cases h
    exact hs
  | a :: l, s, s', hs, h => by
    obtain ⟨s1, h1, h2⟩ := Option.bind_eq_some_iff.mp h
    exact Reach.of_foldlM hf (hs.next (hf s a s1 h1)) h2

/-- A run with its labels. -/
inductive Path (step : σ → α → σ → Prop) : σ → List α → σ → Prop
  | nil (s : σ) : Path step s [] s
  | cons {s s' s'' : σ} {a : α} {l : List α} : step s a s' → Path step s' l s'' →
    Path step s (a :: l) s''

theorem Reach.path {init : σ → Prop} {step : σ → α → σ → Prop} {s s' : σ} {l : List α}
    (hs : Reach init step s) (h : Path step s l s') : Reach init step s' := by
  induction h with
  | nil => exact hs
  | cons hstep _ ih => exact ih (hs.next hstep)

theorem Path.mono {step step' : σ → α → σ → Prop} {s s' : σ} {l : List α} (h : Path step s l s')
    (hmono : ∀ s a s', step s a s' → step' s a s') : Path step' s l s' := by
  induction h with
  | nil => exact .nil _
  | cons hstep _ ih => exact .cons (hmono _ _ _ hstep) ih

end Toastium
