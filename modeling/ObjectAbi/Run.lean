import ObjectAbi.Arena

/-!
# Runs

A run carries out steps one after the other. The first fault ends it: the steps after it are not
carried out, and the answers before it stand.
-/

namespace ObjectAbi

/-- What a run leaves behind: the answers given, and the fault that ended it if one did. -/
structure Transcript (α : Type) where
  answers : List α
  fault : Option Fault
deriving DecidableEq, Repr

namespace Transcript

def cons (a : α) (t : Transcript α) : Transcript α := { t with answers := a :: t.answers }

end Transcript

variable {σ ρ α : Type}

/-- Carries out steps until there are none left, a step ends in a fault, or an answer is final. -/
def runUntil (final : α → Bool) (step : ρ → ExceptT Fault (StateM σ) α) :
    List ρ → StateM σ (Transcript α)
  | [] => pure ⟨[], none⟩
  | r :: rest => do
    match ← (step r).run with
    | .error fault => return ⟨[], some fault⟩
    | .ok a =>
      if final a then return ⟨[a], none⟩
      return (← runUntil final step rest).cons a

def runAll (step : ρ → ExceptT Fault (StateM σ) α) : List ρ → StateM σ (Transcript α) :=
  runUntil (fun _ => false) step

theorem runAll_congr {step step' : ρ → ExceptT Fault (StateM σ) α} {rs : List ρ}
    (h : ∀ r ∈ rs, step r = step' r) : runAll step rs = runAll step' rs := by
  unfold runAll
  induction rs with
  | nil => rfl
  | cons r rest ih =>
    rw [runUntil, runUntil, h r List.mem_cons_self, ih fun r hr ↦ h r (List.mem_cons_of_mem _ hr)]

-- a run is its first step, and the run of the others from what that step leaves behind.
theorem run_runUntil_cons (final : α → Bool) (step : ρ → ExceptT Fault (StateM σ) α) (r : ρ)
    (rest : List ρ) (s : σ) :
    (runUntil final step (r :: rest)).run s =
      match (step r).run.run s with
      | (.error fault, s) => (⟨[], some fault⟩, s)
      | (.ok a, s) =>
        if final a then (⟨[a], none⟩, s)
        else
          (((runUntil final step rest).run s).1.cons a, ((runUntil final step rest).run s).2) := by
  rw [runUntil, StateT.run_bind]
  rcases (step r).run.run s with ⟨fault | a, s⟩
  · rfl
  · show ((if final a then pure ⟨[a], none⟩ else
      Transcript.cons a <$> runUntil final step rest : StateM σ (Transcript α)).run s) = _
    by_cases hfinal : final a
    · simp only [if_pos hfinal]
      rfl
    · simp only [if_neg hfinal]
      rfl

/-- What every step keeps, a run keeps, however it ends. -/
theorem runUntil_preserves (Inv : σ → Prop) (final : α → Bool)
    {step : ρ → ExceptT Fault (StateM σ) α} (hstep : ∀ r s, Inv s → Inv ((step r).run.run s).2)
    (rs : List ρ) {s : σ} (h : Inv s) : Inv ((runUntil final step rs).run s).2 := by
  induction rs generalizing s with
  | nil => exact h
  | cons r rest ih =>
    have hbetween := hstep r s h
    rw [run_runUntil_cons]
    rcases hrun : (step r).run.run s with ⟨fault | a, between⟩
    · rwa [hrun] at hbetween
    · rw [hrun] at hbetween
      by_cases hfinal : final a
      · simpa only [if_pos hfinal] using hbetween
      · simpa only [if_neg hfinal] using ih hbetween

theorem run_runAll_cons (step : ρ → ExceptT Fault (StateM σ) α) (r : ρ) (rest : List ρ) (s : σ) :
    (runAll step (r :: rest)).run s =
      match (step r).run.run s with
      | (.error fault, s) => (⟨[], some fault⟩, s)
      | (.ok a, s) => (((runAll step rest).run s).1.cons a, ((runAll step rest).run s).2) :=
  run_runUntil_cons _ step r rest s

end ObjectAbi
