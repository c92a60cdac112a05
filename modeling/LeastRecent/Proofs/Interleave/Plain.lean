import LeastRecent.Proofs.Interleave.Runs

/-!
# Calls that nothing interrupts

A call that nothing interrupts goes from stage to stage until it ends (`Finishes`). If every call that a system is asked
for ends within sixteen stages, and answers and changes the state as a reference does (`spec`), then a whole session of
such calls is finished in the time allowed and answers as the reference does (`session_plain`).
-/

namespace LeastRecent.Interleave

variable {σ op pc ρ ev : Type}

/-- A call that has got as far as given ends, `n` stages later, in the state `s'` with the result `a`. -/
inductive Finishes (resume : pc → σ → σ × Outcome pc ρ) : Nat → σ × Outcome pc ρ → σ → ρ → Prop
  | done (s : σ) (a : ρ) : Finishes resume 0 (s, .done a) s a
  | pause {n : Nat} {stage : pc} {s s' : σ} {a : ρ} (h : Finishes resume n (resume stage s) s' a) :
    Finishes resume (n + 1) (s, .pause stage) s' a

/-- A sequence of calls, answered by a reference. -/
def replay {τ α β : Type} (spec : α → τ → τ × β) : τ → List α → τ × List β
  | t, [] => (t, [])
  | t, o :: os =>
    let (t₁, b) := spec o t
    let (t₂, bs) := replay spec t₁ os
    (t₂, b :: bs)

/-- No call of a plain script has a plan. -/
theorem Script.weight_plain (os : List op) : (Script.plain os).weight = os.length := by
  induction os with
  | nil => rfl
  | cons o os ih =>
    rw [Script.plain, Script.weight, ih, Plan.weight, List.length_cons]
    omega

namespace Machine

variable {sys : System σ op pc ρ ev}

/-- A finished machine idles. -/
theorem steps_finished {m : Machine σ op pc ρ ev} (h : m.finished = true) (n : Nat) : steps sys n m = m := by
  induction n with
  | zero => rfl
  | succ n ih =>
    rw [steps, ih]
    exact step_finished sys h

/-- A call without stops to come leaves its record, stage by stage. -/
theorem steps_of_finishes {n : Nat} {p : σ × Outcome pc ρ} {s' : σ} {a : ρ} (h : Finishes sys.resume n p s' a)
    (todo : Script op) (records : List (Record ρ ev)) : ∀ (progress : Progress op ρ ev), progress.plan = .nil →
      progress.waiting = [] → ∃ r, r.result = a ∧
        steps sys n (settle sys ⟨p.1, [], todo, records⟩ progress p.2) = ⟨s', [], todo, records ++ [r]⟩ := by
  induction h with
  | done s a => exact fun progress _ _ => ⟨progress.record a, rfl, rfl⟩
  | @pause n stage s s' a h ih =>
    intro progress hplan hwaiting
    -- no stop is planned at the point reached, if it is one
    have hset : ∃ progress', progress'.plan = .nil ∧ progress'.waiting = [] ∧
        settle sys ⟨s, [], todo, records⟩ progress (.pause stage) = ⟨s, [⟨stage, progress'⟩], todo, records⟩ := by
      cases hp : sys.point stage with
      | none => exact ⟨progress, hplan, hwaiting, by simp only [settle, hp]⟩
      | some x =>
        refine ⟨progress.pass x, ?_, ?_, by simp only [settle, hp]⟩
        · simp [Progress.pass, hplan, Plan.stopsAt, Progress.turnTo]
        · simp [Progress.pass, hplan, Plan.stopsAt, Progress.turnTo]
    obtain ⟨progress', hplan', hwaiting', hset⟩ := hset
    obtain ⟨r, hr, hsteps⟩ := ih (progress'.witness (sys.events s (sys.resume stage s).1)) hplan' hwaiting'
    refine ⟨r, hr, ?_⟩
    show steps sys (n + 1) (settle sys ⟨s, [], todo, records⟩ progress (.pause stage)) = _
    rw [hset, steps_add n 1, ← hsteps]
    refine congrArg (steps sys n) ?_
    show step sys ⟨s, [⟨stage, progress'⟩], todo, records⟩ = _
    simp only [step, hwaiting']

/-- A call that nothing interrupts, from its start to its record. -/
theorem steps_call {o : op} {n : Nat} {s s' : σ} {a : ρ} (h : Finishes sys.resume n (sys.start o s) s' a)
    (todo : Script op) (records : List (Record ρ ev)) : ∃ r, r.result = a ∧
      steps sys (n + 1) ⟨s, [], .call o .nil todo, records⟩ = ⟨s', [], todo, records ++ [r]⟩ := by
  obtain ⟨r, hr, hsteps⟩ := steps_of_finishes h todo records
    ((Progress.begin .nil).witness (sys.events s (sys.start o s).1)) rfl rfl
  exact ⟨r, hr, by rw [steps_add n 1, ← hsteps]; rfl⟩

section Reference

variable {τ α β : Type} {request : α → op} {R : σ → τ → Prop} {spec : α → τ → τ × β} {view : ρ → β}
  (h : ∀ o s t, R s t → ∃ n s' a, n < 16 ∧ Finishes sys.resume n (sys.start (request o) s) s' a ∧
    R s' (spec o t).1 ∧ view a = (spec o t).2)
include h

theorem steps_plain : ∀ (os : List α) (s : σ) (t : τ) (records : List (Record ρ ev)), R s t →
    ∃ n s' rs, n ≤ 16 * os.length ∧
      steps sys n ⟨s, [], .plain (os.map request), records⟩ = ⟨s', [], .nil, records ++ rs⟩ ∧
      R s' (replay spec t os).1 ∧ (rs.map fun r => view r.result) = (replay spec t os).2
  | [], s, t, records, hR => ⟨0, s, [], Nat.le_refl _, by rw [List.append_nil]; rfl, hR, rfl⟩
  | o :: os, s, t, records, hR => by
    obtain ⟨n, s₁, a, hn, hf, hR₁, hv⟩ := h o s t hR
    obtain ⟨r, hr, hcall⟩ := steps_call hf (.plain (os.map request)) records
    obtain ⟨k, s₂, rs, hk, hrest, hR₂, hvs⟩ := steps_plain os s₁ (spec o t).1 (records ++ [r]) hR₁
    refine ⟨k + (n + 1), s₂, r :: rs, ?_, ?_, hR₂, ?_⟩
    · rw [List.length_cons]
      omega
    · rw [steps_add]
      show steps sys k (steps sys (n + 1) ⟨s, [], .call (request o) .nil (.plain (os.map request)), records⟩) = _
      rw [hcall, hrest, List.append_assoc]
      rfl
    · rw [List.map_cons, hvs, hr, hv]
      rfl

/-- **A session of calls that nothing interrupts answers as the reference does**, if each call does. -/
theorem session_plain (os : List α) {s : σ} {t : τ} (hR : R s t) :
    (session sys s (.plain (os.map request))).finished = true ∧
      R (session sys s (.plain (os.map request))).state (replay spec t os).1 ∧
      ((session sys s (.plain (os.map request))).records.map fun r => view r.result) = (replay spec t os).2 := by
  obtain ⟨n, s', rs, hn, hsteps, hR', hv⟩ := steps_plain h os s t [] hR
  have hallowed : n ≤ allowance (Script.plain (os.map request)).weight := by
    rw [Script.weight_plain, List.length_map, allowance]
    have : 16 * os.length * 1 ≤ 16 * (os.length + 1) * (os.length + 1) :=
      Nat.mul_le_mul (by omega) (by omega)
    omega
  obtain ⟨rest, hrest⟩ := Nat.exists_eq_add_of_le' hallowed
  have hsession : session sys s (.plain (os.map request)) = ⟨s', [], .nil, rs⟩ := by
    rw [session, run_eq_steps, hrest, steps_add, init, hsteps]
    exact steps_finished rfl rest
  rw [hsession]
  exact ⟨rfl, hR', hv⟩

end Reference

end Machine
end LeastRecent.Interleave
