import LeastRecent.Proofs.Interleave.Plain

/-!
# Runs in which one call comes after the other

A run is serial if no call starts before the last one has ended (`Serial`), as it is with calls that have no plans
(`serial_plain`). What is in progress then ends as it would alone (`Heads`). So an invariant that each call leaves behind
when it is served alone holds whenever no call is in progress (`Serial.heads`), a call that ends alone ends in the run too
(`Serial.call_of_finishes`), and the state is then the one in which it ends alone (`Serial.state_of_finishes`).
-/

namespace LeastRecent.Interleave.Machine

variable {σ op pc ρ ev : Type} {sys : System σ op pc ρ ev} {m : Machine σ op pc ρ ev} {P : σ → Prop}

/-- No call starts while another one is in progress. -/
def Serial (sys : System σ op pc ρ ev) (m : Machine σ op pc ρ ev) : Prop :=
  ∀ n o, (steps sys n m).move = .start o → (steps sys n m).stack = []

theorem stages_eq_nil : m.stages = [] ↔ m.stack = [] := List.map_eq_nil_iff

/-- What a part of a serial run starts with does not matter. -/
theorem Serial.steps (h : Serial sys m) (k : Nat) : Serial sys (Machine.steps sys k m) := by
  intro n o ho
  rw [← steps_add] at ho ⊢
  exact h (n + k) o ho

/-! ## Calls without plans -/

/-- Calls without plans are still to come, and the one in progress has no stops to come. -/
structure Unplanned (m : Machine σ op pc ρ ev) : Prop where
  todo : ∃ os, m.todo = .plain os
  stack : m.stack = [] ∨ ∃ f, m.stack = [f] ∧ f.progress.plan = .nil ∧ f.progress.waiting = []

/-- A call without stops gets on. -/
theorem unplanned_settle (s : σ) (os : List op) (records : List (Record ρ ev)) {p : Progress op ρ ev}
    (hplan : p.plan = .nil) (hwaiting : p.waiting = []) (out : Outcome pc ρ) :
    Unplanned (settle sys ⟨s, [], .plain os, records⟩ p out) := by
  cases out with
  | done r => exact ⟨⟨os, rfl⟩, Or.inl rfl⟩
  | pause stage =>
    unfold settle
    dsimp only
    split
    · exact ⟨⟨os, rfl⟩, Or.inr ⟨_, rfl, hplan, hwaiting⟩⟩
    · refine ⟨⟨os, rfl⟩, Or.inr ⟨_, rfl, ?_⟩⟩
      simp [Progress.pass, hplan, Plan.stopsAt, Progress.turnTo]

theorem Unplanned.step (h : Unplanned m) : Unplanned (m.step sys) := by
  obtain ⟨s, stack, todo, records⟩ := m
  obtain ⟨⟨os, rfl⟩, rfl | ⟨f, rfl, hplan, hwaiting⟩⟩ := h
  · cases os with
    | nil => exact ⟨⟨[], rfl⟩, Or.inl rfl⟩
    | cons o os => exact unplanned_settle _ os records rfl rfl _
  · simp only [Machine.step, hwaiting]
    exact unplanned_settle _ os records (p := f.progress.witness _) hplan hwaiting _

/-- **Calls without plans** come one after the other. -/
theorem serial_plain (s : σ) (os : List op) : Serial sys (init s (.plain os)) := by
  have hall (n : Nat) : Unplanned (Machine.steps sys n (init s (.plain os))) := by
    induction n with
    | zero => exact ⟨⟨os, rfl⟩, Or.inl rfl⟩
    | succ n ih => exact ih.step
  intro n o ho
  rcases (hall n).stack with hnone | ⟨f, hf, -, hwaiting⟩
  · exact hnone
  · simp only [move, hf, hwaiting] at ho
    cases ho

/-! ## What is in progress -/

/-- At most one call is in progress, and when it has ended `P` holds. -/
inductive Heads (sys : System σ op pc ρ ev) (P : σ → Prop) (m : Machine σ op pc ρ ev) : Prop
  | idle (hnone : m.stack = []) (hP : P m.state)
  | running {stage : pc} {n : Nat} {s' : σ} {a : ρ} (hst : m.stages = [stage])
    (hf : Finishes sys.resume n (m.state, .pause stage) s' a) (hP : P s')

theorem Heads.holds (h : Heads sys P m) (hidle : m.stack = []) : P m.state := by
  cases h with
  | idle _ hP => exact hP
  | running hst =>
    rw [stages_eq_nil.mpr hidle] at hst
    cases hst

/-- A call that got as far as given is in progress, or has just ended. -/
theorem heads_of_finishes {p : σ × Outcome pc ρ} {n : Nat} {s' : σ} {a : ρ} (hs : m.state = p.1)
    (hst : m.stages = p.2.stages) (hf : Finishes sys.resume n p s' a) (hP : P s') : Heads sys P m := by
  obtain ⟨s, out⟩ := p
  obtain rfl : m.state = s := hs
  cases out with
  | pause stage => exact .running hst hf hP
  | done r =>
    cases hf
    exact .idle (stages_eq_nil.mp hst) hP

/-- A call starts that ends alone. -/
theorem heads_start {o : op} {n : Nat} {s' : σ} {a : ρ} (hidle : m.stack = []) (hm : m.move = .start o)
    (hf : Finishes sys.resume n (sys.start o m.state) s' a) (hP : P s') : Heads sys P (m.step sys) := by
  obtain ⟨hs, hst⟩ := step_start sys hm
  rw [stages_eq_nil.mpr hidle, List.append_nil] at hst
  exact heads_of_finishes hs hst hf hP

/-- The call in progress goes on, and no other one comes. -/
theorem Heads.step (h : Heads sys P m) (hm : ∀ o, m.move ≠ .start o) : Heads sys P (m.step sys) := by
  cases hmove : m.move with
  | start o => exact absurd hmove (hm o)
  | rest =>
    obtain ⟨hs, hst'⟩ := step_rest sys hmove
    cases h with
    | idle hnone hP => exact .idle (stages_eq_nil.mp (hst'.trans (stages_eq_nil.mpr hnone))) (by rw [hs]; exact hP)
    | running hst hf hP => exact .running (hst'.trans hst) (by rw [hs]; exact hf) hP
  | resume stage =>
    obtain ⟨rest, hrest, hs, hst'⟩ := step_resume sys hmove
    cases h with
    | idle hnone =>
      rw [stages_eq_nil.mpr hnone] at hrest
      cases hrest
    | running hst hf hP =>
      rw [hst] at hrest
      obtain ⟨rfl, rfl⟩ := List.cons.inj hrest
      rw [List.append_nil] at hst'
      cases hf with
      | pause hf => exact heads_of_finishes hs hst' hf hP

/-- Before each of the next `n` steps a call is in progress. -/
def Busy (sys : System σ op pc ρ ev) (m : Machine σ op pc ρ ev) (n : Nat) : Prop :=
  ∀ i < n, (steps sys i m).stages ≠ []

theorem busy_one (h : m.stages ≠ []) : Busy sys m 1 := by
  intro i hi
  obtain rfl : i = 0 := Nat.lt_one_iff.mp hi
  exact h

theorem Busy.trans {j k : Nat} (h : Busy sys m j) (h' : Busy sys (steps sys j m) k) : Busy sys m (j + k) := by
  intro i hi
  by_cases hij : i < j
  · exact h i hij
  · obtain ⟨d, rfl⟩ := Nat.exists_eq_add_of_le' (Nat.le_of_not_lt hij)
    rw [steps_add]
    exact h' d (by omega)

namespace Serial

variable (h : Serial sys m)
include h

/-- **What each call leaves behind when it is served alone** is there whenever no call is in progress. -/
theorem heads (hidle : m.stack = []) (hP : P m.state)
    (hcalls : ∀ o s, P s → ∃ n s' a, Finishes sys.resume n (sys.start o s) s' a ∧ P s') (n : Nat) :
    Heads sys P (Machine.steps sys n m) := by
  induction n with
  | zero => exact .idle hidle hP
  | succ n ih =>
    by_cases hstart : ∃ o, (Machine.steps sys n m).move = .start o
    · obtain ⟨o, ho⟩ := hstart
      have hnone := h n o ho
      obtain ⟨k, s', a, hf, hP'⟩ := hcalls o _ (ih.holds hnone)
      exact heads_start hnone ho hf hP'
    · exact ih.step fun o ho => hstart ⟨o, ho⟩

/-- **A whole call ends as it ends alone.** -/
theorem state_of_finishes {o : op} {n l : Nat} {s' : σ} {a : ρ} (hm : m.move = .start o) (hcall : IsCall sys m l)
    (hf : Finishes sys.resume n (sys.start o m.state) s' a) :
    (Machine.steps sys (l + 1) m).stack = [] ∧ (Machine.steps sys (l + 1) m).state = s' := by
  have hidle : m.stack = [] := h 0 o hm
  have hheads (i : Nat) (hi : i ≤ l) : Heads sys (· = s') (Machine.steps sys (i + 1) m) := by
    induction i with
    | zero => exact heads_start hidle hm hf rfl
    | succ i ih =>
      refine (ih (Nat.le_of_succ_le hi)).step fun o' ho' => ?_
      -- the call is in progress, so no other one starts
      have hlong := hcall.during (i + 1) (Nat.succ_pos i) hi
      rw [stages_eq_nil.mpr (h (i + 1) o' ho')] at hlong
      exact absurd hlong (Nat.not_lt_zero _)
  have hended : (Machine.steps sys (l + 1) m).stack = [] := by
    have hshort := hcall.ends
    rw [stages_eq_nil.mpr hidle] at hshort
    exact stages_eq_nil.mp (List.eq_nil_of_length_eq_zero (Nat.le_zero.mp hshort))
  exact ⟨hended, (hheads l (Nat.le_refl l)).holds hended⟩

/-- Before a call goes on it has only stops without calls to pass. -/
theorem passes_stops {f : Frame op pc ρ ev} (hstack : m.stack = [f]) : ∃ j f', Busy sys m j ∧
    (Machine.steps sys j m).stack = [f'] ∧ f'.stage = f.stage ∧ f'.progress.waiting = [] ∧
      (Machine.steps sys j m).state = m.state := by
  generalize hw : f.progress.waiting = waiting
  induction waiting generalizing m f with
  | nil => exact ⟨0, f, fun i hi => absurd hi (Nat.not_lt_zero i), hstack, rfl, hw, rfl⟩
  | cons calls waiting ih =>
    cases calls with
    | call o plan calls =>
      have hnone : m.stack = [] := h 0 o (by simp only [Machine.steps, move, hstack, hw])
      rw [hstack] at hnone
      cases hnone
    | nil =>
      have hturn : m.step sys = { m with stack := [{ f with progress := f.progress.turnTo waiting }] } := by
        simp only [Machine.step, hstack, hw]
      obtain ⟨j, f', hbusy, hstack', hstage, hnone, hs⟩ :=
        ih (h.steps 1) (congrArg Machine.stack hturn) (by cases waiting <;> rfl)
      have hfirst : Busy sys m 1 := busy_one (by simp [stages, hstack])
      refine ⟨1 + j, f', hfirst.trans hbusy, ?_, hstage, hnone, ?_⟩
      · rw [Nat.add_comm, steps_add]
        exact hstack'
      · rw [Nat.add_comm, steps_add, hs]
        show (m.step sys).state = m.state
        rw [hturn]

/-- A call that got as far as given is in progress until it ends. -/
theorem ends {p : σ × Outcome pc ρ} {n : Nat} {s' : σ} {a : ρ} (hf : Finishes sys.resume n p s' a)
    (hs : m.state = p.1) (hst : m.stages = p.2.stages) : ∃ j, Busy sys m j ∧ (Machine.steps sys j m).stages = [] := by
  induction hf generalizing m with
  | done s a => exact ⟨0, fun i hi => absurd hi (Nat.not_lt_zero i), hst⟩
  | @pause n stage s s' a hf ih =>
    subst hs
    obtain ⟨f, fs, hstack, hstage, hfs⟩ := List.map_eq_cons_iff.mp hst
    obtain rfl := List.map_eq_nil_iff.mp hfs
    obtain ⟨j, f', hbusy, hstack', hstage', hw, hs⟩ := h.passes_stops hstack
    have hm : (Machine.steps sys j m).move = .resume stage := by
      simp only [move, hstack', hw, hstage'.trans hstage]
    have hone : (Machine.steps sys j m).stages = [f'.stage] := congrArg (List.map Frame.stage) hstack'
    obtain ⟨rest, hrest, hs', hst'⟩ := step_resume sys hm
    obtain rfl := (List.cons.inj (hone.symm.trans hrest)).2
    rw [hs] at hs' hst'
    obtain ⟨k, hbusy', hended⟩ := ih (h.steps (j + 1)) hs' (hst'.trans (List.append_nil _))
    have hnow : Busy sys (Machine.steps sys j m) 1 := busy_one (by simp [hone])
    refine ⟨j + 1 + k, (hbusy.trans hnow).trans hbusy', ?_⟩
    rw [Nat.add_comm, steps_add]
    exact hended

/-- **A call that ends alone** ends. -/
theorem call_of_finishes {o : op} {n : Nat} {s' : σ} {a : ρ} (hm : m.move = .start o)
    (hf : Finishes sys.resume n (sys.start o m.state) s' a) : ∃ l, IsCall sys m l := by
  have hidle : m.stages = [] := stages_eq_nil.mpr (h 0 o hm)
  obtain ⟨hs, hst⟩ := step_start sys hm
  rw [hidle, List.append_nil] at hst
  obtain ⟨j, hduring, hended⟩ := (h.steps 1).ends hf hs hst
  refine ⟨j, ⟨o, hm⟩, fun i h₀ hi => ?_, ?_⟩
  · obtain ⟨i, rfl⟩ := Nat.exists_eq_add_one_of_ne_zero (Nat.ne_of_gt h₀)
    rw [hidle, steps_add]
    exact List.length_pos_iff.mpr (hduring i hi)
  · rw [hidle, steps_add]
    exact Nat.le_of_eq (congrArg List.length hended)

end Serial
end LeastRecent.Interleave.Machine
