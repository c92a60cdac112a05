import LeastRecent.Interleave.Machine

/-!
# Runs of the machine

The moments of a session are the machines `steps sys n (init s script)`. A step makes a call, lets the running call go
on, or only puts records and plans in order (`Move`); of the machine it changes the state and the stages of the calls in
progress as the system says (`step_rest`, `step_start`, `step_resume`).

An invariant may speak of the state, of the calls in progress, and of the state in which each of them started
(`Guarded`). It then holds at every moment (`Guarded.steps`), and what it says of a call that ends it says of the two
states between which the whole call ran, with all that came between (`Guarded.whole_call`).
-/

namespace LeastRecent.Interleave

variable {σ op pc ρ ev : Type}

/-- What a step does. -/
inductive Move (op pc : Type)
  /-- Records and plans are put in order; nothing happens. -/
  | rest
  | start (o : op)
  | resume (stage : pc)

/-- The stage at which a call is suspended, if it did not end. -/
def Outcome.stages : Outcome pc ρ → List pc
  | .pause stage => [stage]
  | .done _ => []

namespace Machine

/-- What the next step does. -/
def move (m : Machine σ op pc ρ ev) : Move op pc :=
  match m.stack with
  | [] =>
    match m.todo with
    | .nil => .rest
    | .call o _ _ => .start o
  | f :: _ =>
    match f.progress.waiting with
    | .call o _ _ :: _ => .start o
    | .nil :: _ => .rest
    | [] => .resume f.stage

/-- The stages of the calls in progress, the running one first. -/
def stages (m : Machine σ op pc ρ ev) : List pc := m.stack.map Frame.stage

variable (sys : System σ op pc ρ ev)

/-- The machine after so many steps. -/
def steps : Nat → Machine σ op pc ρ ev → Machine σ op pc ρ ev
  | 0, m => m
  | n + 1, m => (steps n m).step sys

variable {sys} {m : Machine σ op pc ρ ev}

theorem steps_add (k n : Nat) : steps sys (k + n) m = steps sys k (steps sys n m) := by
  induction k with
  | zero => rw [Nat.zero_add]; rfl
  | succ k ih => rw [Nat.succ_add]; exact congrArg (step sys) ih

/-- A run up to a bound is that many steps: a finished machine stays as it is. -/
theorem run_eq_steps : ∀ (fuel : Nat) (m : Machine σ op pc ρ ev), run sys fuel m = steps sys fuel m
  | 0, _ => rfl
  | fuel + 1, m => by
    have hs : steps sys (fuel + 1) m = steps sys fuel (m.step sys) := steps_add fuel 1
    rw [hs, ← run_eq_steps fuel]
    show (if m.finished then m else run sys fuel (m.step sys)) = _
    split
    · next hf =>
      rw [step_finished sys hf]
      cases fuel with
      | zero => rfl
      | succ fuel => rw [run, if_pos hf]
    · rfl

/-! ## What a step does -/

theorem deliver_state (m : Machine σ op pc ρ ev) (r : Record ρ ev) :
    (m.deliver r).state = m.state ∧ (m.deliver r).stages = m.stages := by
  unfold deliver stages
  split
  · next h => simp [h]
  · next h => simp [h]

theorem settle_state (m : Machine σ op pc ρ ev) (p : Progress op ρ ev) (out : Outcome pc ρ) :
    (m.settle sys p out).state = m.state ∧ (m.settle sys p out).stages = out.stages ++ m.stages := by
  unfold settle
  cases out with
  | done r => exact deliver_state m _
  | pause stage =>
    dsimp only
    split <;> exact ⟨rfl, rfl⟩

theorem step_rest (sys : System σ op pc ρ ev) (h : m.move = .rest) :
    (m.step sys).state = m.state ∧ (m.step sys).stages = m.stages := by
  unfold move at h
  unfold step stages
  cases hs : m.stack with
  | nil =>
    rw [hs] at h
    cases ht : m.todo with
    | nil => simp [hs]
    | call o plan rest => rw [ht] at h; cases h
  | cons f fs =>
    rw [hs] at h
    cases hw : f.progress.waiting with
    | nil => simp only [hw] at h; cases h
    | cons calls rest =>
      cases calls with
      | nil => simp [hw]
      | call o plan calls => simp only [hw] at h; cases h

theorem step_start (sys : System σ op pc ρ ev) {o : op} (h : m.move = .start o) :
    (m.step sys).state = (sys.start o m.state).1 ∧
      (m.step sys).stages = (sys.start o m.state).2.stages ++ m.stages := by
  unfold move at h
  cases hs : m.stack with
  | nil =>
    rw [hs] at h
    cases ht : m.todo with
    | nil => rw [ht] at h; cases h
    | call o' plan rest =>
      rw [ht] at h
      cases h
      have he : m.step sys = enter sys { m with todo := rest } o plan := by simp only [step, hs, ht]
      rw [he]
      exact settle_state { m with state := (sys.start o m.state).1, todo := rest } _ _
  | cons f fs =>
    rw [hs] at h
    cases hw : f.progress.waiting with
    | nil => simp only [hw] at h; cases h
    | cons calls rest =>
      cases calls with
      | nil => simp only [hw] at h; cases h
      | call o' plan calls =>
        simp only [hw] at h
        cases h
        have he : m.step sys = enter sys
            { m with stack := { f with progress := { f.progress with waiting := calls :: rest } } :: fs } o plan := by
          simp only [step, hs, hw]
        have hst : m.stages = f.stage :: fs.map Frame.stage := by rw [stages, hs]; rfl
        rw [he, hst]
        exact settle_state
          { m with
            state := (sys.start o m.state).1
            stack := { f with progress := { f.progress with waiting := calls :: rest } } :: fs } _ _

theorem step_resume (sys : System σ op pc ρ ev) {stage : pc} (h : m.move = .resume stage) :
    ∃ rest, m.stages = stage :: rest ∧ (m.step sys).state = (sys.resume stage m.state).1 ∧
      (m.step sys).stages = (sys.resume stage m.state).2.stages ++ rest := by
  unfold move at h
  cases hs : m.stack with
  | nil =>
    rw [hs] at h
    cases ht : m.todo with
    | nil => rw [ht] at h; cases h
    | call o plan rest => rw [ht] at h; cases h
  | cons f fs =>
    rw [hs] at h
    cases hw : f.progress.waiting with
    | cons calls rest =>
      cases calls with
      | nil => simp only [hw] at h; cases h
      | call o plan calls => simp only [hw] at h; cases h
    | nil =>
      simp only [hw] at h
      cases h
      have he : m.step sys = settle sys { m with state := (sys.resume f.stage m.state).1, stack := fs }
          (f.progress.witness (sys.events m.state (sys.resume f.stage m.state).1)) (sys.resume f.stage m.state).2 := by
        simp only [step, hs, hw]
      refine ⟨fs.map Frame.stage, by rw [stages, hs]; rfl, ?_⟩
      rw [he]
      exact settle_state { m with state := (sys.resume f.stage m.state).1, stack := fs } _ _

/-! ## Invariants -/

/-- The next `n + 1` steps are one whole call, with all that comes between: it starts with the first of them, is in
progress after each but the last, and has ended then. -/
structure IsCall (sys : System σ op pc ρ ev) (m : Machine σ op pc ρ ev) (n : Nat) : Prop where
  starts : ∃ o, m.move = .start o
  during : ∀ i, 0 < i → i ≤ n → m.stages.length < (steps sys i m).stages.length
  ends : (steps sys (n + 1) m).stages.length ≤ m.stages.length

/-- A call that started in `s₀` has got on: `K` holds of what is in progress then, and `Q` of a call that has ended. -/
def Settled (K : σ → List (σ × pc) → Prop) (Q : σ → σ → Prop) (s₀ : σ) (calls : List (σ × pc)) :
    σ × Outcome pc ρ → Prop
  | (s, .pause stage) => K s ((s₀, stage) :: calls)
  | (s, .done _) => Q s₀ s ∧ K s calls

/-- `K` speaks of the state and of the calls in progress, each with the state in which it started. It is kept by all
that a call does, and a call that ends then has `Q`. -/
structure Guarded (sys : System σ op pc ρ ev) (K : σ → List (σ × pc) → Prop) (Q : σ → σ → Prop) : Prop where
  start : ∀ o s calls, K s calls → Settled K Q s calls (sys.start o s)
  resume : ∀ stage s s₀ calls, K s ((s₀, stage) :: calls) → Settled K Q s₀ calls (sys.resume stage s)

namespace Guarded

variable {K : σ → List (σ × pc) → Prop} {Q : σ → σ → Prop} (g : Guarded sys K Q) {calls : List (σ × pc)}
include g

theorem step_start {o : op} (hm : m.move = .start o) (hk : K m.state calls) :
    (∃ stage, K (m.step sys).state ((m.state, stage) :: calls) ∧ stage :: m.stages = (m.step sys).stages) ∨
      Q m.state (m.step sys).state ∧ K (m.step sys).state calls ∧ m.stages = (m.step sys).stages := by
  obtain ⟨hs, ht⟩ := Machine.step_start sys hm
  have h := g.start o m.state calls hk
  rw [hs, ht]
  cases hr : sys.start o m.state with
  | mk s out =>
    rw [hr] at h
    cases out with
    | pause stage => exact Or.inl ⟨stage, h, rfl⟩
    | done r => exact Or.inr ⟨h.1, h.2, rfl⟩

theorem step_resume {stage : pc} (hm : m.move = .resume stage) (hk : K m.state calls)
    (hc : calls.map Prod.snd = m.stages) : ∃ s₀ rest, calls = (s₀, stage) :: rest ∧
    ((∃ stage', K (m.step sys).state ((s₀, stage') :: rest) ∧ stage' :: rest.map Prod.snd = (m.step sys).stages) ∨
      Q s₀ (m.step sys).state ∧ K (m.step sys).state rest ∧ rest.map Prod.snd = (m.step sys).stages) := by
  obtain ⟨stages, hst, hs, ht⟩ := Machine.step_resume sys hm
  cases calls with
  | nil => rw [hst] at hc; cases hc
  | cons call rest =>
    obtain ⟨s₀, stage₀⟩ := call
    rw [hst] at hc
    obtain ⟨rfl, rfl⟩ := List.cons.inj hc
    refine ⟨s₀, rest, rfl, ?_⟩
    have h := g.resume stage₀ m.state s₀ rest hk
    rw [hs, ht]
    cases hr : sys.resume stage₀ m.state with
    | mk s out =>
      rw [hr] at h
      cases out with
      | pause stage => exact Or.inl ⟨stage, h, rfl⟩
      | done r => exact Or.inr ⟨h.1, h.2, rfl⟩

/-- What is kept by each stretch of work holds at every moment. -/
theorem steps (hk : K m.state calls) (hc : calls.map Prod.snd = m.stages) : ∀ n,
    ∃ calls', K (steps sys n m).state calls' ∧ calls'.map Prod.snd = (Machine.steps sys n m).stages
  | 0 => ⟨calls, hk, hc⟩
  | n + 1 => by
    obtain ⟨calls₁, hk₁, hc₁⟩ := Guarded.steps hk hc n
    show ∃ calls', K ((Machine.steps sys n m).step sys).state calls' ∧ _ = ((Machine.steps sys n m).step sys).stages
    cases hm : (Machine.steps sys n m).move with
    | rest =>
      obtain ⟨hs, ht⟩ := Machine.step_rest sys hm
      exact ⟨calls₁, by rw [hs]; exact hk₁, by rw [ht]; exact hc₁⟩
    | start o =>
      rcases g.step_start hm hk₁ with ⟨stage, hk₂, hc₂⟩ | ⟨-, hk₂, hc₂⟩
      · exact ⟨_, hk₂, by rw [← hc₂, ← hc₁]; rfl⟩
      · exact ⟨_, hk₂, by rw [← hc₂, hc₁]⟩
    | resume stage =>
      obtain ⟨s₀, rest, -, ⟨stage', hk₂, hc₂⟩ | ⟨-, hk₂, hc₂⟩⟩ := g.step_resume hm hk₁ hc₁
      · exact ⟨_, hk₂, hc₂⟩
      · exact ⟨_, hk₂, hc₂⟩

/-- While a whole call is in progress, the state in which it started is found below the calls that interrupt it. -/
theorem during {n : Nat} (hcall : IsCall sys m n) (hk : K m.state calls) (hc : calls.map Prod.snd = m.stages) :
    ∀ i, i < n → ∃ above stage, K (Machine.steps sys (i + 1) m).state (above ++ (m.state, stage) :: calls) ∧
      (above ++ (m.state, stage) :: calls).map Prod.snd = (Machine.steps sys (i + 1) m).stages
  | 0, hi => by
    obtain ⟨o, ho⟩ := hcall.starts
    rcases g.step_start ho hk with ⟨stage, hk₁, hc₁⟩ | ⟨-, -, hc₁⟩
    · exact ⟨[], stage, hk₁, by rw [List.nil_append, List.map_cons, hc]; exact hc₁⟩
    · have := hcall.during 1 (Nat.zero_lt_one) hi
      have he : (Machine.steps sys 1 m).stages = m.stages := hc₁.symm
      rw [he] at this
      omega
  | i + 1, hi => by
    obtain ⟨above, stage, hk₁, hc₁⟩ := during hcall hk hc i (by omega)
    have hlong := hcall.during (i + 2) (by omega) hi
    rw [← hc, List.length_map] at hlong
    show ∃ above stage, K ((Machine.steps sys (i + 1) m).step sys).state (above ++ (m.state, stage) :: calls) ∧
      _ = ((Machine.steps sys (i + 1) m).step sys).stages
    replace hlong : calls.length < ((Machine.steps sys (i + 1) m).step sys).stages.length := hlong
    cases hm : (Machine.steps sys (i + 1) m).move with
    | rest =>
      obtain ⟨hs, ht⟩ := Machine.step_rest sys hm
      exact ⟨above, stage, by rw [hs]; exact hk₁, by rw [ht]; exact hc₁⟩
    | start o =>
      rcases g.step_start hm hk₁ with ⟨stage', hk₂, hc₂⟩ | ⟨-, hk₂, hc₂⟩
      · exact ⟨_ :: above, stage, hk₂, by rw [← hc₂, ← hc₁]; rfl⟩
      · exact ⟨above, stage, hk₂, by rw [← hc₂, hc₁]⟩
    | resume stage' =>
      obtain ⟨s₀, rest, he, hcases⟩ := g.step_resume hm hk₁ hc₁
      cases above with
      | nil =>
        obtain ⟨he₁, rfl⟩ := List.cons.inj he
        cases he₁
        rcases hcases with ⟨stage'', hk₂, hc₂⟩ | ⟨-, -, hc₂⟩
        · exact ⟨[], stage'', hk₂, hc₂⟩
        · rw [← hc₂, List.length_map] at hlong
          omega
      | cons call above =>
        obtain ⟨rfl, rfl⟩ := List.cons.inj he
        rcases hcases with ⟨stage'', hk₂, hc₂⟩ | ⟨-, hk₂, hc₂⟩
        · exact ⟨(s₀, stage'') :: above, stage, hk₂, hc₂⟩
        · exact ⟨above, stage, hk₂, hc₂⟩

/-- A whole call, with all that comes between, leads from the state in which it started to one that has `Q`. -/
theorem whole_call {n : Nat} (hcall : IsCall sys m n) (hk : K m.state calls) (hc : calls.map Prod.snd = m.stages) :
    Q m.state (Machine.steps sys (n + 1) m).state := by
  have hshort := hcall.ends
  rw [← hc, List.length_map] at hshort
  cases n with
  | zero =>
    obtain ⟨o, ho⟩ := hcall.starts
    rcases g.step_start ho hk with ⟨stage, -, hc₁⟩ | ⟨hq, -⟩
    · replace hshort : (m.step sys).stages.length ≤ calls.length := hshort
      rw [← hc₁, List.length_cons, ← hc, List.length_map] at hshort
      omega
    · exact hq
  | succ i =>
    obtain ⟨above, stage, hk₁, hc₁⟩ := g.during hcall hk hc i (by omega)
    show Q m.state ((Machine.steps sys (i + 1) m).step sys).state
    replace hshort : ((Machine.steps sys (i + 1) m).step sys).stages.length ≤ calls.length := hshort
    -- the last step took a frame away, which only the end of a call does
    have hlen : (Machine.steps sys (i + 1) m).stages.length = above.length + (calls.length + 1) := by
      rw [← hc₁, List.length_map, List.length_append, List.length_cons]
    cases hm : (Machine.steps sys (i + 1) m).move with
    | rest =>
      rw [(Machine.step_rest sys hm).2] at hshort
      omega
    | start o =>
      rcases g.step_start hm hk₁ with ⟨stage', -, hc₂⟩ | ⟨-, -, hc₂⟩
      · rw [← hc₂, List.length_cons] at hshort
        omega
      · rw [← hc₂] at hshort
        omega
    | resume stage' =>
      obtain ⟨s₀, rest, he, hcases⟩ := g.step_resume hm hk₁ hc₁
      have hrest : above.length + (calls.length + 1) = rest.length + 1 := by
        rw [← List.length_cons, ← List.length_append, he, List.length_cons]
      rcases hcases with ⟨stage'', -, hc₂⟩ | ⟨hq, -, hc₂⟩
      · rw [← hc₂, List.length_cons, List.length_map] at hshort
        omega
      · rw [← hc₂, List.length_map] at hshort
        have ha : above = [] := List.eq_nil_of_length_eq_zero (by omega)
        rw [ha] at he
        cases (List.cons.inj he).1
        exact hq

end Guarded

end Machine
end LeastRecent.Interleave
