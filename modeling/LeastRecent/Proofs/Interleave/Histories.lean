import LeastRecent.Proofs.Interleave.Runs

/-!
# What happened, and what one call did of it

A history lists what the steps of a run brought about, at most one thing a step (`history`).

While a call is in progress, its own stage lies right above the stages of the calls that were in progress before it, and
only those above are resumed in between. So what each stretch of its own work passes on to the next holds until the
last, with which it ends (`IsCall.traced`).
-/

namespace LeastRecent.Interleave.Machine

variable {σ op pc ρ ev β : Type} {sys : System σ op pc ρ ev} {m : Machine σ op pc ρ ev}

/-- What the first `n` steps brought about, where `f` says it of each of them. -/
def history (sys : System σ op pc ρ ev) (f : σ → Move op pc → Option β) (m : Machine σ op pc ρ ev) (n : Nat) : List β :=
  (List.range n).filterMap fun i => f (steps sys i m).state (steps sys i m).move

theorem history_succ (f : σ → Move op pc → Option β) (n : Nat) :
    history sys f m (n + 1) = history sys f m n ++ (f (steps sys n m).state (steps sys n m).move).toList := by
  rw [history, List.range_succ, List.filterMap_append, ← history, List.filterMap_cons, List.filterMap_nil]
  cases f (steps sys n m).state (steps sys n m).move <;> rfl

/-- What was brought about stays in the history. -/
theorem history_extends (f : σ → Move op pc → Option β) (n k : Nat) : history sys f m n <+: history sys f m (n + k) := by
  induction k with
  | zero => exact List.prefix_refl _
  | succ k ih =>
    rw [← Nat.add_assoc, history_succ]
    exact ih.trans (List.prefix_append _ _)

/-- What is not the same in the end was changed on the way. -/
theorem exists_change {f : Nat → β} {n : Nat} (h : f (n + 1) ≠ f 1) : ∃ j, 0 < j ∧ j < n + 1 ∧ f (j + 1) ≠ f j := by
  induction n with
  | zero => exact absurd rfl h
  | succ n ih =>
    by_cases hn : f (n + 1 + 1) = f (n + 1)
    · rw [hn] at h
      obtain ⟨j, h₀, hj, hne⟩ := ih h
      exact ⟨j, h₀, Nat.lt_succ_of_lt hj, hne⟩
    · exact ⟨n + 1, Nat.succ_pos n, Nat.lt_succ_self _, hn⟩

/-- Of at most one thing there is at most one result. -/
theorem filterMap_toList {α : Type} (x : Option α) (f : α → Option β) : x.toList.filterMap f = (x.bind f).toList := by
  cases x with
  | none => rfl
  | some a => cases h : f a <;> simp [h]

/-- The result of the call that ends when it is resumed with the next step. -/
def ending? (sys : System σ op pc ρ ev) (m : Machine σ op pc ρ ev) : Option ρ :=
  match m.move with
  | .resume stage =>
    match (sys.resume stage m.state).2 with
    | .done r => some r
    | .pause _ => none
  | _ => none

theorem ending?_resume {stage : pc} {r : ρ} (hm : m.move = .resume stage)
    (hr : (sys.resume stage m.state).2 = .done r) : ending? sys m = some r := by
  rw [ending?, hm]
  simp only [hr]

/-- After `i` steps the call that starts in `m` is about to go on itself. -/
def GoesOn (sys : System σ op pc ρ ev) (m : Machine σ op pc ρ ev) (i : Nat) : Prop :=
  ∃ stage, (steps sys i m).stages = stage :: m.stages ∧ (steps sys i m).move = .resume stage

/-- `P` holds of the call's own stage `stage` after `i + 1` steps. It is passed on if the call is suspended when it
starts, while others run, and when it goes on itself. -/
structure Passes (sys : System σ op pc ρ ev) (m : Machine σ op pc ρ ev) (P : Nat → pc → Prop) : Prop where
  start : ∀ o stage, m.move = .start o → (sys.start o m.state).2 = .pause stage → P 0 stage
  wait : ∀ i stage, P i stage → ¬GoesOn sys m (i + 1) → P (i + 1) stage
  resume : ∀ i stage stage', P i stage → (steps sys (i + 1) m).stages = stage :: m.stages →
    (steps sys (i + 1) m).move = .resume stage →
    (sys.resume stage (steps sys (i + 1) m).state).2 = .pause stage' → P (i + 1) stage'

/-- If no call goes on, this one does not. -/
theorem not_goesOn {i : Nat} (h : ∀ stage, (steps sys i m).move ≠ .resume stage) : ¬GoesOn sys m i :=
  fun ⟨stage, _, hm⟩ => h stage hm

/-- While a call is in progress, what it passes on holds of its own stage. -/
theorem IsCall.traced {n : Nat} {P : Nat → pc → Prop} (hcall : IsCall sys m n) (hp : Passes sys m P) (i : Nat)
    (hi : i < n) : ∃ above stage, (steps sys (i + 1) m).stages = above ++ stage :: m.stages ∧ P i stage := by
  induction i with
  | zero =>
    obtain ⟨o, ho⟩ := hcall.starts
    have hlong := hcall.during 1 Nat.zero_lt_one hi
    have hst : (steps sys 1 m).stages = (sys.start o m.state).2.stages ++ m.stages := (step_start sys ho).2
    rw [hst] at hlong ⊢
    cases hout : (sys.start o m.state).2 with
    | pause stage => exact ⟨[], stage, rfl, hp.start o stage ho hout⟩
    | done r =>
      rw [hout] at hlong
      exact absurd hlong (Nat.lt_irrefl _)
  | succ i ih =>
    obtain ⟨above, stage, hst, hP⟩ := ih (by omega)
    have hlong := hcall.during (i + 2) (by omega) hi
    replace hlong : m.stages.length < ((steps sys (i + 1) m).step sys).stages.length := hlong
    show ∃ above stage, ((steps sys (i + 1) m).step sys).stages = above ++ stage :: m.stages ∧ P (i + 1) stage
    cases hm : (steps sys (i + 1) m).move with
    | rest =>
      rw [(step_rest sys hm).2, hst]
      exact ⟨above, stage, rfl, hp.wait i stage hP (not_goesOn fun stage' => by simp [hm])⟩
    | start o =>
      rw [(step_start sys hm).2, hst]
      exact ⟨_ ++ above, stage, (List.append_assoc _ _ _).symm,
        hp.wait i stage hP (not_goesOn fun stage' => by simp [hm])⟩
    | resume stage' =>
      obtain ⟨rest, hrest, -, hst'⟩ := step_resume sys hm
      rw [hst'] at hlong ⊢
      rw [hst] at hrest
      cases above with
      | nil =>
        -- the call itself goes on
        obtain ⟨rfl, rfl⟩ := List.cons.inj hrest
        cases hout : (sys.resume stage (steps sys (i + 1) m).state).2 with
        | pause stage' => exact ⟨[], stage', rfl, hp.resume i stage stage' hP hst hm hout⟩
        | done r =>
          rw [hout] at hlong
          exact absurd hlong (Nat.lt_irrefl _)
      | cons stage'' above =>
        obtain ⟨rfl, rfl⟩ := List.cons.inj hrest
        refine ⟨_ ++ above, stage, (List.append_assoc _ _ _).symm, hp.wait i stage hP ?_⟩
        rintro ⟨own, hown, -⟩
        rw [hst] at hown
        have hlen := congrArg List.length hown
        simp only [List.cons_append, List.length_append, List.length_cons] at hlen
        omega

/-- A call that was suspended ends when its own stage is resumed. -/
theorem IsCall.ending {n : Nat} {P : Nat → pc → Prop} (hcall : IsCall sys m (n + 1)) (hp : Passes sys m P) :
    ∃ stage r, (steps sys (n + 1) m).move = .resume stage ∧ (steps sys (n + 1) m).stages = stage :: m.stages ∧
      (sys.resume stage (steps sys (n + 1) m).state).2 = .done r ∧ P n stage := by
  obtain ⟨above, stage, hst, hP⟩ := hcall.traced hp n (Nat.lt_succ_self n)
  have hshort := hcall.ends
  replace hshort : ((steps sys (n + 1) m).step sys).stages.length ≤ m.stages.length := hshort
  cases hm : (steps sys (n + 1) m).move with
  | rest =>
    rw [(step_rest sys hm).2, hst] at hshort
    simp only [List.length_append, List.length_cons] at hshort
    omega
  | start o =>
    rw [(step_start sys hm).2, hst] at hshort
    simp only [List.length_append, List.length_cons] at hshort
    omega
  | resume stage' =>
    obtain ⟨rest, hrest, -, hst'⟩ := step_resume sys hm
    rw [hst'] at hshort
    rw [hst] at hrest
    cases above with
    | nil =>
      obtain ⟨rfl, rfl⟩ := List.cons.inj hrest
      cases hout : (sys.resume stage (steps sys (n + 1) m).state).2 with
      | pause stage' =>
        rw [hout] at hshort
        exact absurd hshort (Nat.not_succ_le_self _)
      | done r => exact ⟨stage, r, rfl, hst, hout, hP⟩
    | cons stage'' above =>
      obtain ⟨rfl, rfl⟩ := List.cons.inj hrest
      replace hshort : (_ ++ (above ++ stage :: m.stages)).length ≤ m.stages.length := hshort
      simp only [List.length_append, List.length_cons] at hshort
      omega

/-! ## Where a call comes from -/

/-- What is in progress above `rest` after a step either started with it, or there was something above `rest` before. -/
theorem stages_before {above : List pc} {stage : pc} {rest : List pc}
    (hst : (m.step sys).stages = above ++ stage :: rest) :
    (∃ o, m.move = .start o) ∧ m.stages = rest ∨ ∃ above' stage', m.stages = above' ++ stage' :: rest := by
  cases hm : m.move with
  | rest =>
    rw [(step_rest sys hm).2] at hst
    exact Or.inr ⟨above, stage, hst⟩
  | start o =>
    rw [(step_start sys hm).2] at hst
    cases hout : (sys.start o m.state).2 with
    | done r =>
      rw [hout] at hst
      exact Or.inr ⟨above, stage, hst⟩
    | pause new =>
      rw [hout] at hst
      cases above with
      | nil => exact Or.inl ⟨⟨o, rfl⟩, (List.cons.inj hst).2⟩
      | cons stage' above => exact Or.inr ⟨above, stage, (List.cons.inj hst).2⟩
  | resume old =>
    obtain ⟨below, hold, -, hnext⟩ := step_resume sys hm
    rw [hnext] at hst
    cases hout : (sys.resume old m.state).2 with
    | done r =>
      rw [hout] at hst
      replace hst : below = above ++ stage :: rest := hst
      exact Or.inr ⟨old :: above, stage, by rw [hold, hst]; rfl⟩
    | pause new =>
      rw [hout] at hst
      cases above with
      | nil =>
        obtain ⟨-, rfl⟩ := List.cons.inj hst
        exact Or.inr ⟨[], old, hold⟩
      | cons stage' above =>
        have hbelow : below = above ++ stage :: rest := (List.cons.inj hst).2
        exact Or.inr ⟨old :: above, stage, by rw [hold, hbelow]; rfl⟩

/-- A call in progress started with some step, and has been in progress since, above the calls that were so before. -/
theorem exists_start (h₀ : m.stages = []) (n : Nat) : ∀ {above : List pc} {stage : pc} {rest : List pc},
    (steps sys n m).stages = above ++ stage :: rest → ∃ i < n, (∃ o, (steps sys i m).move = .start o) ∧
      (steps sys i m).stages = rest ∧ ∀ j, i < j → j ≤ n → rest.length < (steps sys j m).stages.length := by
  induction n with
  | zero =>
    intro above stage rest hst
    have hnone : [] = above ++ stage :: rest := h₀.symm.trans hst
    simp at hnone
  | succ n ih =>
    intro above stage rest hst
    have hlast : rest.length < (steps sys (n + 1) m).stages.length := by
      rw [hst, List.length_append, List.length_cons]
      omega
    obtain ⟨hstart, hrest⟩ | ⟨above', stage', hbefore⟩ := stages_before (m := steps sys n m) hst
    · refine ⟨n, Nat.lt_succ_self n, hstart, hrest, fun j hj hle => ?_⟩
      obtain rfl : j = n + 1 := by omega
      exact hlast
    · obtain ⟨i, hi, hstart, hrest, hlong⟩ := ih hbefore
      refine ⟨i, Nat.lt_succ_of_lt hi, hstart, hrest, fun j hj hle => ?_⟩
      rcases Nat.lt_or_eq_of_le hle with hlt | rfl
      · exact hlong j hj (Nat.le_of_lt_succ hlt)
      · exact hlast

/-- A call that ends with the next step is a whole call. -/
theorem exists_call (h₀ : m.stages = []) {n : Nat} {stage : pc} {r : ρ} (hm : (steps sys n m).move = .resume stage)
    (hr : (sys.resume stage (steps sys n m).state).2 = .done r) : ∃ i k, i + k = n ∧ 0 < k ∧
      IsCall sys (steps sys i m) k ∧ (steps sys n m).stages = stage :: (steps sys i m).stages := by
  obtain ⟨below, hst, -, hnext⟩ := step_resume sys hm
  obtain ⟨i, hi, hstart, hbelow, hlong⟩ := exists_start h₀ n (hst.trans (List.nil_append _).symm)
  obtain ⟨k, rfl⟩ := Nat.exists_eq_add_of_lt hi
  have hsteps (j : Nat) : steps sys j (steps sys i m) = steps sys (i + j) m := by rw [← steps_add, Nat.add_comm]
  refine ⟨i, k + 1, rfl, Nat.succ_pos k, ⟨hstart, fun j h₁ hj => ?_, ?_⟩, by rw [hst, hbelow]⟩
  · rw [hsteps, hbelow]
    exact hlong (i + j) (by omega) (by omega)
  · have hended : (steps sys (i + k + 1 + 1) m).stages = below := by
      rw [hr] at hnext
      exact hnext
    rw [hsteps, hbelow, ← hended]
    exact Nat.le_refl _

end LeastRecent.Interleave.Machine
