import LeastRecent.Proofs.Interleave.Plain

/-!
# A call that harmless calls interrupt

A call is harmless if it ends after one pause at most, whatever comes between, and changes the state only as a relation
allows that is reflexive and transitive (`Harmless`). So whatever harmless calls are made at a point, the call that waits
there goes on in a state that is related to the one that it left (`Harmless.returns_stops`).

An invariant of a call is steadfast (`Steadfast`) if related states keep it, every stage keeps it or ends the call as it
should, and a rank falls from stage to stage, which only interruptions may raise again, up to a bound. Then the call ends
as it should in the time allowed, whatever harmless calls are made at its points (`Steadfast.session_ends`).
-/

namespace LeastRecent.Interleave

variable {σ op pc ρ ev : Type}

/-! ## Scripts of one kind of calls -/

mutual
/-- All calls of the script, interruptions included, are of the kind `P`. -/
def Script.All (P : op → Prop) : Script op → Prop
  | .nil => True
  | .call o plan rest => P o ∧ plan.All P ∧ rest.All P

/-- All calls of the plan are of the kind `P`. -/
def Plan.All (P : op → Prop) : Plan op → Prop
  | .nil => True
  | .stop _ calls rest => calls.All P ∧ rest.All P
end

/-- The number of calls and stops, each of the scripts being a stop. -/
def load : List (Script op) → Nat
  | [] => 0
  | calls :: rest => 1 + calls.weight + load rest

/-- The number of calls and stops from point `m` on. -/
def Plan.ahead (m : Nat) : Plan op → Nat
  | .nil => 0
  | .stop n calls rest => (if m ≤ n then 1 + calls.weight else 0) + rest.ahead m

theorem Plan.ahead_le_weight (m : Nat) : ∀ plan : Plan op, plan.ahead m ≤ plan.weight
  | .nil => Nat.le_refl _
  | .stop n calls rest => by
    have ih := rest.ahead_le_weight m
    rw [ahead, weight]
    split <;> omega

/-- What is ahead of a point is done there or ahead of the next one. -/
theorem Plan.load_stopsAt (m : Nat) : ∀ plan : Plan op, load (plan.stopsAt m) + plan.ahead (m + 1) = plan.ahead m
  | .nil => rfl
  | .stop n calls rest => by
    have ih := rest.load_stopsAt m
    rw [stopsAt, ahead, ahead]
    by_cases h : n = m
    · rw [if_pos h, if_neg (by omega), if_pos (by omega), load]
      omega
    · rw [if_neg h]
      by_cases hm : m ≤ n
      · rw [if_pos (by omega), if_pos hm]
        omega
      · rw [if_neg (by omega), if_neg hm]
        omega

/-- The stops of a plan are of the kind that it is of. -/
theorem Plan.All.stopsAt {P : op → Prop} (m : Nat) :
    ∀ {plan : Plan op}, plan.All P → ∀ calls ∈ plan.stopsAt m, calls.All P
  | .nil, _, calls, hc => by cases hc
  | .stop n calls₁ rest, h, calls, hc => by
    rw [Plan.All] at h
    rw [Plan.stopsAt] at hc
    split at hc
    · rcases List.mem_cons.mp hc with rfl | hc
      · exact h.1
      · exact Plan.All.stopsAt m h.2 calls hc
    · exact Plan.All.stopsAt m h.2 calls hc

/-! ## Progress of a call -/

namespace Progress

variable (p : Progress op ρ ev)

theorem attach_eq (r : Record ρ ev) :
    (p.attach r).plan = p.plan ∧ (p.attach r).points = p.points ∧ (p.attach r).waiting = p.waiting := by
  unfold attach
  split <;> exact ⟨rfl, rfl, rfl⟩

theorem turnTo_eq (stops : List (Script op)) :
    (p.turnTo stops).plan = p.plan ∧ (p.turnTo stops).points = p.points ∧ (p.turnTo stops).waiting = stops := by
  cases stops <;> exact ⟨rfl, rfl, rfl⟩

/-- The calls and stops that are still to come. -/
def remaining : Nat := load p.waiting + p.plan.ahead p.points.length

/-- All calls that are still to come are of the kind `P`. -/
def All (P : op → Prop) : Prop := p.plan.All P ∧ ∀ calls ∈ p.waiting, calls.All P

/-- At a point the stops planned for it are what is waited for. -/
theorem pass_eq (x : Point) :
    (p.pass x).plan = p.plan ∧ (p.pass x).points = p.points ++ [x] ∧
      (p.pass x).waiting = p.plan.stopsAt p.points.length :=
  turnTo_eq { p with points := p.points ++ [x] } _

/-- To pass a point is not to do anything that is to come. -/
theorem remaining_pass (x : Point) (hw : p.waiting = []) : (p.pass x).remaining = p.remaining := by
  obtain ⟨hplan, hpoints, hwaiting⟩ := p.pass_eq x
  rw [remaining, remaining, hplan, hpoints, hwaiting, hw, List.length_append, ← p.plan.load_stopsAt p.points.length,
    load, Nat.zero_add]
  rfl

/-- A call that comes to a stage without stops left at the last point. -/
theorem settle_pause {P : op → Prop} (sys : System σ op pc ρ ev) (m : Machine σ op pc ρ ev) (stage : pc)
    (hw : p.waiting = []) (hp : p.plan.All P) :
    ∃ p' : Progress op ρ ev, m.settle sys p (.pause stage) = { m with stack := ⟨stage, p'⟩ :: m.stack } ∧
      p'.remaining = p.remaining ∧ p'.All P := by
  unfold Machine.settle
  dsimp only
  split
  · exact ⟨p, rfl, rfl, hp, fun calls hc => by rw [hw] at hc; cases hc⟩
  · next x _ =>
    obtain ⟨hplan, -, hwaiting⟩ := p.pass_eq x
    refine ⟨p.pass x, rfl, p.remaining_pass x hw, by rw [hplan]; exact hp, ?_⟩
    rw [hwaiting]
    exact hp.stopsAt _

end Progress

namespace Machine

variable {sys : System σ op pc ρ ev} {f : Frame op pc ρ ev} {fs : List (Frame op pc ρ ev)} {s : σ} {todo : Script op}
  {records : List (Record ρ ev)}

/-! ## One step -/

/-- A call is made at the point at which the call on top waits. -/
theorem step_call {o : op} {plan : Plan op} {calls : Script op} {rest : List (Script op)}
    (hw : f.progress.waiting = .call o plan calls :: rest) :
    step sys ⟨s, f :: fs, todo, records⟩ =
      settle sys ⟨(sys.start o s).1, { f with progress := { f.progress with waiting := calls :: rest } } :: fs, todo,
        records⟩ ((Progress.begin plan).witness (sys.events s (sys.start o s).1)) (sys.start o s).2 := by
  simp only [step, hw]
  rfl

theorem step_turn {rest : List (Script op)} (hw : f.progress.waiting = .nil :: rest) :
    step sys ⟨s, f :: fs, todo, records⟩ =
      ⟨s, { f with progress := f.progress.turnTo rest } :: fs, todo, records⟩ := by
  simp only [step, hw]

theorem step_on (hw : f.progress.waiting = []) :
    step sys ⟨s, f :: fs, todo, records⟩ =
      settle sys ⟨(sys.resume f.stage s).1, fs, todo, records⟩
        (f.progress.witness (sys.events s (sys.resume f.stage s).1)) (sys.resume f.stage s).2 := by
  simp only [step, hw]

/-! ## Harmless calls -/

/-- Calls of the kind `P` end after one pause at most, and change the state only as `W` allows. -/
structure Harmless (sys : System σ op pc ρ ev) (P : op → Prop) (W : σ → σ → Prop) : Prop where
  refl : ∀ s, W s s
  trans : ∀ {s s' s''}, W s s' → W s' s'' → W s s''
  start : ∀ o s, P o → W s (sys.start o s).1
  resume : ∀ o s stage, P o → (sys.start o s).2 = .pause stage →
    ∀ s', W s' (sys.resume stage s').1 ∧ ∃ a, (sys.resume stage s').2 = .done a

/-- The frame `f'` is `f` but for records, with the stops `waiting` left at its point. -/
structure Waits (f f' : Frame op pc ρ ev) (waiting : List (Script op)) : Prop where
  stage : f'.stage = f.stage
  plan : f'.progress.plan = f.progress.plan
  points : f'.progress.points = f.progress.points
  waiting : f'.progress.waiting = waiting

/-- Within `n` steps the frame on top, which is `f` in the state `s`, is back on top with the stops `waiting` left, and the
state is related to `s`. -/
def Returns (sys : System σ op pc ρ ev) (W : σ → σ → Prop) (n : Nat) (s : σ) (f : Frame op pc ρ ev)
    (waiting : List (Script op)) : Prop :=
  ∀ fs todo records, ∃ k s' f', k ≤ n ∧
    steps sys k ⟨s, f :: fs, todo, records⟩ = ⟨s', f' :: fs, todo, records⟩ ∧ W s s' ∧ Waits f f' waiting

theorem Returns.mono {W : σ → σ → Prop} {n m : Nat} {w : List (Script op)} (h : Returns sys W n s f w) (hn : n ≤ m) :
    Returns sys W m s f w := by
  intro fs todo records
  obtain ⟨k, s', f', hk, hsteps⟩ := h fs todo records
  exact ⟨k, s', f', Nat.le_trans hk hn, hsteps⟩

/-- The result of a call goes to the call that waits for it. -/
theorem waits_attach (f : Frame op pc ρ ev) (waiting : List (Script op)) (r : Record ρ ev) :
    Waits f { f with progress := { f.progress with waiting := waiting }.attach r } waiting := by
  obtain ⟨hplan, hpoints, hwaiting⟩ := Progress.attach_eq { f.progress with waiting := waiting } r
  exact ⟨rfl, hplan, hpoints, hwaiting⟩

theorem waits_turnTo (f : Frame op pc ρ ev) (waiting : List (Script op)) :
    Waits f { f with progress := f.progress.turnTo waiting } waiting := by
  obtain ⟨hplan, hpoints, hwaiting⟩ := f.progress.turnTo_eq waiting
  exact ⟨rfl, hplan, hpoints, hwaiting⟩

namespace Harmless

variable {P : op → Prop} {W : σ → σ → Prop} (h : Harmless sys P W)
include h

/-- With no stop left the frame is there. -/
theorem returns_refl (s : σ) {f : Frame op pc ρ ev} {w : List (Script op)} (hw : f.progress.waiting = w) :
    Returns sys W 0 s f w :=
  fun _ _ _ => ⟨0, s, f, Nat.le_refl _, rfl, h.refl s, rfl, rfl, rfl, hw⟩

/-- One stop after another. -/
theorem returns_trans {n m : Nat} {w₁ w : List (Script op)} (h₁ : Returns sys W n s f w₁)
    (h₂ : ∀ s' f', f'.progress.waiting = w₁ → Returns sys W m s' f' w) : Returns sys W (n + m) s f w := by
  intro fs todo records
  obtain ⟨k₁, s₁, f₁, hk₁, hsteps₁, hs₁, hf₁⟩ := h₁ fs todo records
  obtain ⟨k₂, s₂, f₂, hk₂, hsteps₂, hs₂, hf₂⟩ := h₂ s₁ f₁ hf₁.waiting fs todo records
  refine ⟨k₂ + k₁, s₂, f₂, by omega, ?_, h.trans hs₁ hs₂, hf₂.stage.trans hf₁.stage, hf₂.plan.trans hf₁.plan,
    hf₂.points.trans hf₁.points, hf₂.waiting⟩
  rw [steps_add, hsteps₁, hsteps₂]

/-- A harmless call is made and ends, if its own interruptions do. -/
theorem returns_call {o : op} {plan : Plan op} {calls : Script op} {rest : List (Script op)} (ho : P o)
    (hplan : plan.All P) (hw : f.progress.waiting = .call o plan calls :: rest)
    (hstops : ∀ w, load w ≤ plan.weight → (∀ calls ∈ w, calls.All P) → ∀ s g, g.progress.waiting = w →
      Returns sys W (3 * load w) s g []) :
    Returns sys W (3 * plan.weight + 2) s f (calls :: rest) := by
  intro fs todo records
  have hstart := h.start o s ho
  let f₁ : Frame op pc ρ ev := { f with progress := { f.progress with waiting := calls :: rest } }
  let p : Progress op ρ ev := (Progress.begin plan).witness (sys.events s (sys.start o s).1)
  have hcall : step sys ⟨s, f :: fs, todo, records⟩ =
      settle sys ⟨(sys.start o s).1, f₁ :: fs, todo, records⟩ p (sys.start o s).2 := step_call hw
  cases hout : (sys.start o s).2 with
  | done a =>
    refine ⟨1, (sys.start o s).1, _, by omega, ?_, hstart, waits_attach f (calls :: rest) (p.record a)⟩
    show step sys ⟨s, f :: fs, todo, records⟩ = _
    rw [hcall, hout]
    rfl
  | pause stage =>
    obtain ⟨p', hset, hremaining, hall⟩ :=
      p.settle_pause sys ⟨(sys.start o s).1, f₁ :: fs, todo, records⟩ stage rfl hplan
    have hload : load p'.waiting ≤ plan.weight := by
      have hahead : p.remaining = plan.ahead 0 := Nat.zero_add _
      have hle := plan.ahead_le_weight 0
      have hsum : p'.remaining = load p'.waiting + p'.plan.ahead p'.points.length := rfl
      omega
    obtain ⟨k, s', g, hk, hsteps, hs', hg⟩ :=
      hstops p'.waiting hload hall.2 (sys.start o s).1 ⟨stage, p'⟩ rfl (f₁ :: fs) todo records
    have hstage : g.stage = stage := hg.stage
    obtain ⟨hs₂, a, ha⟩ := h.resume o s stage ho hout s'
    refine ⟨1 + (k + 1), (sys.resume stage s').1, _, by omega, ?_, h.trans hstart (h.trans hs' hs₂),
      waits_attach f (calls :: rest) ((g.progress.witness (sys.events s' (sys.resume stage s').1)).record a)⟩
    rw [steps_add, steps_add k 1]
    show step sys (steps sys k (step sys ⟨s, f :: fs, todo, records⟩)) = _
    rw [hcall, hout, hset, hsteps, step_on hg.waiting, hstage, ha]
    rfl

/-- **Whatever harmless calls are made at a point**, the call that waits there is back. -/
theorem returns_stops : ∀ (n : Nat) (w : List (Script op)), load w ≤ n → (∀ calls ∈ w, calls.All P) → ∀ s f,
    f.progress.waiting = w → Returns sys W (3 * load w) s f []
  -- by recursion on the load, for a call that is made takes the load of its own plan with it
  | _, [], _, _, s, _, hw => h.returns_refl s hw
  | 0, calls :: rest, hn, _, _, _, _ => by
    rw [load] at hn
    omega
  | n + 1, .nil :: rest, hn, hall, s, f, hw => by
    rw [load, Script.weight] at hn ⊢
    have hturn : Returns sys W 1 s f rest := fun fs todo records =>
      ⟨1, s, _, Nat.le_refl _, step_turn hw, h.refl s, waits_turnTo f rest⟩
    have hrest := h.returns_trans hturn
      (returns_stops n rest (by omega) fun calls hc => hall calls (List.mem_cons_of_mem _ hc))
    exact hrest.mono (by omega)
  | n + 1, .call o plan calls :: rest, hn, hall, s, f, hw => by
    obtain ⟨ho, hplan, hcalls⟩ := hall _ List.mem_cons_self
    have hload : load (.call o plan calls :: rest) = 1 + plan.weight + load (calls :: rest) := by
      rw [load, load, Script.weight]
      omega
    rw [hload] at hn ⊢
    have hall' : ∀ c ∈ calls :: rest, c.All P := by
      intro c hc
      rcases List.mem_cons.mp hc with rfl | hc
      · exact hcalls
      · exact hall c (List.mem_cons_of_mem _ hc)
    have hcall : Returns sys W (3 * plan.weight + 2) s f (calls :: rest) :=
      h.returns_call ho hplan hw fun w hle hw => returns_stops n w (by omega) hw
    have hrest := h.returns_trans hcall (returns_stops n (calls :: rest) (by omega) hall')
    exact hrest.mono (by omega)

end Harmless

/-! ## Calls that get by -/

/-- A call got as far as given: it has ended as it should, or the invariant `I` holds and `rank` is below `n`. -/
def Reaches (I : pc → σ → Prop) (rank : pc → σ → Nat) (Q : σ → ρ → Prop) (n : Nat) : σ × Outcome pc ρ → Prop
  | (s, .pause stage) => I stage s ∧ rank stage s < n
  | (s, .done a) => Q s a

/-- The invariant `I` is kept by changes that `W` allows, and by the stages of the call, which in turn lower its rank. A
call that ends has `Q`. -/
structure Steadfast (sys : System σ op pc ρ ev) (W : σ → σ → Prop) (I : pc → σ → Prop) (rank : pc → σ → Nat)
    (Q : σ → ρ → Prop) (bound : Nat) : Prop where
  resume : ∀ stage s, I stage s → Reaches I rank Q (rank stage s) (sys.resume stage s)
  keep : ∀ stage s s', I stage s → W s s' → I stage s'
  rank_le : ∀ stage s, rank stage s ≤ bound

/-- Within `n` steps a call that should end with `Q` has left its record behind `records`, and `todo` comes next. -/
def Ends (sys : System σ op pc ρ ev) (Q : σ → ρ → Prop) (todo : Script op) (records : List (Record ρ ev)) (n : Nat)
    (m : Machine σ op pc ρ ev) : Prop :=
  ∃ k s r, k ≤ n ∧ steps sys k m = ⟨s, [], todo, records ++ [r]⟩ ∧ Q s r.result

section Ends

variable {Q : σ → ρ → Prop} {n k : Nat} {m : Machine σ op pc ρ ev}

theorem Ends.mono (h : Ends sys Q todo records n m) (hn : n ≤ k) : Ends sys Q todo records k m := by
  obtain ⟨i, s, r, hi, hsteps⟩ := h
  exact ⟨i, s, r, Nat.le_trans hi hn, hsteps⟩

theorem Ends.after (h : Ends sys Q todo records n (steps sys k m)) : Ends sys Q todo records (n + k) m := by
  obtain ⟨i, s, r, hi, hsteps, hr⟩ := h
  exact ⟨i + k, s, r, Nat.add_le_add_right hi k, by rw [steps_add, hsteps], hr⟩

end Ends

/-- The steps that suffice for a call of the given rank with `b` calls and stops to come, if ranks are up to `bound`. -/
def patience (bound b rank : Nat) : Nat := (bound + 5) * b + rank + 1

/-- Where stops are served the rank may rise, but less is to come. -/
theorem patience_after (bound b rank : Nat) {l : Nat} (hl : 0 < l) :
    patience bound b bound + 3 * l ≤ patience bound (b + l) rank := by
  have hmul : bound ≤ bound * l := Nat.le_mul_of_pos_right bound hl
  rw [patience, patience, Nat.mul_add, Nat.add_mul bound 5 l]
  omega

namespace Steadfast

variable {P : op → Prop} {W : σ → σ → Prop} {I : pc → σ → Prop} {rank : pc → σ → Nat} {Q : σ → ρ → Prop} {bound : Nat}

/-- The running call, taken off the stack, got on. -/
theorem ends_settle {p : Progress op ρ ev} {n k : Nat} {q : σ × Outcome pc ρ} (hq : Reaches I rank Q n q)
    (hwaiting : p.waiting = []) (hplan : p.plan.All P)
    (hpause : ∀ stage s p', I stage s → rank stage s < n → p'.remaining = p.remaining → p'.All P →
      Ends sys Q todo records k ⟨s, [⟨stage, p'⟩], todo, records⟩) :
    Ends sys Q todo records k (settle sys ⟨q.1, [], todo, records⟩ p q.2) := by
  obtain ⟨s, out⟩ := q
  cases out with
  | done a => exact ⟨0, s, p.record a, Nat.zero_le _, rfl, hq⟩
  | pause stage =>
    obtain ⟨hI, hrank⟩ := hq
    obtain ⟨p', hset, hremaining, hall⟩ := p.settle_pause sys ⟨s, [], todo, records⟩ stage hwaiting hplan
    rw [hset]
    exact hpause stage s p' hI hrank hremaining hall

variable (h : Steadfast sys W I rank Q bound) (hw : Harmless sys P W)
include h hw

/-- A call ends: its rank falls with each stage, and where the rank rises, fewer calls are to come. -/
theorem ends (b n : Nat) : ∀ stage s p, I stage s → rank stage s ≤ n → p.remaining = b → p.All P →
    Ends sys Q todo records (patience bound b n) ⟨s, [⟨stage, p⟩], todo, records⟩ := by
  -- by what is still to come first, and by the rank second, since interruptions may raise it
  induction b using Nat.strongRecOn generalizing n with
  | ind b ihb =>
    induction n using Nat.strongRecOn with
    | ind n ihn =>
      intro stage s p hI hrank hb hall
      cases hwaiting : p.waiting with
      | nil =>
        have hends : Ends sys Q todo records ((bound + 5) * b + n) (step sys ⟨s, [⟨stage, p⟩], todo, records⟩) := by
          rw [step_on hwaiting]
          refine ends_settle (h.resume stage s hI) hwaiting hall.1 fun stage' s' p' hI' hrank' hrem hall' => ?_
          have hless : rank stage' s' < n := Nat.lt_of_lt_of_le hrank' hrank
          exact (ihn _ hless stage' s' p' hI' (Nat.le_refl _) (hrem.trans hb) hall').mono (by rw [patience]; omega)
        exact hends.after (k := 1)
      | cons calls rest =>
        have hload : 0 < load p.waiting := by rw [hwaiting, load]; omega
        have hsum : b = p.plan.ahead p.points.length + load p.waiting := by rw [← hb, Progress.remaining, Nat.add_comm]
        obtain ⟨k, s', f', hk, hsteps, hs', hf'⟩ :=
          hw.returns_stops _ p.waiting (Nat.le_refl _) hall.2 s ⟨stage, p⟩ rfl [] todo records
        obtain ⟨stage', p'⟩ := f'
        obtain rfl : stage' = stage := hf'.stage
        have hplan : p'.plan = p.plan := hf'.plan
        have hrem : p'.remaining = p.plan.ahead p.points.length := by
          have hpoints : p'.points = p.points := hf'.points
          have hnone : p'.waiting = [] := hf'.waiting
          rw [Progress.remaining, hplan, hpoints, hnone, load, Nat.zero_add]
        have hall' : p'.All P := by
          refine ⟨by rw [hplan]; exact hall.1, fun c hc => ?_⟩
          have hnone : p'.waiting = [] := hf'.waiting
          rw [hnone] at hc
          cases hc
        have hends := ihb _ (by omega) bound stage' s' p' (h.keep stage' s s' hI hs') (h.rank_le stage' s') hrem hall'
        rw [← hsteps] at hends
        have hpatience := patience_after bound (p.plan.ahead p.points.length) n hload
        rw [hsum]
        exact hends.after.mono (by omega)

/-- **A call that harmless calls interrupt ends as it should**, and in time. -/
theorem session_ends {o : op} {plan : Plan op} (hplan : plan.All P) (hbound : bound < 16)
    (hstart : Reaches I rank Q (bound + 1) (sys.start o s)) :
    ∃ s' r, session sys s (.call o plan .nil) = ⟨s', [], .nil, [r]⟩ ∧ Q s' r.result := by
  let p : Progress op ρ ev := (Progress.begin plan).witness (sys.events s (sys.start o s).1)
  have hends : Ends sys Q .nil [] (patience bound (plan.ahead 0) bound) (step sys (init s (.call o plan .nil))) := by
    show Ends _ _ _ _ _ (settle sys ⟨(sys.start o s).1, [], .nil, []⟩ p (sys.start o s).2)
    refine ends_settle hstart rfl hplan fun stage s' p' hI hrank hrem hall => ?_
    exact h.ends hw _ bound stage s' p' hI (Nat.le_of_lt_succ hrank) (hrem.trans (Nat.zero_add _)) hall
  obtain ⟨k, s', r, hk, hsteps, hr⟩ := hends.after (k := 1)
  refine ⟨s', r, ?_, hr⟩
  have hallowed : k ≤ allowance (Script.call o plan .nil).weight := by
    have hahead := plan.ahead_le_weight 0
    have hmul : (bound + 5) * plan.ahead 0 ≤ 20 * plan.weight := Nat.mul_le_mul (by omega) hahead
    have hquad : 16 * (plan.weight + 2) * 2 ≤ 16 * (plan.weight + 2) * (plan.weight + 2) :=
      Nat.mul_le_mul_left _ (Nat.le_add_left _ _)
    rw [allowance, Script.weight, Script.weight]
    rw [patience] at hk
    have hweight : 1 + plan.weight + 0 + 1 = plan.weight + 2 := by omega
    rw [hweight]
    omega
  obtain ⟨rest, hrest⟩ := Nat.exists_eq_add_of_le' hallowed
  rw [session, run_eq_steps, hrest, steps_add, init, hsteps]
  exact steps_finished rfl rest

end Steadfast

end Machine
end LeastRecent.Interleave
