import Mathlib.Data.Nat.Find
import LeastRecent.Proofs.Interleave.Histories
import LeastRecent.Proofs.Interleave.Interruptions

/-!
# Every call of a session ends

A step of a machine that is not finished makes a call or turns to a stop, of which there are only so many, or it ends a
call, or the running call gets to another stage (`Counts`). So a machine is finished after a while if each call comes
closer to its end with every stage of its own, by a rank that is bounded at all times: what interruptions add to the rank
of a call is paid for by their number (`Nears.finished`). Then every call that starts ends (`exists_isCall`).

A call that goes on after a pause has been suspended since the stretch of work that led it there (`exists_pause`), so that
whatever it finds changed was changed by calls that came between (`exists_suspension`).
-/

namespace LeastRecent.Interleave.Machine

variable {σ op pc ρ ev : Type} {sys : System σ op pc ρ ev} {m : Machine σ op pc ρ ev} {rank : pc → σ → Nat} {b : Nat}

/-! ## What a step uses up -/

/-- The calls and stops that are still to come in the calls in progress. -/
def awaited : List (Frame op pc ρ ev) → Nat
  | [] => 0
  | f :: fs => f.progress.remaining + awaited fs

/-- The calls and stops that are still to come. -/
def pending (m : Machine σ op pc ρ ev) : Nat := m.todo.weight + awaited m.stack

/-- The rank of the running call, if there is one. -/
def height (rank : pc → σ → Nat) (m : Machine σ op pc ρ ev) : Nat :=
  match m.stages with
  | [] => 0
  | stage :: _ => rank stage m.state

theorem remaining_attach (p : Progress op ρ ev) (r : Record ρ ev) : (p.attach r).remaining = p.remaining := by
  obtain ⟨hplan, hpoints, hwaiting⟩ := p.attach_eq r
  rw [Progress.remaining, Progress.remaining, hplan, hpoints, hwaiting]

/-- A record takes nothing with it. -/
theorem pending_deliver (m : Machine σ op pc ρ ev) (r : Record ρ ev) :
    (m.deliver r).pending = m.pending ∧ (m.deliver r).stack.length = m.stack.length := by
  unfold deliver pending
  split
  · next h => simp [h]
  · next f fs h => simp [h, awaited, remaining_attach]

variable (sys) in
/-- The running call, taken off the stack, has ended, or is back with what it has still to come. -/
theorem pending_settle (m : Machine σ op pc ρ ev) {p : Progress op ρ ev} (hw : p.waiting = []) (out : Outcome pc ρ) :
    (m.settle sys p out).pending = m.pending + out.stages.length * p.remaining ∧
      (m.settle sys p out).stack.length = m.stack.length + out.stages.length := by
  cases out with
  | done r =>
    obtain ⟨hp, hl⟩ := pending_deliver m (p.record r)
    simpa [settle, Outcome.stages] using And.intro hp hl
  | pause stage =>
    unfold settle
    dsimp only
    split
    · refine ⟨?_, rfl⟩
      show m.todo.weight + (p.remaining + awaited m.stack) = m.todo.weight + awaited m.stack + 1 * p.remaining
      omega
    · next x _ =>
      refine ⟨?_, rfl⟩
      show m.todo.weight + ((p.pass x).remaining + awaited m.stack) =
        m.todo.weight + awaited m.stack + 1 * p.remaining
      rw [p.remaining_pass x hw]
      omega

variable (sys) in
/-- A call that is made brings no more than its plan. -/
theorem pending_enter (m : Machine σ op pc ρ ev) (o : op) (plan : Plan op) :
    (m.enter sys o plan).pending ≤ m.pending + plan.weight ∧
      (m.enter sys o plan).stack.length ≤ m.stack.length + 1 := by
  let p : Progress op ρ ev := (Progress.begin plan).witness (sys.events m.state (sys.start o m.state).1)
  have hrem : p.remaining ≤ plan.weight := Nat.le_trans (Nat.le_of_eq (Nat.zero_add _)) (plan.ahead_le_weight 0)
  obtain ⟨hp, hl⟩ := pending_settle sys { m with state := (sys.start o m.state).1 } (p := p) rfl
    (sys.start o m.state).2
  have hone : (sys.start o m.state).2.stages.length ≤ 1 := by
    cases (sys.start o m.state).2 <;> simp [Outcome.stages]
  have hmul : (sys.start o m.state).2.stages.length * p.remaining ≤ 1 * p.remaining := Nat.mul_le_mul_right _ hone
  have hsame : ({ m with state := (sys.start o m.state).1 } : Machine σ op pc ρ ev).pending = m.pending := rfl
  refine ⟨Nat.le_trans (Nat.le_of_eq hp) ?_, Nat.le_trans (Nat.le_of_eq hl) (Nat.add_le_add_left hone _)⟩
  rw [hsame]
  omega

/-- What a step from `m` to `m'` uses up. -/
inductive Counts (sys : System σ op pc ρ ev) (m m' : Machine σ op pc ρ ev) : Prop
  /-- A call or stop that was to come; if it is a call, it may be in progress now. -/
  | turned (hp : m'.pending + 1 ≤ m.pending) (hl : m'.stack.length ≤ m.stack.length + 1)
  /-- The running call. -/
  | ended (hp : m'.pending ≤ m.pending) (hl : m'.stack.length + 1 = m.stack.length)
  /-- A stage of the running call. -/
  | resumed {stage stage' : pc} {rest : List pc} (hm : m.move = .resume stage)
    (hout : (sys.resume stage m.state).2 = .pause stage') (hp : m'.pending = m.pending)
    (hs : m'.state = (sys.resume stage m.state).1) (hst : m.stages = stage :: rest) (hst' : m'.stages = stage' :: rest)

theorem length_stages (m : Machine σ op pc ρ ev) : m.stages.length = m.stack.length := List.length_map _

variable (sys) in
/-- **A step of a machine that is not finished** uses something up. -/
theorem counts_step (h : m.finished = false) : Counts sys m (m.step sys) := by
  obtain ⟨s, stack, todo, records⟩ := m
  cases stack with
  | nil =>
    cases todo with
    | nil => cases h
    | call o plan rest =>
      obtain ⟨hp, hl⟩ := pending_enter sys ⟨s, [], rest, records⟩ o plan
      refine .turned ?_ hl
      show (enter sys ⟨s, [], rest, records⟩ o plan).pending + 1 ≤ _
      simp only [pending, Script.weight, awaited] at hp ⊢
      omega
  | cons f fs =>
    cases hw : f.progress.waiting with
    | nil =>
      have hstep : step sys ⟨s, f :: fs, todo, records⟩ = _ := step_on hw
      have hm : (⟨s, f :: fs, todo, records⟩ : Machine σ op pc ρ ev).move = .resume f.stage := by simp only [move, hw]
      obtain ⟨rest, hst, hs, hst'⟩ := step_resume sys hm
      obtain ⟨hp, hl⟩ := pending_settle sys ⟨(sys.resume f.stage s).1, fs, todo, records⟩
        (p := f.progress.witness (sys.events s (sys.resume f.stage s).1)) hw (sys.resume f.stage s).2
      rw [← hstep] at hp hl
      have hrem : (f.progress.witness (sys.events s (sys.resume f.stage s).1)).remaining = f.progress.remaining := rfl
      rw [hrem] at hp
      cases hout : (sys.resume f.stage s).2 with
      | done r =>
        rw [hout] at hp hl
        simp only [Outcome.stages, List.length_nil, Nat.zero_mul, Nat.add_zero] at hp hl
        refine .ended ?_ (by rw [hl]; rfl)
        rw [hp]
        simp only [pending, awaited]
        omega
      | pause stage' =>
        rw [hout] at hp hst'
        refine .resumed hm hout ?_ hs hst hst'
        rw [hp]
        simp only [pending, Outcome.stages, List.length_singleton, awaited]
        omega
    | cons calls rest =>
      cases calls with
      | nil =>
        obtain ⟨hplan, hpoints, hwaiting⟩ := f.progress.turnTo_eq rest
        rw [step_turn hw]
        refine .turned ?_ (Nat.le_succ _)
        simp only [pending, awaited, Progress.remaining, hplan, hpoints, hwaiting, hw, load,
          Script.weight]
        omega
      | call o plan calls =>
        let f' : Frame op pc ρ ev := { f with progress := { f.progress with waiting := calls :: rest } }
        obtain ⟨hp, hl⟩ := pending_enter sys ⟨s, f' :: fs, todo, records⟩ o plan
        have hstep : step sys ⟨s, f :: fs, todo, records⟩ = enter sys ⟨s, f' :: fs, todo, records⟩ o plan := by
          simp only [step, hw, f']
        rw [← hstep] at hp hl
        refine .turned ?_ hl
        simp only [pending, awaited, Progress.remaining, hw, load, Script.weight, f'] at hp ⊢
        omega

/-! ## The way to the end -/

/-- No more calls are in progress than were made. -/
theorem depth_step (m : Machine σ op pc ρ ev) :
    (m.step sys).stack.length + (m.step sys).pending ≤ m.stack.length + m.pending := by
  cases h : m.finished with
  | true => rw [step_finished sys h]
  | false =>
    cases counts_step sys h with
    | turned hp hl => omega
    | ended hp hl => omega
    | resumed _ _ hp _ hst hst' =>
      rw [← length_stages, ← length_stages, hst, hst', hp]
      exact Nat.le_refl _

/-- At no time more calls are in progress than the script has. -/
theorem depth_le (s : σ) (script : Script op) (n : Nat) :
    (steps sys n (init s script)).stack.length + (steps sys n (init s script)).pending ≤ script.weight := by
  induction n with
  | zero => simp [steps, init, pending, awaited]
  | succ n ih => exact Nat.le_trans (depth_step _) ih

/-- Each call of the run comes closer to its end with each stage of its own, and none is ever further away than `b`. -/
structure Nears (sys : System σ op pc ρ ev) (m : Machine σ op pc ρ ev) (rank : pc → σ → Nat) (b : Nat) : Prop where
  falls : ∀ n stage stage', (steps sys n m).move = .resume stage →
    (sys.resume stage (steps sys n m).state).2 = .pause stage' →
    rank stage' (sys.resume stage (steps sys n m).state).1 < rank stage (steps sys n m).state
  bounded : ∀ n, (steps sys n m).height rank ≤ b

/-- The steps that are enough from a machine on, if ranks are up to `b`. -/
def distance (rank : pc → σ → Nat) (b : Nat) (m : Machine σ op pc ρ ev) : Nat :=
  (2 * b + 2) * m.pending + (b + 1) * m.stack.length + m.height rank

theorem mul_add_le {a x y : Nat} (h : x + 1 ≤ y) : a * x + a ≤ a * y := by
  have := Nat.mul_le_mul_left a h
  rw [Nat.mul_add, Nat.mul_one] at this
  exact this

namespace Nears

variable (h : Nears sys m rank b)
include h

/-- Each step brings the machine closer to its end. -/
theorem distance_lt {n : Nat} (hn : (steps sys n m).finished = false) :
    distance rank b (steps sys (n + 1) m) < distance rank b (steps sys n m) := by
  have hb := h.bounded (n + 1)
  unfold distance
  cases counts_step sys hn with
  | turned hp hl =>
    have hpending : (2 * b + 2) * (steps sys (n + 1) m).pending + (2 * b + 2) ≤ (2 * b + 2) * (steps sys n m).pending :=
      mul_add_le hp
    have hlength : (b + 1) * (steps sys (n + 1) m).stack.length ≤ (b + 1) * ((steps sys n m).stack.length + 1) :=
      Nat.mul_le_mul_left _ hl
    rw [Nat.mul_add (b + 1) _ 1] at hlength
    omega
  | ended hp hl =>
    have hpending : (2 * b + 2) * (steps sys (n + 1) m).pending ≤ (2 * b + 2) * (steps sys n m).pending :=
      Nat.mul_le_mul_left _ hp
    have hlength : (b + 1) * (steps sys (n + 1) m).stack.length + (b + 1) ≤ (b + 1) * (steps sys n m).stack.length :=
      mul_add_le (Nat.le_of_eq hl)
    omega
  | @resumed stage stage' rest hm hout hp hs hst hst' =>
    have hfalls := h.falls n stage stage' hm hout
    have hlength : (steps sys (n + 1) m).stack.length = (steps sys n m).stack.length := by
      rw [← length_stages, ← length_stages, hst]
      exact (congrArg List.length hst').trans (List.length_cons.trans List.length_cons.symm)
    have hheight : (steps sys n m).height rank = rank stage (steps sys n m).state := by rw [height, hst]
    have hheight' : (steps sys (n + 1) m).height rank = rank stage' (sys.resume stage (steps sys n m).state).1 := by
      show ((steps sys n m).step sys).height rank = _
      rw [height, hst', hs]
    have hpending : (steps sys (n + 1) m).pending = (steps sys n m).pending := hp
    rw [hlength, hheight, hheight', hpending]
    omega

/-- **The machine is finished** when its distance to the end is used up. -/
theorem finished : (steps sys (distance rank b m) m).finished = true := by
  have hle (n : Nat) : (steps sys n m).finished = true ∨ distance rank b (steps sys n m) + n ≤ distance rank b m := by
    induction n with
    | zero => exact Or.inr (Nat.le_refl _)
    | succ n ih =>
      rcases Bool.eq_false_or_eq_true (steps sys n m).finished with hn | hn
      · left
        show ((steps sys n m).step sys).finished = true
        rw [step_finished sys hn, hn]
      · have hlt := h.distance_lt hn
        rcases ih with ih | ih
        · rw [ih] at hn
          cases hn
        · right
          omega
  rcases hle (distance rank b m) with hn | hn
  · exact hn
  · rcases Bool.eq_false_or_eq_true (steps sys (distance rank b m) m).finished with hf | hf
    · exact hf
    · have := h.distance_lt hf
      omega

end Nears

/-- **A session is finished in the time allowed** if ranks are bounded in proportion to its script. -/
theorem session_finished {s : σ} {script : Script op} (h : Nears sys (init s script) rank (4 * script.weight + 12)) :
    (session sys s script).finished = true := by
  have hdistance : distance rank (4 * script.weight + 12) (init s script : Machine σ op pc ρ ev) =
      (2 * (4 * script.weight + 12) + 2) * script.weight := by
    simp [distance, init, pending, awaited, height, stages]
  have hallowed : distance rank (4 * script.weight + 12) (init s script : Machine σ op pc ρ ev) ≤
      allowance script.weight := by
    rw [hdistance, allowance]
    generalize script.weight = w
    have hleft : (2 * (4 * w + 12) + 2) * w = 8 * (w * w) + 26 * w := by
      rw [Nat.add_mul, Nat.mul_add, Nat.add_mul, Nat.mul_assoc 2, Nat.mul_assoc 4]
      omega
    have hright : 16 * (w + 1) * (w + 1) = 16 * (w * w) + 32 * w + 16 := by
      rw [Nat.mul_assoc, Nat.add_mul, Nat.mul_add, Nat.mul_add w w 1, Nat.mul_one, Nat.one_mul]
      omega
    omega
  obtain ⟨rest, hrest⟩ := Nat.exists_eq_add_of_le' hallowed
  have hfin := h.finished
  rw [session, run_eq_steps, hrest, steps_add, steps_finished hfin]
  exact hfin

/-- **Every call that starts ends**, if the machine is finished in the end. -/
theorem exists_isCall {n : Nat} (hfin : (steps sys n m).finished = true) {o : op} {i : Nat}
    (hm : (steps sys i m).move = .start o) : ∃ k, IsCall sys (steps sys i m) k := by
  have hshort : ∃ k, (steps sys (k + 1) (steps sys i m)).stages.length ≤ (steps sys i m).stages.length := by
    refine ⟨n, ?_⟩
    have hlater : steps sys (n + 1) (steps sys i m) = steps sys (i + 1) (steps sys n m) := by
      rw [← steps_add, ← steps_add]
      congr 1
      omega
    rw [hlater, steps_finished hfin]
    have hidle : (steps sys n m).stack = [] := by
      unfold finished at hfin
      split at hfin
      · assumption
      · cases hfin
    rw [stages, hidle]
    exact Nat.zero_le _
  refine ⟨Nat.find hshort, ⟨o, hm⟩, fun j hj hle => ?_, Nat.find_spec hshort⟩
  obtain ⟨j, rfl⟩ := Nat.exists_eq_add_one_of_ne_zero (Nat.ne_of_gt hj)
  exact Nat.lt_of_not_le (Nat.find_min hshort hle)

/-- Every call of a session ends, if the session is finished. -/
theorem isCall_of_session_finished {s : σ} {script : Script op} (hfin : (session sys s script).finished = true) {o : op}
    {i : Nat} (hm : (steps sys i (init s script)).move = .start o) : ∃ k, IsCall sys (steps sys i (init s script)) k := by
  rw [session, run_eq_steps] at hfin
  exact exists_isCall hfin hm

/-- The call that starts in `m` ends with the `n`-th step after its first, and this is its result. -/
def Yields (sys : System σ op pc ρ ev) (m : Machine σ op pc ρ ev) : Nat → ρ → Prop
  | 0, r => ∃ o, m.move = .start o ∧ (sys.start o m.state).2 = .done r
  | n + 1, r => ending? sys (steps sys (n + 1) m) = some r

/-- A call that has its result at once. -/
theorem IsCall.yields_start {n : Nat} {o : op} {r : ρ} (hcall : IsCall sys m n) (hm : m.move = .start o)
    (hr : (sys.start o m.state).2 = .done r) : Yields sys m n r := by
  cases n with
  | zero => exact ⟨o, hm, hr⟩
  | succ n =>
    have hlong := hcall.during 1 Nat.zero_lt_one (Nat.succ_le_succ (Nat.zero_le n))
    have hst : (steps sys 1 m).stages = (sys.start o m.state).2.stages ++ m.stages := (step_start sys hm).2
    rw [hst, hr] at hlong
    exact absurd hlong (Nat.lt_irrefl _)

/-- A call that has its result when it was resumed. -/
theorem IsCall.yields_ending {n : Nat} {r : ρ} (hcall : IsCall sys m n) (he : ending? sys (steps sys n m) = some r) :
    Yields sys m n r := by
  cases n with
  | zero =>
    obtain ⟨o, ho⟩ := hcall.starts
    have hnone : ending? sys m = none := by rw [ending?, ho]
    rw [show ending? sys m = some r from he] at hnone
    cases hnone
  | succ n => exact he

/-! ## Since when a call is suspended -/

/-- The step leads a call to the stage given, at which it is then suspended above the stages `rest`. -/
def Pauses (sys : System σ op pc ρ ev) (m : Machine σ op pc ρ ev) (stage : pc) (rest : List pc) : Prop :=
  (m.step sys).stages = stage :: rest ∧
    ((∃ o, m.move = .start o ∧ (sys.start o m.state).2 = .pause stage) ∨
      ∃ before, m.move = .resume before ∧ m.stages = before :: rest ∧ (sys.resume before m.state).2 = .pause stage)

/-- **A call in progress** came to its stage with some step, and only other calls went on since. -/
theorem exists_pause (h₀ : m.stages = []) (n : Nat) : ∀ {above : List pc} {stage : pc} {rest : List pc},
    (steps sys n m).stages = above ++ stage :: rest → ∃ i < n, Pauses sys (steps sys i m) stage rest ∧
      ∀ j, i < j → j < n → ∃ above, (steps sys j m).stages = above ++ stage :: rest ∧
        (above = [] → ∀ own, (steps sys j m).move ≠ .resume own) := by
  induction n with
  | zero =>
    intro above stage rest hst
    have hnone : [] = above ++ stage :: rest := h₀.symm.trans hst
    simp at hnone
  | succ n ih =>
    intro above stage rest hst
    -- if it was suspended before the last step, that step belongs to another call
    have hlater (above' : List pc) (hbefore : (steps sys n m).stages = above' ++ stage :: rest)
        (hother : above' = [] → ∀ own, (steps sys n m).move ≠ .resume own) :
        ∃ i < n + 1, Pauses sys (steps sys i m) stage rest ∧
          ∀ j, i < j → j < n + 1 → ∃ above, (steps sys j m).stages = above ++ stage :: rest ∧
            (above = [] → ∀ own, (steps sys j m).move ≠ .resume own) := by
      obtain ⟨i, hi, hp, hsince⟩ := ih hbefore
      refine ⟨i, Nat.lt_succ_of_lt hi, hp, fun j hj hlt => ?_⟩
      rcases Nat.lt_succ_iff_lt_or_eq.mp hlt with hlt | rfl
      · exact hsince j hj hlt
      · exact ⟨above', hbefore, hother⟩
    have hnow (hp : Pauses sys (steps sys n m) stage rest) :
        ∃ i < n + 1, Pauses sys (steps sys i m) stage rest ∧
          ∀ j, i < j → j < n + 1 → ∃ above, (steps sys j m).stages = above ++ stage :: rest ∧
            (above = [] → ∀ own, (steps sys j m).move ≠ .resume own) :=
      ⟨n, Nat.lt_succ_self n, hp, fun j hj hlt => by omega⟩
    have hlast : ((steps sys n m).step sys).stages = above ++ stage :: rest := hst
    cases hm : (steps sys n m).move with
    | rest =>
      rw [(step_rest sys hm).2] at hlast
      exact hlater above hlast fun _ own => by simp [hm]
    | start o =>
      have hstart := (step_start sys hm).2
      cases hout : (sys.start o (steps sys n m).state).2 with
      | done r =>
        rw [hstart, hout] at hlast
        exact hlater above hlast fun _ own => by simp [hm]
      | pause new =>
        rw [hstart, hout] at hlast
        cases above with
        | nil =>
          obtain ⟨rfl, rfl⟩ := List.cons.inj hlast
          exact hnow ⟨by rw [hstart, hout]; rfl, Or.inl ⟨o, hm, hout⟩⟩
        | cons stage' above => exact hlater above (List.cons.inj hlast).2 fun _ own => by simp [hm]
    | resume old =>
      obtain ⟨below, hold, -, hnext⟩ := step_resume sys hm
      cases hout : (sys.resume old (steps sys n m).state).2 with
      | done r =>
        rw [hnext, hout] at hlast
        replace hlast : below = above ++ stage :: rest := hlast
        exact hlater (old :: above) (by rw [hold, hlast]; rfl) fun h => by cases h
      | pause new =>
        rw [hnext, hout] at hlast
        cases above with
        | nil =>
          obtain ⟨rfl, rfl⟩ := List.cons.inj hlast
          exact hnow ⟨by rw [hnext, hout]; rfl, Or.inr ⟨old, hm, hold, hout⟩⟩
        | cons stage' above =>
          have hbelow : below = above ++ stage :: rest := (List.cons.inj hlast).2
          exact hlater (old :: above) (by rw [hold, hbelow]; rfl) fun h => by cases h

/-- The step is up to a call that was made, directly or not, while the one at `stage` is suspended. -/
def Nested (m : Machine σ op pc ρ ev) (stage : pc) (rest : List pc) : Prop :=
  ∃ above, m.stages = above ++ stage :: rest ∧ (above = [] → ∃ o, m.move = .start o)

/-- **What a call that goes on finds changed** was changed by a call that came between. -/
theorem exists_suspension (h₀ : m.stages = []) {n : Nat} {stage : pc} {rest : List pc}
    (hst : (steps sys n m).stages = stage :: rest) : ∃ i < n, Pauses sys (steps sys i m) stage rest ∧
      ∀ {β : Type} (f : σ → β), f (steps sys n m).state ≠ f (steps sys (i + 1) m).state →
        ∃ j, i < j ∧ j < n ∧ Nested (steps sys j m) stage rest ∧
          f (steps sys (j + 1) m).state ≠ f (steps sys j m).state := by
  obtain ⟨i, hi, hp, hsince⟩ := exists_pause h₀ n (hst.trans (List.nil_append _).symm)
  refine ⟨i, hi, hp, fun f hne => ?_⟩
  obtain ⟨k, rfl⟩ := Nat.exists_eq_add_of_lt hi
  obtain ⟨j, hj, hjk, hchange⟩ := exists_change (f := fun j => f (steps sys (i + j) m).state) hne
  obtain ⟨above, habove, hother⟩ := hsince (i + j) (by omega) (by omega)
  refine ⟨i + j, by omega, by omega, ⟨above, habove, fun hnil => ?_⟩, hchange⟩
  cases hm : (steps sys (i + j) m).move with
  | start o => exact ⟨o, rfl⟩
  | rest =>
    -- nothing happened, so nothing was changed
    exact absurd (congrArg f (step_rest sys hm).1) hchange
  | resume own => exact absurd hm (hother hnil own)

end LeastRecent.Interleave.Machine
