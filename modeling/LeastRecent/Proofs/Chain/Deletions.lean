import LeastRecent.Proofs.Chain.Unlinking
import LeastRecent.Proofs.Interleave.Histories

/-!
# A deletion has one winner

A deletion wins with the step that puts the marker (`Wins`). Markers last (`marker_lasts`), and a step that wins finds
none, so that a node is deleted from the one step on that wins it (`isDeleted_iff`, `Wins.unique`).

A request to delete a node notes the pointer of the node and pauses. It wins if the pointer is the same when it goes on
(`Deletes.ending`), so it can fail for three reasons only: there is nothing to delete, the node was deleted before, or a
call that came between has changed the pointer. All this, and that the node is unlinked by one swing at most, is said of
whole sessions (`one_winner`).
-/

namespace LeastRecent.Chain

variable {α : Type} {c : Chain α} {x : NodeId}

theorem isDeleted_iff_marker : c.isDeleted x = true ↔ ∃ f, c.pointers x = .marker f := by
  unfold isDeleted Node.isDeleted pointers
  cases (c.node x).next <;> simp [Next.isMarker]

namespace Session

open Function (update)
open Interleave (Machine Move)
open Interleave.Machine (IsCall Passes)

variable {κ ν : Type} [ToString κ] [ToString ν] {p : Policy} {script : Interleave.Script (Request κ ν)} {i j n n' : Nat}
  {x : NodeId}

/-! ## Markers -/

/-- With step `n` a deletion of the node `x` goes on and succeeds. -/
def Wins (p : Policy) (script : Interleave.Script (Request κ ν)) (n : Nat) (x : NodeId) : Prop :=
  ∃ cut : Cut, cut.target = x ∧ (moment p script n).move = .resume (.cutting cut) ∧
    (system.resume (.cutting cut) (moment p script n).state).2 = .done (.bool true)

section Rewires

variable {s s' : Session κ ν} {xs : List NodeId} {move : Move (Request κ ν) (Stage κ ν)} {f : NodeId}

/-- No step touches the markers that it finds. -/
theorem Rewires.marker (hr : Rewires s s' xs move) (hx : s.chain.pointers x = .marker f) :
    s'.chain.pointers x = .marker f := by
  cases move with
  | rest => exact hr.2.marker hx
  | start r => exact hr.2.marker hx
  | resume stage =>
    cases stage with
    | inserting after e =>
      obtain ⟨-, ⟨-, hq⟩ | ⟨g, hg, -, hq⟩⟩ := hr
      · rw [hq, hx]
      · have hafter : x ≠ after := by
          rintro rfl
          rw [hg] at hx
          cases hx
        have hfresh : x ≠ s.chain.size := Nat.ne_of_lt (lt_size_of_deleted (isDeleted_iff_marker.mpr ⟨f, hx⟩))
        rw [hq, Function.update_of_ne hafter, Function.update_of_ne hfresh, hx]
    | cutting cut =>
      obtain ⟨-, ⟨-, -, -, hq⟩ | ⟨-, hnode, -, hs⟩⟩ := hr
      · rw [hq, hx]
      · have htarget : x ≠ cut.target := by
          rintro rfl
          rw [hnode] at hx
          cases hx
        exact hs.marker (by rw [Function.update_of_ne htarget, hx])

/-- A marker that a step puts is that of a deletion which succeeds. -/
theorem Rewires.of_marker (hr : Rewires s s' xs move) (hx : s'.chain.pointers x = .marker f) :
    s.chain.pointers x = .marker f ∨ ∃ cut : Cut, cut.target = x ∧ move = .resume (.cutting cut) ∧
      (system.resume (.cutting cut) s).2 = .done (.bool true) := by
  cases move with
  | rest => exact Or.inl (hr.2.of_marker hx)
  | start r => exact Or.inl (hr.2.of_marker hx)
  | resume stage =>
    cases stage with
    | inserting after e =>
      obtain ⟨-, ⟨-, hq⟩ | ⟨g, -, -, hq⟩⟩ := hr
      · exact Or.inl (hq ▸ hx)
      · rw [hq] at hx
        by_cases hafter : x = after
        · rw [hafter, Function.update_self] at hx
          cases hx
        · rw [Function.update_of_ne hafter] at hx
          by_cases hfresh : x = s.chain.size
          · rw [hfresh, Function.update_self] at hx
            cases hx
          · exact Or.inl (by rwa [Function.update_of_ne hfresh] at hx)
    | cutting cut =>
      obtain ⟨-, ⟨-, -, -, hq⟩ | ⟨hwon, -, -, hs⟩⟩ := hr
      · exact Or.inl (hq ▸ hx)
      · by_cases htarget : x = cut.target
        · exact Or.inr ⟨cut, htarget.symm, rfl, hwon⟩
        · have hold := hs.of_marker hx
          exact Or.inl (by rwa [Function.update_of_ne htarget] at hold)

end Rewires

/-- A marker refers to the same successor for ever. -/
theorem marker_lasts {f : NodeId} (hx : (moment p script n).state.chain.pointers x = .marker f) (k : Nat) :
    (moment p script (n + k)).state.chain.pointers x = .marker f := by
  induction k with
  | zero => exact hx
  | succ k ih =>
    obtain ⟨xs, hr⟩ := rewires_moment p script (n + k)
    exact hr.marker ih

/-- A step that wins finds the node live and puts a marker with the successor that it had. -/
theorem Wins.step (h : Wins p script n x) : ∃ f, (moment p script n).state.chain.pointers x = .node f ∧
    (moment p script (n + 1)).state.chain.pointers x = .marker f := by
  obtain ⟨cut, rfl, hm, hwon⟩ := h
  obtain ⟨xs, hr⟩ := rewires_moment p script n
  rw [hm] at hr
  obtain ⟨-, ⟨hlost, -⟩ | ⟨-, hnode, -, hs⟩⟩ := hr
  · rw [hwon] at hlost
    cases hlost
  · exact ⟨cut.after, hnode, hs.marker (Function.update_self ..)⟩

theorem Wins.not_lt (h : Wins p script i x) (h' : Wins p script j x) : ¬ i < j := by
  intro hlt
  obtain ⟨k, rfl⟩ := Nat.exists_eq_add_of_lt hlt
  obtain ⟨f, -, hmarker⟩ := h.step
  obtain ⟨g, hnode, -⟩ := h'.step
  have hlater := marker_lasts hmarker k
  rw [Nat.add_right_comm, hnode] at hlater
  cases hlater

/-- Of all deletions of a node one wins at most. -/
theorem Wins.unique (h : Wins p script i x) (h' : Wins p script j x) : i = j :=
  Nat.le_antisymm (Nat.le_of_not_lt (h'.not_lt h)) (Nat.le_of_not_lt (h.not_lt h'))

/-- **A node is deleted** just if a deletion of it has won. -/
theorem isDeleted_iff : (moment p script n).state.chain.isDeleted x = true ↔ ∃ i < n, Wins p script i x := by
  rw [isDeleted_iff_marker]
  constructor
  · rintro ⟨f, hf⟩
    induction n with
    | zero =>
      match x with
      | 0 => cases hf
      | 1 => cases hf
      | x + 2 =>
        have hvoid : (moment p script 0).state.chain.node (x + 2) = .void := node_of_size_le (Nat.le_add_left 2 x)
        rw [pointers, hvoid] at hf
        cases hf
    | succ n ih =>
      obtain ⟨xs, hr⟩ := rewires_moment p script n
      rcases hr.of_marker hf with hold | hwins
      · obtain ⟨i, hi, hw⟩ := ih hold
        exact ⟨i, Nat.lt_succ_of_lt hi, hw⟩
      · exact ⟨n, Nat.lt_succ_self n, hwins⟩
  · rintro ⟨i, hi, hw⟩
    obtain ⟨k, rfl⟩ := Nat.exists_eq_add_of_lt hi
    obtain ⟨f, -, hmarker⟩ := hw.step
    exact ⟨f, by rw [Nat.add_right_comm]; exact marker_lasts hmarker k⟩

/-! ## Requests to delete -/

theorem moment_add (p : Policy) (script : Interleave.Script (Request κ ν)) (n i : Nat) :
    Machine.steps system i (moment p script n) = moment p script (n + i) := by
  rw [moment, moment, ← Machine.steps_add, Nat.add_comm]

/-- With step `i` a request to delete the node `x` is made. -/
def Asks (p : Policy) (script : Interleave.Script (Request κ ν)) (i : Nat) (x : NodeId) : Prop :=
  ∃ name, (moment p script i).move = .start (.delete name) ∧ (moment p script i).state.names.lookup name = some x

/-- The call that starts with step `i` and ends with step `i + n` has the answer `a`. -/
def Answers (p : Policy) (script : Interleave.Script (Request κ ν)) (i : Nat) : Nat → Answer κ ν → Prop
  | 0, a => ∃ r, (moment p script i).move = .start r ∧ (system.start r (moment p script i).state).2 = .done a
  | n + 1, a => Machine.ending? system (moment p script (i + (n + 1))) = some a

/-- The request made with step `i` to delete the node `x` is served from step `i` to step `i + n`, and answered `b`. -/
structure Deletes (p : Policy) (script : Interleave.Script (Request κ ν)) (i n : Nat) (x : NodeId) (b : Bool) : Prop where
  asks : Asks p script i x
  call : IsCall system (moment p script i) n
  answers : Answers p script i n (.bool b)

/-- To ask for a deletion is to look at the node, and changes nothing. -/
theorem start_delete {name : String} (hx : (moment p script i).state.names.lookup name = some x) :
    system.start (.delete name) (moment p script i).state = match (moment p script i).state.chain.beginDelete x with
      | none => ((moment p script i).state, .done (.bool false))
      | some cut => ((moment p script i).state, .pause (.cutting cut)) := by
  have hk := (kept_moment p script i).start (.delete name)
  have hj : system.start (.delete name) (moment p script i).state = start (.delete name) (moment p script i).state :=
    judge_eq hk.1.sound.clean
  rw [hj]
  cases hb : (moment p script i).state.chain.beginDelete x <;> simp only [start, withNode, hx, hb]

/-- A deletion that pauses is suspended with the cut that it noted, until it ends with it. -/
theorem passes_cutting {cut : Cut} (hask : Asks p script i x)
    (hb : (moment p script i).state.chain.beginDelete x = some cut) :
    Passes system (moment p script i) fun _ stage => stage = .cutting cut where
  start r stage hm hout := by
    obtain ⟨name, hm', hx⟩ := hask
    rw [hm'] at hm
    cases hm
    rw [start_delete hx, hb] at hout
    cases hout
    rfl
  wait _ _ h _ := h
  resume j stage stage' h _ hm hout := by
    subst h
    rw [moment_add] at hm hout
    rw [system_resume hm] at hout
    cases hout

/-- **What becomes of a request to delete a node.** Either it is refused at once, since there is nothing to delete, or it
pauses, and its last step decides. -/
theorem delete_call (hask : Asks p script i x) (hcall : IsCall system (moment p script i) n) :
    (n = 0 ∧ (moment p script i).state.chain.beginDelete x = none ∧ Answers p script i n (.bool false)) ∨
      ∃ cut, 0 < n ∧ (moment p script i).state.chain.beginDelete x = some cut ∧
        (moment p script (i + n)).move = .resume (.cutting cut) ∧
        (moment p script (i + n)).stages = .cutting cut :: (moment p script i).stages ∧
        Answers p script i n (.bool ((moment p script (i + n)).state.chain.finishDelete cut).2) := by
  obtain ⟨name, hm, hx⟩ := id hask
  have hstart := start_delete hx
  have hfirst : (moment p script (i + 1)).stages = _ := (Machine.step_start system hm).2
  cases hb : (moment p script i).state.chain.beginDelete x with
  | none =>
    rw [hb] at hstart
    rw [hstart] at hfirst
    cases n with
    | zero => exact Or.inl ⟨rfl, rfl, .delete name, hm, by rw [hstart]⟩
    | succ n =>
      have hlong := hcall.during 1 Nat.zero_lt_one (Nat.le_add_left 1 n)
      rw [moment_add, hfirst] at hlong
      exact absurd hlong (Nat.lt_irrefl _)
  | some cut =>
    rw [hb] at hstart
    rw [hstart] at hfirst
    cases n with
    | zero =>
      have hshort := hcall.ends
      rw [moment_add, Nat.zero_add, hfirst] at hshort
      exact absurd hshort (Nat.not_succ_le_self _)
    | succ n =>
      obtain ⟨stage, r, hmove, hstages, hout, rfl⟩ := hcall.ending (passes_cutting hask hb)
      rw [moment_add] at hmove hstages hout
      refine Or.inr ⟨cut, Nat.succ_pos n, rfl, hmove, hstages, ?_⟩
      rw [system_resume hmove] at hout
      exact Machine.ending?_resume hmove (by rw [system_resume hmove]; rfl)

theorem Answers.unique {a a' : Answer κ ν} (h : Answers p script i n a) (h' : Answers p script i n a') : a = a' := by
  cases n with
  | zero =>
    obtain ⟨r, hm, hr⟩ := h
    obtain ⟨r', hm', hr'⟩ := h'
    rw [hm] at hm'
    cases hm'
    rw [hr] at hr'
    cases hr'
    rfl
  | succ n => exact Option.some.inj (Eq.trans (Eq.symm h) h')

namespace Deletes

variable {b : Bool}

/-- A request that is answered true ends with a step that wins. -/
theorem wins (h : Deletes p script i n x true) : Wins p script (i + n) x := by
  rcases delete_call h.asks h.call with ⟨-, -, ha⟩ | ⟨cut, -, hb, hm, -, ha⟩
  · cases h.answers.unique ha
  · have hwon : ((moment p script (i + n)).state.chain.finishDelete cut).2 = true :=
      (Answer.bool.inj (h.answers.unique ha)).symm
    refine ⟨cut, (beginDelete_some hb).1, hm, ?_⟩
    rw [system_resume hm, ← hwon]
    rfl

/-- One request to delete a node is answered true at most. -/
theorem unique (h : Deletes p script i n x true) (h' : Deletes p script j n' x true) : i = j ∧ n = n' := by
  have hend : i + n = j + n' := h.wins.unique h'.wins
  have hstages : (moment p script i).stages = (moment p script j).stages := by
    rcases delete_call h.asks h.call with ⟨-, -, ha⟩ | ⟨cut, -, -, -, hst, -⟩
    · cases h.answers.unique ha
    · rcases delete_call h'.asks h'.call with ⟨-, -, ha⟩ | ⟨cut', -, -, -, hst', -⟩
      · cases h'.answers.unique ha
      · rw [hend, hst'] at hst
        exact (List.cons.inj hst).2.symm
  -- while a call runs, more calls are in progress than when it started
  have hnot {i j n : Nat} (hcall : IsCall system (moment p script i) n) (hle : j ≤ i + n)
      (hst : (moment p script i).stages = (moment p script j).stages) : ¬ i < j := by
    intro hlt
    obtain ⟨k, rfl⟩ := Nat.exists_eq_add_of_lt hlt
    have hlong := hcall.during (k + 1) (Nat.succ_pos k) (by omega)
    rw [moment_add, ← Nat.add_assoc, ← hst] at hlong
    exact Nat.lt_irrefl _ hlong
  have h₁ := hnot h.call (by omega) hstages
  have h₂ := hnot h'.call (by omega) hstages.symm
  omega

end Deletes

/-- Only a request to delete a node is suspended with a cut, and the cut is one of that node. -/
theorem asks_of_pause {cut : Cut} {r : Request κ ν} (hm : (moment p script i).move = .start r)
    (hout : (system.start r (moment p script i).state).2 = .pause (.cutting cut)) : Asks p script i cut.target := by
  have hj : system.start r (moment p script i).state = start r (moment p script i).state :=
    judge_eq ((kept_moment p script i).start r).1.sound.clean
  rw [hj] at hout
  cases r with
  | delete name =>
    refine ⟨name, hm, ?_⟩
    rw [start, withNode] at hout
    split at hout
    · cases hout
    · next x hx =>
      split at hout
      · cases hout
      · next hb =>
        cases hout
        rw [(beginDelete_some hb).1]
        exact hx
  | append name new k v =>
    rw [start, withNode] at hout
    split at hout
    · cases hout
    · split at hout <;> cases hout
  | release name =>
    rw [start, withNode] at hout
    split at hout
    · cases hout
    · split at hout <;> cases hout
  | pending => cases hout
  | _ =>
    rw [start, withNode] at hout
    split at hout <;> cases hout

/-- A step that wins is the last one of a request that is answered true. -/
theorem Wins.deletes (h : Wins p script n x) : ∃ i k, i + k = n ∧ Deletes p script i k x true := by
  obtain ⟨cut, rfl, hm, hwon⟩ := h
  obtain ⟨i, k, rfl, hk, hcall, hstages⟩ := Machine.exists_call rfl hm hwon
  refine ⟨i, k, rfl, ?_⟩
  obtain ⟨k, rfl⟩ := Nat.exists_eq_add_one_of_ne_zero (Nat.ne_of_gt hk)
  have hpasses : Passes system (moment p script i) fun _ stage => ∀ cut, stage = .cutting cut → Asks p script i cut.target := by
    refine ⟨fun r stage hm hout cut he => ?_, fun _ _ h _ => h, fun j stage stage' _ _ hm hout => ?_⟩
    · rw [he] at hout
      exact asks_of_pause hm hout
    · rw [moment_add] at hm hout
      rw [system_resume hm] at hout
      cases stage with
      | inserting after e =>
        rw [resume] at hout
        split at hout <;> cases hout
      | cutting cut => cases hout
  obtain ⟨stage, r, hmove, -, -, hasks⟩ := IsCall.ending (m := moment p script i) hcall hpasses
  rw [moment_add, hm] at hmove
  cases hmove
  exact ⟨hasks cut rfl, hcall, Machine.ending?_resume hm hwon⟩

/-! ## Why a deletion fails -/

/-- What was refused at once is a sentinel or was deleted before, and what was not is neither. -/
theorem beginDelete_eq_none_iff (hask : Asks p script i x) : (moment p script i).state.chain.beginDelete x = none ↔
    (moment p script i).state.chain.isSentinel x = true ∨ (moment p script i).state.chain.isDeleted x = true := by
  obtain ⟨name, -, hx⟩ := hask
  have hk := kept_moment p script i
  rcases hk.sound.beginDelete (hk.mem_of_lookup hx) with ⟨hn, hd⟩ | ⟨cut, hc, -, hs, hl, -⟩
  · exact ⟨fun _ => hd, fun _ => hn⟩
  · simp [hc, hs, hl]

/-- The session is the same after a request to delete a node was made. -/
theorem Asks.state_succ (hask : Asks p script i x) : (moment p script (i + 1)).state = (moment p script i).state := by
  obtain ⟨name, hm, hx⟩ := hask
  rw [moment_succ, (Machine.step_start system hm).1, start_delete hx]
  split <;> rfl

/-- **A deletion fails for a reason**: there was nothing to delete, or the pointer of the node was changed by a call that
came between. -/
theorem Deletes.lost (h : Deletes p script i n x false) :
    (moment p script i).state.chain.isSentinel x = true ∨ (moment p script i).state.chain.isDeleted x = true ∨
      ∃ j, 0 < j ∧ j < n ∧ (moment p script (i + j + 1)).state.chain.pointers x ≠
        (moment p script (i + j)).state.chain.pointers x := by
  rcases delete_call h.asks h.call with ⟨-, hb, -⟩ | ⟨cut, hn, hb, -, -, ha⟩
  · rcases (beginDelete_eq_none_iff h.asks).mp hb with hs | hd
    · exact Or.inl hs
    · exact Or.inr (Or.inl hd)
  · obtain ⟨n, rfl⟩ := Nat.exists_eq_add_one_of_ne_zero (Nat.ne_of_gt hn)
    obtain ⟨htarget, -, hnext⟩ := beginDelete_some hb
    have hfailed := (finishDelete_eq_false (Answer.bool.inj (h.answers.unique ha)).symm).2
    rw [htarget] at hfailed
    have hfirst : (moment p script (i + 1)).state.chain.pointers x = .node cut.after := by
      rw [h.asks.state_succ]
      exact hnext
    rw [← hfirst] at hfailed
    exact Or.inr (Or.inr (Machine.exists_change (f := fun j => (moment p script (i + j)).state.chain.pointers x) hfailed))

/-- While a deletion is suspended and no call is made, nothing happens. -/
theorem suspended {cut : Cut} (hask : Asks p script i x) (hcall : IsCall system (moment p script i) n)
    (hb : (moment p script i).state.chain.beginDelete x = some cut)
    (halone : ∀ j, 0 < j → j < n → ∀ r, (moment p script (i + j)).move ≠ .start r) (hj : j < n) :
    (moment p script (i + (j + 1))).state = (moment p script i).state ∧
      (moment p script (i + (j + 1))).stages = .cutting cut :: (moment p script i).stages := by
  induction j with
  | zero =>
    refine ⟨hask.state_succ, ?_⟩
    obtain ⟨name, hm, hx⟩ := hask
    have hfirst : (moment p script (i + 1)).stages = _ := (Machine.step_start system hm).2
    rw [start_delete hx, hb] at hfirst
    exact hfirst
  | succ j ih =>
    obtain ⟨hstate, hstages⟩ := ih (by omega)
    have hlong := hcall.during (j + 2) (by omega) hj
    rw [moment_add] at hlong
    have hsucc : moment p script (i + (j + 1 + 1)) = (moment p script (i + (j + 1))).step system := rfl
    cases hm : (moment p script (i + (j + 1))).move with
    | rest =>
      obtain ⟨hs, hst⟩ := Machine.step_rest system hm
      rw [hsucc, hs, hst]
      exact ⟨hstate, hstages⟩
    | start r => exact absurd hm (halone (j + 1) (Nat.succ_pos j) hj r)
    | resume stage =>
      -- the deletion would go on itself, and end too early
      obtain ⟨rest, hrest, -, hst⟩ := Machine.step_resume system hm
      rw [hstages] at hrest
      obtain ⟨rfl, rfl⟩ := List.cons.inj hrest
      rw [system_resume hm] at hst
      have hended : (moment p script (i + (j + 2))).stages = (moment p script i).stages := hst
      rw [hended] at hlong
      exact absurd hlong (Nat.lt_irrefl _)

/-- **Without interruption** a deletion succeeds just on live entries. -/
theorem Deletes.alone {b : Bool} (h : Deletes p script i n x b)
    (halone : ∀ j, 0 < j → j < n → ∀ r, (moment p script (i + j)).move ≠ .start r) :
    b = true ↔ (moment p script i).state.chain.isSentinel x = false ∧
      (moment p script i).state.chain.isDeleted x = false := by
  have hnone := beginDelete_eq_none_iff h.asks
  rcases delete_call h.asks h.call with ⟨-, hb, ha⟩ | ⟨cut, hn, hb, -, -, ha⟩
  · rw [Answer.bool.inj (h.answers.unique ha)]
    rcases hnone.mp hb with hs | hd
    · simp [hs]
    · simp [hd]
  · rw [hb] at hnone
    have hlive : (moment p script i).state.chain.isSentinel x = false ∧
        (moment p script i).state.chain.isDeleted x = false := by simpa using hnone
    obtain ⟨n, rfl⟩ := Nat.exists_eq_add_one_of_ne_zero (Nat.ne_of_gt hn)
    refine ⟨fun _ => hlive, fun _ => ?_⟩
    rw [Answer.bool.inj (h.answers.unique ha)]
    obtain ⟨htarget, -, hnext⟩ := beginDelete_some hb
    by_contra hlost
    have hfailed := (finishDelete_eq_false (eq_false_of_ne_true hlost)).2
    rw [(suspended h.asks h.call hb halone (Nat.lt_succ_self n)).1, htarget] at hfailed
    exact hfailed hnext

/-! ## All deletions of a session -/

/-- What is promised of the deletions of a session. -/
structure Decided (p : Policy) (script : Interleave.Script (Request κ ν)) : Prop where
  /-- Each request to delete a node is answered, and at most one of them true. -/
  answered : ∀ i n x, Asks p script i x → IsCall system (moment p script i) n → ∃ b, Deletes p script i n x b
  winner : ∀ i n j n' x, Deletes p script i n x true → Deletes p script j n' x true → i = j ∧ n = n'
  /-- A node is deleted just if a request to delete it was answered true before. -/
  deleted : ∀ m x, (moment p script m).state.chain.isDeleted x = true ↔
    ∃ i n, i + n < m ∧ Deletes p script i n x true
  /-- The node was live until then, and its marker refers to the same successor ever since, to the end. -/
  won : ∀ i n x, Deletes p script i n x true →
    (∀ m ≤ i + n, (moment p script m).state.chain.isDeleted x = false) ∧
      ∃ f, (moment p script (i + n)).state.chain.pointers x = .node f ∧ ∀ m, i + n < m →
        (moment p script m).state.chain.pointers x = .marker f ∧
          (moment p script m).state.chain.dismantle.pointers x = .marker f
  /-- A request that is answered false came too late, or a step between changed the pointer of the node. -/
  lost : ∀ i n x, Deletes p script i n x false →
    (moment p script i).state.chain.isSentinel x = true ∨ (moment p script i).state.chain.isDeleted x = true ∨
      ∃ j, 0 < j ∧ j < n ∧ (moment p script (i + j + 1)).state.chain.pointers x ≠
        (moment p script (i + j)).state.chain.pointers x
  /-- If no call is made in between, the answer is true just for a live entry. -/
  alone : ∀ i n x b, Deletes p script i n x b →
    (∀ j, 0 < j → j < n → ∀ r, (moment p script (i + j)).move ≠ .start r) →
      (b = true ↔ (moment p script i).state.chain.isSentinel x = false ∧
        (moment p script i).state.chain.isDeleted x = false)

/-- **A deletion has one winner and no loser without a reason**, and each node is unlinked by one swing at most, however
the calls of the session interleave. -/
theorem one_winner (p : Policy) (script : Interleave.Script (Request κ ν)) :
    Decided p script ∧ ∃ swung, Unlinks p script swung := by
  refine ⟨⟨fun i n x hask hcall => ?_, fun i n j n' x => Deletes.unique, fun m x => ?_,
    fun i n x h => ⟨fun m hm => ?_, ?_⟩, fun i n x => Deletes.lost, fun i n x b h => h.alone⟩, unlinks_moment p script⟩
  · rcases delete_call hask hcall with ⟨-, -, ha⟩ | ⟨cut, -, -, -, -, ha⟩
    · exact ⟨false, hask, hcall, ha⟩
    · exact ⟨_, hask, hcall, ha⟩
  · rw [isDeleted_iff]
    constructor
    · rintro ⟨j, hj, hw⟩
      obtain ⟨i, n, rfl, hd⟩ := hw.deletes
      exact ⟨i, n, hj, hd⟩
    · rintro ⟨i, n, hlt, hd⟩
      exact ⟨i + n, hlt, hd.wins⟩
  · cases hd : (moment p script m).state.chain.isDeleted x with
    | false => rfl
    | true =>
      obtain ⟨j, hj, hw⟩ := isDeleted_iff.mp hd
      have hsame := hw.unique h.wins
      omega
  · obtain ⟨f, hnode, hmarker⟩ := h.wins.step
    refine ⟨f, hnode, fun m hm => ?_⟩
    obtain ⟨k, rfl⟩ := Nat.exists_eq_add_of_lt hm
    have hlater := marker_lasts hmarker k
    rw [Nat.add_right_comm] at hlater
    refine ⟨hlater, ?_⟩
    have hdel := isDeleted_iff_marker.mpr ⟨f, hlater⟩
    have hkept := (kept_moment p script (i + n + k + 1)).sound.next_dismantle (lt_size_of_deleted hdel)
    rw [hdel, if_neg (by simp)] at hkept
    exact hkept.trans hlater

/-- A request to delete a node is interrupted by another one for the same node, which wins. -/
theorem one_winner_nested : ∃ script : Interleave.Script (Request Nat Nat),
    Deletes .deferred script 2 4 2 false ∧ Deletes .deferred script 3 1 2 true ∧ Decided .deferred script ∧
      ∃ swung, Unlinks .deferred script swung := by
  let script : Interleave.Script (Request Nat Nat) :=
    .call (.append "HEADER" "a" 1 10) .nil
      (.call (.delete "a") (.stop 0 (.call (.delete "a") .nil .nil) .nil) .nil)
  obtain ⟨hdecided, hunlinks⟩ := one_winner .deferred script
  have hasks (i : Nat) (hi : i = 2 ∨ i = 3) : Asks .deferred script i 2 := by
    have hcheck : (match (moment .deferred script i).move with
        | .start (.delete name) => decide ((moment .deferred script i).state.names.lookup name = some 2)
        | _ => false) = true := by
      rcases hi with rfl | rfl <;> decide +kernel
    split at hcheck
    · next name hm => exact ⟨name, hm, of_decide_eq_true hcheck⟩
    · cases hcheck
  have hcall (i n : Nat) (hi : i = 2 ∧ n = 4 ∨ i = 3 ∧ n = 1) : IsCall system (moment .deferred script i) n := by
    obtain ⟨name, hm, -⟩ := hasks i (by omega)
    have hduring : ∀ j < n + 1, 0 < j → (moment .deferred script i).stages.length <
        (Machine.steps system j (moment .deferred script i)).stages.length := by
      rcases hi with ⟨rfl, rfl⟩ | ⟨rfl, rfl⟩ <;> decide +kernel
    refine ⟨⟨_, hm⟩, fun j h₀ hj => hduring j (by omega) h₀, ?_⟩
    rcases hi with ⟨rfl, rfl⟩ | ⟨rfl, rfl⟩ <;> decide +kernel
  obtain ⟨b, hinner⟩ := hdecided.answered 3 1 2 (hasks 3 (by omega)) (hcall 3 1 (by omega))
  obtain rfl : b = true :=
    (hdecided.alone 3 1 2 b hinner fun j _ _ => by omega).mpr ⟨by decide +kernel, by decide +kernel⟩
  obtain ⟨b, houter⟩ := hdecided.answered 2 4 2 (hasks 2 (by omega)) (hcall 2 4 (by omega))
  cases b with
  | false => exact ⟨script, houter, hinner, hdecided, hunlinks⟩
  | true => exact absurd (hdecided.winner 2 4 3 1 2 houter hinner).1 (by decide)

end Session
end LeastRecent.Chain
