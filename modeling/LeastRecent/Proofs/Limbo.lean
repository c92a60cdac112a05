import Mathlib.Data.List.Basic
import LeastRecent.Limbo.Session

/-!
# What a limbo destroys, and when

A session destroys what was retired in it and nothing else. Where everything waits to the end, the objects go in the
order of their first retirements (`session_deferred`); by epochs every retirement counts (`session_epoch`).

By epochs objects go earlier, but never too early: while a pin is held, only objects are destroyed that were retired
before it was taken (`spared_while_held`). The invariant is `Spares`: the closed batches are those from before the pin
and behind them those whose stamp is not older than the pin, and the epoch is at most one ahead of it. As soon as no pin
is left, a flush destroys everything (`destroyed_by_flush`).
-/

namespace LeastRecent

/-! ## Under a pin -/

namespace Epochs

variable {α : Type} {c : Epochs α} {old : List α}

/-- Nothing but `old` is destroyed as long as the pins of `c` are held. -/
structure Spares (c : Epochs α) (old : List α) : Prop where
  pinned : 0 < c.pins
  reached : c.since ≤ c.epoch
  near : c.epoch ≤ c.since + 1
  /-- Batches from before the pin come first. -/
  split : ∃ early late, c.closed = early ++ late ∧ c.destroyed ++ early.flatMap Prod.snd <+: old ∧
    ∀ b ∈ late, c.since ≤ b.1

/-- What is destroyed so far belongs to `old`. -/
theorem Spares.prefix_old (h : c.Spares old) : c.destroyed <+: old := by
  obtain ⟨early, _, _, hold, _⟩ := h.split
  exact (List.prefix_append _ _).trans hold

theorem Spares.closeBatch (h : c.Spares old) : c.closeBatch.Spares old := by
  unfold Epochs.closeBatch
  split
  · exact h
  · obtain ⟨early, late, hc, hold, hlate⟩ := h.split
    refine ⟨h.pinned, h.reached, h.near, early, late ++ [(c.epoch, c.batch)], by simp [hc], hold, ?_⟩
    intro b hb
    rcases List.mem_append.mp hb with hb | hb
    · exact hlate b hb
    · rw [List.mem_singleton.mp hb]; exact h.reached

theorem Spares.advance (h : c.Spares old) : c.advance.Spares old := by
  unfold Epochs.advance
  split
  · next hc =>
    have := h.pinned
    exact ⟨h.pinned, Nat.le_succ_of_le h.reached, by simp only; omega, h.split⟩
  · exact h

/-- Elements that fail a test end what is taken in front of them. -/
theorem span_append {β : Type} {p : β → Bool} (xs : List β) {ys : List β} (h : ∀ y ∈ ys, p y = false) :
    (xs ++ ys).takeWhile p = xs.takeWhile p ∧ (xs ++ ys).dropWhile p = xs.dropWhile p ++ ys := by
  induction xs with
  | nil =>
    cases ys with
    | nil => exact ⟨rfl, rfl⟩
    | cons y ys => simp [h y List.mem_cons_self]
  | cons x xs ih => cases hx : p x <;> simp [hx, ih]

/-- A late batch is too young to be destroyed. -/
theorem Spares.destroyExpired (h : c.Spares old) : c.destroyExpired.Spares old := by
  obtain ⟨early, late, hc, hold, hlate⟩ := h.split
  have hyoung : ∀ b ∈ late, c.expired b.1 = false := by
    intro b hb
    have hb := hlate b hb
    have hn := h.near
    simp only [expired, decide_eq_false_iff_not]
    omega
  obtain ⟨htake, hdrop⟩ := span_append early hyoung
  refine ⟨h.pinned, h.reached, h.near, early.dropWhile fun b => c.expired b.1, late, ?_, ?_, hlate⟩
  · rw [Epochs.destroyExpired, hc]
    exact hdrop
  · rw [Epochs.destroyExpired, hc]
    dsimp only
    rw [htake, List.append_assoc, ← List.flatMap_append, List.takeWhile_append_dropWhile]
    exact hold

theorem Spares.turn (h : c.Spares old) : c.turn.Spares old := h.advance.destroyExpired

/-- The first pin spares whatever is retired from now on. -/
theorem spares_pin (h : c.pins = 0) : c.pin.Spares c.objects := by
  have hsplit : ∃ early late, c.closed = early ++ late ∧ c.destroyed ++ early.flatMap Prod.snd <+: c.objects ∧
      ∀ b ∈ late, c.epoch ≤ b.1 :=
    ⟨c.closed, [], by simp, List.prefix_append _ _, by simp⟩
  have hpin : Spares { c with pins := 1, since := c.epoch, taken := c.taken + 1 } c.objects :=
    ⟨Nat.one_pos, Nat.le_refl _, Nat.le_succ _, hsplit⟩
  unfold pin
  rw [if_pos h]
  dsimp only
  split
  · exact hpin.turn
  · exact hpin

/-- Further pins change nothing. -/
theorem Spares.pin (h : c.Spares old) : c.pin.Spares old := by
  unfold Epochs.pin
  rw [if_neg (Nat.ne_of_gt h.pinned)]
  exact ⟨Nat.succ_pos _, h.reached, h.near, h.split⟩

/-- A pin may be given back that is not the last. -/
theorem Spares.unpin (h : c.Spares old) (hp : 0 < c.unpin.pins) : c.unpin.Spares old :=
  ⟨hp, h.reached, h.near, h.split⟩

theorem Spares.add (h : c.Spares old) (a : α) : (c.add a).Spares old := by
  have hbatch {d : Epochs α} (hd : d.Spares old) : Spares { d with batch := d.batch ++ [a] } old :=
    ⟨hd.pinned, hd.reached, hd.near, hd.split⟩
  unfold Epochs.add
  dsimp only
  split
  · exact hbatch h.closeBatch
  · exact hbatch h

theorem pins_add (c : Epochs α) (a : α) : (c.add a).pins = c.pins := by
  unfold add closeBatch
  dsimp only
  split
  · split <;> rfl
  · rfl

theorem Spares.retire (h : c.Spares old) (a : α) : (c.retire a).Spares old := by
  refine (h.pin.add a).unpin ?_
  have hp := h.pinned
  simp only [Epochs.unpin, pins_add, Epochs.pin, if_neg (Nat.ne_of_gt hp)]
  omega

theorem Spares.flush (h : c.Spares old) : c.flush.Spares old := by
  unfold Epochs.flush
  rw [if_neg (Nat.ne_of_gt h.pinned)]
  exact h.closeBatch.turn

end Epochs

namespace Limbo

/-- The object that a request retires. -/
def Request.retired? : Request → Option Nat
  | .retire id => some id
  | .pin | .unpin | .flush => none

/-- What the requests retire, in this order. -/
def retirements (rs : List Request) : List Nat := rs.filterMap Request.retired?

theorem retirements_cons (r : Request) (rs : List Request) :
    retirements (r :: rs) = r.retired?.toList ++ retirements rs := by
  unfold retirements
  rw [List.filterMap_cons]
  cases r.retired? <;> rfl

/-- The epochs when `rs` have been served. -/
def after (c : Epochs Nat) (rs : List Request) : Epochs Nat := (serveAll serveByEpochs c rs).1

/-- A pin is held all the time while `rs` are served. -/
def Held (c : Epochs Nat) : List Request → Prop
  | [] => 0 < c.pins
  | r :: rs => 0 < c.pins ∧ Held (serveByEpochs c r).1 rs

instance Held.decidable (c : Epochs Nat) : (rs : List Request) → Decidable (Held c rs)
  | [] => inferInstanceAs (Decidable (0 < c.pins))
  | r :: rs =>
    let _ := Held.decidable (serveByEpochs c r).1 rs
    inferInstanceAs (Decidable (0 < c.pins ∧ Held (serveByEpochs c r).1 rs))

variable {c : Epochs Nat}

theorem after_append (c : Epochs Nat) (rs rs' : List Request) : after c (rs ++ rs') = after (after c rs) rs' := by
  induction rs generalizing c with
  | nil => rfl
  | cons r rs ih => exact ih _

/-- A request loses no object. -/
theorem objects_serve (c : Epochs Nat) (r : Request) :
    (serveByEpochs c r).1.objects = c.objects ++ r.retired?.toList := by
  cases r with
  | retire id => exact c.objects_retire id
  | pin => exact c.objects_pin.trans (List.append_nil _).symm
  | unpin => exact (List.append_nil _).symm
  | flush => exact c.objects_flush.trans (List.append_nil _).symm

/-- Requests lose no object. -/
theorem objects_after (c : Epochs Nat) (rs : List Request) : (after c rs).objects = c.objects ++ retirements rs := by
  induction rs generalizing c with
  | nil => exact (List.append_nil _).symm
  | cons r rs ih =>
    calc (after (serveByEpochs c r).1 rs).objects
        = (serveByEpochs c r).1.objects ++ retirements rs := ih _
      _ = c.objects ++ retirements (r :: rs) := by rw [objects_serve, retirements_cons, List.append_assoc]

/-- A request that leaves a pin destroys nothing but `old`. -/
theorem spares_serve {old : List Nat} (h : c.Spares old) {r : Request} (hp : 0 < (serveByEpochs c r).1.pins) :
    (serveByEpochs c r).1.Spares old := by
  cases r with
  | retire id => exact h.retire id
  | pin => exact h.pin
  | unpin => exact h.unpin hp
  | flush => exact h.flush

theorem Held.pinned {rs : List Request} (h : Held c rs) : 0 < c.pins := by
  cases rs with
  | nil => exact h
  | cons r rs => exact h.1

/-- Requests under a pin destroy nothing but `old`. -/
theorem spares_after {old : List Nat} {rs : List Request} (h : c.Spares old) (hh : Held c rs) :
    (after c rs).Spares old := by
  induction rs generalizing c with
  | nil => exact h
  | cons r rs ih => exact ih (spares_serve h hh.2.pinned) hh.2

/-- While a pin is held, only objects are destroyed that were retired before it was taken. -/
theorem spared_while_held {before during : List Request} (h : (after .start before).pins = 0)
    (hh : Held (after .start before).pin during) :
    (after .start (before ++ .pin :: during)).destroyed <+: retirements before := by
  have hs := (spares_after (Epochs.spares_pin h) hh).prefix_old
  rw [objects_after] at hs
  rw [after_append]
  exact hs

example : Held (after .start [.retire 1, .flush]).pin [.retire 2, .flush] ∧
    (after .start [.retire 1, .flush, .pin, .retire 2, .flush]).destroyed = [1] := by
  decide

/-- As soon as no pin is held, a flush destroys everything retired so far. -/
theorem destroyed_by_flush {rs : List Request} (h : (after .start rs).pins = 0) :
    (after .start (rs ++ [.flush])).destroyed = retirements rs := by
  rw [after_append]
  exact (Epochs.destroyed_flush h).trans (objects_after .start rs)

/-- By epochs a session destroys every object as often as it was retired. -/
theorem session_epoch (rs : List Request) : (session .epoch rs).2 = sorted (retirements rs) :=
  congrArg sorted (objects_after .start rs)

/-! ## Without epochs -/

/-- An object waits from its first retirement on. -/
theorem waiting_serve {l : Limbo Nat} {past : List Nat} (hp : l.policy = .deferred) (hw : l.waiting = past.eraseDups)
    (r : Request) :
    (serve l r).1.policy = .deferred ∧ (serve l r).1.waiting = (past ++ r.retired?.toList).eraseDups := by
  cases r with
  | retire id =>
    have hr : (past ++ [id]).eraseDups = l.waiting ++ ([id].removeAll past).eraseDups := by
      rw [hw]; exact List.eraseDups_append
    have hm : id ∈ l.waiting ↔ id ∈ past := by rw [hw]; exact List.mem_eraseDups
    simp only [Request.retired?, Option.toList_some, hr]
    by_cases h : id ∈ past
    · simp [serve, retire, hp, hm, h, List.removeAll]
    · simp [serve, retire, hp, hm, h, List.removeAll, List.eraseDups_cons]
  | pin | unpin | flush => exact ⟨hp, hw.trans (by rw [Request.retired?, Option.toList_none, List.append_nil])⟩

theorem waiting_serveAll {l : Limbo Nat} {past : List Nat} (hp : l.policy = .deferred)
    (hw : l.waiting = past.eraseDups) (rs : List Request) :
    (serveAll serve l rs).1.waiting = (past ++ retirements rs).eraseDups := by
  induction rs generalizing l past with
  | nil => exact hw.trans (congrArg List.eraseDups (List.append_nil past).symm)
  | cons r rs ih =>
    obtain ⟨hp', hw'⟩ := waiting_serve hp hw r
    rw [retirements_cons, ← List.append_assoc]
    exact ih hp' hw'

/-- Where everything waits to the end, a session destroys each object once, in the order of first retirements. -/
theorem session_deferred (rs : List Request) : (session .deferred rs).2 = (retirements rs).eraseDups :=
  have hw : (empty .deferred : Limbo Nat).waiting = [].eraseDups := rfl
  waiting_serveAll rfl hw rs

end Limbo
end LeastRecent
