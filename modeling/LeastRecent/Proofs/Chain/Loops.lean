import LeastRecent.Proofs.Chain.Chronicle

/-!
# Loops end

Every loop of the chain repeats one round until the round ends it (`Halts`). The numeric arguments of the functions that
stand for loops bound the rounds, and no more: where a measure falls with each round, the loop ends of itself, with the
result that the function has, as soon as the bound is above the measure (`Halts.of_bound`).

* A release goes back along the hints, so it ends wherever hints lead backward, from every node, retired ones included
  (`Ranked.halts_release`).
* Loops that go forward end at the trailer, which is behind all nodes; those that go back end at the header at the latest
  (`Sound.loopsEnd`). So does the loop that takes the chain apart.
-/

namespace LeastRecent.Chain

variable {α σ β : Type}

/-- Repeating the round `body` from `s` on comes to an end with `r`, and whenever it is repeated `I` holds. -/
inductive Halts (I : σ → Prop) (body : σ → σ ⊕ β) : σ → β → Prop
  | stop {s : σ} {r : β} (hs : I s) (h : body s = .inr r) : Halts I body s r
  | again {s s' : σ} {r : β} (hs : I s) (h : body s = .inl s') (hrest : Halts I body s' r) : Halts I body s r

namespace Halts

variable {I J : σ → Prop} {body : σ → σ ⊕ β} {s : σ} {r : β}

theorem mono (h : Halts I body s r) (hij : ∀ s, I s → J s) : Halts J body s r := by
  induction h with
  | stop hs h => exact .stop (hij _ hs) h
  | again hs h _ ih => exact .again (hij _ hs) h ih

/-- The function `f` does up to so many rounds. If a measure falls with each of them, it does all that there are as soon
as their number is allowed to be above the measure. -/
theorem of_bound {f : Nat → σ → β} {μ : σ → Nat}
    (hf : ∀ n s, f (n + 1) s = Sum.elim (f n) id (body s))
    (hI : ∀ s s', I s → body s = .inl s' → I s' ∧ μ s' < μ s) (n : Nat) :
    ∀ {s : σ}, I s → μ s < n → Halts I body s (f n s) := by
  induction n with
  | zero => exact fun _ hμ => absurd hμ (Nat.not_lt_zero _)
  | succ n ih =>
    intro s hs hμ
    rw [hf]
    cases h : body s with
    | inl s' =>
      obtain ⟨hs', hlt⟩ := hI s s' hs h
      exact .again hs h (ih hs' (by omega))
    | inr r => exact .stop hs h

end Halts

variable {c c' : Chain α} {order held : List NodeId} {x y target : NodeId}

/-! ## Back along the hints -/

/-- One round of a release: a link less, and if it was the last one of the node, the hint of the node to be released
next. -/
def releaseRound : Chain α × Option NodeId → (Chain α × Option NodeId) ⊕ Chain α
  | (c, none) => .inr c
  | (c, some x) =>
    match (c.node x).links with
    | 0 => .inr (c.fail .linkUnderflow)
    | 1 => .inl (c.expire x, (c.node x).prev)
    | k + 2 => .inr (c.modify x fun n => { n with links := k + 1 })

theorem releaseWithin_succ (n : Nat) (s : Chain α × Option NodeId) :
    releaseWithin (n + 1) s.1 s.2 = Sum.elim (fun s => releaseWithin n s.1 s.2) id (releaseRound s) := by
  obtain ⟨c, _ | x⟩ := s
  · rfl
  · rcases hl : (c.node x).links with _ | _ | k <;>
      simp only [releaseWithin, releaseRound, hl, expire, Sum.elim_inl, Sum.elim_inr, id]

theorem Ranked.expire (h : Ranked c order) (x : NodeId) : Ranked (c.expire x) order := by
  have hl : Loosens (c.modify x fun n => { n with links := 0, prev := none }) (c.expire x) := loosens_retire _ x
  refine h.of_hints ((retains_modify c x _).trans (retains_retire _ x)).size fun y b hb => ?_
  have hb' := hl.prev y b hb
  rcases Nat.lt_or_ge x c.size with hx | hx
  · rw [node_modify c x y _ hx] at hb'
    split at hb'
    · cases hb'
    · exact hb'
  · rwa [node_modify_of_size_le hx] at hb'

/-- **A release ends** wherever hints lead backward, from every node and from none. -/
theorem Ranked.halts_release (h : Ranked c order) (x : Option NodeId) :
    Halts (fun s => Ranked s.1 order) releaseRound (c, x) (c.release? x) := by
  have hfalls (s s' : Chain α × Option NodeId) (hs : Ranked s.1 order) (hbody : releaseRound s = .inl s') :
      Ranked s'.1 order ∧
        s'.2.elim 0 (fun x => order.idxOf x + 1) < s.2.elim 0 (fun x => order.idxOf x + 1) := by
    obtain ⟨c, _ | x⟩ := s
    · cases hbody
    · unfold releaseRound at hbody
      dsimp only at hbody
      split at hbody
      · cases hbody
      · cases hbody
        refine ⟨hs.expire x, ?_⟩
        cases hp : (c.node x).prev with
        | none => exact Nat.succ_pos _
        | some b => exact Nat.succ_lt_succ (hs.hint x b hp).2
      · cases hbody
  have hmany (n : Nat) (hn : x.elim 0 (fun x => order.idxOf x + 1) < n) :=
    Halts.of_bound (f := fun n s => releaseWithin n s.1 s.2)
      (μ := fun s => s.2.elim 0 fun x => order.idxOf x + 1) releaseWithin_succ hfalls n (s := (c, x)) h hn
  cases x with
  | none => exact hmany _ (Nat.succ_pos _)
  | some x =>
    rcases Nat.lt_or_ge x c.size with hx | hx
    · exact hmany _ (Nat.succ_lt_succ (h.idxOf_lt ((h.mem x).mpr hx)))
    · -- a node that was never linked has no links to give back
      have hlinks : (c.node x).links = 0 := by rw [node_of_size_le hx]; rfl
      have hround : releaseRound (c, some x) = .inr (c.fail .linkUnderflow) := by simp only [releaseRound, hlinks]
      have hresult : c.release? (some x) = c.fail .linkUnderflow := by simp only [release?, releaseWithin, hlinks]
      rw [hresult]
      exact .stop h hround

/-! ## Forward along the pointers -/

/-- How many nodes stand behind `x`. -/
def ahead (order : List NodeId) (x : NodeId) : Nat := order.length - 1 - order.idxOf x

theorem ahead_lt (hy : y ∈ order) (hlt : order.idxOf x < order.idxOf y) : ahead order y < ahead order x := by
  have := List.idxOf_lt_length_of_mem hy
  unfold ahead
  omega

theorem Laid.ahead_lt_size (h : Laid c order) (x : NodeId) : ahead order x < c.size := by
  have hlength := h.ranked.length
  have hpos := h.size_pos
  unfold ahead
  omega

/-- From every node the pointers lead to the trailer. -/
theorem Laid.line (h : Laid c order) (n : Nat) :
    ∀ {x : NodeId}, x ∈ order → ahead order x < n → ∃ xs, Line c.pointers x xs := by
  induction n with
  | zero => exact fun _ hn => absurd hn (Nat.not_lt_zero _)
  | succ n ih =>
    intro x hx hn
    by_cases ht : x = trailer
    · exact ⟨[], ht ▸ .stop⟩
    · obtain ⟨f, hf, hnext, hlt, -⟩ := h.next x hx ht
      have hless := ahead_lt hf hlt
      obtain ⟨xs, hxs⟩ := ih hf (by omega)
      exact ⟨x :: xs, .step ht hnext hxs⟩

/-- One round of skimming: a deleted node is passed. -/
def skimRound (c : Chain α) :
    List NodeId × Option NodeId → (List NodeId × Option NodeId) ⊕ (List NodeId × Option NodeId)
  | (dead, none) => .inr (dead, none)
  | (dead, some x) => if c.isDeleted x then .inl (dead ++ [x], (c.node x).next.node?) else .inr (dead, some x)

/-- Skimming ends, at the trailer if not before. -/
theorem Laid.halts_skim (h : Laid c order) (x : NodeId) :
    Halts (fun _ => True) (skimRound c) ([], (c.node x).next.node?) (c.skim c.size (c.node x).next.node?) := by
  have hround (n : Nat) (s : List NodeId × Option NodeId) :
      (s.1 ++ (c.skim (n + 1) s.2).1, (c.skim (n + 1) s.2).2) =
        Sum.elim (fun s => (s.1 ++ (c.skim n s.2).1, (c.skim n s.2).2)) id (skimRound c s) := by
    obtain ⟨dead, _ | y⟩ := s
    · simp [Chain.skim, skimRound]
    · by_cases hd : c.isDeleted y = true <;> simp [Chain.skim, skimRound, hd]
  have hfalls (s s' : List NodeId × Option NodeId) (_ : True) (hbody : skimRound c s = .inl s') :
      True ∧ s'.2.elim 0 (ahead order) < s.2.elim 0 (ahead order) := by
    obtain ⟨dead, _ | y⟩ := s
    · cases hbody
    · rw [skimRound] at hbody
      split at hbody
      · next hd =>
        cases hbody
        have ht : y ≠ trailer := by
          rintro rfl
          rw [h.trailer_live] at hd
          cases hd
        obtain ⟨g, hg, hn, hlt, -⟩ := h.next y ((h.mem y).mpr (lt_size_of_deleted hd)) ht
        dsimp only
        rw [hn]
        exact ⟨trivial, ahead_lt hg hlt⟩
      · cases hbody
  refine Halts.of_bound (f := fun n s => (s.1 ++ (c.skim n s.2).1, (c.skim n s.2).2))
    (μ := fun s => s.2.elim 0 (ahead order)) hround hfalls c.size (s := ([], (c.node x).next.node?)) trivial ?_
  cases (c.node x).next.node? with
  | none => exact h.size_pos
  | some f => exact h.ahead_lt_size f

/-- One step forward to the next node that is not deleted, as long as there is one. -/
def advanceRound : Chain α × NodeId → (Chain α × NodeId) ⊕ (Chain α × NodeId)
  | (c, x) =>
    match c.successor x with
    | (c₁, none) => .inr (c₁, x)
    | (c₁, some f) => .inl (c₁, f)

/-- One round of a search for the node before `target`. -/
def seekRound (target : NodeId) : Chain α × NodeId → (Chain α × NodeId) ⊕ (Chain α × Option NodeId)
  | (c, start) =>
    match c.successor start with
    | (c₁, none) => .inr (c₁, none)
    | (c₁, some f) => if f = target then .inr (c₁, some start) else .inl (c₁, f)

/-- One round of a walk along many nodes. -/
def walkRound (move : Chain α → NodeId → Chain α × Option NodeId) :
    Chain α × NodeId × List NodeId → (Chain α × NodeId × List NodeId) ⊕ (Chain α × List NodeId)
  | (c, x, ys) =>
    match move c x with
    | (c₁, none) => .inr (c₁, ys)
    | (c₁, some y) => .inl (c₁, y, ys ++ [y])

namespace Sound

/-- A step forward finds a node behind, and leaves the chain sound. -/
theorem successor_ahead (h : Sound c order held) (hx : x ∈ order) (hs : c.successor x = (c', some y)) :
    Sound c' order held ∧ y ∈ order ∧ ahead order y < ahead order x := by
  have ht : x ≠ trailer := by
    rintro rfl
    rw [h.successor_trailer] at hs
    cases hs
  obtain ⟨f, hf, hn, hs', -⟩ := h.successor hx ht
  rw [hs] at hf hs'
  cases hf
  exact ⟨hs', hn.mem, ahead_lt hn.mem hn.lt⟩

/-- Step by step forward the trailer is reached. -/
theorem halts_advance (n : Nat) : ∀ {c : Chain α} {x : NodeId}, Sound c order held → x ∈ order → ahead order x < n →
    ∃ c', Halts (fun s => Sound s.1 order held) advanceRound (c, x) (c', trailer) := by
  induction n with
  | zero => exact fun _ _ hn => absurd hn (Nat.not_lt_zero _)
  | succ n ih =>
    intro c x h hx hn
    by_cases ht : x = trailer
    · refine ⟨c, ht ▸ .stop h ?_⟩
      have hstop := h.successor_trailer
      rw [← ht] at hstop
      simp only [advanceRound, hstop]
    · obtain ⟨f, hf, hnext, hs, -⟩ := h.successor hx ht
      have hless := ahead_lt hnext.mem hnext.lt
      obtain ⟨c', hc'⟩ := ih hs hnext.mem (by omega)
      refine ⟨c', .again h ?_ hc'⟩
      cases hsucc : c.successor x with
      | mk c₁ r =>
        rw [hsucc] at hf
        cases hf
        simp only [advanceRound, hsucc]

theorem halts_seek (h : Sound c order held) (hx : x ∈ order) (target : NodeId) :
    Halts (fun s => Sound s.1 order held) (seekRound target) (c, x) (Chain.seek c.size c x target) := by
  have hround (n : Nat) (s : Chain α × NodeId) : Chain.seek (n + 1) s.1 s.2 target =
      Sum.elim (fun s => Chain.seek n s.1 s.2 target) id (seekRound target s) := by
    obtain ⟨c, x⟩ := s
    rcases hs : c.successor x with ⟨c₁, _ | f⟩
    · simp [Chain.seek, seekRound, hs]
    · by_cases hf : f = target <;> simp [Chain.seek, seekRound, hs, hf]
  have hfalls (s s' : Chain α × NodeId) (hs : Sound s.1 order held ∧ s.2 ∈ order)
      (hbody : seekRound target s = .inl s') :
      (Sound s'.1 order held ∧ s'.2 ∈ order) ∧ ahead order s'.2 < ahead order s.2 := by
    obtain ⟨c, x⟩ := s
    unfold seekRound at hbody
    dsimp only at hbody
    split at hbody
    · cases hbody
    · next c₁ f hsucc =>
      split at hbody
      · cases hbody
      · cases hbody
        obtain ⟨hc, hf, hlt⟩ := hs.1.successor_ahead hs.2 hsucc
        exact ⟨⟨hc, hf⟩, hlt⟩
  exact (Halts.of_bound (f := fun n s => Chain.seek n s.1 s.2 target) (μ := fun s => ahead order s.2) hround hfalls c.size
    (s := (c, x)) ⟨h, hx⟩ (h.laid.ahead_lt_size x)).mono fun s hs => hs.1

/-- A walk ends if each of its steps leads closer to its end. -/
theorem halts_walk {move : Chain α → NodeId → Chain α × Option NodeId} {μ : NodeId → Nat}
    (hmove : ∀ {c c' : Chain α} {x y : NodeId}, Sound c order held → x ∈ order → move c x = (c', some y) →
      Sound c' order held ∧ y ∈ order ∧ μ y < μ x)
    (h : Sound c order held) (hx : x ∈ order) (hμ : μ x < c.size) :
    Halts (fun s => Sound s.1 order held) (walkRound move) (c, x, []) (iterate move c.size c x) := by
  have hround (n : Nat) (s : Chain α × NodeId × List NodeId) :
      ((iterate move (n + 1) s.1 s.2.1).1, s.2.2 ++ (iterate move (n + 1) s.1 s.2.1).2) =
        Sum.elim (fun s => ((iterate move n s.1 s.2.1).1, s.2.2 ++ (iterate move n s.1 s.2.1).2)) id
          (walkRound move s) := by
    obtain ⟨c, x, ys⟩ := s
    rcases hs : move c x with ⟨c₁, _ | y⟩ <;> simp [iterate, walkRound, hs]
  have hfalls (s s' : Chain α × NodeId × List NodeId) (hs : Sound s.1 order held ∧ s.2.1 ∈ order)
      (hbody : walkRound move s = .inl s') : (Sound s'.1 order held ∧ s'.2.1 ∈ order) ∧ μ s'.2.1 < μ s.2.1 := by
    obtain ⟨c, x, ys⟩ := s
    unfold walkRound at hbody
    dsimp only at hbody
    split at hbody
    · cases hbody
    · next c₁ y hm =>
      cases hbody
      obtain ⟨hc, hy, hlt⟩ := hmove hs.1 hs.2 hm
      exact ⟨⟨hc, hy⟩, hlt⟩
  exact (Halts.of_bound (f := fun n s => ((iterate move n s.1 s.2.1).1, s.2.2 ++ (iterate move n s.1 s.2.1).2))
    (μ := fun s => μ s.2.1) hround hfalls c.size (s := (c, x, [])) ⟨h, hx⟩ hμ).mono fun s hs => hs.1

theorem forward_ahead (h : Sound c order held) (hx : x ∈ order) (hs : c.forward x = (c', some y)) :
    Sound c' order held ∧ y ∈ order ∧ ahead order y < ahead order x := by
  obtain ⟨hc, -, ⟨hn, -⟩ | ⟨z, hz, hm, hlt, -⟩⟩ := h.forward hx
  · rw [hs] at hn
    cases hn
  · rw [hs] at hz hc
    cases hz
    exact ⟨hc, hm, ahead_lt hm hlt⟩

theorem back_before (h : Sound c order held) (hx : x ∈ order) (hs : c.back x = (c', some y)) :
    Sound c' order held ∧ y ∈ order ∧ order.idxOf y < order.idxOf x := by
  obtain ⟨hc, -, ⟨hn, -⟩ | ⟨z, hz, hp, -⟩⟩ := h.back hx
  · rw [hs] at hn
    cases hn
  · rw [hs] at hz hc
    cases hz
    exact ⟨hc, hp.mem, hp.lt⟩

end Sound

/-! ## Backward -/

/-- One round of the search for the node before `target`: its hint leads to the answer, or forward to it, or to a node
further back. -/
def retreatRound (target : NodeId) : Chain α × NodeId → (Chain α × NodeId) ⊕ (Chain α × Option NodeId)
  | (c, n) =>
    match (c.node n).prev with
    | none => .inr (seek c.size c header target)
    | some b =>
      if (c.node b).next = .node target then .inr (c, some b)
      else if c.isDeleted b then .inl (c, b)
      else
        match seek c.size c b target with
        | (c₁, some p) => .inr (c₁, some p)
        | (c₁, none) => .inl (c₁, b)

theorem predecessorFrom_succ (target : NodeId) (n : Nat) (s : Chain α × NodeId) :
    predecessorFrom (n + 1) s.1 s.2 target =
      Sum.elim (fun s => predecessorFrom n s.1 s.2 target) id (retreatRound target s) := by
  obtain ⟨c, x⟩ := s
  cases hp : (c.node x).prev with
  | none => simp [predecessorFrom, retreatRound, hp]
  | some b =>
    by_cases hb : (c.node b).next = .node target
    · simp [predecessorFrom, retreatRound, hp, hb]
    · by_cases hd : c.isDeleted b = true
      · simp [predecessorFrom, retreatRound, hp, hb, hd]
      · rcases hs : seek c.size c b target with ⟨c₁, _ | p⟩ <;>
          simp [predecessorFrom, retreatRound, hp, hb, hd, hs]

/-- The hints lead strictly backward, whatever the searches forward between change. -/
theorem Sound.halts_predecessor (h : Sound c order held) (hx : x ∈ order) (target : NodeId) :
    Halts (fun s => Sound s.1 order held) (retreatRound target) (c, x) (Chain.predecessorFrom c.size c x target) := by
  have hfalls (s s' : Chain α × NodeId) (hs : Sound s.1 order held ∧ s.2 ∈ order)
      (hbody : retreatRound target s = .inl s') :
      (Sound s'.1 order held ∧ s'.2 ∈ order) ∧ order.idxOf s'.2 < order.idxOf s.2 := by
    obtain ⟨c, n⟩ := s
    unfold retreatRound at hbody
    cases hp : (c.node n).prev with
    | none => simp only [hp] at hbody; cases hbody
    | some b =>
      obtain ⟨hb, hlt⟩ := hs.1.laid.hint n b hp
      simp only [hp] at hbody
      split at hbody
      · cases hbody
      · split at hbody
        · cases hbody
          exact ⟨⟨hs.1, hb⟩, hlt⟩
        · next hlive =>
          obtain ⟨hc, -⟩ := hs.1.seek target c.size hb ((Bool.not_eq_true _).mp hlive)
          cases hseek : Chain.seek c.size c b target with
          | mk c₁ found =>
            rw [hseek] at hc hbody
            cases found with
            | some p => cases hbody
            | none =>
              cases hbody
              exact ⟨⟨hc, hb⟩, hlt⟩
  exact (Halts.of_bound (f := fun n s => Chain.predecessorFrom n s.1 s.2 target) (μ := fun s => order.idxOf s.2)
    (predecessorFrom_succ target) hfalls c.size (s := (c, x)) ⟨h, hx⟩ (h.laid.idxOf_lt hx)).mono
      fun s hs => hs.1

/-! ## Taking the chain apart -/

/-- One round of taking the chain apart: a node loses its link of the chain. -/
def dismantleRound : Chain α × NodeId → (Chain α × NodeId) ⊕ Chain α
  | (c, x) =>
    if x = trailer then .inr c
    else
      match (c.node x).next with
      | .nothing => .inr c
      | .node f => .inl ((c.modify x fun n => { n with next := .nothing }).release x, f)
      | .marker f => .inl (c.release x, f)

theorem dismantleFrom_succ (n : Nat) (s : Chain α × NodeId) :
    dismantleFrom (n + 1) s.1 s.2 = Sum.elim (fun s => dismantleFrom n s.1 s.2) id (dismantleRound s) := by
  obtain ⟨c, x⟩ := s
  by_cases ht : x = trailer
  · simp [dismantleFrom, dismantleRound, ht]
  · cases hn : (c.node x).next <;> simp [dismantleFrom, dismantleRound, ht, hn]

/-- With every round hints only get lost, and the pointers ahead stay as they are. -/
theorem dismantleRound_keeps {s s' : Chain α × NodeId} (hr : Ranked s.1 order) (h : dismantleRound s = .inl s') :
    Ranked s'.1 order ∧ s.2 ≠ trailer ∧ (s.1.node s.2).next.node? = some s'.2 ∧
      ∀ y, y ≠ s.2 → s'.1.pointers y = s.1.pointers y := by
  obtain ⟨c, x⟩ := s
  unfold dismantleRound at h
  dsimp only at h
  split at h
  · cases h
  · next ht =>
    split at h
    · cases h
    · next f hn =>
      cases h
      refine ⟨(hr.sheds (sheds_forget c x)).of_hints (retains_release _ x).size (loosens_release _ x).prev, ht, ?_,
        fun y hy => ?_⟩
      · rw [hn]
        rfl
      · rw [pointers_release, pointers_modify (lt_size_of_next hn), Function.update_of_ne hy]
    · next f hn =>
      cases h
      refine ⟨hr.of_hints (retains_release c x).size (loosens_release c x).prev, ht, ?_, fun y _ => ?_⟩
      · rw [hn]
        rfl
      · rw [pointers_release]

theorem dismantleRound_stop {s : Chain α × NodeId} {r : Chain α} (h : dismantleRound s = .inr r) : r = s.1 := by
  obtain ⟨c, x⟩ := s
  unfold dismantleRound at h
  dsimp only at h
  split at h
  · exact (Sum.inr.inj h).symm
  · split at h
    · exact (Sum.inr.inj h).symm
    · cases h
    · cases h

/-- The loop along the chain ends at the trailer, and hints lead backward still. -/
theorem Laid.halts_dismantle (h : Laid c order) (hx : x ∈ order) :
    Halts (fun s => Ranked s.1 order) dismantleRound (c, x) (dismantleFrom c.size c x) := by
  have hfalls (s s' : Chain α × NodeId)
      (hs : Ranked s.1 order ∧ s.2 ∈ order ∧ ∀ y, order.idxOf s.2 ≤ order.idxOf y → s.1.pointers y = c.pointers y)
      (hbody : dismantleRound s = .inl s') :
      (Ranked s'.1 order ∧ s'.2 ∈ order ∧
        ∀ y, order.idxOf s'.2 ≤ order.idxOf y → s'.1.pointers y = c.pointers y) ∧
          ahead order s'.2 < ahead order s.2 := by
    obtain ⟨hr, hm, hq⟩ := hs
    obtain ⟨hr', ht, hnext, hq'⟩ := dismantleRound_keeps hr hbody
    obtain ⟨f, hf, hn, hlt, -⟩ := h.next s.2 hm ht
    have hsame : s.1.pointers s.2 = c.pointers s.2 := hq s.2 (Nat.le_refl _)
    obtain rfl : f = s'.2 := Option.some.inj (hn.symm.trans ((congrArg Next.node? hsame).symm.trans hnext))
    refine ⟨⟨hr', hf, fun y hy => ?_⟩, ahead_lt hf hlt⟩
    have hne : y ≠ s.2 := by
      rintro rfl
      omega
    rw [hq' y hne, hq y (by omega)]
  exact (Halts.of_bound (f := fun n s => dismantleFrom n s.1 s.2) (μ := fun s => ahead order s.2) dismantleFrom_succ
    hfalls c.size (s := (c, x)) ⟨h.ranked, hx, fun _ _ => rfl⟩ (h.ahead_lt_size x)).mono fun s hs => hs.1

theorem Ranked.dismantleFrom (n : Nat) : ∀ {c : Chain α} {x : NodeId}, Ranked c order →
    Ranked (dismantleFrom n c x) order := by
  induction n with
  | zero => exact id
  | succ n ih =>
    intro c x h
    rw [dismantleFrom_succ n (c, x)]
    cases hr : dismantleRound (c, x) with
    | inl s' => exact ih (dismantleRound_keeps (s := (c, x)) h hr).1
    | inr r =>
      rw [Sum.elim_inr, id, dismantleRound_stop hr]
      exact h

/-! ## All loops -/

/-- All loops of the chain end, with the results that they are given, from every node ever linked, deleted and retired
ones included. Before each round of a walk the chain is sound, so that loops within end as well, and whenever links are
given back hints lead backward. -/
structure LoopsEnd (c : Chain α) (order held : List NodeId) : Prop where
  /-- From every node the pointers lead to the trailer. -/
  line : ∀ x < c.size, ∃ xs, Line c.pointers x xs
  release : ∀ x, Halts (fun s => Ranked s.1 order) releaseRound (c, x) (c.release? x)
  skim : ∀ x, Halts (fun _ => True) (skimRound c) ([], (c.node x).next.node?) (c.skim c.size (c.node x).next.node?)
  advance : ∀ x < c.size, ∃ c', Halts (fun s => Sound s.1 order held) advanceRound (c, x) (c', trailer)
  seek : ∀ x < c.size, ∀ target,
    Halts (fun s => Sound s.1 order held) (seekRound target) (c, x) (seek c.size c x target)
  predecessor : ∀ x < c.size, Halts (fun s => Sound s.1 order held) (retreatRound x) (c, x) (c.predecessor x)
  walk : ∀ x < c.size, Halts (fun s => Sound s.1 order held) (walkRound forward) (c, x, []) (c.walk x)
  walkBack : ∀ x < c.size, Halts (fun s => Sound s.1 order held) (walkRound back) (c, x, []) (c.walkBack x)
  /-- The chain is taken apart by a loop along it, after which the hint of the trailer is released. -/
  dismantle : ∃ first c', (c.node header).next.node? = some first ∧
    Halts (fun s => Ranked s.1 order) dismantleRound (c, first) c' ∧
    Halts (fun s => Ranked s.1 order) releaseRound
      (c'.modify trailer fun n => { n with prev := none }, (c'.node trailer).prev) c.dismantle

theorem Laid.halts_drop (h : Laid c order) : ∃ first c', (c.node header).next.node? = some first ∧
    Halts (fun s => Ranked s.1 order) dismantleRound (c, first) c' ∧
    Halts (fun s => Ranked s.1 order) releaseRound
      (c'.modify trailer fun n => { n with prev := none }, (c'.node trailer).prev) c.dismantle := by
  obtain ⟨first, hfirst, hn, -, -⟩ := h.next header h.header_mem (by decide)
  refine ⟨first, Chain.dismantleFrom c.size c first, hn, h.halts_dismantle hfirst, ?_⟩
  have hr : Ranked (Chain.dismantleFrom c.size c first) order := h.ranked.dismantleFrom c.size
  have hd : c.dismantle = Chain.release?
      ((Chain.dismantleFrom c.size c first).modify trailer fun n => { n with prev := none })
      ((Chain.dismantleFrom c.size c first).node trailer).prev := by
    unfold Chain.dismantle
    rw [hn]
  rw [hd]
  refine Ranked.halts_release (hr.of_hints (size_modify _ _ _) fun y b hb => ?_) _
  rcases Nat.lt_or_ge trailer (Chain.dismantleFrom c.size c first).size with ht | ht
  · rw [node_modify _ _ _ _ ht] at hb
    split at hb
    · cases hb
    · exact hb
  · rwa [node_modify_of_size_le ht] at hb

/-- **The loops of a sound chain end.** -/
theorem Sound.loopsEnd (h : Sound c order held) : LoopsEnd c order held := by
  have hmem {x : NodeId} (hx : x < c.size) : x ∈ order := (h.laid.mem x).mpr hx
  exact {
    line := fun x hx => h.laid.line c.size (hmem hx) (h.laid.ahead_lt_size x)
    release := h.laid.ranked.halts_release
    skim := h.laid.halts_skim
    advance := fun x hx => h.halts_advance c.size (hmem hx) (h.laid.ahead_lt_size x)
    seek := fun x hx target => h.halts_seek (hmem hx) target
    predecessor := fun x hx => h.halts_predecessor (hmem hx) x
    walk := fun x hx => Sound.halts_walk forward_ahead h (hmem hx) (h.laid.ahead_lt_size x)
    walkBack := fun x hx => Sound.halts_walk back_before h (hmem hx) (h.laid.idxOf_lt (hmem hx))
    dismantle := h.laid.halts_drop }

end LeastRecent.Chain
