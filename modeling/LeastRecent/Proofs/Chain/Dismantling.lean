import LeastRecent.Chain.Dismantle
import LeastRecent.Proofs.Chain.Healing

/-!
# Nothing is left of a chain that was taken apart

To take a chain apart is to part with each entry on the spine, in order, and then with the hint of the trailer
(`Laid.dismantle_eq`); this gives back the links of the chain (`Counted.foldl_part`, `Counted.unhint`). What is kept then
is owned or pointed at, by a node that is kept itself. Hints lead backward, so that each node which is kept is found by
going back from one that is owned (`Counted.links_ne_zero_iff`). If nobody owns a node any more, none is kept but the
sentinels, and all others are in limbo, each once (`Sound.dismantled`).
-/

namespace LeastRecent.Chain

variable {α : Type} {c c' c'' : Chain α} {order bare rest xs : List NodeId} {x y f : NodeId}

/-- Nodes keep what they are there for, and hints get lost at most. -/
structure Sheds (c c' : Chain α) : Prop where
  size : c'.size = c.size
  role : ∀ y, (c'.node y).role = (c.node y).role
  hint : ∀ y b, (c'.node y).prev = some b → (c.node y).prev = some b

namespace Sheds

theorem refl (c : Chain α) : Sheds c c := ⟨rfl, fun _ => rfl, fun _ _ => id⟩

theorem trans (h : Sheds c c') (h' : Sheds c' c'') : Sheds c c'' where
  size := h'.size.trans h.size
  role y := (h'.role y).trans (h.role y)
  hint y b hb := h.hint y b (h'.hint y b hb)

theorem carried (h : Sheds c c') (y : NodeId) : c'.carried? y = c.carried? y := by
  rw [carried?, carried?, Node.carried?, Node.carried?, h.role]

end Sheds

theorem Frees.sheds (f : Frees c c') : Sheds c c' := ⟨f.size, f.role, f.hint⟩

theorem Ranked.sheds (h : Ranked c order) (s : Sheds c c') : Ranked c' order := h.of_hints s.size s.hint

/-! ## Along the spine -/

/-- The node `x` forgets its successor. -/
def forget (c : Chain α) (x : NodeId) : Chain α := c.modify x fun n => { n with next := .nothing }

/-- Only a pointer is forgotten. -/
theorem counts_forget (c : Chain α) (x y : NodeId) :
    ((c.forget x).node y).role = (c.node y).role ∧ ((c.forget x).node y).links = (c.node y).links ∧
      ((c.forget x).node y).prev = (c.node y).prev :=
  ⟨frame_modify Node.role x y fun _ => rfl, frame_modify Node.links x y fun _ => rfl,
    frame_modify Node.prev x y fun _ => rfl⟩

theorem sheds_forget (c : Chain α) (x : NodeId) : Sheds c (c.forget x) where
  size := size_modify c x _
  role y := (counts_forget c x y).1
  hint y b hb := by rwa [(counts_forget c x y).2.2] at hb

/-- Links do not depend on pointers. -/
theorem Counted.forget {tokens : List NodeId} (h : Counted bare c tokens) (x : NodeId) :
    Counted bare (c.forget x) tokens :=
  h.of_links_same (size_modify c x _) (fun y => (counts_forget c x y).2.2) (fun y => (counts_forget c x y).2.1) rfl rfl

theorem next_forget (c : Chain α) (x y : NodeId) :
    ((c.forget x).node y).next = if y = x then .nothing else (c.node y).next := by
  rcases Nat.lt_or_ge x c.size with hx | hx
  · rw [forget, node_modify c x y _ hx]
    split <;> rfl
  · rw [forget, node_modify_of_size_le hx]
    split
    · next he => rw [he, node_of_size_le hx]; rfl
    · rfl

/-- The node `x` loses its link of the chain; if it is live, it forgets its successor first. -/
def part (c : Chain α) (x : NodeId) : Chain α := (if c.isDeleted x then c else c.forget x).release x

theorem next_part (c : Chain α) (x y : NodeId) :
    ((c.part x).node y).next = if y = x ∧ c.isDeleted x = false then .nothing else (c.node y).next := by
  unfold part
  rw [(loosens_release _ x).next]
  cases c.isDeleted x <;> simp [next_forget]

theorem Counted.part {tokens : List NodeId} (h : Counted bare c (x :: tokens)) (hr : Ranked c order) :
    Counted bare (c.part x) tokens ∧ Sheds c (c.part x) := by
  unfold Chain.part
  split
  · obtain ⟨h', f⟩ := Counted.release hr h
    exact ⟨h', f.sheds⟩
  · have s := sheds_forget c x
    obtain ⟨h', f⟩ := Counted.release (hr.sheds s) (h.forget x)
    exact ⟨h', s.trans f.sheds⟩

/-- The nodes are parted with one after the other. -/
theorem Counted.foldl_part {tokens : List NodeId} (h : Counted bare c (xs ++ tokens)) (hr : Ranked c order) :
    Counted bare (xs.foldl Chain.part c) tokens ∧ Sheds c (xs.foldl Chain.part c) := by
  induction xs generalizing c with
  | nil => exact ⟨h, Sheds.refl c⟩
  | cons x xs ih =>
    obtain ⟨h₁, s₁⟩ := Counted.part h hr
    obtain ⟨h₂, s₂⟩ := ih h₁ (hr.sheds s₁)
    exact ⟨h₂, s₁.trans s₂⟩

/-- That is what happens along a path. -/
theorem dismantleFrom_eq_foldl (fuel : Nat) (hp : Path c x xs) (hn : xs.Nodup) (hb : xs.length < fuel) :
    c.dismantleFrom fuel x = xs.foldl part c := by
  induction fuel generalizing c x xs with
  | zero => omega
  | succ fuel ih =>
    cases hp with
    | stop => rfl
    | @step x g xs hx hg hp =>
      rw [List.length_cons] at hb
      obtain ⟨hxs, hn'⟩ := List.nodup_cons.mp hn
      have hrest : Path (c.part x) g xs := by
        apply hp.congr
        intro y hy
        have hne : y ≠ x := fun he => hxs (he ▸ hy)
        rw [next_part, if_neg fun h => hne h.1]
      have hstep := ih hrest hn' (by omega)
      rw [List.foldl_cons, ← hstep, Chain.dismantleFrom, if_neg hx]
      split
      · next he =>
        rw [he] at hg
        cases hg
      · next he =>
        rw [he] at hg
        cases hg
        rw [part, isDeleted_of_next he]
        rfl
      · next he =>
        rw [he] at hg
        cases hg
        have hd : c.isDeleted x = true := by rw [isDeleted, Node.isDeleted, he]; rfl
        rw [part, hd]
        rfl

/-! ## The hint of the trailer -/

/-- A hint that is given up becomes a token, and its node is bare. -/
theorem Counted.unhint {tokens : List NodeId} (h : Counted bare c tokens) (hr : Ranked c order) (hx : x ∈ tokens) :
    Counted (x :: bare) (c.modify x fun n => { n with prev := none }) ((c.node x).prev.toList ++ tokens) ∧
      Sheds c (c.modify x fun n => { n with prev := none }) := by
  have hlt : x < c.size := h.lt x hx
  have hn (y : NodeId) := node_modify c x y (fun n => { n with prev := none }) hlt
  have hlinks (y : NodeId) : ((c.modify x fun n => { n with prev := none }).node y).links = (c.node y).links :=
    frame_modify Node.links x y fun _ => rfl
  have hself : ((c.modify x fun n => { n with prev := none }).node x).prev = none := by rw [hn, if_pos rfl]
  constructor
  · refine ⟨?_, ?_, ?_, h.nodup, h.clean, ?_⟩
    · intro y hy
      rw [size_modify] at hy
      have h₂ := count_hints (size_modify c x _) hlt (fun n hne => by rw [hn, if_neg hne]) (some y)
      have h₃ := h.links y hy
      simp only [hself, reduceCtorEq, if_false] at h₂
      rw [hlinks, List.count_append, count_toList]
      omega
    · intro y hy
      rw [size_modify]
      rcases List.mem_append.mp hy with hy | hy
      · exact (hr.mem y).mp (hr.hint x y (Option.mem_toList.mp hy)).1
      · exact h.lt y hy
    · intro y
      rw [size_modify, hlinks]
      exact h.retired y
    · intro y hy
      rw [size_modify] at hy
      rw [hlinks, hn, List.mem_cons]
      by_cases he : y = x
      · simp [he]
      · rw [if_neg he, h.unhinted y hy]
        simp [he]
  · refine ⟨size_modify c x _, fun y => frame_modify Node.role x y fun _ => rfl, fun y b hb => ?_⟩
    rw [hn] at hb
    split at hb
    · cases hb
    · exact hb

/-- The trailer gives up its hint. -/
def untie (c : Chain α) : Chain α := (c.modify trailer fun n => { n with prev := none }).release? (c.node trailer).prev

/-- The entries on the spine are parted with in order, and in the end the hint of the trailer is given up. -/
theorem Laid.dismantle_eq {linked : List NodeId} (h : Laid c order) (j : Joined c order linked) :
    ∃ xs, c.spine = header :: (xs ++ [trailer]) ∧ linked.Perm (xs ++ [trailer, header]) ∧
      c.dismantle = (xs.foldl part c).untie := by
  obtain ⟨path, hp, hlen, hspine, hperm⟩ := h.spine j
  cases hp with
  | @step _ first xs _ hn hp =>
    rw [hspine] at hperm
    have htokens : linked.Perm (xs ++ [trailer, header]) := by
      refine hperm.symm.trans ?_
      simpa using (List.perm_append_singleton header (xs ++ [trailer])).symm
    rw [List.length_cons] at hlen
    refine ⟨xs, hspine, htokens, ?_⟩
    rw [Chain.dismantle, hn]
    dsimp only
    rw [dismantleFrom_eq_foldl c.size hp (List.nodup_append.mp (htokens.nodup_iff.mp j.nodup)).1 (by omega), untie]

/-! ## What is left -/

/-- Hints lead from `o` back to a node, in zero or more steps. -/
inductive LeadsBack (c : Chain α) (o : NodeId) : NodeId → Prop
  | refl : LeadsBack c o o
  | hint {x b : NodeId} (h : LeadsBack c o x) (hb : (c.node x).prev = some b) : LeadsBack c o b

/-- What a node points at has a link. -/
theorem Counted.links_of_hint {tokens : List NodeId} (h : Counted bare c tokens) (hr : Ranked c order)
    (hp : (c.node y).prev = some x) : (c.node x).links ≠ 0 := by
  have hy : y < c.size := lt_size_of_prev hp
  have hx : x < c.size := (hr.mem x).mp (hr.hint y x hp).1
  have hcount : 0 < c.hints.count (some x) :=
    List.count_pos_iff.mpr (List.mem_map.mpr ⟨y, List.mem_range.mpr hy, hp⟩)
  rw [h.links x hx]
  omega

/-- If all other tokens are on nodes without hints, a node has links just if hints lead back to it from one of `rest`. -/
theorem Counted.links_ne_zero_iff (h : Counted bare c (bare ++ rest)) (hr : Ranked c order) (hx : x < c.size)
    (hb : x ∉ bare) : (c.node x).links ≠ 0 ↔ ∃ o ∈ rest, LeadsBack c o x := by
  constructor
  · -- by induction on the number of positions behind the node
    have hbehind (n : Nat) : ∀ x, x < c.size → x ∉ bare → c.size ≤ n + order.idxOf x → (c.node x).links ≠ 0 →
        ∃ o ∈ rest, LeadsBack c o x := by
      induction n with
      | zero =>
        intro x hx _ hle
        have := hr.idxOf_lt ((hr.mem x).mpr hx)
        omega
      | succ n ih =>
        intro x hx hb hle hne
        by_cases ho : x ∈ rest
        · exact ⟨x, ho, .refl⟩
        have hl := h.links x hx
        have htoken : x ∉ bare ++ rest := fun hm => (List.mem_append.mp hm).elim hb ho
        rw [List.count_eq_zero.mpr htoken, Nat.zero_add] at hl
        have hcount : 0 < c.hints.count (some x) := by omega
        obtain ⟨y, hy, hp⟩ := List.mem_map.mp (List.count_pos_iff.mp hcount)
        rw [List.mem_range] at hy
        have hlt := (hr.hint y x hp).2
        have hyb : ¬ (y ∈ bare ∨ (c.node y).links = 0) := by
          rw [← h.unhinted y hy, hp]
          exact Option.some_ne_none x
        obtain ⟨o, ho, hback⟩ := ih y hy (fun hm => hyb (Or.inl hm)) (by omega) fun h₀ => hyb (Or.inr h₀)
        exact ⟨o, ho, hback.hint hp⟩
    exact hbehind c.size x hx hb (Nat.le_add_right _ _)
  · rintro ⟨o, ho, hback⟩
    cases hback with
    | refl => exact h.links_ne_zero (List.mem_append_right _ ho)
    | hint _ hp => exact h.links_of_hint hr hp

/-- Afterwards neither sentinel has a hint, and the chain has no token but those of the sentinels. -/
theorem Counted.dismantle {linked : List NodeId} (h : Counted [header] c (linked ++ rest)) (hl : Laid c order)
    (j : Joined c order linked) :
    Counted [trailer, header] c.dismantle ([trailer, header] ++ rest) ∧ Sheds c c.dismantle := by
  obtain ⟨xs, -, htokens, he⟩ := hl.dismantle_eq j
  have hpath : Counted [header] c (xs ++ ([trailer, header] ++ rest)) := by
    rw [← List.append_assoc]
    exact h.perm (htokens.append_right rest)
  obtain ⟨h₁, s₁⟩ := hpath.foldl_part hl.ranked
  obtain ⟨h₂, s₂⟩ := h₁.unhint (hl.ranked.sheds s₁) List.mem_cons_self
  obtain ⟨h₃, f₃⟩ := Counted.release? ((hl.ranked.sheds s₁).sheds s₂) h₂
  rw [he]
  exact ⟨h₃, s₁.trans (s₂.trans f₃.sheds)⟩

theorem retains_dismantleFrom (fuel : Nat) (c : Chain α) (x : NodeId) : Retains c (c.dismantleFrom fuel x) := by
  induction fuel generalizing c x with
  | zero => exact Retains.refl c
  | succ fuel ih =>
    unfold Chain.dismantleFrom
    split
    · exact Retains.refl c
    · split
      · exact Retains.refl c
      · exact ((retains_modify c x _).trans (retains_release _ x)).trans (ih _ _)
      · exact (retains_release c x).trans (ih _ _)

theorem retains_dismantle (c : Chain α) : Retains c c.dismantle := by
  unfold Chain.dismantle
  split
  · exact Retains.refl c
  · exact ((retains_dismantleFrom _ c _).trans (retains_modify _ trailer _)).trans (retains_release? _ _)

/-- Some owners give back their links, while `held` are still held. -/
theorem Sound.releaseAll_append {owners held : List NodeId} (h : Sound c order (owners ++ held)) :
    Sound (c.releaseAll owners) order held ∧ Frees c (c.releaseAll owners) := by
  obtain ⟨linked, j, hc⟩ := h.counted
  obtain ⟨hc', f⟩ := Counted.releaseAll owners h.laid.ranked (hc.perm (List.perm_append_comm_assoc _ _ _))
  exact ⟨⟨h.laid.frees f, linked, j.steady f.toSteady, hc'⟩, f⟩

/-- The owners give back their links. -/
theorem Sound.releaseAll {owners : List NodeId} (h : Sound c order owners) :
    Sound (c.releaseAll owners) order [] ∧ Frees c (c.releaseAll owners) := by
  rw [← List.append_nil owners] at h
  exact h.releaseAll_append

/-- **When nobody owns a node**, taking the chain apart retires all nodes but the sentinels, each once. -/
theorem Sound.dismantled {owners : List NodeId} (h : Sound c order owners) :
    (c.releaseAll owners).dismantle.fault = none ∧ Sheds c (c.releaseAll owners).dismantle ∧
      (c.releaseAll owners).dismantle.retired.Nodup ∧
      ∀ x, x ∈ (c.releaseAll owners).dismantle.retired ↔ x < c.size ∧ x ≠ header ∧ x ≠ trailer := by
  obtain ⟨h₁, f⟩ := h.releaseAll
  obtain ⟨linked, j, hc⟩ := h₁.counted
  obtain ⟨h₂, s₂⟩ := hc.dismantle h₁.laid j
  have s := f.sheds.trans s₂
  refine ⟨h₂.clean, s, h₂.nodup, fun x => ?_⟩
  rw [h₂.retired, s.size]
  constructor
  · rintro ⟨hx, h₀⟩
    refine ⟨hx, ?_, ?_⟩ <;> rintro rfl
    · exact h₂.links_ne_zero (List.mem_cons_of_mem _ List.mem_cons_self) h₀
    · exact h₂.links_ne_zero List.mem_cons_self h₀
  · rintro ⟨hx, hh, ht⟩
    have hkept := h₂.links_ne_zero_iff (h.laid.ranked.sheds s) (x := x) (by rw [s.size]; exact hx) (by simp [hh, ht])
    refine ⟨hx, Decidable.not_not.mp fun hne => ?_⟩
    obtain ⟨o, ho, -⟩ := hkept.mp hne
    cases ho

end LeastRecent.Chain
