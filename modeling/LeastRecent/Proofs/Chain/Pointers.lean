import Mathlib.Logic.Function.Basic
import LeastRecent.Proofs.Chain.Healing

/-!
# What becomes of pointers

A deleted node is unlinked by one swing: a pointer at it is turned to the node that its marker keeps. However many
pointers a walk repairs, what it does to them is a run of such swings (`Swung`, `reroutes_walk`). A deletion that succeeds
puts its marker and swings one pointer at most (`swung_finishDelete`), an insertion puts its node between two others
(`pointers_finishInsert`), and nothing else touches a pointer.

The nodes from the header to the trailer are a line of pointers. A swing takes out of it the node that it passes over
(`Line.swung`), an insertion adds one (`Line.insert`).
-/

namespace LeastRecent.Chain

open Function (update)

variable {α : Type} {c c' c'' : Chain α} {q q' q'' : NodeId → Next} {xs ys : List NodeId} {x y f : NodeId}

/-- What follows each node. -/
def pointers (c : Chain α) (x : NodeId) : Next := (c.node x).next

theorem pointers_congr (h : ∀ y, (c'.node y).next = (c.node y).next) : c'.pointers = c.pointers := funext h

/-! ## Swings -/

/-- From the pointers `q` to `q'` each of the deleted nodes `xs` is passed over, one after the other: a pointer at it is
swung to the node that its marker keeps. -/
inductive Swung : (NodeId → Next) → List NodeId → (NodeId → Next) → Prop
  | done {q : NodeId → Next} : Swung q [] q
  | pass {q q' : NodeId → Next} {b x f : NodeId} {xs : List NodeId} (hb : q b = .node x) (hx : q x = .marker f)
    (h : Swung (update q b (.node f)) xs q') : Swung q (x :: xs) q'

namespace Swung

theorem trans (h : Swung q xs q') (h' : Swung q' ys q'') : Swung q (xs ++ ys) q'' := by
  induction h with
  | done => exact h'
  | pass hb hx _ ih => exact .pass hb hx (ih h')

/-- Markers stay where they are. -/
theorem marker (h : Swung q xs q') (hy : q y = .marker f) : q' y = .marker f := by
  induction h with
  | done => exact hy
  | @pass q q' b x g xs hb _ _ ih =>
    refine ih ?_
    have hne : y ≠ b := by
      rintro rfl
      rw [hb] at hy
      cases hy
    rw [Function.update_of_ne hne]
    exact hy

/-- Nothing is deleted by a swing. -/
theorem of_marker (h : Swung q xs q') (hy : q' y = .marker f) : q y = .marker f := by
  induction h with
  | done => exact hy
  | @pass q q' b x g xs hb _ _ ih =>
    have hq := ih hy
    by_cases he : y = b
    · rw [he, Function.update_self] at hq
      cases hq
    · rwa [Function.update_of_ne he] at hq

end Swung

/-- No node was added, and what happened to the pointers is a run of swings. -/
structure Reroutes (c c' : Chain α) : Prop where
  size : c'.size = c.size
  swung : ∃ xs, Swung c.pointers xs c'.pointers

theorem Reroutes.of_pointers (hs : c'.size = c.size) (h : c'.pointers = c.pointers) : Reroutes c c' :=
  ⟨hs, [], h ▸ .done⟩

theorem Reroutes.refl (c : Chain α) : Reroutes c c := .of_pointers rfl rfl

theorem Reroutes.trans (h : Reroutes c c') (h' : Reroutes c' c'') : Reroutes c c'' := by
  obtain ⟨xs, hxs⟩ := h.swung
  obtain ⟨ys, hys⟩ := h'.swung
  exact ⟨h'.size.trans h.size, xs ++ ys, hxs.trans hys⟩

/-! ## One pointer changed -/

theorem pointers_modify (hx : x < c.size) (v : Next) :
    (c.modify x fun n => { n with next := v }).pointers = update c.pointers x v := by
  funext y
  rw [pointers, node_modify c x y _ hx]
  by_cases h : y = x
  · rw [if_pos h, h, Function.update_self]
  · rw [if_neg h, Function.update_of_ne h]
    rfl

theorem pointers_acquire (h : c.acquire x = some c') : c'.pointers = c.pointers :=
  pointers_congr fun y => (node_acquire h y).1

theorem pointers_release (c : Chain α) (x : NodeId) : (c.release x).pointers = c.pointers :=
  pointers_congr (loosens_release c x).next

theorem pointers_releaseAll (xs : List NodeId) (c : Chain α) : (c.releaseAll xs).pointers = c.pointers :=
  pointers_congr (loosens_releaseAll xs c).next

theorem pointers_setHint (c : Chain α) (x p : NodeId) : (c.setHint x p).pointers = c.pointers :=
  pointers_congr (frame_setHint c x p).1

/-! ## Walks -/

/-- To pass over all deleted nodes at once is to pass over one after the other. -/
theorem swung_skim (hlive : c.isDeleted x = false) (hq : ∀ y, y ≠ x → q y = c.pointers y) :
    ∀ (fuel : Nat) {d : NodeId}, q x = .node d → c.skim fuel (some d) = (xs, some f) →
      Swung q xs (update q x (.node f)) := by
  intro fuel
  induction fuel generalizing q xs with
  | zero =>
    intro d _ hs
    cases hs
  | succ fuel ih =>
    intro d hd hs
    rw [skim] at hs
    split at hs
    · next hdel =>
      have hne : d ≠ x := by
        rintro rfl
        rw [hlive] at hdel
        cases hdel
      cases hn : (c.node d).next with
      | nothing =>
        rw [isDeleted, Node.isDeleted, hn] at hdel
        cases hdel
      | node g =>
        rw [isDeleted_of_next hn] at hdel
        cases hdel
      | marker g =>
        rw [hn] at hs
        cases hrest : c.skim fuel (some g) with
        | mk ys found =>
          rw [Next.node?, hrest] at hs
          cases hs
          have hmarker : q d = .marker g := (hq d hne).trans hn
          have hswing := ih (q := update q x (.node g)) (fun y hy => by rw [Function.update_of_ne hy, hq y hy])
            (Function.update_self ..) hrest
          rw [Function.update_idem] at hswing
          exact .pass hd hmarker hswing
    · cases hs
      rw [← hd, Function.update_eq_self]
      exact .done

theorem pointers_bypass {dead : List NodeId} (hx : x < c.size) :
    (c.bypass x dead f).pointers = update c.pointers x (.node f) := by
  have hreleased := pointers_releaseAll dead (c.modify x fun n => { n with next := .node f })
  rw [pointers_modify hx] at hreleased
  unfold bypass
  dsimp only
  split
  · exact hreleased
  · exact (pointers_setHint _ f x).trans hreleased

theorem reroutes_successor (c : Chain α) (x : NodeId) : Reroutes c (c.successor x).1 := by
  unfold successor
  split
  · exact Reroutes.refl c
  · next dead f hskim =>
    dsimp only
    split
    · exact Reroutes.refl c
    · next hd =>
      have hlive := eq_false_of_ne_true hd
      cases hn : (c.node x).next with
      | nothing =>
        rw [hn] at hskim
        cases hsize : c.size with
        | zero => rw [hsize] at hskim; cases hskim
        | succ n => rw [hsize] at hskim; cases hskim
      | marker g =>
        rw [isDeleted, Node.isDeleted, hn] at hlive
        cases hlive
      | node d =>
        rw [hn] at hskim
        have hswung := swung_skim hlive (fun _ _ => rfl) c.size hn hskim
        exact ⟨(retains_bypass c x dead f).size, dead, pointers_bypass (lt_size_of_next hn) ▸ hswung⟩

theorem reroutes_seek (fuel : Nat) (c : Chain α) (start target : NodeId) : Reroutes c (seek fuel c start target).1 := by
  induction fuel generalizing c start with
  | zero => exact Reroutes.refl c
  | succ fuel ih =>
    have h := reroutes_successor c start
    unfold seek
    split
    · next hs => rwa [hs] at h
    · next hs =>
      rw [hs] at h
      split
      · exact h
      · exact h.trans (ih _ _)

theorem reroutes_predecessorFrom (fuel : Nat) (c : Chain α) (n target : NodeId) :
    Reroutes c (predecessorFrom fuel c n target).1 := by
  induction fuel generalizing c n with
  | zero => exact Reroutes.refl c
  | succ fuel ih =>
    unfold predecessorFrom
    split
    · exact reroutes_seek _ c header target
    · next b _ =>
      split
      · exact Reroutes.refl c
      · split
        · exact ih c b
        · have h := reroutes_seek c.size c b target
          split
          · next hs => rwa [hs] at h
          · next hs =>
            rw [hs] at h
            exact h.trans (ih _ b)

theorem reroutes_predecessor (c : Chain α) (x : NodeId) : Reroutes c (c.predecessor x).1 :=
  reroutes_predecessorFrom _ c x x

/-- Many steps swing what each of them swings. -/
theorem reroutes_iterate {move : Chain α → NodeId → Chain α × Option NodeId} (hm : ∀ c x, Reroutes c (move c x).1)
    (fuel : Nat) (c : Chain α) (x : NodeId) : Reroutes c (iterate move fuel c x).1 := by
  induction fuel generalizing c x with
  | zero => exact Reroutes.refl c
  | succ fuel ih =>
    have h := hm c x
    unfold iterate
    split
    · next hs => rwa [hs] at h
    · next hs =>
      rw [hs] at h
      exact h.trans (ih _ _)

theorem reroutes_forward (c : Chain α) (x : NodeId) : Reroutes c (c.forward x).1 := reroutes_successor c x

theorem reroutes_back (c : Chain α) (x : NodeId) : Reroutes c (c.back x).1 := reroutes_predecessor c x

theorem reroutes_walk (c : Chain α) (x : NodeId) : Reroutes c (c.walk x).1 := reroutes_iterate reroutes_forward _ c x

theorem reroutes_walkBack (c : Chain α) (x : NodeId) : Reroutes c (c.walkBack x).1 :=
  reroutes_iterate reroutes_back _ c x

/-! ## Insertion and deletion -/

theorem pointers_link {after : NodeId} {a : α} (h : after < c.size) :
    (c.link after f a).pointers = update (update c.pointers c.size (.node f)) after (.node c.size) := by
  funext y
  rw [pointers, node_link h]
  by_cases h₁ : y = after
  · rw [if_neg (h₁ ▸ Nat.ne_of_lt h), if_pos h₁, h₁, Function.update_self]
  · rw [Function.update_of_ne h₁, if_neg h₁]
    by_cases h₂ : y = c.size
    · rw [if_pos h₂, h₂, Function.update_self]
    · rw [if_neg h₂, Function.update_of_ne h₂]
      rfl

/-- A new node comes between two others, or nothing is added and no pointer is touched. -/
theorem pointers_finishInsert (c : Chain α) (after : NodeId) (a : α) :
    ((c.finishInsert after a).1.size = c.size ∧ (c.finishInsert after a).1.pointers = c.pointers) ∨
      ∃ f, c.pointers after = .node f ∧ (c.finishInsert after a).1.size = c.size + 1 ∧
        (c.finishInsert after a).1.pointers =
          update (update c.pointers c.size (.node f)) after (.node c.size) := by
  unfold finishInsert
  split
  · next f hn =>
    refine Or.inr ⟨f, hn, ?_, ?_⟩
    · rw [← size_link]
      exact (retains_setHint _ f c.size).size
    · rw [← pointers_link (lt_size_of_next hn)]
      exact pointers_setHint _ f c.size
  · exact Or.inl ⟨(retains_release c after).size, pointers_release c after⟩

/-- A deletion that succeeds puts the marker, and swings one pointer over the node at most. -/
theorem swung_finishDelete {cut : Cut} (h : (c.finishDelete cut).2 = true) :
    c.pointers cut.target = .node cut.after ∧ ∃ xs, (xs = [] ∨ xs = [cut.target]) ∧
      Swung (update c.pointers cut.target (.marker cut.after)) xs (c.finishDelete cut).1.pointers := by
  unfold finishDelete at h ⊢
  split
  · next hn =>
    have hlt := lt_size_of_next hn
    have hmark := pointers_modify hlt (.marker cut.after)
    refine ⟨hn, ?_⟩
    dsimp only
    split
    · next b _ =>
      unfold unlink
      split
      · next hb =>
        have hb' : update c.pointers cut.target (.marker cut.after) b = .node cut.target := (congrFun hmark b).symm.trans hb
        refine ⟨[cut.target], Or.inr rfl, .pass hb' (Function.update_self ..) ?_⟩
        rw [pointers_release, pointers_setHint, pointers_modify (lt_size_of_next hb), hmark]
        exact .done
      · exact ⟨[], Or.inl rfl, hmark ▸ .done⟩
    · exact ⟨[], Or.inl rfl, hmark ▸ .done⟩
  · next hn =>
    rw [if_neg hn] at h
    cases h

/-- A deletion fails if the pointer is no longer what it was, and then it changes nothing. -/
theorem finishDelete_eq_false {cut : Cut} (h : (c.finishDelete cut).2 = false) :
    (c.finishDelete cut).1 = c ∧ c.pointers cut.target ≠ .node cut.after := by
  unfold finishDelete at h ⊢
  split
  · next hn =>
    rw [if_pos hn] at h
    dsimp only at h
    split at h <;> cases h
  · next hn => exact ⟨rfl, hn⟩

/-! ## The line of linked nodes -/

/-- From `x` the pointers `q` lead to the trailer, along the nodes `xs`, of which `x` is the first. -/
inductive Line (q : NodeId → Next) : NodeId → List NodeId → Prop
  | stop : Line q trailer []
  | step {x f : NodeId} {xs : List NodeId} (hx : x ≠ trailer) (hn : (q x).node? = some f) (h : Line q f xs) :
    Line q x (x :: xs)

theorem Path.line (h : Path c x xs) : Line c.pointers x xs := by
  induction h with
  | stop => exact .stop
  | step hx hn _ ih => exact .step hx hn ih

namespace Line

/-- Only the pointers of the nodes passed matter. -/
theorem congr (h : Line q x xs) (hq : ∀ y ∈ xs, (q' y).node? = (q y).node?) : Line q' x xs := by
  induction h with
  | stop => exact .stop
  | step hx hn _ ih =>
    exact .step hx ((hq _ List.mem_cons_self).trans hn) (ih fun y hy => hq y (List.mem_cons_of_mem _ hy))

/-- Pointers lead along one line only. -/
theorem unique (h : Line q x xs) (h' : Line q x ys) : xs = ys := by
  induction h generalizing ys with
  | stop =>
    cases h' with
    | stop => rfl
    | step hx => exact absurd rfl hx
  | step hx hn _ ih =>
    cases h' with
    | stop => exact absurd rfl hx
    | step _ hn' h' =>
      rw [hn] at hn'
      cases hn'
      rw [ih h']

/-- A swing takes the node passed over out of the line. -/
theorem swing {a b : NodeId} (h : Line q a xs) (hnd : xs.Nodup) (hb : b ∈ xs) (hp : q b = .node x)
    (hx : q x = .marker f) (ht : x ≠ trailer) : ∃ ys, Line (update q b (.node f)) a ys ∧ xs.Perm (x :: ys) := by
  induction h with
  | stop => cases hb
  | @step a g xs ha hn hline ih =>
    obtain ⟨hax, hnd'⟩ := List.nodup_cons.mp hnd
    by_cases he : a = b
    · subst he
      rw [hp] at hn
      cases hn
      cases hline with
      | stop => exact absurd rfl ht
      | @step _ g ys _ hg hline =>
        rw [hx] at hg
        cases hg
        have hframe (y : NodeId) (hy : y ∈ ys) : (update q a (.node f) y).node? = (q y).node? := by
          have hne : y ≠ a := fun he => hax (he ▸ List.mem_cons_of_mem _ hy)
          rw [Function.update_of_ne hne]
        exact ⟨a :: ys, .step ha (by rw [Function.update_self]; rfl) (hline.congr hframe), .swap x a ys⟩
    · have hb' : b ∈ xs := (List.mem_cons.mp hb).resolve_left (Ne.symm he)
      obtain ⟨ys, hys, hperm⟩ := ih hnd' hb'
      exact ⟨a :: ys, .step ha (by rwa [Function.update_of_ne he]) hys, (hperm.cons a).trans (.swap x a ys)⟩

/-- A run of swings takes the nodes passed over out of the line, if all live nodes are on it. -/
theorem swung {a : NodeId} (h : Swung q xs q') {line : List NodeId} (hl : Line q a line) (hnd : line.Nodup)
    (hlive : ∀ b x, q b = .node x → b ∈ line) (ht : q trailer = .nothing) :
    ∃ line', Line q' a line' ∧ line.Perm (xs ++ line') := by
  induction h generalizing line with
  | done => exact ⟨line, hl, .refl _⟩
  | @pass q q' b x f xs hb hx _ ih =>
    have hxt : x ≠ trailer := by
      rintro rfl
      rw [ht] at hx
      cases hx
    have hbt : trailer ≠ b := by
      rintro rfl
      rw [ht] at hb
      cases hb
    obtain ⟨mid, hmid, hperm⟩ := hl.swing hnd (hlive b x hb) hb hx hxt
    have hlive' (y z : NodeId) (hy : update q b (.node f) y = .node z) : y ∈ mid := by
      have hyx : y ≠ x := by
        rintro rfl
        have hxb : y ≠ b := by
          rintro rfl
          rw [hb] at hx
          cases hx
        rw [Function.update_of_ne hxb, hx] at hy
        cases hy
      have hym : y ∈ line := by
        by_cases he : y = b
        · exact he ▸ hlive b x hb
        · rw [Function.update_of_ne he] at hy
          exact hlive y z hy
      exact (List.mem_cons.mp (hperm.mem_iff.mp hym)).resolve_left hyx
    have hmidnd : mid.Nodup := (List.nodup_cons.mp (hperm.nodup_iff.mp hnd)).2
    obtain ⟨line', hline', hperm'⟩ := ih hmid hmidnd hlive' (by rw [Function.update_of_ne hbt, ht])
    exact ⟨line', hline', hperm.trans (hperm'.cons x)⟩

/-- An insertion puts its node into the line. -/
theorem insert {a after n : NodeId} (h : Line q a xs) (hnd : xs.Nodup) (ha : after ∈ xs) (hp : q after = .node f)
    (hn : n ∉ xs) (ht : n ≠ trailer) :
    ∃ ys, Line (update (update q n (.node f)) after (.node n)) a ys ∧ ys.Perm (n :: xs) := by
  induction h with
  | stop => cases ha
  | @step a g xs ha' hg hline ih =>
    obtain ⟨hax, hnd'⟩ := List.nodup_cons.mp hnd
    have hna : n ≠ a := fun he => hn (he ▸ List.mem_cons_self)
    by_cases he : a = after
    · subst he
      rw [hp] at hg
      cases hg
      have hframe (y : NodeId) (hy : y ∈ xs) :
          (update (update q n (.node f)) a (.node n) y).node? = (q y).node? := by
        have hya : y ≠ a := fun he => hax (he ▸ hy)
        have hyn : y ≠ n := fun he => hn (he ▸ List.mem_cons_of_mem _ hy)
        rw [Function.update_of_ne hya, Function.update_of_ne hyn]
      have hself : (update (update q n (.node f)) a (.node n) n).node? = some f := by
        rw [Function.update_of_ne hna, Function.update_self]
        rfl
      have hfirst : (update (update q n (.node f)) a (.node n) a).node? = some n := by
        rw [Function.update_self]
        rfl
      exact ⟨a :: n :: xs, .step ha' hfirst (.step ht hself (hline.congr hframe)), .swap n a xs⟩
    · obtain ⟨ys, hys, hperm⟩ := ih hnd' ((List.mem_cons.mp ha).resolve_left (Ne.symm he))
        fun hm => hn (List.mem_cons_of_mem _ hm)
      refine ⟨a :: ys, .step ha' ?_ hys, (hperm.cons a).trans (.swap n a xs)⟩
      rwa [Function.update_of_ne he, Function.update_of_ne (Ne.symm hna)]

end Line

end LeastRecent.Chain
