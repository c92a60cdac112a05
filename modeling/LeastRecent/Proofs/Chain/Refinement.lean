import LeastRecent.Chain.Session
import LeastRecent.Proofs.Chain.Tombstones
import LeastRecent.Proofs.Interleave.Runs

/-!
# A session with a chain refines its tombstones

Between any two steps of a session its chain is sound: the tokens held outside of it are the links of the owners and, for
each suspended insertion, the link on the node before the new one (`Kept`). So each request is answered as the tombstones
of that moment foretell (`Foretells`), and each step changes the tombstones by what its call answers, or not at all
(`Follows`): an insertion that succeeds puts its node in place, a deletion that succeeds turns its node into a tombstone
(`Kept.start`, `Kept.resume`).

The tombstones of all moments of a session are one sequence, whatever interrupts what (`session_refines`).
-/

namespace LeastRecent.Chain.Session

open Tombstones (isEntry isEntry_eq Records Guides guides_of_sound records_of_sound)
open Interleave (Move Outcome Machine)

variable {κ ν : Type}

/-! ## What the tombstones foretell -/

/-- The name of the node that a request is about. -/
def Request.node? : Request κ ν → Option String
  | .append node .. | .delete node | .successor node | .predecessor node | .forward node | .back node | .walk node
  | .walkBack node | .release node | .text node | .describe node => some node
  | .pending => none

/-- How far a request about the node `x` gets at once in the session `s` with the tombstones `t`. -/
def ForetoldOf (t : Tombstones) (s : Session κ ν) (x : NodeId) (out : Outcome (Stage κ ν) (Answer κ ν)) :
    Request κ ν → Prop
  | .append _ new k v =>
    out = .pause (.inserting x ⟨new, k, v⟩) ∨ t.isDeleted x = true ∧ out = .done (.bool false)
  | .delete _ =>
    (isEntry x = true ∧ t.isDeleted x = false ∧ ∃ cut, cut.target = x ∧ out = .pause (.cutting cut)) ∨
      (isEntry x = false ∨ t.isDeleted x = true) ∧ out = .done (.bool false)
  | .successor _ => out = .done (.node ((t.next? x).map s.nameOf))
  | .predecessor _ =>
    out = .done (.node ((t.prev? x).map s.nameOf)) ∨ t.isDeleted x = true ∧ out = .done (.node none)
  | .forward _ => out = .done (.node (((t.next? x).filter isEntry).map s.nameOf))
  | .back _ =>
    out = .done (.node (((t.prev? x).filter isEntry).map s.nameOf)) ∨ t.isDeleted x = true ∧ out = .done (.node none)
  | .walk _ => out = .done (.nodes ((t.entries (t.behind x)).map s.nameOf))
  | .walkBack _ =>
    out = .done (.nodes ((t.entries (t.before x)).reverse.map s.nameOf)) ∨
      t.isDeleted x = true ∧ out = .done (.nodes [])
  | .release name => out = .done (if x ∈ s.owned then .done else .notOwned name)
  | .describe _ => out = .done (.description (s.chain.node x).role (t.isDeleted x))
  | .text _ | .pending => ∃ a, out = .done a

/-- How far a request gets at once; a request about an unknown name is refused. -/
def Foretells (t : Tombstones) (s : Session κ ν) (r : Request κ ν) (out : Outcome (Stage κ ν) (Answer κ ν)) : Prop :=
  match r.node? with
  | none => ∃ a, out = .done a
  | some name =>
    match s.names.lookup name with
    | none => out = .done (.unbound name)
    | some x => ForetoldOf t s x out r

/-- A suspended call has ended and left the tombstones `t'`. An insertion that succeeded found the node before it live
and put the new one right behind that, live and named; a deletion that succeeded found its entry live and turned it into
a tombstone. One that failed changed nothing: an insertion found a tombstone before it, or the trailer, and a deletion
found a tombstone already, or its node with another successor than it had noted. -/
def Concludes (t t' : Tombstones) (s : Session κ ν) (p : Turn κ ν) : Stage κ ν → Prop
  | .inserting x e =>
    (p.2 = .done (.bool true) ∧ t.isDeleted x = false ∧ x ≠ trailer ∧ t' = t.insert x s.chain.size ∧
        t'.isDeleted s.chain.size = false ∧ p.1.chain.carried? s.chain.size = some e ∧
        p.1.names = (e.label, s.chain.size) :: s.names) ∨
      p.2 = .done (.bool false) ∧ (t.isDeleted x = true ∨ x = trailer) ∧ t' = t
  | .cutting cut =>
    (p.2 = .done (.bool true) ∧ isEntry cut.target = true ∧ t.isDeleted cut.target = false ∧ t' = t.bury cut.target) ∨
      p.2 = .done (.bool false) ∧ (t.isDeleted cut.target = true ∨
        ∃ f, (s.chain.node cut.target).next = .node f ∧ f ≠ cut.after) ∧ t' = t

/-- The tombstones `t'` follow on `t` by a step made in the session `s`: nothing but the end of an insertion or of a
deletion changes them. -/
def Follows [ToString κ] [ToString ν] (t t' : Tombstones) (s : Session κ ν) : Move (Request κ ν) (Stage κ ν) → Prop
  | .rest => t' = t
  | .start r => t' = t ∧ Foretells t s r (system.start r s).2
  | .resume stage => Concludes t t' s (system.resume stage s) stage

/-! ## What is kept -/

/-- The links that a suspended call holds. -/
def pending : Stage κ ν → List NodeId
  | .inserting x _ => [x]
  | .cutting _ => []

/-- The chain of a session is sound with the tombstones `t`, while calls are suspended at `stages`. -/
structure Kept (t : Tombstones) (s : Session κ ν) (stages : List (Stage κ ν)) : Prop where
  sound : Sound s.chain t.order (s.owned ++ stages.flatMap pending)
  flags : ∀ x ∈ t.order, t.isDeleted x = s.chain.isDeleted x
  known : ∀ x ∈ t.deleted, x ∈ t.order
  named : ∀ entry ∈ s.names, entry.2 ∈ t.order
  cuts : ∀ cut, .cutting cut ∈ stages → s.chain.isSentinel cut.target = false

namespace Kept

variable {t : Tombstones} {s : Session κ ν} {stages : List (Stage κ ν)} {x : NodeId}

/-- The sentinels alone. -/
theorem initial (p : Policy) : Kept .initial (create p : Session κ ν) [] where
  sound := Sound.empty p
  flags x hx := by
    rcases List.mem_cons.mp hx with rfl | hx
    · rfl
    · rw [List.mem_singleton.mp hx]; rfl
  known x hx := by cases hx
  named entry he := by
    rcases List.mem_cons.mp he with rfl | he
    · exact List.mem_cons_self
    · rw [List.mem_singleton.mp he]
      exact List.mem_cons_of_mem _ List.mem_cons_self
  cuts cut hc := by cases hc

theorem mem_of_lookup (h : Kept t s stages) {name : String} (hl : s.names.lookup name = some x) : x ∈ t.order := by
  obtain ⟨l₁, l₂, he, -⟩ := List.lookup_eq_some_iff.mp hl
  exact h.named (name, x) (by rw [he]; simp)

/-- Another chain with the same nodes, deleted or not. -/
theorem alike (h : Kept t s stages) {c : Chain (Entry String κ ν)} (a : Alike s.chain c)
    (hc : Sound c t.order (s.owned ++ stages.flatMap pending)) : Kept t { s with chain := c } stages where
  sound := hc
  flags x hx := by rw [h.flags x hx, ← a.deleted]
  known := h.known
  named := h.named
  cuts cut hm := a.ages.not_isSentinel (h.cuts cut hm)

/-- Nothing else in a session matters. -/
theorem lose (h : Kept t s stages) (name : String) : Kept t (s.lose name) stages :=
  ⟨h.sound, h.flags, h.known, h.named, h.cuts⟩

end Kept

theorem nameOf_alike {s : Session κ ν} {c : Chain (Entry String κ ν)} (a : Alike s.chain c) :
    nameOf { s with chain := c } = s.nameOf := by
  funext x
  rw [nameOf, nameOf, a.role]

/-- No rule was broken, so the answer stands. -/
theorem judge_eq {old : Session κ ν} {p : Turn κ ν} (h : p.1.chain.fault = none) : old.judge p = p := by
  unfold judge
  rw [h]
  split
  · next hf => cases hf
  · rfl

/-! ## A request is served -/

/-- A request about the node `x` got as far as foretold. -/
def Serves (t : Tombstones) (s : Session κ ν) (stages : List (Stage κ ν)) (x : NodeId) (r : Request κ ν)
    (p : Turn κ ν) : Prop :=
  Kept t p.1 (p.2.stages ++ stages) ∧ ForetoldOf t s x p.2 r

namespace Kept

variable {t : Tombstones} {s : Session κ ν} {stages : List (Stage κ ν)} {x : NodeId} (h : Kept t s stages)
include h

theorem withNode {name : String} {r : Request κ ν} (hr : r.node? = some name) {serve : NodeId → Turn κ ν}
    (hs : ∀ x ∈ t.order, Serves t s stages x r (serve x)) :
    Kept t (s.withNode name serve).1 ((s.withNode name serve).2.stages ++ stages) ∧
      Foretells t s r (s.withNode name serve).2 := by
  unfold Foretells Session.withNode
  rw [hr]
  dsimp only
  cases hl : s.names.lookup name with
  | none => exact ⟨h, rfl⟩
  | some x => exact hs x (h.mem_of_lookup hl)

/-- A walk to one node, and a walk along many. -/
theorem reach {w : Chain (Entry String κ ν) × Option NodeId}
    (hc : Sound w.1 t.order (s.owned ++ stages.flatMap pending)) (a : Alike s.chain w.1) :
    Kept t (s.reach w).1 ((s.reach w).2.stages ++ stages) ∧ (s.reach w).2 = .done (.node (w.2.map s.nameOf)) :=
  ⟨h.alike a hc, by rw [Session.reach, nameOf_alike a]⟩

theorem reachAll {w : Chain (Entry String κ ν) × List NodeId}
    (hc : Sound w.1 t.order (s.owned ++ stages.flatMap pending)) (a : Alike s.chain w.1) :
    Kept t (s.reachAll w).1 ((s.reachAll w).2.stages ++ stages) ∧
      (s.reachAll w).2 = .done (.nodes (w.2.map s.nameOf)) :=
  ⟨h.alike a hc, by rw [Session.reachAll, nameOf_alike a]⟩

theorem serves_append {name new : String} {k : κ} {v : ν} (hx : x ∈ t.order) :
    Serves t s stages x (.append name new k v) (match s.chain.beginInsert x with
      | none => (s.lose new, .done (.bool false))
      | some c => ({ s with chain := c }, .pause (.inserting x ⟨new, k, v⟩))) := by
  rcases h.sound.beginInsert hx with ⟨hn, hd⟩ | ⟨c, hc, hsound, a⟩
  · rw [hn]
    exact ⟨h.lose new, Or.inr ⟨by rw [h.flags x hx, hd], rfl⟩⟩
  · rw [hc]
    refine ⟨⟨hsound.perm List.perm_middle.symm, ?_, h.known, h.named, ?_⟩, Or.inl rfl⟩
    · intro y hy
      rw [h.flags y hy, ← a.deleted]
    · intro cut hm
      rcases List.mem_cons.mp hm with he | hm
      · cases he
      · exact a.ages.not_isSentinel (h.cuts cut hm)

theorem serves_delete {name : String} (hx : x ∈ t.order) :
    Serves t s stages x (.delete name) (match s.chain.beginDelete x with
      | none => (s, .done (.bool false))
      | some cut => (s, .pause (.cutting cut))) := by
  have he : isEntry x = !s.chain.isSentinel x := isEntry_eq h.sound hx
  have hf := h.flags x hx
  rcases h.sound.beginDelete hx with ⟨hn, hd⟩ | ⟨cut, hc, ht, hs, hl, -⟩
  · rw [hn]
    refine ⟨h, Or.inr ⟨?_, rfl⟩⟩
    rcases hd with hd | hd
    · exact Or.inl (by rw [he, hd]; rfl)
    · exact Or.inr (by rw [hf, hd])
  · rw [hc]
    refine ⟨⟨h.sound, h.flags, h.known, h.named, fun cut' hm => ?_⟩,
      Or.inl ⟨by rw [he, hs]; rfl, by rw [hf, hl], cut, ht, rfl⟩⟩
    rcases List.mem_cons.mp hm with hcut | hm
    · cases hcut
      rw [ht]
      exact hs
    · exact h.cuts cut' hm

/-- The owner's link is given back once. -/
theorem serves_release {name : String} : Serves t s stages x (.release name)
    (if x ∈ s.owned then ({ s with chain := s.chain.release x, owned := s.owned.erase x }, .done .done)
      else (s, .done (.notOwned name))) := by
  by_cases ho : x ∈ s.owned
  · have hp : (s.owned ++ stages.flatMap pending).Perm (x :: (s.owned.erase x ++ stages.flatMap pending)) :=
      (List.perm_cons_erase ho).append_right _
    obtain ⟨hsound, a⟩ := (h.sound.perm hp).release
    rw [if_pos ho]
    refine ⟨⟨hsound, ?_, h.known, h.named, ?_⟩, ?_⟩
    · intro y hy
      rw [h.flags y hy, ← a.deleted]
    · intro cut hm
      exact a.ages.not_isSentinel (h.cuts cut hm)
    · show _ = Outcome.done (if x ∈ s.owned then _ else _)
      rw [if_pos ho]
  · rw [if_neg ho]
    refine ⟨h, ?_⟩
    show _ = Outcome.done (if x ∈ s.owned then _ else _)
    rw [if_neg ho]

variable [ToString κ] [ToString ν]

/-- Every request gets as far as foretold. -/
theorem start (r : Request κ ν) :
    Kept t (Session.start r s).1 ((Session.start r s).2.stages ++ stages) ∧ Foretells t s r (Session.start r s).2 := by
  have g : Guides t s.chain := guides_of_sound h.sound h.flags
  cases r with
  | append name new k v => exact h.withNode rfl fun x hx => h.serves_append hx
  | delete name => exact h.withNode rfl fun x hx => h.serves_delete hx
  | successor name =>
    refine h.withNode rfl fun x hx => ?_
    obtain ⟨hc, a⟩ := h.sound.successor_alike hx
    obtain ⟨hk, ho⟩ := h.reach hc a
    exact ⟨hk, by rw [ho, g.successor x hx]; rfl⟩
  | predecessor name =>
    refine h.withNode rfl fun x hx => ?_
    obtain ⟨hc, a, -⟩ := h.sound.predecessor hx
    obtain ⟨hk, ho⟩ := h.reach hc a
    refine ⟨hk, ?_⟩
    rw [ho]
    rcases g.predecessor x hx with hp | ⟨hd, hp⟩
    · exact Or.inl (by rw [hp])
    · exact Or.inr ⟨hd, by rw [hp]; rfl⟩
  | forward name =>
    refine h.withNode rfl fun x hx => ?_
    obtain ⟨hc, a, -⟩ := h.sound.forward hx
    obtain ⟨hk, ho⟩ := h.reach hc a
    exact ⟨hk, by rw [ho, g.forward x hx]; rfl⟩
  | back name =>
    refine h.withNode rfl fun x hx => ?_
    obtain ⟨hc, a, -⟩ := h.sound.back hx
    obtain ⟨hk, ho⟩ := h.reach hc a
    refine ⟨hk, ?_⟩
    rw [ho]
    rcases g.back x hx with hp | ⟨hd, hp⟩
    · exact Or.inl (by rw [hp])
    · exact Or.inr ⟨hd, by rw [hp]; rfl⟩
  | walk name =>
    refine h.withNode rfl fun x hx => ?_
    obtain ⟨hc, a, -⟩ := h.sound.walk hx
    obtain ⟨hk, ho⟩ := h.reachAll hc a
    exact ⟨hk, by rw [ho, g.walk x hx]; rfl⟩
  | walkBack name =>
    refine h.withNode rfl fun x hx => ?_
    obtain ⟨hc, a, -⟩ := h.sound.walkBack hx
    obtain ⟨hk, ho⟩ := h.reachAll hc a
    refine ⟨hk, ?_⟩
    rw [ho]
    rcases g.walkBack x hx with hp | ⟨hd, hp⟩
    · exact Or.inl (by rw [hp])
    · exact Or.inr ⟨hd, by rw [hp]; rfl⟩
  | release name => exact h.withNode rfl fun x _ => h.serves_release
  | text name => exact h.withNode rfl fun x _ => ⟨h, _, rfl⟩
  | describe name =>
    refine h.withNode rfl fun x hx => ⟨h, ?_⟩
    show _ = Outcome.done _
    rw [h.flags x hx]
  | pending => exact ⟨h, _, rfl⟩

end Kept

/-! ## A suspended call goes on -/

/-- The call has done what it was asked for. -/
def succeeded : Outcome (Stage κ ν) (Answer κ ν) → Bool
  | .done (.bool b) => b
  | _ => false

/-- The tombstones after a suspended call has done what it was asked for. -/
def change (t : Tombstones) (s : Session κ ν) : Stage κ ν → Tombstones
  | .inserting x _ => t.insert x s.chain.size
  | .cutting cut => t.bury cut.target

/-- The tombstones after a suspended call went on. -/
def inscribe (t : Tombstones) (s : Session κ ν) (stage : Stage κ ν) : Tombstones :=
  if succeeded (resume stage s).2 then change t s stage else t

namespace Kept

variable {t : Tombstones} {s : Session κ ν} {stages : List (Stage κ ν)} {x : NodeId}

theorem resume_inserting {e : Entry String κ ν} (h : Kept t s (.inserting x e :: stages)) :
    Kept (inscribe t s (.inserting x e)) (resume (.inserting x e) s).1 stages ∧
      Concludes t (inscribe t s (.inserting x e)) s (resume (.inserting x e) s) (.inserting x e) := by
  have hsound : Sound s.chain t.order (x :: (s.owned ++ stages.flatMap pending)) := h.sound.perm List.perm_middle
  have hx : x ∈ t.order := hsound.held_mem List.mem_cons_self
  have hcuts (cut : Cut) (hm : .cutting cut ∈ stages) := h.cuts cut (List.mem_cons_of_mem _ hm)
  rcases hsound.finishInsert e with ⟨hl, ht, hy, hc, g⟩ | ⟨hd, hy, hc, a⟩
  · have hp : resume (.inserting x e) s = ({ s with
        chain := (s.chain.finishInsert x e).1
        names := (e.label, s.chain.size) :: s.names
        owned := s.chain.size :: s.owned }, .done (.bool true)) := by
      rw [resume]
      split
      · next hn => rw [hn] at hy; cases hy
      · next c y hn => rw [hn] at hy ⊢; cases hy; rfl
    have hr : inscribe t s (.inserting x e) = t.insert x s.chain.size := by rw [inscribe, hp]; rfl
    have hnew : t.isDeleted s.chain.size = false := by
      refine decide_eq_false fun hm => ?_
      exact Nat.lt_irrefl _ ((hsound.laid.mem _).mp (h.known _ hm))
    have hmem (y : NodeId) (hy : y ∈ t.order) : y ∈ insertBehind x s.chain.size t.order :=
      (mem_insertBehind hx).mpr (Or.inr hy)
    rw [hr, hp]
    refine ⟨⟨hc, ?_, fun y hy => hmem y (h.known y hy), ?_, ?_⟩, Or.inl
      ⟨rfl, by rw [h.flags x hx, hl], ht, rfl, hnew, g.carried, rfl⟩⟩
    · intro y hy
      rw [Tombstones.isDeleted_insert]
      rcases (mem_insertBehind hx).mp hy with rfl | hy
      · rw [hnew]
        exact g.live.symm
      · rw [h.flags y hy]
        exact (g.deleted y ((hsound.laid.mem y).mp hy)).symm
    · intro entry he
      rcases List.mem_cons.mp he with rfl | he
      · exact (mem_insertBehind hx).mpr (Or.inl rfl)
      · exact hmem _ (h.named entry he)
    · intro cut hm
      exact g.ages.not_isSentinel (hcuts cut hm)
  · have hp : resume (.inserting x e) s =
        ({ s with chain := (s.chain.finishInsert x e).1 }.lose e.label, .done (.bool false)) := by
      rw [resume]
      split
      · next hn => rw [hn]
      · next c y hn => rw [hn] at hy; cases hy
    have hr : inscribe t s (.inserting x e) = t := by rw [inscribe, hp]; rfl
    rw [hr, hp]
    refine ⟨⟨hc, ?_, h.known, h.named, ?_⟩, Or.inr ⟨rfl, ?_, rfl⟩⟩
    · intro y hy
      rw [h.flags y hy]
      exact (a.deleted y).symm
    · intro cut hm
      exact a.ages.not_isSentinel (hcuts cut hm)
    · rw [h.flags x hx]
      exact hd

theorem resume_cutting {cut : Cut} (h : Kept t s (.cutting cut :: stages)) :
    Kept (inscribe t s (.cutting cut)) (resume (.cutting cut) s).1 stages ∧
      Concludes t (inscribe t s (.cutting cut)) s (resume (.cutting cut) s) (.cutting cut) := by
  have hs := h.cuts cut List.mem_cons_self
  have hcuts (cut' : Cut) (hm : .cutting cut' ∈ stages) := h.cuts cut' (List.mem_cons_of_mem _ hm)
  have hx : cut.target ∈ t.order := (h.sound.laid.mem _).mpr (lt_size_of_not_isSentinel hs)
  have hp : resume (.cutting cut) s =
      ({ s with chain := (s.chain.finishDelete cut).1 }, .done (.bool (s.chain.finishDelete cut).2)) := rfl
  rcases h.sound.finishDelete hs with ⟨hw, hl, hc, b⟩ | hw
  · have hr : inscribe t s (.cutting cut) = t.bury cut.target := by rw [inscribe, hp, hw]; rfl
    rw [hr, hp, hw]
    refine ⟨⟨hc, ?_, ?_, h.named, ?_⟩, Or.inl ⟨rfl, ?_, ?_, rfl⟩⟩
    · intro y hy
      rw [Tombstones.isDeleted_bury, h.flags y hy]
      exact (b.deleted y).symm
    · intro y hy
      rcases List.mem_cons.mp hy with rfl | hy
      · exact hx
      · exact h.known y hy
    · intro cut' hm
      exact b.ages.not_isSentinel (hcuts cut' hm)
    · rw [isEntry_eq h.sound hx, hs]
      rfl
    · rw [h.flags _ hx, hl]
  · have hr : inscribe t s (.cutting cut) = t := by rw [inscribe, hp, hw]; rfl
    rw [hr, hp, hw]
    have hwhy := h.sound.finishDelete_lost hs (congrArg Prod.snd hw)
    rw [← h.flags _ hx] at hwhy
    exact ⟨⟨h.sound, h.flags, h.known, h.named, hcuts⟩, Or.inr ⟨rfl, hwhy, rfl⟩⟩

/-- A suspended call leaves the tombstones that its answer tells of. -/
theorem resume {stage : Stage κ ν} (h : Kept t s (stage :: stages)) :
    Kept (inscribe t s stage) (Session.resume stage s).1 ((Session.resume stage s).2.stages ++ stages) ∧
      Concludes t (inscribe t s stage) s (Session.resume stage s) stage := by
  cases stage with
  | inserting x e =>
    obtain ⟨hk, hc⟩ := h.resume_inserting
    refine ⟨?_, hc⟩
    have hend : (Session.resume (.inserting x e) s).2.stages = [] := by
      rw [Session.resume]
      split <;> rfl
    rw [hend]
    exact hk
  | cutting cut => exact h.resume_cutting

end Kept

/-! ## Whole sessions -/

variable [ToString κ] [ToString ν]

/-- The moments of a session. -/
def moment (p : Policy) (script : Interleave.Script (Request κ ν)) (n : Nat) :
    Machine (Session κ ν) (Request κ ν) (Stage κ ν) (Answer κ ν) Event :=
  Machine.steps system n (Machine.init (create p) script)

/-- The tombstones of each moment of a session. -/
def tombstones (p : Policy) (script : Interleave.Script (Request κ ν)) : Nat → Tombstones
  | 0 => .initial
  | n + 1 =>
    match (moment p script n).move with
    | .resume stage => inscribe (tombstones p script n) (moment p script n).state stage
    | _ => tombstones p script n

/-- One step keeps the chain sound and changes the tombstones by what it answers. -/
theorem Kept.step {t : Tombstones} {m : Machine (Session κ ν) (Request κ ν) (Stage κ ν) (Answer κ ν) Event}
    (h : Kept t m.state m.stages) :
    let t' := match m.move with
      | .resume stage => inscribe t m.state stage
      | _ => t
    Kept t' (m.step system).state (m.step system).stages ∧ Follows t t' m.state m.move := by
  intro t'
  cases hm : m.move with
  | rest =>
    have ht : t' = t := by simp only [t', hm]
    obtain ⟨hs, hst⟩ := Machine.step_rest system hm
    rw [hs, hst, ht]
    exact ⟨h, rfl⟩
  | start r =>
    have ht : t' = t := by simp only [t', hm]
    obtain ⟨hk, hf⟩ := h.start r
    have hj : system.start r m.state = Session.start r m.state := judge_eq hk.sound.clean
    obtain ⟨hs, hst⟩ := Machine.step_start system hm
    rw [hs, hst, hj, ht]
    exact ⟨hk, rfl, by rw [hj]; exact hf⟩
  | resume stage =>
    have ht : t' = inscribe t m.state stage := by simp only [t', hm]
    obtain ⟨rest, hrest, hs, hst⟩ := Machine.step_resume system hm
    rw [hrest] at h
    obtain ⟨hk, hf⟩ := h.resume
    have hj : system.resume stage m.state = Session.resume stage m.state := judge_eq hk.sound.clean
    rw [hs, hst, hj, ht]
    exact ⟨hk, by show Concludes _ _ _ _ _; rw [hj]; exact hf⟩

theorem kept_moment (p : Policy) (script : Interleave.Script (Request κ ν)) (n : Nat) :
    Kept (tombstones p script n) (moment p script n).state (moment p script n).stages := by
  induction n with
  | zero => exact Kept.initial p
  | succ n ih => exact ih.step.1

/-- **The chain refines its tombstones.** The tombstones of all moments of a session are one sequence, which starts with
the sentinels alone. At each moment they hold all nodes ever linked with the flags of the chain, every walk along the
chain leads where they say, and the next step answers as they foretell and changes them by what it answers. -/
theorem session_refines (p : Policy) (script : Interleave.Script (Request κ ν)) :
    ∃ t : Nat → Tombstones, t 0 = .initial ∧ ∀ n,
      Records (t n) (moment p script n).state.chain ∧ Guides (t n) (moment p script n).state.chain ∧
        Follows (t n) (t (n + 1)) (moment p script n).state (moment p script n).move := by
  refine ⟨tombstones p script, rfl, fun n => ?_⟩
  have h := kept_moment p script n
  exact ⟨records_of_sound h.sound h.flags, guides_of_sound h.sound h.flags, h.step.2⟩

end LeastRecent.Chain.Session
