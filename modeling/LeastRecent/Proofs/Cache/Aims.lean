import LeastRecent.Proofs.Cache.Stages

/-!
# What a call is about

At each of its stages a call has one aim (`Stage.aim`): to put a node with a new entry in front, to publish that node, to
look for a key, or, when all that matters is decided, to reply. A call keeps its aim while it goes on; only the stages at
which it links its node, publishes it, or looks for its key turn it to the next one (`Stage.turn`, `pursues_resume`).
-/

namespace LeastRecent.Cache

open Interleave (Outcome)

variable {κ ν : Type}

/-- A call is either in the middle of putting a node in front or not. -/
theorem Stage.front_or (st : Stage κ ν) : (∃ g, st = .front g) ∨ ∀ g, st ≠ .front g := by
  cases st with
  | front g => exact Or.inl ⟨g, rfl⟩
  | _ => exact Or.inr fun g h => by cases h

/-- What a suspended call is about. -/
inductive Aim (κ ν : Type)
  /-- To put a node with the new entry in front, and to publish it then. -/
  | link (e : Entry Nat κ ν)
  /-- To publish the node with the new entry. -/
  | publish (e : Entry Nat κ ν)
  | look (k : κ)
  /-- To reply; what comes before is for the sake of the cache. -/
  | reply (r : Reply κ ν)

def Errand.aim : Errand κ ν → Aim κ ν
  | .store e => .link e
  | .promote _ e _ => .reply (.found (some e))

def Sequel.reply : Sequel κ ν → Reply κ ν
  | .settle _ _ r | .finish r => r

/-- What a call at this stage is about. -/
def Stage.aim : Stage κ ν → Aim κ ν
  | .find e | .displace e _ => .link e
  | .push g | .front g => g.aim
  | .publish e _ => .publish e
  | .fetch k | .probe k => .look k
  | .withdraw _ e _ | .recheck _ e _ | .replace _ e _ _ => .reply (.found (some e))
  | .discard _ next | .discarding _ next => .reply next.reply
  | .settle _ _ r | .evict r | .evicting _ r | .purge _ _ r => .reply r

/-- A call that got so far has this aim, or has given the reply that it was about. -/
def Pursues (a : Aim κ ν) : Outcome (Stage κ ν) (Reply κ ν) → Prop
  | .pause st => st.aim = a
  | .done r => a = .reply r

/-! ## An aim is kept -/

section Keep

variable (c : Cache κ ν)

theorem pursues_evict (r : Reply κ ν) : Pursues (.reply r) (c.evict r).2 := by
  unfold evict
  split
  · rfl
  · split
    · rfl
    · split <;> rfl

theorem pursues_settle (k : κ) (fresh : NodeId) (r : Reply κ ν) : Pursues (.reply r) (c.settle k fresh r).2 := by
  unfold settle
  split
  · rfl
  · exact pursues_evict c r

theorem pursues_discard (x : NodeId) (next : Sequel κ ν) : Pursues (.reply next.reply) (c.discard x next).2 := by
  unfold discard
  split
  · cases next with
    | settle k fresh r => exact pursues_settle _ k fresh r
    | finish r => rfl
  · split <;> rfl

theorem pursues_push (g : Errand κ ν) : Pursues g.aim (c.push g).2 := by
  unfold push
  split <;> rfl

theorem pursues_lose (k : κ) (e : Entry Nat κ ν) (x : NodeId) : Pursues (.reply (.found (some e))) (c.lose k e x).2 := by
  unfold lose
  split <;> rfl

theorem pursues_withdraw (k : κ) (e : Entry Nat κ ν) (x : NodeId) :
    Pursues (.reply (.found (some e))) (c.withdraw k e x).2 := by
  unfold withdraw
  split
  · exact pursues_lose c k e x
  · rfl

end Keep

/-! ## Turns -/

section Turn

variable [BEq κ] (c : Cache κ ν)

/-- The entry that is found for `k`. -/
def lookup (c : Cache κ ν) (k : κ) : Option (Entry Nat κ ν) := (c.index.find? k).bind c.chain.carried?

/-- What a call is about after it went on from a stage. -/
def Stage.turn (c : Cache κ ν) : Stage κ ν → Aim κ ν
  | .front (.store e) => .publish e
  | .publish _ _ => .reply .stored
  | .fetch k => .reply (.found (c.lookup k))
  | .probe k => .reply (.present (c.index.find? k).isSome)
  | st => st.aim

theorem pursues_fetch (k : κ) : Pursues (.reply (.found (c.lookup k))) (resume (.fetch k) c).2 := by
  rw [resume, lookup]
  cases c.index.find? k with
  | none => rfl
  | some x =>
    rw [Option.bind_some]
    cases he : c.chain.carried? x with
    | none => simp [he, Pursues]
    | some e =>
      simp only [he]
      exact pursues_withdraw c k e x

/-- A node that was put in front is published or takes the place of the old one; should there be none, the call tries
again. -/
theorem pursues_front (g : Errand κ ν) :
    Pursues g.aim (resume (.front g) c).2 ∨ ∃ x, (resume (.front g) c).2 = .pause (g.landed x) := by
  rw [resume]
  split
  · exact Or.inl (pursues_push _ g)
  · next x _ =>
    right
    cases g with
    | store e => exact ⟨x, rfl⟩
    | promote k e stale => exact ⟨x, rfl⟩

/-- **A call pursues its aim.** -/
theorem pursues_resume {st : Stage κ ν} (hst : ∀ g, st ≠ .front g) : Pursues (st.turn c) (resume st c).2 := by
  cases st with
  | find e =>
    rw [resume]
    split
    · exact pursues_push c (.store e)
    · rfl
  | displace e cut => exact pursues_push _ (.store e)
  | fetch k => exact pursues_fetch c k
  | withdraw k e cut =>
    rw [resume]
    split
    · exact pursues_push _ (.promote k e cut.target)
    · exact pursues_lose _ k e _
  | recheck k e x =>
    rw [resume]
    split
    · exact pursues_withdraw c k e x
    · rfl
  | push g => exact pursues_push c g
  | front g => exact absurd rfl (hst g)
  | publish e fresh =>
    rw [resume]
    split
    · exact pursues_settle _ e.key fresh .stored
    · exact pursues_discard _ _ (.settle e.key fresh .stored)
  | replace k e stale fresh =>
    rw [resume]
    split
    · exact pursues_settle _ k fresh _
    · exact pursues_discard c fresh (.finish (.found (some e)))
  | discard x next => exact pursues_discard c x next
  | discarding cut next => exact pursues_discard _ cut.target next
  | settle k x r =>
    rw [resume]
    split <;> exact pursues_evict _ r
  | evict r => exact pursues_evict c r
  | evicting cut r =>
    rw [resume]
    split
    · exact pursues_evict _ r
    · dsimp only
      split
      · exact pursues_evict _ r
      · rfl
  | purge k x r =>
    rw [resume]
    split <;> exact pursues_evict _ r
  | probe k => rfl

end Turn

end LeastRecent.Cache
