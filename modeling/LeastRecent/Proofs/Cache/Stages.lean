import LeastRecent.Proofs.Cache.Custody

/-!
# What a suspended call stands for

At each of its stages a call holds links (`held`), owns nodes (`possessed`), is sure of some facts about the nodes that
it works on (`Knows`), and is going to put something in order.

* It answers for an indexed node that is deleted (`Answers`): one that it deleted itself, or a fresh one that was
  evicted before it came into the index. No stage answers for two nodes of the index (`Answers.unique`).
* If it has put a new key into the index, one entry may be too many until it ends (`surplus`).
-/

namespace LeastRecent.Cache

open Chain (Ages)

variable {κ ν : Type} {ch ch' : Chain (Entry Nat κ ν)} {slots : List (κ × NodeId)} {x y : NodeId}

/-- What comes after the fresh node `x` was put in front. -/
def Errand.landed (x : NodeId) : Errand κ ν → Stage κ ν
  | .store e => .publish e x
  | .promote k e stale => .replace k e stale x

namespace Stage

/-- The link that an insertion has on the node before the new one. -/
def anchors : Stage κ ν → List NodeId
  | .front _ => [Chain.header]
  | _ => []

/-- The node that was linked and is not published yet. -/
def fresh : Stage κ ν → List NodeId
  | .publish _ x | .replace _ _ _ x => [x]
  | _ => []

/-- The node that left the index, or could not be published, and is about to be deleted. -/
def doomed : Stage κ ν → List NodeId
  | .discard x _ => [x]
  | .discarding cut _ => [cut.target]
  | _ => []

/-- The node that was found in the index and is about to be deleted. -/
def sought : Stage κ ν → List NodeId
  | .displace _ cut | .withdraw _ _ cut => [cut.target]
  | _ => []

/-- The nodes that the call owns. -/
def possessed (st : Stage κ ν) : List NodeId := st.fresh ++ st.doomed

/-- The links that the call holds. -/
def held (st : Stage κ ν) : List NodeId := st.anchors ++ st.possessed

/-- No call owns two nodes. -/
theorem length_possessed (st : Stage κ ν) : st.possessed.length ≤ 1 := by
  cases st <;> simp [possessed, fresh, doomed]

end Stage

/-! ## What a call is sure of -/

section Knows

variable [BEq κ]

/-- The node `x` carries the entry `e`, and `k` is another spelling of its key. -/
def Carries (ch : Chain (Entry Nat κ ν)) (x : NodeId) (k : κ) (e : Entry Nat κ ν) : Prop :=
  ch.carried? x = some e ∧ (k == e.key) = true

def Errand.Knows (ch : Chain (Entry Nat κ ν)) : Errand κ ν → Prop
  | .store _ => True
  | .promote k e stale => Carries ch stale k e ∧ ch.isDeleted stale = true

def Sequel.Knows (ch : Chain (Entry Nat κ ν)) : Sequel κ ν → Prop
  | .settle k fresh _ => Bears ch fresh k
  | .finish _ => True

/-- What a suspended call is sure of. -/
def Stage.Knows (ch : Chain (Entry Nat κ ν)) : Stage κ ν → Prop
  | .displace e cut => Bears ch cut.target e.key
  | .withdraw k e cut => Carries ch cut.target k e
  | .recheck k e x => Carries ch x k e
  | .push g | .front g => g.Knows ch
  | .publish e fresh => ch.carried? fresh = some e
  | .replace k e stale fresh => (Carries ch stale k e ∧ ch.isDeleted stale = true) ∧ ch.carried? fresh = some e
  | .discard x next => ch.isSentinel x = false ∧ next.Knows ch
  | .discarding cut next => ch.isSentinel cut.target = false ∧ next.Knows ch
  | .settle k fresh _ => Bears ch fresh k ∧ ch.isEvicted fresh = true
  | .evicting cut _ => ch.isSentinel cut.target = false
  | .purge k victim _ => Bears ch victim k ∧ ch.isEvicted victim = true
  | .find _ | .fetch _ | .evict _ | .probe _ => True

variable {k : κ} {e : Entry Nat κ ν}

theorem Carries.bears (h : Carries ch x k e) : Bears ch x k := ⟨e, h⟩

theorem Carries.lt_size (h : Carries ch x k e) : x < ch.size := Chain.lt_size_of_carried h.1

theorem Carries.ages (h : Carries ch x k e) (a : Ages ch ch') : Carries ch' x k e := ⟨a.carried h.1, h.2⟩

theorem Errand.Knows.ages {g : Errand κ ν} (h : g.Knows ch) (a : Ages ch ch') : g.Knows ch' := by
  cases g with
  | store e => trivial
  | promote k e stale => exact ⟨h.1.ages a, a.deleted _ h.1.lt_size h.2⟩

theorem Sequel.Knows.ages {next : Sequel κ ν} (h : next.Knows ch) (a : Ages ch ch') : next.Knows ch' := by
  cases next with
  | settle k fresh r => exact Bears.ages h a
  | finish r => trivial

/-- What a call is sure of stays true. -/
theorem Stage.Knows.ages {st : Stage κ ν} (h : st.Knows ch) (a : Ages ch ch') : st.Knows ch' := by
  cases st with
  | displace e cut => exact Bears.ages h a
  | withdraw k e cut => exact Carries.ages h a
  | recheck k e x => exact Carries.ages h a
  | push g => exact Errand.Knows.ages h a
  | front g => exact Errand.Knows.ages h a
  | publish e fresh => exact a.carried h
  | replace k e stale fresh => exact ⟨⟨h.1.1.ages a, a.deleted _ h.1.1.lt_size h.1.2⟩, a.carried h.2⟩
  | discard x next => exact ⟨a.not_isSentinel h.1, h.2.ages a⟩
  | discarding cut next => exact ⟨a.not_isSentinel h.1, h.2.ages a⟩
  | settle k fresh r => exact ⟨h.1.ages a, a.evicted _ (Chain.lt_size_of_not_isSentinel h.1.not_isSentinel) h.2⟩
  | evicting cut r => exact a.not_isSentinel h
  | purge k victim r => exact ⟨h.1.ages a, a.evicted _ (Chain.lt_size_of_not_isSentinel h.1.not_isSentinel) h.2⟩
  | find e => trivial
  | fetch k => trivial
  | evict r => trivial
  | probe k => trivial

/-! ## What a call answers for -/

def Errand.Answers (ch : Chain (Entry Nat κ ν)) (x : NodeId) : Errand κ ν → Prop
  | .store e => Bears ch x e.key
  | .promote _ _ stale => x = stale

def Sequel.Answers (ch : Chain (Entry Nat κ ν)) (x : NodeId) : Sequel κ ν → Prop
  | .settle _ fresh _ => x = fresh ∧ ch.isEvicted x = true
  | .finish _ => False

/-- The call at this stage will see to it that `x`, which is deleted, does not stay in the index. -/
def Stage.Answers (ch : Chain (Entry Nat κ ν)) (x : NodeId) : Stage κ ν → Prop
  | .push g | .front g => g.Answers ch x
  | .publish e _ => Bears ch x e.key
  | .replace _ _ stale _ => x = stale
  | .discard _ next | .discarding _ next => next.Answers ch x
  | .settle _ fresh _ => x = fresh ∧ ch.isEvicted x = true
  | .purge _ victim _ => x = victim
  | .find _ | .displace .. | .fetch _ | .withdraw .. | .recheck .. | .evict _ | .evicting .. | .probe _ => False

theorem Errand.Answers.ages {g : Errand κ ν} (h : g.Answers ch x) (a : Ages ch ch') : g.Answers ch' x := by
  cases g with
  | store e => exact Bears.ages h a
  | promote k e stale => exact h

omit [BEq κ] in
theorem Sequel.Answers.ages {next : Sequel κ ν} (h : next.Answers ch x) (a : Ages ch ch') (hx : x < ch.size) :
    next.Answers ch' x := by
  cases next with
  | settle k fresh r => exact ⟨h.1, a.evicted x hx h.2⟩
  | finish r => exact h

theorem Stage.Answers.ages {st : Stage κ ν} (h : st.Answers ch x) (a : Ages ch ch') (hx : x < ch.size) :
    st.Answers ch' x := by
  cases st with
  | push g => exact Errand.Answers.ages h a
  | front g => exact Errand.Answers.ages h a
  | publish e fresh => exact Bears.ages h a
  | discard y next => exact Sequel.Answers.ages h a hx
  | discarding cut next => exact Sequel.Answers.ages h a hx
  | settle k fresh r => exact ⟨h.1, a.evicted x hx h.2⟩
  | _ => exact h

variable [EquivBEq κ]

/-- A call answers for one node of the index at most. -/
theorem Stage.Answers.unique {st : Stage κ ν} (hf : Filed ch slots) (hx : x ∈ slots.map Prod.snd)
    (hy : y ∈ slots.map Prod.snd) (hsx : st.Answers ch x) (hsy : st.Answers ch y) : x = y := by
  have errand (g : Errand κ ν) (hgx : g.Answers ch x) (hgy : g.Answers ch y) : x = y := by
    cases g with
    | store e => exact hf.unique hx hy hgx hgy
    | promote k e stale => exact Eq.trans hgx (Eq.symm hgy)
  have sequel (next : Sequel κ ν) (hnx : next.Answers ch x) (hny : next.Answers ch y) : x = y := by
    cases next with
    | settle k fresh r => exact hnx.1.trans hny.1.symm
    | finish r => exact False.elim hnx
  cases st with
  | push g => exact errand g hsx hsy
  | front g => exact errand g hsx hsy
  | publish e fresh => exact hf.unique hx hy hsx hsy
  | replace k e stale fresh => exact Eq.trans hsx (Eq.symm hsy)
  | discard z next => exact sequel next hsx hsy
  | discarding cut next => exact sequel next hsx hsy
  | settle k fresh r => exact hsx.1.trans hsy.1.symm
  | purge k victim r => exact Eq.trans hsx (Eq.symm hsy)
  | _ => exact False.elim hsx

end Knows

/-! ## The entry that may be too many -/

def Reply.surplus : Reply κ ν → Nat
  | .stored => 1
  | _ => 0

def Sequel.surplus : Sequel κ ν → Nat
  | .settle _ _ r => r.surplus
  | .finish _ => 0

/-- How many entries the call may have added. -/
def Stage.surplus : Stage κ ν → Nat
  | .discard _ next | .discarding _ next => next.surplus
  | .settle _ _ r | .evict r | .evicting _ r | .purge _ _ r => r.surplus
  | _ => 0

end LeastRecent.Cache
