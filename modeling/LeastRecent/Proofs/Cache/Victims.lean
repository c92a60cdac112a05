import LeastRecent.Proofs.Cache.Advance
import LeastRecent.Proofs.Chain.Coldest
import LeastRecent.Proofs.Interleave.Runs

/-!
# Victims, and what is still to be taken out of the index

An eviction chooses its victim (`Stage.chosen?`) before it deletes it, and a node that was evicted is taken out of the
index later, by the eviction itself or, if it was not in the index yet, by the call that puts it there
(`Stage.removes?`). A call that has this still to do for an evicted node owes one removal (`Stage.owes`).

A stretch of work is thrifty (`Thrifty`) if it evicts nothing, chooses no victim but the last live entry of a cache that
is too large, and pays for each entry that the index loses with a removal that was owed. Every stretch of work is thrifty
except the one with which an eviction deletes its victim (`thrifty_resume`, `Evicts`).
-/

namespace LeastRecent.Cache

open Chain (Ages Alike Sound Spares Cut)
open Interleave (Outcome)

variable {κ ν : Type} {c c₀ c₁ : Cache κ ν} {ch ch' : Chain (Entry Nat κ ν)} {x : NodeId} {k : κ} {e : Entry Nat κ ν}
  {r : Reply κ ν} {n m : Nat}

/-- The node that the call is in the middle of evicting. -/
def Stage.chosen? : Stage κ ν → Option NodeId
  | .evicting cut _ => some cut.target
  | _ => none

def Sequel.removes? : Sequel κ ν → Option NodeId
  | .settle _ fresh _ => some fresh
  | .finish _ => none

/-- The node that the call is going to take out of the index if it was evicted. -/
def Stage.removes? : Stage κ ν → Option NodeId
  | .publish _ x | .replace _ _ _ x | .settle _ x _ | .purge _ x _ => some x
  | .discard _ next | .discarding _ next => next.removes?
  | _ => none

/-- How many removals are owed for a node. -/
def charge (ch : Chain (Entry Nat κ ν)) (x : Option NodeId) : Nat := (x.any ch.isEvicted).toNat

/-- How many removals a call at this stage owes. -/
def Stage.owes (ch : Chain (Entry Nat κ ν)) (st : Stage κ ν) : Nat := charge ch st.removes?

/-- How many removals the calls at `stages` owe. -/
def owed (ch : Chain (Entry Nat κ ν)) : List (Stage κ ν) → Nat
  | [] => 0
  | st :: stages => st.owes ch + owed ch stages

theorem charge_le_one (ch : Chain (Entry Nat κ ν)) (x : Option NodeId) : charge ch x ≤ 1 := Bool.toNat_le _

theorem charge_of_evicted (h : ch.isEvicted x = true) : charge ch (some x) = 1 := by
  rw [charge, Option.any_some, h]
  rfl

theorem charge_of_not_evicted (h : ch.isEvicted x = false) : charge ch (some x) = 0 := by
  rw [charge, Option.any_some, h]
  rfl

/-- As long as nothing is evicted, the same removals are owed. -/
theorem charge_congr (h : ∀ x, ch'.isEvicted x = ch.isEvicted x) (x : Option NodeId) : charge ch' x = charge ch x := by
  have he : ch'.isEvicted = ch.isEvicted := funext h
  rw [charge, charge, he]

theorem owed_cons (ch : Chain (Entry Nat κ ν)) (st : Stage κ ν) (stages : List (Stage κ ν)) :
    owed ch (st :: stages) = st.owes ch + owed ch stages := rfl

theorem owed_congr (h : ∀ x, ch'.isEvicted x = ch.isEvicted x) (stages : List (Stage κ ν)) :
    owed ch' stages = owed ch stages := by
  induction stages with
  | nil => rfl
  | cons st stages ih => rw [owed_cons, owed_cons, ih, Stage.owes, Stage.owes, charge_congr h]

theorem owed_append (ch : Chain (Entry Nat κ ν)) (l r : List (Stage κ ν)) : owed ch (l ++ r) = owed ch l + owed ch r := by
  induction l with
  | nil => exact (Nat.zero_add _).symm
  | cons st l ih => rw [List.cons_append, owed_cons, owed_cons, ih, Nat.add_assoc]

/-- A call owes one removal at most. -/
theorem owed_le_length (ch : Chain (Entry Nat κ ν)) : ∀ stages : List (Stage κ ν), owed ch stages ≤ stages.length
  | [] => Nat.le_refl _
  | st :: stages => by
    have ih := owed_le_length ch stages
    have hst : st.owes ch ≤ 1 := charge_le_one ch _
    rw [owed_cons, List.length_cons]
    omega

/-! ## Thrifty work -/

/-- The running call, which owed `n` removals when the cache was `c₀`, has got on: it may have chosen a victim, but it
did not evict any, and for each removal that it made it owes one less. -/
structure Thrifty (c₀ : Cache κ ν) (n : Nat) (p : Advance κ ν) : Prop where
  chain : Spares c₀.chain p.1.chain
  capacity : p.1.capacity = c₀.capacity
  debt : owed p.1.chain p.2.stages ≤ n
  size : c₀.size + owed p.1.chain p.2.stages ≤ p.1.size + n
  chosen : ∀ st ∈ p.2.stages, ∀ x, st.chosen? = some x →
    p.1.chain.coldest? = some x ∧ p.1.chain.isDeleted x = false ∧ p.1.capacity < p.1.size

namespace Thrifty

variable {p : Advance κ ν}

/-- Work before that evicted nothing. -/
theorem after (h : Thrifty c₁ m p) (hc : Spares c₀.chain c₁.chain) (hcap : c₁.capacity = c₀.capacity) (hm : m ≤ n)
    (hs : c₀.size + m ≤ c₁.size + n) : Thrifty c₀ n p where
  chain := hc.trans h.chain
  capacity := h.capacity.trans hcap
  debt := Nat.le_trans h.debt hm
  size := by
    have := h.size
    omega
  chosen := h.chosen

/-- Work before that did not touch the index. -/
theorem after_chain (h : Thrifty { c with chain := ch } n p) (hc : Spares c.chain ch) : Thrifty c n p :=
  h.after hc rfl (Nat.le_refl _) (Nat.le_refl _)

/-- The call may owe more. -/
theorem mono (h : Thrifty c m p) (hm : m ≤ n) : Thrifty c n p :=
  h.after (Spares.refl _) rfl hm (Nat.add_le_add_left hm _)

/-- The call is done. -/
theorem done (c : Cache κ ν) (r : Reply κ ν) : Thrifty c n (c, .done r) where
  chain := Spares.refl _
  capacity := rfl
  debt := Nat.zero_le _
  size := Nat.add_le_add_left (Nat.zero_le _) _
  chosen _ hst := by cases hst

/-- The call goes to a stage at which it has chosen no victim. -/
theorem pause {st : Stage κ ν} (c : Cache κ ν) (hst : st.chosen? = none) (hn : st.owes c.chain ≤ n) :
    Thrifty c n (c, .pause st) where
  chain := Spares.refl _
  capacity := rfl
  debt := hn
  size := Nat.add_le_add_left hn _
  chosen st' hst' x hx := by
    rw [List.mem_singleton.mp hst', hst] at hx
    cases hx

end Thrifty

section Stages

variable [BEq κ] {stages : List (Stage κ ν)}

/-- A victim is chosen if the cache is too large, and then it is the last live entry. -/
theorem thrifty_evict (h : Coherent c.chain c.index.slots stages) : Thrifty c n (c.evict r) := by
  obtain ⟨order, hsound⟩ := h.sound
  obtain ⟨hsound', a, -⟩ := hsound.back hsound.laid.trailer_mem
  have hspares := a.spares (hsound.recent_alike hsound' a)
  have hfound := hsound.recent_back
  unfold evict
  split
  · exact Thrifty.done c r
  · next hlarge =>
    cases hb : c.chain.back Chain.trailer with
    | mk ch found =>
      rw [hb] at hspares hfound hsound'
      cases found with
      | none => exact (Thrifty.done _ r).after hspares rfl (Nat.le_refl n) (Nat.le_refl _)
      | some y =>
        dsimp only
        cases hd : ch.beginDelete y with
        | none => exact (Thrifty.pause { c with chain := ch } rfl (Nat.zero_le n)).after_chain hspares
        | some cut =>
          obtain ⟨rfl, -, hnext⟩ := Chain.beginDelete_some hd
          have hlive := Chain.isDeleted_of_next hnext
          refine ⟨hspares, rfl, Nat.zero_le _, Nat.add_le_add_left (Nat.zero_le _) _, fun st hst x hx => ?_⟩
          rw [List.mem_singleton.mp hst] at hx
          cases hx
          exact ⟨hspares.coldest _ hfound.symm hlive, hlive, Nat.lt_of_not_le hlarge⟩

/-- A fresh node that was evicted has still to leave the index. -/
theorem thrifty_settle (h : Coherent c.chain c.index.slots stages) (hn : charge c.chain (some x) ≤ n) :
    Thrifty c n (c.settle k x r) := by
  unfold settle
  split
  · exact Thrifty.pause c rfl hn
  · exact thrifty_evict h

theorem thrifty_discard {next : Sequel κ ν} (h : Coherent c.chain c.index.slots (.discard x next :: stages))
    (hn : charge c.chain next.removes? ≤ n) : Thrifty c n (c.discard x next) := by
  unfold discard
  split
  · next hd =>
    obtain ⟨a, hrecent⟩ := h.alike_release (List.mem_append_right _ List.mem_cons_self)
    refine Thrifty.after_chain (c := c) ?_ (a.spares hrecent)
    cases next with
    | settle k fresh r =>
      exact thrifty_settle (c := c.release x) (h.discard hd) (Nat.le_trans (Nat.le_of_eq (charge_congr a.evicted _)) hn)
    | finish r => exact Thrifty.done _ r
  · split
    · exact Thrifty.pause c rfl hn
    · exact Thrifty.pause c rfl hn

theorem thrifty_push {g : Errand κ ν} (h : Coherent c.chain c.index.slots stages) : Thrifty c n (c.push g) := by
  obtain ⟨order, hsound⟩ := h.sound
  unfold push
  rcases hsound.beginInsert hsound.laid.header_mem with ⟨hb, -⟩ | ⟨ch, hb, hsound', a⟩
  · rw [hb]
    exact Thrifty.pause c rfl (Nat.zero_le _)
  · rw [hb]
    exact (Thrifty.pause { c with chain := ch } rfl (Nat.zero_le n)).after_chain
      (a.spares (hsound.recent_alike hsound' a))

omit [BEq κ] in
theorem thrifty_lose : Thrifty c n (c.lose k e x) := by
  unfold lose
  split
  · exact Thrifty.done c _
  · exact Thrifty.pause c rfl (Nat.zero_le _)

omit [BEq κ] in
theorem thrifty_withdraw : Thrifty c n (c.withdraw k e x) := by
  unfold withdraw
  split
  · exact thrifty_lose
  · exact Thrifty.pause c rfl (Nat.zero_le _)

/-- A deletion that does not mark its node spares the chain, whether it wins or not. -/
theorem spares_finishDelete {cut : Cut} (h : Coherent c.chain c.index.slots stages)
    (hs : c.chain.isSentinel cut.target = false) : Spares c.chain (c.chain.finishDelete cut).1 := by
  obtain ⟨order, hsound⟩ := h.sound
  rcases hsound.finishDelete hs with ⟨-, -, hsound', b⟩ | hl
  · exact hsound.spares_buries hsound' b
  · rw [hl]
    exact Spares.refl _

/-- So does the insertion of a node in front. -/
theorem spares_finishFront {g : Errand κ ν} (h : Coherent c.chain c.index.slots (.front g :: stages)) :
    Spares c.chain (c.chain.finishInsert Chain.header g.entry).1 := by
  obtain ⟨order, hsound⟩ := h.sound
  have hfront : Sound c.chain order (Chain.header :: (c.index.slots.map Prod.snd ++ stages.flatMap Stage.held)) :=
    hsound.perm List.perm_middle
  rcases hfront.finishInsert g.entry with ⟨-, -, -, hsound', grows⟩ | ⟨hd | hd, -⟩
  · exact hfront.spares_grows hsound' grows
  · rw [hsound.laid.start] at hd
    cases hd
  · cases hd

/-! ## Stages -/

/-- A node found in the index is deleted, or its deletion is lost. -/
theorem thrifty_displace {cut : Cut} (h : Coherent c.chain c.index.slots (.displace e cut :: stages)) :
    Thrifty c n (resume (.displace e cut) c) := by
  have hsent : c.chain.isSentinel cut.target = false := Bears.not_isSentinel (h.knows _ List.mem_cons_self)
  have hspares := spares_finishDelete h hsent
  rcases h.finishDelete hsent (not_fresh_of_sought h List.mem_cons_self) with ⟨-, hc, -⟩ | hl
  · exact (thrifty_push (c := { c with chain := (c.chain.finishDelete cut).1 }) (hc.tail rfl)).after_chain hspares
  · rw [resume, hl]
    exact thrifty_push (h.tail rfl)

theorem thrifty_withdrawing {cut : Cut} (h : Coherent c.chain c.index.slots (.withdraw k e cut :: stages)) :
    Thrifty c n (resume (.withdraw k e cut) c) := by
  have hsent : c.chain.isSentinel cut.target = false := (Carries.bears (h.knows _ List.mem_cons_self)).not_isSentinel
  have hspares := spares_finishDelete h hsent
  rw [resume]
  rcases h.finishDelete hsent (not_fresh_of_sought h List.mem_cons_self) with ⟨-, hc, -⟩ | hl
  · split
    · next chain heq =>
      rw [heq] at hc hspares
      exact (thrifty_push (c := { c with chain := chain }) (hc.tail rfl)).after_chain hspares
    · next chain heq =>
      rw [heq] at hspares
      exact (thrifty_lose (c := { c with chain := chain })).after_chain hspares
  · rw [hl]
    exact thrifty_lose

theorem thrifty_discarding {cut : Cut} {next : Sequel κ ν}
    (h : Coherent c.chain c.index.slots (.discarding cut next :: stages)) :
    Thrifty c (charge c.chain next.removes?) (resume (.discarding cut next) c) := by
  have hsent : c.chain.isSentinel cut.target = false := (h.knows _ List.mem_cons_self).1
  rcases h.finishDelete hsent h.not_fresh_of_discarding with ⟨-, hc, b⟩ | hl
  · exact (thrifty_discard (c := { c with chain := (c.chain.finishDelete cut).1 }) hc.discarded
      (Nat.le_of_eq (charge_congr b.evicted _))).after_chain (spares_finishDelete h hsent)
  · rw [resume, hl]
    exact thrifty_discard h.discarded (Nat.le_refl _)

theorem thrifty_front {g : Errand κ ν} (h : Coherent c.chain c.index.slots (.front g :: stages)) :
    Thrifty c n (resume (.front g) c) := by
  obtain ⟨-, -, grows, -⟩ := h.finishFront
  have hcharge : charge (c.chain.finishInsert Chain.header g.entry).1 (some c.chain.size) ≤ n := by
    rw [charge_of_not_evicted grows.unmarked]
    exact Nat.zero_le _
  rw [resume_front h]
  refine Thrifty.after_chain (Thrifty.pause _ ?_ ?_) (spares_finishFront h)
  · cases g <;> rfl
  · cases g <;> exact hcharge

/-- An evicted node is taken out of the index, or it was not there. -/
theorem thrifty_remove (notes : List Notice) (h : Coherent c.chain c.index.slots stages)
    (hd : c.chain.isDeleted x = true) : Thrifty c 1 (match c.index.removeIf k x with
      | (index, true) => evict { (Cache.release { c with index := index } x) with notices := notes } r
      | (_, false) => c.evict r) := by
  by_cases hf : c.index.find? k = some x
  · obtain ⟨a, hrecent⟩ := h.alike_release (List.mem_append_left _ (Index.mem_nodes_of_lookup hf))
    rw [Index.removeIf, if_pos hf]
    let c' : Cache κ ν := { c with
      chain := c.chain.release x
      index := ⟨Index.erase k c.index.slots⟩
      notices := notes }
    have hlen : c'.size + 1 = c.size := Index.length_erase hf
    exact (thrifty_evict (c := c') (n := 0) (h.remove hf hd)).after (a.spares hrecent) rfl (Nat.zero_le _) (by omega)
  · rw [Index.removeIf, if_neg hf]
    exact thrifty_evict h

/-- A victim that was chosen is deleted and marked; nothing else happens. -/
structure Evicts (c : Cache κ ν) (x : NodeId) (c' : Cache κ ν) : Prop where
  live : c.chain.isDeleted x = false
  deleted : ∀ y, c'.chain.isDeleted y = if y = x then true else c.chain.isDeleted y
  evicted : ∀ y, c'.chain.isEvicted y = if y = x then true else c.chain.isEvicted y
  index : c'.index = c.index
  capacity : c'.capacity = c.capacity

/-- An eviction goes on: it deletes its victim and has then to take it out of the index, or its deletion is lost. -/
theorem thrifty_evicting {cut : Cut} (h : Coherent c.chain c.index.slots (.evicting cut r :: stages)) :
    Thrifty c n (resume (.evicting cut r) c) ∨
      Evicts c cut.target (resume (.evicting cut r) c).1 ∧
        ∃ k, (resume (.evicting cut r) c).2 = .pause (.purge k cut.target r) := by
  have hsent : c.chain.isSentinel cut.target = false := h.knows _ List.mem_cons_self
  obtain ⟨order, hsound⟩ := h.sound
  rcases hsound.finishDelete hsent with ⟨hw, hlive, -, b⟩ | hl
  · right
    have hlt : cut.target < (c.chain.finishDelete cut).1.size := by
      rw [b.size]
      exact Chain.lt_size_of_not_isSentinel hsent
    obtain ⟨e, -, -, hstep⟩ := resume_evicting h hw
    rw [hstep]
    refine ⟨⟨hlive, fun y => ?_, fun y => ?_, rfl, rfl⟩, e.key, rfl⟩
    · exact (Chain.isDeleted_markEvicted hlt y).trans (b.deleted y)
    · refine (Chain.isEvicted_markEvicted hlt y).trans ?_
      rw [b.evicted]
  · left
    rw [resume, hl]
    exact thrifty_evict (h.tail rfl)

variable [EquivBEq κ]

theorem thrifty_publish (h : Coherent c.chain c.index.slots (.publish e x :: stages)) :
    Thrifty c (charge c.chain (some x)) (resume (.publish e x) c) := by
  let c' : Cache κ ν := { c with index := ⟨Index.assign e.key x c.index.slots⟩ }
  have hk : Bears c.chain x e.key := ⟨e, h.knows _ List.mem_cons_self, BEq.rfl⟩
  cases hf : c.index.find? e.key with
  | none =>
    have he : resume (.publish e x) c = c'.settle e.key x .stored := by rw [resume, Index.publish, hf]
    have hlen : c'.size = c.size + 1 := by
      show (Index.assign e.key x c.index.slots).length = c.index.slots.length + 1
      rw [Index.assign_new hf, List.length_append]
      rfl
    rw [he]
    exact (thrifty_settle (c := c') (n := charge c.chain (some x)) (h.publish_new hf) (Nat.le_refl _)).after
      (Spares.refl _) rfl (Nat.le_refl _) (by omega)
  | some y =>
    have he : resume (.publish e x) c = c'.discard y (.settle e.key x .stored) := by rw [resume, Index.publish, hf]
    have hlen : c'.size = c.size := Index.length_assign hf
    rw [he]
    have hc : Coherent c'.chain c'.index.slots (.discard y (.settle e.key x .stored) :: stages) :=
      h.publish_over _ hf hk
    exact (thrifty_discard (n := charge c.chain (some x)) hc (Nat.le_refl _)).after (Spares.refl _) rfl (Nat.le_refl _)
      (by omega)

theorem thrifty_replace {stale : NodeId} (h : Coherent c.chain c.index.slots (.replace k e stale x :: stages)) :
    Thrifty c (charge c.chain (some x)) (resume (.replace k e stale x) c) := by
  obtain ⟨⟨hstale, -⟩, hx⟩ := h.knows _ List.mem_cons_self
  by_cases hf : c.index.find? k = some stale
  · let c' : Cache κ ν := Cache.release { c with index := ⟨Index.assign k x c.index.slots⟩ } stale
    have he : resume (.replace k e stale x) c = c'.settle k x (.found (some e)) := by
      rw [resume, Index.replace, if_pos hf]
    have hlen : c'.size = c.size := Index.length_assign hf
    obtain ⟨a, hrecent⟩ := h.alike_release (List.mem_append_left _ (Index.mem_nodes_of_lookup hf))
    have hcharge := charge_congr a.evicted (some x)
    rw [he]
    exact (thrifty_settle (c := c') (h.replace hf) (Nat.le_of_eq hcharge)).after (a.spares hrecent) rfl
      (Nat.le_refl _) (by omega)
  · have he : resume (.replace k e stale x) c = c.discard x (.finish (.found (some e))) := by
      rw [resume, Index.replace, if_neg hf]
    rw [he]
    exact thrifty_discard (h.become rfl rfl rfl rfl ⟨Bears.not_isSentinel ⟨e, hx, hstale.2⟩, trivial⟩)
      (Nat.zero_le _)

/-- **A call goes on** thriftily, or it evicts its victim. -/
theorem thrifty_resume {st : Stage κ ν} (h : Coherent c.chain c.index.slots (st :: stages)) :
    Thrifty c (st.owes c.chain) (resume st c) ∨
      ∃ cut r k, st = .evicting cut r ∧ Evicts c cut.target (resume st c).1 ∧
        (resume st c).2 = .pause (.purge k cut.target r) := by
  have hknows := h.knows _ List.mem_cons_self
  -- the removal that is owed for an evicted node is made
  have hremove {x : NodeId} (hx : c.chain.isEvicted x = true) {p : Advance κ ν} (hp : Thrifty c 1 p) :
      Thrifty c (charge c.chain (some x)) p := hp.mono (Nat.le_of_eq (charge_of_evicted hx).symm)
  cases st with
  | evicting cut r =>
    rcases thrifty_evicting h with ht | ⟨he, k, hk⟩
    · exact Or.inl ht
    · exact Or.inr ⟨cut, r, k, rfl, he, hk⟩
  | find e =>
    left
    rw [resume]
    split
    · exact thrifty_push (h.tail rfl)
    · exact Thrifty.pause c rfl (Nat.zero_le _)
  | displace e cut => exact Or.inl (thrifty_displace h)
  | fetch k =>
    left
    rw [resume]
    split
    · exact Thrifty.done c _
    · split
      · exact Thrifty.done c _
      · exact thrifty_withdraw
  | withdraw k e cut => exact Or.inl (thrifty_withdrawing h)
  | recheck k e x =>
    left
    rw [resume]
    split
    · exact thrifty_withdraw
    · exact Thrifty.done c _
  | push g => exact Or.inl (thrifty_push (h.tail rfl))
  | front g => exact Or.inl (thrifty_front h)
  | publish e fresh => exact Or.inl (thrifty_publish h)
  | replace k e stale fresh => exact Or.inl (thrifty_replace h)
  | discard x next => exact Or.inl (thrifty_discard h (Nat.le_refl _))
  | discarding cut next => exact Or.inl (thrifty_discarding h)
  | settle k x r =>
    exact Or.inl (hremove hknows.2 (p := resume (.settle k x r) c)
      (thrifty_remove c.notices (h.tail rfl) (h.custody.marked x hknows.2)))
  | evict r => exact Or.inl (thrifty_evict (h.tail rfl))
  | purge k x r =>
    exact Or.inl (hremove hknows.2 (p := resume (.purge k x r) c)
      (thrifty_remove (c.notices ++ [Notice.evicted c.capacity]) (h.tail rfl) (h.custody.marked x hknows.2)))
  | probe k => exact Or.inl (Thrifty.done c _)

end Stages

end LeastRecent.Cache
