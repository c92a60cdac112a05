import LeastRecent.Proofs.Cache.Agreement
import LeastRecent.Proofs.Cache.Capacity
import LeastRecent.Proofs.Cache.Outlook
import LeastRecent.Proofs.Chain.Chronicle

/-!
# Calls make headway

What is left to do for evictions is bounded by the entries that are too many and the live nodes that the index does not
have (`View.backlog`): an eviction takes one of either kind away, and at any time there are at most two for each call in
progress. So every stage of a call leads closer to its end (`Stage.wayLeft`, `heads_resume`). A deletion that is tried
again counts as little, since it wins if nothing comes between (`Stage.Ready`).

A stage puts no node into another place. A chain that is laid out in some order stays so; only an insertion in front
adds its node to the order.
-/

namespace LeastRecent

open Chain (Buries Cut Laid Sound insertBehind)

variable {κ ν : Type}

/-! ## What is left to do for evictions -/

namespace View

/-- The live nodes that the index does not have. -/
def unindexed (v : View κ ν) : List NodeId := v.recent.filter fun x => !decide (x ∈ v.index.nodes)

/-- How many entries are too many, and how many live nodes the index does not have. -/
def backlog (v : View κ ν) : Nat := (v.index.size - v.capacity) + v.unindexed.length

variable {v : View κ ν} {x y : NodeId} {k : κ}

theorem mem_unindexed : x ∈ v.unindexed ↔ x ∈ v.recent ∧ x ∉ v.index.nodes := by simp [unindexed]

theorem unindexed_bury (v : View κ ν) (x : NodeId) :
    (v.bury x).unindexed = v.unindexed.filter fun y => !decide (y = x) := by
  rw [unindexed, unindexed, bury, List.filter_filter, List.filter_filter]
  exact List.filter_congr fun y _ => Bool.and_comm _ _

theorem backlog_bury_le (v : View κ ν) (x : NodeId) : (v.bury x).backlog ≤ v.backlog := by
  rw [backlog, backlog, unindexed_bury]
  exact Nat.add_le_add_left (List.length_filter_le _ _) _

/-- A live node that the index does not have is deleted. -/
theorem backlog_bury_lt (hx : x ∈ v.recent) (hn : x ∉ v.index.nodes) : (v.bury x).backlog < v.backlog := by
  rw [backlog, backlog, unindexed_bury]
  refine Nat.add_lt_add_left ?_ _
  rw [List.length_filter_lt_length_iff_exists]
  exact ⟨x, mem_unindexed.mpr ⟨hx, hn⟩, by simp⟩

theorem backlog_grow_le (v : View κ ν) (e : Entry Nat κ ν) : (v.grow e).backlog ≤ v.backlog + 1 := by
  have hle : (v.grow e).unindexed.length ≤ v.unindexed.length + 1 := by
    show (List.filter _ (v.nodes :: v.recent)).length ≤ _
    rw [List.filter_cons]
    split
    · exact Nat.le_refl _
    · exact Nat.le_succ _
  show (v.index.size - v.capacity) + (v.grow e).unindexed.length ≤ (v.index.size - v.capacity) + v.unindexed.length + 1
  omega

section Index

variable [BEq κ] (hnd : v.recent.Nodup)
include hnd

omit [BEq κ] in
/-- Of the live nodes the index misses no more than before, and the one that was displaced if there is one. -/
theorem unindexed_le (v' : View κ ν) (gone : Option NodeId) (hr : v'.recent = v.recent)
    (hn : ∀ z ∈ v.index.nodes, z ∈ v'.index.nodes ∨ gone = some z) :
    v'.unindexed.length ≤ v.unindexed.length + (gone.filter fun z => decide (z ∈ v.recent)).toList.length := by
  rw [← List.length_append]
  refine List.Nodup.length_le_of_subset ?_ fun z hz => ?_
  · rw [unindexed, hr]
    exact hnd.filter _
  · obtain ⟨hm, hout⟩ := mem_unindexed.mp hz
    rw [hr] at hm
    by_cases hin : z ∈ v.index.nodes
    · have hgone := (hn z hin).resolve_left hout
      exact List.mem_append_right _ (by simp [hgone, hm])
    · exact List.mem_append_left _ (mem_unindexed.mpr ⟨hm, hin⟩)

theorem backlog_assign_le : (v.assign k x).backlog ≤ v.backlog + 1 := by
  cases hf : v.index.find? k with
  | none =>
    have hsize : (v.assign k x).index.size = v.index.size + 1 := by
      show (Index.assign k x v.index.slots).length = _
      rw [Index.assign_new hf, List.length_append]
      rfl
    have hle := unindexed_le hnd (v.assign k x) none rfl fun z hz =>
      Or.inl ((Index.nodes_assign_new hf).mem_iff.mpr (List.mem_cons_of_mem x hz))
    have hcap : (v.assign k x).capacity = v.capacity := rfl
    simp only [Option.filter_none, Option.toList_none, List.length_nil] at hle
    rw [backlog, backlog]
    omega
  | some y =>
    have hsize : (v.assign k x).index.size = v.index.size := Index.length_assign hf
    have hle := unindexed_le hnd (v.assign k x) (some y) rfl fun z hz => by
      rcases List.mem_cons.mp ((Index.nodes_assign (a := x) hf).mem_iff.mpr (List.mem_cons_of_mem x hz)) with rfl | hz
      · exact Or.inr rfl
      · exact Or.inl hz
    have hone : ((some y).filter fun z => decide (z ∈ v.recent)).toList.length ≤ 1 := by
      cases h : (some y).filter fun z => decide (z ∈ v.recent) <;> simp
    have hcap : (v.assign k x).capacity = v.capacity := rfl
    rw [backlog, backlog]
    omega

/-- A deleted node is displaced. -/
theorem backlog_assign_dead (hf : v.index.find? k = some y) (hy : y ∉ v.recent) :
    (v.assign k x).backlog ≤ v.backlog := by
  have hsize : (v.assign k x).index.size = v.index.size := Index.length_assign hf
  have hle := unindexed_le hnd (v.assign k x) (some y) rfl fun z hz => by
    rcases List.mem_cons.mp ((Index.nodes_assign (a := x) hf).mem_iff.mpr (List.mem_cons_of_mem x hz)) with rfl | hz
    · exact Or.inr rfl
    · exact Or.inl hz
  have hcap : (v.assign k x).capacity = v.capacity := rfl
  simp only [Option.filter_some, hy, decide_false, Bool.false_eq_true, if_false, Option.toList_none,
    List.length_nil] at hle
  rw [backlog, backlog]
  omega

/-- A deleted node leaves the index. -/
theorem backlog_erase (hf : v.index.find? k = some x) (hx : x ∉ v.recent) :
    (v.erase k).backlog ≤ v.backlog ∧
      ((v.erase k).capacity < (v.erase k).index.size → (v.erase k).backlog < v.backlog) := by
  have hsize : (v.erase k).index.size + 1 = v.index.size := Index.length_erase hf
  have hle := unindexed_le hnd (v.erase k) (some x) rfl fun z hz => by
    rcases List.mem_cons.mp ((Index.nodes_erase hf).mem_iff.mpr hz) with rfl | hz
    · exact Or.inr rfl
    · exact Or.inl hz
  have hcap : (v.erase k).capacity = v.capacity := rfl
  simp only [Option.filter_some, hx, decide_false, Bool.false_eq_true, if_false, Option.toList_none,
    List.length_nil] at hle
  rw [backlog, backlog]
  omega

end Index
end View

namespace Cache

/-! ## How far it is to the end -/

/-- The call tries nothing again at once, and if it is in the middle of a deletion, that wins unless something comes
between. -/
def Stage.Ready (ch : Chain (Entry Nat κ ν)) : Stage κ ν → Prop
  | .push _ | .discard .. | .evict _ => False
  | .displace _ cut | .withdraw _ _ cut | .discarding cut _ | .evicting cut _ => Current ch cut
  | .find _ | .fetch _ | .recheck .. | .front _ | .publish .. | .replace .. | .settle .. | .purge .. | .probe _ => True

variable [BEq κ]

/-- A bound for the number of stages that may follow if nothing comes between. -/
def Stage.wayLeft (c : Cache κ ν) : Stage κ ν → Nat
  | .find _ | .fetch _ | .recheck .. => 2 * c.view.backlog + 11
  | .withdraw _ _ cut => 2 * c.view.backlog + if Current c.chain cut then 10 else 12
  | .displace .. | .push _ => 2 * c.view.backlog + 10
  | .front _ => 2 * c.view.backlog + 9
  | .publish .. | .replace .. => 2 * c.view.backlog + 6
  | .discard .. => 2 * c.view.backlog + 4
  | .discarding cut _ => 2 * c.view.backlog + if Current c.chain cut then 3 else 4
  | .settle .. | .evict _ => 2 * c.view.backlog + 2
  | .evicting cut _ => 2 * c.view.backlog + if Current c.chain cut then 1 else 2
  | .purge k x _ => 2 * c.view.backlog + if c.index.find? k = some x then 0 else 2
  | .probe _ => 0

theorem Stage.wayLeft_le (c : Cache κ ν) (st : Stage κ ν) : st.wayLeft c ≤ 2 * c.view.backlog + 12 := by
  unfold wayLeft
  split
  all_goals first | omega | (split <;> omega)

/-- The nodes of the chain stand in `order`, and the call has ended or is closer to its end than `n`. -/
structure Heads (order : List NodeId) (n : Nat) (p : Advance κ ν) : Prop where
  laid : Laid p.1.chain order
  way : ∀ st ∈ p.2.stages, st.wayLeft p.1 < n
  ready : ∀ st ∈ p.2.stages, st.Ready p.1.chain

variable {c : Cache κ ν} {ch : Chain (Entry Nat κ ν)} {slots : List (κ × NodeId)} {stages : List (Stage κ ν)}
  {order : List NodeId} {x : NodeId} {k : κ} {e : Entry Nat κ ν} {r : Reply κ ν} {n m : Nat}

theorem Heads.done (hl : Laid c.chain order) (r : Reply κ ν) : Heads order n (c, .done r) :=
  ⟨hl, fun _ hst => (by cases hst), fun _ hst => (by cases hst)⟩

theorem Heads.pause {st : Stage κ ν} (hl : Laid c.chain order) (hw : st.wayLeft c < n) (hr : st.Ready c.chain) :
    Heads order n (c, .pause st) := by
  refine ⟨hl, fun st' hst => ?_, fun st' hst => ?_⟩
  · rwa [List.mem_singleton.mp hst]
  · rwa [List.mem_singleton.mp hst]

omit [BEq κ] in
/-- A deletion that wins if nothing comes between brings the call closer to its end than one that is lost. -/
theorem way_of_current {cut : Cut} {b : Nat} (h : Current c.chain cut) (hm : 2 * c.view.backlog + m < n) :
    2 * c.view.backlog + (if Current c.chain cut then m else b) < n := by
  rwa [if_pos h]

/-! ## The nodes stay where they are -/

namespace Coherent

variable (h : Coherent ch slots stages) (hl : Laid ch order)
include h hl

/-- The chain is sound in each of its layouts. -/
theorem relay : Sound ch order (slots.map Prod.snd ++ stages.flatMap Stage.held) := by
  obtain ⟨_, hs⟩ := h.sound
  exact hs.relay hl

theorem laid_release (hx : x ∈ slots.map Prod.snd ++ stages.flatMap Stage.held) : Laid (ch.release x) order :=
  ((h.relay hl).perm (List.perm_cons_erase hx)).release.1.laid

theorem laid_back : Laid (ch.back Chain.trailer).1 order := ((h.relay hl).back hl.trailer_mem).1.laid

theorem laid_finishDelete {cut : Cut} (hs : ch.isSentinel cut.target = false) : Laid (ch.finishDelete cut).1 order := by
  rcases (h.relay hl).finishDelete hs with ⟨-, -, hs', -⟩ | hlost
  · exact hs'.laid
  · rw [hlost]
    exact hl

theorem laid_beginFront (hb : ch.beginInsert Chain.header = some ch') : Laid ch' order := by
  rcases (h.relay hl).beginInsert hl.header_mem with ⟨hn, -⟩ | ⟨c', hc, hs, -⟩
  · rw [hn] at hb
    cases hb
  · rw [hc] at hb
    cases hb
    exact hs.laid

theorem laid_finishFront {g : Errand κ ν} (hfront : stages = .front g :: rest) :
    Laid (ch.finishInsert Chain.header g.entry).1 (insertBehind Chain.header ch.size order) := by
  subst hfront
  have hs : Sound ch order (Chain.header :: (slots.map Prod.snd ++ rest.flatMap Stage.held)) :=
    (h.relay hl).perm List.perm_middle
  rcases hs.finishInsert g.entry with ⟨-, -, -, hs', -⟩ | ⟨hd | hd, -⟩
  · exact hs'.laid
  · rw [hl.start] at hd
    cases hd
  · cases hd

end Coherent

/-- A node that is deleted is not among the live ones. -/
theorem not_mem_recent (h : Coherent c.chain c.index.slots stages) (hd : c.chain.isDeleted x = true) :
    x ∉ c.view.recent := by
  intro hx
  rw [(h.mem_recent.mp hx).1] at hd
  cases hd

/-! ## Parts of stages -/

/-- If an eviction is called for, it wins if nothing comes between. -/
theorem heads_evict (h : Coherent c.chain c.index.slots stages) (hl : Laid c.chain order)
    (hn : c.capacity < c.size → 2 * c.view.backlog + 1 < n) : Heads order n (c.evict r) := by
  unfold evict
  split
  · exact .done hl r
  · next hgt =>
    obtain ⟨_, hsound⟩ := h.sound
    obtain ⟨hsound', a, -⟩ := hsound.back hsound.laid.trailer_mem
    have hc : Coherent (c.chain.back Chain.trailer).1 c.index.slots stages := (back_trailer h).1
    have hview : view { c with chain := (c.chain.back Chain.trailer).1 } = c.view :=
      view_alike a (hsound.recent_alike hsound' a)
    have hlaid := h.laid_back hl
    have hlast : (c.chain.back Chain.trailer).2 = c.chain.recent.getLast? := hsound.recent_back
    cases hb : c.chain.back Chain.trailer with
    | mk chain found =>
      rw [hb] at hc a hview hlast hlaid
      cases found with
      | none => exact .done hlaid r
      | some y =>
        obtain ⟨hd, hs⟩ := h.mem_recent.mp (List.mem_of_getLast? hlast.symm)
        obtain ⟨cut, hcut, -, hcurrent⟩ := beginDelete_live hc ((a.deleted y).trans hd) ((a.isSentinel y).trans hs)
        dsimp only
        rw [hcut]
        refine .pause hlaid (way_of_current hcurrent ?_) hcurrent
        rw [hview]
        exact hn (Nat.lt_of_not_le hgt)

theorem heads_settle (h : Coherent c.chain c.index.slots stages) (hl : Laid c.chain order)
    (hn : 2 * c.view.backlog + 2 < n) : Heads order n (c.settle k x r) := by
  unfold settle
  split
  · exact .pause hl hn trivial
  · exact heads_evict h hl fun _ => by omega

/-- The node discarded is deleted, so its link is given back. -/
theorem heads_release {next : Sequel κ ν} (h : Coherent c.chain c.index.slots (.discard x next :: stages))
    (hl : Laid c.chain order) (hd : c.chain.isDeleted x = true) (hn : 2 * c.view.backlog + 2 < n) :
    Heads order n (c.discard x next) := by
  have hm : x ∈ c.index.slots.map Prod.snd ++ (Stage.discard x next :: stages).flatMap Stage.held :=
    List.mem_append_right _ List.mem_cons_self
  obtain ⟨a, hrecent⟩ := h.alike_release hm
  have hlaid : Laid (c.release x).chain order := h.laid_release hl hm
  have hview : (c.release x).view = c.view := view_alike a hrecent
  rw [discard, if_pos hd]
  cases next with
  | settle k fresh r => exact heads_settle (h.discard hd) hlaid (by rwa [hview])
  | finish r => exact .done hlaid r

theorem heads_discard {next : Sequel κ ν} (h : Coherent c.chain c.index.slots (.discard x next :: stages))
    (hl : Laid c.chain order) (hn : 2 * c.view.backlog + 3 < n) : Heads order n (c.discard x next) := by
  cases hd : c.chain.isDeleted x with
  | true => exact heads_release h hl hd (by omega)
  | false =>
    have hs : c.chain.isSentinel x = false := (h.knows _ List.mem_cons_self).1
    obtain ⟨cut, hcut, -, hcurrent⟩ := beginDelete_live h hd hs
    rw [discard, hd, hcut]
    exact .pause hl (way_of_current hcurrent hn) hcurrent

theorem heads_push {g : Errand κ ν} (h : Coherent c.chain c.index.slots stages) (hl : Laid c.chain order)
    (hg : g.Knows c.chain) (hn : 2 * c.view.backlog + 9 < n) : Heads order n (c.push g) := by
  obtain ⟨ch, hb, -, a, hr⟩ := h.beginFront hg
  have hview : view { c with chain := ch } = c.view := view_alike a hr
  rw [push, hb]
  refine .pause (h.laid_beginFront hl hb) ?_ trivial
  rwa [Stage.wayLeft, hview]

theorem heads_lose (hl : Laid c.chain order) (hn : 2 * c.view.backlog + 11 < n) : Heads order n (c.lose k e x) := by
  unfold lose
  split
  · exact .done hl _
  · exact .pause hl hn trivial

/-- A node to be promoted is deleted, or its deletion wins if nothing comes between. -/
theorem heads_withdraw (h : Coherent c.chain c.index.slots stages) (hl : Laid c.chain order)
    (hk : Carries c.chain x k e) (hn : 2 * c.view.backlog + 10 < n) : Heads order n (c.withdraw k e x) := by
  cases hd : c.chain.isDeleted x with
  | true =>
    cases hb : c.chain.beginDelete x with
    | none =>
      rw [withdraw, hb, lose, if_pos hd]
      exact .done hl _
    | some cut =>
      obtain ⟨-, -, hnext⟩ := Chain.beginDelete_some hb
      rw [Chain.isDeleted_of_next hnext] at hd
      cases hd
  | false =>
    obtain ⟨cut, hcut, -, hcurrent⟩ := beginDelete_live h hd hk.bears.not_isSentinel
    rw [withdraw, hcut]
    exact .pause hl (way_of_current hcurrent hn) hcurrent

/-! ## Stages -/

theorem heads_displace {cut : Cut} (h : Coherent c.chain c.index.slots (.displace e cut :: stages))
    (hl : Laid c.chain order) : Heads order (2 * c.view.backlog + 10) (resume (.displace e cut) c) := by
  have hs : c.chain.isSentinel cut.target = false := Bears.not_isSentinel (h.knows _ List.mem_cons_self)
  have hlaid := h.laid_finishDelete hl hs
  rw [resume]
  by_cases hcurrent : Current c.chain cut
  · obtain ⟨ch, hfin, hc, -, hview⟩ :=
      finishDelete_current h hs (not_fresh_of_sought h List.mem_cons_self) hcurrent
    have hle := c.view.backlog_bury_le cut.target
    rw [hfin] at hlaid ⊢
    refine heads_push (c := { c with chain := ch }) (hc.tail rfl) hlaid trivial ?_
    rw [hview]
    omega
  · rw [finishDelete_of_not_current hcurrent]
    exact heads_push (c := c) (h.tail rfl) hl trivial (Nat.lt_succ_self _)

theorem heads_withdrawing {cut : Cut} (h : Coherent c.chain c.index.slots (.withdraw k e cut :: stages))
    (hl : Laid c.chain order) :
    Heads order (Stage.wayLeft c (.withdraw k e cut)) (resume (.withdraw k e cut) c) := by
  have hk : Carries c.chain cut.target k e := h.knows _ List.mem_cons_self
  have hs := hk.bears.not_isSentinel
  have hlaid := h.laid_finishDelete hl hs
  rw [resume, Stage.wayLeft]
  by_cases hcurrent : Current c.chain cut
  · obtain ⟨ch, hfin, hc, b, hview⟩ :=
      finishDelete_current h hs (not_fresh_of_sought h List.mem_cons_self) hcurrent
    have hdead : ch.isDeleted cut.target = true := by rw [b.deleted, if_pos rfl]
    have hle := c.view.backlog_bury_le cut.target
    rw [hfin] at hlaid ⊢
    rw [if_pos hcurrent]
    refine heads_push (c := { c with chain := ch }) (hc.tail rfl) hlaid ⟨hk.ages b.ages, hdead⟩ ?_
    rw [hview]
    omega
  · rw [finishDelete_of_not_current hcurrent, if_neg hcurrent]
    exact heads_lose (c := c) hl (Nat.lt_succ_self _)

theorem heads_front {g : Errand κ ν} (h : Coherent c.chain c.index.slots (.front g :: stages)) (hl : Laid c.chain order) :
    Heads (insertBehind Chain.header c.chain.size order) (2 * c.view.backlog + 9) (resume (.front g) c) := by
  obtain ⟨-, -, gr, hr⟩ := h.finishFront
  have hview := view_grows gr hr
  have hle := c.view.backlog_grow_le g.entry
  rw [resume_front h]
  refine .pause (h.laid_finishFront hl rfl) ?_ (by cases g <;> trivial)
  cases g with
  | store e =>
    rw [Errand.landed, Stage.wayLeft, hview]
    omega
  | promote k e stale =>
    rw [Errand.landed, Stage.wayLeft, hview]
    omega

theorem heads_discarding {cut : Cut} {next : Sequel κ ν}
    (h : Coherent c.chain c.index.slots (.discarding cut next :: stages)) (hl : Laid c.chain order) :
    Heads order (Stage.wayLeft c (.discarding cut next)) (resume (.discarding cut next) c) := by
  have hs : c.chain.isSentinel cut.target = false := (h.knows _ List.mem_cons_self).1
  have hlaid := h.laid_finishDelete hl hs
  rw [resume, Stage.wayLeft]
  by_cases hcurrent : Current c.chain cut
  · obtain ⟨ch, hfin, hc, b, hview⟩ := finishDelete_current h hs h.not_fresh_of_discarding hcurrent
    have hdead : ch.isDeleted cut.target = true := by rw [b.deleted, if_pos rfl]
    have hle := c.view.backlog_bury_le cut.target
    rw [hfin] at hlaid ⊢
    rw [if_pos hcurrent]
    refine heads_release (c := { c with chain := ch }) hc.discarded hlaid hdead ?_
    rw [hview]
    omega
  · rw [finishDelete_of_not_current hcurrent, if_neg hcurrent]
    exact heads_discard (c := c) h.discarded hl (Nat.lt_succ_self _)

/-- An evicted node is taken out of the index, or it was not there. -/
theorem heads_remove (notes : List Notice) (h : Coherent c.chain c.index.slots stages) (hl : Laid c.chain order)
    (hd : c.chain.isDeleted x = true)
    (hn : 2 * c.view.backlog + (if c.index.find? k = some x then 0 else 2) ≤ n) :
    Heads order n (match c.index.removeIf k x with
      | (index, true) => evict { (Cache.release { c with index := index } x) with notices := notes } r
      | (_, false) => c.evict r) := by
  by_cases hf : c.index.find? k = some x
  · have hm : x ∈ c.index.slots.map Prod.snd ++ stages.flatMap Stage.held :=
      List.mem_append_left _ (Index.mem_nodes_of_lookup hf)
    obtain ⟨a, hrecent⟩ := h.alike_release hm
    let c' : Cache κ ν := { c with
      chain := c.chain.release x
      index := ⟨Index.erase k c.index.slots⟩
      notices := notes }
    have hview : c'.view = c.view.erase k := view_alike (c := { c with index := ⟨Index.erase k c.index.slots⟩ }) a hrecent
    have hless := (View.backlog_erase (v := c.view) h.nodup_recent hf (not_mem_recent h hd)).2
    rw [← hview] at hless
    rw [if_pos hf] at hn
    rw [Index.removeIf, if_pos hf]
    refine heads_evict (c := c') (h.remove hf hd) (h.laid_release hl hm) fun hgt => ?_
    have hlt := hless hgt
    omega
  · rw [Index.removeIf, if_neg hf]
    rw [if_neg hf] at hn
    exact heads_evict h hl fun _ => by omega

variable [EquivBEq κ]

/-- A victim was in the index, from which it has then to be taken, or it was one of the live nodes that were not. -/
theorem heads_evicting {cut : Cut} (h : Coherent c.chain c.index.slots (.evicting cut r :: stages))
    (hl : Laid c.chain order) : Heads order (Stage.wayLeft c (.evicting cut r)) (resume (.evicting cut r) c) := by
  have hs : c.chain.isSentinel cut.target = false := h.knows _ List.mem_cons_self
  have hlaid := h.laid_finishDelete hl hs
  rw [Stage.wayLeft]
  by_cases hcurrent : Current c.chain cut
  · obtain ⟨_, hsound⟩ := h.sound
    obtain ⟨hw, hsound', b⟩ := hsound.finishDelete_won hs hcurrent
    obtain ⟨e, he, -, hstep⟩ := resume_evicting h hw
    have hlt : cut.target < (c.chain.finishDelete cut).1.size := by
      rw [b.size]
      exact Chain.lt_size_of_not_isSentinel hs
    have hview : view { c with chain := (c.chain.finishDelete cut).1.markEvicted cut.target } =
        (c.view.bury cut.target).mark cut.target := by
      rw [← view_buries hsound hsound' b]
      exact view_mark (c := { c with chain := (c.chain.finishDelete cut).1 }) hsound' hlt
    have hrecent : cut.target ∈ c.view.recent := h.mem_recent.mpr ⟨Chain.isDeleted_of_next hcurrent, hs⟩
    have hbacklog : ((c.view.bury cut.target).mark cut.target).backlog = (c.view.bury cut.target).backlog := rfl
    have hle := c.view.backlog_bury_le cut.target
    rw [hstep, if_pos hcurrent]
    refine .pause ?_ ?_ trivial
    · have hwon := ((h.relay hl).finishDelete_won hs hcurrent).2.1
      exact (hwon.markEvicted cut.target).laid
    · rw [Stage.wayLeft, hview, hbacklog]
      show _ + (if c.index.find? e.key = some cut.target then 0 else 2) < _
      split
      · omega
      · next hf =>
        have hlt := View.backlog_bury_lt (v := c.view) hrecent fun hm =>
          hf (h.filed.lookup_of_bears hm ⟨e, he, BEq.rfl⟩)
        omega
  · rw [resume, finishDelete_of_not_current hcurrent, if_neg hcurrent]
    exact heads_evict (c := c) (h.tail rfl) hl fun _ => Nat.lt_succ_self _

theorem heads_publish (h : Coherent c.chain c.index.slots (.publish e x :: stages)) (hl : Laid c.chain order) :
    Heads order (2 * c.view.backlog + 6) (resume (.publish e x) c) := by
  have hk : c.chain.carried? x = some e := h.knows _ List.mem_cons_self
  let c' : Cache κ ν := { c with index := ⟨Index.assign e.key x c.index.slots⟩ }
  have hle : c'.view.backlog ≤ c.view.backlog + 1 :=
    View.backlog_assign_le (v := c.view) (k := e.key) (x := x) h.nodup_recent
  rw [resume, Index.publish]
  cases hf : c.index.find? e.key with
  | none => exact heads_settle (c := c') (h.publish_new hf) hl (by omega)
  | some y =>
    exact heads_discard (c := c') (h.publish_over (.settle e.key x .stored) hf ⟨e, hk, BEq.rfl⟩) hl (by omega)

theorem heads_replace {stale : NodeId} (h : Coherent c.chain c.index.slots (.replace k e stale x :: stages))
    (hl : Laid c.chain order) : Heads order (2 * c.view.backlog + 6) (resume (.replace k e stale x) c) := by
  obtain ⟨⟨hstale, hdead⟩, hx⟩ := h.knows _ List.mem_cons_self
  rw [resume, Index.replace]
  by_cases hf : c.index.find? k = some stale
  · let c₁ : Cache κ ν := { c with index := ⟨Index.assign k x c.index.slots⟩ }
    have hm : stale ∈ c.index.slots.map Prod.snd ++ (Stage.replace k e stale x :: stages).flatMap Stage.held :=
      List.mem_append_left _ (Index.mem_nodes_of_lookup hf)
    obtain ⟨a, hrecent⟩ := h.alike_release hm
    have hview : (c₁.release stale).view = c.view.assign k x := view_alike (c := c₁) a hrecent
    have hle := View.backlog_assign_dead (v := c.view) (x := x) h.nodup_recent hf (not_mem_recent h hdead)
    rw [if_pos hf]
    refine heads_settle (c := c₁.release stale) (h.replace hf) (h.laid_release hl hm) ?_
    rw [hview]
    omega
  · rw [if_neg hf]
    exact heads_discard (h.become rfl rfl rfl rfl ⟨Bears.not_isSentinel ⟨e, hx, hstale.2⟩, trivial⟩) hl (by omega)

/-- The order in which the nodes stand when a call went on that was at the stage `st`. -/
def Stage.lineUp (c : Cache κ ν) (order : List NodeId) : Stage κ ν → List NodeId
  | .front _ => insertBehind Chain.header c.chain.size order
  | _ => order

/-- **Every stage makes headway**, and moves no node. -/
theorem heads_resume {st : Stage κ ν} (h : Coherent c.chain c.index.slots (st :: stages)) (hl : Laid c.chain order) :
    Heads (st.lineUp c order) (st.wayLeft c) (resume st c) := by
  have hknows := h.knows _ List.mem_cons_self
  cases st with
  | find e =>
    have hpush : Heads order (2 * c.view.backlog + 11) (c.push (.store e)) :=
      heads_push (h.tail rfl) hl trivial (by omega)
    show Heads order (2 * c.view.backlog + 11) (resume (.find e) c)
    rw [resume]
    cases hb : (c.index.find? e.key).bind c.chain.beginDelete with
    | none => exact hpush
    | some cut =>
      obtain ⟨x, -, hcut⟩ := Option.bind_eq_some_iff.mp hb
      obtain ⟨ht, -, hnext⟩ := Chain.beginDelete_some hcut
      refine .pause hl (Nat.lt_succ_self _) ?_
      rw [Stage.Ready, Current, ht, hnext]
  | displace e cut => exact heads_displace h hl
  | fetch k =>
    show Heads order (2 * c.view.backlog + 11) (resume (.fetch k) c)
    rw [resume]
    cases hf : c.index.find? k with
    | none => exact .done hl _
    | some x =>
      obtain ⟨e, he, hk⟩ := h.filed.bears_of_lookup hf
      dsimp only
      rw [he]
      exact heads_withdraw (h.tail rfl) hl ⟨he, hk⟩ (Nat.lt_succ_self _)
  | withdraw k e cut => exact heads_withdrawing h hl
  | recheck k e x =>
    show Heads order (2 * c.view.backlog + 11) (resume (.recheck k e x) c)
    rw [resume]
    split
    · exact heads_withdraw (h.tail rfl) hl hknows (Nat.lt_succ_self _)
    · exact .done hl _
  | push g => exact heads_push (h.tail rfl) hl hknows (Nat.lt_succ_self _)
  | front g => exact heads_front h hl
  | publish e fresh => exact heads_publish h hl
  | replace k e stale fresh => exact heads_replace h hl
  | discard x next => exact heads_discard h hl (Nat.lt_succ_self _)
  | discarding cut next => exact heads_discarding h hl
  | settle k x r =>
    refine heads_remove c.notices (h.tail rfl) hl (h.custody.marked x hknows.2) ?_
    rw [Stage.wayLeft]
    split <;> omega
  | evict r => exact heads_evict (h.tail rfl) hl fun _ => Nat.lt_succ_self _
  | evicting cut r => exact heads_evicting h hl
  | purge k x r =>
    exact heads_remove (c.notices ++ [Notice.evicted c.capacity]) (h.tail rfl) hl (h.custody.marked x hknows.2)
      (Nat.le_refl _)
  | probe k => exact .done hl _

/-! ## How much there ever is to do -/

omit [EquivBEq κ] in
/-- At most two evictions are called for by each call in progress. -/
theorem Kept.backlog_le {capacity : Nat} {calls : List (Cache κ ν × Stage κ ν)} (h : Kept capacity c calls) :
    c.view.backlog ≤ 2 * calls.length := by
  have hsurplus : ∀ calls : List (Cache κ ν × Stage κ ν), surplus calls ≤ calls.length := by
    intro calls
    induction calls with
    | nil => exact Nat.le_refl _
    | cons call calls ih =>
      have hst := Nat.le_trans call.2.surplus_le (Bool.toNat_le _)
      rw [surplus, List.length_cons]
      omega
  have hsize := h.size_le
  have hsum := hsurplus calls
  have hcap := h.capacity_eq
  have hrest : c.view.unindexed.length ≤ (calls.map Prod.snd).length := Cache.unindexed_le h.coherent
  rw [List.length_map] at hrest
  show (c.size - c.capacity) + c.view.unindexed.length ≤ _
  omega

end Cache
end LeastRecent
