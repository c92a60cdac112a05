import LeastRecent.Proofs.Cache.Agreement
import LeastRecent.Proofs.Chain.Neat
import LeastRecent.Proofs.Interleave.Plain

/-!
# A call that nothing interrupts

Where no other call is in progress, a deletion wins, a fresh node is not evicted before it comes into the index, and an
eviction finds the least recent entry. So a call takes its nodes out of the live nodes of the chain, puts its fresh node
in front of them, and lets the last of them go if they are too many (`Pushed`, `finishes_set`, `finishes_get`). It repairs
nothing on the way if the chain is neat, and leaves it neat.
-/

namespace LeastRecent.Cache

open Chain (Ages Alike Buries Grows Neat Sound)
open Interleave (Finishes)

variable {κ ν : Type} [BEq κ] [EquivBEq κ] {c : Cache κ ν} {x : NodeId} {k : κ} {e : Entry Nat κ ν} {r : Reply κ ν}

/-! ## Evictions -/

/-- Of the live entries of the chain `ch` those in `gone` were evicted, and `xs` are left. -/
structure Culls {α : Type} (ch ch' : Chain α) (xs gone : List NodeId) : Prop where
  recent : ch'.recent = xs
  evicted : ∀ y ∈ gone, ch'.isEvicted y = true
  size : ch'.size = ch.size
  ages : Ages ch ch'
  neat : Neat ch → Neat ch'

/-- The least recent entry is found, deleted, marked and taken out of the index. -/
theorem evict_last (h : Quiet c) {xs : List NodeId} {y : NodeId} (hxs : c.chain.recent = xs ++ [y]) :
    ∃ e cut ch₁ ch₂, c.chain.back Chain.trailer = (ch₁, some y) ∧ ch₁.beginDelete y = some cut ∧ cut.target = y ∧
      ch₁.finishDelete cut = (ch₂, true) ∧ (ch₂.markEvicted y).carried? y = some e ∧
      c.index.find? e.key = some y ∧ Culls c.chain ((ch₂.markEvicted y).release y) xs [y] := by
  have hy : y ∈ c.chain.recent := by rw [hxs]; simp
  have hm := h.matches
  obtain ⟨e, he, hf⟩ := hm.found y hy
  obtain ⟨hd, hs⟩ := h.coherent.mem_recent.mp hy
  obtain ⟨order, hsound⟩ := h.coherent.sound
  obtain ⟨hsound₁, a, -⟩ := hsound.back hsound.laid.trailer_mem
  have hback : (c.chain.back Chain.trailer).2 = some y := by
    rw [hsound.recent_back, hxs, List.getLast?_concat]
  obtain ⟨cut, ch₂, hb, ht, hfin, hsound₂, b⟩ :=
    hsound₁.delete (x := y) (by rw [a.deleted, hd]) (by rw [a.isSentinel, hs])
  have hlt : y < ch₂.size := by
    rw [b.size, a.size]
    exact Chain.lt_size_of_not_isSentinel hs
  have hsound₃ := hsound₂.markEvicted y
  have hheld : (c.index.slots.map Prod.snd ++ List.flatMap Stage.held []).Perm
      (y :: ((Index.erase e.key c.index.slots).map Prod.snd ++ List.flatMap Stage.held ([] : List (Stage κ ν)))) :=
    (Index.nodes_erase hf).symm.append_right _
  obtain ⟨hsound₄, a₄⟩ := (hsound₃.perm hheld).release
  refine ⟨e, cut, (c.chain.back Chain.trailer).1, ch₂, by rw [← hback], hb, ht, hfin, ?_, hf, ?_, fun z hz => ?_, ?_, ?_,
    fun hn => ?_⟩
  · rw [Chain.carried_markEvicted hlt, b.carried, a.carried, he]
  · rw [hsound₃.recent_alike hsound₄ a₄, hsound₂.recent_markEvicted hlt, hsound₁.recent_buries hsound₂ b,
      hsound.recent_alike hsound₁ a, hxs, List.filter_append]
    have hnd := h.coherent.nodup_recent
    rw [hxs] at hnd
    have hne : xs.filter (fun z => !decide (z = y)) = xs := by
      rw [List.filter_eq_self]
      intro z hz
      have hzy : z ≠ y := (List.nodup_append.mp hnd).2.2 z hz y List.mem_cons_self
      simp [hzy]
    rw [hne]
    simp
  · rw [List.mem_singleton.mp hz, a₄.evicted, Chain.isEvicted_markEvicted hlt, if_pos rfl]
  · rw [a₄.size, Chain.markEvicted, Chain.size_modify, b.size, a.size]
  · exact a.ages.trans (b.ages.trans ((Chain.ages_markEvicted hlt).trans a₄.ages))
  · -- on a neat chain the search back from the trailer changes nothing
    rw [← hsound.back_of_neat hn] at hn
    obtain rfl : _ = ch₂ := congrArg Prod.fst hfin
    exact hsound₄.neat_loosens ((hsound₁.neat_finishDelete hn hb hsound₂).markEvicted y) (Chain.loosens_release _ y)

/-- At most one entry is too many: then the least recent one goes. -/
theorem finishes_evict (h : Quiet c) (hsize : c.size ≤ c.capacity + 1) (r : Reply κ ν) :
    ∃ n c', n ≤ 2 ∧ Finishes resume n (c.evict r) c' r ∧
      Culls c.chain c'.chain (c.chain.recent.take c.capacity) (c.chain.recent.drop c.capacity) := by
  have hlen : c.chain.recent.length = c.size := h.matches.size
  by_cases hle : c.size ≤ c.capacity
  · have he : c.evict r = (c, .done r) := by rw [evict, if_pos hle]
    refine ⟨0, c, Nat.zero_le _, ?_, ?_⟩
    · rw [he]
      exact .done c r
    · rw [List.take_of_length_le (by omega), List.drop_of_length_le (by omega)]
      exact ⟨rfl, fun y hy => (by cases hy), rfl, Ages.refl _, id⟩
  · obtain ⟨xs, y, hxs⟩ : ∃ xs y, c.chain.recent = xs ++ [y] := by
      have hne : c.chain.recent ≠ [] := fun hnil => by rw [hnil, List.length_nil] at hlen; omega
      exact ⟨_, _, (List.dropLast_concat_getLast hne).symm⟩
    obtain ⟨e, cut, ch₁, ch₂, hback, hb, ht, hfin, hcar, hf, hculls⟩ := evict_last h hxs
    let c₁ : Cache κ ν := { c with chain := ch₁ }
    let c₂ : Cache κ ν := { c with chain := ch₂.markEvicted y }
    let c₃ : Cache κ ν :=
      (release { c₂ with index := ⟨Index.erase e.key c.index.slots⟩ } y).note (.evicted c.capacity)
    have h₁ : c.evict r = (c₁, .pause (.evicting cut r)) := by
      rw [evict, if_neg hle, hback]
      dsimp only
      rw [hb]
    have h₂ : resume (.evicting cut r) c₁ = (c₂, .pause (.purge e.key y r)) := by
      rw [resume]
      dsimp only [c₁]
      rw [hfin, ht]
      dsimp only
      rw [hcar]
    have h₃ : resume (.purge e.key y r) c₂ = (c₃, .done r) := by
      have hsize₃ : c₃.size ≤ c₃.capacity := by
        have hlen₃ : c₃.size + 1 = c.size := Index.length_erase hf
        show c₃.size ≤ c.capacity
        omega
      rw [resume, Index.removeIf, if_pos hf]
      show c₃.evict r = _
      rw [evict, if_pos hsize₃]
    refine ⟨2, c₃, Nat.le_refl _, ?_, ?_⟩
    · rw [h₁]
      refine .pause ?_
      rw [h₂]
      refine .pause ?_
      rw [h₃]
      exact .done c₃ r
    · rw [hxs, List.length_append, List.length_singleton] at hlen
      have hcapacity : c.capacity = xs.length := by omega
      rw [hxs, hcapacity, List.take_left, List.drop_left]
      exact hculls

/-! ## Deletions and insertions -/

omit [EquivBEq κ] in
/-- A node of the index is deleted. -/
theorem delete_indexed {ch : Chain (Entry Nat κ ν)} {slots : List (κ × NodeId)}
    (h : Coherent ch slots ([] : List (Stage κ ν))) (hd : ch.isDeleted x = false) (hs : ch.isSentinel x = false) :
    ∃ cut ch', ch.beginDelete x = some cut ∧ cut.target = x ∧ ch.finishDelete cut = (ch', true) ∧
      Coherent ch' slots ([] : List (Stage κ ν)) ∧ Buries ch ch' x ∧
      ch'.recent = (ch.recent.filter fun y => !decide (y = x)) ∧ (Neat ch → Neat ch') := by
  obtain ⟨order, hsound⟩ := h.sound
  obtain ⟨cut, ch', hb, ht, hfin, hsound', b⟩ := hsound.delete hd hs
  refine ⟨cut, ch', hb, ht, hfin, ?_, b, hsound.recent_buries hsound' b, fun hn => ?_⟩
  · have hsent : ch.isSentinel cut.target = false := by
      rw [ht]
      exact hs
    rcases h.finishDelete hsent (fun hm => by cases hm) with ⟨-, hc, -⟩ | hl
    · rw [hfin] at hc
      exact hc
    · rw [hl] at hfin
      cases hfin
  · obtain rfl : _ = ch' := congrArg Prod.fst hfin
    exact hsound.neat_finishDelete hn hb hsound'

omit [EquivBEq κ] in
/-- A fresh node is put in front. -/
theorem push_alone {g : Errand κ ν} (h : Coherent c.chain c.index.slots []) (hg : g.Knows c.chain) :
    ∃ ch₁ ch₂, c.push g = ({ c with chain := ch₁ }, .pause (.front g)) ∧
      resume (.front g) { c with chain := ch₁ } = ({ c with chain := ch₂ }, .pause (g.landed c.chain.size)) ∧
      Coherent ch₂ c.index.slots [g.landed c.chain.size] ∧ Grows c.chain ch₂ g.entry ∧
      ch₂.recent = c.chain.size :: c.chain.recent ∧ (Neat c.chain → Neat ch₂) := by
  obtain ⟨ch₁, hb, hc₁, a, hrecent₁⟩ := h.beginFront hg
  obtain ⟨-, hc₂, gr, hrecent₂⟩ := hc₁.finishFront
  obtain ⟨order, hsound₂⟩ := hc₂.sound
  have hfront := resume_front (c := { c with chain := ch₁ }) hc₁
  rw [a.size] at hc₂ hrecent₂
  rw [hrecent₁] at hrecent₂
  refine ⟨ch₁, (ch₁.finishInsert Chain.header g.entry).1, by rw [push, hb], ?_, hc₂, a.grows gr, hrecent₂, fun hn =>
    hsound₂.neat_finishInsert (hn.acquire hb)⟩
  rw [hfront]
  show (_, Interleave.Outcome.pause (g.landed ch₁.size)) = _
  rw [a.size]

/-! ## The index -/

/-- A fresh node of the cache `c` came into the index of `c'`, and nothing is left to be put in order. -/
structure Landed (c c' : Cache κ ν) : Prop where
  quiet : Quiet c'
  alike : Alike c.chain c'.chain
  recent : c'.chain.recent = c.chain.recent
  capacity : c'.capacity = c.capacity
  size : c'.size ≤ c.size + 1
  neat : Neat c.chain → Neat c'.chain

omit [BEq κ] [EquivBEq κ] in
theorem settle_unmarked (hmark : c.chain.isEvicted x = false) : c.settle k x r = c.evict r := by
  rw [settle, hmark]
  rfl

/-- A fresh node is published. The node that it displaces, if there is one, was deleted before, and no other was. -/
theorem publish_alone (h : Coherent c.chain c.index.slots [.publish e x]) (hlive : c.chain.isDeleted x = false)
    (hmark : c.chain.isEvicted x = false)
    (hdead : ∀ y ∈ c.index.nodes, c.chain.isDeleted y = true ↔ c.index.find? e.key = some y) :
    ∃ c', resume (.publish e x) c = c'.evict .stored ∧ Landed c c' := by
  let c₁ : Cache κ ν := { c with index := ⟨Index.assign e.key x c.index.slots⟩ }
  have hfresh : x ∉ c.index.nodes := (h.not_mem List.mem_cons_self).1
  cases hf : c.index.find? e.key with
  | none =>
    refine ⟨c₁, ?_, ⟨h.publish_new hf, ?_⟩, Alike.refl _, rfl, rfl, ?_, id⟩
    · rw [resume, Index.publish, hf]
      exact settle_unmarked (c := c₁) hmark
    · rintro y ⟨hm, hd⟩
      rcases List.mem_cons.mp ((Index.nodes_assign_new hf).mem_iff.mp hm) with rfl | hm
      · exact absurd hd (by rw [hlive]; decide)
      · have := (hdead y hm).mp hd
        rw [hf] at this
        cases this
    · show (Index.assign e.key x c.index.slots).length ≤ _
      rw [Index.assign_new hf, List.length_append]
      exact Nat.le_refl _
  | some y =>
    have hy : c.chain.isDeleted y = true := (hdead y (Index.mem_nodes_of_lookup hf)).mpr hf
    have hc := h.publish_over (.settle e.key x .stored) hf ⟨e, h.knows _ List.mem_cons_self, BEq.rfl⟩
    obtain ⟨a, hrecent⟩ := hc.alike_release (List.mem_append_right _ List.mem_cons_self)
    obtain ⟨order, hsound⟩ := (hc.discard hy).sound
    refine ⟨c₁.release y, ?_, ⟨hc.discard hy, ?_⟩, a, hrecent, rfl, ?_, fun hn =>
      hsound.neat_loosens hn (Chain.loosens_release _ y)⟩
    · rw [resume, Index.publish, hf]
      show c₁.discard y (.settle e.key x .stored) = _
      rw [discard, if_pos hy, proceed]
      exact settle_unmarked (c := c₁.release y) ((a.evicted x).trans hmark)
    · rintro z ⟨hm, hd⟩
      have hd' : c.chain.isDeleted z = true := (a.deleted z).symm.trans hd
      rcases Index.mem_nodes_assign (List.nodup_cons.mpr ⟨hfresh, h.nodup⟩) hf hm with rfl | ⟨hm, hne⟩
      · exact absurd hd' (by rw [hlive]; decide)
      · have := (hdead z hm).mp hd'
        rw [hf] at this
        exact hne (Option.some.inj this).symm
    · have hlen : (c₁.release y).size = c.size := Index.length_assign hf
      rw [hlen]
      exact Nat.le_succ _

/-- A fresh node takes the place of the one that was deleted for it. -/
theorem replace_alone {y : NodeId} (h : Coherent c.chain c.index.slots [.replace k e y x])
    (hlive : c.chain.isDeleted x = false) (hmark : c.chain.isEvicted x = false) (hf : c.index.find? k = some y)
    (hdead : ∀ z ∈ c.index.nodes, c.chain.isDeleted z = true → z = y) :
    ∃ c', resume (.replace k e y x) c = c'.evict (.found (some e)) ∧ Landed c c' := by
  let c₁ : Cache κ ν := { c with index := ⟨Index.assign k x c.index.slots⟩ }
  have hfresh : x ∉ c.index.nodes := (h.not_mem List.mem_cons_self).1
  obtain ⟨a, hrecent⟩ := h.alike_release (List.mem_append_left _ (Index.mem_nodes_of_lookup hf))
  obtain ⟨order, hsound⟩ := (h.replace hf).sound
  refine ⟨c₁.release y, ?_, ⟨h.replace hf, ?_⟩, a, hrecent, rfl, ?_, fun hn =>
    hsound.neat_loosens hn (Chain.loosens_release _ y)⟩
  · rw [resume, Index.replace, if_pos hf]
    exact settle_unmarked (c := c₁.release y) ((a.evicted x).trans hmark)
  · rintro z ⟨hm, hd⟩
    have hd' : c.chain.isDeleted z = true := (a.deleted z).symm.trans hd
    rcases Index.mem_nodes_assign (List.nodup_cons.mpr ⟨hfresh, h.nodup⟩) hf hm with rfl | ⟨hm, hne⟩
    · exact absurd hd' (by rw [hlive]; decide)
    · exact hne (hdead z hm hd')
  · have hlen : (c₁.release y).size = c.size := Index.length_assign hf
    rw [hlen]
    exact Nat.le_succ _

/-! ## Calls -/

/-- A fresh node with the entry `e` was put in front of the nodes `xs`, and those that are too many then were evicted. -/
structure Pushed (c c' : Cache κ ν) (xs : List NodeId) (e : Entry Nat κ ν) : Prop where
  recent : c'.chain.recent = (c.chain.size :: xs).take c.capacity
  evicted : ∀ y ∈ (c.chain.size :: xs).drop c.capacity, c'.chain.isEvicted y = true
  size : c'.chain.size = c.chain.size + 1
  ages : Ages c.chain c'.chain
  neat : Neat c.chain → Neat c'.chain
  carried : c'.chain.carried? c.chain.size = some e

omit [BEq κ] [EquivBEq κ] in
/-- A node was deleted first. -/
theorem Pushed.after {c₁ c' : Cache κ ν} {xs : List NodeId} (h : Pushed c₁ c' xs e)
    (hcapacity : c₁.capacity = c.capacity) (hsize : c₁.chain.size = c.chain.size) (a : Ages c.chain c₁.chain)
    (hn : Neat c.chain → Neat c₁.chain) : Pushed c c' xs e where
  recent := by rw [h.recent, hsize, hcapacity]
  evicted := by rw [← hsize, ← hcapacity]; exact h.evicted
  size := by rw [h.size, hsize]
  ages := a.trans h.ages
  neat := h.neat ∘ hn
  carried := by rw [← hsize]; exact h.carried

/-- A fresh node goes to the front and lands in the index, and the least recent entry goes if there are too many. -/
theorem finishes_push {g : Errand κ ν} (h : Coherent c.chain c.index.slots []) (hg : g.Knows c.chain)
    (hsize : c.size ≤ c.capacity)
    (hland : ∀ ch, Coherent ch c.index.slots [g.landed c.chain.size] → Grows c.chain ch g.entry →
      ∃ c', resume (g.landed c.chain.size) { c with chain := ch } = c'.evict r ∧ Landed { c with chain := ch } c') :
    ∃ n c', n ≤ 4 ∧ Finishes resume n (c.push g) c' r ∧ Pushed c c' c.chain.recent g.entry := by
  obtain ⟨ch₁, ch₂, hpush, hfront, hc, gr, hrecent, hneat⟩ := push_alone h hg
  obtain ⟨c₃, hresume, hl⟩ := hland ch₂ hc gr
  have hcap : c₃.capacity = c.capacity := hl.capacity
  have hsize' : c₃.size ≤ c.size + 1 := hl.size
  obtain ⟨n, c', hn, hfin, hculls⟩ := finishes_evict hl.quiet (by omega) r
  have hrecent₃ : c₃.chain.recent = c.chain.size :: c.chain.recent := hl.recent.trans hrecent
  rw [hrecent₃, hcap] at hculls
  have a := hl.alike.ages.trans hculls.ages
  refine ⟨n + 2, c', by omega, ?_, hculls.recent, hculls.evicted, ?_, gr.ages.trans a, fun hnt =>
    hculls.neat (hl.neat (hneat hnt)), a.carried gr.carried⟩
  · rw [hpush]
    refine .pause ?_
    rw [hfront]
    refine .pause ?_
    rw [hresume]
    exact hfin
  · rw [hculls.size, hl.alike.size]
    exact gr.size

/-- A new entry goes to the front, and the node that was deleted for it leaves the index. -/
theorem finishes_store (h : Coherent c.chain c.index.slots []) (hsize : c.size ≤ c.capacity)
    (hdead : ∀ y ∈ c.index.nodes, c.chain.isDeleted y = true ↔ c.index.find? e.key = some y) :
    ∃ n c', n ≤ 4 ∧ Finishes resume n (c.push (.store e)) c' .stored ∧ Pushed c c' c.chain.recent e := by
  refine finishes_push (g := .store e) h trivial hsize fun ch hc gr => ?_
  refine publish_alone (c := { c with chain := ch }) hc gr.live gr.unmarked fun y hy => ?_
  show ch.isDeleted y = true ↔ _
  rw [gr.deleted y (h.lt_size hy)]
  exact hdead y hy

/-- An entry moves to the front. -/
theorem finishes_promote (h : Coherent c.chain c.index.slots []) (hsize : c.size ≤ c.capacity)
    (hk : Carries c.chain x k e) (hd : c.chain.isDeleted x = true) (hf : c.index.find? k = some x)
    (hdead : ∀ y ∈ c.index.nodes, c.chain.isDeleted y = true → y = x) :
    ∃ n c', n ≤ 4 ∧ Finishes resume n (c.push (.promote k e x)) c' (.found (some e)) ∧
      Pushed c c' c.chain.recent e := by
  refine finishes_push (g := .promote k e x) h ⟨hk, hd⟩ hsize fun ch hc gr => ?_
  refine replace_alone (c := { c with chain := ch }) hc gr.live gr.unmarked hf fun y hy hyd => hdead y hy ?_
  rw [← gr.deleted y (h.lt_size hy)]
  exact hyd

/-- The live nodes but the one that the index has for `k`. -/
def others (c : Cache κ ν) (k : κ) : List NodeId :=
  c.chain.recent.filter fun y => !decide (c.index.find? k = some y)

omit [EquivBEq κ] in
theorem others_eq (hf : c.index.find? k = some x) :
    c.others k = c.chain.recent.filter fun y => !decide (y = x) := by
  apply List.filter_congr
  intro y _
  rw [hf]
  by_cases hy : y = x
  · simp [hy]
  · simp [hy, Ne.symm hy]

omit [EquivBEq κ] in
/-- Without such a node they are all live nodes. -/
theorem others_of_absent (hf : c.index.find? k = none) : c.others k = c.chain.recent := by
  rw [others, List.filter_eq_self]
  intro y _
  rw [hf]
  rfl

/-- The node that the index has is not among the others. -/
theorem length_others_lt (h : Quiet c) (hf : c.index.find? k = some x) : (c.others k).length < c.size := by
  have hx : x ∈ c.chain.recent := (h.matches.nodes x).mp (Index.mem_nodes_of_lookup hf)
  rw [← h.matches.size, others_eq hf, List.length_filter_lt_length_iff_exists]
  exact ⟨x, hx, by simp⟩

/-- A node of the index is deleted, and no other is. -/
theorem delete_found (h : Quiet c) (hf : c.index.find? k = some x) :
    ∃ cut ch, c.chain.beginDelete x = some cut ∧ cut.target = x ∧ c.chain.finishDelete cut = (ch, true) ∧
      Coherent ch c.index.slots ([] : List (Stage κ ν)) ∧ Ages c.chain ch ∧ ch.size = c.chain.size ∧
      ch.recent = c.others k ∧ (Neat c.chain → Neat ch) ∧ ∀ y ∈ c.index.nodes, ch.isDeleted y = true ↔ y = x := by
  have hx : x ∈ c.chain.recent := (h.matches.nodes x).mp (Index.mem_nodes_of_lookup hf)
  obtain ⟨hd, hs⟩ := h.coherent.mem_recent.mp hx
  obtain ⟨cut, ch, hb, ht, hfin, hc, b, hrecent, hn⟩ := delete_indexed h.coherent hd hs
  refine ⟨cut, ch, hb, ht, hfin, hc, b.ages, b.size, by rw [hrecent, others_eq hf], hn, fun y hy => ?_⟩
  rw [b.deleted]
  by_cases hyx : y = x
  · simp [hyx]
  · have hy' := (h.matches.nodes y).mp hy
    simp [hyx, (h.coherent.mem_recent.mp hy').1]

theorem finishes_set (h : Quiet c) (hsize : c.size ≤ c.capacity) (k : κ) (v : ν) :
    ∃ n c', n < 16 ∧ Finishes resume n (start (.set k v) c) c' .stored ∧ Pushed c c' (c.others k) ⟨c.serial, k, v⟩ := by
  let e : Entry Nat κ ν := ⟨c.serial, k, v⟩
  let c₁ : Cache κ ν := { c with serial := c.serial + 1 }
  cases hf : c.index.find? k with
  | none =>
    obtain ⟨n, c', hn, hfin, hp⟩ := finishes_store (c := c₁) (e := e) h.coherent hsize fun y hy => by
      refine ⟨fun hd => absurd ⟨hy, hd⟩ (h.settled y), fun hy' => ?_⟩
      have : c.index.find? k = some y := hy'
      rw [hf] at this
      cases this
    have hfind : resume (.find e) c₁ = c₁.push (.store e) := by
      rw [resume]
      dsimp only [c₁, e]
      rw [hf]
      rfl
    refine ⟨n + 1, c', by omega, .pause ?_, ?_⟩
    · rw [hfind]
      exact hfin
    · rw [others_of_absent hf]
      exact hp.after rfl rfl (Ages.refl _) id
  | some x =>
    obtain ⟨cut, ch, hb, ht, hfin₁, hc, a₁, hsize₁, hrecent₁, hneat, hdead⟩ := delete_found h hf
    obtain ⟨n, c', hn, hfin, hp⟩ := finishes_store (c := { c₁ with chain := ch }) (e := e) hc hsize
      fun y hy => by
        rw [hdead y hy]
        show _ ↔ c.index.find? k = some y
        rw [hf]
        exact ⟨fun he => by rw [he], fun he => (Option.some.inj he).symm⟩
    have hfind : resume (.find e) c₁ = (c₁, .pause (.displace e cut)) := by
      rw [resume]
      dsimp only [c₁, e]
      rw [hf, Option.bind_some, hb]
    have hdisplace : resume (.displace e cut) c₁ = push { c₁ with chain := ch } (.store e) := by
      show push { c₁ with chain := (c.chain.finishDelete cut).1 } (.store e) = _
      rw [hfin₁]
    refine ⟨n + 2, c', by omega, .pause ?_, ?_⟩
    · rw [hfind]
      refine .pause ?_
      rw [hdisplace]
      exact hfin
    · rw [← hrecent₁]
      exact hp.after rfl hsize₁ a₁ hneat

omit [EquivBEq κ] in
theorem finishes_get_absent (hf : c.index.find? k = none) :
    Finishes resume 1 (start (.get k) c) c (.found none) := by
  refine .pause ?_
  rw [resume, hf]
  exact .done c _

theorem finishes_get (h : Quiet c) (hsize : c.size ≤ c.capacity) (hf : c.index.find? k = some x) :
    ∃ n c' e, n < 16 ∧ Finishes resume n (start (.get k) c) c' (.found (some e)) ∧ Carries c.chain x k e ∧
      Pushed c c' (c.others k) e ∧ c'.chain.recent = c.chain.size :: c.others k := by
  obtain ⟨e, he, hk⟩ := h.coherent.filed.bears_of_lookup hf
  obtain ⟨cut, ch, hb, ht, hfin₁, hc, a₁, hsize₁, hrecent₁, hneat, hdead⟩ := delete_found h hf
  obtain ⟨n, c', hn, hfin, hp⟩ := finishes_promote (c := { c with chain := ch }) (k := k) (x := x) hc hsize
    ⟨a₁.carried he, hk⟩ ((hdead x (Index.mem_nodes_of_lookup hf)).mpr rfl) hf fun y hy => (hdead y hy).mp
  have hfetch : resume (.fetch k) c = (c, .pause (.withdraw k e cut)) := by
    rw [resume, hf]
    dsimp only
    rw [he]
    dsimp only
    rw [withdraw, hb]
  have hwithdraw : resume (.withdraw k e cut) c = push { c with chain := ch } (.promote k e x) := by
    rw [resume, hfin₁, ht]
  replace hp : Pushed c c' (c.others k) e := by
    rw [← hrecent₁]
    exact hp.after rfl hsize₁ a₁ hneat
  -- one node made room for the other, so none is too many
  have hroom : (c.chain.size :: c.others k).length ≤ c.capacity := by
    have := length_others_lt h hf
    rw [List.length_cons]
    omega
  refine ⟨n + 2, c', e, by omega, .pause ?_, ⟨he, hk⟩, hp, hp.recent.trans (List.take_of_length_le hroom)⟩
  rw [hfetch]
  refine .pause ?_
  rw [hwithdraw]
  exact hfin

end LeastRecent.Cache
