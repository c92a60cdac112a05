import LeastRecent.Proofs.Cache.Stages
import LeastRecent.Proofs.Chain.Recent

/-!
# Chain and index fit together

A cache is coherent (`Coherent`) if the index and the suspended calls hold all links of owners, if no live node is
without an owner, and if all that the calls are sure of is true. Each single thing that a call does keeps a cache
coherent, whoever else is suspended:

* `Coherent.alike`, `Coherent.alike_release`, `Coherent.finishDelete`, `Coherent.finishEvict`, `Coherent.beginFront`,
  `Coherent.finishFront` for what it does to the chain;
* `Coherent.publish_new`, `Coherent.publish_over`, `Coherent.replace`, `Coherent.remove` for what it does to the index;
* `Coherent.tail`, `Coherent.cons`, `Coherent.become`, `Coherent.discarded` for the stages that it comes from and goes to.
-/

namespace LeastRecent.Cache

open Chain (Ages Alike Buries Grows Sound Cut)

variable {κ ν : Type} [BEq κ] {ch ch' : Chain (Entry Nat κ ν)} {slots : List (κ × NodeId)}
  {stages : List (Stage κ ν)} {st st' : Stage κ ν} {x y : NodeId} {k : κ} {e : Entry Nat κ ν}

/-- The chain and the slots of the index fit together, while calls are suspended at `stages`. -/
structure Coherent (ch : Chain (Entry Nat κ ν)) (slots : List (κ × NodeId)) (stages : List (Stage κ ν)) : Prop where
  sound : ∃ order, Sound ch order (slots.map Prod.snd ++ stages.flatMap Stage.held)
  filed : Filed ch slots
  custody : Custody ch (slots.map Prod.snd ++ stages.flatMap Stage.possessed) (stages.flatMap Stage.fresh)
    (stages.flatMap Stage.sought)
  knows : ∀ st ∈ stages, st.Knows ch

namespace Coherent

/-- A new cache. -/
theorem empty (p : Policy) : Coherent (.empty p) ([] : List (κ × NodeId)) ([] : List (Stage κ ν)) := by
  have h : Sound (.empty p : Chain (Entry Nat κ ν)) [Chain.header, Chain.trailer] [] := Sound.empty p
  refine ⟨⟨_, h⟩, ⟨fun s hs => (by cases hs), List.Pairwise.nil⟩, ⟨List.nodup_nil, ?_, ?_,
    fun x hx => (by cases hx), fun x hx => (by cases hx)⟩, fun st hst => (by cases hst)⟩
  · intro x _ hs
    have hx : x ∈ [Chain.header, Chain.trailer] := (h.laid.mem x).mpr (Chain.lt_size_of_not_isSentinel hs)
    rw [(h.laid.isSentinel_iff hx).mpr (by simpa using hx)] at hs
    cases hs
  · intro x hx
    match x with
    | 0 => cases hx
    | 1 => cases hx
    | x + 2 =>
      have hv : (Chain.empty p : Chain (Entry Nat κ ν)).node (x + 2) = .void :=
        Chain.node_of_size_le (Nat.le_add_left 2 x)
      rw [Chain.isEvicted, hv] at hx
      cases hx

/-- No rule of the chain was broken. -/
theorem clean (h : Coherent ch slots stages) : ch.fault = none := by
  obtain ⟨order, hs⟩ := h.sound
  exact hs.clean

theorem nodup (h : Coherent ch slots stages) : (slots.map Prod.snd).Nodup :=
  (List.nodup_append.mp h.custody.apart).1

theorem lt_size (h : Coherent ch slots stages) (hx : x ∈ slots.map Prod.snd) : x < ch.size := by
  obtain ⟨s, hs, rfl⟩ := List.mem_map.mp hx
  exact Chain.lt_size_of_not_isSentinel (h.filed.keyed s hs).not_isSentinel

theorem mem_recent (h : Coherent ch slots stages) :
    x ∈ ch.recent ↔ ch.isDeleted x = false ∧ ch.isSentinel x = false := by
  obtain ⟨order, hs⟩ := h.sound
  exact hs.mem_recent

theorem nodup_recent (h : Coherent ch slots stages) : ch.recent.Nodup := by
  obtain ⟨order, hs⟩ := h.sound
  exact hs.nodup_recent

omit [BEq κ] in
/-- A fresh node belongs to its call. -/
theorem possessed_of_fresh (hx : x ∈ stages.flatMap Stage.fresh) : x ∈ stages.flatMap Stage.possessed := by
  obtain ⟨st, hst, hx⟩ := List.mem_flatMap.mp hx
  exact List.mem_flatMap.mpr ⟨st, hst, List.mem_append_left _ hx⟩

/-- What a call owns is neither in the index nor owned by others. -/
theorem not_mem (h : Coherent ch slots (st :: stages)) (hx : x ∈ st.possessed) :
    x ∉ slots.map Prod.snd ∧ x ∉ stages.flatMap Stage.possessed := by
  obtain ⟨-, h₂, h₃⟩ := List.nodup_append.mp h.custody.apart
  have hx' : x ∈ (st :: stages).flatMap Stage.possessed := List.mem_append_left _ hx
  refine ⟨fun hm => h₃ x hm x hx' rfl, fun hm => ?_⟩
  have h₂' : (st.possessed ++ stages.flatMap Stage.possessed).Nodup := h₂
  exact (List.nodup_append.mp h₂').2.2 x hx x hm rfl

/-- No node of the index is fresh. -/
theorem not_fresh (h : Coherent ch slots stages) (hx : x ∈ slots.map Prod.snd) : x ∉ stages.flatMap Stage.fresh :=
  fun hf => (List.nodup_append.mp h.custody.apart).2.2 x hx x (possessed_of_fresh hf) rfl

/-- A live node that is not in the index belongs to a call. -/
theorem possessed_of_live (h : Coherent ch slots stages) (hd : ch.isDeleted x = false) (hs : ch.isSentinel x = false)
    (hx : x ∉ slots.map Prod.snd) : x ∈ stages.flatMap Stage.possessed := by
  rcases List.mem_append.mp (h.custody.cover x hd hs) with hm | hm
  · exact absurd hm hx
  · exact hm

/-! ## Other stages -/

/-- A call that holds nothing goes its way. -/
theorem tail (h : Coherent ch slots (st :: stages)) (hst : st.held = []) : Coherent ch slots stages := by
  have hp : st.possessed = [] := (List.append_eq_nil_iff.mp hst).2
  have hsound := h.sound
  have hcustody := h.custody
  rw [List.flatMap_cons, hst] at hsound
  rw [List.flatMap_cons, List.flatMap_cons, List.flatMap_cons, hp] at hcustody
  exact ⟨hsound, h.filed, hcustody.relax (fun x hx => List.mem_append_right _ hx) fun x hx =>
    Or.inl (List.mem_append_right _ hx), fun st' hm => h.knows st' (List.mem_cons_of_mem _ hm)⟩

/-- A call comes that holds nothing. -/
theorem cons (h : Coherent ch slots stages) (hst : st.held = []) (hs : ∀ x ∈ st.sought, x ∈ slots.map Prod.snd)
    (hk : st.Knows ch) : Coherent ch slots (st :: stages) := by
  have hp : st.possessed = [] := (List.append_eq_nil_iff.mp hst).2
  have hf : st.fresh = [] := (List.append_eq_nil_iff.mp hp).1
  refine ⟨?_, h.filed, ?_, ?_⟩
  · rw [List.flatMap_cons, hst]
    exact h.sound
  · rw [List.flatMap_cons, List.flatMap_cons, List.flatMap_cons, hp, hf]
    refine h.custody.relax (fun x hx => hx) fun x hx => ?_
    rcases List.mem_append.mp hx with hx | hx
    · exact Or.inr (h.not_fresh (hs x hx))
    · exact Or.inl hx
  · intro st' hm
    rcases List.mem_cons.mp hm with rfl | hm
    · exact hk
    · exact h.knows st' hm

/-- A call comes that holds nothing and found nothing in the index yet. -/
theorem enter (h : Coherent ch slots stages) (hst : st.held = []) (hs : st.sought = []) (hk : st.Knows ch) :
    Coherent ch slots (st :: stages) := by
  refine h.cons hst (fun x hx => ?_) hk
  rw [hs] at hx
  cases hx

/-- A call that owns a node turns to something else, and cares for the same node. -/
theorem become (h : Coherent ch slots (st :: stages)) (ha : st'.anchors = st.anchors)
    (hp : st'.possessed = st.possessed) (hf : st'.fresh = []) (hs : st'.sought = [])
    (hk : st'.Knows ch) : Coherent ch slots (st' :: stages) := by
  have hsound := h.sound
  have hcustody := h.custody
  have hheld : st'.held = st.held := by rw [Stage.held, Stage.held, ha, hp]
  rw [List.flatMap_cons] at hsound
  rw [List.flatMap_cons, List.flatMap_cons, List.flatMap_cons] at hcustody
  refine ⟨?_, h.filed, ?_, ?_⟩
  · rw [List.flatMap_cons, hheld]
    exact hsound
  · rw [List.flatMap_cons, List.flatMap_cons, List.flatMap_cons, hp, hf, hs]
    exact hcustody.relax (fun x hx => List.mem_append_right _ hx) fun x hx => Or.inl (List.mem_append_right _ hx)
  · intro st₁ hm
    rcases List.mem_cons.mp hm with rfl | hm
    · exact hk
    · exact h.knows st₁ (List.mem_cons_of_mem _ hm)

/-! ## The chain -/

/-- Walks and links change nothing that matters. -/
theorem alike (h : Coherent ch slots stages)
    (hs : ∀ order held, Sound ch order held → Sound ch' order held ∧ Alike ch ch') : Coherent ch' slots stages := by
  obtain ⟨order, hsound⟩ := h.sound
  obtain ⟨hsound', a⟩ := hs order _ hsound
  exact ⟨⟨order, hsound'⟩, h.filed.ages a.ages, h.custody.alike a, fun st hm => (h.knows st hm).ages a.ages⟩

/-- A deletion of a node that is not fresh. -/
theorem finishDelete {cut : Cut} (h : Coherent ch slots stages) (hs : ch.isSentinel cut.target = false)
    (hx : cut.target ∉ stages.flatMap Stage.fresh) :
    ((ch.finishDelete cut).2 = true ∧ Coherent (ch.finishDelete cut).1 slots stages ∧
      Buries ch (ch.finishDelete cut).1 cut.target) ∨ ch.finishDelete cut = (ch, false) := by
  obtain ⟨order, hsound⟩ := h.sound
  rcases hsound.finishDelete hs with ⟨hw, -, hsound', b⟩ | hl
  · exact Or.inl ⟨hw, ⟨⟨order, hsound'⟩, h.filed.ages b.ages, h.custody.bury b hx, fun st hm =>
      (h.knows st hm).ages b.ages⟩, b⟩
  · exact Or.inr hl

/-- A deletion of any node, which is marked at once. -/
theorem finishEvict {cut : Cut} (h : Coherent ch slots stages) (hs : ch.isSentinel cut.target = false) :
    ((ch.finishDelete cut).2 = true ∧
      Coherent ((ch.finishDelete cut).1.markEvicted cut.target) slots stages ∧
      Buries ch (ch.finishDelete cut).1 cut.target ∧ cut.target < (ch.finishDelete cut).1.size) ∨
      ch.finishDelete cut = (ch, false) := by
  obtain ⟨order, hsound⟩ := h.sound
  rcases hsound.finishDelete hs with ⟨hw, -, hsound', b⟩ | hl
  · have hlt : cut.target < (ch.finishDelete cut).1.size := by
      rw [b.size]
      exact Chain.lt_size_of_not_isSentinel hs
    have a := b.ages.trans (Chain.ages_markEvicted hlt)
    exact Or.inl ⟨hw, ⟨⟨order, hsound'.markEvicted _⟩, h.filed.ages a,
      h.custody.evict b hlt, fun st hm => (h.knows st hm).ages a⟩, b, hlt⟩
  · exact Or.inr hl

/-- A link that the index or a call holds may be given back; nobody can tell. -/
theorem alike_release (h : Coherent ch slots stages) (hx : x ∈ slots.map Prod.snd ++ stages.flatMap Stage.held) :
    Alike ch (ch.release x) ∧ (ch.release x).recent = ch.recent := by
  obtain ⟨order, hsound⟩ := h.sound
  obtain ⟨hsound', a⟩ := (hsound.perm (List.perm_cons_erase hx)).release
  exact ⟨a, hsound.recent_alike hsound' a⟩

/-- A node that is on its way out is not on its way in. -/
theorem not_fresh_of_discarding {cut : Cut} {next : Sequel κ ν}
    (h : Coherent ch slots (.discarding cut next :: stages)) :
    cut.target ∉ (.discarding cut next :: stages).flatMap Stage.fresh := by
  have hown : cut.target ∈ Stage.possessed (.discarding cut next) := List.mem_cons_self
  exact fun hm => (h.not_mem hown).2 (possessed_of_fresh hm)

/-- Whether its deletion was won or lost, the node has still to be given up. -/
theorem discarded {cut : Cut} {next : Sequel κ ν} (h : Coherent ch slots (.discarding cut next :: stages)) :
    Coherent ch slots (.discard cut.target next :: stages) :=
  h.become rfl rfl rfl rfl (h.knows (.discarding cut next) List.mem_cons_self)

/-- An insertion in front can always begin. -/
theorem beginFront {g : Errand κ ν} (h : Coherent ch slots stages) (hg : g.Knows ch) :
    ∃ ch', ch.beginInsert Chain.header = some ch' ∧ Coherent ch' slots (.front g :: stages) ∧ Alike ch ch' ∧
      ch'.recent = ch.recent := by
  obtain ⟨order, hsound⟩ := h.sound
  rcases hsound.beginInsert hsound.laid.header_mem with ⟨-, hd⟩ | ⟨ch', hb, hsound', a⟩
  · rw [hsound.laid.start] at hd
    cases hd
  · refine ⟨ch', hb, ⟨⟨order, hsound'.perm List.perm_middle.symm⟩, h.filed.ages a.ages, h.custody.alike a, ?_⟩, a,
      hsound.recent_alike hsound' a⟩
    intro st hm
    rcases List.mem_cons.mp hm with rfl | hm
    · exact hg.ages a.ages
    · exact (h.knows st hm).ages a.ages

/-- All nodes that calls own or look for were linked. -/
theorem all_lt_size (h : Coherent ch slots stages) (hx : x ∈ slots.map Prod.snd ++ stages.flatMap Stage.possessed) :
    x < ch.size := by
  obtain ⟨order, hsound⟩ := h.sound
  refine (hsound.laid.mem x).mp (hsound.held_mem ?_)
  rcases List.mem_append.mp hx with hx | hx
  · exact List.mem_append_left _ hx
  · obtain ⟨st, hst, hx⟩ := List.mem_flatMap.mp hx
    exact List.mem_append_right _ (List.mem_flatMap.mpr ⟨st, hst, List.mem_append_right _ hx⟩)

theorem sought_lt_size (h : Coherent ch slots stages) (hx : x ∈ stages.flatMap Stage.sought) : x < ch.size := by
  obtain ⟨st, hst, hx⟩ := List.mem_flatMap.mp hx
  have hk := h.knows st hst
  cases st with
  | displace e cut =>
    rw [List.mem_singleton.mp hx]
    exact Chain.lt_size_of_not_isSentinel (Bears.not_isSentinel hk)
  | withdraw k e cut =>
    rw [List.mem_singleton.mp hx]
    exact Carries.lt_size hk
  | _ => cases hx

/-- An insertion in front always succeeds. -/
theorem finishFront {g : Errand κ ν} (h : Coherent ch slots (.front g :: stages)) :
    (ch.finishInsert Chain.header g.entry).2 = some ch.size ∧
      Coherent (ch.finishInsert Chain.header g.entry).1 slots (g.landed ch.size :: stages) ∧
      Grows ch (ch.finishInsert Chain.header g.entry).1 g.entry ∧
      (ch.finishInsert Chain.header g.entry).1.recent = ch.size :: ch.recent := by
  obtain ⟨order, hsound⟩ := h.sound
  have hfront : Sound ch order (Chain.header :: (slots.map Prod.snd ++ stages.flatMap Stage.held)) :=
    hsound.perm List.perm_middle
  rcases hfront.finishInsert g.entry with ⟨-, -, hy, hsound', gr⟩ | ⟨hd | hd, -⟩
  · have hgrow : Custody (ch.finishInsert Chain.header g.entry).1
        (ch.size :: (slots.map Prod.snd ++ stages.flatMap Stage.possessed))
        (ch.size :: stages.flatMap Stage.fresh) (stages.flatMap Stage.sought) :=
      h.custody.grow gr (fun x hx => h.all_lt_size hx)
        (fun x hx => h.all_lt_size (List.mem_append_right _ (possessed_of_fresh hx))) fun x hx => h.sought_lt_size hx
    have hg : g.Knows ch := h.knows _ List.mem_cons_self
    have hothers (st : Stage κ ν) (hm : st ∈ stages) := (h.knows st (List.mem_cons_of_mem _ hm)).ages gr.ages
    refine ⟨hy, ⟨⟨_, hsound'.perm ?_⟩, h.filed.ages gr.ages, ?_, ?_⟩, gr,
      hfront.recent_grows hsound' gr⟩
    · cases g <;> exact List.perm_middle.symm
    · cases g <;> exact hgrow.perm List.perm_middle.symm
    · intro st hm
      rcases List.mem_cons.mp hm with rfl | hm
      · cases g with
        | store e => exact gr.carried
        | promote k e stale => exact ⟨hg.ages gr.ages, gr.carried⟩
      · exact hothers st hm
  · rw [hsound.laid.start] at hd
    cases hd
  · cases hd

/-! ## The index -/

variable [EquivBEq κ]

/-- A fresh node is published under a new key. -/
theorem publish_new (h : Coherent ch slots (.publish e x :: stages)) (hl : slots.lookup e.key = none) :
    Coherent ch (Index.assign e.key x slots) stages := by
  have hn : ((Index.assign e.key x slots).map Prod.snd).Perm (x :: slots.map Prod.snd) := Index.nodes_assign_new hl
  have hperm (rest : List NodeId) : (slots.map Prod.snd ++ x :: rest).Perm
      ((Index.assign e.key x slots).map Prod.snd ++ rest) :=
    List.perm_middle.trans (hn.symm.append_right rest)
  obtain ⟨order, hsound⟩ := h.sound
  have hk : ch.carried? x = some e := h.knows _ List.mem_cons_self
  exact ⟨⟨order, hsound.perm (hperm _)⟩, h.filed.assign ⟨e, hk, BEq.rfl⟩, (h.custody.perm (hperm _)).relax
    (fun y hy => List.mem_cons_of_mem _ hy) fun y hy => Or.inl hy, fun st hm => h.knows st (List.mem_cons_of_mem _ hm)⟩

/-- A fresh node displaces another from the index, which is discarded. -/
theorem publish_over (next : Sequel κ ν) (h : Coherent ch slots (.publish e x :: stages))
    (hl : slots.lookup e.key = some y) (hk : next.Knows ch) :
    Coherent ch (Index.assign e.key x slots) (.discard y next :: stages) := by
  have hn : (y :: (Index.assign e.key x slots).map Prod.snd).Perm (x :: slots.map Prod.snd) := Index.nodes_assign hl
  have hperm (rest : List NodeId) : (slots.map Prod.snd ++ x :: rest).Perm
      ((Index.assign e.key x slots).map Prod.snd ++ y :: rest) :=
    List.perm_middle.trans ((hn.symm.append_right rest).trans List.perm_middle.symm)
  obtain ⟨order, hsound⟩ := h.sound
  have hx : ch.carried? x = some e := h.knows _ List.mem_cons_self
  refine ⟨⟨order, hsound.perm (hperm _)⟩, h.filed.assign ⟨e, hx, BEq.rfl⟩, (h.custody.perm (hperm _)).relax
    (fun z hz => List.mem_cons_of_mem _ hz) fun z hz => Or.inl hz, fun st hm => ?_⟩
  rcases List.mem_cons.mp hm with rfl | hm
  · exact ⟨(h.filed.bears_of_lookup hl).not_isSentinel, hk⟩
  · exact h.knows st (List.mem_cons_of_mem _ hm)

/-- A fresh node takes the place of a deleted one, which is given up. -/
theorem replace (h : Coherent ch slots (.replace k e y x :: stages)) (hl : slots.lookup k = some y) :
    Coherent (ch.release y) (Index.assign k x slots) stages := by
  have hn : (y :: (Index.assign k x slots).map Prod.snd).Perm (x :: slots.map Prod.snd) := Index.nodes_assign hl
  have hperm (rest : List NodeId) : (slots.map Prod.snd ++ x :: rest).Perm
      (y :: ((Index.assign k x slots).map Prod.snd ++ rest)) :=
    List.perm_middle.trans (hn.symm.append_right rest)
  obtain ⟨order, hsound⟩ := h.sound
  obtain ⟨⟨hy, hd⟩, hx⟩ := h.knows _ List.mem_cons_self
  obtain ⟨hsound', a⟩ := (hsound.perm (hperm _)).release
  exact ⟨⟨order, hsound'⟩, (h.filed.assign ⟨e, hx, hy.2⟩).ages a.ages,
    (((h.custody.perm (hperm _)).drop hd).relax (fun z hz => List.mem_cons_of_mem _ hz) fun z hz => Or.inl hz).alike a,
    fun st hm => (h.knows st (List.mem_cons_of_mem _ hm)).ages a.ages⟩

omit [EquivBEq κ] in
/-- A deleted node is taken out of the index and given up. -/
theorem remove (h : Coherent ch slots stages) (hl : slots.lookup k = some x) (hd : ch.isDeleted x = true) :
    Coherent (ch.release x) (Index.erase k slots) stages := by
  have hperm (rest : List NodeId) : (slots.map Prod.snd ++ rest).Perm
      (x :: ((Index.erase k slots).map Prod.snd ++ rest)) := (Index.nodes_erase hl).symm.append_right rest
  obtain ⟨order, hsound⟩ := h.sound
  obtain ⟨hsound', a⟩ := (hsound.perm (hperm _)).release
  exact ⟨⟨order, hsound'⟩, (h.filed.erase hl).ages a.ages, ((h.custody.perm (hperm _)).drop hd).alike a,
    fun st hm => (h.knows st hm).ages a.ages⟩

omit [EquivBEq κ] in
/-- A deleted node that is not in the index is given up. -/
theorem discard {next : Sequel κ ν} (h : Coherent ch slots (.discard x next :: stages)) (hd : ch.isDeleted x = true) :
    Coherent (ch.release x) slots stages := by
  obtain ⟨order, hsound⟩ := h.sound
  obtain ⟨hsound', a⟩ := (hsound.perm List.perm_middle).release
  exact ⟨⟨order, hsound'⟩, h.filed.ages a.ages, ((h.custody.perm List.perm_middle).drop hd).alike a,
    fun st hm => (h.knows st (List.mem_cons_of_mem _ hm)).ages a.ages⟩

end Coherent

end LeastRecent.Cache
