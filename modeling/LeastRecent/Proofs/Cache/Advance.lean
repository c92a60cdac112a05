import LeastRecent.Proofs.Cache.Coherence

/-!
# A call gets on

A call that started when the cache was `c₀` lets no deleted node into the index that it does not answer for, and lets
the cache grow by its surplus at most, beyond the capacity and beyond what the size was (`Since`). When it ends, it
answers for nothing and has no surplus. Each stretch of work keeps this and keeps the cache coherent (`Gets`), whatever
came between (`gets_resume`).

An eviction may find no live entry although the cache is too large. Then all nodes of the index are deleted, so they
were in the index and deleted when the call started, and the size is no larger than it was (`Since.size_le_of_dead`).
-/

namespace LeastRecent.Cache

open Chain (Ages Alike Buries Grows Sound)

variable {κ ν : Type}

/-- The node `x` is in the index though it is deleted. -/
def Dangling (c : Cache κ ν) (x : NodeId) : Prop := x ∈ c.index.nodes ∧ c.chain.isDeleted x = true

/-- The cache `c` came from `c₀`. The call in progress answers for the nodes in `due`, and `surplus` entries may be too
many until it ends. -/
structure Since (c₀ c : Cache κ ν) (due : NodeId → Prop) (surplus : Nat) : Prop where
  ages : Ages c₀.chain c.chain
  capacity : c.capacity = c₀.capacity
  dangling : ∀ x, Dangling c x → Dangling c₀ x ∨ due x
  size : c.size ≤ max c.capacity c₀.size + surplus

namespace Since

variable {c₀ c c' : Cache κ ν} {due due' : NodeId → Prop} {n n' : Nat}

theorem refl (c : Cache κ ν) (due : NodeId → Prop) (n : Nat) : Since c c due n where
  ages := Ages.refl _
  capacity := rfl
  dangling _ hx := Or.inl hx
  size := by omega

/-- Another stretch of work. -/
theorem next (h : Since c₀ c due n) (a : Ages c.chain c'.chain) (hcap : c'.capacity = c.capacity)
    (hd : ∀ x, Dangling c' x → (Dangling c x ∧ (due x → due' x)) ∨ due' x) (hs : c'.size + n ≤ c.size + n') :
    Since c₀ c' due' n' where
  ages := h.ages.trans a
  capacity := hcap.trans h.capacity
  dangling x hx := by
    rcases hd x hx with ⟨hc, hdue⟩ | hdue
    · rcases h.dangling x hc with h₀ | h₀
      · exact Or.inl h₀
      · exact Or.inr (hdue h₀)
    · exact Or.inr hdue
  size := by
    have := h.size
    rw [hcap]
    omega

/-- A walk, or links given back. -/
theorem alike {ch : Chain (Entry Nat κ ν)} (h : Since c₀ c due n) (a : Alike c.chain ch)
    (hdue : ∀ x, Dangling c x → due x → due' x) : Since c₀ { c with chain := ch } due' n := by
  refine h.next a.ages rfl (fun x hx => ?_) (Nat.le_refl _)
  have hd : Dangling c x := ⟨hx.1, by rw [← a.deleted]; exact hx.2⟩
  exact Or.inl ⟨hd, hdue x hd⟩

/-- A deletion: the node is answered for if it is in the index. -/
theorem bury {ch : Chain (Entry Nat κ ν)} {x : NodeId} (h : Since c₀ c due n) (b : Buries c.chain ch x)
    (hdue : ∀ y, Dangling c y → due y → due' y) (hx : x ∈ c.index.nodes → due' x) :
    Since c₀ { c with chain := ch } due' n := by
  refine h.next b.ages rfl (fun y hy => ?_) (Nat.le_refl _)
  obtain ⟨hm, hd⟩ := hy
  replace hd : ch.isDeleted y = true := hd
  rw [b.deleted] at hd
  split at hd
  · next he =>
    rw [he]
    exact Or.inr (hx (he ▸ hm))
  · exact Or.inl ⟨⟨hm, hd⟩, hdue y ⟨hm, hd⟩⟩

/-- The call answers for more, or is allowed more. -/
theorem mono (h : Since c₀ c due n) (hdue : ∀ x, Dangling c x → due x → due' x) (hn : n ≤ n') :
    Since c₀ c due' n' :=
  h.next (Ages.refl _) rfl (fun x hx => Or.inl ⟨hx, hdue x hx⟩) (Nat.add_le_add_left hn _)

/-- What a call has done that ended in between. -/
theorem trans {c₁ : Cache κ ν} (h : Since c₀ c₁ due n) (h' : Since c₁ c (fun _ => False) 0)
    (hdue : ∀ x, Dangling c₁ x → due x → due' x) : Since c₀ c due' n where
  ages := h.ages.trans h'.ages
  capacity := h'.capacity.trans h.capacity
  dangling x hx := by
    rcases h'.dangling x hx with h₁ | h₁
    · rcases h.dangling x h₁ with h₀ | h₀
      · exact Or.inl h₀
      · exact Or.inr (hdue x h₁ h₀)
    · exact False.elim h₁
  size := by
    have h₁ := h.size
    have h₂ := h'.size
    rw [h'.capacity] at h₂ ⊢
    omega

/-- Where all nodes of the index are deleted and the call answers for none of them, they were so from the start. -/
theorem size_le_of_dead (h : Since c₀ c (fun _ => False) n) (hn : c.index.nodes.Nodup)
    (hd : ∀ x ∈ c.index.nodes, c.chain.isDeleted x = true) : c.size ≤ c₀.size := by
  have hsub : ∀ x ∈ c.index.nodes, x ∈ c₀.index.nodes := by
    intro x hx
    rcases h.dangling x ⟨hx, hd x hx⟩ with h₀ | h₀
    · exact h₀.1
    · exact False.elim h₀
  have hle := List.Nodup.length_le_of_subset hn hsub
  rw [Index.length_nodes, Index.length_nodes] at hle
  exact hle

end Since

section Gets

variable [BEq κ]

/-- No call is in progress, and no deleted node is in the index. -/
structure Quiet (c : Cache κ ν) : Prop where
  coherent : Coherent c.chain c.index.slots []
  settled : ∀ x, ¬ Dangling c x

/-- A call that started in `c₀`, above others at `stages`, has got on. -/
def Gets (c₀ : Cache κ ν) (stages : List (Stage κ ν)) : Advance κ ν → Prop
  | (c, .pause st) =>
    Coherent c.chain c.index.slots (st :: stages) ∧ Since c₀ c (fun x => st.Answers c.chain x) st.surplus
  | (c, .done _) => Coherent c.chain c.index.slots stages ∧ Since c₀ c (fun _ => False) 0

variable {c₀ c : Cache κ ν} {stages : List (Stage κ ν)} {x : NodeId} {k : κ} {e : Entry Nat κ ν} {r : Reply κ ν}
  {n : Nat}

/-- No rule of the chain was broken. -/
theorem Gets.clean {p : Advance κ ν} (h : Gets c₀ stages p) : p.1.chain.fault = none := by
  obtain ⟨c, out⟩ := p
  cases out with
  | pause st => exact h.1.clean
  | done r => exact h.1.clean

/-! ## Evictions -/

/-- The last live entry is found, if there is any. -/
theorem back_trailer {ch : Chain (Entry Nat κ ν)} {slots : List (κ × NodeId)} (h : Coherent ch slots stages) :
    Coherent (ch.back Chain.trailer).1 slots stages ∧ Alike ch (ch.back Chain.trailer).1 ∧
      (∀ y, (ch.back Chain.trailer).2 = some y → ch.isSentinel y = false) ∧
      ((ch.back Chain.trailer).2 = none → ∀ x ∈ slots.map Prod.snd, ch.isDeleted x = true) := by
  obtain ⟨order, hsound⟩ := h.sound
  have hwalk (order held : List NodeId) (hs : Sound ch order held) :
      Sound (ch.back Chain.trailer).1 order held ∧ Alike ch (ch.back Chain.trailer).1 := by
    obtain ⟨hs', a, -⟩ := hs.back hs.laid.trailer_mem
    exact ⟨hs', a⟩
  refine ⟨h.alike hwalk, (hwalk order _ hsound).2, ?_, ?_⟩
  · intro y hy
    rw [hsound.recent_back] at hy
    exact (h.mem_recent.mp (List.mem_of_getLast? hy)).2
  · intro hn x hx
    rw [hsound.recent_back, List.getLast?_eq_none_iff] at hn
    obtain ⟨s, hs, rfl⟩ := List.mem_map.mp hx
    cases hd : ch.isDeleted s.2 with
    | true => rfl
    | false =>
      have hm : s.2 ∈ ch.recent := h.mem_recent.mpr ⟨hd, (h.filed.keyed s hs).not_isSentinel⟩
      rw [hn] at hm
      cases hm

theorem gets_evict (h : Coherent c.chain c.index.slots stages) (hs : Since c₀ c (fun _ => False) r.surplus) :
    Gets c₀ stages (c.evict r) := by
  unfold evict
  split
  · next hle =>
    exact ⟨h, hs.ages, hs.capacity, hs.dangling, by omega⟩
  · obtain ⟨hc, a, hsome, hnone⟩ := back_trailer h
    cases hb : c.chain.back Chain.trailer with
    | mk chain found =>
      rw [hb] at hc a hsome hnone
      have hs' : Since c₀ { c with chain := chain } (fun _ => False) r.surplus := hs.alike a fun _ _ => id
      cases found with
      | none =>
        have hle := hs.size_le_of_dead h.nodup (hnone rfl)
        have hcap : (max c.capacity c₀.size) ≥ c.size := by omega
        exact ⟨hc, hs'.ages, hs'.capacity, hs'.dangling, hcap⟩
      | some y =>
        dsimp only
        cases hd : chain.beginDelete y with
        | none => exact ⟨hc.enter rfl rfl trivial, hs'⟩
        | some cut =>
          obtain ⟨ht, hsent, -⟩ := Chain.beginDelete_some hd
          rw [← ht] at hsent
          exact ⟨hc.enter rfl rfl hsent, hs'⟩

/-- A fresh node that was evicted before it came into the index has to leave it again. -/
theorem gets_settle {fresh : NodeId} (h : Coherent c.chain c.index.slots stages) (hk : Bears c.chain fresh k)
    (hs : Since c₀ c (fun x => x = fresh ∧ c.chain.isEvicted x = true) r.surplus) :
    Gets c₀ stages (c.settle k fresh r) := by
  unfold settle
  split
  · next he => exact ⟨h.enter rfl rfl ⟨hk, he⟩, hs⟩
  · next he =>
    refine gets_evict h (hs.mono (fun x _ hx => ?_) (Nat.le_refl _))
    exact he (hx.1 ▸ hx.2)

/-! ## Nodes that leave the index -/

theorem gets_discard {next : Sequel κ ν} (h : Coherent c.chain c.index.slots (.discard x next :: stages))
    (hs : Since c₀ c (fun y => next.Answers c.chain y) next.surplus) : Gets c₀ stages (c.discard x next) := by
  unfold discard
  split
  · next hd =>
    have hc := h.discard hd
    have hk : next.Knows c.chain := (h.knows _ List.mem_cons_self).2
    obtain ⟨a, -⟩ := h.alike_release (List.mem_append_right _ List.mem_cons_self)
    cases next with
    | settle k fresh r =>
      refine gets_settle (c := c.release x) hc (Bears.ages hk a.ages) (hs.alike a fun y _ hy => ⟨hy.1, ?_⟩)
      exact (a.evicted y).trans hy.2
    | finish r => exact ⟨hc, hs.alike a fun _ _ => id⟩
  · split
    · exact ⟨h, hs⟩
    · next cut hb =>
      obtain ⟨ht, hsent, -⟩ := Chain.beginDelete_some hb
      have hk := h.knows _ List.mem_cons_self
      refine ⟨h.become rfl ?_ rfl rfl ⟨?_, hk.2⟩, hs⟩
      · show [cut.target] = [x]
        rw [ht]
      · rw [ht]
        exact hsent

/-! ## Nodes that are put in front -/

theorem gets_push {g : Errand κ ν} (h : Coherent c.chain c.index.slots stages) (hg : g.Knows c.chain)
    (hs : Since c₀ c (fun x => g.Answers c.chain x) 0) : Gets c₀ stages (c.push g) := by
  obtain ⟨ch, hb, hc, a, -⟩ := h.beginFront hg
  have he : c.push g = ({ c with chain := ch }, .pause (.front g)) := by rw [push, hb]
  rw [he]
  exact ⟨hc, hs.alike a fun x _ hx => hx.ages a.ages⟩

/-! ## Nodes that are promoted -/

theorem gets_lose (h : Coherent c.chain c.index.slots stages) (hk : Carries c.chain x k e)
    (hs : Since c₀ c (fun _ => False) 0) : Gets c₀ stages (c.lose k e x) := by
  unfold lose
  split
  · exact ⟨h, hs⟩
  · exact ⟨h.enter rfl rfl hk, hs⟩

theorem gets_withdraw (h : Coherent c.chain c.index.slots stages) (hx : x ∈ c.index.nodes)
    (hk : Carries c.chain x k e) (hs : Since c₀ c (fun _ => False) 0) : Gets c₀ stages (c.withdraw k e x) := by
  unfold withdraw
  split
  · exact gets_lose h hk hs
  · next cut hb =>
    obtain ⟨ht, -, -⟩ := Chain.beginDelete_some hb
    refine ⟨h.cons rfl ?_ ?_, hs⟩
    · intro y hy
      rw [List.mem_singleton.mp hy, ht]
      exact hx
    · show Carries c.chain cut.target k e
      rw [ht]
      exact hk

/-! ## Stages -/

theorem gets_resume_find (h : Coherent c.chain c.index.slots (.find e :: stages)) (hs : Since c₀ c (fun _ => False) 0)
    [EquivBEq κ] : Gets c₀ stages (resume (.find e) c) := by
  have hc := h.tail rfl
  rw [resume]
  cases hf : c.index.find? e.key with
  | none => exact gets_push (g := .store e) hc trivial (hs.mono (fun _ _ => False.elim) (Nat.le_refl _))
  | some x =>
    rw [Option.bind_some]
    cases hb : c.chain.beginDelete x with
    | none => exact gets_push (g := .store e) hc trivial (hs.mono (fun _ _ => False.elim) (Nat.le_refl _))
    | some cut =>
      obtain ⟨ht, -, -⟩ := Chain.beginDelete_some hb
      refine ⟨hc.cons rfl ?_ ?_, hs⟩
      · intro y hy
        rw [List.mem_singleton.mp hy, ht]
        exact Index.mem_nodes_of_lookup hf
      · show Bears c.chain cut.target e.key
        rw [ht]
        exact hc.filed.bears_of_lookup hf

/-- The node looked for is not fresh. -/
theorem not_fresh_of_sought {ch : Chain (Entry Nat κ ν)} {slots : List (κ × NodeId)} {st : Stage κ ν}
    (h : Coherent ch slots (st :: stages)) (hx : x ∈ st.sought) : x ∉ (st :: stages).flatMap Stage.fresh :=
  h.custody.unsought x (List.mem_append_left _ hx)

theorem gets_resume_displace {cut : Chain.Cut} (h : Coherent c.chain c.index.slots (.displace e cut :: stages))
    (hs : Since c₀ c (fun _ => False) 0) : Gets c₀ stages (resume (.displace e cut) c) := by
  have hb : Bears c.chain cut.target e.key := h.knows _ List.mem_cons_self
  rcases h.finishDelete hb.not_isSentinel (not_fresh_of_sought h List.mem_cons_self) with ⟨-, hc, b⟩ | hl
  · exact gets_push (c := { c with chain := (c.chain.finishDelete cut).1 }) (g := .store e) (hc.tail rfl) trivial
      (hs.bury b (fun _ _ => False.elim) fun _ => hb.ages b.ages)
  · show Gets c₀ stages (push { c with chain := (c.chain.finishDelete cut).1 } (.store e))
    rw [hl]
    exact gets_push (g := .store e) (h.tail rfl) trivial (hs.mono (fun _ _ => False.elim) (Nat.le_refl _))

theorem gets_resume_fetch (h : Coherent c.chain c.index.slots (.fetch k :: stages)) (hs : Since c₀ c (fun _ => False) 0)
    [EquivBEq κ] : Gets c₀ stages (resume (.fetch k) c) := by
  have hc := h.tail rfl
  rw [resume]
  cases hf : c.index.find? k with
  | none => exact ⟨hc, hs⟩
  | some x =>
    obtain ⟨e, he, hk⟩ := hc.filed.bears_of_lookup hf
    dsimp only
    rw [he]
    exact gets_withdraw hc (Index.mem_nodes_of_lookup hf) ⟨he, hk⟩ hs

theorem gets_resume_withdraw {cut : Chain.Cut} (h : Coherent c.chain c.index.slots (.withdraw k e cut :: stages))
    (hs : Since c₀ c (fun _ => False) 0) : Gets c₀ stages (resume (.withdraw k e cut) c) := by
  have hk : Carries c.chain cut.target k e := h.knows _ List.mem_cons_self
  rw [resume]
  rcases h.finishDelete hk.bears.not_isSentinel (not_fresh_of_sought h List.mem_cons_self) with ⟨hw, hc, b⟩ | hl
  · have hd : (c.chain.finishDelete cut).1.isDeleted cut.target = true := by rw [b.deleted, if_pos rfl]
    split
    · next chain heq =>
      rw [heq] at hc b hd
      exact gets_push (c := { c with chain := chain }) (hc.tail rfl) ⟨hk.ages b.ages, hd⟩
        (hs.bury b (fun _ _ => False.elim) fun _ => rfl)
    · next heq =>
      rw [heq] at hw
      cases hw
  · rw [hl]
    exact gets_lose (h.tail rfl) hk hs

theorem gets_resume_recheck (h : Coherent c.chain c.index.slots (.recheck k e x :: stages))
    (hs : Since c₀ c (fun _ => False) 0) : Gets c₀ stages (resume (.recheck k e x) c) := by
  rw [resume]
  split
  · next hf =>
    exact gets_withdraw (h.tail rfl) (Index.mem_nodes_of_lookup hf) (h.knows _ List.mem_cons_self) hs
  · exact ⟨h.tail rfl, hs⟩

/-- A fresh node is put in front at once. -/
theorem resume_front {g : Errand κ ν} (h : Coherent c.chain c.index.slots (.front g :: stages)) :
    resume (.front g) c =
      ({ c with chain := (c.chain.finishInsert Chain.header g.entry).1 }, .pause (g.landed c.chain.size)) := by
  have hy := h.finishFront.1
  rw [resume]
  split
  · next heq => rw [heq] at hy; cases hy
  · next heq =>
    rw [heq] at hy ⊢
    cases hy
    cases g <;> rfl

/-- It is not in the index yet. -/
theorem gets_resume_front {g : Errand κ ν} (h : Coherent c.chain c.index.slots (.front g :: stages))
    (hs : Since c₀ c (fun x => g.Answers c.chain x) 0) : Gets c₀ stages (resume (.front g) c) := by
  obtain ⟨-, hc, gr, -⟩ := h.finishFront
  have hn : (g.landed c.chain.size).surplus = 0 := by cases g <;> rfl
  rw [resume_front h]
  refine ⟨hc, hs.next gr.ages rfl (fun x hx => ?_) (by rw [hn]; exact Nat.le_refl _)⟩
  have hd : c.chain.isDeleted x = true := (gr.deleted x (h.lt_size hx.1)).symm.trans hx.2
  refine Or.inl ⟨⟨hx.1, hd⟩, fun hdue => ?_⟩
  cases g with
  | store e => exact Bears.ages hdue gr.ages
  | promote k e stale => exact hdue

/-! ## The index -/

section Index

variable [EquivBEq κ]

omit [EquivBEq κ] in
/-- A call that is about to put `x` into the index: a node that was in the index stays there, `x` is new, and if `x` was
deleted already it was evicted. -/
theorem mem_assign {st : Stage κ ν} {y : NodeId} (h : Coherent c.chain c.index.slots (st :: stages))
    (hx : x ∈ st.fresh) (hl : c.index.find? k = some y) {z : NodeId}
    (hz : z ∈ (Index.assign k x c.index.slots).map Prod.snd) (hd : c.chain.isDeleted z = true) :
    Dangling c z ∧ z ≠ y ∨ z = x ∧ c.chain.isEvicted z = true := by
  have hfresh : x ∉ c.index.nodes := (h.not_mem (List.mem_append_left _ hx)).1
  rcases Index.mem_nodes_assign (List.nodup_cons.mpr ⟨hfresh, h.nodup⟩) hl hz with rfl | ⟨hm, hne⟩
  · exact Or.inr ⟨rfl, h.custody.spared _ (List.mem_append_left _ hx) hd⟩
  · exact Or.inl ⟨⟨hm, hd⟩, hne⟩

/-- Either the node displaced was the one that the call answered for, or there was none. -/
theorem gets_resume_publish (h : Coherent c.chain c.index.slots (.publish e x :: stages))
    (hs : Since c₀ c (fun y => Bears c.chain y e.key) 0) : Gets c₀ stages (resume (.publish e x) c) := by
  have hk : c.chain.carried? x = some e := h.knows _ List.mem_cons_self
  let c' : Cache κ ν := { c with index := ⟨Index.assign e.key x c.index.slots⟩ }
  cases hf : c.index.find? e.key with
  | none =>
    have he : resume (.publish e x) c = c'.settle e.key x .stored := by
      rw [resume, Index.publish, hf]
    rw [he]
    refine gets_settle (c := c') (h.publish_new hf) ⟨e, hk, BEq.rfl⟩ (hs.next (Ages.refl _) rfl ?_ ?_)
    · rintro z ⟨hm, hd⟩
      -- the fresh node may have been evicted meanwhile; the call answers for it then
      rcases List.mem_cons.mp ((Index.nodes_assign_new hf).mem_iff.mp hm) with rfl | hm
      · exact Or.inr ⟨rfl, h.custody.spared _ (List.mem_append_left _ List.mem_cons_self) hd⟩
      · refine Or.inl ⟨⟨hm, hd⟩, fun hb => ?_⟩
        have hl := h.filed.lookup_of_bears hm hb
        rw [Index.find?, hl] at hf
        cases hf
    · show (Index.assign e.key x c.index.slots).length + 0 ≤ c.index.slots.length + 1
      rw [Index.assign_new hf, List.length_append]
      exact Nat.le_refl _
  | some y =>
    have he : resume (.publish e x) c = c'.discard y (.settle e.key x .stored) := by
      rw [resume, Index.publish, hf]
    rw [he]
    refine gets_discard (c := c') (h.publish_over _ hf ⟨e, hk, BEq.rfl⟩) (hs.next (Ages.refl _) rfl ?_ ?_)
    · intro z hz
      rcases mem_assign h List.mem_cons_self hf hz.1 hz.2 with ⟨hd, hne⟩ | hz
      · refine Or.inl ⟨hd, fun hb => absurd ?_ hne⟩
        have hl := h.filed.lookup_of_bears hd.1 hb
        rw [Index.find?, hl] at hf
        exact Option.some.inj hf
      · exact Or.inr hz
    · have hlen : c'.size = c.size := Index.length_assign hf
      rw [hlen]
      exact Nat.le_succ _

/-- The stale node, for which the call answered, leaves the index, or has left it before. -/
theorem gets_resume_replace {stale : NodeId} (h : Coherent c.chain c.index.slots (.replace k e stale x :: stages))
    (hs : Since c₀ c (fun y => y = stale) 0) : Gets c₀ stages (resume (.replace k e stale x) c) := by
  obtain ⟨⟨hstale, -⟩, hx⟩ := h.knows _ List.mem_cons_self
  by_cases hf : c.index.find? k = some stale
  · let c' : Cache κ ν := Cache.release { c with index := ⟨Index.assign k x c.index.slots⟩ } stale
    have he : resume (.replace k e stale x) c = c'.settle k x (.found (some e)) := by
      rw [resume, Index.replace, if_pos hf]
    have hc := h.replace hf
    obtain ⟨a, -⟩ := h.alike_release (List.mem_append_left _ (Index.mem_nodes_of_lookup hf))
    rw [he]
    refine gets_settle (c := c') hc ⟨e, a.ages.carried hx, hstale.2⟩ (hs.next a.ages rfl ?_ ?_)
    · intro z hz
      have hd : c.chain.isDeleted z = true := (a.deleted z).symm.trans hz.2
      rcases mem_assign h List.mem_cons_self hf hz.1 hd with ⟨hd, hne⟩ | ⟨hzx, hev⟩
      · exact Or.inl ⟨hd, fun he => absurd he hne⟩
      · exact Or.inr ⟨hzx, (a.evicted z).trans hev⟩
    · have hlen : c'.size = c.size := Index.length_assign hf
      rw [hlen]
      exact Nat.le_refl _
  · have he : resume (.replace k e stale x) c = c.discard x (.finish (.found (some e))) := by
      rw [resume, Index.replace, if_neg hf]
    rw [he]
    refine gets_discard (h.become rfl rfl rfl rfl ⟨?_, trivial⟩) (hs.mono ?_ (Nat.le_refl _))
    · exact Bears.not_isSentinel ⟨e, hx, hstale.2⟩
    · intro z hz hzs
      rw [hzs] at hz
      exact hf (h.filed.lookup_of_bears hz.1 hstale.bears)

/-- A deleted node leaves the index, or has left it before. -/
theorem gets_remove (notes : List Notice) (h : Coherent c.chain c.index.slots stages) (hk : Bears c.chain x k)
    (hd : c.chain.isDeleted x = true) (hs : Since c₀ c (fun y => y = x) r.surplus) :
    Gets c₀ stages (match c.index.removeIf k x with
      | (index, true) => evict { (Cache.release { c with index := index } x) with notices := notes } r
      | (_, false) => c.evict r) := by
  by_cases hf : c.index.find? k = some x
  · obtain ⟨a, -⟩ := h.alike_release (List.mem_append_left _ (Index.mem_nodes_of_lookup hf))
    rw [Index.removeIf, if_pos hf]
    let c' : Cache κ ν := { c with
      chain := c.chain.release x
      index := ⟨Index.erase k c.index.slots⟩
      notices := notes }
    refine gets_evict (c := c') (h.remove hf hd) (hs.next a.ages rfl ?_ ?_)
    · intro z hz
      obtain ⟨hm, hne⟩ := Index.mem_nodes_erase h.nodup hf hz.1
      exact Or.inl ⟨⟨hm, (a.deleted z).symm.trans hz.2⟩, fun he => absurd he hne⟩
    · have hlen : c'.size + 1 = c.size := Index.length_erase hf
      omega
  · rw [Index.removeIf, if_neg hf]
    refine gets_evict h (hs.mono (fun z hz hzx => ?_) (Nat.le_refl _))
    rw [hzx] at hz
    exact hf (h.filed.lookup_of_bears hz.1 hk)

theorem gets_resume_settle (h : Coherent c.chain c.index.slots (.settle k x r :: stages))
    (hs : Since c₀ c (fun y => y = x ∧ c.chain.isEvicted y = true) r.surplus) :
    Gets c₀ stages (resume (.settle k x r) c) := by
  obtain ⟨hk, he⟩ := h.knows _ List.mem_cons_self
  exact gets_remove c.notices (h.tail rfl) hk (h.custody.marked x he)
    (hs.mono (fun y _ hy => hy.1) (Nat.le_refl _))

theorem gets_resume_purge (h : Coherent c.chain c.index.slots (.purge k x r :: stages))
    (hs : Since c₀ c (fun y => y = x) r.surplus) : Gets c₀ stages (resume (.purge k x r) c) := by
  obtain ⟨hk, he⟩ := h.knows _ List.mem_cons_self
  exact gets_remove (c.notices ++ [.evicted c.capacity]) (h.tail rfl) hk (h.custody.marked x he) hs

omit [EquivBEq κ] in
/-- A node that left the index is deleted, unless that is done. -/
theorem gets_resume_discarding {cut : Chain.Cut} {next : Sequel κ ν}
    (h : Coherent c.chain c.index.slots (.discarding cut next :: stages))
    (hs : Since c₀ c (fun y => next.Answers c.chain y) next.surplus) :
    Gets c₀ stages (resume (.discarding cut next) c) := by
  have hsent : c.chain.isSentinel cut.target = false := (h.knows _ List.mem_cons_self).1
  have hown : cut.target ∈ Stage.possessed (.discarding cut next) := List.mem_cons_self
  obtain ⟨hindex, -⟩ := h.not_mem hown
  rcases h.finishDelete hsent h.not_fresh_of_discarding with ⟨-, hc, b⟩ | hl
  · refine gets_discard (c := { c with chain := (c.chain.finishDelete cut).1 }) hc.discarded
      (hs.bury b (fun y hy hdue => hdue.ages b.ages (h.lt_size hy.1)) fun hm => absurd hm hindex)
  · show Gets c₀ stages (discard { c with chain := (c.chain.finishDelete cut).1 } cut.target next)
    rw [hl]
    exact gets_discard h.discarded hs

omit [EquivBEq κ] in
/-- An eviction that wins marks its victim, and has the key of its entry to take out of the index next. -/
theorem resume_evicting {cut : Chain.Cut} (h : Coherent c.chain c.index.slots (.evicting cut r :: stages))
    (hw : (c.chain.finishDelete cut).2 = true) :
    ∃ e, c.chain.carried? cut.target = some e ∧
      ((c.chain.finishDelete cut).1.markEvicted cut.target).carried? cut.target = some e ∧
      resume (.evicting cut r) c = ({ c with chain := (c.chain.finishDelete cut).1.markEvicted cut.target },
        .pause (.purge e.key cut.target r)) := by
  have hsent : c.chain.isSentinel cut.target = false := h.knows _ List.mem_cons_self
  obtain ⟨e, he⟩ : ∃ e, c.chain.carried? cut.target = some e := by
    rw [Chain.isSentinel, Node.isSentinel, Option.isNone_eq_false_iff] at hsent
    exact Option.isSome_iff_exists.mp hsent
  rcases h.finishEvict hsent with ⟨-, -, b, hlt⟩ | hl
  · have hcarried : ((c.chain.finishDelete cut).1.markEvicted cut.target).carried? cut.target = some e := by
      rw [Chain.carried_markEvicted hlt, b.carried, he]
    refine ⟨e, he, hcarried, ?_⟩
    rw [resume]
    split
    · next heq => rw [heq] at hw; cases hw
    · next heq =>
      rw [heq] at hcarried ⊢
      dsimp only at hcarried ⊢
      rw [hcarried]
  · rw [hl] at hw
    cases hw

/-- An eviction that wins has to take the node out of the index, if it is there. -/
theorem gets_resume_evicting {cut : Chain.Cut} (h : Coherent c.chain c.index.slots (.evicting cut r :: stages))
    (hs : Since c₀ c (fun _ => False) r.surplus) : Gets c₀ stages (resume (.evicting cut r) c) := by
  have hsent : c.chain.isSentinel cut.target = false := h.knows _ List.mem_cons_self
  rcases h.finishEvict hsent with ⟨hw, hc, b, hlt⟩ | hl
  · obtain ⟨e, -, he, hstep⟩ := resume_evicting h hw
    have hev : ((c.chain.finishDelete cut).1.markEvicted cut.target).isEvicted cut.target = true := by
      rw [Chain.isEvicted_markEvicted hlt, if_pos rfl]
    have hb : Since c₀ { c with chain := (c.chain.finishDelete cut).1 } (fun y => y = cut.target) r.surplus :=
      hs.bury b (fun _ _ => False.elim) fun _ => rfl
    rw [hstep]
    refine ⟨(hc.tail rfl).enter rfl rfl ⟨⟨e, he, BEq.rfl⟩, hev⟩, ?_⟩
    refine hb.next (Chain.ages_markEvicted hlt) rfl (fun y hy => Or.inl ⟨⟨hy.1, ?_⟩, id⟩) (Nat.le_refl _)
    exact (Chain.isDeleted_markEvicted hlt y).symm.trans hy.2
  · rw [resume, hl]
    exact gets_evict (h.tail rfl) hs

/-- **A suspended call goes on.** -/
theorem gets_resume {st : Stage κ ν} (h : Coherent c.chain c.index.slots (st :: stages))
    (hs : Since c₀ c (fun x => st.Answers c.chain x) st.surplus) : Gets c₀ stages (resume st c) := by
  cases st with
  | find e => exact gets_resume_find h hs
  | displace e cut => exact gets_resume_displace h hs
  | fetch k => exact gets_resume_fetch h hs
  | withdraw k e cut => exact gets_resume_withdraw h hs
  | recheck k e x => exact gets_resume_recheck h hs
  | push g => exact gets_push (h.tail rfl) (h.knows _ List.mem_cons_self) hs
  | front g => exact gets_resume_front h hs
  | publish e fresh => exact gets_resume_publish h hs
  | replace k e stale fresh => exact gets_resume_replace h hs
  | discard x next => exact gets_discard h hs
  | discarding cut next => exact gets_resume_discarding h hs
  | settle k fresh r => exact gets_resume_settle h hs
  | evict r => exact gets_evict (h.tail rfl) hs
  | evicting cut r => exact gets_resume_evicting h hs
  | purge k victim r => exact gets_resume_purge h hs
  | probe k => exact ⟨h.tail rfl, hs⟩

end Index

/-- A call that starts is suspended at once. -/
theorem gets_start (call : Call κ ν) (h : Coherent c.chain c.index.slots stages) : Gets c stages (start call c) := by
  cases call with
  | set k v =>
    refine ⟨h.enter rfl rfl trivial, ?_⟩
    exact (Since.refl c (fun _ => False) 0).next (Ages.refl _) rfl (fun x hx => Or.inl ⟨hx, id⟩) (Nat.le_refl _)
  | get k => exact ⟨h.enter rfl rfl trivial, Since.refl c _ 0⟩
  | contains k => exact ⟨h.enter rfl rfl trivial, Since.refl c _ 0⟩

end Gets

end LeastRecent.Cache
