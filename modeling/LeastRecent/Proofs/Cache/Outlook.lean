import LeastRecent.Proofs.Cache.View

/-!
# What a call comes to

What a call comes to from a stage on, if nothing that can be seen is changed by others, can be told in advance from the
view of the cache (`Stage.outlook`), provided that the stage fits the view (`Stage.Fits`). The outlook is the same whether
a deletion is won or lost: a node that a call fails to delete it deletes later. Every stage keeps to the outlook
(`steers_resume`). It lowers a rank, which is high for a deletion whose successor is not the one it noted any more, since
such a deletion is lost and has to be made again.
-/

namespace LeastRecent.Cache

open Chain (Alike Buries Cut Grows Sound)

variable {κ ν : Type}

section Outlook

variable [BEq κ]

/-- What the call comes to when the fresh node is about to be put in front. -/
def Errand.outlook (v : View κ ν) : Errand κ ν → View κ ν × Reply κ ν
  | .store e => (((v.grow e).publish e.key v.nodes).trim, .stored)
  | .promote k e _ => (((v.grow e).assign k v.nodes).trim, .found (some e))

/-- What the call comes to when it is done with discarding a node. -/
def Sequel.outlook (v : View κ ν) : Sequel κ ν → View κ ν × Reply κ ν
  | .settle _ _ r => (v.trim, r)
  | .finish r => (v, r)

/-- The view in the end and the reply, if the call goes on from this stage. -/
def Stage.outlook (v : View κ ν) : Stage κ ν → View κ ν × Reply κ ν
  | .find e | .displace e _ => (Errand.store e).outlook v
  | .fetch k =>
    match v.index.find? k with
    | none => (v, .found none)
    | some x =>
      match v.carried x with
      | none => (v, .found none)
      | some e => (Errand.promote k e x).outlook (v.bury x)
  | .withdraw k e cut => (Errand.promote k e cut.target).outlook (v.bury cut.target)
  | .recheck k e x => (Errand.promote k e x).outlook (v.bury x)
  | .push g | .front g => g.outlook v
  | .publish e fresh => ((v.publish e.key fresh).trim, .stored)
  | .replace k e _ fresh => ((v.assign k fresh).trim, .found (some e))
  | .discard x next => next.outlook (v.bury x)
  | .discarding cut next => next.outlook (v.bury cut.target)
  | .settle k _ r | .purge k _ r => ((v.erase k).trim, r)
  | .evict r | .evicting _ r => (v.trim, r)
  | .probe k => (v, .present (v.index.find? k).isSome)

/-- The node to be promoted is still in the index. -/
def Errand.Fits (v : View κ ν) : Errand κ ν → Prop
  | .store _ => True
  | .promote k _ stale => v.index.find? k = some stale

/-- The fresh node was not evicted, and came into the index. -/
def Sequel.Fits (v : View κ ν) : Sequel κ ν → Prop
  | .settle _ fresh _ => v.evicted fresh = false
  | .finish _ => False

/-- Nobody else has changed what the call relies on. -/
def Stage.Fits (v : View κ ν) : Stage κ ν → Prop
  | .displace e cut => v.index.find? e.key = some cut.target
  | .withdraw k _ cut => v.index.find? k = some cut.target
  | .recheck k _ x => v.index.find? k = some x
  | .push g | .front g => g.Fits v
  | .publish _ fresh => v.evicted fresh = false
  | .replace k _ stale fresh => v.index.find? k = some stale ∧ v.evicted fresh = false
  | .discard _ next | .discarding _ next => next.Fits v
  | .settle .. => False
  | .evicting cut _ => v.recent.getLast? = some cut.target ∧ v.capacity < v.index.size
  | .purge k x _ => v.index.find? k = some x ∧ v.index.size ≤ v.capacity + 1
  | .find _ | .fetch _ | .evict _ | .probe _ => True

end Outlook

/-- The successor that a deletion noted is still there, so that the deletion wins. -/
def Current (ch : Chain (Entry Nat κ ν)) (cut : Cut) : Prop := (ch.node cut.target).next = .node cut.after

instance (ch : Chain (Entry Nat κ ν)) (cut : Cut) : Decidable (Current ch cut) :=
  inferInstanceAs (Decidable ((ch.node cut.target).next = .node cut.after))

/-- The number of stages that may follow, or seven if a deletion is to be lost. -/
def Stage.rank (ch : Chain (Entry Nat κ ν)) : Stage κ ν → Nat
  | .find _ | .fetch _ | .recheck .. => 6
  | .displace _ cut | .withdraw _ _ cut => if Current ch cut then 5 else 7
  | .push _ => 5
  | .front _ => 4
  | .publish .. | .replace .. | .discard .. | .settle .. => 3
  | .discarding cut _ => if Current ch cut then 2 else 7
  | .evict _ => 2
  | .evicting cut _ => if Current ch cut then 1 else 7
  | .purge .. | .probe _ => 0

theorem Stage.rank_le (ch : Chain (Entry Nat κ ν)) (st : Stage κ ν) : st.rank ch ≤ 7 := by
  unfold rank
  split
  all_goals first | omega | (split <;> omega)

/-- A deletion that wins if nothing comes between ranks low. -/
theorem rank_of_current {ch : Chain (Entry Nat κ ν)} {cut : Cut} {n m : Nat} (h : Current ch cut) (hn : n < m) :
    (if Current ch cut then n else 7) < m := by
  rw [if_pos h]
  exact hn

/-- A deletion with another successor is lost. -/
theorem finishDelete_of_not_current {ch : Chain (Entry Nat κ ν)} {cut : Cut} (h : ¬Current ch cut) :
    ch.finishDelete cut = (ch, false) := if_neg h

section Steers

variable [BEq κ]

/-- The call is on the way to `goal`, or there, and its rank is below `n`. -/
def Steers (goal : View κ ν × Reply κ ν) (n : Nat) : Advance κ ν → Prop
  | (c, .pause st) => st.Fits c.view ∧ st.outlook c.view = goal ∧ st.rank c.chain < n
  | (c, .done r) => (c.view, r) = goal

variable {c : Cache κ ν} {stages : List (Stage κ ν)} {x : NodeId} {k : κ} {e : Entry Nat κ ν} {r : Reply κ ν}
  {goal : View κ ν × Reply κ ν} {n m : Nat} {p : Advance κ ν}

theorem Steers.mono (h : Steers goal n p) (hn : n ≤ m) : Steers goal m p := by
  obtain ⟨c, out⟩ := p
  cases out with
  | pause st => exact ⟨h.1, h.2.1, Nat.lt_of_lt_of_le h.2.2 hn⟩
  | done r => exact h

/-! ## Parts of stages -/

/-- A deletion of a live node begins, and wins if nothing comes between. -/
theorem beginDelete_live {ch : Chain (Entry Nat κ ν)} {slots : List (κ × NodeId)} (h : Coherent ch slots stages)
    (hd : ch.isDeleted x = false) (hs : ch.isSentinel x = false) :
    ∃ cut, ch.beginDelete x = some cut ∧ cut.target = x ∧ Current ch cut := by
  obtain ⟨order, hsound⟩ := h.sound
  rcases hsound.beginDelete ((hsound.laid.mem x).mpr (Chain.lt_size_of_not_isSentinel hs)) with
    ⟨-, hs' | hd'⟩ | ⟨cut, hb, ht, -, -, hn⟩
  · rw [hs'] at hs
    cases hs
  · rw [hd'] at hd
    cases hd
  · refine ⟨cut, hb, ht, ?_⟩
    rw [Current, ht, hn]

/-- The last live node is evicted if there are too many. -/
theorem steers_evict (h : Coherent c.chain c.index.slots stages) : Steers (c.view.trim, r) 2 (c.evict r) := by
  unfold evict
  split
  · next hle =>
    show (c.view, r) = _
    rw [View.trim_of_le (v := c.view) hle]
  · next hgt =>
    obtain ⟨order, hsound⟩ := h.sound
    obtain ⟨hsound', a, -⟩ := hsound.back hsound.laid.trailer_mem
    have hc : Coherent (c.chain.back Chain.trailer).1 c.index.slots stages := (back_trailer h).1
    have hview : view { c with chain := (c.chain.back Chain.trailer).1 } = c.view :=
      view_alike a (hsound.recent_alike hsound' a)
    have hlast : (c.chain.back Chain.trailer).2 = c.view.recent.getLast? := hsound.recent_back
    cases hb : c.chain.back Chain.trailer with
    | mk chain found =>
      rw [hb] at hc a hview hlast
      cases found with
      | none =>
        show (view { c with chain := chain }, r) = _
        rw [hview, View.trim_of_none hlast.symm]
      | some y =>
        have hy : y ∈ c.chain.recent := List.mem_of_getLast? hlast.symm
        obtain ⟨hd, hs⟩ := h.mem_recent.mp hy
        obtain ⟨cut, hcut, ht, hcurrent⟩ := beginDelete_live hc ((a.deleted y).trans hd) ((a.isSentinel y).trans hs)
        dsimp only
        rw [hcut]
        refine ⟨?_, ?_, ?_⟩
        · rw [hview, Stage.Fits, ← hlast, ht]
          exact ⟨rfl, Nat.lt_of_not_le hgt⟩
        · rw [hview]
          rfl
        · exact rank_of_current hcurrent (by decide)

theorem steers_settle {fresh : NodeId} (h : Coherent c.chain c.index.slots stages)
    (hfresh : c.chain.isEvicted fresh = false) : Steers (c.view.trim, r) 2 (c.settle k fresh r) := by
  rw [settle, hfresh]
  exact steers_evict h

/-- The node discarded is deleted, so its link is given back. -/
theorem steers_release {fresh : NodeId} (h : Coherent c.chain c.index.slots (.discard x (.settle k fresh r) :: stages))
    (hd : c.chain.isDeleted x = true) (hfresh : c.chain.isEvicted fresh = false) :
    Steers ((c.view.bury x).trim, r) 2 (c.discard x (.settle k fresh r)) := by
  obtain ⟨a, hrecent⟩ := h.alike_release (List.mem_append_right _ List.mem_cons_self)
  have hview : (c.release x).view = c.view.bury x := by
    have hgone : c.view.bury x = c.view := by
      refine View.bury_of_not_mem fun hx => ?_
      rw [(h.mem_recent.mp hx).1] at hd
      cases hd
    rw [hgone]
    exact view_alike a hrecent
  rw [discard, if_pos hd, ← hview]
  exact steers_settle (c := c.release x) (h.discard hd) ((a.evicted fresh).trans hfresh)

/-- The node discarded is deleted, unless it is already. -/
theorem steers_discard {fresh : NodeId} (h : Coherent c.chain c.index.slots (.discard x (.settle k fresh r) :: stages))
    (hfresh : c.chain.isEvicted fresh = false) :
    Steers ((c.view.bury x).trim, r) 3 (c.discard x (.settle k fresh r)) := by
  cases hd : c.chain.isDeleted x with
  | true => exact (steers_release h hd hfresh).mono (by decide)
  | false =>
    have hs : c.chain.isSentinel x = false := (h.knows _ List.mem_cons_self).1
    obtain ⟨cut, hcut, ht, hcurrent⟩ := beginDelete_live h hd hs
    rw [discard, hd, hcut]
    refine ⟨hfresh, ?_, ?_⟩
    · rw [Stage.outlook, ht]
      rfl
    · exact rank_of_current hcurrent (by decide)

theorem steers_push {g : Errand κ ν} (h : Coherent c.chain c.index.slots stages) (hg : g.Knows c.chain)
    (hf : g.Fits c.view) : Steers (g.outlook c.view) 5 (c.push g) := by
  obtain ⟨ch, hb, -, a, hr⟩ := h.beginFront hg
  have hview : view { c with chain := ch } = c.view := view_alike a hr
  rw [push, hb]
  refine ⟨?_, ?_, Nat.lt_succ_self 4⟩
  · rw [hview]
    exact hf
  · rw [hview]
    rfl

theorem steers_withdraw (h : Coherent c.chain c.index.slots stages) (hf : c.index.find? k = some x)
    (hk : Carries c.chain x k e) (hd : c.chain.isDeleted x = false) :
    Steers ((Errand.promote k e x).outlook (c.view.bury x)) 6 (c.withdraw k e x) := by
  have hs : c.chain.isSentinel x = false := hk.bears.not_isSentinel
  obtain ⟨cut, hcut, ht, hcurrent⟩ := beginDelete_live h hd hs
  rw [withdraw, hcut]
  refine ⟨?_, ?_, ?_⟩
  · rw [Stage.Fits, ht]
    exact hf
  · rw [Stage.outlook, ht]
  · exact rank_of_current hcurrent (by decide)

/-! ## Stages -/

/-- A deletion that wins is seen as one. -/
theorem finishDelete_current {cut : Cut} (h : Coherent c.chain c.index.slots stages)
    (hs : c.chain.isSentinel cut.target = false) (hx : cut.target ∉ stages.flatMap Stage.fresh)
    (hcurrent : Current c.chain cut) :
    ∃ ch, c.chain.finishDelete cut = (ch, true) ∧ Coherent ch c.index.slots stages ∧
      Buries c.chain ch cut.target ∧ view { c with chain := ch } = c.view.bury cut.target := by
  obtain ⟨order, hsound⟩ := h.sound
  obtain ⟨hw, hsound', b⟩ := hsound.finishDelete_won hs hcurrent
  rcases h.finishDelete hs hx with ⟨-, hc, -⟩ | hl
  · exact ⟨(c.chain.finishDelete cut).1, by rw [← hw], hc, b, view_buries hsound hsound' b⟩
  · rw [hl] at hw
    cases hw

theorem steers_find (h : Coherent c.chain c.index.slots (.find e :: stages)) :
    Steers ((Errand.store e).outlook c.view) 6 (resume (.find e) c) := by
  have hc := h.tail rfl
  have hpush : Steers ((Errand.store e).outlook c.view) 6 (c.push (.store e)) :=
    (steers_push (g := .store e) hc trivial trivial).mono (by decide)
  rw [resume]
  cases hf : c.index.find? e.key with
  | none => exact hpush
  | some x =>
    rw [Option.bind_some]
    cases hb : c.chain.beginDelete x with
    | none => exact hpush
    | some cut =>
      obtain ⟨ht, -, hn⟩ := Chain.beginDelete_some hb
      refine ⟨?_, rfl, ?_⟩
      · rw [Stage.Fits, ht]
        exact hf
      · have hcurrent : Current c.chain cut := by rw [Current, ht, hn]
        exact rank_of_current hcurrent (by decide)

/-- Whether the node found is deleted now or when it is displaced makes no difference. -/
theorem steers_displace {cut : Cut} (h : Coherent c.chain c.index.slots (.displace e cut :: stages))
    (hf : c.index.find? e.key = some cut.target) :
    Steers ((Errand.store e).outlook c.view) (Stage.rank c.chain (.displace e cut)) (resume (.displace e cut) c) := by
  have hb : Bears c.chain cut.target e.key := h.knows _ List.mem_cons_self
  rw [resume, Stage.rank]
  by_cases hcurrent : Current c.chain cut
  · obtain ⟨ch, hfin, hc, -, hview⟩ :=
      finishDelete_current h hb.not_isSentinel (not_fresh_of_sought h List.mem_cons_self) hcurrent
    -- the node is deleted now; if the deletion were lost, `publish` would see to it
    have hsame : (Errand.store e).outlook c.view = (Errand.store e).outlook (view { c with chain := ch }) := by
      have hpublish := View.publish_grow_bury (v := c.view) (x := c.view.nodes) (e := e) hf
      rw [hview, Errand.outlook, Errand.outlook, ← hpublish]
      rfl
    rw [hfin, if_pos hcurrent, hsame]
    exact steers_push (c := { c with chain := ch }) (g := .store e) (hc.tail rfl) trivial trivial
  · rw [finishDelete_of_not_current hcurrent, if_neg hcurrent]
    exact (steers_push (g := .store e) (h.tail rfl) trivial trivial).mono (by decide)

theorem steers_fetch [EquivBEq κ] (h : Coherent c.chain c.index.slots (.fetch k :: stages))
    (hlive : ∀ x ∈ c.index.nodes, c.chain.isDeleted x = false) :
    Steers ((Stage.fetch k).outlook c.view) 6 (resume (.fetch k) c) := by
  have hc := h.tail rfl
  rw [resume, Stage.outlook]
  cases hf : c.index.find? k with
  | none =>
    have hv : c.view.index.find? k = none := hf
    rw [hv]
    rfl
  | some x =>
    obtain ⟨e, he, hk⟩ := hc.filed.bears_of_lookup hf
    have hv : c.view.index.find? k = some x := hf
    have hcar : c.view.carried x = some e := he
    rw [hv]
    dsimp only
    rw [hcar, he]
    exact steers_withdraw hc hf ⟨he, hk⟩ (hlive x (Index.mem_nodes_of_lookup hf))

/-- A promotion that loses tries again. -/
theorem steers_withdrawing {cut : Cut} (h : Coherent c.chain c.index.slots (.withdraw k e cut :: stages))
    (hf : c.index.find? k = some cut.target) (hd : c.chain.isDeleted cut.target = false) :
    Steers ((Stage.withdraw k e cut).outlook c.view) (Stage.rank c.chain (.withdraw k e cut))
      (resume (.withdraw k e cut) c) := by
  have hk : Carries c.chain cut.target k e := h.knows _ List.mem_cons_self
  rw [resume, Stage.rank, Stage.outlook]
  by_cases hcurrent : Current c.chain cut
  · obtain ⟨ch, hfin, hc, b, hview⟩ :=
      finishDelete_current h hk.bears.not_isSentinel (not_fresh_of_sought h List.mem_cons_self) hcurrent
    have hdead : ch.isDeleted cut.target = true := by rw [b.deleted, if_pos rfl]
    rw [hfin, if_pos hcurrent, ← hview]
    exact steers_push (c := { c with chain := ch }) (hc.tail rfl) ⟨hk.ages b.ages, hdead⟩ hf
  · rw [finishDelete_of_not_current hcurrent, if_neg hcurrent]
    -- the node lives, so only its successor has changed, and the call looks for it again
    show Steers _ 7 (c.lose k e cut.target)
    rw [lose, hd]
    exact ⟨hf, rfl, Nat.lt_succ_self 6⟩

theorem steers_front {g : Errand κ ν} (h : Coherent c.chain c.index.slots (.front g :: stages)) (hf : g.Fits c.view) :
    Steers (g.outlook c.view) 4 (resume (.front g) c) := by
  obtain ⟨-, -, gr, hr⟩ := h.finishFront
  have hview := view_grows gr hr
  have hunmarked : (c.view.grow g.entry).evicted c.chain.size = false := by
    rw [← hview]
    exact gr.unmarked
  rw [resume_front h]
  cases g with
  | store e =>
    refine ⟨?_, ?_, Nat.lt_succ_self 3⟩
    · rw [hview]
      exact hunmarked
    · rw [hview]
      rfl
  | promote k e stale =>
    refine ⟨?_, ?_, Nat.lt_succ_self 3⟩
    · rw [hview]
      exact ⟨hf, hunmarked⟩
    · rw [hview]
      rfl

theorem steers_publish [EquivBEq κ] (h : Coherent c.chain c.index.slots (.publish e x :: stages))
    (hfresh : c.chain.isEvicted x = false) :
    Steers ((Stage.publish e x).outlook c.view) 3 (resume (.publish e x) c) := by
  have hk : c.chain.carried? x = some e := h.knows _ List.mem_cons_self
  let c' : Cache κ ν := { c with index := ⟨Index.assign e.key x c.index.slots⟩ }
  rw [resume, Index.publish, Stage.outlook, View.publish]
  cases hf : c.index.find? e.key with
  | none =>
    have hv : c.view.index.find? e.key = none := hf
    rw [hv]
    exact (steers_settle (c := c') (h.publish_new hf) hfresh).mono (by decide)
  | some y =>
    have hv : c.view.index.find? e.key = some y := hf
    rw [hv]
    exact steers_discard (c := c') (h.publish_over (.settle e.key x .stored) hf ⟨e, hk, BEq.rfl⟩) hfresh

theorem steers_replace [EquivBEq κ] {stale : NodeId} (h : Coherent c.chain c.index.slots (.replace k e stale x :: stages))
    (hf : c.index.find? k = some stale) (hfresh : c.chain.isEvicted x = false) :
    Steers ((Stage.replace k e stale x).outlook c.view) 3 (resume (.replace k e stale x) c) := by
  let c₁ : Cache κ ν := { c with index := ⟨Index.assign k x c.index.slots⟩ }
  obtain ⟨a, hrecent⟩ := h.alike_release (List.mem_append_left _ (Index.mem_nodes_of_lookup hf))
  have hview : (c₁.release stale).view = c.view.assign k x := view_alike (c := c₁) a hrecent
  rw [resume, Index.replace, if_pos hf, Stage.outlook, ← hview]
  exact (steers_settle (c := c₁.release stale) (h.replace hf) ((a.evicted x).trans hfresh)).mono (by decide)

/-- A node that left the index is deleted in the end. -/
theorem steers_discarding {cut : Cut} {fresh : NodeId}
    (h : Coherent c.chain c.index.slots (.discarding cut (.settle k fresh r) :: stages))
    (hfresh : c.chain.isEvicted fresh = false) :
    Steers ((c.view.bury cut.target).trim, r) (Stage.rank c.chain (.discarding cut (.settle k fresh r)))
      (resume (.discarding cut (.settle k fresh r)) c) := by
  have hs : c.chain.isSentinel cut.target = false := (h.knows _ List.mem_cons_self).1
  rw [resume, Stage.rank]
  by_cases hcurrent : Current c.chain cut
  · obtain ⟨ch, hfin, hc, b, hview⟩ := finishDelete_current h hs h.not_fresh_of_discarding hcurrent
    have hdead : ch.isDeleted cut.target = true := by rw [b.deleted, if_pos rfl]
    have hsame : c.view.bury cut.target = (view { c with chain := ch }).bury cut.target := by
      rw [hview, View.bury_bury]
    rw [hfin, if_pos hcurrent, hsame]
    exact steers_release (c := { c with chain := ch }) hc.discarded hdead ((b.evicted fresh).trans hfresh)
  · rw [finishDelete_of_not_current hcurrent, if_neg hcurrent]
    exact (steers_discard h.discarded hfresh).mono (by decide)

/-- With no other call in progress the last live node is in the index. -/
theorem find_last [EquivBEq κ] {st : Stage κ ν} (h : Coherent c.chain c.index.slots [st]) (hst : st.possessed = [])
    (hlast : c.chain.recent.getLast? = some x) : ∃ e, c.chain.carried? x = some e ∧ c.index.find? e.key = some x := by
  obtain ⟨hd, hs⟩ := h.mem_recent.mp (List.mem_of_getLast? hlast)
  have hm : x ∈ c.index.nodes := by
    have hcover := h.custody.cover x hd hs
    rw [List.flatMap_cons, List.flatMap_nil, hst, List.append_nil, List.append_nil] at hcover
    exact hcover
  obtain ⟨slot, hslot, hx⟩ := List.mem_map.mp hm
  obtain ⟨e, he, hk⟩ := h.filed.keyed slot hslot
  rw [hx] at he
  exact ⟨e, he, h.filed.lookup_of_bears hm ⟨e, he, BEq.rfl⟩⟩

/-- A node that was evicted leaves the index next. -/
theorem steers_evicting [EquivBEq κ] {cut : Cut} (h : Coherent c.chain c.index.slots [.evicting cut r])
    (hlast : c.chain.recent.getLast? = some cut.target) (hfull : c.capacity < c.size) (hsize : c.size ≤ c.capacity + 1) :
    Steers (c.view.trim, r) (Stage.rank c.chain (.evicting cut r)) (resume (.evicting cut r) c) := by
  have hs : c.chain.isSentinel cut.target = false := h.knows _ List.mem_cons_self
  rw [resume, Stage.rank]
  by_cases hcurrent : Current c.chain cut
  · obtain ⟨e, he, hf⟩ := find_last h rfl hlast
    obtain ⟨ch, hfin, hc, b, hview⟩ := finishDelete_current h hs List.not_mem_nil hcurrent
    obtain ⟨order, hsound⟩ := hc.sound
    have hlt : cut.target < ch.size := by
      rw [b.size]
      exact Chain.lt_size_of_not_isSentinel hs
    let c₁ : Cache κ ν := { c with chain := ch.markEvicted cut.target }
    have hmark : c₁.view = (c.view.bury cut.target).mark cut.target := by
      rw [← hview]
      exact view_mark (c := { c with chain := ch }) hsound hlt
    have he₁ : c₁.chain.carried? cut.target = some e := by
      rw [Chain.carried_markEvicted hlt, b.carried, he]
    have htrim : c.view.trim = c₁.view.erase e.key := by
      rw [View.trim_of_last hfull hlast he, hmark]
    have hroom : (c₁.view.erase e.key).trim = c₁.view.erase e.key := by
      have hlen : (Index.erase e.key c.index.slots).length + 1 = c.size := Index.length_erase hf
      refine View.trim_of_le ?_
      show (Index.erase e.key c.index.slots).length ≤ c.capacity
      omega
    rw [hfin, if_pos hcurrent]
    dsimp only
    rw [he₁]
    refine ⟨⟨hf, hsize⟩, ?_, Nat.zero_lt_one⟩
    show ((c₁.view.erase e.key).trim, r) = _
    rw [hroom, htrim]
  · rw [finishDelete_of_not_current hcurrent, if_neg hcurrent]
    exact (steers_evict (h.tail rfl)).mono (by decide)

/-- Then there are not too many any more. -/
theorem steers_purge (h : Coherent c.chain c.index.slots (.purge k x r :: stages)) (hf : c.index.find? k = some x)
    (hsize : c.size ≤ c.capacity + 1) :
    Steers ((c.view.erase k).trim, r) 0 (resume (.purge k x r) c) := by
  let c₁ : Cache κ ν := { c with index := ⟨Index.erase k c.index.slots⟩ }
  obtain ⟨a, hrecent⟩ := h.alike_release (List.mem_append_left _ (Index.mem_nodes_of_lookup hf))
  have hview : (c₁.release x).view = c.view.erase k := view_alike (c := c₁) a hrecent
  let c₂ : Cache κ ν := (c₁.release x).note (.evicted c.capacity)
  have hroom : c₂.size ≤ c₂.capacity := by
    have hlen : (Index.erase k c.index.slots).length + 1 = c.size := Index.length_erase hf
    show (Index.erase k c.index.slots).length ≤ c.capacity
    omega
  have htrim : (c.view.erase k).trim = c.view.erase k := View.trim_of_le hroom
  have hresume : resume (.purge k x r) c = c₂.evict r := by rw [resume, Index.removeIf, if_pos hf]
  rw [hresume, evict, if_pos hroom, htrim, ← hview]
  rfl

/-- **Every stage keeps to the outlook**, whatever was done to links, hints and deleted nodes before. -/
theorem steers_resume [EquivBEq κ] {st : Stage κ ν} (h : Coherent c.chain c.index.slots [st])
    (hlive : ∀ x ∈ c.index.nodes, c.chain.isDeleted x = true → st.Answers c.chain x)
    (hsize : c.size ≤ c.capacity + 1) (hf : st.Fits c.view) :
    Steers (st.outlook c.view) (st.rank c.chain) (resume st c) := by
  have live (hn : ∀ x, ¬st.Answers c.chain x) (x : NodeId) (hx : x ∈ c.index.nodes) : c.chain.isDeleted x = false :=
    Bool.eq_false_iff.mpr fun hd => hn x (hlive x hx hd)
  cases st with
  | find e => exact steers_find h
  | displace e cut => exact steers_displace h hf
  | fetch k => exact steers_fetch h (live fun _ => id)
  | withdraw k e cut => exact steers_withdrawing h hf (live (fun _ => id) _ (Index.mem_nodes_of_lookup hf))
  | recheck k e x =>
    have hfound : c.index.find? k = some x := hf
    rw [resume, if_pos hfound]
    exact steers_withdraw (h.tail rfl) hfound (h.knows _ List.mem_cons_self)
      (live (fun _ => id) x (Index.mem_nodes_of_lookup hf))
  | push g => exact steers_push (h.tail rfl) (h.knows _ List.mem_cons_self) hf
  | front g => exact steers_front h hf
  | publish e fresh => exact steers_publish h hf
  | replace k e stale fresh => exact steers_replace h hf.1 hf.2
  | discard x next =>
    cases next with
    | settle k fresh r => exact steers_discard h hf
    | finish r => exact False.elim hf
  | discarding cut next =>
    cases next with
    | settle k fresh r => exact steers_discarding h hf
    | finish r => exact False.elim hf
  | settle k fresh r => exact False.elim hf
  | evict r => exact steers_evict (h.tail rfl)
  | evicting cut r => exact steers_evicting h hf.1 hf.2 hsize
  | purge k x r => exact steers_purge h hf.1 hsize
  | probe k => exact rfl

end Steers
end LeastRecent.Cache
