import LeastRecent.Proofs.Cache.Headway
import LeastRecent.Proofs.Cache.Trace
import LeastRecent.Proofs.Interleave.Endings

/-!
# Every call of a cache ends

In a cache nodes are put in front only, so the order of all nodes ever linked is known: the latest comes first
(`lineage`). It is the chronicle of the chain (`chronicle`), in which hints lead backward at all times.

A session is finished in the time allowed, whatever interrupts what (`session_finished`): each call makes headway with
each stage, by a rank that is bounded by the number of calls in progress. No call goes back to an earlier stage but to
evict another entry, or to try a deletion again that it lost (`Proceeds`, `proceeds_resume`). It loses a deletion only if
a call that came between changed the pointer of the node (`Disturbed`, `lost_disturbed`).
-/

namespace LeastRecent.Cache

open Chain (Backward Chronicle Cut Extends Laid Sound header insertBehind trailer)

variable {κ ν : Type}

/-! ## What a call does again -/

/-- The deletion that a call is in the middle of. -/
def Stage.cut? : Stage κ ν → Option Cut
  | .displace _ cut | .withdraw _ _ cut | .discarding cut _ | .evicting cut _ => some cut
  | _ => none

/-- How far a call has got at a stage. -/
@[simp] def Stage.phase : Stage κ ν → Nat
  | .find _ | .fetch _ | .recheck .. | .probe _ => 0
  | .displace .. | .withdraw .. => 1
  | .push _ => 2
  | .front _ => 3
  | .publish .. | .replace .. => 4
  | .discard .. => 5
  | .discarding .. => 6
  | .settle .. => 7
  | .evict _ => 8
  | .evicting .. => 9
  | .purge .. => 10

/-- The call goes back to try a deletion again: of the node to promote, if that is still the one; of the node to be
discarded; of the least recent node. -/
inductive Again : Stage κ ν → Stage κ ν → Prop
  | withdraw (k : κ) (e : Entry Nat κ ν) (cut : Cut) : Again (.withdraw k e cut) (.recheck k e cut.target)
  | discarding (cut cut' : Cut) (next : Sequel κ ν) (h : cut'.target = cut.target) :
    Again (.discarding cut next) (.discarding cut' next)
  | evicting (cut cut' : Cut) (r : Reply κ ν) : Again (.evicting cut r) (.evicting cut' r)

/-- From one stage a call gets on to a later one, or it has lost a deletion and tries again, or it has evicted an entry
and evicts another. -/
inductive Proceeds (ch : Chain (Entry Nat κ ν)) : Stage κ ν → Stage κ ν → Prop
  | on {st st' : Stage κ ν} (h : st.phase < st'.phase) : Proceeds ch st st'
  | again {st st' : Stage κ ν} {cut : Cut} (hcut : st.cut? = some cut) (hlost : (ch.finishDelete cut).2 = false)
    (h : Again st st') : Proceeds ch st st'
  | next (k : κ) (x : NodeId) (cut : Cut) (r : Reply κ ν) : Proceeds ch (.purge k x r) (.evicting cut r)

/-- A later phase. -/
theorem Proceeds.of_le {ch : Chain (Entry Nat κ ν)} {st st' : Stage κ ν} {n : Nat} (hn : n ≤ st'.phase)
    (h : st.phase < n) : Proceeds ch st st' :=
  .on (Nat.lt_of_lt_of_le h hn)

section Proceeds

variable {c : Cache κ ν} {stages : List (Stage κ ν)} {st st' : Stage κ ν} {x : NodeId} {k : κ} {r : Reply κ ν}
  {next : Sequel κ ν}

/-- An eviction repeats itself at once, or is in the middle of a deletion. -/
theorem stages_evict (hst : st' ∈ (c.evict r).2.stages) : st' = .evict r ∨ ∃ cut, st' = .evicting cut r := by
  unfold evict at hst
  split at hst
  · cases hst
  · split at hst
    · cases hst
    · split at hst
      · exact Or.inl (List.mem_singleton.mp hst)
      · exact Or.inr ⟨_, List.mem_singleton.mp hst⟩

theorem phase_evict (hst : st' ∈ (c.evict r).2.stages) : 8 ≤ st'.phase := by
  rcases stages_evict hst with rfl | ⟨cut, rfl⟩
  · exact Nat.le_refl 8
  · exact Nat.le_succ 8

theorem phase_settle (hst : st' ∈ (c.settle k x r).2.stages) : 7 ≤ st'.phase := by
  unfold settle at hst
  split at hst
  · rw [List.mem_singleton.mp hst]
    exact Nat.le_refl 7
  · exact Nat.le_of_succ_le (phase_evict hst)

theorem phase_proceed (hst : st' ∈ (c.proceed next).2.stages) : 7 ≤ st'.phase := by
  cases next with
  | settle k fresh r => exact phase_settle hst
  | finish r => cases hst

/-- A discard repeats itself at once, or is in the middle of a deletion, or is done with it. -/
theorem stages_discard (hst : st' ∈ (c.discard x next).2.stages) :
    st' = .discard x next ∨ (∃ cut, st' = .discarding cut next ∧ cut.target = x) ∨ 7 ≤ st'.phase := by
  unfold discard at hst
  split at hst
  · exact Or.inr (Or.inr (phase_proceed hst))
  · split at hst
    · exact Or.inl (List.mem_singleton.mp hst)
    · next cut hcut => exact Or.inr (Or.inl ⟨cut, List.mem_singleton.mp hst, (Chain.beginDelete_some hcut).1⟩)

theorem phase_discard (hst : st' ∈ (c.discard x next).2.stages) : 5 ≤ st'.phase := by
  rcases stages_discard hst with rfl | ⟨cut, rfl, -⟩ | h
  · exact Nat.le_refl 5
  · exact Nat.le_succ 5
  · omega

theorem phase_push {g : Errand κ ν} (hst : st' ∈ (c.push g).2.stages) : 2 ≤ st'.phase := by
  unfold push at hst
  split at hst
  · rw [List.mem_singleton.mp hst]
    exact Nat.le_refl 2
  · rw [List.mem_singleton.mp hst]
    exact Nat.le_succ 2

/-- After a lost deletion the node to promote is looked for once more. -/
theorem stages_lose {e : Entry Nat κ ν} (hst : st' ∈ (c.lose k e x).2.stages) : st' = .recheck k e x := by
  unfold lose at hst
  split at hst
  · cases hst
  · exact List.mem_singleton.mp hst

variable [BEq κ]

/-- A live node is withdrawn from its place. -/
theorem stages_withdraw {e : Entry Nat κ ν} (h : Coherent c.chain c.index.slots stages) (hk : Carries c.chain x k e)
    (hst : st' ∈ (c.withdraw k e x).2.stages) : ∃ cut, st' = .withdraw k e cut ∧ cut.target = x := by
  cases hb : c.chain.beginDelete x with
  | some cut =>
    rw [withdraw, hb] at hst
    exact ⟨cut, List.mem_singleton.mp hst, (Chain.beginDelete_some hb).1⟩
  | none =>
    cases hd : c.chain.isDeleted x with
    | true =>
      rw [withdraw, hb, lose, if_pos hd] at hst
      cases hst
    | false =>
      obtain ⟨cut, hcut, -⟩ := beginDelete_live h hd hk.bears.not_isSentinel
      rw [hb] at hcut
      cases hcut

variable (h : Coherent c.chain c.index.slots (st :: stages)) (hst : st' ∈ (resume st c).2.stages)
include h hst

/-- **A call that goes on** gets on, or it evicts another entry, or it tries a deletion again. -/
theorem proceeds_resume [EquivBEq κ] : Proceeds c.chain st st' := by
  have hknows := h.knows _ List.mem_cons_self
  have hready : st'.Ready (resume st c).1.chain := by
    obtain ⟨order, hs⟩ := h.sound
    exact (heads_resume h hs.laid).ready st' hst
  cases st with
  | find e =>
    rw [resume] at hst
    split at hst
    · exact .of_le (phase_push hst) (by simp)
    · rw [List.mem_singleton.mp hst]
      exact .on (by simp)
  | displace e cut => exact .of_le (phase_push hst) (by simp)
  | fetch k =>
    rw [resume] at hst
    cases hf : c.index.find? k with
    | none =>
      rw [hf] at hst
      cases hst
    | some x =>
      obtain ⟨e, he, hk⟩ := h.filed.bears_of_lookup hf
      rw [hf] at hst
      dsimp only at hst
      rw [he] at hst
      obtain ⟨cut, rfl, -⟩ := stages_withdraw (h.tail rfl) ⟨he, hk⟩ hst
      exact .on (by simp)
  | withdraw k e cut =>
    rw [resume] at hst
    split at hst
    · exact .of_le (phase_push hst) (by simp)
    · next hfin =>
      rw [stages_lose hst]
      exact .again rfl (congrArg Prod.snd hfin) (.withdraw k e cut)
  | recheck k e x =>
    rw [resume] at hst
    split at hst
    · obtain ⟨cut, rfl, -⟩ := stages_withdraw (h.tail rfl) hknows hst
      exact .on (by simp)
    · cases hst
  | push g =>
    rw [resume, push] at hst
    split at hst
    · rw [List.mem_singleton.mp hst] at hready
      cases hready
    · rw [List.mem_singleton.mp hst]
      exact .on (by simp)
  | front g =>
    rw [resume_front h] at hst
    rw [List.mem_singleton.mp hst]
    cases g <;> exact .on (by simp [Errand.landed])
  | publish e fresh =>
    rw [resume] at hst
    split at hst
    · exact .of_le (phase_settle hst) (by simp)
    · exact .of_le (phase_discard hst) (by simp)
  | replace k e stale fresh =>
    rw [resume] at hst
    split at hst
    · exact .of_le (phase_settle hst) (by simp)
    · exact .of_le (phase_discard hst) (by simp)
  | discard x next =>
    rcases stages_discard hst with rfl | ⟨cut, rfl, -⟩ | hlater
    · cases hready
    · exact .on (by simp)
    · exact .of_le hlater (by simp)
  | discarding cut next =>
    by_cases hcurrent : Current c.chain cut
    · -- the node is deleted now, so its link is given back
      obtain ⟨order, hs⟩ := h.sound
      have b := (hs.finishDelete_won hknows.1 hcurrent).2.2
      have hdead : (c.chain.finishDelete cut).1.isDeleted cut.target = true := by rw [b.deleted, if_pos rfl]
      rw [resume, discard, if_pos hdead] at hst
      exact .of_le (phase_proceed hst) (by simp)
    · rcases stages_discard hst with rfl | ⟨cut', rfl, ht⟩ | hlater
      · cases hready
      · exact .again rfl (congrArg Prod.snd (finishDelete_of_not_current hcurrent)) (.discarding cut cut' next ht)
      · exact .of_le hlater (by simp)
  | settle k x r =>
    rw [resume] at hst
    split at hst <;> exact .of_le (phase_evict hst) (by simp)
  | evict r =>
    rcases stages_evict hst with rfl | ⟨cut, rfl⟩
    · cases hready
    · exact .on (by simp)
  | evicting cut r =>
    rw [resume] at hst
    cases hfin : c.chain.finishDelete cut with
    | mk ch won =>
      have hwon : (c.chain.finishDelete cut).2 = won := congrArg Prod.snd hfin
      cases won with
      | true =>
        obtain ⟨e, -, he, -⟩ := resume_evicting h hwon
        rw [hfin] at hst he
        dsimp only at hst he
        rw [he] at hst
        rw [List.mem_singleton.mp hst]
        exact .on (by simp)
      | false =>
        rw [hfin] at hst
        rcases stages_evict hst with rfl | ⟨cut', rfl⟩
        · cases hready
        · exact .again rfl hwon (.evicting cut cut' r)
  | purge k x r =>
    rw [resume] at hst
    split at hst
    all_goals
      rcases stages_evict hst with rfl | ⟨cut, rfl⟩
      · cases hready
      · exact .next k x cut r
  | probe k => cases hst

end Proceeds

/-- A call that is not putting a node in front leaves the order as it is. -/
theorem Stage.lineUp_of_ne_front {st : Stage κ ν} (hst : ∀ g, st ≠ .front g) (c : Cache κ ν) (order : List NodeId) :
    st.errand? = none ∧ st.lineUp c order = order := by
  cases st with
  | front g => exact absurd rfl (hst g)
  | _ => exact ⟨rfl, rfl⟩

/-- At its beginning a call is in the middle of nothing. -/
theorem Stage.ready_of_phase {ch : Chain (Entry Nat κ ν)} {st : Stage κ ν} (h : st.phase = 0) : st.Ready ch := by
  cases st with
  | find e => trivial
  | fetch k => trivial
  | recheck k e x => trivial
  | probe k => trivial
  | _ => cases h

/-- A deletion that is ready wins if nothing comes between. -/
theorem Stage.Ready.current {ch : Chain (Entry Nat κ ν)} {st : Stage κ ν} {cut : Cut} (h : st.Ready ch)
    (hcut : st.cut? = some cut) : Current ch cut := by
  cases st with
  | displace e cut' => exact Option.some.inj hcut ▸ h
  | withdraw k e cut' => exact Option.some.inj hcut ▸ h
  | discarding cut' next => exact Option.some.inj hcut ▸ h
  | evicting cut' r => exact Option.some.inj hcut ▸ h
  | _ => cases hcut

theorem Stage.Ready.isSome_point {ch : Chain (Entry Nat κ ν)} {st : Stage κ ν} (h : st.Ready ch) :
    st.point.isSome = true := by
  cases st with
  | push g => cases h
  | discard x next => cases h
  | evict r => cases h
  | _ => rfl

namespace Session

open Interleave (Machine Outcome)

/-! ## The order in which all nodes ever linked stand -/

/-- The order of the nodes when `n` of them were put in front, the latest of which is the first. -/
def lineage (n : Nat) : List NodeId := header :: ((List.range' 2 n).reverse ++ [trailer])

theorem lineage_succ (n : Nat) : lineage (n + 1) = insertBehind header (n + 2) (lineage n) := by
  rw [lineage, lineage, List.range'_concat, List.reverse_append, insertBehind, if_pos rfl, Nat.one_mul, Nat.add_comm 2 n]
  rfl

variable [BEq κ] [ToString κ] [ToString ν] {p : Policy} {capacity : Option Nat} {s : Session κ ν}

omit [BEq κ] in
/-- When a request comes, the chain stays as it is or is walked along, and a call that is made is at its beginning. -/
theorem start_chain (hclean : s.cache.chain.fault = none) (r : Request κ ν) :
    ((start r s).1.cache.chain = s.cache.chain ∨ (start r s).1.cache.chain = (s.cache.chain.walk header).1) ∧
      ∀ q ∈ (start r s).2.stages, q.stage.phase = 0 := by
  have hcall (call : Call κ ν) {c : Cache κ ν} {st : Stage κ ν} (hstart : Cache.start call s.cache = (c, .pause st))
      (hc : c.chain = s.cache.chain) (hst : st.phase = 0) :
      ((s.advance r (Cache.start call s.cache)).1.cache.chain = s.cache.chain ∨
          (s.advance r (Cache.start call s.cache)).1.cache.chain = (s.cache.chain.walk header).1) ∧
        ∀ q ∈ (s.advance r (Cache.start call s.cache)).2.stages, q.stage.phase = 0 := by
    have hclean' : (Cache.start call s.cache).1.chain.fault = none := by rw [hstart, hc, hclean]
    refine ⟨Or.inl (by rw [(stages_advance hclean').1, hstart, hc]), fun q hq => ?_⟩
    rw [outcome_advance hclean', hstart] at hq
    rwa [List.mem_singleton.mp hq]
  have hlist (f : List (Entry Nat κ ν) → Answer κ ν) :
      ((s.list f).1.cache.chain = s.cache.chain ∨ (s.list f).1.cache.chain = (s.cache.chain.walk header).1) ∧
        ∀ q ∈ (s.list f).2.stages, q.stage.phase = 0 :=
    ⟨(list_cache s f).imp (congrArg Cache.chain) (congrArg Cache.chain), fun q hq => by cases hq⟩
  cases r with
  | set k v => exact hcall (.set k v) rfl rfl rfl
  | get k => exact hcall (.get k) rfl rfl rfl
  | getEntry k keep => exact hcall (.get k) rfl rfl rfl
  | contains k => exact hcall (.contains k) rfl rfl rfl
  | entries => exact hlist _
  | text => exact hlist _
  | capacity => exact ⟨Or.inl rfl, fun q hq => by cases hq⟩
  | isEmpty => exact ⟨Or.inl rfl, fun q hq => by cases hq⟩
  | held name => exact ⟨Or.inl rfl, fun q hq => by cases hq⟩
  | same a b =>
    obtain ⟨answer, ha⟩ := start_same s a b
    rw [ha]
    exact ⟨Or.inl rfl, fun q hq => by cases hq⟩
  | unhold name => exact ⟨Or.inl rfl, fun q hq => by cases hq⟩

/-- When a request comes, no node is linked, and none changes its place. -/
theorem laid_start {stages : List (Stage κ ν)} {order : List NodeId}
    (h : Coherent s.cache.chain s.cache.index.slots stages) (hl : Laid s.cache.chain order) (r : Request κ ν) :
    Laid (start r s).1.cache.chain order ∧ (start r s).1.cache.chain.size = s.cache.chain.size := by
  rcases (start_chain h.clean r).1 with hc | hc
  · rw [hc]
    exact ⟨hl, rfl⟩
  · rw [hc]
    obtain ⟨hs, a, -⟩ := (h.relay hl).walk hl.header_mem
    exact ⟨hs.laid, a.size⟩

variable [EquivBEq κ] (h : create p capacity = .ok s) (script : Interleave.Script (Request κ ν))
include h

/-- A step leaves the order as it is, or it puts a node in front. -/
theorem laid_step (n : Nat)
    (hl : Laid (moment s script n).state.cache.chain (lineage (linkings s script n).length)) :
    Laid (moment s script (n + 1)).state.cache.chain (lineage (linkings s script (n + 1)).length) ∧
      Extends (moment s script n).state.cache.chain (moment s script (n + 1)).state.cache.chain
        (lineage (linkings s script n).length) (lineage (linkings s script (n + 1)).length) := by
  have hc := coherent_moment h script n
  have hsize := (traced_moment h script n).size
  rw [linkings_succ]
  rcases moment_succ h script n with ⟨hm, hs, -⟩ | ⟨r, hm, hs, -⟩ | ⟨r, st, rest, hm, hrest, hcache, -⟩
  · rw [hm, hs]
    simp only [resumed?, Option.bind_none, Option.toList_none, List.append_nil]
    exact ⟨hl, Or.inl ⟨rfl, rfl⟩⟩
  · obtain ⟨hl', hsize'⟩ := laid_start hc hl r
    rw [hm, hs]
    simp only [resumed?, Option.bind_none, Option.toList_none, List.append_nil]
    exact ⟨hl', Or.inl ⟨hsize', rfl⟩⟩
  · rw [hrest] at hc
    have hheads := (heads_resume hc hl).laid
    rw [hm, hcache]
    simp only [resumed?, Option.bind_some, List.length_append]
    rcases st.front_or with ⟨g, rfl⟩ | hst
    · obtain ⟨-, -, gr, -⟩ := hc.finishFront
      have hchain : (Cache.resume (.front g) (moment s script n).state.cache).1.chain = _ :=
        congrArg (fun p => p.1.chain) (resume_front hc)
      have horder : lineage ((linkings s script n).length + (Stage.front g).errand?.toList.length) =
          insertBehind header (moment s script n).state.cache.chain.size (lineage (linkings s script n).length) := by
        rw [hsize]
        exact lineage_succ _
      rw [horder]
      refine ⟨hheads, ?_⟩
      rw [hchain]
      rcases Chain.pointers_finishInsert (moment s script n).state.cache.chain header g.entry with
        ⟨hsame, -⟩ | ⟨f, hf, hgrown, hq⟩
      · rw [gr.size] at hsame
        omega
      · exact Chain.extends_insert hf hgrown hq
    · obtain ⟨hnone, hline⟩ := Stage.lineUp_of_ne_front hst (moment s script n).state.cache
        (lineage (linkings s script n).length)
      rw [hline] at hheads
      rw [hnone]
      exact ⟨hheads, Or.inl ⟨(leaves_resume hst _).chain.size, rfl⟩⟩

/-- Whatever interrupts what, the nodes stand in the order in which they were put in front, the latest first. -/
theorem laid_moment (n : Nat) :
    Laid (moment s script n).state.cache.chain (lineage (linkings s script n).length) := by
  induction n with
  | zero =>
    show Laid s.cache.chain [header, trailer]
    rw [(create_eq h).1]
    exact Laid.empty p
  | succ n ih => exact (laid_step h script n ih).1

theorem sound_lineage (n : Nat) : Sound (moment s script n).state.cache.chain (lineage (linkings s script n).length)
    ((moment s script n).state.cache.index.nodes ++ (stagesAt s script n).flatMap Stage.held) :=
  (coherent_moment h script n).relay (laid_moment h script n)

/-- **The lineage is the chronicle** of the chain. -/
theorem chronicle : Chronicle (fun n => (moment s script n).state.cache.chain)
    fun n => lineage (linkings s script n).length where
  start := rfl
  grows n := (laid_step h script n (laid_moment h script n)).2
  backward n := (sound_lineage h script n).backward

/-! ## Every request ends -/

/-- What a call does that goes on. -/
theorem resume_moment {n : Nat} {q : Suspended κ ν} (hm : (moment s script n).move = .resume q) :
    ∃ rest, Coherent (moment s script n).state.cache.chain (moment s script n).state.cache.index.slots
        (q.stage :: rest) ∧
      (system.resume q (moment s script n).state).1.cache =
        (Cache.resume q.stage (moment s script n).state.cache).1 ∧
      (system.resume q (moment s script n).state).2.stages.map Suspended.stage =
        (Cache.resume q.stage (moment s script n).state.cache).2.stages := by
  obtain ⟨rest, hrest, -, -⟩ := Machine.step_resume system hm
  have hc := coherent_moment h script n
  have hstages : stagesAt s script n = q.stage :: rest.map Suspended.stage := congrArg (List.map Suspended.stage) hrest
  rw [hstages] at hc
  obtain ⟨hcache, hst⟩ := stages_advance (s := (moment s script n).state) (r := q.request)
    (gets_resume hc (Since.refl _ _ _)).clean
  exact ⟨_, hc, hcache, hst⟩

/-- The rank of a call by its stage. -/
def wayLeft (q : Suspended κ ν) (s : Session κ ν) : Nat := q.stage.wayLeft s.cache

/-- Each call makes headway, and none is ever far from its end. -/
theorem nears : Machine.Nears system (Machine.init s script) wayLeft (4 * script.weight + 12) where
  falls n q q' hm hout := by
    obtain ⟨rest, hc, hcache, hst⟩ := resume_moment h script hm
    replace hout : (system.resume q (moment s script n).state).2 = .pause q' := hout
    rw [hout] at hst
    have hway := (heads_resume hc (laid_moment h script n)).way q'.stage (by rw [← hst]; exact List.mem_cons_self)
    rw [← hcache] at hway
    exact hway
  bounded n := by
    obtain ⟨inProgress, hk, hst⟩ := kept_moment h script n
    have hbacklog := hk.1.backlog_le
    have hcalls : (calls inProgress).length = (moment s script n).stack.length := by
      rw [calls, List.length_map, ← Machine.length_stages, ← hst, List.length_map]
    have hdepth : (moment s script n).stack.length + _ ≤ script.weight := Machine.depth_le s script n
    show (moment s script n).height wayLeft ≤ _
    unfold Machine.height
    split
    · exact Nat.zero_le _
    · next q _ _ =>
      have hle := q.stage.wayLeft_le (moment s script n).state.cache
      rw [wayLeft]
      omega

/-- **A session is finished in the time allowed.** -/
theorem session_finished : (Machine.session system s script).finished = true := Machine.session_finished (nears h script)

/-! ## Why a deletion is tried again -/

/-- The request `q` lost the deletion `cut`: when it was suspended the node had the successor that the deletion noted,
and with some step since, before step `n`, a call that came between changed the pointer of the node. -/
def Disturbed (s : Session κ ν) (script : Interleave.Script (Request κ ν)) (n : Nat) (q : Suspended κ ν) (cut : Cut) :
    Prop :=
  ∃ rest i j, i < j ∧ j < n ∧ Machine.Pauses system (moment s script i) q rest ∧
    Current (moment s script (i + 1)).state.cache.chain cut ∧ Machine.Nested (moment s script j) q rest ∧
    (moment s script (j + 1)).state.cache.chain.pointers cut.target ≠
      (moment s script j).state.cache.chain.pointers cut.target

/-- A request was ready when it was suspended. -/
theorem ready_of_pauses {n : Nat} {q : Suspended κ ν} {rest : List (Suspended κ ν)}
    (hp : Machine.Pauses system (moment s script n) q rest) :
    q.stage.Ready (moment s script (n + 1)).state.cache.chain := by
  obtain ⟨-, ⟨r, hm, hout⟩ | ⟨before, hm, -, hout⟩⟩ := hp
  · have hmem : q ∈ (system.start r (moment s script n).state).2.stages := by
      rw [hout]
      exact List.mem_cons_self
    exact Stage.ready_of_phase ((start_chain (coherent_moment h script n).clean r).2 q hmem)
  · obtain ⟨below, hc, hcache, hst⟩ := resume_moment h script hm
    obtain ⟨-, -, hs, -⟩ := Machine.step_resume system hm
    rw [hout] at hst
    have hready := (heads_resume hc (laid_moment h script n)).ready q.stage (by rw [← hst]; exact List.mem_cons_self)
    rw [← hcache, ← hs] at hready
    exact hready

/-- **A deletion is lost** only if a call that came between changed the pointer of the node. -/
theorem lost_disturbed {n : Nat} {q : Suspended κ ν} {cut : Cut} (hm : (moment s script n).move = .resume q)
    (hcut : q.stage.cut? = some cut)
    (hlost : ((moment s script n).state.cache.chain.finishDelete cut).2 = false) : Disturbed s script n q cut := by
  obtain ⟨rest, hrest, -, -⟩ := Machine.step_resume system hm
  obtain ⟨i, hi, hp, hsince⟩ := Machine.exists_suspension (m := Machine.init s script) rfl hrest
  have hcurrent := (ready_of_pauses h script hp).current hcut
  have hchanged : (moment s script n).state.cache.chain.pointers cut.target ≠
      (moment s script (i + 1)).state.cache.chain.pointers cut.target := by
    intro he
    exact (Chain.finishDelete_eq_false hlost).2 (he.trans hcurrent)
  obtain ⟨j, hij, hjn, hnested, hne⟩ := hsince (fun s => s.cache.chain.pointers cut.target) hchanged
  exact ⟨rest, i, j, hij, hjn, hp, hcurrent, hnested, hne⟩

/-- At every moment each call in progress is at a point: none repeats a loop with nothing in between. -/
theorem point_moment (n : Nat) : ∀ q ∈ (moment s script n).stages, q.stage.point.isSome = true := by
  intro q hq
  obtain ⟨above, rest, hst⟩ := List.append_of_mem hq
  obtain ⟨i, -, hp, -⟩ := Machine.exists_pause (m := Machine.init s script) rfl n hst
  exact (ready_of_pauses h script hp).isSome_point

end Session
end LeastRecent.Cache
