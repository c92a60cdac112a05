import LeastRecent.Cache.Session
import LeastRecent.Proofs.Cache.Advance
import LeastRecent.Proofs.Cache.Aims
import LeastRecent.Proofs.Interleave.Runs

/-!
# Sessions with a cache stay in order

`Kept` is what holds of a cache while calls are in progress, each with the cache that it started from: the cache is
coherent, each call has done since it started what it may do, and where no call is in progress no deleted node is in the
index and the size is no larger than the capacity. Every request keeps it, to its next pause or its end (`guarded`), so
it holds at every moment of every session (`kept_moment`).
-/

namespace LeastRecent.Cache

open Interleave (Machine Outcome)
open Interleave.Machine (Settled Guarded)

variable {κ ν : Type} [BEq κ]

/-- The cache `c`, while calls are in progress, the running one first, each with the cache from which it started. -/
def Kept (capacity : Nat) : Cache κ ν → List (Cache κ ν × Stage κ ν) → Prop
  | c, [] => Quiet c ∧ c.capacity = capacity ∧ c.size ≤ capacity
  | c, (c₀, st) :: calls =>
    Coherent c.chain c.index.slots (st :: calls.map Prod.snd) ∧
      Since c₀ c (fun x => st.Answers c.chain x) st.surplus ∧ Kept capacity c₀ calls

namespace Kept

variable {capacity : Nat} {c c₀ : Cache κ ν} {calls : List (Cache κ ν × Stage κ ν)}

theorem coherent (h : Kept capacity c calls) : Coherent c.chain c.index.slots (calls.map Prod.snd) := by
  cases calls with
  | nil => exact h.1.coherent
  | cons call calls => exact h.1

/-- A call has ended, and the cache is as good for the calls below as it was. -/
theorem after (h : Kept capacity c₀ calls) (hs : Since c₀ c (fun _ => False) 0)
    (hc : Coherent c.chain c.index.slots (calls.map Prod.snd)) : Kept capacity c calls := by
  cases calls with
  | nil =>
    obtain ⟨hq, hcap, hsize⟩ := h
    refine ⟨⟨hc, ?_⟩, hs.capacity.trans hcap, ?_⟩
    · intro x hx
      rcases hs.dangling x hx with h₀ | h₀
      · exact hq.settled x h₀
      · exact h₀
    · have := hs.size
      have := hs.capacity
      omega
  | cons call calls =>
    obtain ⟨h₀, hs₀, hrest⟩ := h
    exact ⟨hc, hs₀.trans hs fun x hx hdue => hdue.ages hs.ages (h₀.lt_size hx.1), hrest⟩

/-- A walk along the chain. -/
theorem walk (h : Kept capacity c calls) :
    Kept capacity { c with chain := (c.chain.walk Chain.header).1 } calls := by
  obtain ⟨order, hs⟩ := h.coherent.sound
  obtain ⟨-, a, -⟩ := hs.walk hs.laid.header_mem
  refine h.after ((Since.refl _ _ _).alike a fun _ _ => id) (h.coherent.alike fun order held hs => ?_)
  obtain ⟨hs', a', -⟩ := hs.walk hs.laid.header_mem
  exact ⟨hs', a'⟩

end Kept

/-! ## Calls that store -/

section Stores

omit [BEq κ]

def Reply.stores : Reply κ ν → Bool
  | .stored => true
  | _ => false

def Errand.stores : Errand κ ν → Bool
  | .store _ => true
  | .promote .. => false

def Sequel.stores : Sequel κ ν → Bool
  | .settle _ _ r | .finish r => r.stores

/-- The call at this stage stores a new entry. -/
def Stage.stores : Stage κ ν → Bool
  | .find _ | .displace .. | .publish .. => true
  | .fetch _ | .withdraw .. | .recheck .. | .replace .. | .probe _ => false
  | .push g | .front g => g.stores
  | .discard _ next | .discarding _ next => next.stores
  | .settle _ _ r | .evict r | .evicting _ r | .purge _ _ r => r.stores

/-- Only calls that store can make the cache larger. -/
theorem Stage.surplus_le (st : Stage κ ν) : st.surplus ≤ st.stores.toNat := by
  have reply (r : Reply κ ν) : r.surplus ≤ r.stores.toNat := by cases r <;> exact Nat.le_refl _
  have sequel (next : Sequel κ ν) : next.surplus ≤ next.stores.toNat := by
    cases next with
    | settle k fresh r => exact reply r
    | finish r => exact Nat.zero_le _
  cases st with
  | discard x next => exact sequel next
  | discarding cut next => exact sequel next
  | settle k fresh r => exact reply r
  | evict r => exact reply r
  | evicting cut r => exact reply r
  | purge k victim r => exact reply r
  | _ => exact Nat.zero_le _

/-- How far a call got: if it is suspended, it stores as it did before. -/
def Remains (b : Bool) (p : Advance κ ν) : Prop := ∀ st, p.2 = .pause st → st.stores = b

variable {c : Cache κ ν} {r : Reply κ ν}

theorem remains_pause (st : Stage κ ν) : Remains st.stores (c, .pause st) := by
  intro st' h
  cases h
  rfl

def Aim.stores : Aim κ ν → Bool
  | .link _ | .publish _ => true
  | .look _ => false
  | .reply r => r.stores

/-- Whether a call stores is a matter of its aim. -/
theorem Stage.stores_eq (st : Stage κ ν) : st.stores = st.aim.stores := by
  cases st with
  | push g => cases g <;> rfl
  | front g => cases g <;> rfl
  | discard x next => cases next <;> rfl
  | discarding cut next => cases next <;> rfl
  | _ => rfl

theorem remains_of_pursues {p : Advance κ ν} {a : Aim κ ν} (h : Pursues a p.2) : Remains a.stores p := by
  intro st he
  rw [he] at h
  rw [st.stores_eq, h]

end Stores

/-- Another aim makes no difference to that. -/
theorem Stage.stores_turn (st : Stage κ ν) (c : Cache κ ν) : (st.turn c).stores = st.stores := by
  rw [st.stores_eq]
  cases st with
  | front g => cases g <;> rfl
  | _ => rfl

/-- A call goes on as what it is. -/
theorem remains_resume (st : Stage κ ν) (c : Cache κ ν) : Remains st.stores (resume st c) := by
  rcases st.front_or with ⟨g, rfl⟩ | hst
  · rcases pursues_front c g with h | ⟨x, h⟩
    · rw [Stage.stores_eq]
      exact remains_of_pursues h
    · intro st he
      rw [h] at he
      cases he
      cases g <;> rfl
  · rw [← st.stores_turn c]
    exact remains_of_pursues (pursues_resume c hst)

/-! ## Requests -/

namespace Session

/-- The request is to store. -/
def Request.isSet : Request κ ν → Bool
  | .set .. => true
  | _ => false

/-- Calls of a session in progress, as calls of its cache. -/
def calls (inProgress : List (Session κ ν × Suspended κ ν)) : List (Cache κ ν × Stage κ ν) :=
  inProgress.map fun p => (p.1.cache, p.2.stage)

/-- The cache of a session, while requests are in progress, and only a request to store has a call that stores. -/
def Kept (capacity : Nat) (s : Session κ ν) (inProgress : List (Session κ ν × Suspended κ ν)) : Prop :=
  Cache.Kept capacity s.cache (calls inProgress) ∧ ∀ p ∈ inProgress, p.2.stage.stores = p.2.request.isSet

/-- From `s₀` to `s` a whole request was served. -/
def Passed (s₀ s : Session κ ν) : Prop := Since s₀.cache s.cache (fun _ => False) 0

variable {capacity : Nat} {s s₀ : Session κ ν} {inProgress : List (Session κ ν × Suspended κ ν)} {r : Request κ ν}

/-- The answer to a request whose call got this reply. -/
def verdict (r : Request κ ν) : Reply κ ν → Answer κ ν
  | .stored => .done
  | .present b => .bool b
  | .found none => .absent
  | .found (some e) =>
    match r with
    | .getEntry .. => .entry e
    | _ => .value e.value

omit [BEq κ] in
/-- An answer leaves the cache as it is. -/
theorem present_eq (s : Session κ ν) (r : Request κ ν) (reply : Reply κ ν) :
    ∃ s', s.present r reply = (s', .done ⟨verdict r reply, s.cache.size⟩) ∧ s'.cache = s.cache := by
  cases reply with
  | stored => exact ⟨_, rfl, rfl⟩
  | present b => exact ⟨_, rfl, rfl⟩
  | found e =>
    cases e with
    | none => exact ⟨_, rfl, rfl⟩
    | some e =>
      cases r with
      | getEntry k keep =>
        cases keep with
        | none => exact ⟨_, rfl, rfl⟩
        | some name => exact ⟨_, rfl, rfl⟩
      | _ => exact ⟨_, rfl, rfl⟩

omit [BEq κ] in
/-- No rule is broken, so a request gets as far as its call. -/
theorem advance_eq {p : Advance κ ν} (h : p.1.chain.fault = none) : s.advance r p = match p.2 with
    | .pause stage => ({ s with cache := p.1 }, .pause ⟨r, stage⟩)
    | .done reply => { s with cache := p.1 }.present r reply := by
  unfold advance
  dsimp only
  rw [h]
  split
  · next hf => cases hf
  · rfl

theorem settled_advance {p : Advance κ ν} (h : Kept capacity s₀ inProgress)
    (hg : Gets s₀.cache ((calls inProgress).map Prod.snd) p) (hr : Remains r.isSet p) :
    Settled (Kept capacity) Passed s₀ inProgress (s.advance r p) := by
  obtain ⟨c, out⟩ := p
  rw [advance_eq hg.clean]
  cases out with
  | pause st =>
    refine ⟨⟨hg.1, hg.2, h.1⟩, fun p hp => ?_⟩
    rcases List.mem_cons.mp hp with rfl | hp
    · exact hr st rfl
    · exact h.2 p hp
  | done reply =>
    obtain ⟨s', he, hs'⟩ := present_eq { s with cache := c } r reply
    dsimp only
    rw [he]
    refine ⟨?_, ?_, h.2⟩
    · show Since s₀.cache s'.cache _ _
      rw [hs']
      exact hg.2
    · rw [hs']
      exact h.1.after hg.2 hg.1

/-- A request that leaves the cache as it is, up to a walk along the chain. -/
theorem settled_answer {s' : Session κ ν} {a : Served κ ν} (h : Kept capacity s inProgress)
    (hc : s'.cache = s.cache ∨ ∃ ch, s'.cache = { s.cache with chain := ch } ∧
      ∀ order held, s.cache.chain.Sound order held → ch.Sound order held ∧ s.cache.chain.Alike ch) :
    Settled (Kept capacity) Passed s inProgress (s', .done a) := by
  rcases hc with hc | ⟨ch, hc, hwalk⟩
  · have hs : Since s.cache s'.cache (fun _ => False) 0 := by
      rw [hc]
      exact Since.refl _ _ _
    exact ⟨hs, h.1.after hs (by rw [hc]; exact h.1.coherent), h.2⟩
  · have hcoh := h.1.coherent
    obtain ⟨order, hsound⟩ := hcoh.sound
    have hs : Since s.cache s'.cache (fun _ => False) 0 := by
      rw [hc]
      exact (Since.refl _ _ _).alike (hwalk order _ hsound).2 fun _ _ => id
    exact ⟨hs, h.1.after hs (by rw [hc]; exact hcoh.alike hwalk), h.2⟩

omit [BEq κ] in
/-- To list the entries is to walk along the chain, if anything is done at all. -/
theorem list_cache (s : Session κ ν) (f : List (Entry Nat κ ν) → Answer κ ν) : (s.list f).1.cache = s.cache ∨
    (s.list f).1.cache = { s.cache with chain := (s.cache.chain.walk Chain.header).1 } := by
  show (s.cache.entries).1 = _ ∨ (s.cache.entries).1 = _
  unfold entries
  split
  · exact Or.inl rfl
  · exact Or.inr rfl

theorem settled_list (h : Kept capacity s inProgress) (f : List (Entry Nat κ ν) → Answer κ ν) :
    Settled (Kept capacity) Passed s inProgress (s.list f) := by
  refine settled_answer h ?_
  rcases list_cache s f with hc | hc
  · exact Or.inl hc
  · refine Or.inr ⟨_, hc, fun order held hs => ?_⟩
    obtain ⟨hs', a, -⟩ := hs.walk hs.laid.header_mem
    exact ⟨hs', a⟩

variable [ToString κ] [ToString ν]

omit [BEq κ] in
/-- Whatever the names stand for, the cache is not asked. -/
theorem start_same (s : Session κ ν) (a b : String) :
    ∃ answer : Answer κ ν, start (.same a b) s = (s, .done ⟨answer, s.cache.size⟩) := by
  unfold start
  dsimp only
  split
  · exact ⟨_, rfl⟩
  · exact ⟨_, rfl⟩

variable [EquivBEq κ]

/-- **Every stretch of work keeps a cache in order.** -/
theorem guarded : Guarded (system : Interleave.System (Session κ ν) (Request κ ν) (Suspended κ ν) (Served κ ν) Event)
    (Kept capacity) Passed where
  start r s inProgress h := by
    have hcall (call : Call κ ν) (hr : Remains r.isSet (Cache.start call s.cache)) :
        Settled (Kept capacity) Passed s inProgress (s.advance r (Cache.start call s.cache)) :=
      settled_advance h (gets_start call h.1.coherent) hr
    cases r with
    | set k v => exact hcall _ (remains_pause (.find _))
    | get k => exact hcall _ (remains_pause (.fetch _))
    | getEntry k keep => exact hcall _ (remains_pause (.fetch _))
    | contains k => exact hcall _ (remains_pause (.probe _))
    | entries => exact settled_list h _
    | text => exact settled_list h _
    | capacity => exact settled_answer h (Or.inl rfl)
    | isEmpty => exact settled_answer h (Or.inl rfl)
    | held name => exact settled_answer h (Or.inl rfl)
    | same a b =>
      obtain ⟨answer, ha⟩ := start_same s a b
      show Settled (Kept capacity) Passed s inProgress (start (.same a b) s)
      rw [ha]
      exact settled_answer h (Or.inl rfl)
    | unhold name => exact settled_answer h (Or.inl rfl)
  resume st s s₀ inProgress h := by
    obtain ⟨⟨hc, hs, hrest⟩, hr⟩ := h
    refine settled_advance ⟨hrest, fun p hp => hr p (List.mem_cons_of_mem _ hp)⟩ (gets_resume hc hs) ?_
    rw [← hr _ List.mem_cons_self]
    exact remains_resume _ _

/-! ## Moments -/

/-- The capacity that a session is created with. -/
def chosen (capacity : Option Nat) : Nat := capacity.getD usualCapacity

omit [ToString κ] [ToString ν] [EquivBEq κ] in
/-- A session starts in order. -/
theorem kept_create {p : Policy} {capacity : Option Nat} (h : create p capacity = .ok s) :
    Kept (chosen capacity) s [] := by
  have hnew {c : Cache κ ν} (hc : c.chain = .empty p) (hi : c.index = .empty) (hcap : c.capacity = chosen capacity) :
      Kept (chosen capacity) (⟨c, []⟩ : Session κ ν) [] := by
    have hslots : c.index.slots = [] := by rw [hi]; rfl
    refine ⟨⟨⟨?_, ?_⟩, hcap, ?_⟩, fun p hp => (by cases hp)⟩
    · show Coherent c.chain c.index.slots []
      rw [hc, hslots]
      exact Coherent.empty p
    · intro x hx
      have hm : x ∈ c.index.nodes := hx.1
      rw [Index.nodes, hslots] at hm
      cases hm
    · show c.index.slots.length ≤ _
      rw [hslots]
      exact Nat.zero_le _
  cases capacity with
  | none =>
    cases h
    exact hnew rfl rfl rfl
  | some n =>
    by_cases hn : n = 0
    · rw [create, Cache.create, if_pos hn] at h
      cases h
    · rw [create, Cache.create, if_neg hn] at h
      cases h
      exact hnew rfl rfl rfl

/-- The moments of a session. -/
def moment (s : Session κ ν) (script : Interleave.Script (Request κ ν)) (n : Nat) :
    Machine (Session κ ν) (Request κ ν) (Suspended κ ν) (Served κ ν) Event :=
  Machine.steps system n (Machine.init s script)

/-- **A cache is in order at every moment of a session.** -/
theorem kept_moment {p : Policy} {capacity : Option Nat} (h : create p capacity = .ok s)
    (script : Interleave.Script (Request κ ν)) (n : Nat) :
    ∃ inProgress, Kept (chosen capacity) (moment s script n).state inProgress ∧
      inProgress.map Prod.snd = (moment s script n).stages :=
  guarded.steps (kept_create h) rfl n

/-- Where no call is in progress, no deleted node is in the index, and there is room for all entries. -/
theorem quiet_moment {p : Policy} {capacity : Option Nat} (h : create p capacity = .ok s)
    {script : Interleave.Script (Request κ ν)} {n : Nat} (hidle : (moment s script n).stack = []) :
    Quiet (moment s script n).state.cache ∧ (moment s script n).state.cache.capacity = chosen capacity ∧
      (moment s script n).state.cache.size ≤ chosen capacity := by
  obtain ⟨inProgress, hk, hst⟩ := kept_moment h script n
  have hnone : inProgress = [] := by
    rw [Machine.stages, hidle] at hst
    exact List.map_eq_nil_iff.mp hst
  have hcache := hk.1
  rw [hnone] at hcache
  exact hcache

end Session

end LeastRecent.Cache
