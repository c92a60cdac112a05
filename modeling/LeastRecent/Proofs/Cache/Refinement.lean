import LeastRecent.Datum.Key
import LeastRecent.Proofs.Cache.Alone
import LeastRecent.Proofs.Cache.Kept
import LeastRecent.Proofs.Cache.Reference

/-!
# Without interruptions a cache is its reference

While no call is in progress a cache stands for the list of its keys and values, most recent first (`contents`). A call
that nothing interrupts changes this list, and answers, as `Recency.serve` does (`mirrors_serve`), so a whole session of
such calls answers as the reference does, the size of the cache being the length of the list (`session_serves`).
-/

namespace LeastRecent.Cache

open Interleave (Finishes replay)
open Interleave.Machine (session session_plain)

variable {κ ν : Type}

/-! ## What a cache stands for -/

/-- The keys and values in the cache, most recent first. -/
def contents (c : Cache κ ν) : List (κ × ν) := pairs c.chain c.chain.recent

section Contents

variable [BEq κ] [EquivBEq κ] {c c' : Cache κ ν} {x : NodeId} {k : κ} {e : Entry Nat κ ν}

namespace Quiet

theorem carries (h : Quiet c) : ∀ y ∈ c.chain.recent, ∃ e, c.chain.carried? y = some e := by
  intro y hy
  obtain ⟨e, he, -⟩ := h.matches.found y hy
  exact ⟨e, he⟩

/-- A live node carries a key just if the index has it for that key. -/
theorem key_eq (h : Quiet c) (k : κ) : ∀ y ∈ c.chain.recent, ∀ e, c.chain.carried? y = some e →
    (k == e.key) = decide (c.index.find? k = some y) := by
  intro y hy e he
  have hm : y ∈ c.index.nodes := (h.matches.nodes y).mpr hy
  by_cases hf : c.index.find? k = some y
  · obtain ⟨e', he', hk⟩ := h.coherent.filed.bears_of_lookup hf
    rw [he] at he'
    cases he'
    rw [decide_eq_true hf, hk]
  · rw [decide_eq_false hf, Bool.eq_false_iff]
    exact fun hk => hf (h.coherent.filed.lookup_of_bears hm ⟨e, he, hk⟩)

theorem length_contents (h : Quiet c) : c.contents.length = c.size := by
  rw [contents, length_pairs h.carries, h.matches.size]

/-- The list without a key. -/
theorem without (h : Quiet c) (k : κ) : Recency.without c.contents k = pairs c.chain (c.others k) :=
  pairs_without h.carries (h.key_eq k)

theorem find_none (h : Quiet c) (hf : c.index.find? k = none) : Recency.find? c.contents k = none := by
  rw [contents, pairs_find h.carries (h.key_eq k), hf, List.find?_eq_none.mpr]
  · rfl
  · intro y _ hy
    cases of_decide_eq_true hy

theorem find_some (h : Quiet c) (hf : c.index.find? k = some x) (he : c.chain.carried? x = some e) :
    Recency.find? c.contents k = some (e.key, e.value) := by
  have hx : x ∈ c.chain.recent := (h.matches.nodes x).mp (Index.mem_nodes_of_lookup hf)
  rw [contents, pairs_find h.carries (h.key_eq k)]
  cases hfind : c.chain.recent.find? fun y => decide (c.index.find? k = some y) with
  | none =>
    have := List.find?_eq_none.mp hfind x hx
    exact absurd (decide_eq_true hf) this
  | some y =>
    have hy := List.find?_some hfind
    rw [hf] at hy
    cases of_decide_eq_true hy
    rw [Option.bind_some, he]
    rfl

/-- A key is in the list just if it is in the index. -/
theorem isSome_find (h : Quiet c) (k : κ) : (Recency.find? c.contents k).isSome = (c.index.find? k).isSome := by
  cases hf : c.index.find? k with
  | none =>
    rw [h.find_none hf]
    rfl
  | some x =>
    obtain ⟨e, he, -⟩ := h.coherent.filed.bears_of_lookup hf
    rw [h.find_some hf he]
    rfl

end Quiet

/-- A fresh node in front of those that are left. -/
theorem pairs_front (h : Quiet c) (a : Chain.Ages c.chain c'.chain) (hx : c'.chain.carried? x = some e) :
    pairs c'.chain (x :: c.others k) = (e.key, e.value) :: Recency.without c.contents k := by
  rw [pairs_cons hx, h.without, pairs_ages a]
  intro y hy
  obtain ⟨e, he⟩ := h.carries y (List.mem_filter.mp hy).1
  exact Chain.lt_size_of_carried he

/-- What `set` leaves in the cache. -/
theorem contents_set (h : Quiet c) (hsize : c.size ≤ c.capacity) (k : κ) (v : ν) :
    ∃ n c', n < 16 ∧ Finishes resume n (start (.set k v) c) c' .stored ∧
      c'.contents = ((k, v) :: Recency.without c.contents k).take c.capacity := by
  obtain ⟨n, c', hn, hfin, hp⟩ := finishes_set h hsize k v
  refine ⟨n, c', hn, hfin, ?_⟩
  rw [contents, hp.recent, pairs_take, pairs_front h hp.ages hp.carried]
  intro y hy
  rcases List.mem_cons.mp hy with rfl | hy
  · exact ⟨_, hp.carried⟩
  · obtain ⟨e, he⟩ := h.carries y (List.mem_filter.mp hy).1
    exact ⟨e, hp.ages.carried he⟩

/-- What `get` finds, and what it leaves in the cache. -/
theorem contents_get (h : Quiet c) (hsize : c.size ≤ c.capacity) (k : κ) :
    ∃ n c' found, n < 16 ∧ Finishes resume n (start (.get k) c) c' (.found found) ∧
      (found.map fun e => (e.key, e.value)) = Recency.find? c.contents k ∧
      c'.contents = Recency.touch c.contents k := by
  cases hf : c.index.find? k with
  | none =>
    refine ⟨1, c, none, by decide, finishes_get_absent hf, ?_, ?_⟩
    · rw [h.find_none hf]
      rfl
    · rw [Recency.touch, h.find_none hf]
  | some x =>
    obtain ⟨n, c', e, hn, hfin, hk, hp, hrecent⟩ := finishes_get h hsize hf
    refine ⟨n, c', some e, hn, hfin, ?_, ?_⟩
    · rw [h.find_some hf hk.1]
      rfl
    · rw [Recency.touch, h.find_some hf hk.1, contents, hrecent, pairs_front h hp.ages hp.carried]

end Contents

/-! ## Requests that nothing interrupts -/

namespace Session

variable [BEq κ] {capacity : Nat} {s : Session κ ν} {l : List (κ × ν)} {r : Request κ ν}

/-- No call is in progress, and the cache is in order and stands for the list `l`. -/
structure Mirrors (capacity : Nat) (s : Session κ ν) (l : List (κ × ν)) : Prop where
  kept : Cache.Kept capacity s.cache []
  contents : s.cache.contents = l

theorem Mirrors.size [EquivBEq κ] (h : Mirrors capacity s l) : s.cache.size = l.length := by
  rw [← h.contents, h.kept.1.length_contents]

/-- A call that nothing interrupts is a request that nothing interrupts. -/
theorem finishes_advance [EquivBEq κ] {c₀ c' : Cache κ ν} {n : Nat} {p : Advance κ ν} {reply : Reply κ ν}
    (hf : Finishes Cache.resume n p c' reply) : ∀ {s : Session κ ν}, Gets c₀ [] p →
      ∃ s', Finishes resume n (s.advance r p) s' ⟨verdict r reply, c'.size⟩ ∧ s'.cache = c' ∧
        Gets c₀ [] (c', .done reply) := by
  induction hf with
  | done c reply =>
    intro s hg
    obtain ⟨s', hp, hs'⟩ := present_eq { s with cache := c } r reply
    refine ⟨s', ?_, hs', hg⟩
    rw [advance_eq hg.clean]
    dsimp only
    rw [hp]
    exact .done s' _
  | @pause n stage c c' reply _ ih =>
    intro s hg
    obtain ⟨s', hfin, hs'⟩ := ih (s := { s with cache := c }) (gets_resume hg.1 hg.2)
    refine ⟨s', ?_, hs'⟩
    rw [advance_eq hg.clean]
    exact .pause hfin

/-- The cache is in order when the call has ended. -/
theorem finishes_call [EquivBEq κ] (h : Cache.Kept capacity s.cache []) (call : Call κ ν) {n : Nat} {c' : Cache κ ν}
    {reply : Reply κ ν} (hf : Finishes Cache.resume n (Cache.start call s.cache) c' reply) :
    ∃ s', Finishes resume n (s.advance r (Cache.start call s.cache)) s' ⟨verdict r reply, c'.size⟩ ∧ s'.cache = c' ∧
      Cache.Kept capacity c' [] := by
  obtain ⟨s', hfin, hs', hg⟩ := finishes_advance hf (gets_start call h.coherent) (s := s) (r := r)
  exact ⟨s', hfin, hs', h.after hg.2 hg.1⟩

/-- A request is served by a call that nothing interrupts. -/
theorem mirrors_call [EquivBEq κ] (h : Mirrors capacity s l) (call : Call κ ν) {n : Nat} {c' : Cache κ ν}
    {reply : Reply κ ν} (hf : Finishes Cache.resume n (Cache.start call s.cache) c' reply) :
    ∃ s', Finishes resume n (s.advance r (Cache.start call s.cache)) s' ⟨verdict r reply, c'.contents.length⟩ ∧
      Mirrors capacity s' c'.contents := by
  obtain ⟨s', hfin, rfl, hkept⟩ := finishes_call (r := r) h.kept call hf
  have hm : Mirrors capacity s' s'.cache.contents := ⟨hkept, rfl⟩
  exact ⟨s', hm.size ▸ hfin, hm⟩

/-! ## Sessions that nothing interrupts -/

/-- The request that a call of the reference stands for. -/
def request : Recency.Call κ ν → Request κ ν
  | .set k v => .set k v
  | .get k => .get k
  | .getEntry k keep => .getEntry k keep
  | .contains k => .contains k
  | .isEmpty => .isEmpty
  | .entries => .entries

/-- An answer without the labels of its entries. -/
def seen : Answer κ ν → Option (Recency.Answer κ ν)
  | .done => some .done
  | .absent => some .absent
  | .value v => some (.value v)
  | .entry e => some (.pair (e.key, e.value))
  | .entries es => some (.pairs (es.map fun e => (e.key, e.value)))
  | .bool b => some (.bool b)
  | .nothing | .text _ | .number _ | .fault _ => none

/-- What a caller learns: the answer, and the size of the cache. -/
def view (a : Served κ ν) : Option (Recency.Answer κ ν) × Nat := (seen a.answer, a.size)

/-- The reference: what it answers, and how long its list is then. -/
def spec (capacity : Nat) (call : Recency.Call κ ν) (l : List (κ × ν)) :
    List (κ × ν) × Option (Recency.Answer κ ν) × Nat :=
  let (l', a) := Recency.serve capacity call l
  (l', some a, l'.length)

section Serve

variable [EquivBEq κ]

/-- The turn comes to its end, and the request is served as the reference serves the call. -/
def Serves (capacity : Nat) (call : Recency.Call κ ν) (l : List (κ × ν)) (p : Turn κ ν) : Prop :=
  ∃ n s' a, n < 16 ∧ Finishes resume n p s' a ∧ Mirrors capacity s' (spec capacity call l).1 ∧
    view a = (spec capacity call l).2

theorem serves_set (h : Mirrors capacity s l) (k : κ) (v : ν) :
    Serves capacity (.set k v) l (s.advance (.set k v) (Cache.start (.set k v) s.cache)) := by
  obtain ⟨hq, hcap, hsize⟩ := h.kept
  obtain ⟨n, c', hn, hfin, hc⟩ := contents_set hq (hcap ▸ hsize) k v
  obtain ⟨s', hfin', hm⟩ := mirrors_call h _ hfin (r := .set k v)
  rw [hcap, h.contents] at hc
  rw [hc] at hfin' hm
  exact ⟨n, s', _, hn, hfin', hm, rfl⟩

/-- A request for the value of a key, or for the entry itself. -/
theorem serves_found (h : Mirrors capacity s l) (k : κ) {call : Recency.Call κ ν}
    {answer : κ × ν → Recency.Answer κ ν}
    (hcall : Recency.serve capacity call l = (Recency.touch l k, ((Recency.find? l k).map answer).getD .absent))
    (hr : ∀ e, seen (verdict r (.found (some e))) = some (answer (e.key, e.value))) :
    Serves capacity call l (s.advance r (Cache.start (.get k) s.cache)) := by
  obtain ⟨hq, hcap, hsize⟩ := h.kept
  obtain ⟨n, c', found, hn, hfin, hfound, hc⟩ := contents_get hq (hcap ▸ hsize) k
  obtain ⟨s', hfin', hm⟩ := mirrors_call h _ hfin (r := r)
  rw [h.contents] at hc hfound
  rw [hc] at hfin' hm
  refine ⟨n, s', _, hn, hfin', ?_, ?_⟩
  · rw [spec, hcall]
    exact hm
  · rw [spec, hcall, ← hfound]
    cases found with
    | none => rfl
    | some e => rw [view, hr]; rfl

theorem serves_contains (h : Mirrors capacity s l) (k : κ) :
    Serves capacity (.contains k) l (s.advance (.contains k) (Cache.start (.contains k) s.cache)) := by
  have hfin : Finishes Cache.resume 1 (Cache.start (.contains k) s.cache) s.cache
      (.present (s.cache.index.find? k).isSome) := .pause (.done s.cache _)
  obtain ⟨s', hfin', hm⟩ := mirrors_call h _ hfin (r := .contains k)
  rw [h.contents, ← h.kept.1.isSome_find k, h.contents] at hfin'
  rw [h.contents] at hm
  exact ⟨1, s', _, by decide, hfin', hm, rfl⟩

theorem serves_isEmpty (h : Mirrors capacity s l) :
    Serves capacity .isEmpty l (s.answer (.bool s.cache.isEmpty)) := by
  have hempty : s.cache.isEmpty = l.isEmpty := by
    have hsize : s.cache.index.slots.length = l.length := h.size
    rw [Bool.eq_iff_iff, List.isEmpty_iff_length_eq_zero, ← hsize]
    exact List.isEmpty_iff_length_eq_zero
  refine ⟨0, s, _, by decide, .done s _, h, ?_⟩
  rw [view, h.size, hempty]
  rfl

theorem serves_entries (hlimit : capacity < reservationLimit) (h : Mirrors capacity s l) :
    Serves capacity .entries l (s.list .entries) := by
  obtain ⟨order, hsound⟩ := h.kept.coherent.sound
  obtain ⟨hsound', a, -⟩ := hsound.walk hsound.laid.header_mem
  let ch := (s.cache.chain.walk Chain.header).1
  let s' : Session κ ν := { s with cache := { s.cache with chain := ch } }
  have hlist : s.list .entries = s'.answer (.entries (s.cache.chain.recent.filterMap ch.carried?)) := by
    rw [list, Cache.entries, if_neg (by rw [h.kept.2.1]; omega)]
    rfl
  have hpairs : pairs ch s.cache.chain.recent = l := by
    rw [← h.contents]
    refine pairs_ages a.ages fun x hx => ?_
    obtain ⟨e, he⟩ := h.kept.1.carries x hx
    exact Chain.lt_size_of_carried he
  have hcontents : s'.cache.contents = l := by
    show pairs ch ch.recent = l
    rw [hsound.recent_alike hsound' a, hpairs]
  have hkept : Cache.Kept capacity s'.cache [] := h.kept.walk
  rw [hlist]
  refine ⟨0, s', _, by decide, .done s' _, ⟨hkept, hcontents⟩, ?_⟩
  have hsize : s'.cache.size = l.length := h.size
  rw [view, hsize, seen, List.map_filterMap]
  exact Prod.ext (congrArg (fun ps => some (Recency.Answer.pairs ps)) hpairs) rfl

variable [ToString κ] [ToString ν]

/-- **A request that nothing interrupts is served as the reference serves the call.** -/
theorem mirrors_serve (hlimit : capacity < reservationLimit) (call : Recency.Call κ ν) (h : Mirrors capacity s l) :
    Serves capacity call l (start (request call) s) := by
  cases call with
  | set k v => exact serves_set h k v
  | get k => exact serves_found h k rfl fun e => rfl
  | getEntry k keep =>
    refine serves_found h k rfl fun e => ?_
    cases keep <;> rfl
  | contains k => exact serves_contains h k
  | isEmpty => exact serves_isEmpty h
  | entries => exact serves_entries hlimit h

/-- **Without interruptions a cache answers as the list of its keys and values**, from which the least recent pairs drop
out, and its size is the length of that list. -/
theorem session_serves (p : Policy) (hpos : 0 < capacity) (hlimit : capacity < reservationLimit)
    (calls : List (Recency.Call κ ν)) : ∃ s : Session κ ν, create p (some capacity) = .ok s ∧
      (session system s (.plain (calls.map request))).finished = true ∧
      ((session system s (.plain (calls.map request))).records.map fun r => view r.result) =
        (replay (spec capacity) [] calls).2 ∧
      (session system s (.plain (calls.map request))).state.cache.size =
        (replay (spec capacity) [] calls).1.length := by
  let s : Session κ ν := ⟨⟨.empty p, .empty, capacity, 0, [.created capacity]⟩, []⟩
  have hs : create p (some capacity) = .ok s := by
    rw [create, Cache.create, if_neg (by omega)]
    rfl
  have hkept : Cache.Kept capacity s.cache [] := (kept_create hs).1
  have hmirrors : Mirrors capacity s [] := ⟨hkept, List.eq_nil_of_length_eq_zero hkept.1.length_contents⟩
  have hserve (call : Recency.Call κ ν) (s : Session κ ν) (l : List (κ × ν)) (h : Mirrors capacity s l) :
      ∃ n s' a, n < 16 ∧ Finishes system.resume n (system.start (request call) s) s' a ∧
        Mirrors capacity s' (spec capacity call l).1 ∧ view a = (spec capacity call l).2 :=
    mirrors_serve hlimit call h
  obtain ⟨hfinished, hm, hrecords⟩ := session_plain hserve calls hmirrors
  exact ⟨s, hs, hfinished, hrecords, hm.size⟩

/-- Room for two, and integers compared up to their remainder by eight: what is found keeps the spelling it had, what is
stored over it has the new one. -/
theorem session_serves_spellings : 0 < 2 ∧ 2 < reservationLimit ∧
    ∃ s : Session (Key .modEight) Nat, create .deferred (some 2) = .ok s ∧
      ((session system s (.plain ([.set ⟨.int 1⟩ 10, .set ⟨.int 2⟩ 20, .getEntry ⟨.int 9⟩ none, .set ⟨.int 17⟩ 30,
        .set ⟨.int 3⟩ 40, .entries].map request))).records.map fun r => view r.result) =
        [(some .done, 1), (some .done, 2), (some (.pair (⟨.int 1⟩, 10)), 2), (some .done, 2), (some .done, 2),
          (some (.pairs [(⟨.int 3⟩, 40), (⟨.int 17⟩, 30)]), 2)] := by
  have hlimit : 2 < reservationLimit := by decide
  obtain ⟨s, hs, -, hrecords, -⟩ := session_serves (κ := Key .modEight) (ν := Nat) .deferred (by decide) hlimit
    [.set ⟨.int 1⟩ 10, .set ⟨.int 2⟩ 20, .getEntry ⟨.int 9⟩ none, .set ⟨.int 17⟩ 30, .set ⟨.int 3⟩ 40, .entries]
  exact ⟨by decide, hlimit, s, hs, hrecords⟩

end Serve

end Session

end LeastRecent.Cache
