import LeastRecent.Proofs.Cache.Draining
import LeastRecent.Proofs.Cache.Refinement
import LeastRecent.Proofs.Cache.Replies
import LeastRecent.Proofs.Cache.Tidying
import LeastRecent.Proofs.Cache.Trace
import LeastRecent.Proofs.Chain.Coldest
import LeastRecent.Proofs.Chain.Collapse
import LeastRecent.Proofs.Interleave.Serial

/-!
# Without interruptions nothing waits to be retired

If one request comes after the other, the chain is neat whenever no call is in progress, hence tidy: what was deleted was
retired. Served alone, a request deletes at most one entry: the one that it replaces, or the one that it evicts if there
is no room for a new one (`superseded?`, `Renews`). So just this entry is retired while the request is served
(`Trades.retired`), and when the cache goes all others go, the least recent first (`reclaimed_at_once`).
-/

namespace LeastRecent

namespace Chain

variable {α : Type} {c c' : Chain α} {order order' held held' : List NodeId} {gone : Option NodeId} {x : NodeId}

/-- From `c` to `c'` the live entry `gone` was deleted, if there is one, and no other. New nodes are live. -/
structure Trades (c c' : Chain α) (gone : Option NodeId) : Prop where
  ages : Ages c c'
  gone : ∀ x, x ∈ gone ↔ x ∈ c.recent ∧ x ∉ c'.recent
  fresh : ∀ x < c'.size, c.size ≤ x → x ∈ c'.recent

theorem trades_of_alike (a : Alike c c') (hr : c'.recent = c.recent) : Trades c c' none where
  ages := a.ages
  gone x := by simp [hr]
  fresh x hx hle := by
    rw [a.size] at hx
    omega

/-- One node comes to the front of the others. -/
theorem Sound.trades_of_front {xs : List NodeId} (h : Sound c order held) (a : Ages c c') (hs : c'.size = c.size + 1)
    (hr : c'.recent = c.size :: xs) (hgone : ∀ x ∈ gone, x ∈ c.recent)
    (hxs : ∀ x, x ∈ xs ↔ x ∈ c.recent ∧ x ∉ gone) : Trades c c' gone where
  ages := a
  gone x := by
    rw [hr, List.mem_cons, hxs, not_or]
    constructor
    · intro hx
      have hm := hgone x hx
      exact ⟨hm, Nat.ne_of_lt (lt_size_of_not_isSentinel (h.mem_recent.mp hm).2), fun hrest => hrest.2 hx⟩
    · rintro ⟨hm, -, hno⟩
      exact Decidable.not_not.mp fun hne => hno ⟨hm, hne⟩
  fresh x hx hle := by
    obtain rfl : x = c.size := by omega
    rw [hr]
    exact List.mem_cons_self

/-- Deleted is what was deleted before, and the node that is gone. -/
theorem Trades.deleted_iff (t : Trades c c' gone) (h : Sound c order held) (h' : Sound c' order' held')
    (hx : x < c'.size) : c'.isDeleted x = true ↔ c.isDeleted x = true ∨ x ∈ gone := by
  rw [t.gone]
  constructor
  · intro hd
    have hno : x ∉ c'.recent := fun hm => by
      rw [(h'.mem_recent.mp hm).1] at hd
      cases hd
    have hold : x < c.size := Nat.lt_of_not_le fun hle => hno (t.fresh x hx hle)
    refine or_iff_not_imp_left.mpr fun hl => ⟨h.mem_recent.mpr ⟨Bool.not_eq_true _ ▸ hl, ?_⟩, hno⟩
    -- the sentinels are not deleted
    rw [← Bool.not_eq_true, h.laid.isSentinel_iff ((h.laid.mem x).mpr hold)]
    rintro (rfl | rfl)
    · rw [h'.laid.start] at hd
      cases hd
    · rw [h'.laid.trailer_live] at hd
      cases hd
  · rintro (hd | ⟨hm, hno⟩)
    · exact t.ages.deleted x (lt_size_of_deleted hd) hd
    · refine Bool.not_eq_false _ ▸ fun hl => hno (h'.mem_recent.mpr ⟨hl, ?_⟩)
      exact t.ages.not_isSentinel (h.mem_recent.mp hm).2

/-- **Between tidy chains** just the entry that was deleted is retired. -/
theorem Trades.retired (t : Trades c c' gone) (h : Sound c order held) (h' : Sound c' order' held') (ht : Tidy c)
    (ht' : Tidy c') (hr : c.retired <+: c'.retired) : c'.retired = c.retired ++ gone.toList := by
  obtain ⟨new, hnew⟩ := hr
  obtain ⟨linked, -, hc⟩ := h'.counted
  have hnd := hc.nodup
  rw [← hnew] at hnd
  obtain ⟨-, hnd, hdisjoint⟩ := List.nodup_append.mp hnd
  have hsplit (x : NodeId) (hx : x < c'.size) : x ∈ c.retired ∨ x ∈ new ↔ c.isDeleted x = true ∨ x ∈ gone := by
    rw [← List.mem_append, hnew, ht'.retired x hx, t.deleted_iff h h' hx]
  have hmem (x : NodeId) : x ∈ new ↔ x ∈ gone := by
    constructor
    · intro hx
      have hlt : x < c'.size := ((hc.retired x).mp (hnew ▸ List.mem_append_right _ hx)).1
      refine ((hsplit x hlt).mp (Or.inr hx)).resolve_left fun hd => ?_
      exact hdisjoint x ((ht.retired x (lt_size_of_deleted hd)).mpr hd) x hx rfl
    · intro hx
      obtain ⟨hl, hs⟩ := h.mem_recent.mp ((t.gone x).mp hx).1
      have hlt : x < c.size := lt_size_of_not_isSentinel hs
      refine ((hsplit x (Nat.lt_of_lt_of_le hlt t.ages.size)).mpr (Or.inr hx)).resolve_left fun hm => ?_
      rw [(ht.retired x hlt).mp hm] at hl
      cases hl
  have hperm : new.Perm gone.toList := by
    refine (List.perm_ext_iff_of_nodup hnd ?_).mpr fun x => by rw [hmem, Option.mem_toList, Option.mem_def]
    cases gone <;> simp
  rw [← hnew]
  cases gone with
  | none => rw [List.perm_nil.mp hperm]; rfl
  | some y => rw [List.perm_singleton.mp hperm]; rfl

end Chain

namespace Cache

open Chain (Alike Neat Sound Tidy Trades)
open Interleave (Finishes Machine)
open Session (Request)

variable {κ ν : Type} [BEq κ] {c c' : Cache κ ν} {k : κ}

/-! ## Requests served alone -/

/-- The node that a request makes superfluous if it is served alone: the one that it replaces, or the least recent one if
there is no room for one more. -/
def superseded? (c : Cache κ ν) : Request κ ν → Option NodeId
  | .set k _ =>
    match c.index.find? k with
    | some x => some x
    | none => if c.size < c.capacity then none else c.chain.coldest?
  | .get k | .getEntry k _ => c.index.find? k
  | _ => none

/-- From `c` to `c'` the request `r` was served alone. -/
structure Renews (c : Cache κ ν) (r : Request κ ν) (c' : Cache κ ν) : Prop where
  trades : Trades c.chain c'.chain (superseded? c r)
  neat : Neat c.chain → Neat c'.chain
  /-- A new key for which there is no room makes a node superfluous, which is evicted. -/
  evicted : ∀ k v, r = .set k v → c.index.find? k = none → c.capacity ≤ c.size →
    ∃ x, superseded? c r = some x ∧ c'.chain.isEvicted x = true

/-- The request leaves the cache as it is. -/
theorem renews_refl {r : Request κ ν} (hr : superseded? c r = none) (hset : r.isSet = false) : Renews c r c where
  trades := by
    rw [hr]
    exact Chain.trades_of_alike (Alike.refl _) rfl
  neat := id
  evicted k v he := by
    rw [he] at hset
    cases hset

/-- The request walks along the chain. -/
theorem renews_walk {order held : List NodeId} (h : Sound c.chain order held) {r : Request κ ν}
    (hr : superseded? c r = none) (hset : r.isSet = false) :
    Renews c r { c with chain := (c.chain.walk Chain.header).1 } where
  trades := by
    obtain ⟨h', a, -⟩ := h.walk h.laid.header_mem
    rw [hr]
    exact Chain.trades_of_alike a (h.recent_alike h' a)
  neat _ := h.neat_walk
  evicted k v he := by
    rw [he] at hset
    cases hset

variable [EquivBEq κ] {e : Entry Nat κ ν}

/-- A fresh node takes the place of the one that the index had. -/
theorem Quiet.trades_found {x : NodeId} (h : Quiet c) (hf : c.index.find? k = some x)
    (hp : Pushed c c' (c.others k) e) (hr : c'.chain.recent = c.chain.size :: c.others k) :
    Trades c.chain c'.chain (some x) := by
  obtain ⟨order, hs⟩ := h.coherent.sound
  refine hs.trades_of_front hp.ages hp.size hr (fun y hy => ?_) fun y => ?_
  · cases hy
    exact (h.matches.nodes x).mp (Index.mem_nodes_of_lookup hf)
  · rw [others, hf, List.mem_filter]
    simp

/-- A fresh node comes to the others, and the last of them goes if there is no room. -/
theorem Quiet.trades_new (h : Quiet c) (hsize : c.size ≤ c.capacity) (hpos : 0 < c.capacity)
    (hp : Pushed c c' c.chain.recent e) :
    Trades c.chain c'.chain (if c.size < c.capacity then none else c.chain.coldest?) ∧
      (c.capacity ≤ c.size → ∃ x, c.chain.coldest? = some x ∧ c'.chain.isEvicted x = true) := by
  obtain ⟨order, hs⟩ := h.coherent.sound
  have hlen : c.chain.recent.length = c.size := h.matches.size
  split
  · next hroom =>
    have hrecent := hp.recent.trans (List.take_of_length_le (by rw [List.length_cons]; omega))
    exact ⟨hs.trades_of_front hp.ages hp.size hrecent (fun x hx => by cases hx) fun x => by simp,
      fun hfull => absurd hroom (Nat.not_lt_of_le hfull)⟩
  · next hfull =>
    have hne : c.chain.recent ≠ [] := fun hnil => by
      rw [hnil, List.length_nil] at hlen
      omega
    obtain ⟨xs, y, hxs⟩ : ∃ xs y, c.chain.recent = xs ++ [y] := ⟨_, _, (List.dropLast_concat_getLast hne).symm⟩
    have hcapacity : c.capacity = (c.chain.size :: xs).length := by
      rw [hxs, List.length_append, List.length_singleton] at hlen
      rw [List.length_cons]
      omega
    have hcoldest : c.chain.coldest? = some y := by rw [Chain.coldest?, hxs, List.getLast?_concat]
    have hrecent := hp.recent
    have hevicted := hp.evicted
    rw [hxs, ← List.cons_append, hcapacity, List.take_left] at hrecent
    rw [hxs, ← List.cons_append, hcapacity, List.drop_left] at hevicted
    rw [hcoldest]
    refine ⟨hs.trades_of_front hp.ages hp.size hrecent (fun x hx => ?_) fun x => ?_,
      fun _ => ⟨y, rfl, hevicted y List.mem_cons_self⟩⟩
    · cases hx
      rw [hxs]
      exact List.mem_append_right _ List.mem_cons_self
    · have hnd := h.coherent.nodup_recent
      rw [hxs] at hnd ⊢
      have hlast (hx : x ∈ xs) : y ≠ x := fun he => (List.nodup_append.mp hnd).2.2 x hx y List.mem_cons_self he.symm
      grind

theorem renews_set (h : Quiet c) (hsize : c.size ≤ c.capacity) (hpos : 0 < c.capacity) (k : κ) (v : ν) :
    ∃ n c', Finishes resume n (start (.set k v) c) c' .stored ∧ Renews c (.set k v) c' := by
  obtain ⟨n, c', -, hfin, hp⟩ := finishes_set h hsize k v
  refine ⟨n, c', hfin, ?_⟩
  cases hf : c.index.find? k with
  | some x =>
    have hs : superseded? c (.set k v) = some x := by rw [superseded?, hf]
    have hothers := length_others_lt h hf
    refine ⟨?_, hp.neat, fun k' v' hr habsent => ?_⟩
    · rw [hs]
      exact h.trades_found hf hp (hp.recent.trans (List.take_of_length_le (by rw [List.length_cons]; omega)))
    · cases hr
      rw [hf] at habsent
      cases habsent
  | none =>
    have hs : superseded? c (.set k v) = if c.size < c.capacity then none else c.chain.coldest? := by
      rw [superseded?, hf]
    rw [others_of_absent hf] at hp
    obtain ⟨ht, hevicted⟩ := h.trades_new hsize hpos hp
    refine ⟨?_, hp.neat, fun _ _ _ _ => ?_⟩
    · rw [hs]
      exact ht
    · intro hfull
      rw [hs, if_neg (Nat.not_lt_of_le hfull)]
      exact hevicted hfull

/-- A request that asks for the entry of a key. -/
theorem renews_get (h : Quiet c) (hsize : c.size ≤ c.capacity) (k : κ) {r : Request κ ν}
    (hr : superseded? c r = c.index.find? k) (hset : r.isSet = false) :
    ∃ n c' found, Finishes resume n (start (.get k) c) c' (.found found) ∧ Renews c r c' := by
  cases hf : c.index.find? k with
  | none => exact ⟨1, c, none, finishes_get_absent hf, renews_refl (hr.trans hf) hset⟩
  | some x =>
    obtain ⟨n, c', e, -, hfin, -, hp, hrecent⟩ := finishes_get h hsize hf
    refine ⟨n, c', some e, hfin, ?_, hp.neat, fun k' v hr' => ?_⟩
    · rw [hr, hf]
      exact h.trades_found hf hp hrecent
    · rw [hr'] at hset
      cases hset

omit [EquivBEq κ] in
/-- If no call is in progress, a neat chain is tidy. -/
theorem Quiet.tidy (h : Quiet c) (hn : Neat c.chain) : Tidy c.chain := by
  obtain ⟨order, hs⟩ := h.coherent.sound
  refine hs.tidy_of_neat hn fun x hx => ?_
  rw [List.flatMap_nil, List.append_nil] at hx
  cases hd : c.chain.isDeleted x with
  | false => rfl
  | true => exact absurd ⟨hx, hd⟩ (h.settled x)

namespace Session

variable [ToString κ] [ToString ν] {capacity : Nat} {s : Session κ ν}

/-- **A request that nothing interrupts** comes to its end, deletes just what it makes superfluous, and leaves a neat chain
neat. -/
theorem renews_start (h : Cache.Kept capacity s.cache []) (hpos : 0 < capacity) (r : Request κ ν) :
    ∃ n s' a, Finishes resume n (start r s) s' a ∧ Cache.Kept capacity s'.cache [] ∧ Renews s.cache r s'.cache := by
  obtain ⟨hq, hcap, hsize⟩ := h
  have hkept : Cache.Kept capacity s.cache [] := ⟨hq, hcap, hsize⟩
  have hcall (call : Call κ ν) (ho : ∃ n c' reply, Finishes Cache.resume n (Cache.start call s.cache) c' reply ∧
      Renews s.cache r c') : ∃ n s' a, Finishes resume n (s.advance r (Cache.start call s.cache)) s' a ∧
        Cache.Kept capacity s'.cache [] ∧ Renews s.cache r s'.cache := by
    obtain ⟨n, c', reply, hfin, hr⟩ := ho
    obtain ⟨s', hfin', rfl, hkept'⟩ := finishes_call (r := r) hkept call hfin
    exact ⟨n, s', _, hfin', hkept', hr⟩
  have hget (k : κ) (hr : superseded? s.cache r = s.cache.index.find? k) (hset : r.isSet = false) :=
    hcall (.get k) (by
      obtain ⟨n, c', found, hfin, hren⟩ := renews_get hq (hcap ▸ hsize) k hr hset
      exact ⟨n, c', _, hfin, hren⟩)
  have hlist (f : List (Entry Nat κ ν) → Answer κ ν) (hr : superseded? s.cache r = none) (hset : r.isSet = false) :
      ∃ n s' a, Finishes resume n (s.list f) s' a ∧ Cache.Kept capacity s'.cache [] ∧ Renews s.cache r s'.cache := by
    refine ⟨0, (s.list f).1, _, .done _ _, ?_⟩
    obtain ⟨order, hs⟩ := hq.coherent.sound
    rcases list_cache s f with hc | hc <;> rw [hc]
    · exact ⟨hkept, renews_refl hr hset⟩
    · exact ⟨hkept.walk, renews_walk hs hr hset⟩
  cases r with
  | set k v =>
    obtain ⟨n, c', hfin, hren⟩ := renews_set hq (hcap ▸ hsize) (hcap ▸ hpos) k v
    exact hcall (.set k v) ⟨n, c', _, hfin, hren⟩
  | get k => exact hget k rfl rfl
  | getEntry k keep => exact hget k rfl rfl
  | contains k => exact hcall (.contains k) ⟨1, s.cache, _, .pause (.done _ _), renews_refl rfl rfl⟩
  | entries => exact hlist _ rfl rfl
  | text => exact hlist _ rfl rfl
  | capacity => exact ⟨0, s, _, .done _ _, hkept, renews_refl rfl rfl⟩
  | isEmpty => exact ⟨0, s, _, .done _ _, hkept, renews_refl rfl rfl⟩
  | held name => exact ⟨0, s, _, .done _ _, hkept, renews_refl rfl rfl⟩
  | same a b =>
    obtain ⟨answer, ha⟩ := start_same s a b
    rw [ha]
    exact ⟨0, s, _, .done _ _, hkept, renews_refl rfl rfl⟩
  | unhold name => exact ⟨0, _, _, .done _ _, hkept, renews_refl rfl rfl⟩

/-! ## The end of the cache -/

omit [EquivBEq κ] [ToString κ] [ToString ν] in
/-- The index gives back its links without consequences, and then the entries go, the least recent first. -/
theorem retired_dismantled (h : Quiet s.cache) (hn : Neat s.cache.chain) :
    s.dismantled.retired = s.cache.chain.retired ++ s.cache.chain.recent.reverse := by
  obtain ⟨order, hs⟩ := h.coherent.sound
  rw [List.flatMap_nil, List.append_nil] at hs
  obtain ⟨hs', f⟩ := hs.releaseAll
  have hkept := Chain.retired_releaseAll h.nodup_drain fun x hx => h.two_le_links hx
  rw [← hkept, ← hs.recent_alike hs' f.toSteady.alike]
  exact hs'.retired_dismantle (hs'.neat_loosens hn (Chain.loosens_releaseAll _ _))

/-! ## Sessions -/

omit [BEq κ] [EquivBEq κ] [ToString κ] [ToString ν] in
/-- A cache has room for one entry at least. -/
theorem chosen_pos {p : Policy} {wanted : Option Nat} (hs : create p wanted = .ok s) : 0 < chosen wanted := by
  cases wanted with
  | none => decide
  | some n =>
    rw [create, Cache.create] at hs
    split at hs
    · cases hs
    · next hn => exact Nat.pos_of_ne_zero hn

section Moments

variable {p : Policy} {wanted : Option Nat} (hs : create p wanted = .ok s) (script : Interleave.Script (Request κ ν))
include hs

/-- What was retired stays retired. -/
theorem retired_moments (n k : Nat) :
    (moment s script n).state.cache.chain.retired <+: (moment s script (n + k)).state.cache.chain.retired := by
  induction k with
  | zero => exact List.prefix_refl _
  | succ k ih => exact ih.trans ((does_moment hs script (n + k)).retired (coherent_moment hs script (n + k)))

/-- If one request comes after the other, the chain is neat whenever no call is in progress. -/
theorem neat_moment (hserial : Machine.Serial system (Machine.init s script)) {n : Nat}
    (hidle : (moment s script n).stack = []) : Neat (moment s script n).state.cache.chain := by
  have hstart : Cache.Kept (chosen wanted) s.cache [] ∧ Neat s.cache.chain := by
    refine ⟨(kept_create hs).1, ?_⟩
    rw [(create_eq hs).1]
    exact Chain.neat_empty p
  have hheads := hserial.heads (P := fun s => Cache.Kept (chosen wanted) s.cache [] ∧ Neat s.cache.chain) rfl hstart
    (fun r s h => by
      obtain ⟨n, s', a, hfin, hkept, hren⟩ := renews_start h.1 (chosen_pos hs) r
      exact ⟨n, s', a, hfin, hkept, hren.neat h.2⟩) n
  exact (hheads.holds hidle).2

/-- If one request comes after the other, each comes to its end, and then it was served as it is served alone. -/
theorem renews_moment (hserial : Machine.Serial system (Machine.init s script)) {n : Nat} {r : Request κ ν}
    (hm : (moment s script n).move = .start r) : (∃ l, Machine.IsCall system (moment s script n) l) ∧
      ∀ l, Machine.IsCall system (moment s script n) l → (moment s script (n + (l + 1))).stack = [] ∧
        Renews (moment s script n).state.cache r (moment s script (n + (l + 1))).state.cache := by
  have hlater : Machine.Serial system (moment s script n) := hserial.steps n
  obtain ⟨k, s', a, hfin, -, hren⟩ := renews_start (quiet_moment hs (hserial n r hm)) (chosen_pos hs) r
  refine ⟨hlater.call_of_finishes hm hfin, fun l hcall => ?_⟩
  obtain ⟨hended, hstate⟩ := hlater.state_of_finishes hm hcall hfin
  rw [moment_add] at hended hstate
  exact ⟨hended, hstate ▸ hren⟩

end Moments

/-- Nothing waits to be retired when the request has been served that made it superfluous. -/
structure Prompt (s : Session κ ν) (script : Interleave.Script (Request κ ν)) : Prop where
  /-- Whenever no call is in progress, the chain leads along the live nodes, each hint on it is at the node before, and of
  the nodes that carry entries just the live ones were not retired, as many as the cache says. -/
  swept : ∀ n, (moment s script n).stack = [] → Swept (moment s script n).state.cache
  /-- A request that starts comes to its end. -/
  ended : ∀ n r, (moment s script n).move = .start r → ∃ l, Machine.IsCall system (moment s script n) l
  /-- A whole request retires the node that it makes superfluous, and no other. -/
  served : ∀ n l r, (moment s script n).move = .start r → Machine.IsCall system (moment s script n) l →
    (moment s script (n + (l + 1))).stack = [] ∧
      (moment s script (n + (l + 1))).state.cache.chain.retired =
        (moment s script n).state.cache.chain.retired ++ (superseded? (moment s script n).state.cache r).toList
  /-- If the request brings a new key for which there is no room, there is such a node, and it is evicted. -/
  evicted : ∀ n l k v, (moment s script n).move = .start (.set k v) → Machine.IsCall system (moment s script n) l →
    (moment s script n).state.cache.index.find? k = none →
      (moment s script n).state.cache.capacity ≤ (moment s script n).state.cache.size →
        ∃ x, superseded? (moment s script n).state.cache (.set k v) = some x ∧
          (moment s script (n + (l + 1))).state.cache.chain.isEvicted x = true
  /-- When the cache goes, the live nodes are retired, the least recent first. -/
  dropped : ∀ n, (moment s script n).stack = [] →
    (moment s script n).state.dismantled.retired =
      (moment s script n).state.cache.chain.retired ++ (moment s script n).state.cache.chain.recent.reverse

/-- **Without interruptions garbage is retired at once**, whatever the capacity. -/
theorem reclaimed_at_once {p : Policy} {wanted : Option Nat} {s : Session κ ν} (hs : create p wanted = .ok s)
    (script : Interleave.Script (Request κ ν)) (hserial : Machine.Serial system (Machine.init s script)) :
    Prompt s script := by
  have hquiet {n : Nat} (hidle : (moment s script n).stack = []) := (quiet_moment hs hidle).1
  have htidy {n : Nat} (hidle : (moment s script n).stack = []) :=
    (hquiet hidle).tidy (neat_moment hs script hserial hidle)
  refine ⟨fun n hidle => (hquiet hidle).swept (htidy hidle),
    fun n r hm => (renews_moment hs script hserial hm).1, fun n l r hm hcall => ?_, fun n l k v hm hcall hk hfull => ?_,
    fun n hidle => retired_dismantled (hquiet hidle) (neat_moment hs script hserial hidle)⟩
  · have hidle := hserial n r hm
    obtain ⟨hended, hren⟩ := (renews_moment hs script hserial hm).2 l hcall
    obtain ⟨order, hsound⟩ := (hquiet hidle).coherent.sound
    obtain ⟨order', hsound'⟩ := (hquiet hended).coherent.sound
    exact ⟨hended, hren.trades.retired hsound hsound' (htidy hidle) (htidy hended)
      (retired_moments hs script n (l + 1))⟩
  · obtain ⟨-, hren⟩ := (renews_moment hs script hserial hm).2 l hcall
    exact hren.evicted k v rfl hk hfull

/-- Room for two: an entry is asked for, and then a third key comes, so that the second one is evicted. -/
theorem reclaimed_at_once_full : ∃ (s : Session Nat Nat) (script : Interleave.Script (Request Nat Nat)),
    create .deferred (some 2) = .ok s ∧ Machine.Serial system (Machine.init s script) ∧
      (moment s script 13).move = .start (.set 3 30) ∧ Machine.IsCall system (moment s script 13) 5 ∧
      superseded? (moment s script 13).state.cache (.set 3 30) = some 3 ∧
      (moment s script 13).state.cache.chain.retired = [2] ∧
      (moment s script 19).state.cache.chain.retired = [2] ++ [3] ∧
      (moment s script 19).state.cache.chain.isEvicted 3 = true ∧
      (moment s script 19).state.dismantled.retired = [2] ++ [3] ++ [4, 5] ∧ Prompt s script := by
  let s : Session Nat Nat := ⟨⟨.empty .deferred, .empty, 2, 0, [.created 2]⟩, []⟩
  have hs : create .deferred (some 2) = .ok s := rfl
  let script : Interleave.Script (Request Nat Nat) := .plain [.set 1 10, .set 2 20, .get 1, .set 3 30]
  have hserial : Machine.Serial system (Machine.init s script) := Machine.serial_plain s _
  have hprompt := reclaimed_at_once hs script hserial
  have hmove : (moment s script 13).move = .start (.set 3 30) := by
    have hcreated : (created? s.cache (moment s script 13).move).map (fun e => (e.key, e.value)) = some (3, 30) := by
      decide +kernel
    generalize (moment s script 13).move = move at hcreated ⊢
    unfold created? at hcreated
    split at hcreated
    · cases hcreated
      rfl
    · cases hcreated
  have hcall : Machine.IsCall system (moment s script 13) 5 := by
    have hduring : ∀ j < 6, 0 < j →
        (moment s script 13).stages.length < (Machine.steps system j (moment s script 13)).stages.length := by
      decide +kernel
    exact ⟨⟨_, hmove⟩, fun j h₀ hj => hduring j (by omega) h₀, by decide +kernel⟩
  have hgone : superseded? (moment s script 13).state.cache (.set 3 30) = some 3 := by decide +kernel
  have hbefore : (moment s script 13).state.cache.chain.retired = [2] := by decide +kernel
  have hnext : 13 + (5 + 1) = 19 := rfl
  have hafter := (hprompt.served 13 5 _ hmove hcall).2
  rw [hgone, hbefore, hnext] at hafter
  obtain ⟨x, hx, hevicted⟩ := hprompt.evicted 13 5 3 30 hmove hcall (by decide +kernel) (by decide +kernel)
  obtain rfl : 3 = x := Option.some.inj (hgone.symm.trans hx)
  rw [hnext] at hevicted
  have hdropped := hprompt.dropped 19 (List.eq_nil_of_length_eq_zero (by decide +kernel))
  have hlive : (moment s script 19).state.cache.chain.recent = [5, 4] := by decide +kernel
  rw [hafter, hlive] at hdropped
  exact ⟨s, script, hs, hserial, hmove, hcall, hgone, hbefore, hafter, hevicted, hdropped, hprompt⟩

end Session
end Cache
end LeastRecent
