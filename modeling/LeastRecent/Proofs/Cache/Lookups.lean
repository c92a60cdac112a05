import LeastRecent.Proofs.Cache.Changes
import LeastRecent.Proofs.Cache.Replies

/-!
# The latest publication wins

`Faithful` says what lookups give in a session, however its calls interleave: the entry of the latest publication for
the key, or nothing if there was none or if that entry was purged. Only a request to store publishes, once and nothing
but its own entry, and a request that asks for a key is answered by what it found when it first looked at the index,
whatever becomes of the entry afterwards (`latest_publication_wins`).

The request that the entry of a suspended call comes from is followed from step to step (`Pledged`). What one call finds
and publishes is what decides its reply (`leads_look`, `leads_store`).
-/

namespace LeastRecent.Cache.Session

open Interleave (Machine)
open Interleave.Machine (IsCall GoesOn)

variable {κ ν : Type}

/-- The key that is asked for. -/
def Request.key? : Request κ ν → Option κ
  | .get k | .getEntry k _ | .contains k => some k
  | _ => none

/-- The stage at which the call of a request looks for the key `k`. -/
def Request.look (k : κ) : Request κ ν → Stage κ ν
  | .contains _ => .probe k
  | _ => .fetch k

/-- The reply to the call if `found` is what it found. -/
def Request.reply (found : Option (Entry Nat κ ν)) : Request κ ν → Reply κ ν
  | .contains _ => .present found.isSome
  | _ => .found found

variable [ToString κ] [ToString ν]

/-- A request for a key starts with the stage at which its call looks for it. -/
theorem outcome_start {s : Session κ ν} {r : Request κ ν} {k : κ} (h : s.cache.chain.fault = none)
    (hk : r.key? = some k) : (start r s).2 = .pause ⟨r, r.look k⟩ := by
  cases r with
  | get k' => cases hk; exact outcome_advance h
  | getEntry k' keep => cases hk; exact outcome_advance h
  | contains k' => cases hk; exact outcome_advance h
  | _ => cases hk

/-! ## Whose entry it is -/

/-- The entry that the call is to put in front or to publish is that of its request. -/
def Pledged (p : Suspended κ ν) : Prop :=
  ∀ e, p.stage.aim.unpublished? = some e → p.request = .set e.key e.value

omit [ToString κ] [ToString ν] in
/-- A call that looks for a key has no entry. -/
theorem pledged_look (r : Request κ ν) (k : κ) : Pledged ⟨r, r.look k⟩ := by
  intro e he
  cases r <;> cases he

theorem pledged_start {s : Session κ ν} (r : Request κ ν) (h : s.cache.chain.fault = none) :
    ∀ p ∈ (start r s).2.stages, Pledged p := by
  have hask {k : κ} (hk : r.key? = some k) : ∀ p ∈ (start r s).2.stages, Pledged p := by
    intro p hp
    rw [outcome_start h hk] at hp
    rw [List.mem_singleton.mp hp]
    exact pledged_look r k
  cases r with
  | set k v =>
    intro p hp e he
    have hout : (start (.set k v) s).2 = .pause ⟨.set k v, .find ⟨s.cache.serial, k, v⟩⟩ := outcome_advance h
    rw [hout] at hp
    cases List.mem_singleton.mp hp
    cases he
    rfl
  | get k => exact hask rfl
  | getEntry k keep => exact hask rfl
  | contains k => exact hask rfl
  | same a b =>
    obtain ⟨answer, ha⟩ := start_same s a b
    rw [ha]
    intro p hp
    cases hp
  | _ =>
    intro p hp
    cases hp

variable [BEq κ] [EquivBEq κ]

omit [ToString κ] [ToString ν] in
theorem pledged_resume {s : Session κ ν} {p : Suspended κ ν} {stages : List (Stage κ ν)}
    (h : Coherent s.cache.chain s.cache.index.slots (p.stage :: stages)) (hp : Pledged p) :
    ∀ p' ∈ (resume p s).2.stages, Pledged p' := by
  obtain ⟨r, st⟩ := p
  intro p' hp'
  have hpursues := pursues_turn h
  rw [outcome_resume h] at hp'
  cases hout : (Cache.resume st s.cache).2 with
  | pause st' =>
    rw [hout] at hp' hpursues
    rw [List.mem_singleton.mp hp']
    intro e he
    -- whatever the call has then, it had before
    have haim : st'.aim = st.turn s.cache := hpursues
    have hmem : e ∈ st.aim.unpublished?.toList := by
      rw [hands_unpublished.turn st s.cache, ← haim]
      exact List.mem_append_right _ (Option.mem_toList.mpr he)
    exact hp e (Option.mem_toList.mp hmem)
  | done reply =>
    rw [hout] at hp'
    cases hp'

section Moments

variable {p : Policy} {capacity : Option Nat} {s : Session κ ν}

theorem pledged_moment (hs : create p capacity = .ok s) (script : Interleave.Script (Request κ ν)) (n : Nat) :
    ∀ p ∈ (moment s script n).stages, Pledged p := by
  induction n with
  | zero =>
    intro p hp
    cases hp
  | succ n ih =>
    have hc := coherent_moment hs script n
    show ∀ p ∈ ((moment s script n).step system).stages, Pledged p
    cases hm : (moment s script n).move with
    | rest =>
      rw [(Machine.step_rest system hm).2]
      exact ih
    | start r =>
      rw [(Machine.step_start system hm).2]
      intro p hp
      rcases List.mem_append.mp hp with hp | hp
      · exact pledged_start r hc.clean p hp
      · exact ih p hp
    | resume q =>
      obtain ⟨rest, hrest, -, hst⟩ := Machine.step_resume system hm
      rw [stagesAt, hrest] at hc
      rw [hrest] at ih
      rw [hst]
      intro p hp
      rcases List.mem_append.mp hp with hp | hp
      · exact pledged_resume hc (ih q List.mem_cons_self) p hp
      · exact ih p (List.mem_cons_of_mem _ hp)

/-- **Only requests to store publish**, each its own entry. -/
theorem publisher (hs : create p capacity = .ok s) (script : Interleave.Script (Request κ ν)) {n : Nat}
    {e : Entry Nat κ ν} (he : changeAt? s script n = some (.stored e)) :
    ∃ fresh, (moment s script n).move = .resume ⟨.set e.key e.value, .publish e fresh⟩ := by
  have hpublished : (resumed? (moment s script n).move).bind Stage.published? = some e := by
    rw [changeAt?] at he
    rw [← stored_change (moment s script n).state.cache, he]
    rfl
  cases hm : (moment s script n).move with
  | rest => rw [hm] at hpublished; cases hpublished
  | start r => rw [hm] at hpublished; cases hpublished
  | resume q =>
    rw [hm] at hpublished
    obtain ⟨rest, hrest, -⟩ := Machine.step_resume system hm
    have hq : Pledged q := pledged_moment hs script n q (by rw [hrest]; exact List.mem_cons_self)
    obtain ⟨r, st⟩ := q
    cases st with
    | publish e' fresh =>
      cases hpublished
      have hr : r = .set e.key e.value := hq e rfl
      exact ⟨fresh, by rw [hr]⟩
    | _ => cases hpublished

end Moments

/-! ## What one call looks for -/

omit [ToString κ] [ToString ν] in
/-- A call that looks for a key replies with what it found. -/
theorem turn_look {c : Cache κ ν} {stages : List (Stage κ ν)} (h : Coherent c.chain c.index.slots stages)
    (r : Request κ ν) (k : κ) : (r.look k).turn c = .reply (r.reply (c.lookup k)) := by
  cases r with
  | contains k' =>
    show Aim.reply (.present (c.index.find? k).isSome) = .reply (.present (c.lookup k).isSome)
    cases hx : c.index.find? k with
    | none => rw [lookup_of_absent hx]; rfl
    | some x =>
      obtain ⟨e, he, -⟩ : Bears c.chain x k := h.filed.bears_of_lookup hx
      rw [lookup_of_find? hx he]
      rfl
  | _ => rfl

/-- `j` steps after the request `r` came its call looks for `k`, and it did nothing before. -/
structure Looks (s : Session κ ν) (script : Interleave.Script (Request κ ν)) (n : Nat) (r : Request κ ν) (k : κ)
    (j : Nat) : Prop extends Resumes s script n r (n + j) (r.look k) where
  later : 0 < j
  first : ∀ i, 0 < i → i < j → ¬GoesOn system (moment s script n) i

section Call

variable {p : Policy} {capacity : Option Nat} {s : Session κ ν} (hs : create p capacity = .ok s)
  (script : Interleave.Script (Request κ ν)) {n l : Nat}
include hs

/-- A call that looks for a key does so first, and turns to its reply. -/
theorem leads_look {r : Request κ ν} {k : κ} (hk : r.key? = some k) : Leads s script n r (r.look k) fun i st =>
    st = r.look k ∧ ∀ i', 0 < i' → i' ≤ i → ¬GoesOn system (moment s script n) i' where
  start := outcome_start (coherent_moment hs script n).clean hk
  base := ⟨rfl, fun i h₀ hi => by omega⟩
  wait i st hpre hown := by
    refine ⟨hpre.1, fun i' h₀ hi => ?_⟩
    rcases Nat.lt_or_eq_of_le hi with hi | rfl
    · exact hpre.2 i' h₀ (Nat.le_of_lt_succ hi)
    · exact hown
  turn i st st' hpre haim := by
    rw [hpre.1] at haim
    exact Or.inl ⟨_, haim.trans (turn_look (coherent_moment hs script _) r k)⟩

/-- **A request that asks for a key** is answered by what it found when it first looked. -/
theorem answered {r : Request κ ν} {k : κ} (hk : r.key? = some k) (hr : (moment s script n).move = .start r)
    (hcall : IsCall system (moment s script n) l) :
    ∃ j served, j ≤ l ∧ Looks s script n r k j ∧ Machine.ending? system (moment s script (n + l)) = some served ∧
      served.answer = verdict r (r.reply ((moment s script (n + j)).state.cache.lookup k)) := by
  obtain ⟨reply, served, ⟨i, hi, st, hd⟩, hend, ha⟩ := (leads_look hs script hk).decided hs hr hcall
  obtain ⟨rfl, hfirst⟩ := hd.pre
  have hreply := hd.turn
  rw [turn_look (coherent_moment hs script _) r k] at hreply
  cases hreply
  exact ⟨i + 1, served, hi, ⟨hd.toResumes, Nat.succ_pos i, fun i' h₀ hi' => hfirst i' h₀ (Nat.le_of_lt_succ hi')⟩,
    hend, ha⟩

omit [EquivBEq κ] [ToString κ] [ToString ν] hs in
/-- A call that has its entry turns to publishing it. -/
theorem turn_of_link {st : Stage κ ν} {e : Entry Nat κ ν} (h : st.aim = .link e) (c : Cache κ ν) :
    st.turn c = .link e ∨ st.turn c = .publish e := by
  cases st with
  | front g =>
    cases g with
    | store e' => cases h; exact Or.inr rfl
    | promote k e' stale => cases h
  | publish e' fresh => cases h
  | fetch k => cases h
  | probe k => cases h
  | _ => exact Or.inl h

omit [BEq κ] [EquivBEq κ] [ToString κ] [ToString ν] hs in
theorem stage_of_publish {st : Stage κ ν} {e : Entry Nat κ ν} (h : st.aim = .publish e) :
    ∃ fresh, st = .publish e fresh := by
  cases st with
  | push g => cases g <;> cases h
  | front g => cases g <;> cases h
  | publish e' fresh => cases h; exact ⟨fresh, rfl⟩
  | _ => cases h

/-- A call that stores has its entry until it publishes that. -/
theorem leads_store (k : κ) (v : ν) :
    Leads s script n (.set k v) (.find ⟨(moment s script n).state.cache.serial, k, v⟩) fun _ st =>
      st.aim = .link ⟨(moment s script n).state.cache.serial, k, v⟩ ∨
        st.aim = .publish ⟨(moment s script n).state.cache.serial, k, v⟩ where
  start := outcome_advance (coherent_moment hs script n).clean
  base := Or.inl rfl
  wait i st hpre _ := hpre
  turn i st st' hpre haim := by
    rw [haim]
    rcases hpre with hlink | hpublish
    · exact Or.inr (turn_of_link hlink _)
    · obtain ⟨fresh, rfl⟩ := stage_of_publish hpublish
      exact Or.inl ⟨.stored, rfl⟩

/-- **A request to store** publishes the entry that it labelled when it came. -/
theorem stored {k : κ} {v : ν} (hr : (moment s script n).move = .start (.set k v))
    (hcall : IsCall system (moment s script n) l) :
    ∃ j fresh served, j ≤ l ∧
      Resumes s script n (.set k v) (n + j) (.publish ⟨(moment s script n).state.cache.serial, k, v⟩ fresh) ∧
      changeAt? s script (n + j) = some (.stored ⟨(moment s script n).state.cache.serial, k, v⟩) ∧
      Machine.ending? system (moment s script (n + l)) = some served ∧ served.answer = .done := by
  obtain ⟨reply, served, ⟨i, hi, st, hd⟩, hend, ha⟩ := (leads_store hs script k v).decided hs hr hcall
  have hturn := hd.turn
  rcases hd.pre with hlink | hpublish
  · rcases turn_of_link hlink (moment s script (n + (i + 1))).state.cache with h | h <;> rw [h] at hturn <;> cases hturn
  · obtain ⟨fresh, rfl⟩ := stage_of_publish hpublish
    cases hturn
    have hchange : changeAt? s script (n + (i + 1)) =
        some (.stored ⟨(moment s script n).state.cache.serial, k, v⟩) := by
      rw [changeAt?, hd.next]
      rfl
    exact ⟨i + 1, fresh, served, hi, hd.toResumes, hchange, hend, ha⟩

end Call

/-! ## All lookups of a session -/

/-- What lookups give in a session. -/
structure Faithful (s : Session κ ν) (script : Interleave.Script (Request κ ν)) : Prop where
  /-- A node that is found carries the entry published last for the key, which was not purged since. -/
  found : ∀ n k x, (moment s script n).state.cache.index.find? k = some x →
    ∃ e since, (moment s script n).state.cache.chain.carried? x = some e ∧ Latest k (changes s script n) e since ∧
      .purged e ∉ since
  /-- No node is found only if no entry was published for the key, or if the last one was purged since. -/
  absent : ∀ n k, (moment s script n).state.cache.index.find? k = none →
    (∀ e, .stored e ∈ changes s script n → (k == e.key) = false) ∨
      ∃ e since, Latest k (changes s script n) e since ∧ .purged e ∈ since
  /-- An entry is published by the call of its own request. -/
  publisher : ∀ n e, changeAt? s script n = some (.stored e) →
    ∃ fresh, (moment s script n).move = .resume ⟨.set e.key e.value, .publish e fresh⟩
  /-- Each entry has a label of its own. -/
  distinct : ∀ n, ((created s script n).map Entry.label).Nodup
  /-- Each entry was published once, or it is still to be published by a call in progress. -/
  once : ∀ n, (created s script n).Perm ((changes s script n).filterMap Change.stored? ++
    (stagesAt s script n).flatMap fun st => st.aim.unpublished?.toList)
  /-- What is purged was found, in a node that was evicted, and is not found any more. -/
  purged : ∀ n e, changeAt? s script n = some (.purged e) → ∃ k x, (k == e.key) = true ∧
    (moment s script n).state.cache.index.find? k = some x ∧
    (moment s script n).state.cache.chain.carried? x = some e ∧
    (moment s script n).state.cache.chain.isEvicted x = true ∧
    (moment s script (n + 1)).state.cache.index.find? k = none
  /-- All other steps leave every key with its entry. -/
  unchanged : ∀ n, changeAt? s script n = none → ∀ k,
    (moment s script (n + 1)).state.cache.lookup k = (moment s script n).state.cache.lookup k
  /-- A call that does not store leaves every key with its entry, unless it purges that. -/
  promotion : ∀ n q, (moment s script n).move = .resume q → q.request.isSet = false → ∀ k,
    (moment s script (n + 1)).state.cache.lookup k = (moment s script n).state.cache.lookup k ∨
      ∃ e, changeAt? s script n = some (.purged e) ∧ (moment s script n).state.cache.lookup k = some e ∧
        (moment s script (n + 1)).state.cache.lookup k = none
  /-- A request to store publishes the entry that it labelled when it came. -/
  stored : ∀ n l k v, (moment s script n).move = .start (.set k v) → IsCall system (moment s script n) l →
    ∃ j fresh served, j ≤ l ∧
      Resumes s script n (.set k v) (n + j) (.publish ⟨(moment s script n).state.cache.serial, k, v⟩ fresh) ∧
      changeAt? s script (n + j) = some (.stored ⟨(moment s script n).state.cache.serial, k, v⟩) ∧
      Machine.ending? system (moment s script (n + l)) = some served ∧ served.answer = .done
  /-- A request that asks for a key is answered by what it found when it first looked. -/
  answered : ∀ n l r k, r.key? = some k → (moment s script n).move = .start r → IsCall system (moment s script n) l →
    ∃ j served, j ≤ l ∧ Looks s script n r k j ∧ Machine.ending? system (moment s script (n + l)) = some served ∧
      served.answer = verdict r (r.reply ((moment s script (n + j)).state.cache.lookup k))

/-- **The latest publication wins**, and nothing comes back. -/
theorem latest_publication_wins {p : Policy} {capacity : Option Nat} {s : Session κ ν}
    (hs : create p capacity = .ok s) (script : Interleave.Script (Request κ ν)) : Faithful s script where
  found n k x hx := by
    obtain ⟨e, he, -⟩ : Bears _ x k := (coherent_moment hs script n).filed.bears_of_lookup hx
    have hrecalls := recalls_moment hs script n k
    rw [lookup_of_find? hx he] at hrecalls
    obtain ⟨since, hlatest, hpurged⟩ := hrecalls
    exact ⟨e, since, he, hlatest, hpurged⟩
  absent n k hk := by
    have hrecalls := recalls_moment hs script n k
    rwa [lookup_of_absent hk] at hrecalls
  publisher n e he := publisher hs script he
  distinct n := by
    rw [(traced_moment hs script n).labels]
    exact List.nodup_range
  once := published_moment hs script
  purged n e he := (does_moment hs script n).purges (coherent_moment hs script n) he
  unchanged n hn k := by
    rw [lookup_succ hs, hn]
    rfl
  promotion n q hm hq k := by
    rw [lookup_succ hs]
    cases hx : changeAt? s script n with
    | none => exact Or.inl rfl
    | some x =>
      cases x with
      | stored e =>
        obtain ⟨fresh, hset⟩ := publisher hs script hx
        rw [hm] at hset
        cases hset
        cases hq
      | purged e =>
        cases hk : k == e.key with
        | true => exact Or.inr ⟨e, rfl, lookup_purged hs script n hx hk, if_pos hk⟩
        | false => exact Or.inl (if_neg (by rw [hk]; exact Bool.false_ne_true))
  stored n l k v hr hcall := stored hs script hr hcall
  answered n l r k hk hr hcall := answered hs script hk hr hcall

/-- A key is stored before the request that asks for it looks, and again while its entry is promoted. The promotion is
lost, and the request has the entry that it found; the new one stays until it is evicted. -/
theorem latest_publication_wins_promoted : ∃ (s : Session Nat Nat) (script : Interleave.Script (Request Nat Nat)),
    create .epoch (some 1) = .ok s ∧ IsCall system (moment s script 0) 15 ∧
      ((moment s script 6).state.cache.lookup 1).map Entry.label = some 0 ∧
      ((moment s script 15).state.cache.lookup 1).map Entry.label = some 1 ∧
      ((moment s script 16).state.handles.map fun h => h.2.label) = [0] ∧
      ((moment s script 16).state.cache.lookup 1).map Entry.label = some 1 ∧
      ((moment s script 22).state.cache.lookup 1).map Entry.label = none ∧ Faithful s script := by
  let s : Session Nat Nat := ⟨⟨.empty .epoch, .empty, 1, 0, [.created 1]⟩, []⟩
  have hs : create .epoch (some 1) = .ok s := rfl
  let script : Interleave.Script (Request Nat Nat) :=
    .call (.getEntry 1 (some "kept"))
      (.stop 0 (.call (.set 1 10) .nil .nil) (.stop 3 (.call (.set 1 11) .nil .nil) .nil))
      (.call (.set 2 20) .nil .nil)
  have hduring : ∀ i < 16, 0 < i →
      (moment s script 0).stages.length < (Machine.steps system i (moment s script 0)).stages.length := by
    decide +kernel
  have hcall : IsCall system (moment s script 0) 15 :=
    ⟨⟨.getEntry 1 (some "kept"), rfl⟩, fun i h₀ hi => hduring i (by omega) h₀, by decide +kernel⟩
  exact ⟨s, script, hs, hcall, by decide +kernel, by decide +kernel, by decide +kernel, by decide +kernel,
    by decide +kernel, latest_publication_wins hs script⟩

end LeastRecent.Cache.Session
