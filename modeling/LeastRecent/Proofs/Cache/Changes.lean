import LeastRecent.Proofs.Cache.Trace

/-!
# What the index is about, over time

Of all that happens in a session two things change which entry is found for a key (`Change`): a call that stores
publishes its entry, and a node that was evicted leaves the index. `Change.after` says what is found then, and
`Does.lookup` that a step does exactly this. A promotion moves the entry to another node, so it changes nothing.

So what is found for a key is the entry that was published last, unless it was purged since (`Recalls`,
`recalls_moment`).
-/

namespace LeastRecent.Cache

variable {κ ν : Type}

/-- What changes the entry that is found for a key. -/
inductive Change (κ ν : Type)
  /-- The entry was published. -/
  | stored (e : Entry Nat κ ν)
  /-- The node with the entry was evicted, and left the index. -/
  | purged (e : Entry Nat κ ν)

/-- The entry that was published. -/
def Change.stored? : Change κ ν → Option (Entry Nat κ ν)
  | .stored e => some e
  | .purged _ => none

/-- The entry that a call publishes at this stage. -/
def Stage.published? : Stage κ ν → Option (Entry Nat κ ν)
  | .publish e _ => some e
  | _ => none

/-- The new entry that is not published yet. -/
def Aim.unpublished? : Aim κ ν → Option (Entry Nat κ ν)
  | .link e | .publish e => some e
  | _ => none

section Change

variable [BEq κ]

/-- What is found for `k` after the change, if it was `found` before. -/
def Change.after (k : κ) (found : Option (Entry Nat κ ν)) : Change κ ν → Option (Entry Nat κ ν)
  | .stored e => if k == e.key then some e else found
  | .purged e => if k == e.key then none else found

/-- What it changes to remove `k` if it maps to `x`. -/
def removal? (c : Cache κ ν) (k : κ) (x : NodeId) : Option (Change κ ν) :=
  if c.index.find? k = some x then (c.chain.carried? x).map .purged else none

/-- What a call changes when it goes on from a stage. -/
def Stage.change? (c : Cache κ ν) : Stage κ ν → Option (Change κ ν)
  | .publish e _ => some (.stored e)
  | .settle k x _ | .purge k x _ => c.removal? k x
  | _ => none

end Change

/-! ## The latest publication -/

section Latest

variable [BEq κ] {k : κ} {e : Entry Nat κ ν} {changes since : List (Change κ ν)} {found : Option (Entry Nat κ ν)}

/-- Of all entries for `k`, the one published last is `e`; after it came the changes `since`. -/
structure Latest (k : κ) (changes : List (Change κ ν)) (e : Entry Nat κ ν) (since : List (Change κ ν)) : Prop where
  split : ∃ before, changes = before ++ .stored e :: since
  key : (k == e.key) = true
  last : ∀ e', .stored e' ∈ since → (k == e'.key) = false

/-- What is found for `k` after the changes is the entry published last, and nothing if there is none or if it was
purged since. -/
def Recalls (changes : List (Change κ ν)) (k : κ) : Option (Entry Nat κ ν) → Prop
  | some e => ∃ since, Latest k changes e since ∧ .purged e ∉ since
  | none => (∀ e, .stored e ∈ changes → (k == e.key) = false) ∨ ∃ e since, Latest k changes e since ∧ .purged e ∈ since

/-- An entry that was just published is the latest. -/
theorem latest_stored (h : (k == e.key) = true) : Latest k (changes ++ [.stored e]) e [] :=
  ⟨⟨changes, rfl⟩, h, fun e' he' => (by cases he')⟩

/-- It is still the latest when other keys were published. -/
theorem Latest.append (h : Latest k changes e since) {x : Change κ ν}
    (hx : ∀ e', x = .stored e' → (k == e'.key) = false) : Latest k (changes ++ [x]) e (since ++ [x]) := by
  obtain ⟨before, hsplit⟩ := h.split
  refine ⟨⟨before, by simp [hsplit]⟩, h.key, fun e' he' => ?_⟩
  rcases List.mem_append.mp he' with he' | he'
  · exact h.last e' he'
  · exact hx e' (List.mem_singleton.mp he').symm

/-- **One more change.** Only what is found is purged. -/
theorem Recalls.after (h : Recalls changes k found) (x : Change κ ν)
    (hx : ∀ e, x = .purged e → (k == e.key) = true → found = some e) : Recalls (changes ++ [x]) k (x.after k found) := by
  -- a change for another key
  have hother (e' : Entry Nat κ ν) (hk : (k == e'.key) = false) (he' : x = .stored e' ∨ x = .purged e') :
      Recalls (changes ++ [x]) k found := by
    have hlast : ∀ e, x = .stored e → (k == e.key) = false := by
      rintro e rfl
      rcases he' with he' | he' <;> cases he'
      exact hk
    cases found with
    | some e =>
      obtain ⟨since, hl, hp⟩ := h
      refine ⟨_, hl.append hlast, fun hm => ?_⟩
      rcases List.mem_append.mp hm with hm | hm
      · exact hp hm
      · have hxe := List.mem_singleton.mp hm
        rw [← hxe] at he'
        rcases he' with he' | he' <;> cases he'
        rw [hl.key] at hk
        cases hk
    | none =>
      rcases h with h | ⟨e, since, hl, hp⟩
      · refine Or.inl fun e he => ?_
        rcases List.mem_append.mp he with he | he
        · exact h e he
        · exact hlast e (List.mem_singleton.mp he).symm
      · exact Or.inr ⟨e, _, hl.append hlast, List.mem_append_left _ hp⟩
  cases x with
  | stored e =>
    cases hk : k == e.key with
    | true =>
      rw [Change.after, hk, if_pos rfl]
      exact ⟨[], latest_stored hk, List.not_mem_nil⟩
    | false =>
      rw [Change.after, hk, if_neg Bool.false_ne_true]
      exact hother e hk (Or.inl rfl)
  | purged e =>
    cases hk : k == e.key with
    | true =>
      rw [Change.after, hk, if_pos rfl]
      rw [hx e rfl hk] at h
      obtain ⟨since, hl, -⟩ := h
      refine Or.inr ⟨e, _, hl.append fun e' he' => (by cases he'), ?_⟩
      simp
    | false =>
      rw [Change.after, hk, if_neg Bool.false_ne_true]
      exact hother e hk (Or.inr rfl)

end Latest

/-! ## What a step changes -/

namespace Session

open Interleave (Machine Move)

/-- What a step changes. -/
def change? [BEq κ] (c : Cache κ ν) (move : Move (Request κ ν) (Suspended κ ν)) : Option (Change κ ν) :=
  (resumed? move).bind (Stage.change? c)

/-- An entry is published when its call comes to that stage. -/
theorem hands_unpublished [BEq κ] : Hands (Aim.unpublished? (κ := κ) (ν := ν)) Stage.published? where
  link _ := rfl
  look _ := rfl
  reply _ := rfl
  turn st c := by
    cases st with
    | push g => rfl
    | front g => cases g <;> rfl
    | _ => rfl

/-- A call changes the index by an entry if it publishes that. -/
theorem stored_change [BEq κ] (c : Cache κ ν) (move : Move (Request κ ν) (Suspended κ ν)) :
    (change? c move).bind Change.stored? = (resumed? move).bind Stage.published? := by
  have hremoved (k : κ) (x : NodeId) : (c.removal? k x).bind Change.stored? = none := by
    unfold removal?
    split
    · cases c.chain.carried? x <;> rfl
    · rfl
  cases hm : resumed? move with
  | none => rw [change?, hm]; rfl
  | some st =>
    rw [change?, hm]
    cases st with
    | settle k x r => exact hremoved k x
    | purge k x r => exact hremoved k x
    | _ => rfl

section Step

variable [BEq κ] {c c' : Cache κ ν} {stages stages' : List (Stage κ ν)}
  {move : Move (Request κ ν) (Suspended κ ν)} {k : κ} {x y : NodeId} {e : Entry Nat κ ν}

theorem lookup_of_find? (hx : c.index.find? k = some x) (he : c.chain.carried? x = some e) : c.lookup k = some e := by
  rw [lookup, hx, Option.bind_some, he]

theorem lookup_of_absent (h : c.index.find? k = none) : c.lookup k = none := by
  rw [lookup, h, Option.bind_none]

/-- A call that goes on was in progress. -/
theorem Does.mem_of_resumed {st : Stage κ ν} (d : Does c stages move c' stages') (hm : resumed? move = some st) :
    st ∈ stages := by
  cases d with
  | resume r st' stages =>
    cases hm
    exact List.mem_cons_self
  | _ => cases hm

/-- The index after a step. -/
theorem Does.index (h : Coherent c.chain c.index.slots stages) (d : Does c stages move c' stages') :
    c'.index = (resumed? move).elim c.index (Stage.reindex c.index) := by
  cases d with
  | rest => rfl
  | store k v => rfl
  | ask _ _ hc => exact hc.index
  | resume r st stages =>
    rcases st.front_or with ⟨g, rfl⟩ | hst
    · rw [resume_front h]
      rfl
    · exact (leaves_resume hst c).index

variable [EquivBEq κ]

section Lookup

variable (h : Coherent c.chain c.index.slots stages) (d : Does c stages move c' stages')
include h d

/-- Where the index stays, the same entry is found. -/
theorem Does.lookup_eq (hk : c'.index.find? k = c.index.find? k) : c'.lookup k = c.lookup k := by
  cases hx : c.index.find? k with
  | none =>
    rw [hx] at hk
    rw [lookup_of_absent hx, lookup_of_absent hk]
  | some x =>
    obtain ⟨e, he, -⟩ : Bears c.chain x k := h.filed.bears_of_lookup hx
    rw [hx] at hk
    rw [lookup_of_find? hx he, lookup_of_find? hk ((d.ages h).carried he)]

/-- Where the index changes in one slot, what is found changes there. -/
theorem Does.lookup_slot {k₀ : κ} {y : Option NodeId}
    (hk : c'.index.find? k = if k == k₀ then y else c.index.find? k) :
    c'.lookup k = if k == k₀ then y.bind c'.chain.carried? else c.lookup k := by
  split at hk
  · next h₀ => rw [if_pos h₀, Cache.lookup, hk]
  · next h₀ =>
    rw [if_neg h₀]
    exact d.lookup_eq h hk

/-- The node `x` with the entry `e` is published. -/
theorem Does.lookup_publish (hi : c'.index = (c.index.publish e.key x).1) (he : c.chain.carried? x = some e) (k : κ) :
    c'.lookup k = Change.after k (c.lookup k) (.stored e) := by
  have hfind : c'.index.find? k = if k == e.key then some x else c.index.find? k := by
    rw [hi]
    exact Index.find?_publish _ _ _ _
  rw [d.lookup_slot h hfind, Option.bind_some, (d.ages h).carried he]
  rfl

/-- The node `y` takes the place of `x`, and both carry the entry `e`. -/
theorem Does.lookup_replace {k₀ : κ} (hi : c'.index = (c.index.replace k₀ x y).1) (hx : Carries c.chain x k₀ e)
    (hy : c.chain.carried? y = some e) (k : κ) : c'.lookup k = c.lookup k := by
  by_cases hf : c.index.find? k₀ = some x
  · have hfind : c'.index.find? k = if k == k₀ then some y else c.index.find? k := by
      rw [hi, Index.replace, if_pos hf]
      exact Index.lookup_assign _ _ _ _
    rw [d.lookup_slot h hfind, Option.bind_some, (d.ages h).carried hy]
    split
    · next hk =>
      have hold : c.index.find? k = some x :=
        h.filed.lookup_of_bears (Index.mem_nodes_of_lookup hf) ⟨e, hx.1, BEq.trans hk hx.2⟩
      exact (lookup_of_find? hold hx.1).symm
    · rfl
  · have hsame : c'.index = c.index := by rw [hi, Index.replace, if_neg hf]
    exact d.lookup_eq h (by rw [hsame])

/-- The node `x` leaves the index if it is the one for `k₀`. -/
theorem Does.lookup_remove {k₀ : κ} (hi : c'.index = (c.index.removeIf k₀ x).1) (k : κ) :
    c'.lookup k = (c.removal? k₀ x).elim (c.lookup k) (Change.after k (c.lookup k)) := by
  unfold removal?
  by_cases hf : c.index.find? k₀ = some x
  · obtain ⟨e, he, hk₀⟩ : Bears c.chain x k₀ := h.filed.bears_of_lookup hf
    have hfind : c'.index.find? k = if k == k₀ then none else c.index.find? k := by
      rw [hi, Index.removeIf, if_pos hf]
      exact Index.lookup_erase h.filed.distinct hf k
    rw [d.lookup_slot h hfind, BEq.congr_right hk₀, if_pos hf, he]
    rfl
  · have hsame : c'.index = c.index := by rw [hi, Index.removeIf, if_neg hf]
    rw [if_neg hf]
    exact d.lookup_eq h (by rw [hsame])

/-- **What is found after a step.** -/
theorem Does.lookup (k : κ) : c'.lookup k = (change? c move).elim (c.lookup k) (Change.after k (c.lookup k)) := by
  have hi := d.index h
  cases hm : resumed? move with
  | none =>
    rw [hm] at hi
    rw [change?, hm]
    exact d.lookup_eq h (by rw [hi]; rfl)
  | some st =>
    rw [hm] at hi
    rw [change?, hm]
    have hknows := h.knows st (d.mem_of_resumed hm)
    cases st with
    | publish e x => exact d.lookup_publish h hi hknows k
    | replace k₀ e x y => exact d.lookup_replace h hi hknows.1.1 hknows.2 k
    | settle k₀ x r => exact d.lookup_remove h hi k
    | purge k₀ x r => exact d.lookup_remove h hi k
    | _ => exact d.lookup_eq h (by rw [hi]; rfl)

/-- What is purged was found, in a node that was evicted. -/
theorem Does.purges (hp : change? c move = some (.purged e)) : ∃ k x, (k == e.key) = true ∧
    c.index.find? k = some x ∧ c.chain.carried? x = some e ∧ c.chain.isEvicted x = true ∧ c'.index.find? k = none := by
  obtain ⟨st, hm, hst⟩ := Option.bind_eq_some_iff.mp hp
  have hi := d.index h
  rw [hm] at hi
  have hknows := h.knows st (d.mem_of_resumed hm)
  have hremoved {k : κ} {x : NodeId} (hi : c'.index = (c.index.removeIf k x).1) (hev : c.chain.isEvicted x = true)
      (hx : c.removal? k x = some (.purged e)) : ∃ k x, (k == e.key) = true ∧ c.index.find? k = some x ∧
        c.chain.carried? x = some e ∧ c.chain.isEvicted x = true ∧ c'.index.find? k = none := by
    unfold removal? at hx
    split at hx
    · next hf =>
      obtain ⟨e', he', hk⟩ : Bears c.chain x k := h.filed.bears_of_lookup hf
      rw [he'] at hx
      cases hx
      refine ⟨k, x, hk, hf, he', hev, ?_⟩
      rw [hi, Index.removeIf, if_pos hf]
      refine (Index.lookup_erase h.filed.distinct hf k).trans ?_
      rw [BEq.refl, if_pos rfl]
    · cases hx
  cases st with
  | settle k x r => exact hremoved hi hknows.2 hst
  | purge k x r => exact hremoved hi hknows.2 hst
  | _ => cases hst

end Lookup

end Step

/-! ## Moments -/

variable [BEq κ] [ToString κ] [ToString ν]

/-- What is changed by the step that follows the first `n` steps. -/
def changeAt? (s : Session κ ν) (script : Interleave.Script (Request κ ν)) (n : Nat) : Option (Change κ ν) :=
  change? (moment s script n).state.cache (moment s script n).move

/-- What the first `n` steps of a session changed. -/
def changes (s : Session κ ν) (script : Interleave.Script (Request κ ν)) (n : Nat) : List (Change κ ν) :=
  Machine.history system (fun s move => change? s.cache move) (Machine.init s script) n

theorem changes_succ (s : Session κ ν) (script : Interleave.Script (Request κ ν)) (n : Nat) :
    changes s script (n + 1) = changes s script n ++ (changeAt? s script n).toList := Machine.history_succ _ n

variable [EquivBEq κ] {p : Policy} {capacity : Option Nat} {s : Session κ ν}

section Found

variable (hs : create p capacity = .ok s) (script : Interleave.Script (Request κ ν)) (n : Nat)
include hs

theorem lookup_succ (k : κ) : (moment s script (n + 1)).state.cache.lookup k =
    (changeAt? s script n).elim ((moment s script n).state.cache.lookup k)
      (Change.after k ((moment s script n).state.cache.lookup k)) :=
  (does_moment hs script n).lookup (coherent_moment hs script n) k

/-- What is purged was found before, for whatever spelling of its key. -/
theorem lookup_purged {k : κ} {e : Entry Nat κ ν} (he : changeAt? s script n = some (.purged e))
    (hk : (k == e.key) = true) : (moment s script n).state.cache.lookup k = some e := by
  have hc := coherent_moment hs script n
  obtain ⟨k₀, x, -, hf, hx, -⟩ := (does_moment hs script n).purges hc he
  have hfind : (moment s script n).state.cache.index.find? k = some x :=
    hc.filed.lookup_of_bears (Index.mem_nodes_of_lookup hf) ⟨e, hx, hk⟩
  exact lookup_of_find? hfind hx

/-- **The latest publication is found**, unless it was purged since. -/
theorem recalls_moment (k : κ) : Recalls (changes s script n) k ((moment s script n).state.cache.lookup k) := by
  induction n with
  | zero =>
    have hfind : (moment s script 0).state.cache.index.find? k = none := by
      show s.cache.index.find? k = none
      rw [(create_eq hs).2.1]
      rfl
    rw [lookup_of_absent hfind]
    exact Or.inl fun e he => (by cases he)
  | succ n ih =>
    rw [changes_succ, lookup_succ hs]
    cases hx : changeAt? s script n with
    | none =>
      rw [Option.toList_none, List.append_nil]
      exact ih
    | some x =>
      refine ih.after x fun e he hk => ?_
      rw [he] at hx
      exact lookup_purged hs script n hx hk

end Found

/-- Each entry created was published once, or its call has it still. -/
theorem published_moment (hs : create p capacity = .ok s) (script : Interleave.Script (Request κ ν)) (n : Nat) :
    (created s script n).Perm ((changes s script n).filterMap Change.stored? ++
      (stagesAt s script n).flatMap fun st => st.aim.unpublished?.toList) := by
  induction n with
  | zero => exact List.Perm.refl _
  | succ n ih =>
    have hstep := (does_moment hs script n).hands hands_unpublished (coherent_moment hs script n) ih
    rw [created_succ, changes_succ, List.filterMap_append, Machine.filterMap_toList, changeAt?, stored_change]
    exact hstep

end Session

end LeastRecent.Cache
