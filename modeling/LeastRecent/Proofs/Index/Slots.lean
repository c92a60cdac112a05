import LeastRecent.Index.Basic

/-!
# The slots of an index

Up to the equality of keys each key has at most one slot (`Distinct`). What is found for a key is the node in its slot
(`lookup_eq_some_iff`). An assignment changes one slot or adds one (`assign_split`, `assign_new`), a removal takes one
out (`assign_split`); the spelling of a key stays with its slot.
-/

namespace LeastRecent.Index

variable {κ α : Type} [BEq κ] {k k' : κ} {a b x y : α} {slots : List (κ × α)}

/-- The nodes that keys are mapped to. -/
def nodes (i : Index κ α) : List α := i.slots.map Prod.snd

omit [BEq κ] in
theorem length_nodes (i : Index κ α) : i.nodes.length = i.size := by
  simp [nodes, size]

/-- No two slots have equal keys. -/
def Distinct (slots : List (κ × α)) : Prop := slots.Pairwise fun s t => (s.1 == t.1) = false

/-! ## Where a key has its slot -/

/-- The slot of a key that is mapped, and the slots around it, before and after an assignment and a removal. -/
theorem assign_split (h : slots.lookup k = some b) : ∃ l k' r, slots = l ++ (k', b) :: r ∧ (k == k') = true ∧
    assign k a slots = l ++ (k', a) :: r ∧ erase k slots = l ++ r := by
  induction slots with
  | nil => cases h
  | cons s rest ih =>
    obtain ⟨k₁, b₁⟩ := s
    cases hk : k == k₁ with
    | true =>
      simp only [List.lookup_cons, hk, Option.some.injEq] at h
      subst h
      exact ⟨[], k₁, rest, rfl, hk, by simp [assign, hk], by simp [erase, hk]⟩
    | false =>
      simp only [List.lookup_cons, hk] at h
      obtain ⟨l, k', r, h₁, h₂, h₃, h₄⟩ := ih h
      refine ⟨(k₁, b₁) :: l, k', r, by rw [h₁]; rfl, h₂, ?_, ?_⟩
      · simp [assign, hk, h₃]
      · simp [erase, hk, h₄]

/-- A key that is not mapped gets a slot of its own. -/
theorem assign_new (h : slots.lookup k = none) : assign k a slots = slots ++ [(k, a)] := by
  induction slots with
  | nil => rfl
  | cons s rest ih =>
    obtain ⟨k₁, b₁⟩ := s
    cases hk : k == k₁ with
    | true => simp [List.lookup_cons, hk] at h
    | false =>
      simp only [List.lookup_cons, hk] at h
      simp [assign, hk, ih h]

theorem mem_of_lookup (h : slots.lookup k = some x) : ∃ k', (k', x) ∈ slots ∧ (k == k') = true := by
  obtain ⟨l, k', r, hs, hk, -⟩ := assign_split (a := x) h
  exact ⟨k', by rw [hs]; simp, hk⟩

theorem mem_nodes_of_lookup (h : slots.lookup k = some x) : x ∈ slots.map Prod.snd := by
  obtain ⟨k', hm, -⟩ := mem_of_lookup h
  exact List.mem_map_of_mem hm

/-- What is found for a key is the node in its slot. -/
theorem lookup_eq_some_iff [EquivBEq κ] (hd : Distinct slots) :
    slots.lookup k = some x ↔ ∃ k', (k', x) ∈ slots ∧ (k == k') = true := by
  constructor
  · exact mem_of_lookup
  · rintro ⟨k', hm, hk⟩
    induction slots with
    | nil => cases hm
    | cons s rest ih =>
      obtain ⟨k₁, b₁⟩ := s
      obtain ⟨hd₁, hd₂⟩ := List.pairwise_cons.mp hd
      rcases List.mem_cons.mp hm with he | hm
      · cases he
        simp [List.lookup_cons, hk]
      · -- the first slot has another key
        have h₁ : (k == k₁) = false := by
          rw [BEq.congr_left hk, BEq.comm]
          exact hd₁ _ hm
        simp only [List.lookup_cons, h₁]
        exact ih hd₂ hm

/-- After a removal the key maps to nothing, and all other keys map to what they did. -/
theorem lookup_erase [EquivBEq κ] (hd : Distinct slots) (hl : slots.lookup k = some b) (k₁ : κ) :
    (erase k slots).lookup k₁ = if k₁ == k then none else slots.lookup k₁ := by
  induction slots with
  | nil => cases hl
  | cons s rest ih =>
    obtain ⟨k₂, b₂⟩ := s
    obtain ⟨hfirst, hrest⟩ := List.pairwise_cons.mp hd
    cases hk : k == k₂ with
    | true =>
      have hsame : (k₁ == k) = (k₁ == k₂) := BEq.congr_right hk
      simp only [erase, hk, if_true, List.lookup_cons, hsame]
      cases h₁ : k₁ == k₂ with
      | true =>
        -- no other slot has the key
        refine List.lookup_eq_none_iff.mpr fun t ht => ?_
        rw [bne, BEq.congr_left h₁, hfirst t ht]
        rfl
      | false => rfl
    | false =>
      simp only [List.lookup_cons, hk] at hl
      simp only [erase, hk, Bool.false_eq_true, if_false, List.lookup_cons]
      cases h₁ : k₁ == k₂ with
      | true =>
        have hother : (k₁ == k) = false := by rw [BEq.congr_left h₁, BEq.comm, hk]
        simp [hother]
      | false => exact ih hrest hl

/-! ## Keys stay distinct -/

/-- Only the keys of the slots matter. -/
theorem distinct_keys {l r : List (κ × α)} (h : Distinct (l ++ (k', b) :: r)) : Distinct (l ++ (k', a) :: r) := by
  unfold Distinct at h ⊢
  rw [List.pairwise_append, List.pairwise_cons] at h ⊢
  obtain ⟨hl, ⟨hk, hr⟩, hlr⟩ := h
  refine ⟨hl, ⟨hk, hr⟩, fun s hs t ht => ?_⟩
  rcases List.mem_cons.mp ht with rfl | ht
  · exact hlr s hs (k', b) List.mem_cons_self
  · exact hlr s hs t (List.mem_cons_of_mem _ ht)

theorem Distinct.assign [EquivBEq κ] (hd : Distinct slots) (k : κ) (a : α) : Distinct (assign k a slots) := by
  cases hl : slots.lookup k with
  | none =>
    rw [assign_new hl]
    unfold Distinct
    rw [List.pairwise_append]
    refine ⟨hd, List.pairwise_singleton _ _, fun s hs t ht => ?_⟩
    rw [List.mem_singleton.mp ht, BEq.comm]
    simpa [bne] using List.lookup_eq_none_iff.mp hl s hs
  | some b =>
    obtain ⟨l, k', r, hs, -, ha, -⟩ := assign_split (a := a) hl
    rw [ha]
    rw [hs] at hd
    exact distinct_keys hd

theorem Distinct.erase (hd : Distinct slots) (hl : slots.lookup k = some b) : Distinct (erase k slots) := by
  obtain ⟨l, k', r, hs, -, -, he⟩ := assign_split (a := b) hl
  rw [he]
  rw [hs] at hd
  exact hd.sublist ((List.sublist_cons_self _ _).append_left l)

/-! ## Nodes come and go one by one -/

theorem nodes_assign_new (hl : slots.lookup k = none) :
    ((assign k a slots).map Prod.snd).Perm (a :: slots.map Prod.snd) := by
  rw [assign_new hl, List.map_append]
  exact List.perm_append_singleton _ _

theorem nodes_assign (hl : slots.lookup k = some b) :
    (b :: (assign k a slots).map Prod.snd).Perm (a :: slots.map Prod.snd) := by
  obtain ⟨l, k', r, hs, -, ha, -⟩ := assign_split (a := a) hl
  rw [ha, hs, List.map_append, List.map_append, List.map_cons, List.map_cons]
  refine (List.perm_middle.cons b).trans ((List.Perm.swap _ _ _).trans ?_)
  exact List.perm_middle.symm.cons a

theorem nodes_erase (hl : slots.lookup k = some b) :
    (b :: (erase k slots).map Prod.snd).Perm (slots.map Prod.snd) := by
  obtain ⟨l, k', r, hs, -, -, he⟩ := assign_split (a := b) hl
  rw [he, hs, List.map_append, List.map_append, List.map_cons]
  exact List.perm_middle.symm

/-- The node displaced is not in the index any more. -/
theorem mem_nodes_assign (hnd : (a :: slots.map Prod.snd).Nodup) (hl : slots.lookup k = some b)
    (hx : x ∈ (assign k a slots).map Prod.snd) : x = a ∨ x ∈ slots.map Prod.snd ∧ x ≠ b := by
  have hp := nodes_assign (a := a) hl
  have hb := (List.nodup_cons.mp (hp.nodup_iff.mpr hnd)).1
  rcases List.mem_cons.mp (hp.mem_iff.mp (List.mem_cons_of_mem b hx)) with h | h
  · exact Or.inl h
  · exact Or.inr ⟨h, fun he => hb (he ▸ hx)⟩

theorem length_assign (hl : slots.lookup k = some b) : (assign k a slots).length = slots.length := by
  have hlen := (nodes_assign (a := a) hl).length_eq
  simpa using hlen

/-- The node removed is not in the index any more. -/
theorem mem_nodes_erase (hnd : (slots.map Prod.snd).Nodup) (hl : slots.lookup k = some b)
    (hx : x ∈ (erase k slots).map Prod.snd) : x ∈ slots.map Prod.snd ∧ x ≠ b := by
  have hp := nodes_erase hl
  have hb := (List.nodup_cons.mp (hp.nodup_iff.mpr hnd)).1
  exact ⟨hp.mem_iff.mp (List.mem_cons_of_mem b hx), fun he => hb (he ▸ hx)⟩

theorem length_erase (hl : slots.lookup k = some b) : (erase k slots).length + 1 = slots.length := by
  have hlen := (nodes_erase hl).length_eq
  simpa using hlen

/-- An assignment leaves the spelling of the key that was there, and writes a new key as it is given. -/
theorem mem_assign {s : κ × α} (hs : s ∈ assign k a slots) :
    (s.2 = a ∧ ((k == s.1) = true ∨ s.1 = k)) ∨ s ∈ slots := by
  cases hl : slots.lookup k with
  | none =>
    rw [assign_new hl] at hs
    rcases List.mem_append.mp hs with hs | hs
    · exact Or.inr hs
    · rw [List.mem_singleton.mp hs]
      exact Or.inl ⟨rfl, Or.inr rfl⟩
  | some b =>
    obtain ⟨l, k', r, he, hk, ha, -⟩ := assign_split (a := a) hl
    rw [ha] at hs
    rw [he]
    rcases List.mem_append.mp hs with hs | hs
    · exact Or.inr (List.mem_append_left _ hs)
    · rcases List.mem_cons.mp hs with rfl | hs
      · exact Or.inl ⟨rfl, Or.inl hk⟩
      · exact Or.inr (List.mem_append_right _ (List.mem_cons_of_mem _ hs))

theorem mem_erase {s : κ × α} (hs : s ∈ erase k slots) : s ∈ slots := by
  induction slots with
  | nil => cases hs
  | cons t rest ih =>
    obtain ⟨k₁, b₁⟩ := t
    cases hk : k == k₁ with
    | true =>
      simp only [erase, hk, if_true] at hs
      exact List.mem_cons_of_mem _ hs
    | false =>
      simp only [erase, hk, Bool.false_eq_true, if_false] at hs
      rcases List.mem_cons.mp hs with rfl | hs
      · exact List.mem_cons_self
      · exact List.mem_cons_of_mem _ (ih hs)

end LeastRecent.Index
