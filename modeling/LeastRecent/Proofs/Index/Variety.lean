import LeastRecent.Proofs.Index.Slots

/-!
# How many different keys there are

Keys count as the same if they are equal by `==`, however they are spelled. The number of different keys of a list
(`variety`) is the largest number of pairwise different keys that all occur in it (`le_variety`), and no larger than any
list in which all its keys occur (`variety_le`).
-/

namespace LeastRecent.Index

variable {κ : Type} [BEq κ] {k : κ} {ks as bs : List κ}

/-- The number of pairwise different keys. -/
def variety (ks : List κ) : Nat := ks.eraseDups.length

/-- Each key of `as` occurs in `bs`, perhaps in another spelling. -/
def Covers (as bs : List κ) : Prop := ∀ a ∈ as, ∃ b ∈ bs, (a == b) = true

/-- The keys are pairwise different. -/
def Differ (ks : List κ) : Prop := ks.Pairwise fun k k' => (k == k') = false

theorem mem_of_mem_eraseDups (ks : List κ) (h : k ∈ ks.eraseDups) : k ∈ ks := by
  match ks with
  | [] => cases h
  | a :: rest =>
    rw [List.eraseDups_cons] at h
    rcases List.mem_cons.mp h with rfl | h
    · exact List.mem_cons_self
    · exact List.mem_cons_of_mem _ (List.mem_filter.mp (mem_of_mem_eraseDups _ h)).1
termination_by ks.length
decreasing_by simp only [List.length_cons]; exact Nat.lt_succ_of_le (List.length_filter_le _ _)

variable [EquivBEq κ]

theorem differ_eraseDups (ks : List κ) : Differ ks.eraseDups := by
  match ks with
  | [] => exact List.Pairwise.nil
  | a :: rest =>
    rw [List.eraseDups_cons]
    refine List.pairwise_cons.mpr ⟨fun b hb => ?_, differ_eraseDups _⟩
    have hne := (List.mem_filter.mp (mem_of_mem_eraseDups _ hb)).2
    rw [BEq.comm]
    exact Bool.not_eq_true' _ ▸ hne
termination_by ks.length
decreasing_by simp only [List.length_cons]; exact Nat.lt_succ_of_le (List.length_filter_le _ _)

/-- Of each key one spelling is left. -/
theorem covers_eraseDups (ks : List κ) : Covers ks ks.eraseDups := by
  match ks with
  | [] => exact fun k hk => by cases hk
  | a :: rest =>
    intro k hk
    rw [List.eraseDups_cons]
    cases hka : k == a with
    | true => exact ⟨a, List.mem_cons_self, hka⟩
    | false =>
      rcases List.mem_cons.mp hk with rfl | hk
      · rw [BEq.refl] at hka
        cases hka
      · have hmem : k ∈ rest.filter fun b => !(b == a) := List.mem_filter.mpr ⟨hk, by rw [hka]; rfl⟩
        obtain ⟨b, hb, hkb⟩ := covers_eraseDups _ k hmem
        exact ⟨b, List.mem_cons_of_mem _ hb, hkb⟩
termination_by ks.length
decreasing_by simp only [List.length_cons]; exact Nat.lt_succ_of_le (List.length_filter_le _ _)

/-- Different keys need different places. -/
theorem Differ.length_le (hd : Differ as) (h : Covers as bs) : as.length ≤ bs.length := by
  induction as generalizing bs with
  | nil => exact Nat.zero_le _
  | cons a as ih =>
    obtain ⟨hfirst, hrest⟩ := List.pairwise_cons.mp hd
    obtain ⟨b, hb, hab⟩ := h a List.mem_cons_self
    obtain ⟨l, r, rfl⟩ := List.append_of_mem hb
    have hcovers : Covers as (l ++ r) := by
      intro a' ha'
      obtain ⟨b', hb', hab'⟩ := h a' (List.mem_cons_of_mem _ ha')
      have hmem : b' ∈ b :: (l ++ r) := List.perm_middle.mem_iff.mp hb'
      rcases List.mem_cons.mp hmem with rfl | hmem
      · -- the place of `a` is taken
        have hsame : (a == a') = true := BEq.trans hab (BEq.symm hab')
        rw [hfirst a' ha'] at hsame
        cases hsame
      · exact ⟨b', hmem, hab'⟩
    have hle := ih hrest hcovers
    simp only [List.length_append, List.length_cons] at hle ⊢
    omega

theorem Covers.trans {cs : List κ} (h : Covers as bs) (h' : Covers bs cs) : Covers as cs := by
  intro a ha
  obtain ⟨b, hb, hab⟩ := h a ha
  obtain ⟨c, hc, hbc⟩ := h' b hb
  exact ⟨c, hc, BEq.trans hab hbc⟩

/-- Pairwise different keys that all occur among `ks` are no more than its variety. -/
theorem le_variety (hd : Differ as) (h : Covers as ks) : as.length ≤ variety ks :=
  hd.length_le (h.trans (covers_eraseDups ks))

/-- Where all keys of `ks` occur, there are as many keys as its variety says. -/
theorem variety_le (h : Covers ks bs) : variety ks ≤ bs.length :=
  (differ_eraseDups ks).length_le fun k hk => h k (mem_of_mem_eraseDups ks hk)

theorem variety_mono (h : Covers as bs) : variety as ≤ variety bs := variety_le (h.trans (covers_eraseDups bs))

example : variety [1, 2, 1, 3, 2] = 3 := by decide

end LeastRecent.Index
