import LeastRecent.Proofs.Cache.Moments
import LeastRecent.Proofs.Interleave.Histories

/-!
# Entries and nodes over a session

Every request to store labels an entry of its own (`created`), and every node was put in front by some call
(`linkings`), the first for an entry by the call that stores it and all others by promotions. The entry of a call that
stores is handed over once: to its node, and then to the index. Until then the call has it (`Hands`, `Does.hands`).

`Traced` says how entries, nodes and calls in progress go together; it holds at every moment (`traced_moment`).
-/

namespace LeastRecent.Cache

variable {κ ν : Type}

/-- The entry that a call puts in front for the first time. -/
def Errand.new? : Errand κ ν → Option (Entry Nat κ ν)
  | .store e => some e
  | .promote .. => none

/-- The errand of a call that is in the middle of putting a node in front. -/
def Stage.errand? : Stage κ ν → Option (Errand κ ν)
  | .front g => some g
  | _ => none

/-- The new entry that has no node yet. -/
def Aim.unlinked? : Aim κ ν → Option (Entry Nat κ ν)
  | .link e => some e
  | _ => none

/-! ## What calls hand over -/

section Hands

variable [BEq κ] {c : Cache κ ν} {stages : List (Stage κ ν)} {st : Stage κ ν}

/-- A call that stores has its entry to itself (`pending`), by its aim, until it hands it over at some stage (`out`). -/
structure Hands (pending : Aim κ ν → Option (Entry Nat κ ν)) (out : Stage κ ν → Option (Entry Nat κ ν)) : Prop where
  link : ∀ e, pending (.link e) = some e
  look : ∀ k, pending (.look k) = none
  reply : ∀ r, pending (.reply r) = none
  turn : ∀ st c, (pending (Stage.aim st)).toList = (out st).toList ++ (pending (st.turn c)).toList

/-- An entry is handed over to its node when that is put in front. -/
theorem hands_unlinked : Hands (Aim.unlinked? (κ := κ) (ν := ν)) fun st => st.errand?.bind Errand.new? where
  link _ := rfl
  look _ := rfl
  reply _ := rfl
  turn st c := by
    cases st with
    | push g => rfl
    | front g => cases g <;> rfl
    | _ => rfl

/-- In a coherent cache a call that goes on turns to its next aim. -/
theorem pursues_turn (h : Coherent c.chain c.index.slots (st :: stages)) : Pursues (st.turn c) (resume st c).2 := by
  rcases st.front_or with ⟨g, rfl⟩ | hst
  · rw [resume_front h]
    cases g <;> rfl
  · exact pursues_resume c hst

omit [BEq κ] in
/-- What is pending is a matter of the aim. -/
theorem Pursues.flatMap {β : Type} {a : Aim κ ν} {out : Interleave.Outcome (Stage κ ν) (Reply κ ν)} (h : Pursues a out)
    {f : Aim κ ν → Option β} (hf : ∀ r, f (.reply r) = none) :
    (out.stages.flatMap fun st => (f st.aim).toList) = (f a).toList := by
  cases out with
  | pause st =>
    have ha : st.aim = a := h
    simp [Interleave.Outcome.stages, ha]
  | done r =>
    have ha : a = .reply r := h
    simp [Interleave.Outcome.stages, ha, hf]

end Hands

namespace Session

open Interleave (Machine Move)

/-- The entry that a step labels. -/
def created? (c : Cache κ ν) : Move (Request κ ν) (Suspended κ ν) → Option (Entry Nat κ ν)
  | .start (.set k v) => some ⟨c.serial, k, v⟩
  | _ => none

/-- The stage that a step resumes. -/
def resumed? : Move (Request κ ν) (Suspended κ ν) → Option (Stage κ ν)
  | .resume p => some p.stage
  | _ => none

section Step

variable [BEq κ] {c c' : Cache κ ν} {stages stages' : List (Stage κ ν)}
  {move : Move (Request κ ν) (Suspended κ ν)} {created gone : List (Entry Nat κ ν)} {linkings : List (Errand κ ν)}

omit [BEq κ] in
/-- A call that begins and does not store has no entry. -/
theorem flatMap_begins {β : Type} {out : List (Stage κ ν)} (ho : ∀ st ∈ out, Begins st) {f : Aim κ ν → Option β}
    (hf : ∀ k, f (.look k) = none) : (out.flatMap fun st => (f st.aim).toList) = [] := by
  rw [List.flatMap_eq_nil_iff]
  intro st hst
  have hb := ho st hst
  cases st with
  | fetch k => simp [Stage.aim, hf]
  | probe k => simp [Stage.aim, hf]
  | _ => cases hb

section Handover

variable {pending : Aim κ ν → Option (Entry Nat κ ν)} {out : Stage κ ν → Option (Entry Nat κ ν)}
  (hh : Hands pending out) (h : Coherent c.chain c.index.slots stages) (d : Does c stages move c' stages')
include hh h d

/-- With a step a new call has its entry, on top of those that calls had before, or what the running call had is handed
over, or it has it still. -/
theorem Does.handover :
    (∃ e, created? c move = some e ∧ (resumed? move).bind out = none ∧
      (stages'.flatMap fun st => (pending st.aim).toList) = e :: stages.flatMap fun st => (pending st.aim).toList) ∨
    created? c move = none ∧ (stages.flatMap fun st => (pending st.aim).toList) =
      ((resumed? move).bind out).toList ++ stages'.flatMap fun st => (pending st.aim).toList := by
  cases d with
  | rest => exact Or.inr ⟨rfl, rfl⟩
  | store k v =>
    have he : pending (Stage.aim (.find ⟨c.serial, k, v⟩)) = some ⟨c.serial, k, v⟩ := hh.link _
    exact Or.inl ⟨_, rfl, rfl, by rw [List.flatMap_cons, he]; rfl⟩
  | @ask r c' out _ hr hc ha ho =>
    have hnone : created? c (.start r) = none := by
      cases r with
      | set k v => cases hr
      | _ => rfl
    exact Or.inr ⟨hnone, by rw [List.flatMap_append, flatMap_begins ho hh.look]; rfl⟩
  | resume r st stages =>
    refine Or.inr ⟨rfl, ?_⟩
    rw [List.flatMap_append, (pursues_turn h).flatMap hh.reply, List.flatMap_cons, hh.turn st c, List.append_assoc]
    rfl

/-- Each entry was handed over, or its call still has it. -/
theorem Does.hands (hp : created.Perm (gone ++ stages.flatMap fun st => (pending st.aim).toList)) :
    (created ++ (created? c move).toList).Perm
      ((gone ++ ((resumed? move).bind out).toList) ++ stages'.flatMap fun st => (pending st.aim).toList) := by
  rcases d.handover hh h with ⟨e, hnew, hnone, hst⟩ | ⟨hnone, hst⟩
  · rw [hnew, hnone, hst, Option.toList_none, List.append_nil]
    exact (List.perm_append_singleton e created).trans ((hp.cons e).trans List.perm_middle.symm)
  · rw [hst, ← List.append_assoc] at hp
    rw [hnone, Option.toList_none, List.append_nil]
    exact hp

end Handover

/-- How the entries created, the nodes put in front and the calls in progress go together. The `i`-th errand got the node
with number `i + 2`. -/
structure Traced (c : Cache κ ν) (stages : List (Stage κ ν)) (created : List (Entry Nat κ ν))
    (linkings : List (Errand κ ν)) : Prop where
  labels : created.map Entry.label = List.range c.serial
  size : c.chain.size = linkings.length + 2
  carried : ∀ i g, linkings[i]? = some g → c.chain.carried? (i + 2) = some g.entry
  stores : created.Perm (linkings.filterMap Errand.new? ++ stages.flatMap fun st => st.aim.unlinked?.toList)
  known : ∀ g ∈ linkings, g.entry ∈ created

namespace Traced

/-- The entry of a node was created. -/
theorem mem_of_carried {x : NodeId} {e : Entry Nat κ ν} (t : Traced c stages created linkings)
    (h : Coherent c.chain c.index.slots stages) (hx : c.chain.carried? x = some e) : e ∈ created := by
  obtain ⟨order, hsound⟩ := h.sound
  have hlt := Chain.lt_size_of_carried hx
  have hm := (hsound.laid.mem x).mpr hlt
  have hs := Chain.not_isSentinel_of_carried hx
  match x, hlt, hm, hs, hx with
  | 0, _, hm, hs, _ =>
    rw [(hsound.laid.isSentinel_iff hm).mpr (Or.inl rfl)] at hs
    cases hs
  | 1, _, hm, hs, _ =>
    rw [(hsound.laid.isSentinel_iff hm).mpr (Or.inr rfl)] at hs
    cases hs
  | i + 2, hlt, _, _, hx =>
    rw [t.size] at hlt
    have hi : i < linkings.length := Nat.lt_of_add_lt_add_right hlt
    obtain ⟨g, hg⟩ : ∃ g, linkings[i]? = some g := ⟨_, List.getElem?_eq_getElem hi⟩
    have he := t.carried i g hg
    rw [hx] at he
    rw [Option.some.inj he]
    exact t.known g (List.mem_of_getElem? hg)

/-- The entry that is put in front was created. -/
theorem mem_of_front {g : Errand κ ν} (t : Traced c (.front g :: stages) created linkings)
    (h : Coherent c.chain c.index.slots (.front g :: stages)) : g.entry ∈ created := by
  cases g with
  | store e =>
    apply t.stores.mem_iff.mpr
    simp [Stage.aim, Errand.aim, Aim.unlinked?, Errand.entry]
  | promote k e stale =>
    have hk : Errand.Knows c.chain (.promote k e stale) := h.knows _ List.mem_cons_self
    exact t.mem_of_carried h hk.1.1

variable [EquivBEq κ]

/-- The chain after a step: a node that was put in front carries the entry of its errand. -/
theorem chain_step (t : Traced c stages created linkings) (h : Coherent c.chain c.index.slots stages)
    (d : Does c stages move c' stages') :
    c'.chain.size = (linkings ++ ((resumed? move).bind Stage.errand?).toList).length + 2 ∧
      ∀ i g, (linkings ++ ((resumed? move).bind Stage.errand?).toList)[i]? = some g →
        c'.chain.carried? (i + 2) = some g.entry := by
  have hold (i : Nat) (g : Errand κ ν) (hg : linkings[i]? = some g) : c'.chain.carried? (i + 2) = some g.entry :=
    (d.ages h).carried (t.carried i g hg)
  have hsame (hs : c'.chain.size = c.chain.size) (hm : (resumed? move).bind Stage.errand? = none) :
      c'.chain.size = (linkings ++ ((resumed? move).bind Stage.errand?).toList).length + 2 ∧
        ∀ i g, (linkings ++ ((resumed? move).bind Stage.errand?).toList)[i]? = some g →
          c'.chain.carried? (i + 2) = some g.entry := by
    rw [hm, Option.toList_none, List.append_nil, hs]
    exact ⟨t.size, hold⟩
  cases d with
  | rest => exact hsame rfl rfl
  | store k v => exact hsame rfl rfl
  | ask _ _ hc => exact hsame hc.chain.size rfl
  | resume r st stages =>
    rcases st.front_or with ⟨g, rfl⟩ | hst
    · obtain ⟨-, -, grows, -⟩ := h.finishFront
      have hc : (Cache.resume (.front g) c).1.chain = (c.chain.finishInsert Chain.header g.entry).1 := by rw [resume_front h]
      show _ = (linkings ++ [g]).length + 2 ∧ ∀ i g', (linkings ++ [g])[i]? = some g' → _
      constructor
      · rw [hc, grows.size, t.size, List.length_append]
        rfl
      · intro i g' hg
        rcases Nat.lt_trichotomy i linkings.length with hi | hi | hi
        · rw [List.getElem?_append_left hi] at hg
          exact hold i g' hg
        · subst hi
          simp only [List.getElem?_concat_length, Option.some.injEq] at hg
          rw [hc, ← t.size, grows.carried, hg]
        · rw [List.getElem?_eq_none (by simp; omega)] at hg
          cases hg
    · refine hsame (leaves_resume hst c).chain.size ?_
      cases st with
      | front g => exact absurd rfl (hst g)
      | _ => rfl

/-- **From one moment to the next.** -/
theorem step (t : Traced c stages created linkings) (h : Coherent c.chain c.index.slots stages)
    (d : Does c stages move c' stages') :
    Traced c' stages' (created ++ (created? c move).toList)
      (linkings ++ ((resumed? move).bind Stage.errand?).toList) := by
  obtain ⟨hsize, hcarried⟩ := t.chain_step h d
  refine ⟨?_, hsize, hcarried, ?_, ?_⟩
  · cases d with
    | rest => simpa [created?] using t.labels
    | store k v => simp [created?, t.labels, List.range_succ]
    | @ask r c' out _ hr hc =>
      cases r with
      | set k v => cases hr
      | _ => simpa [created?, hc.serial] using t.labels
    | resume r st stages =>
      have hserial : (Cache.resume st c).1.serial = c.serial := by
        rcases st.front_or with ⟨g, rfl⟩ | hst
        · rw [resume_front h]
        · exact (leaves_resume hst c).serial
      simpa [created?, hserial] using t.labels
  · have hs := d.hands hands_unlinked h t.stores
    have he : ((resumed? move).bind Stage.errand?).toList.filterMap Errand.new? =
        ((resumed? move).bind fun st => st.errand?.bind Errand.new?).toList := by
      rw [Machine.filterMap_toList, Option.bind_assoc]
    rw [List.filterMap_append, he]
    exact hs
  · intro g hg
    rcases List.mem_append.mp hg with hg | hg
    · exact List.mem_append_left _ (t.known g hg)
    · apply List.mem_append_left
      cases d with
      | resume r st stages =>
        cases st with
        | front g' =>
          have he : g = g' := by simpa [resumed?, Stage.errand?] using hg
          rw [he]
          exact t.mem_of_front h
        | _ => cases hg
      | _ => cases hg

end Traced

end Step

/-! ## Moments -/

variable [BEq κ] [ToString κ] [ToString ν]

/-- The entries labelled in the first `n` steps of a session. -/
def created (s : Session κ ν) (script : Interleave.Script (Request κ ν)) (n : Nat) : List (Entry Nat κ ν) :=
  Machine.history system (fun s move => created? s.cache move) (Machine.init s script) n

/-- The errands for which a node was put in front in the first `n` steps. -/
def linkings (s : Session κ ν) (script : Interleave.Script (Request κ ν)) (n : Nat) : List (Errand κ ν) :=
  Machine.history system (fun _ move => (resumed? move).bind Stage.errand?) (Machine.init s script) n

theorem created_succ (s : Session κ ν) (script : Interleave.Script (Request κ ν)) (n : Nat) :
    created s script (n + 1) = created s script n ++
      (created? (moment s script n).state.cache (moment s script n).move).toList := Machine.history_succ _ n

theorem linkings_succ (s : Session κ ν) (script : Interleave.Script (Request κ ν)) (n : Nat) :
    linkings s script (n + 1) = linkings s script n ++
      ((resumed? (moment s script n).move).bind Stage.errand?).toList := Machine.history_succ _ n

omit [BEq κ] [ToString κ] [ToString ν] in
/-- What a session starts with. -/
theorem create_eq {p : Policy} {capacity : Option Nat} {s : Session κ ν} (h : create p capacity = .ok s) :
    s.cache.chain = .empty p ∧ s.cache.index = .empty ∧ s.cache.serial = 0 ∧ s.handles = [] := by
  cases capacity with
  | none =>
    cases h
    exact ⟨rfl, rfl, rfl, rfl⟩
  | some n =>
    rw [create, Cache.create] at h
    split at h
    · cases h
    · cases h
      exact ⟨rfl, rfl, rfl, rfl⟩

/-- **Entries, nodes and calls go together at every moment.** -/
theorem traced_moment [EquivBEq κ] {p : Policy} {capacity : Option Nat} {s : Session κ ν}
    (h : create p capacity = .ok s) (script : Interleave.Script (Request κ ν)) (n : Nat) :
    Traced (moment s script n).state.cache (stagesAt s script n) (created s script n) (linkings s script n) := by
  induction n with
  | zero =>
    obtain ⟨hc, -, hserial, -⟩ := create_eq h
    refine ⟨?_, ?_, fun i g hg => ?_, List.Perm.refl _, fun g hg => ?_⟩
    · show [] = List.range s.cache.serial
      rw [hserial]
      rfl
    · show s.cache.chain.size = _
      rw [hc]
      rfl
    · cases hg
    · cases hg
  | succ n ih =>
    rw [created_succ, linkings_succ]
    exact ih.step (coherent_moment h script n) (does_moment h script n)

end Session
end LeastRecent.Cache
