import LeastRecent.Proofs.Chain.Walks

/-!
# The live entries of a chain

`recent` lists the live entries as a walk from the header finds them, most recent first. Walks and links leave the list
as it is (`Sound.recent_alike`), an insertion in front puts the new node at its head (`Sound.recent_grows`), a deletion
takes its node out (`Sound.recent_buries`), and the last of the list is what a step back from the trailer finds
(`Sound.recent_back`).
-/

namespace LeastRecent.Chain

variable {α : Type} {c c' : Chain α} {order held held' : List NodeId} {x : NodeId}

/-- The live entries, most recent first. -/
def recent (c : Chain α) : List NodeId := (c.walk header).2

namespace Sound

theorem recent (h : Sound c order held) : c.recent = c.livings order := by
  rw [Chain.recent, (h.walk h.laid.header_mem).2.2, h.laid.livings_header]

theorem mem_recent (h : Sound c order held) : x ∈ c.recent ↔ c.isDeleted x = false ∧ c.isSentinel x = false := by
  rw [h.recent, mem_livings]
  constructor
  · exact fun hx => hx.2
  · exact fun hx => ⟨(h.laid.mem x).mpr (lt_size_of_not_isSentinel hx.2), hx⟩

theorem nodup_recent (h : Sound c order held) : c.recent.Nodup := by
  rw [h.recent]
  exact h.laid.nodup.filter _

theorem recent_alike (h : Sound c order held) (h' : Sound c' order held') (a : Alike c c') :
    c'.recent = c.recent := by
  rw [h.recent, h'.recent, a.livings]

theorem recent_buries (h : Sound c order held) (h' : Sound c' order held') (b : Buries c c' x) :
    c'.recent = c.recent.filter fun y => !decide (y = x) := by
  rw [h.recent, h'.recent, livings, livings, List.filter_filter]
  apply List.filter_congr
  intro y hy
  rw [b.deleted, b.isSentinel]
  by_cases he : y = x <;> simp [he]

theorem recent_grows {a : α} (h : Sound c order held) (h' : Sound c' (insertBehind header c.size order) held')
    (g : Grows c c' a) : c'.recent = c.size :: c.recent := by
  obtain ⟨inner, hi⟩ := h.laid.ends
  have hins : insertBehind header c.size order = header :: c.size :: (inner ++ [trailer]) := by
    rw [hi, insertBehind, if_pos rfl]
  have hnew : (!c'.isDeleted c.size && !c'.isSentinel c.size) = true := by
    have hc := g.carried
    rw [carried?] at hc
    rw [g.live, isSentinel, Node.isSentinel, hc]
    rfl
  have hlt (y : NodeId) (hy : y ∈ order) : y < c.size := (h.laid.mem y).mp hy
  have hsame : c'.livings order = c.livings order := by
    apply List.filter_congr
    intro y hy
    rw [g.deleted y (hlt y hy), g.isSentinel (hlt y hy)]
  have hheader : (!c.isDeleted header && !c.isSentinel header) = false := by
    rw [(h.laid.isSentinel_iff h.laid.header_mem).mpr (Or.inl rfl), Bool.not_true, Bool.and_false]
  have hheader' : (!c'.isDeleted header && !c'.isSentinel header) = false := by
    rw [g.deleted _ (hlt _ h.laid.header_mem), g.isSentinel (hlt _ h.laid.header_mem)]
    exact hheader
  rw [h'.recent, h.recent, ← hsame, hins, hi, livings, livings]
  simp only [List.filter_cons, hheader', hnew, Bool.false_eq_true, if_false, if_true]

theorem recent_markEvicted (h : Sound c order held) (hx : x < c.size) : (c.markEvicted x).recent = c.recent := by
  have h' := h.markEvicted x
  rw [h.recent, h'.recent, livings, livings]
  apply List.filter_congr
  intro y _
  rw [isDeleted_markEvicted hx, isSentinel_markEvicted hx]

/-- A step back from the trailer finds the least recent entry. -/
theorem recent_back (h : Sound c order held) : (c.back trailer).2 = c.recent.getLast? := by
  obtain ⟨-, -, hback⟩ := h.back h.laid.trailer_mem
  rw [h.recent, ← h.laid.livings_trailer]
  rcases hback with ⟨hn, hd | hl⟩ | ⟨y, hy, -, -, hl⟩
  · rw [h.laid.trailer_live] at hd
    cases hd
  · rw [hn, hl]
    rfl
  · rw [hy, hl, List.getLast?_concat]

end Sound

end LeastRecent.Chain
