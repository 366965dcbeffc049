import Mathlib.Data.List.Sort

/-! # Sorting by a strict order

Insertion sort by a strict order, on a list of which any two elements are ordered one way or the
other. -/

namespace DogePeg.Sorting

open List

variable {α : Type*} {r : α → α → Prop} [DecidableRel r] {l : List α} {a : α}

theorem pairwise_orderedInsert (htrans : ∀ a b c, r a b → r b c → r a c) (h : l.Pairwise r)
    (htotal : ∀ b∈l, r a b ∨ r b a) : (l.orderedInsert r a).Pairwise r := by
  induction l with
  | nil => exact pairwise_singleton r a
  | cons b l ih =>
    obtain ⟨hb,hl⟩ := pairwise_cons.mp h
    rw [orderedInsert_cons]
    split
    · next hab =>
      refine pairwise_cons.mpr ⟨fun c hc => ?_, h⟩
      rcases mem_cons.mp hc with rfl | hc
      · exact hab
      · exact htrans a b c hab (hb c hc)
    · next hab =>
      have hba := (htotal b (mem_cons_self ..)).resolve_left hab
      refine pairwise_cons.mpr ⟨fun c hc => ?_, ih hl fun c hc => htotal c (.tail b hc)⟩
      rcases (mem_orderedInsert r).mp hc with rfl | hc
      · exact hba
      · exact hb c hc

theorem pairwise_insertionSort (htrans : ∀ a b c, r a b → r b c → r a c)
    (htotal : l.Pairwise fun a b => r a b ∨ r b a) : (l.insertionSort r).Pairwise r := by
  induction l with
  | nil => exact List.Pairwise.nil
  | cons a l ih =>
    obtain ⟨ha,hl⟩ := pairwise_cons.mp htotal
    exact pairwise_orderedInsert htrans (ih hl) fun b hb => ha b ((mem_insertionSort r).mp hb)

end DogePeg.Sorting
