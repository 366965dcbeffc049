import Mathlib.Data.List.Perm.Subperm
import Mathlib.Logic.Relation

/-!
# Following a partial function

A line is what one reaches by following a partial function `next`. The function
is deterministic, so two points reached from one start lie on one line, a line
that ends has no cycle, and a bounded walk reaches its end as soon as the bound
is the number of points it may visit.
-/

namespace DogePeg.Walk

variable {n : ℕ} {α : Type*} {next : α → Option α} {a b c : α}

/-- `b` is on the line that starts at `a`. -/
def Leads (next : α → Option α) : α → α → Prop :=
  Relation.ReflTransGen fun x y => next x = some y

theorem Leads.refl (next : α → Option α) (a : α) : Leads next a a := Relation.ReflTransGen.refl

theorem Leads.head (h : next a=some b) (hb : Leads next b c) : Leads next a c := Relation.ReflTransGen.head h hb

theorem Leads.tail (hb : Leads next a b) (h : next b=some c) : Leads next a c := Relation.ReflTransGen.tail hb h

theorem Leads.trans (hb : Leads next a b) (hc : Leads next b c) : Leads next a c :=
  Relation.ReflTransGen.trans hb hc

theorem Leads.eq_or_head (h : Leads next a c) : a = c ∨ ∃ b, next a = some b ∧ Leads next b c := by
  rcases Relation.ReflTransGen.cases_head h with rfl | ⟨b,hab,hbc⟩
  · exact .inl rfl
  · exact .inr ⟨b,hab,hbc⟩

open Leads

theorem Leads.mono {next' : α → Option α} (h : Leads next a b)
    (hsub : ∀ x y, Leads next a x → next x = some y → next' x = some y) : Leads next' a b := by
  induction h with
  | refl => exact refl _ _
  | tail hab hbc ih => exact ih.tail (hsub _ _ hab hbc)

theorem Leads.total (hb : Leads next a b) (hc : Leads next a c) : Leads next b c ∨ Leads next c b := by
  refine Relation.ReflTransGen.total_of_right_unique ?_ hb hc
  intro x y z hy hz
  exact Option.some.inj (hy.symm.trans hz)

theorem Leads.to_end (hb : Leads next a b) (hend : next b=none) (hc : Leads next a c) : Leads next c b := by
  rcases hb.total hc with h | h
  · rcases h.eq_or_head with rfl | ⟨d,hd,-⟩
    · exact refl _ _
    · simp [hend] at hd
  · exact h

theorem Leads.end_unique (hb : Leads next a b) (hbend : next b=none)
    (hc : Leads next a c) (hcend : next c=none) : b = c := by
  rcases (hb.to_end hbend hc).eq_or_head with rfl | ⟨d,hd,-⟩
  · rfl
  · simp [hcend] at hd

theorem Leads.not_cycle (hb : Leads next a b) (hend : next b=none) (hc : next a=some c) : ¬ Leads next c a := by
  induction hb using Relation.ReflTransGen.head_induction_on generalizing c with
  | refl => simp [hend] at hc
  | head hac _ ih =>
    obtain rfl : _ = c := Option.some.inj (hac.symm.trans hc)
    intro hca
    rcases hca.eq_or_head with rfl | ⟨d,hd,hda⟩
    · exact ih hc (refl _ _)
    · exact ih hd (hda.tail hc)

theorem exists_end {rank : α → ℕ} {bound : ℕ} (hrank : ∀ x y z, next x = some y → next y = some z → rank x < rank y)
    (hbound : ∀ x, rank x ≤ bound) (a : α) : ∃ b, Leads next a b ∧ next b = none := by
  induction hd : bound-rank a using Nat.strongRecOn generalizing a with
  | ind d ih =>
    cases hab : next a with
    | none => exact ⟨a,refl _ _,hab⟩
    | some b =>
      cases hbc : next b with
      | none => exact ⟨b,head hab (refl _ _),hbc⟩
      | some c =>
        have hlt := hrank a b c hab hbc
        have hle := hbound b
        obtain ⟨e,hlead,hend⟩ := ih (bound-rank b) (by omega) b rfl
        exact ⟨e,head hab hlead,hend⟩

/-- Follow `next` to the end of the line, for at most `n` points. -/
def walk (next : α → Option α) : ℕ → α → Option α
  | 0, _ => none
  | n+1, a => match next a with
    | none => some a
    | some b => walk next n b

private theorem exists_visited (hb : Leads next a b) (hend : next b=none) :
    ∃ visited : List α, visited.Nodup ∧ (∀ x∈visited, Leads next a x) ∧
      ∀ n, visited.length ≤ n → walk next n a = some b := by
  induction hb using Relation.ReflTransGen.head_induction_on with
  | refl =>
    refine ⟨[b],by simp, by simp [refl], ?_⟩
    intro n hn
    obtain ⟨m,rfl⟩ : ∃ m, n = m+1 := ⟨n-1,by simp at hn; omega⟩
    simp [walk,hend]
  | @head a c hac hcb ih =>
    obtain ⟨visited,hnodup,hreach,hwalk⟩ := ih
    have hnot : a ∉ visited := by
      intro ha
      exact (head hac hcb).not_cycle hend hac (hreach a ha)
    refine ⟨a::visited,List.nodup_cons.mpr ⟨hnot,hnodup⟩,?_,?_⟩
    · intro x hx
      rcases List.mem_cons.mp hx with rfl | hx
      · exact refl _ _
      · exact head hac (hreach x hx)
    · intro n hn
      obtain ⟨m,rfl⟩ : ∃ m, n = m+1 := ⟨n-1,by simp at hn; omega⟩
      simp only [walk,hac]
      exact hwalk m (by simpa using hn)

theorem walk_eq_end (points : List α) (hb : Leads next a b) (hend : next b=none)
    (hpoints : ∀ x, Leads next a x → x∈points) (hn : points.length≤n) : walk next n a = some b := by
  obtain ⟨visited,hnodup,hreach,hwalk⟩ := exists_visited hb hend
  have hsub : visited ⊆ points := fun x hx => hpoints x (hreach x hx)
  exact hwalk n (Nat.le_trans (hnodup.subperm hsub).length_le hn)

theorem leads_of_walk (h : walk next n a=some b) : Leads next a b ∧ next b = none := by
  induction n generalizing a with
  | zero => cases h
  | succ n ih =>
    rw [walk] at h
    cases hnext : next a with
    | none =>
      rw [hnext,Option.some.injEq] at h
      exact h ▸ ⟨refl _ _,hnext⟩
    | some c =>
      rw [hnext] at h
      obtain ⟨hlead,hend⟩ := ih h
      exact ⟨head hnext hlead,hend⟩

theorem walk_eq_of_le (points : List α) (hpoints : ∀ x, Leads next a x → x∈points) {m : ℕ}
    (hn : points.length≤n) (hm : points.length ≤ m) : walk next n a = walk next m a := by
  cases hwalk : walk next n a with
  | some b =>
    obtain ⟨hlead,hend⟩ := leads_of_walk hwalk
    exact (walk_eq_end points hlead hend hpoints hm).symm
  | none =>
    cases hwalk' : walk next m a with
    | none => rfl
    | some b =>
      obtain ⟨hlead,hend⟩ := leads_of_walk hwalk'
      rw [walk_eq_end points hlead hend hpoints hn] at hwalk
      cases hwalk

end DogePeg.Walk
