import DogePeg.Lib.Batches
import Mathlib.Algebra.BigOperators.Finprod
import Mathlib.Tactic.Abel

/-!
# Totals over a store

The sum of a weight of the entries of a store that has finitely many. One write changes it by the
difference of two weights, and it is the sum over the rows of any listing of the store.
-/

namespace DogePeg.Batches.Store

open List Function

variable {K V M : Type} [DecidableEq K] [AddCommGroup M] {s : Store K V} {w : K → V → M}

def IsFinite (s : Store K V) : Prop := ∃ keys : Finset K, ∀ k, s k ≠ none → k∈keys

omit [DecidableEq K] in
theorem isFinite_empty : IsFinite (fun _ => none : Store K V) := ⟨∅,fun _ h => absurd rfl h⟩

theorem IsFinite.update (hs : s.IsFinite) (k : K) (v : Option V) : IsFinite (Function.update s k v) := by
  obtain ⟨keys,hkeys⟩ := hs
  refine ⟨insert k keys,fun key hkey => Finset.mem_insert.mpr ?_⟩
  by_cases h : key = k
  · exact .inl h
  · rw [update_of_ne h] at hkey
    exact .inr (hkeys key hkey)

theorem IsFinite.write (hs : s.IsFinite) (batch : List (Write K V)) : (s.write batch).IsFinite :=
  List.foldlRecOn batch _ (motive := IsFinite) hs fun _ hs w _ => hs.update w.key w.value

noncomputable def total (w : K → V → M) (s : Store K V) : M := ∑ᶠ k, (s k).elim 0 (w k)

omit [DecidableEq K] in
theorem total_empty (w : K → V → M) : total w (fun _ => none) = 0 := by
  simp [total]

omit [DecidableEq K] in
theorem total_congr {t : Store K V} (h : ∀ k, s k = t k ∨ ∀ v, w k v = 0) : total w s = total w t := by
  refine finsum_congr fun k => ?_
  rcases h k with heq | hzero
  · rw [heq]
  · have hnone (v : Option V) : v.elim 0 (w k) = 0 := by cases v <;> simp [hzero]
    rw [hnone,hnone]

omit [DecidableEq K] in
theorem total_eq_sum {keys : Finset K} (w : K → V → M) (h : ∀ k, s k ≠ none → k∈keys) :
    total w s = ∑ k ∈ keys, (s k).elim 0 (w k) := by
  refine finsum_eq_sum_of_support_subset _ fun k hk => h k fun hnone => hk ?_
  simp only [hnone,Option.elim_none]

theorem total_update (w : K → V → M) (hs : s.IsFinite) (k : K) (v : Option V) :
    total w (Function.update s k v) = total w s-(s k).elim 0 (w k)+v.elim 0 (w k) := by
  obtain ⟨keys,hkeys⟩ := hs
  have hnew : ∀ key, Function.update s k v key ≠ none → key∈insert k keys := by
    intro key hkey
    by_cases h : key = k
    · exact Finset.mem_insert.mpr (.inl h)
    · rw [update_of_ne h] at hkey
      exact Finset.mem_insert_of_mem (hkeys key hkey)
  have hrest : ∑ key ∈ (insert k keys).erase k, (Function.update s k v key).elim 0 (w key) =
      ∑ key ∈ (insert k keys).erase k, (s key).elim 0 (w key) := by
    refine Finset.sum_congr rfl fun key hkey => ?_
    rw [update_of_ne (Finset.ne_of_mem_erase hkey)]
  rw [total_eq_sum w hnew,total_eq_sum w fun key h => Finset.mem_insert_of_mem (hkeys key h),
    ← Finset.add_sum_erase _ _ (Finset.mem_insert_self k keys),
    ← Finset.add_sum_erase _ _ (Finset.mem_insert_self k keys), update_self, hrest]
  abel

theorem total_update_of_zero (hs : s.IsFinite) {k : K} (hk : ∀ v, w k v = 0) (v : Option V) :
    total w (Function.update s k v) = total w s := by
  have hzero (v : Option V) : v.elim 0 (w k) = 0 := by cases v <;> simp [hk]
  rw [total_update w hs,hzero,hzero,sub_zero,add_zero]

/-- The rows an iterator over a store lists: each entry once. -/
structure Lists (s : Store K V) (rows : List (K × V)) : Prop where
  nodup : (rows.map Prod.fst).Nodup
  mem_iff : ∀ k v, (k,v)∈rows ↔ s k = some v

theorem Lists.total_eq {rows : List (K × V)} (h : s.Lists rows) (w : K → V → M) :
    total w s = (rows.map fun r => w r.1 r.2).sum := by
  have hkeys : ∀ k, s k ≠ none → k∈(rows.map Prod.fst).toFinset := by
    intro k hk
    obtain ⟨v,hv⟩ := Option.ne_none_iff_exists'.mp hk
    exact mem_toFinset.mpr (mem_map_of_mem ((h.mem_iff k v).mpr hv))
  rw [total_eq_sum w hkeys,sum_toFinset _ h.nodup,map_map]
  refine congrArg List.sum (map_congr_left fun r hr => ?_)
  rw [comp_apply,(h.mem_iff r.1 r.2).mp hr,Option.elim_some]

omit [DecidableEq K] in
theorem lists_empty : Lists (fun _ => none : Store K V) [] := ⟨nodup_nil,fun _ _ => by simp⟩

def writeRows (rows : List (K × V)) (batch : List (Write K V)) : List (K × V) :=
  batch.foldl (fun rows w => rows.filter (fun r => r.1 ≠ w.key)++w.value.toList.map (w.key,·)) rows

theorem Lists.write {rows : List (K × V)} (h : s.Lists rows) (batch : List (Write K V)) :
    (s.write batch).Lists (writeRows rows batch) := by
  induction batch generalizing s rows with
  | nil => exact h
  | cons w batch ih =>
    refine ih ⟨?_,fun k v => ?_⟩
    · rw [map_append,nodup_append]
      refine ⟨h.nodup.sublist (filter_sublist.map _),?_,fun k hk k' hk' => ?_⟩
      · cases w.value <;> simp
      · obtain ⟨r,hr,rfl⟩ := mem_map.mp hk
        obtain ⟨r',hr',rfl⟩ := mem_map.mp hk'
        obtain ⟨v,-,rfl⟩ := mem_map.mp hr'
        exact of_decide_eq_true (mem_filter.mp hr).2
    · rw [mem_append,mem_filter,h.mem_iff,decide_eq_true_eq]
      by_cases hk : k = w.key
      · subst hk
        simp [Option.mem_toList]
      · have hnone : (k,v) ∉ w.value.toList.map (w.key,·) := by simp [Ne.symm hk]
        have hsame : Function.update s w.key w.value k = s k := update_of_ne hk ..
        refine Iff.trans ?_ (iff_of_eq (congrArg (· = some v) hsame.symm))
        exact ⟨fun hmem => hmem.elim And.left fun hmem => absurd hmem hnone, fun heq => .inl ⟨heq,hk⟩⟩

end DogePeg.Batches.Store
