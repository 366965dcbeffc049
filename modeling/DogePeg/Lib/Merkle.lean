import Mathlib.Data.List.Nodup
import Mathlib.Data.Nat.Log
import Mathlib.Logic.Function.Iterate

/-!
# Merkle roots with the last node doubled

A row of nodes is joined in pairs into the row above it, the last node with itself where their number is
odd. A `Store` computes the root from the leaves one after the other. Doubling lets two lists of leaves
have one root; they do not where no leaf occurs twice, or where the lists are equally long, as long as no
two of the pairs that are joined give the same node.
-/

namespace DogePeg.Merkle

open List Function

variable {n k : ℕ} {α : Type} (node : α → α → α)

/-- The pairs of a row that are joined. -/
def rowPairs : List α → List (α × α)
  | [] => []
  | [a] => [(a,a)]
  | a::b::l => (a,b)::rowPairs l

def rowUp (l : List α) : List α := (rowPairs l).map fun p => node p.1 p.2

def height (l : List α) : ℕ := Nat.clog 2 l.length

/-- The root of the leaves. -/
def Rooted (l : List α) (r : α) : Prop := (rowUp node)^[height l] l = [r]

/-- The pairs joined in so many rows. -/
def joined : ℕ → List α → List (α × α)
  | 0, _ => []
  | n+1, l => rowPairs l++joined n (rowUp node l)

/-! ## The store -/

/-- The roots, the last one first, and the number of leaves they are of. -/
structure Store (α : Type) where
  roots : List α
  numLeaves : ℕ

/-- Joins a new root with the last ones while the number of leaves ends in ones. -/
def carry : List α → ℕ → α → Option (List α)
  | [], n, newRoot => if n % 2 = 0 then some [newRoot] else none
  | root::roots, n, newRoot =>
    if n % 2 = 0 then some (newRoot::root::roots) else carry roots (n / 2) (node root newRoot)

def Store.add (s : Store α) (a : α) : Option (Store α) := do
  let roots ← carry node s.roots s.numLeaves a
  return ⟨roots,s.numLeaves+1⟩

def oddPart : ℕ → ℕ → ℕ
  | 0, n => n
  | fuel+1, n => if n % 2 = 0 then oddPart fuel (n / 2) else n

/-- Doubles the last root, in the lowest row it is the last node of, until one root is left. -/
def Store.climb : ℕ → Store α → Option α
  | _, ⟨[],_⟩ => none
  | _, ⟨[root],_⟩ => some root
  | 0, _ => none
  | fuel+1, ⟨last::roots,n⟩ => do
    let s ← Store.add node ⟨last::roots,oddPart n n⟩ last
    s.climb fuel

/-- Adds the last leaf once more where their number is odd. -/
def Store.double (leaves : List α) (s : Store α) : Option (Store α) :=
  if leaves.length % 2 = 0 then some s else leaves.getLast?.bind (Store.add node s)

def rollingRoot (leaves : List α) : Option α := do
  let s ← leaves.foldlM (Store.add node) ⟨[],0⟩
  if s.numLeaves = 1 then s.roots.getLast?
  else do
    let s ← s.double node leaves
    s.climb node s.numLeaves

/-! ## Rows -/

theorem length_rowPairs (l : List α) : (rowPairs l).length = (l.length+1) / 2 := by
  fun_induction rowPairs l with
  | case1 => simp
  | case2 a => simp
  | case3 a b l ih =>
    simp only [length_cons,ih]
    omega

@[simp] theorem length_rowUp (l : List α) : (rowUp node l).length = (l.length+1) / 2 := by
  rw [rowUp,length_map,length_rowPairs]

theorem rowPairs_append {l : List α} (h : l.length % 2=0) (m : List α) :
    rowPairs (l++m) = rowPairs l++rowPairs m := by
  fun_induction rowPairs l with
  | case1 => rfl
  | case2 a => cases h
  | case3 a b l ih =>
    rw [length_cons,length_cons] at h
    rw [cons_append,cons_append,rowPairs,ih (by omega),cons_append]

theorem rowUp_append {l : List α} (h : l.length % 2=0) (m : List α) :
    rowUp node (l++m) = rowUp node l++rowUp node m := by
  rw [rowUp,rowPairs_append h,map_append,rowUp,rowUp]

variable {node}

theorem rowUp_eq_nil {l : List α} : rowUp node l = [] ↔ l = [] := by
  rw [← length_eq_zero_iff,length_rowUp,← length_eq_zero_iff]
  omega

theorem height_rowUp {l : List α} (h : 2≤l.length) : height l = height (rowUp node l)+1 := by
  rw [height,height,Nat.clog_of_two_le (by omega) h,length_rowUp]
  rfl

theorem rooted_of_rowUp {l : List α} {r : α} (h : 2≤l.length) (hr : Rooted node (rowUp node l) r) :
    Rooted node l r := by
  rw [Rooted,height_rowUp h,iterate_succ_apply]
  exact hr

theorem rooted_congr {l m : List α} {r : α} (hl : 2≤l.length) (hm : 2 ≤ m.length)
    (h : rowUp node l=rowUp node m) (hr : Rooted node l r) : Rooted node m r := by
  rw [Rooted,height_rowUp hl,iterate_succ_apply,h] at hr
  exact rooted_of_rowUp hm hr

/-! ## What a store holds -/

variable (node)

/-- The roots of a store that has been given the leaves. -/
inductive Peaks : List α → List α → Prop
  | nil : Peaks [] []
  | even {l roots : List α} (length : l.length % 2=0) (nonempty : l≠[]) (up : Peaks (rowUp node l) roots) :
      Peaks l roots
  | odd {l roots : List α} (last : α) (length : l.length % 2=0) (up : Peaks (rowUp node l) roots) :
      Peaks (l++[last]) (last::roots)

variable {node}

theorem carry_even {roots : List α} (h : n % 2=0) (a : α) : carry node roots n a = some (a::roots) := by
  cases roots <;> simp [carry,h]

variable {l roots : List α}

theorem Peaks.carry (h : Peaks node l roots) (a : α) :
    ∃ roots', carry node roots l.length a = some roots' ∧ Peaks node (l++[a]) roots' := by
  induction h generalizing a with
  | nil => exact ⟨[a],rfl,.odd a rfl .nil⟩
  | even length _ up => exact ⟨_,carry_even length a,.odd a length up⟩
  | @odd l roots last length up ih =>
    obtain ⟨roots',hcarry,hpeaks⟩ := ih (node last a)
    have hodd : ¬ (l++[last]).length % 2 = 0 := by
      rw [length_append,length_singleton]
      omega
    have hhalf : (l++[last]).length / 2 = (rowUp node l).length := by
      rw [length_append,length_singleton,length_rowUp]
    refine ⟨roots',?_,.even ?_ (by simp) ?_⟩
    · rw [Merkle.carry,if_neg hodd,hhalf,hcarry]
    · rw [length_append,length_singleton]
      omega
    · rw [append_assoc,rowUp_append node length]
      exact hpeaks

theorem Peaks.add (h : Peaks node l roots) (a : α) :
    ∃ roots', Store.add node ⟨roots,l.length⟩ a = some ⟨roots',(l++[a]).length⟩ ∧ Peaks node (l++[a]) roots' := by
  obtain ⟨roots',hcarry,hpeaks⟩ := h.carry a
  refine ⟨roots',?_,hpeaks⟩
  rw [Store.add,hcarry,length_append]
  rfl

theorem Peaks.foldlM (h : Peaks node l roots) (m : List α) :
    ∃ roots', m.foldlM (Store.add node) ⟨roots,l.length⟩ = some ⟨roots',(l++m).length⟩ ∧
      Peaks node (l++m) roots' := by
  induction m generalizing l roots with
  | nil => exact ⟨roots,by simp, by simpa using h⟩
  | cons a m ih =>
    obtain ⟨roots₁,hadd,hpeaks⟩ := h.add a
    obtain ⟨roots₂,hrest,hpeaks₂⟩ := ih hpeaks
    rw [append_assoc,singleton_append] at hrest hpeaks₂
    exact ⟨roots₂,by rw [foldlM_cons,hadd]; exact hrest, hpeaks₂⟩

theorem Peaks.eq_nil_iff (h : Peaks node l roots) : roots = [] ↔ l = [] := by
  induction h with
  | nil => exact Iff.rfl
  | even _ _ _ ih => rw [ih,rowUp_eq_nil]
  | odd => simp

theorem Peaks.rooted {l : List α} {r : α} (h : Peaks node l [r]) : Rooted node l r := by
  generalize hroots : [r] = roots at h
  induction h with
  | nil => cases hroots
  | @even l _ length nonempty _ ih =>
    have hpos : l.length ≠ 0 := fun h0 => nonempty (length_eq_zero_iff.mp h0)
    exact rooted_of_rowUp (by omega) (ih hroots)
  | odd last _ up =>
    cases hroots
    rw [rowUp_eq_nil.mp (up.eq_nil_iff.mp rfl)]
    rfl

theorem oddPart_odd (h : n % 2=1) (fuel : ℕ) : oddPart fuel n = n := by
  cases fuel with
  | zero => rfl
  | succ fuel => rw [oddPart,if_neg (by omega)]

/-- The lowest row whose last node is the last root. -/
theorem Peaks.oddRow (h : Peaks node l roots) (hne : l≠[]) {fuel : ℕ} (hfuel : l.length≤fuel) :
    ∃ row, Peaks node row roots ∧ row.length % 2 = 1 ∧ row.length = oddPart fuel l.length ∧
      (∀ r, Rooted node row r → Rooted node l r) ∧ (l.length % 2 = 0 → 2*row.length ≤ l.length) := by
  induction h generalizing fuel with
  | nil => exact absurd rfl hne
  | @even l _ length nonempty _ ih =>
    have hpos : l.length ≠ 0 := fun h0 => nonempty (length_eq_zero_iff.mp h0)
    obtain ⟨fuel,rfl⟩ := Nat.exists_eq_succ_of_ne_zero (show fuel ≠ 0 by omega)
    have hhalf : (rowUp node l).length = l.length / 2 := by
      rw [length_rowUp]
      omega
    obtain ⟨row,hrow,hodd,hpart,hroot,hle⟩ := ih (mt rowUp_eq_nil.mp nonempty)
      (show (rowUp node l).length ≤ fuel by omega)
    refine ⟨row,hrow,hodd,?_,fun r hr => rooted_of_rowUp (by omega) (hroot r hr), fun _ => ?_⟩
    · rw [hpart,oddPart,if_pos length,hhalf]
    · rcases Nat.mod_two_eq_zero_or_one (rowUp node l).length with heven | hup
      · have := hle heven
        omega
      · rw [oddPart_odd hup] at hpart
        omega
  | @odd l _ last length up =>
    have hodd : (l++[last]).length % 2 = 1 := by
      rw [length_append,length_singleton]
      omega
    exact ⟨l++[last],.odd last length up,hodd,(oddPart_odd hodd fuel).symm,fun _ hr => hr, fun h => by omega⟩

theorem rooted_of_doubled {l : List α} {a r : α} (heven : l.length % 2=0) (hne : l≠[])
    (h : Rooted node (l++[a]++[a]) r) : Rooted node (l++[a]) r := by
  have hpos : l.length ≠ 0 := fun h0 => hne (length_eq_zero_iff.mp h0)
  refine rooted_congr (by simp) (by simp; omega) ?_ h
  rw [append_assoc,rowUp_append node heven,rowUp_append node heven]
  rfl

theorem Peaks.climb (h : Peaks node l roots) (hne : l≠[]) (heven : l.length % 2=0) {fuel : ℕ}
    (hfuel : l.length≤fuel) : ∃ r, Store.climb node fuel ⟨roots,l.length⟩ = some r ∧ Rooted node l r := by
  induction fuel generalizing l roots with
  | zero => exact absurd (length_eq_zero_iff.mp (by omega)) hne
  | succ fuel ih =>
    match roots, h with
    | [], h => exact absurd (h.eq_nil_iff.mp rfl) hne
    | [root], h => exact ⟨root,rfl,h.rooted⟩
    | last::next::roots, h =>
      obtain ⟨row,hrow,hodd,hpart,hroot,hle⟩ := h.oddRow hne le_rfl
      obtain ⟨front,rfl,hfront,hnonempty⟩ : ∃ front, row = front++[last] ∧ front.length % 2 = 0 ∧ front ≠ [] := by
        cases hrow with
        | even length => omega
        | @odd front _ _ length up =>
          exact ⟨front,rfl,length,fun hnil => by cases up.eq_nil_iff.mpr (rowUp_eq_nil.mpr hnil)⟩
      obtain ⟨roots',hadd,hpeaks⟩ := hrow.add last
      have hpos : front.length ≠ 0 := fun h0 => hnonempty (length_eq_zero_iff.mp h0)
      have hshort := hle heven
      simp only [length_append,length_singleton] at hodd hshort
      obtain ⟨r,hclimb,hr⟩ := ih hpeaks (by simp) (by simp; omega) (by simp; omega)
      refine ⟨r,?_,hroot r (rooted_of_doubled hfront hnonempty hr)⟩
      rw [Store.climb,← hpart,hadd]
      exact hclimb
      simp

theorem exists_rollingRoot {l : List α} (hne : l≠[]) : ∃ r, rollingRoot node l = some r ∧ Rooted node l r := by
  by_cases hone : l.length = 1
  · obtain ⟨a,rfl⟩ := length_eq_one_iff.mp hone
    exact ⟨a,rfl,rfl⟩
  · obtain ⟨roots,hfold,hpeaks⟩ := (Peaks.nil : Peaks node [] []).foldlM l
    rw [nil_append,length_nil] at hfold
    rw [nil_append] at hpeaks
    have hrun : rollingRoot node l =
        (Store.double node l ⟨roots,l.length⟩).bind fun s => s.climb node s.numLeaves := by
      rw [rollingRoot,hfold]
      exact if_neg hone
    by_cases heven : l.length % 2 = 0
    · rw [hrun,Store.double,if_pos heven]
      exact hpeaks.climb hne heven le_rfl
    · obtain ⟨front,last,rfl⟩ := (eq_nil_or_concat' l).resolve_left hne
      obtain ⟨roots',hadd,hpeaks'⟩ := hpeaks.add last
      obtain ⟨r,hclimb,hr⟩ := hpeaks'.climb (by simp) (by simp at heven ⊢; omega) le_rfl
      refine ⟨r,?_,rooted_of_doubled (by simp at heven; omega) (by rintro rfl; exact hone rfl) hr⟩
      rw [hrun,Store.double,if_neg heven,List.getLast?_concat,Option.bind_some,hadd]
      exact hclimb

/-! ## One list of leaves for a root -/

theorem eq_of_map_eq {β γ : Type} {f : β → γ} {l m : List β} (hinj : ∀ a∈l, ∀ b∈m, f a = f b → a = b)
    (h : l.map f=m.map f) : l = m := by
  induction l generalizing m with
  | nil => exact (map_eq_nil_iff.mp h.symm).symm
  | cons a l ih =>
    cases m with
    | nil => cases h
    | cons b m =>
      obtain ⟨hab,hrest⟩ := List.cons.inj h
      rw [hinj a (mem_cons_self ..) b (mem_cons_self ..) hab,
        ih (fun x hx y hy => hinj x (mem_cons_of_mem _ hx) y (mem_cons_of_mem _ hy)) hrest]

/-- Lists that doubling does not confuse. -/
def Apart (l m : List α) : Prop := l.length = m.length ∨ (l.Nodup ∧ m.Nodup)

theorem Apart.eq_of_rowPairs_eq {l m : List α} (hapart : Apart l m) (h : rowPairs l=rowPairs m) : l = m := by
  fun_induction rowPairs l generalizing m with
  | case1 =>
    match m with
    | [] => rfl
    | [b] => cases h
    | b::c::m => cases h
  | case2 a =>
    match m with
    | [] => cases h
    | [b] => simpa [rowPairs] using h
    | b::c::m =>
      obtain ⟨⟨rfl,rfl⟩,-⟩ : (a = b ∧ a = c) ∧ [] = rowPairs m := by simpa [rowPairs] using h
      rcases hapart with hlen | ⟨-,hm⟩
      · simp at hlen
      · simp at hm
  | case3 a b l ih =>
    match m with
    | [] => cases h
    | [c] =>
      obtain ⟨⟨rfl,rfl⟩,-⟩ : (a = c ∧ b = c) ∧ rowPairs l = [] := by simpa [rowPairs] using h
      rcases hapart with hlen | ⟨hl,-⟩
      · simp at hlen
      · simp at hl
    | c::d::m =>
      obtain ⟨⟨rfl,rfl⟩,hrest⟩ : (a = c ∧ b = d) ∧ rowPairs l = rowPairs m := by simpa [rowPairs] using h
      have hrest' : Apart l m := by
        rcases hapart with hlen | ⟨hl,hm⟩
        · exact .inl (by simpa using hlen)
        · exact .inr ⟨(nodup_cons.mp (nodup_cons.mp hl).2).2,(nodup_cons.mp (nodup_cons.mp hm).2).2⟩
      rw [ih hrest' hrest]

theorem sublist_rowPairs (l : List α) : ((rowPairs l).map Prod.fst).Sublist l := by
  fun_induction rowPairs l with
  | case1 => exact .slnil
  | case2 a => exact .refl _
  | case3 a b l ih => exact (ih.cons b).cons_cons a

section

variable {P : α × α → Prop}

/-- No two of the pairs give the same node. -/
def JoinsApart (node : α → α → α) (P : α × α → Prop) : Prop :=
  ∀ p q, P p → P q → node p.1 p.2 = node q.1 q.2 → p = q

variable {l : List α}

theorem nodup_rowUp (hinj : JoinsApart node P) (hl : ∀ p∈rowPairs l, P p) (h : l.Nodup) : (rowUp node l).Nodup := by
  have hpairs : (rowPairs l).Nodup := ((sublist_rowPairs l).nodup h).of_map
  exact hpairs.map_on fun p hp q hq heq => hinj p q (hl p hp) (hl q hq) heq

theorem Apart.rowUp (hinj : JoinsApart node P) {l m : List α} (hl : ∀ p∈rowPairs l, P p)
    (hm : ∀ p∈rowPairs m, P p) (h : Apart l m) : Apart (rowUp node l) (rowUp node m) := by
  rcases h with hlen | ⟨hnl,hnm⟩
  · exact .inl (by rw [length_rowUp,length_rowUp,hlen])
  · exact .inr ⟨nodup_rowUp hinj hl hnl,nodup_rowUp hinj hm hnm⟩

theorem Apart.eq_of_rows_eq (hinj : JoinsApart node P) {l m : List α} (hl : ∀ p∈joined node n l, P p)
    (hm : ∀ p∈joined node n m, P p) (hapart : Apart l m) (h : (Merkle.rowUp node)^[n] l=(Merkle.rowUp node)^[n] m) :
    l = m := by
  induction n generalizing l m with
  | zero => exact h
  | succ n ih =>
    simp only [joined,mem_append,or_imp,forall_and] at hl hm
    rw [iterate_succ_apply,iterate_succ_apply] at h
    have hup : Merkle.rowUp node l = Merkle.rowUp node m := ih hl.2 hm.2 (hapart.rowUp hinj hl.1 hm.1) h
    exact hapart.eq_of_rowPairs_eq (eq_of_map_eq (fun p hp q hq heq => hinj p q (hl.1 p hp) (hm.1 q hq) heq) hup)

theorem eq_of_rooted_of_length (hinj : JoinsApart node P) {l m : List α} {r : α}
    (hl : ∀ p∈joined node (height l) l, P p) (hm : ∀ p∈joined node (height m) m, P p)
    (hlen : l.length=m.length) (hrl : Rooted node l r) (hrm : Rooted node m r) : l = m := by
  have hheight : height l = height m := by rw [height,hlen,height]
  rw [Rooted] at hrl hrm
  rw [hheight] at hl hrl
  exact Apart.eq_of_rows_eq hinj hl hm (.inl hlen) (hrl.trans hrm.symm)

theorem joined_iterate {p : α × α} (h : p∈joined node n ((rowUp node)^[k] l)) : p∈joined node (k+n) l := by
  induction k generalizing l with
  | zero => simpa using h
  | succ k ih =>
    rw [Nat.succ_add,joined,mem_append]
    exact .inr (ih h)

theorem nodup_iterate (hinj : JoinsApart node P) (hl : ∀ p∈joined node (k+n) l, P p)
    (h : l.Nodup) : ((rowUp node)^[k] l).Nodup := by
  induction k generalizing l with
  | zero => exact h
  | succ k ih =>
    simp only [Nat.succ_add,joined,mem_append,or_imp,forall_and] at hl
    exact ih hl.2 (nodup_rowUp hinj hl.1 h)

theorem eq_node_of_mem_iterate {a : α} (h : a∈(rowUp node)^[k+1] l) :
    ∃ p∈joined node (k+1+n) l, a = node p.1 p.2 := by
  rw [iterate_succ_apply',rowUp,mem_map] at h
  obtain ⟨p,hp,rfl⟩ := h
  refine ⟨p,?_,rfl⟩
  rw [Nat.add_assoc,Nat.add_comm 1 n]
  exact joined_iterate (mem_append_left _ hp)

variable (hinj : JoinsApart node P) {l m : List α} {r : α}
    (hl : ∀ p∈joined node (height l) l, P p) (hm : ∀ p∈joined node (height m) m, P p) (hnl : l.Nodup)
    (hnm : m.Nodup)

include hinj hl hm hnl hnm

/-- Of two lists of distinct leaves with one root, the one with fewer rows is a row of the other. -/
theorem eq_iterate_of_rooted (hrl : Rooted node l r) (hrm : Rooted node m r) (hk : height m=k+height l) :
    l = (rowUp node)^[k] m := by
  rw [hk] at hm
  rw [Rooted,hk,Nat.add_comm,iterate_add_apply] at hrm
  exact Apart.eq_of_rows_eq hinj hl (fun p hp => hm p (joined_iterate hp)) (.inr ⟨hnl,nodup_iterate hinj hm hnm⟩)
    (hrl.trans hrm.symm)

theorem eq_of_rooted_of_height_le (hlm : ∀ a∈l, ∀ p∈joined node (height m) m, a ≠ node p.1 p.2)
    (hrl : Rooted node l r) (hrm : Rooted node m r) (hle : height l≤height m) : l = m := by
  obtain ⟨k,hk⟩ := Nat.exists_eq_add_of_le' hle
  have hrow := eq_iterate_of_rooted hinj hl hm hnl hnm hrl hrm hk
  cases k with
  | zero => exact hrow
  | succ k =>
    have hne : l ≠ [] := by
      rintro rfl
      cases hrl
    obtain ⟨a,ha⟩ := exists_mem_of_ne_nil l hne
    obtain ⟨p,hp,heq⟩ := eq_node_of_mem_iterate (n := height l) (hrow ▸ ha)
    exact absurd heq (hlm a ha p (hk ▸ hp))

/-- Distinct leaves with one root, where no leaf is a node of the other tree. -/
theorem eq_of_rooted_of_nodup (hlm : ∀ a∈l, ∀ p∈joined node (height m) m, a ≠ node p.1 p.2)
    (hml : ∀ a∈m, ∀ p∈joined node (height l) l, a ≠ node p.1 p.2) (hrl : Rooted node l r)
    (hrm : Rooted node m r) : l = m := by
  rcases Nat.le_total (height l) (height m) with hle | hle
  · exact eq_of_rooted_of_height_le hinj hl hm hnl hnm hlm hrl hrm hle
  · exact (eq_of_rooted_of_height_le hinj hm hl hnm hnl hml hrm hrl hle).symm

end

end DogePeg.Merkle
