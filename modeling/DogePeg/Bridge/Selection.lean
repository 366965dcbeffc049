import DogePeg.Bridge.Build

/-!
# Choosing coins

`selectUTXOs` takes the largest coins first until they cover an amount (`cmd/dogevm/bridge.go`). It
sorts them by `sort.Slice`, which leaves coins of equal value in any order, so the facts here are
about every such order.
-/

namespace DogePeg

open Amounts Checks List Int64

/-! ## The loop -/

theorem snd_takeCoins (amount sum : Int64) (coins : List Utxo) :
    (takeCoins amount sum coins).2 = sum+inputsTotal (takeCoins amount sum coins).1 := by
  induction coins generalizing sum with
  | nil => exact (add_zero sum).symm
  | cons u us ih =>
    rw [takeCoins]
    split
    · exact (add_zero sum).symm
    · rw [inputsTotal_cons,← add_assoc]
      exact ih (sum+u.value)

theorem takeCoins_initial (amount sum : Int64) (coins : List Utxo) : (takeCoins amount sum coins).1 <+: coins := by
  induction coins generalizing sum with
  | nil => exact List.prefix_rfl
  | cons u us ih =>
    rw [takeCoins]
    split
    · exact nil_prefix
    · exact (prefix_cons_inj u).mpr (ih (sum+u.value))

variable {amount sum : Int64} {coins : List Utxo}

/-- The sum does not wrap, and goes over the amount by less than one coin. -/
theorem takeCoins_exact (hcoins : ∀ u∈coins, u.InRange)
    (hamount : amount.toInt≤2*10^18) (h0 : 0 ≤ sum.toInt) (hsum : sum.toInt≤amount.toInt+10^18) :
    let taken := takeCoins amount sum coins
    taken.2.toInt = sum.toInt+exact (taken.1.map (·.value)) ∧ taken.2.toInt ≤ amount.toInt+10^18 := by
  induction coins generalizing sum with
  | nil => exact ⟨(Int.add_zero _).symm,hsum⟩
  | cons u us ih =>
    obtain ⟨hlo,hhi⟩ := hcoins u (mem_cons_self ..)
    rw [takeCoins]
    split
    · exact ⟨(Int.add_zero _).symm,hsum⟩
    · next hlt =>
      rw [le_iff_toInt_le,not_le] at hlt
      have hadd : (sum+u.value).toInt = sum.toInt+u.value.toInt := toInt_add_of_bounds (by omega) (by omega)
      obtain ⟨hexact,hle⟩ := ih (fun v hv => hcoins v (mem_cons_of_mem _ hv))
        (show 0 ≤ (sum+u.value).toInt by omega) (by omega)
      refine ⟨?_,hle⟩
      rw [map_cons,exact_cons,← Int.add_assoc,← hadd]
      exact hexact

/-- If the first `k` coins are enough, no more are taken. -/
theorem takeCoins_enough {k : ℕ} (hcoins : ∀ u∈coins, u.InRange) (hamount : amount.toInt≤2*10^18) (h0 : 0 ≤ sum.toInt)
    (henough : amount.toInt ≤ sum.toInt+exact ((coins.take k).map (·.value))) :
    (takeCoins amount sum coins).1.length ≤ k ∧ amount ≤ (takeCoins amount sum coins).2 := by
  induction coins generalizing sum k with
  | nil =>
    rw [take_nil,map_nil,exact_nil,Int.add_zero] at henough
    exact ⟨Nat.zero_le k,le_iff_toInt_le.mpr henough⟩
  | cons u us ih =>
    obtain ⟨hlo,hhi⟩ := hcoins u (mem_cons_self ..)
    rw [takeCoins]
    split
    · next hle => exact ⟨Nat.zero_le k,hle⟩
    · next hlt =>
      rw [le_iff_toInt_le,not_le] at hlt
      have hadd : (sum+u.value).toInt = sum.toInt+u.value.toInt := toInt_add_of_bounds (by omega) (by omega)
      cases k with
      | zero =>
        rw [take_zero,map_nil,exact_nil] at henough
        omega
      | succ k =>
        rw [take_succ_cons,map_cons,exact_cons,← Int.add_assoc,← hadd] at henough
        obtain ⟨hlen,hge⟩ := ih (fun v hv => hcoins v (mem_cons_of_mem _ hv)) (by omega) henough
        exact ⟨Nat.succ_le_succ hlen,hge⟩

/-- The last coin taken is the least, and without it the sum was too small. -/
theorem takeCoins_last (hsorted : coins.Pairwise fun u v => v.value ≤ u.value)
    (hne : (takeCoins amount sum coins).1≠[]) : ∃ before : Int64, ∃ last∈coins,
      (takeCoins amount sum coins).2 = before+last.value ∧ before < amount ∧
        ∀ u∈(takeCoins amount sum coins).1, last.value ≤ u.value := by
  induction coins generalizing sum with
  | nil => exact absurd rfl hne
  | cons u us ih =>
    obtain ⟨hhead,htail⟩ := pairwise_cons.mp hsorted
    rw [takeCoins] at hne ⊢
    split at hne
    · exact absurd rfl hne
    · next hlt =>
      rw [if_neg hlt]
      dsimp only
      by_cases hrest : (takeCoins amount (sum+u.value) us).1 = []
      · refine ⟨sum,u,mem_cons_self ..,?_,Int64.not_le.mp hlt,fun w hw => ?_⟩
        · rw [snd_takeCoins,hrest]
          exact add_zero _
        · rw [hrest] at hw
          obtain rfl := mem_singleton.mp hw
          exact Int64.le_refl _
      · obtain ⟨before,last,hlast,hsum,hbefore,hleast⟩ := ih htail hrest
        refine ⟨before,last,mem_cons_of_mem _ hlast,hsum,hbefore,fun w hw => ?_⟩
        rcases mem_cons.mp hw with rfl | hw
        · exact hhead last hlast
        · exact hleast w hw

/-! ## The selection, whatever the order of equal coins -/

/-- What `sort.Slice` makes of coins: the largest first. -/
structure CoinSort where
  sort : List Utxo → List Utxo
  perm : ∀ coins, (sort coins).Perm coins
  sorted : ∀ coins, (sort coins).Pairwise fun u v => v.value ≤ u.value

namespace CoinSort

variable (o : CoinSort)

/-- `selectUTXOs`: the largest coins first, until they cover the amount. -/
def selectUTXOs (coins : List Utxo) (amount : Int64) : Except BuildError (List Utxo × Int64) := do
  let (picked,sum) := takeCoins amount 0 (o.sort coins)
  ensure (amount ≤ sum) (.available sum amount)
  return (picked,sum)

def anchoredSelection (anchor : Utxo) (coins : List Utxo) (need : Int64) : Except BuildError (List Utxo × Int64) :=
  if need ≤ anchor.value then .ok ([anchor],anchor.value)
  else do
    let (more,sum) ← o.selectUTXOs (coins.filter fun u => u.outPoint ≠ anchor.outPoint) (need-anchor.value)
    return (anchor::more,anchor.value+sum)

def releaseInputs (s : PegState) (value : Int64) : Except BuildError (List Utxo × Int64) := do
  o.anchoredSelection (← s.freeReserveAnchor) s.reserveUTXOs (value+pegDust)

def cancelInputs (s : PegState) (fee : Int64) : Except BuildError (List Utxo) := do
  let picked ← o.anchoredSelection (← s.freeReserveAnchor) s.reserveUTXOs (fee+pegDust)
  return picked.1

def payoutInputs (s : PegState) (confirmed : List Utxo) (value : Int64) : Except BuildError (List Utxo) := do
  let anchor ← found s.pegAnchor .noAnchor
  ensure (containsOutPoint confirmed anchor.outPoint) (.waitingFor anchor.outPoint)
  let picked ← o.anchoredSelection anchor confirmed value
  return picked.1

/-- The one that leaves equal coins as they are listed. -/
def stable : CoinSort where
  sort coins := coins.insertionSort fun u v => v.value ≤ u.value
  perm coins := perm_insertionSort _ coins
  sorted coins := by
    have htotal : Std.Total fun u v : Utxo => v.value ≤ u.value := ⟨fun u v => Int64.le_total ..⟩
    have htrans : IsTrans Utxo fun u v => v.value ≤ u.value := ⟨fun _ _ _ h h' => Int64.le_trans h' h⟩
    exact pairwise_insertionSort _ coins

/-! ## What is chosen -/

variable {anchor : Utxo} {coins picked : List Utxo} {need sum : Int64}

theorem mem_of_mem_sort {p : Utxo → Bool} {u : Utxo} (h : u∈o.sort (coins.filter p)) : u∈coins :=
  mem_of_mem_filter ((o.perm _).mem_iff.mp h)

section

variable (h : o.anchoredSelection anchor coins need = .ok (picked,sum))

include h

theorem anchoredSelection_cases : (need ≤ anchor.value ∧ picked = [anchor] ∧ sum = anchor.value) ∨
      let more := takeCoins (need-anchor.value) 0 (o.sort (coins.filter fun u => u.outPoint ≠ anchor.outPoint))
      anchor.value < need ∧ need-anchor.value ≤ more.2 ∧ picked = anchor::more.1 ∧ sum = anchor.value+more.2 := by
  unfold anchoredSelection at h
  split at h
  · next hle =>
    cases h
    exact .inl ⟨hle,rfl,rfl⟩
  · next hlt =>
    simp only [checks_ok,Prod.mk.injEq,selectUTXOs,decide_eq_true_eq] at h
    obtain ⟨⟨more,rest⟩,⟨hle,rfl,rfl⟩,rfl,rfl⟩ := h
    exact .inr ⟨Int64.not_le.mp hlt,hle,rfl,rfl⟩

theorem sum_anchoredSelection : sum = inputsTotal picked := by
  rcases o.anchoredSelection_cases h with ⟨-,rfl,rfl⟩ | ⟨-,-,rfl,rfl⟩
  · rw [inputsTotal_cons]
    exact (add_zero _).symm
  · rw [inputsTotal_cons,snd_takeCoins,zero_add]

theorem head_anchoredSelection : picked.head? = some anchor := by
  rcases o.anchoredSelection_cases h with ⟨-,rfl,-⟩ | ⟨-,-,rfl,-⟩
  · rfl
  · rfl

theorem anchoredSelection_subperm (hanchor : anchor∈coins) : picked.Subperm coins := by
  rcases o.anchoredSelection_cases h with ⟨-,rfl,-⟩ | ⟨-,-,rfl,-⟩
  · exact singleton_subperm_iff.mpr hanchor
  · obtain ⟨front,back,rfl⟩ := append_of_mem hanchor
    refine List.Subperm.trans ?_ perm_middle.symm.subperm
    refine (subperm_cons anchor).mpr ((takeCoins_initial ..).sublist.subperm.trans ?_)
    refine (o.perm _).subperm.trans ?_
    rw [filter_append,filter_cons_of_neg (by simp)]
    exact (filter_sublist.append filter_sublist).subperm

theorem anchoredSelection_ok (hanchor : anchor.InRange) (hcoins : ∀ u∈coins, u.InRange)
    (hneed : need.toInt≤2*10^18) : sum = inputsTotal picked ∧ need ≤ sum := by
  refine ⟨o.sum_anchoredSelection h,?_⟩
  rcases o.anchoredSelection_cases h with ⟨hle,-,rfl⟩ | ⟨hlt,hge,-,rfl⟩
  · exact hle
  · obtain ⟨hlo,hhi⟩ := hanchor
    rw [lt_iff_toInt_lt] at hlt
    have hsub : (need-anchor.value).toInt = need.toInt-anchor.value.toInt := toInt_sub_of_le hlo hlt.le
    have hrange : ∀ u∈o.sort (coins.filter fun u => u.outPoint ≠ anchor.outPoint), u.InRange :=
      fun u hu => hcoins u (o.mem_of_mem_sort hu)
    have hle := (takeCoins_exact hrange (show (need-anchor.value).toInt ≤ 2*10^18 by omega) le_rfl
      (show (0 : Int64).toInt ≤ (need-anchor.value).toInt+10^18 by rw [toInt_zero]; omega)).2
    rw [le_iff_toInt_le] at hge ⊢
    rw [toInt_add_of_bounds (by omega) (by omega)]
    omega

end

/-- What the `k` largest coins are worth. -/
def largest (coins : List Utxo) (k : ℕ) : ℤ := exact (((o.sort coins).take k).map (·.value))

/-- No coins are worth more than as many of the largest. -/
theorem exact_le_largest (hpicked : picked.Subperm coins) :
    exact (picked.map (·.value)) ≤ o.largest coins picked.length := by
  have hsub (l sorted : List Utxo) (hsub : l <+ sorted) (hsorted : sorted.Pairwise fun u v => v.value ≤ u.value) :
      exact (l.map (·.value)) ≤ exact ((sorted.take l.length).map (·.value)) := by
    induction l generalizing sorted with
    | nil => exact le_rfl
    | cons u l ih =>
      cases sorted with
      | nil => cases hsub
      | cons v sorted =>
        obtain ⟨hhead,htail⟩ := pairwise_cons.mp hsorted
        have hle : u.value.toInt ≤ v.value.toInt := by
          rcases mem_cons.mp (hsub.subset (mem_cons_self ..)) with rfl | hu
          · exact le_rfl
          · exact le_iff_toInt_le.mp (hhead u hu)
        rw [length_cons,take_succ_cons,map_cons,map_cons,exact_cons,exact_cons]
        exact Int.add_le_add hle (ih sorted hsub.tail htail)
  obtain ⟨l,hperm,hl⟩ := hpicked.trans (o.perm coins).symm.subperm
  rw [← exact_perm (hperm.map _),← hperm.length_eq]
  exact hsub l _ hl (o.sorted coins)

/-- Where any coins beside the anchor cover the amount, the selection covers it with no more of them. -/
theorem anchoredSelection_fewest {others : List Utxo} (hanchor : anchor.InRange) (hmem : anchor∈coins)
    (hcoins : ∀ u∈coins, u.InRange) (hneed : need.toInt≤2*10^18)
    (hothers : others.Subperm (coins.filter fun u => u.outPoint ≠ anchor.outPoint))
    (hcovers : need.toInt≤anchor.value.toInt+exact (others.map (·.value))) :
    ∃ picked sum, o.anchoredSelection anchor coins need = .ok (picked,sum) ∧ need ≤ sum ∧
      sum = inputsTotal picked ∧ picked.Subperm coins ∧ picked.length ≤ others.length+1 := by
  obtain ⟨picked,sum,hok,hlen⟩ : ∃ picked sum, o.anchoredSelection anchor coins need = .ok (picked,sum) ∧
      picked.length ≤ others.length+1 := by
    unfold anchoredSelection
    split
    · exact ⟨_,_,rfl,by simp⟩
    · next hlt =>
      rw [le_iff_toInt_le,not_le] at hlt
      have hsub := toInt_sub_of_le hanchor.1 hlt.le
      have hle := o.exact_le_largest hothers
      have hlo := hanchor.1
      unfold largest at hle
      generalize hrest : o.sort (coins.filter fun u => u.outPoint ≠ anchor.outPoint) = rest at hle
      have hrange : ∀ u∈rest, u.InRange := fun u hu => hcoins u (o.mem_of_mem_sort (hrest ▸ hu))
      obtain ⟨hlen,hge⟩ := takeCoins_enough hrange (show (need-anchor.value).toInt ≤ 2*10^18 by omega)
        (by decide : 0≤(0 : Int64).toInt) (k := others.length) (by rw [toInt_zero]; omega)
      simp only [selectUTXOs,hrest,ensure,decide_eq_true hge]
      exact ⟨_,_,rfl,Nat.succ_le_succ hlen⟩
  obtain ⟨hsum,hge⟩ := o.anchoredSelection_ok hok hanchor hcoins hneed
  exact ⟨picked,sum,hok,hge,hsum,o.anchoredSelection_subperm hok hmem,hlen⟩

/-- The anchor and some number of the largest other coins cover an amount, and are as `P` asks. -/
def CoversWith (anchor : Utxo) (coins : List Utxo) (need : Int64) (P : List Utxo → Prop) : Prop :=
  let others := coins.filter fun u => u.outPoint ≠ anchor.outPoint
  ∃ k, need.toInt ≤ anchor.value.toInt+o.largest others k ∧ P (anchor::(o.sort others).take k)

/-- The selection is the shortest such list. -/
theorem coversWith_iff {P : List Utxo → Prop} (hanchor : anchor.InRange) (hcoins : ∀ u∈coins, u.InRange)
    (hneed : need.toInt≤2*10^18) (h : o.anchoredSelection anchor coins need = .ok (picked,sum))
    (hP : ∀ l l' : List Utxo, anchor::l <+: l' → P l' → P (anchor::l)) :
    P picked ↔ o.CoversWith anchor coins need P := by
  simp only [CoversWith,largest]
  rcases o.anchoredSelection_cases h with ⟨hle,rfl,-⟩ | ⟨hlt,hge,rfl,-⟩
  · rw [le_iff_toInt_le] at hle
    refine ⟨fun hp => ⟨0,by simpa using hle, hp⟩, fun ⟨k,_,hp⟩ => ?_⟩
    exact hP _ _ ((prefix_cons_inj anchor).mpr nil_prefix) hp
  · obtain ⟨hlo,hhi⟩ := hanchor
    rw [lt_iff_toInt_lt] at hlt
    have hsub : (need-anchor.value).toInt = need.toInt-anchor.value.toInt := toInt_sub_of_le hlo hlt.le
    generalize hrest : o.sort (coins.filter fun u => u.outPoint ≠ anchor.outPoint) = rest at hge ⊢
    have hrange : ∀ u∈rest, u.InRange := fun u hu => hcoins u (o.mem_of_mem_sort (hrest ▸ hu))
    have htake := prefix_iff_eq_take.mp (takeCoins_initial (need-anchor.value) 0 rest)
    constructor
    · intro hp
      obtain ⟨hexact,-⟩ := takeCoins_exact hrange (show (need-anchor.value).toInt ≤ 2*10^18 by omega) le_rfl
        (show (0 : Int64).toInt ≤ (need-anchor.value).toInt+10^18 by rw [toInt_zero]; omega)
      rw [le_iff_toInt_le,hexact,toInt_zero] at hge
      exact ⟨_,by rw [← htake]; omega, htake ▸ hp⟩
    · rintro ⟨k,hk,hp⟩
      obtain ⟨hlen,-⟩ := takeCoins_enough hrange (show (need-anchor.value).toInt ≤ 2*10^18 by omega)
        (by decide : 0≤(0 : Int64).toInt) (k := k) (by rw [toInt_zero]; omega)
      refine hP _ _ ((prefix_cons_inj anchor).mpr ?_) hp
      rw [htake]
      exact take_prefix_take_left hlen

/-- A coin of one DOGE. -/
def oneDoge : Utxo := ⟨⟨1,0⟩,100000000,Destination.pkScript ⟨.p2pkh,1⟩,1⟩

theorem oneDoge_fewest : let other := { oneDoge with outPoint := ⟨2,0⟩ }
    ∃ picked sum, stable.anchoredSelection oneDoge [oneDoge,other] 150000000 = .ok (picked,sum) ∧
      150000000 ≤ sum ∧ sum = inputsTotal picked ∧ picked.Subperm [oneDoge,other] ∧ picked.length ≤ 2 :=
  stable.anchoredSelection_fewest (by decide) (by decide) (by decide) (by decide) (.refl _) (by decide)

/-- Without a coin that is no smaller than the last, the sum is too small, also where it has wrapped before. -/
theorem sub_lt_of_last {first need before last value : Int64} (hfirst : 0≤first.toInt) (hlt : first<need)
    (hbefore : before<need-first) (hlast : 0≤last.toInt) (hvalue : last≤value)
    (hcovers : need≤first+(before+last)) : first+(before+last)-value < need := by
  rw [le_iff_toInt_le] at hvalue hcovers
  rw [lt_iff_toInt_lt] at hlt hbefore ⊢
  rw [toInt_sub_of_le hfirst hlt.le] at hbefore
  have hneed := need.toInt_lt
  have hlo := before.le_toInt
  have hhi := value.toInt_lt
  have hsum := (first+(before+last)).toInt_lt
  have hrest : first+(before+last)-last = first+before := by abel
  have hexact : (first+before).toInt = first.toInt+before.toInt := toInt_add_of_bounds (by omega) (by omega)
  rw [← hrest,toInt_sub_of_bounds (by omega) (by omega)] at hexact
  rw [toInt_sub_of_bounds (by omega) (by omega)]
  omega

/-- Every coin after the anchor is needed: the last one taken is, and the others are no smaller. -/
theorem unneeded_anchoredSelection (hanchor : 0≤anchor.value.toInt) (hcoins : ∀ u∈coins, 0 ≤ u.value.toInt)
    (h : o.anchoredSelection anchor coins need = .ok (picked,sum)) (hcovers : need ≤ inputsTotal picked) :
    unneededInput picked need = none := by
  have hsum := o.sum_anchoredSelection h
  rcases o.anchoredSelection_cases h with ⟨-,rfl,-⟩ | ⟨hlt,hge,rfl,rfl⟩
  · rfl
  · rw [unneededInput,List.find?_eq_none]
    intro u hu
    rw [tail_cons] at hu
    obtain ⟨before,last,hlast,htotal,hbefore,hleast⟩ := takeCoins_last (o.sorted _) (ne_nil_of_mem hu)
    rw [← hsum,htotal] at hcovers
    have hless := sub_lt_of_last hanchor hlt hbefore (hcoins last (o.mem_of_mem_sort hlast)) (hleast u hu) hcovers
    rw [← hsum,htotal,decide_eq_true_eq]
    exact Int64.not_le.mpr hless

end CoinSort

end DogePeg
