import DogePeg.Lib.Shares
import DogePeg.Signer.Check

/-!
# Fees the quorums of a set promise

A cancellation's and a fence's fee come out of the surplus, and a signer knows only of the
ones it signed itself. `feeRoom` keeps those within its share, so that all the quorums of
the set together promise no more than there is (`cmd/dogevm/cosign.go`).
-/

namespace DogePeg

open Amounts Checks Finset

variable {b : Bridge} {surplus : Int64} {τ : Type}

/-- Whether `feeRoom` lets a signer promise `fee` when it sees `surplus`, less what it has
promised before and not seen in a block. -/
def Bridge.HasRoom (b : Bridge) (surplus : Int64) (promised : List Int64) (fee : Int64) : Prop :=
  ∃ a : Audit, a.surplus+total promised = surplus ∧ b.feeRoom a fee (total promised) = .ok ()

/-- Transactions that pay their fees from one surplus, each signed by a quorum of the set. -/
structure FeePromises (b : Bridge) (surplus : Int64) (τ : Type) where
  txs : Finset τ
  fee : τ → Int64
  fee_nonneg : ∀ x∈txs, 0 ≤ fee x
  honest : Finset (Fin b.keys)
  few : honestᶜ.card < b.required
  /-- The signers whose signatures a transaction carries. -/
  quorum : τ → Finset (Fin b.keys)
  enough : ∀ x∈txs, b.required ≤ (quorum x).card
  signed : Fin b.keys → List τ
  nodup : ∀ i∈honest, (signed i).Nodup
  mem_signed : ∀ i∈honest, ∀ x, x∈signed i ↔ x∈txs ∧ i∈quorum x
  room : ∀ i∈honest, ∀ before x after, signed i = before++x::after →
    b.HasRoom surplus (before.map fee) (fee x)

/-- The parts the surplus is shared in, before they are an `int64`. -/
def Bridge.parts (b : Bridge) : ℤ := b.keys-b.required+1

theorem Bridge.hasRoom_iff {promised : List Int64} {fee : Int64} :
    b.HasRoom surplus promised fee ↔ (fee+total promised)*b.share ≤ surplus := by
  simp only [HasRoom,feeRoom,ensure_eq_ok,decide_eq_true_eq]
  constructor
  · rintro ⟨a,hsurplus,hroom⟩
    rwa [hsurplus] at hroom
  · intro hroom
    refine ⟨⟨0,0,0,0,0,surplus-total promised,0,0,0,0,0⟩,?_,?_⟩
    · exact sub_add_cancel _ _
    · rwa [sub_add_cancel]

theorem Bridge.HasRoom.exact_le {promised : List Int64} {fee : Int64}
    (h : b.HasRoom surplus promised fee) (hsurplus : 0 ≤ surplus.toInt)
    (hnonneg : ∀ v∈fee::promised, 0 ≤ v.toInt) (hparts : 1≤b.parts) (hfits : exact (fee::promised)*b.parts<2^63) :
    exact (fee::promised)*b.parts ≤ surplus.toInt := by
  set sum := exact (fee::promised) with hsum
  have hsum_nonneg : 0 ≤ sum := exact_nonneg hnonneg
  rcases hsum_nonneg.eq_or_lt with hzero | hpos
  · rw [← hzero,zero_mul]
    exact hsurplus
  have hsum_lt : sum < 2^63 := by nlinarith
  have hparts_lt : b.parts < 2^63 := by nlinarith
  have htotal : (fee+total promised).toInt = sum := by
    have hcons : fee+total promised = total (fee::promised) := by
      rw [total_eq_sum,total_eq_sum,List.sum_cons]
    rw [hcons]
    exact toInt_total hnonneg hsum_lt
  have hshare : b.share.toInt = b.parts := by
    rw [share,max_eq_left (show (1 : ℤ) ≤ b.keys-b.required+1 from hparts)]
    exact toInt_ofInt_of_nonneg (zero_le_one.trans hparts) hparts_lt
  have hmul : ((fee+total promised)*b.share).toInt = sum*b.parts := by
    rw [Int64.toInt_mul,htotal,hshare]
    apply Int.bmod_eq_of_le
    · have := mul_nonneg hsum_nonneg (by omega : 0≤b.parts)
      omega
    · omega
  have hle := Int64.le_iff_toInt_le.mp (hasRoom_iff.mp h)
  rwa [hmul] at hle

namespace FeePromises

variable (P : FeePromises b surplus τ)

theorem parts_pos {x : τ} (hx : x∈P.txs) : 1 ≤ b.parts := by
  have hle := (P.enough x hx).trans (card_le_univ _)
  rw [Fintype.card_fin] at hle
  rw [Bridge.parts]
  omega

theorem sum_signed {i : Fin b.keys} (hi : i∈P.honest) [DecidableEq τ] :
    ∑ x ∈ P.txs with i ∈ P.quorum x, (P.fee x).toInt = exact ((P.signed i).map P.fee) := by
  have hset : (P.signed i).toFinset = P.txs.filter fun x => i ∈ P.quorum x := by
    ext x
    rw [List.mem_toFinset,mem_filter]
    exact P.mem_signed i hi x
  rw [← hset,List.sum_toFinset _ (P.nodup i hi),exact,List.map_map]
  rfl

/-- What an honest signer promised is within its share: its last promise was checked with
all the others unseen. -/
theorem promised_le (hsurplus : 0 ≤ surplus.toInt) {i : Fin b.keys} (hi : i∈P.honest)
    (hfits : exact ((P.signed i).map P.fee)*b.parts<2^63) :
    exact ((P.signed i).map P.fee)*b.parts ≤ surplus.toInt := by
  rcases (P.signed i).eq_nil_or_concat' with hnil | ⟨before,x,hlast⟩
  · rw [hnil]
    simpa using hsurplus
  have hmem : ∀ y∈x::before, y∈P.txs := by
    intro y hy
    refine ((P.mem_signed i hi y).mp ?_).1
    rw [hlast]
    simpa [or_comm] using hy
  have hperm : ((P.signed i).map P.fee).Perm (P.fee x::before.map P.fee) := by
    rw [hlast,List.map_append]
    exact List.perm_append_comm
  rw [exact_perm hperm] at hfits ⊢
  refine (P.room i hi before x [] hlast).exact_le hsurplus ?_ (P.parts_pos (hmem x (by simp))) hfits
  intro v hv
  obtain ⟨y,hy,rfl⟩ := List.mem_map.mp (show v ∈ (x::before).map P.fee from hv)
  exact nonneg_iff.mp (P.fee_nonneg y (hmem y hy))

/-- The fees all the quorums promise fit in the surplus, if no signer's promises and share
multiply to more than an `int64` holds. -/
theorem sum_fees_le (hsurplus : 0 ≤ surplus) (hfits : ∀ i∈P.honest, exact ((P.signed i).map P.fee)*b.parts < 2^63) :
    ∑ x ∈ P.txs, (P.fee x).toInt ≤ surplus.toInt := by
  classical
  have hnonneg := nonneg_iff.mp hsurplus
  apply Shares.sum_cost_le hnonneg (subset_univ P.honest)
  · rw [← compl_eq_univ_sdiff]
    exact P.few
  · exact fun x _ => subset_univ _
  · exact P.enough
  · exact fun x hx => nonneg_iff.mp (P.fee_nonneg x hx)
  · intro i hi
    rw [P.sum_signed hi,card_univ,Fintype.card_fin]
    exact P.promised_le hnonneg hi (hfits i hi)

end FeePromises

private theorem before_eq_nil {l before after : List τ} {x : τ} (hl : l.length≤1)
    (h : l=before++x::after) : before = [] := by
  rw [h,List.length_append,List.length_cons] at hl
  exact List.eq_nil_of_length_eq_zero (by omega)

/-- Two quorums of a set of three that share only a dishonest signer. -/
def disjointPromises : FeePromises { sampleBridge with keys := 3,required := 2 } 10 (Fin 2) where
  txs := univ
  fee _ := 4
  fee_nonneg := by decide
  honest := {0,2}
  few := by decide
  quorum x := if x = 0 then {0,1} else {1,2}
  enough := by decide
  signed i := if i = 0 then [0] else [1]
  nodup := by decide
  mem_signed := by decide
  room i _ before x after h := by
    obtain rfl : before = [] := before_eq_nil (by split <;> simp) h
    exact Bridge.hasRoom_iff.mpr (by decide)

theorem disjointPromises_sum_fees_le :
    0 ≤ (10 : Int64) ∧ ∑ x ∈ disjointPromises.txs, (disjointPromises.fee x).toInt ≤ (10 : Int64).toInt :=
  ⟨by decide, disjointPromises.sum_fees_le (by decide) (by decide)⟩

/-- One signer of two, and a fee whose double is the least `int64`. -/
def wrappingPromise : FeePromises { sampleBridge with keys := 2,required := 1 } 0 Unit where
  txs := univ
  fee _ := 0x4000000000000000
  fee_nonneg := by decide
  honest := univ
  few := by decide
  quorum _ := {0}
  enough := by decide
  signed i := if i = 0 then [()] else []
  nodup := by decide
  mem_signed := by decide
  room i _ before x after h := by
    obtain rfl : before = [] := before_eq_nil (by split <;> simp) h
    exact Bridge.hasRoom_iff.mpr (by decide)

/-- The product of the fee and the share wraps, and the signer promises what is not there. -/
theorem wrapping_promise_passes : ¬ ∑ x ∈ wrappingPromise.txs, (wrappingPromise.fee x).toInt ≤ (0 : Int64).toInt := by
  decide

end DogePeg
