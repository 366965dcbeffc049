import DogePeg.Signer.Relay

/-!
# Payments from a key

What the command line and the faucet send: a payment that spends the coins of one key
(`cmd/dogevm/wallet.go`). Its fee is set before its coins are chosen, for a number of inputs, and
the loop raises that number until the choice needs no more.
-/

namespace DogePeg

open Amounts Checks List

def walletFeePerByte : Int64 := 1000

/-- `koinuPerDoge / 100`. -/
def softDust : Int64 := 1000000

def estimateSize (inputs outputs opReturnBytes : ℕ) : Int64 :=
  Int64.ofNat (10+149*inputs+34*outputs+if 0 < opReturnBytes then 11+opReturnBytes else 0)

/-- What `payFromKey` is asked to pay, and the script of the key that pays it. -/
structure KeyPayment where
  fromScript : Script
  script : Script
  amount : Int64
  extra : Option TxOut

namespace KeyPayment

variable (p : KeyPayment)

def opReturnBytes : ℕ := p.extra.elim 0 (·.pkScript.length)

/-- The fee for `n` inputs. -/
def fee (n : ℕ) : Int64 := estimateSize n 2 p.opReturnBytes*walletFeePerByte

def need (n : ℕ) : Int64 := p.amount+p.fee n

/-- The loop of `payFromKey` from the count `n` on: `none` while it has not ended. -/
def growInputs (o : CoinSort) (coins : List Utxo) : ℕ → ℕ → Option (Except BuildError (List Utxo × Int64 × Int64))
  | 0, _ => none
  | fuel+1, n =>
    match o.selectUTXOs coins (p.need n) with
    | .error e => some (.error e)
    | .ok (inputs,sum) =>
      if inputs.length ≤ n then some (.ok (inputs,sum,p.fee n)) else growInputs o coins fuel (n+1)

def change (sum fee : Int64) : Option TxOut :=
  if softDust ≤ sum-p.amount-fee then some ⟨sum-p.amount-fee,p.fromScript⟩ else none

def build (inputs : List Utxo) (sum fee : Int64) : MsgTx where
  version := 1
  txIn := inputs.map fun u => ⟨u.outPoint,[],[],maxTxInSequenceNum⟩
  txOut := ⟨p.amount,p.script⟩::(p.extra.toList++(p.change sum fee).toList)
  lockTime := 0
  outputs_le := by
    have hextra : p.extra.toList.length ≤ 1 := by cases p.extra <;> simp
    have hchange : (p.change sum fee).toList.length ≤ 1 := by cases p.change sum fee <;> simp
    simp only [length_cons,length_append,maxTxOutPerMessage]
    omega

/-- The transaction `payFromKey` sends for what its loop chose. The script `sign` makes of an input does
not depend on those of the others. -/
def sent (sign : MsgTx → ℕ → Script) (chosen : List Utxo × Int64 × Int64) : MsgTx :=
  let tx := p.build chosen.1 chosen.2.1 chosen.2.2
  tx.withScripts ((range tx.txIn.length).map (sign tx))

def payFromKey (o : CoinSort) (sign : MsgTx → ℕ → Script) (coins : List Utxo) (fuel : ℕ) :
    Option (Except BuildError MsgTx) := do
  let chosen ← p.growInputs o coins fuel 1
  return chosen.map (p.sent sign)

/-- What a payment should come to: no coins were enough for themselves, or what is sent spends coins
worth its outputs and a fee that relays. -/
def Meets (coins : List Utxo) : Except BuildError MsgTx → Prop
  | .error _ => ∀ picked : List Utxo, picked.Subperm coins →
      exact (picked.map (·.value)) < p.amount.toInt+(p.fee picked.length).toInt
  | .ok tx => ∃ inputs : List Utxo, inputs.Subperm coins ∧ tx.spends = inputs.map (·.outPoint) ∧
      ∃ fee : Int64, exact (inputs.map (·.value)) = exact (tx.txOut.map (·.value))+fee.toInt ∧
        relayFeeMet 100000 defaultDustLimit tx fee = true

/-- A payment to an address of an amount the command line can name, with short data or none. -/
structure Payable : Prop where
  amount_le : p.amount.toInt ≤ 10^18+10^8
  /-- `dogecoinHardDust`. -/
  least : 100000 ≤ p.amount.toInt
  script : p.script.length ≤ 25 ∧ isUnspendable p.script = false
  fromScript : p.fromScript.length ≤ 25
  extra : ∀ out∈p.extra, ∃ data : List UInt8, data.length ≤ 75 ∧ out = nullData data

/-- The least number of coins that pay for themselves, the largest first. -/
structure Pays (o : CoinSort) (coins : List Utxo) (n : ℕ) : Prop where
  count : 1 ≤ n ∧ n ≤ coins.length
  enough : (p.need n).toInt ≤ o.largest coins n
  short : ∀ k, 1 ≤ k → k < n → o.largest coins k < (p.need k).toInt

/-- The size of what is sent for `n` coins, each signature at its largest. -/
def signedSize (n : ℕ) (change : Option TxOut) : ℕ :=
  9+varIntLen n+149*n+((⟨p.amount,p.script⟩::(p.extra.toList++change.toList)).map TxOut.serializeSize).sum

/-- The fee for `n` coins, with change too small to keep, covers the price of an output below `softDust`. -/
def PaysForDust (n : ℕ) (worth : ℤ) : Prop :=
  let rest := worth-(p.need n).toInt
  if 1000000 ≤ rest then 100*p.signedSize n (some ⟨0,p.fromScript⟩)+1000000 ≤ (p.fee n).toInt
  else 100*p.signedSize n none+1000000 ≤ (p.fee n).toInt+rest

variable {p}

/-! ## The fee -/

theorem length_nullData_le {data : List UInt8} (h : data.length≤75) : (nullData data).pkScript.length ≤ 77 := by
  have hlen := length_addData_le (show data.length < 0x4c by omega)
  simp only [nullData,nullDataScript,length_cons]
  omega

section

variable {o : CoinSort} {coins picked inputs : List Utxo} {sign : MsgTx → ℕ → Script} {n : ℕ} (h : p.Payable)

include h

theorem Payable.opReturnBytes_le : p.opReturnBytes ≤ 77 := by
  rw [opReturnBytes]
  cases hextra : p.extra with
  | none => exact Nat.zero_le _
  | some out =>
    obtain ⟨data,hdata,rfl⟩ := h.extra out hextra
    exact length_nullData_le hdata

theorem Payable.toInt_fee (hn : n≤10^9+1) :
    (p.fee n).toInt = (p.fee 0).toInt+149000*n ∧ 78000 ≤ (p.fee 0).toInt ∧ (p.fee 0).toInt ≤ 166000 := by
  have hscaled (m : ℕ) (hm : m≤10^12) : (Int64.ofNat m*walletFeePerByte).toInt = 1000*m := by
    rw [Int64.toInt_mul,Int64.toInt_ofNat_of_lt (by omega),show walletFeePerByte.toInt = 1000 from rfl,
      Int.bmod_eq_of_le (by omega) (by omega),Int.mul_comm]
  have hbytes : (if 0 < p.opReturnBytes then 11+p.opReturnBytes else 0) ≤ 88 := by
    have := h.opReturnBytes_le
    split <;> omega
  simp only [fee,estimateSize]
  rw [hscaled _ (by omega),hscaled _ (by omega)]
  omega

theorem Payable.toInt_need (hn : n≤10^9+1) :
    (p.need n).toInt = p.amount.toInt+(p.fee n).toInt ∧ (p.need n).toInt ≤ 2*10^18 := by
  have hamount := h.amount_le
  have hleast := h.least
  obtain ⟨hfee,hlo,hhi⟩ := h.toInt_fee hn
  have hneed : (p.need n).toInt = p.amount.toInt+(p.fee n).toInt := toInt_add_of_bounds (by omega) (by omega)
  omega

/-! ## The loop -/

theorem selectUTXOs_cases (hcoins : ∀ u∈coins, u.InRange) (hn : n≤10^9+1) :
    let taken := takeCoins (p.need n) 0 (o.sort coins)
    (∃ e, o.selectUTXOs coins (p.need n) = .error e ∧ ∀ k, o.largest coins k < (p.need n).toInt) ∨
      o.selectUTXOs coins (p.need n) = .ok taken ∧ p.need n ≤ taken.2 ∧
        (n < taken.1.length → o.largest coins n < (p.need n).toInt) := by
  intro taken
  have hrange : ∀ u∈o.sort coins, u.InRange := fun u hu => hcoins u ((o.perm coins).mem_iff.mp hu)
  have henough (k : ℕ) (hk : (p.need n).toInt≤o.largest coins k) : taken.1.length ≤ k ∧ p.need n ≤ taken.2 := by
    refine takeCoins_enough hrange (h.toInt_need hn).2 le_rfl ?_
    rwa [Int64.toInt_zero,Int.zero_add]
  rw [CoinSort.selectUTXOs]
  by_cases hle : p.need n ≤ taken.2
  · refine .inr ⟨by simp only [hle,taken,ensure,decide_true,if_true]; rfl, hle, fun hlt => ?_⟩
    exact Int.not_le.mp fun hk => absurd (henough n hk).1 (Nat.not_le.mpr hlt)
  · refine .inl ⟨_,by simp only [hle,taken,ensure,decide_false]; rfl, fun k => ?_⟩
    exact Int.not_le.mp fun hk => hle (henough k hk).2

theorem meets_error (hlen : coins.length≤10^9) (hn : n ≤ coins.length+1)
    (hpassed : ∀ k, 1 ≤ k → k < n → o.largest coins k < (p.need k).toInt)
    (hshort : ∀ k, o.largest coins k < (p.need n).toInt) (e : BuildError) : p.Meets coins (.error e) := by
  intro picked hpicked
  have hcount : picked.length ≤ 10^9+1 := by
    have := hpicked.length_le
    omega
  refine (o.exact_le_largest hpicked).trans_lt ?_
  obtain ⟨hneed,-⟩ := h.toInt_need hcount
  obtain ⟨hfee,hlo,-⟩ := h.toInt_fee hcount
  have hleast := h.least
  rcases Nat.lt_or_ge picked.length n with hlt | hge
  · rcases Nat.eq_zero_or_pos picked.length with hzero | hpos
    · rw [hzero,CoinSort.largest,take_zero,map_nil,exact_nil]
      omega
    · exact hneed ▸ hpassed _ hpos hlt
  · have := hshort picked.length
    have hfeen := (h.toInt_fee (show n ≤ 10^9+1 by omega)).1
    have hneedn := (h.toInt_need (show n ≤ 10^9+1 by omega)).1
    omega

/-- Where no coins are enough for themselves, no number of the largest is. -/
theorem not_pays_of_error (hlen : coins.length≤10^9) {e : BuildError} (herror : p.Meets coins (.error e)) :
    ¬ p.Pays o coins n := by
  rintro ⟨hcount,henough,-⟩
  have htake : ((o.sort coins).take n).length = n := by
    rw [length_take,(o.perm coins).length_eq,Nat.min_eq_left hcount.2]
  have hshort := herror ((o.sort coins).take n) (( take_sublist ..).subperm.trans (o.perm coins).subperm)
  rw [htake,← (h.toInt_need (by omega)).1] at hshort
  exact absurd henough (Int.not_le.mpr hshort)

/-- The counts before are too few, and the coins chosen for this one are no more: they are as many. -/
theorem pays_of_taken (hcoins : ∀ u∈coins, u.InRange) (hpos : 1≤n) (hn : n≤10^9+1)
    (hpassed : ∀ k, 1 ≤ k → k < n → o.largest coins k < (p.need k).toInt) {sum : Int64}
    (htaken : takeCoins (p.need n) 0 (o.sort coins)=(inputs,sum)) (hle : p.need n ≤ sum) (hcount : inputs.length≤n) :
    p.Pays o coins n ∧ inputs = (o.sort coins).take n ∧ sum.toInt = o.largest coins n := by
  have hrange : ∀ u∈o.sort coins, u.InRange := fun u hu => hcoins u ((o.perm coins).mem_iff.mp hu)
  obtain ⟨hneed,hmax⟩ := h.toInt_need hn
  obtain ⟨hfee,hlo,-⟩ := h.toInt_fee hn
  have hleast := h.least
  have hprefix := takeCoins_initial (p.need n) 0 (o.sort coins)
  have hexact := (takeCoins_exact hrange hmax le_rfl (by rw [Int64.toInt_zero]; omega)).1
  rw [htaken] at hprefix hexact
  rw [Int64.toInt_zero,Int.zero_add] at hexact
  rw [Int64.le_iff_toInt_le] at hle
  have htake := prefix_iff_eq_take.mp hprefix
  have hworth : sum.toInt = o.largest coins inputs.length := by rw [hexact,htake,CoinSort.largest]
  have hlen : inputs.length = n := by
    refine (hcount.eq_or_lt).resolve_right fun hlt => ?_
    rcases Nat.eq_zero_or_pos inputs.length with hzero | hone
    · rw [hworth,hzero,CoinSort.largest,take_zero,map_nil,exact_nil] at hle
      omega
    · have := hpassed _ hone hlt
      have := (h.toInt_need (show inputs.length ≤ 10^9+1 by omega)).1
      have := (h.toInt_fee (show inputs.length ≤ 10^9+1 by omega)).1
      omega
  have hall := hprefix.length_le
  rw [(o.perm coins).length_eq] at hall
  rw [hlen] at htake hworth hall
  exact ⟨⟨⟨hpos,hall⟩,hworth ▸ hle,hpassed⟩,htake,hworth⟩

/-! ## What is sent -/

theorem size_build_le (inputs : List Utxo) (sum fee : Int64) : (p.build inputs sum fee).txOut.length ≤ 3 ∧
      ((p.build inputs sum fee).txOut.map TxOut.serializeSize).sum ≤ 154 := by
  have hpays : TxOut.serializeSize ⟨p.amount,p.script⟩ ≤ 34 := TxOut.serializeSize_le (n := 25) h.script.1 (by omega)
  have hchange : (p.change sum fee).toList.length ≤ 1 ∧
      ((p.change sum fee).toList.map TxOut.serializeSize).sum ≤ 34 := by
    rw [change]
    split
    · exact ⟨le_rfl,TxOut.serializeSize_le (n := 25) h.fromScript (by omega)⟩
    · exact ⟨Nat.zero_le _,Nat.zero_le _⟩
  have hextra : p.extra.toList.length ≤ 1 ∧ (p.extra.toList.map TxOut.serializeSize).sum ≤ 86 := by
    cases hextra : p.extra with
    | none => exact ⟨Nat.zero_le _,Nat.zero_le _⟩
    | some out =>
      obtain ⟨data,hdata,rfl⟩ := h.extra out hextra
      exact ⟨le_rfl,TxOut.serializeSize_le (n := 77) (length_nullData_le hdata) (by omega)⟩
  simp only [build,length_cons,length_append,map_cons,map_append,sum_cons,sum_append]
  omega

theorem countP_isDust_build (inputs : List Utxo) (sum fee : Int64) :
    (p.build inputs sum fee).txOut.countP (isDust · defaultDustLimit) = if p.amount < softDust then 1 else 0 := by
  have hextra : p.extra.toList.countP (isDust · defaultDustLimit) = 0 := by
    refine countP_eq_zero.mpr fun out hout => ?_
    obtain ⟨data,-,rfl⟩ := h.extra out (Option.mem_toList.mp hout)
    simp [not_isDust_nullData]
  have hsame : defaultDustLimit = softDust := by decide
  have hchange : (p.change sum fee).toList.countP (isDust · defaultDustLimit) = 0 := by
    refine countP_eq_zero.mpr fun out hout => ?_
    rw [change] at hout
    split at hout
    · next hle =>
      have hkept : isDust ⟨sum-p.amount-fee,p.fromScript⟩ softDust = false := not_isDust_of_le hle
      rw [mem_singleton.mp hout,hsame,hkept]
      decide
    · cases hout
  have hpays : isDust ⟨p.amount,p.script⟩ defaultDustLimit = decide (p.amount < softDust) := by
    rw [isDust,h.script.2,hsame,Bool.not_false,Bool.true_and]
  simp only [build,countP_cons,countP_append,hextra,hchange,hpays,decide_eq_true_eq,Nat.zero_add]

/-- The fee that is paid: the one asked for, and change too small to keep. -/
theorem exact_build (inputs : List Utxo) {sum : Int64} (hn : n≤10^9+1) (hneed : (p.need n).toInt ≤ sum.toInt) :
    ∃ paid : Int64, sum.toInt = exact ((p.build inputs sum (p.fee n)).txOut.map (·.value))+paid.toInt ∧
      (p.fee n).toInt ≤ paid.toInt ∧ paid.toInt < (p.fee n).toInt+10^6 ∧ (p.PaysForDust n sum.toInt ↔
        100*p.signedSize n (p.change sum (p.fee n))+1000000 ≤ paid.toInt) := by
  obtain ⟨hsplit,-⟩ := h.toInt_need hn
  obtain ⟨hfee,hlo,-⟩ := h.toInt_fee hn
  have hleast := h.least
  have hextra : exact (p.extra.toList.map (·.value)) = 0 := by
    cases hextra : p.extra with
    | none => rfl
    | some out =>
      obtain ⟨data,-,rfl⟩ := h.extra out hextra
      rfl
  have hrest : (sum-p.amount).toInt = sum.toInt-p.amount.toInt := toInt_sub_of_le (by omega) (by omega)
  have hchange : (sum-p.amount-p.fee n).toInt = sum.toInt-p.amount.toInt-(p.fee n).toInt := by
    rw [toInt_sub_of_le (by omega) (by omega),hrest]
  simp only [build,map_cons,map_append,exact_cons,exact_append,hextra,change,PaysForDust]
  split
  · next hle =>
    rw [Int64.le_iff_toInt_le,hchange,show softDust.toInt = 1000000 from rfl] at hle
    refine ⟨p.fee n,?_,le_rfl,by omega, ?_⟩
    · simp only [Option.toList_some,map_cons,map_nil,exact_cons,exact_nil,hchange]
      omega
    · rw [if_pos (by omega)]
      simp only [signedSize,map_cons,map_append,Option.toList_some,map_nil,TxOut.serializeSize]
  · next hlt =>
    rw [Int64.le_iff_toInt_le,hchange,show softDust.toInt = 1000000 from rfl] at hlt
    refine ⟨sum-p.amount,?_,by omega, by omega, ?_⟩
    · simp only [Option.toList_none,map_nil,exact_nil,hrest]
      omega
    · rw [if_neg (by omega),hrest,hsplit]
      omega

theorem size_sent (hlen : inputs.length=n) (sum fee : Int64) : ((∀ tx i, (sign tx i).length ≤ 108) →
      (p.sent sign (inputs,sum,fee)).serializeSize ≤ p.signedSize n (p.change sum fee)) ∧
    ((∀ tx i, (sign tx i).length = 108) →
      (p.sent sign (inputs,sum,fee)).serializeSize = p.signedSize n (p.change sum fee)) := by
  have hinputs : (p.build inputs sum fee).txIn.length = n := (length_map _).trans hlen
  have houts : varIntLen (p.build inputs sum fee).txOut.length = 1 :=
    varIntLen_of_lt ((size_build_le h inputs sum fee).1.trans_lt (by decide))
  have hlen : ((range (p.build inputs sum fee).txIn.length).map (sign (p.build inputs sum fee))).length =
      (p.build inputs sum fee).txIn.length := by rw [length_map,length_range]
  have hsize := serializeSize_withScripts hlen
  change (p.sent sign (inputs,sum,fee)).serializeSize = _ at hsize
  rw [hinputs,houts,map_map] at hsize
  refine ⟨fun hsign => ?_, fun hsign => ?_⟩
  · have hle := sum_le_card_nsmul ((range n).map ((fun script : Script => 40+varIntLen script.length+script.length) ∘
      sign (p.build inputs sum fee))) 149 fun size hmem => by
        obtain ⟨i,-,rfl⟩ := mem_map.mp hmem
        have := hsign (p.build inputs sum fee) i
        rw [Function.comp_apply,varIntLen_of_lt (by omega)]
        omega
    rw [length_map,length_range] at hle
    change _ ≤ n*149 at hle
    rw [hsize,signedSize]
    change _+((p.build inputs sum fee).txOut.map TxOut.serializeSize).sum ≤ _+((p.build inputs sum fee).txOut.map _).sum
    omega
  · have heq : (range n).map ((fun script : Script => 40+varIntLen script.length+script.length) ∘
        sign (p.build inputs sum fee)) = List.replicate n 149 := by
      refine eq_replicate_iff.mpr ⟨by simp, fun size hmem => ?_⟩
      obtain ⟨i,-,rfl⟩ := mem_map.mp hmem
      rw [Function.comp_apply,hsign,varIntLen_of_lt (by decide)]
    rw [hsize,heq,sum_replicate,signedSize]
    change _+n*149+((p.build inputs sum fee).txOut.map TxOut.serializeSize).sum =
      _+((p.build inputs sum fee).txOut.map _).sum
    omega

omit h in
theorem relayFeeMet_default {tx : MsgTx} {fee : Int64} (hlo : 10≤tx.serializeSize) (hhi : tx.serializeSize≤10^13)
    (hfee : fee.toInt<10^18) : relayFeeMet 100000 defaultDustLimit tx fee = true ↔
      100*tx.serializeSize+1000000*(tx.txOut.countP (isDust · defaultDustLimit) : ℤ) ≤ fee.toInt := by
  have hof : (Int64.ofNat tx.serializeSize).toInt = tx.serializeSize := Int64.toInt_ofNat_of_lt (by omega)
  have hmin : (minRelayFee (.ofNat tx.serializeSize) 100000 defaultDustLimit tx.txOut).toInt = _ :=
    toInt_minRelayFee (by omega) (by decide) (by decide) tx.txOut
  rw [hof,show (100000 : Int64).toInt = 100000 from rfl,show defaultDustLimit.toInt = 1000000 from rfl,relayBase,
    if_neg (by omega),if_neg (by omega)] at hmin
  rw [relayFeeMet,decide_eq_true_eq,Int64.le_iff_toInt_le,hmin]
  omega

/-- What is sent for the coins that pay for themselves. -/
theorem sent_cases (hlen : coins.length≤10^9) (hpays : p.Pays o coins n) {sum : Int64}
    (hsum : sum.toInt=o.largest coins n) (hsign : ∀ tx i, (sign tx i).length ≤ 108) :
    let tx := p.sent sign ((o.sort coins).take n,sum,p.fee n)
    tx.spends = ((o.sort coins).take n).map (·.outPoint) ∧
    ∃ paid : Int64, exact (((o.sort coins).take n).map (·.value)) = exact (tx.txOut.map (·.value))+paid.toInt ∧
      (softDust ≤ p.amount ∨ p.PaysForDust n (o.largest coins n) → relayFeeMet 100000 defaultDustLimit tx paid = true) ∧
      ((∀ tx i, (sign tx i).length = 108) → relayFeeMet 100000 defaultDustLimit tx paid = true →
        softDust ≤ p.amount ∨ p.PaysForDust n (o.largest coins n)) := by
  intro tx
  obtain ⟨hcount,henough,-⟩ := hpays
  have hn : n ≤ 10^9+1 := by omega
  obtain ⟨hfee,hlo,hhi⟩ := h.toInt_fee hn
  have htake : ((o.sort coins).take n).length = n := by
    rw [length_take,(o.perm coins).length_eq,Nat.min_eq_left hcount.2]
  obtain ⟨paid,hpaid,hge,hlt,hdust⟩ := exact_build h ((o.sort coins).take n) hn (hsum ▸ henough)
  obtain ⟨hle,heq⟩ := size_sent h htake sum (p.fee n)
  have hsize : tx.serializeSize ≤ _ := hle hsign
  have houts := (size_build_le h ((o.sort coins).take n) sum (p.fee n)).2
  have hvar : varIntLen n ≤ 5 := by
    rw [varIntLen]
    split_ifs <;> omega
  have hbound : p.signedSize n (p.change sum (p.fee n)) ≤ 168+149*n := by
    rw [signedSize]
    change _+((p.build ((o.sort coins).take n) sum (p.fee n)).txOut.map TxOut.serializeSize).sum ≤ _
    omega
  have hcountP : tx.txOut.countP (isDust · defaultDustLimit) = _ :=
    countP_isDust_build h ((o.sort coins).take n) sum (p.fee n)
  have hten : 10 ≤ tx.serializeSize := by
    have hvars : ∀ m, 1 ≤ varIntLen m := fun m => by rw [varIntLen]; split_ifs <;> omega
    have := hvars tx.txIn.length
    have := hvars tx.txOut.length
    rw [MsgTx.serializeSize]
    omega
  have hrelay := relayFeeMet_default hten (by omega) (show paid.toInt < 10^18 by omega)
  rw [hsum] at hdust
  refine ⟨?_,paid,(show _ = sum.toInt from hsum.symm).trans hpaid,fun hcond => hrelay.mpr ?_, fun hlong hmet => ?_⟩
  · simp only [tx,sent]
    rw [MsgTx.spends_eq_of_unsigned_eq (MsgTx.unsigned_withScripts (by rw [length_map,length_range]))]
    exact map_map
  · rw [hcountP]
    rcases hcond with hcent | hcond
    · rw [if_neg (Int64.not_lt.mpr hcent)]
      omega
    · have := hdust.mp hcond
      split <;> omega
  · rw [or_iff_not_imp_left]
    intro hsmall
    rw [hrelay,hcountP,if_pos (Int64.not_le.mp hsmall)] at hmet
    have : tx.serializeSize = _ := heq hlong
    exact hdust.mpr (by omega)

/-- From a count on, if the counts before it were too few: the loop ends by the count of all the coins. -/
theorem growInputs_ends (hcoins : ∀ u∈coins, u.InRange) (hlen : coins.length≤10^9) (fuel : ℕ) (hpos : 1≤n)
    (hn : n ≤ coins.length+1) (hfuel : coins.length+1<n+fuel)
    (hpassed : ∀ k, 1 ≤ k → k < n → o.largest coins k < (p.need k).toInt) :
    (∃ e, p.growInputs o coins fuel n = some (.error e) ∧ p.Meets coins (.error e)) ∨ ∃ m sum, p.Pays o coins m ∧
      sum.toInt = o.largest coins m ∧
      p.growInputs o coins fuel n = some (.ok ((o.sort coins).take m,sum,p.fee m)) := by
  induction fuel generalizing n with
  | zero => omega
  | succ fuel ih =>
    have hrange : n ≤ 10^9+1 := by omega
    rw [growInputs]
    rcases selectUTXOs_cases (o := o) h hcoins hrange with ⟨e,he,hshort⟩ | ⟨hok,hle,hshort⟩
    · rw [he]
      exact .inl ⟨e,rfl,meets_error h hlen hn hpassed hshort e⟩
    rw [hok]
    by_cases hstop : (takeCoins (p.need n) 0 (o.sort coins)).1.length ≤ n
    · obtain ⟨hpays,htake,hsum⟩ := pays_of_taken h hcoins hpos hrange hpassed rfl hle hstop
      refine .inr ⟨n,_,hpays,hsum,?_⟩
      rw [← htake]
      exact if_pos hstop
    · have hcount := (takeCoins_initial (p.need n) 0 (o.sort coins)).length_le
      rw [(o.perm coins).length_eq] at hcount
      dsimp only
      rw [if_neg hstop]
      refine ih (by omega) (by omega) (by omega) fun k hk hlt => ?_
      rcases (Nat.le_of_lt_succ hlt).eq_or_lt with rfl | hlt
      · exact hshort (Nat.not_le.mp hstop)
      · exact hpassed k hk hlt

end

/-- The loop ends, and a payment fails only for lack of coins or is worth its outputs and its fee. That
fee relays, whatever the signatures, where the amount is no dust, or the fee happens to cover that. -/
theorem key_payments_relay_iff (o : CoinSort) (coins : List Utxo) (hcoins : ∀ u∈coins, u.InRange)
    (honce : (coins.map (·.outPoint)).Nodup) (hlen : coins.length≤10^9) (p : KeyPayment) (h : p.Payable) (fuel : ℕ)
    (hfuel : coins.length<fuel) : (∀ sign : MsgTx → ℕ → Script, (∀ tx i, (sign tx i).length ≤ 108) →
      ∃ result, p.payFromKey o sign coins fuel = some result ∧ p.Meets coins result) ↔
    softDust ≤ p.amount ∨ ∀ n, p.Pays o coins n → p.PaysForDust n (o.largest coins n) := by
  have hends := growInputs_ends (o := o) (n := 1) h hcoins hlen fuel le_rfl (by omega) (by omega)
    fun k hk hlt => absurd hk (Nat.not_le.mpr hlt)
  constructor
  · intro hall
    rw [or_iff_not_imp_left]
    intro hsmall n hpays
    obtain ⟨result,hresult,hmeets⟩ := hall (fun _ _ => replicate 108 0) fun _ _ => by simp
    rcases hends with ⟨e,-,herror⟩ | ⟨m,sum,hpays',hsum,hok⟩
    · exact absurd hpays (not_pays_of_error h hlen herror)
    -- there is one least count
    obtain rfl : n = m := by
      rcases Nat.lt_trichotomy n m with hlt | heq | hlt
      · exact absurd hpays.enough (Int.not_le.mpr (hpays'.short n hpays.count.1 hlt))
      · exact heq
      · exact absurd hpays'.enough (Int.not_le.mpr (hpays.short m hpays'.count.1 hlt))
    rw [payFromKey,hok] at hresult
    cases hresult
    obtain ⟨inputs,hsub,hspends,fee,hfee,hrelay⟩ := hmeets
    obtain ⟨hspent,paid,hpaid,-,hlong⟩ := sent_cases h hlen hpays hsum
      fun _ _ => (length_replicate (n := 108) (a := (0 : UInt8))).le
    have hmap := hspends.symm.trans hspent
    have hsame : inputs = (o.sort coins).take n := by
      refine ext_getElem (by simpa using congrArg List.length hmap) fun i hi hi' => ?_
      refine inj_on_of_nodup_map honce (hsub.subset (getElem_mem hi))
        ((o.perm coins).mem_iff.mp (mem_of_mem_take (getElem_mem hi'))) ?_
      have hpoint := congrArg (fun l => l[i]?) hmap
      simp only [List.getElem?_map,List.getElem?_eq_getElem hi,List.getElem?_eq_getElem hi'] at hpoint
      exact Option.some.inj hpoint
    have hpaidFee : fee = paid := by
      rw [← Int64.toInt_inj]
      rw [hsame] at hfee
      omega
    exact (hlong (fun _ _ => length_replicate) (hpaidFee ▸ hrelay)).resolve_left hsmall
  · intro hcond sign hsign
    rcases hends with ⟨e,herror,hmeets⟩ | ⟨n,sum,hpays,hsum,hok⟩
    · exact ⟨.error e,by rw [payFromKey,herror]; rfl, hmeets⟩
    · obtain ⟨hspent,paid,hpaid,hrelay,-⟩ := sent_cases h hlen hpays hsum hsign
      refine ⟨.ok (p.sent sign ((o.sort coins).take n,sum,p.fee n)),by rw [payFromKey,hok]; rfl, ?_⟩
      exact ⟨_,( take_sublist ..).subperm.trans (o.perm coins).subperm,hspent,paid,hpaid,
        hrelay (hcond.imp_right fun hall => hall n hpays)⟩

section Sample

def samplePayment (amount : Int64) : KeyPayment :=
  ⟨Destination.pkScript ⟨.p2pkh,1⟩,Destination.pkScript ⟨.p2pkh,2⟩,amount,none⟩

def sampleSign : MsgTx → ℕ → Script := fun _ _ => replicate 107 0

/-- The payment of 0.01 DOGE from a coin of one. -/
theorem cent_relays : ∃ result, (samplePayment 1000000).payFromKey .stable sampleSign [CoinSort.oneDoge] 2 =
      some result ∧ (samplePayment 1000000).Meets [CoinSort.oneDoge] result :=
  (key_payments_relay_iff .stable [CoinSort.oneDoge] (by decide) (by decide) (by decide) (samplePayment 1000000)
    ⟨by decide, by decide, by decide, by decide, by simp [samplePayment]⟩ 2 (by decide)).mpr
      (.inl (by decide)) sampleSign fun _ _ => by simp [sampleSign]

/-- A payment of 0.001 DOGE is sent, but its fee does not cover what an output so small costs. -/
theorem small_payment_underpays :
    ∃ tx, (samplePayment 100000).payFromKey .stable sampleSign [CoinSort.oneDoge] 2 = some (.ok tx) ∧
      feeOf [CoinSort.oneDoge] tx = 227000 ∧ tx.serializeSize ≤ 227 ∧
      relayFeeMet 100000 defaultDustLimit tx (feeOf [CoinSort.oneDoge] tx) = false :=
  ⟨_,rfl,by decide +kernel, by decide +kernel, by decide +kernel⟩

end Sample

end KeyPayment

end DogePeg
