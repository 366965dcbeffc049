import DogePeg.Bridge.Selection
import DogePeg.Node.Params
import DogePeg.Signer.Assemble
import DogePeg.Signer.Cutover

/-!
# Whether a payment relays

The size of the payouts, refunds and releases the coordinator builds, once they are signed, and
what a mempool asks of it (`btcd/mempool/policy.go`, `btcd/mempool/mempool.go`). Nothing bounds
the number of coins a payment spends, and its fee is fixed: whether it relays depends on how many
coins its amount is spread over.
-/

namespace DogePeg

open Amounts Bytes Checks Node List Int64 ScriptBuilder TxOut

variable {n : ℕ} {data : List UInt8} {script redeem : Script} {inputs : List Utxo}

/-! ## Sizes -/

def TxIn.serializeSize (i : TxIn) : ℕ := 40+varIntLen i.signatureScript.length+i.signatureScript.length

def TxOut.serializeSize (o : TxOut) : ℕ := 8+varIntLen o.pkScript.length+o.pkScript.length

/-- `MsgTx.SerializeSize` of a transaction without witnesses, which is also its virtual size. -/
def MsgTx.serializeSize (tx : MsgTx) : ℕ :=
  8+varIntLen tx.txIn.length+varIntLen tx.txOut.length+(tx.txIn.map TxIn.serializeSize).sum +
    (tx.txOut.map TxOut.serializeSize).sum

/-- `maxStandardTxWeight`, in bytes of a transaction without witnesses. -/
def maxStandardTxSize : ℕ := 100000

/-! ## The relay fee -/

def calcMinRequiredTxRelayFee (size minRelayTxFee : Int64) : Int64 :=
  if 0 < minRelayTxFee && Int64.maxValue / minRelayTxFee < size then maxSatoshi
  else
    let scaled := size*minRelayTxFee / 1000
    let minFee := if scaled = 0 && 0 < minRelayTxFee then minRelayTxFee else scaled
    if minFee < 0 || maxSatoshi < minFee then maxSatoshi else minFee

def isDust (out : TxOut) (dustLimit : Int64) : Bool := !isUnspendable out.pkScript && out.value < dustLimit

/-- The loop of `calcDustFee`. -/
def calcDustFee (dustLimit : Int64) : Int64 → List TxOut → Int64
  | fee, [] => fee
  | fee, out::outs =>
    if isDust out dustLimit then
      if maxSatoshi < fee+dustLimit then maxSatoshi else calcDustFee dustLimit (fee+dustLimit) outs
    else calcDustFee dustLimit fee outs

/-- The fee `validateRelayFeeMet` compares with. -/
def minRelayFee (size minRelayTxFee dustLimit : Int64) (outs : List TxOut) : Int64 :=
  let minFee := calcMinRequiredTxRelayFee size minRelayTxFee+calcDustFee dustLimit 0 outs
  if maxSatoshi < minFee then maxSatoshi else minFee

/-- Whether `validateRelayFeeMet` accepts the fee. -/
def relayFeeMet (minRelayTxFee dustLimit : Int64) (tx : MsgTx) (txFee : Int64) : Bool :=
  minRelayFee (.ofNat tx.serializeSize) minRelayTxFee dustLimit tx.txOut ≤ txFee

/-- `DefaultDustLimit`, which the node does not let its operator change. -/
def defaultDustLimit : Int64 := 1000000

def feeOf (inputs : List Utxo) (tx : MsgTx) : Int64 := inputsTotal inputs-total (tx.txOut.map (·.value))

/-! ## What the coordinator builds -/

inductive PayError where
  | fee (value fee : Int64)
  | build (e : BuildError)
  | noRedeemScript (op : OutPoint)
  deriving DecidableEq

namespace CoinSort

variable [Hashing] (o : CoinSort) (b : Bridge) (st : PegState)

/-- `payFromPeg`, up to the proposal: the unsigned transaction and its redeem scripts. -/
def payFromPeg (value : Int64) (dest : Destination) (data : List UInt8) : Except PayError (MsgTx × List Script) := do
  ensure (b.dogeFee < value) (.fee value b.dogeFee)
  let inputs ← (o.payoutInputs st (st.lockedUTXOs.filter fun u => 0 < u.confirmations) value).mapError .build
  let tx ← (b.buildPayout inputs value dest data b.dogeFee).mapError .build
  let redeems ← inputs.mapM fun u => found (b.redeemFor u.pkScript) (.noRedeemScript u.outPoint)
  return (tx,redeems)

def pay (p : PegOut) : Except PayError (MsgTx × List Script) :=
  o.payFromPeg b st p.value p.dest (encodePayment p.txid)

def payRefund (d : Deposit) (dest : Destination) : Except PayError (MsgTx × List Script) :=
  o.payFromPeg b st d.value dest (encodeRefund d.outPoint)

/-- `release`, up to the proposal. -/
def release (d : Deposit) : Except BuildError (List Utxo × MsgTx × List Script) := do
  let (inputs,_) ← o.releaseInputs st d.value
  return (inputs,b.buildRelease inputs d,inputs.map fun _ => b.redeemScript)

end CoinSort

/-! ## The size of what is signed -/

theorem varIntLen_mono {m : ℕ} (h : m≤n) : varIntLen m ≤ varIntLen n := by
  unfold varIntLen
  split_ifs <;> omega

theorem varIntLen_of_lt (h : n<0xfd) : varIntLen n = 1 := if_pos h

theorem length_addData_le (h : data.length<0x4c) : (addData data).length ≤ 1+data.length := by
  match data with
  | [] => decide
  | [b] =>
    simp only [addData]
    split_ifs <;> simp
  | a::b::rest =>
    simp only [addData]
    rw [if_pos h,length_cons,Nat.add_comm]

theorem length_foldlM_addData {raws : List (List UInt8)} (hraws : ∀ raw∈raws, raw.length ≤ 73) {start : Script}
    (h : raws.foldlM (fun script raw => ScriptBuilder.addData raw script) start = .ok script) :
    script.length ≤ start.length+74*raws.length := by
  induction raws generalizing start with
  | nil =>
    rw [foldlM_nil,pure_eq_ok] at h
    simp [h]
  | cons raw raws ih =>
    rw [foldlM_cons,bind_eq_ok] at h
    obtain ⟨next,hnext,h⟩ := h
    have hrest := ih (fun r hr => hraws r (mem_cons_of_mem _ hr)) h
    have hraw := hraws raw (mem_cons_self ..)
    have hpush : (ScriptBuilder.pushData raw).length ≤ 1+raw.length := by
      rw [ScriptBuilder.pushData,if_pos (by omega)]
      exact length_addData_le (by omega)
    rw [addData_ok hnext,length_append] at hrest
    rw [length_cons]
    omega

theorem length_pushData_eq_pushLen (h2 : 2≤data.length) (h : data.length ≤ maxScriptElementSize) :
    (pushData data).length = pushLen data.length+data.length := by
  have hmax : maxScriptElementSize = 520 := rfl
  rw [length_pushData h2 (by omega),canonicalDataSize_of_two_le h2,pushLen]
  split_ifs <;> omega

theorem length_pushData_le_pushLen (h : data.length ≤ maxScriptElementSize) :
    (pushData data).length ≤ pushLen data.length+data.length := by
  rcases Nat.lt_or_ge data.length 2 with hlt | hge
  · rw [pushData,if_pos (by omega),pushLen,if_pos (by omega)]
    exact length_addData_le (by omega)
  · exact (length_pushData_eq_pushLen hge h).le

/-- The signature script of an input, at its largest. -/
def fenceScriptSize (required : ℕ) (redeem : Script) : ℕ :=
  1+required*(1+73)+pushLen redeem.length+redeem.length

theorem length_signatureScript_le {raws : List (List UInt8)} (hraws : ∀ raw∈raws, raw.length ≤ 73)
    {required : ℕ} (hcount : raws.length ≤ required)
    (h : signatureScript raws redeem = .ok script) : script.length ≤ fenceScriptSize required redeem := by
  have hredeem := length_pushData_le_pushLen (length_le_of_signatureScript h)
  simp only [signatureScript,bind_eq_ok] at h
  obtain ⟨start,hstart,middle,hmiddle,h⟩ := h
  obtain rfl : [0] = start := Except.ok.inj hstart
  have hlen := length_foldlM_addData hraws hmiddle
  rw [addData_ok h,length_append,fenceScriptSize]
  rw [length_singleton] at hlen
  have := Nat.mul_le_mul_left 74 hcount
  omega

theorem length_p2shScript [Hashing] (redeem : Script) : (p2shScript redeem).length = 23 := by
  simp [p2shScript,Destination.pkScript]

theorem TxOut.serializeSize_le {out : TxOut} (h : out.pkScript.length≤n) (hn : n<0xfd) :
    out.serializeSize ≤ 9+n := by
  rw [serializeSize,varIntLen_of_lt (by omega)]
  omega

theorem serializeSize_withScripts {tx : MsgTx} {scripts : List Script} (hlen : scripts.length=tx.txIn.length) :
    (tx.withScripts scripts).serializeSize = 8+varIntLen tx.txIn.length+varIntLen tx.txOut.length +
      (scripts.map fun script => 40+varIntLen script.length+script.length).sum +
      (tx.txOut.map TxOut.serializeSize).sum := by
  have hinputs : (tx.withScripts scripts).txIn.map TxIn.serializeSize =
      scripts.map fun script => 40+varIntLen script.length+script.length :=
    ext_getElem (by simp [MsgTx.withScripts,hlen]) fun i _ _ => by simp [MsgTx.withScripts,TxIn.serializeSize]
  have hcount : (tx.withScripts scripts).txIn.length = tx.txIn.length := by simp [MsgTx.withScripts,hlen]
  rw [MsgTx.serializeSize,hinputs,hcount]
  rfl

/-- The size of a transaction once it is signed, each signature at its largest. -/
def signedSize (required : ℕ) (redeems : List Script) (outs : List TxOut) : ℕ :=
  8+varIntLen redeems.length+varIntLen outs.length+(redeems.map (fenceInputSize required)).sum +
    (outs.map TxOut.serializeSize).sum

theorem signedSize_mono {required : ℕ} {redeems redeems' : List Script} {outs : List TxOut} (h : redeems <+ redeems') :
    signedSize required redeems outs ≤ signedSize required redeems' outs := by
  have hcount := varIntLen_mono h.length_le
  have hsum := (h.map (fenceInputSize required)).sum_le_sum fun _ _ => Nat.zero_le _
  unfold signedSize
  omega

section

variable [Signing] {s : SignerSet} {tx signed : MsgTx} {redeems : List Script} {sigs : ℕ → Option (List (List UInt8))}

theorem length_inputScript_le (hsigs : ∀ i l, sigs i = some l → ∀ raw∈l, raw.length ≤ 73) {p : Script × ℕ}
    (h : s.inputScript sigs p = .ok script) :
    p.1.length ≤ 520 ∧ script.length ≤ fenceScriptSize s.required.toNat p.1 := by
  simp only [SignerSet.inputScript,checks_ok] at h
  obtain ⟨raws,hraws,h⟩ := h
  have hcount : raws.length ≤ s.required.toNat := by
    rw [← (forall₂_of_mapM_ok hraws).length_eq,SignerSet.signers]
    exact length_take_le ..
  refine ⟨length_le_of_signatureScript h,length_signatureScript_le ?_ hcount h⟩
  intro raw hraw
  obtain ⟨i,-,hi⟩ := exists_of_mem_mapM hraws raw hraw
  obtain ⟨l,hl,hmem⟩ := Option.bind_eq_some_iff.mp (found_eq_ok.mp hi)
  exact hsigs i l hl raw (mem_of_getElem? hmem)

theorem size_of_assemble (hsigs : ∀ i l, sigs i = some l → ∀ raw∈l, raw.length ≤ 73)
    (h : s.assemble tx redeems sigs = .ok signed) : signed.txOut = tx.txOut ∧
      (tx.txOut.map serializeSize).sum ≤ signed.serializeSize ∧
      signed.serializeSize ≤ signedSize s.required.toNat redeems tx.txOut := by
  simp only [SignerSet.assemble,checks_ok,decide_eq_true_eq] at h
  obtain ⟨hcount,-,scripts,hscripts,rfl⟩ := h
  have hall := forall₂_of_mapM_ok hscripts
  have hlen : scripts.length = tx.txIn.length := by rw [← hall.length_eq,length_zipIdx,hcount]
  -- input by input, in the order of the redeem scripts
  have hinputs : (scripts.map fun script => 40+varIntLen script.length+script.length).sum ≤
      (redeems.map (fenceInputSize s.required.toNat)).sum := by
    have hredeems : redeems = redeems.zipIdx.map Prod.fst := by rw [zipIdx_map_fst]
    rw [hredeems,map_map]
    apply List.Forall₂.sum_le_sum
    rw [forall₂_map_left_iff,forall₂_map_right_iff]
    refine hall.flip.imp fun script p hp => ?_
    have hle := (length_inputScript_le hsigs hp).2
    have hvar := varIntLen_mono hle
    change _ ≤ 36+varIntLen (fenceScriptSize _ _)+fenceScriptSize _ _+4
    omega
  rw [serializeSize_withScripts hlen,signedSize,hcount]
  exact ⟨rfl,by omega, by omega⟩

def longSignatures (n : ℕ) (i : ℕ) : Option (List (List UInt8)) :=
  if i < 2 then some (List.replicate n (List.replicate 73 1)) else none

omit [Signing] in
theorem longSignatures_le (n : ℕ) : ∀ i l, longSignatures n i = some l → ∀ raw∈l, raw.length ≤ 73 := by
  intro i l hl raw hraw
  rw [longSignatures] at hl
  split at hl
  · cases hl
    rw [eq_of_mem_replicate hraw,length_replicate]
  · cases hl

theorem size_longSignatures (hkeys : s.pubKeys.length=3) (hrequired : s.required=2)
    (hredeems : ∀ redeem∈redeems, 2 ≤ redeem.length ∧ redeem.length ≤ maxScriptElementSize)
    (hcount : redeems.length=tx.txIn.length) : ∃ signed,
      s.assemble tx redeems (longSignatures redeems.length) = .ok signed ∧
        signed.serializeSize = signedSize 2 redeems tx.txOut := by
  have hsigners : s.signers (longSignatures redeems.length) = [0,1] := by
    rw [SignerSet.signers,hkeys,hrequired]
    rfl
  let sig : List UInt8 := List.replicate 73 1
  have hscripts : redeems.zipIdx.mapM (s.inputScript (longSignatures redeems.length)) =
      .ok (redeems.map (multiSigInput [sig,sig])) := by
    apply mapM_eq_ok
    rw [forall₂_iff_get]
    refine ⟨by simp, fun j hj hj' => ?_⟩
    rw [length_map] at hj'
    obtain ⟨h2,hmax⟩ := hredeems redeems[j] (getElem_mem hj')
    have hsig {i : ℕ} (hi : i<2) : ((longSignatures redeems.length i).bind fun l => l[j]?) = some sig := by
      rw [longSignatures,if_pos hi,Option.bind_some,List.getElem?_replicate,if_pos hj']
    have hinput : s.inputScript (longSignatures redeems.length) (redeems[j],j) =
        .ok (multiSigInput [sig,sig] redeems[j]) := by
      refine bind_eq_ok.mpr ⟨[sig,sig],?_,mapError_eq_ok.mpr (signatureScript_eq_ok ?_ (by decide) h2 hmax)⟩
      · rw [hsigners]
        exact mapM_eq_ok (.cons (found_eq_ok.mpr (hsig (by decide))) (.cons (found_eq_ok.mpr (hsig (by decide))) .nil))
      · simp [sig]
    simpa using hinput
  refine ⟨tx.withScripts (redeems.map (multiSigInput [sig,sig])),?_,?_⟩
  · refine bind_eq_ok.mpr ⟨(),ensure_eq_ok.mpr (by simp [hcount]),?_⟩
    refine bind_eq_ok.mpr ⟨(),ensure_eq_ok.mpr (by simp [hrequired,hsigners]),?_⟩
    exact bind_eq_ok.mpr ⟨_,hscripts,rfl⟩
  · have hinput : ∀ redeem∈redeems, 40+varIntLen (multiSigInput [sig,sig] redeem).length +
        (multiSigInput [sig,sig] redeem).length = fenceInputSize 2 redeem := by
      intro redeem hmem
      obtain ⟨h2,hmax⟩ := hredeems redeem hmem
      have hlen : (multiSigInput [sig,sig] redeem).length = fenceScriptSize 2 redeem := by
        have hsize : (ScriptBuilder.pushData sig).length = 74 := by decide
        have hpush := length_pushData_eq_pushLen h2 hmax
        simp only [multiSigInput,map_cons,map_nil,cons_append,nil_append,flatten_cons,flatten_nil,length_append,
          length_cons,length_nil,hsize,hpush,fenceScriptSize]
        omega
      rw [hlen]
      change _ = 36+varIntLen (fenceScriptSize 2 redeem)+fenceScriptSize 2 redeem+4
      omega
    have hinputs : (redeems.map (multiSigInput [sig,sig])).map
        (fun script => 40+varIntLen script.length+script.length) = redeems.map (fenceInputSize 2) := by
      rw [map_map]
      exact map_congr_left hinput
    rw [serializeSize_withScripts (by rw [length_map,hcount]),hinputs,signedSize,hcount]

/-- Whoever signs it, with signatures no longer than they may be, a transaction is as `P` asks. -/
def SignerSet.Always (s : SignerSet) (tx : MsgTx) (redeems : List Script) (P : MsgTx → Prop) : Prop :=
  ∀ sigs signed, (∀ i l, sigs i = some l → ∀ raw∈l, raw.length ≤ 73) → s.assemble tx redeems sigs = .ok signed →
    P signed

end

/-! ## The fee rule in integers -/

/-- `calcMinRequiredTxRelayFee` in integers: the most, where the product is no `int64`. -/
def relayBase (size rate : ℤ) : ℤ :=
  if 2^63-1 < size*rate then 10^18
  else if size*rate / 1000 = 0 ∧ 0 < rate then rate
  else min (10^18) (size*rate / 1000)

theorem relayBase_bounds {size rate : ℤ} (hsize : 0 ≤ size) (hrate : 0 ≤ rate ∧ rate ≤ 10^18) :
    0 ≤ relayBase size rate ∧ relayBase size rate ≤ 10^18 := by
  have hprod : 0 ≤ size*rate := Int.mul_nonneg hsize hrate.1
  unfold relayBase
  split_ifs <;> omega

theorem toInt_cap (fee : Int64) : (if maxSatoshi < fee then maxSatoshi else fee).toInt = min (10^18) fee.toInt := by
  have hsatoshi := toInt_maxSatoshi
  split <;> rename_i h <;> rw [lt_iff_toInt_lt] at h <;> omega

section

variable {size rate limit fee : Int64} (hsize : 0 ≤ size.toInt) (hrate : 0 ≤ rate.toInt ∧ rate.toInt ≤ 10^18)
  (hlimit : 0 ≤ limit.toInt ∧ limit.toInt ≤ 10^18) (outs : List TxOut)

include hsize hrate in
theorem toInt_mul_rate (h : size.toInt*rate.toInt≤2^63-1) : (size*rate).toInt = size.toInt*rate.toInt := by
  have hprod : 0 ≤ size.toInt*rate.toInt := Int.mul_nonneg hsize hrate.1
  rw [toInt_mul]
  exact Int.bmod_eq_of_le (by omega) (by omega)

include hrate in
theorem mul_guard : (decide (0 < rate) && decide (Int64.maxValue / rate < size)) =
    decide (2^63-1 < size.toInt*rate.toInt) := by
  have hmaxValue : Int64.maxValue.toInt = 2^63-1 := by decide
  rcases hrate.1.eq_or_lt with hzero | hpos
  · simp [pos_iff,← hzero]
  · rw [decide_eq_true (pos_iff.mpr hpos),Bool.true_and,decide_eq_decide,lt_iff_toInt_lt,
      toInt_div_of_nonneg (by decide) hpos,Int.ediv_lt_iff_lt_mul hpos,hmaxValue]

include hsize hrate in
theorem toInt_calcMinRequiredTxRelayFee :
    (calcMinRequiredTxRelayFee size rate).toInt = relayBase size.toInt rate.toInt := by
  rw [calcMinRequiredTxRelayFee,mul_guard hrate,relayBase]
  simp only [decide_eq_true_eq]
  split
  · exact toInt_maxSatoshi
  · next hsmall =>
    have hprod : 0 ≤ size.toInt*rate.toInt := Int.mul_nonneg hsize hrate.1
    have hscaled := toInt_mul_rate hsize hrate (not_lt.mp hsmall)
    have hdiv : (size*rate / 1000).toInt = size.toInt*rate.toInt / 1000 := by
      rw [toInt_div_of_nonneg (hscaled ▸ hprod) (by decide),hscaled]
      rfl
    have hmin : (if size*rate / 1000 = 0 && 0 < rate then rate else size*rate / 1000).toInt =
        if size.toInt*rate.toInt / 1000 = 0 ∧ 0 < rate.toInt then rate.toInt else size.toInt*rate.toInt / 1000 := by
      rw [apply_ite toInt,hdiv]
      simp [← toInt_inj,hdiv,pos_iff]
    generalize (if size*rate / 1000 = 0 && 0 < rate then rate else size*rate / 1000) = minFee at hmin ⊢
    have hpos : ¬ minFee < 0 := by
      rw [lt_iff_toInt_lt,hmin]
      change ¬ _ < (0 : ℤ)
      split_ifs <;> omega
    simp only [hpos,decide_false,Bool.false_or,decide_eq_true_eq]
    rw [toInt_cap,hmin]
    split_ifs <;> omega

include hlimit

theorem limit_mul_nonneg : 0 ≤ limit.toInt*(outs.countP (isDust · limit) : ℤ) :=
  Int.mul_nonneg hlimit.1 (Int.natCast_nonneg _)

theorem toInt_calcDustFee (h0 : 0≤fee.toInt) (hfee : fee.toInt≤10^18) :
    (calcDustFee limit fee outs).toInt = min (10^18) (fee.toInt+limit.toInt*outs.countP (isDust · limit)) := by
  induction outs generalizing fee with
  | nil =>
    rw [calcDustFee,countP_nil]
    omega
  | cons out outs ih =>
    rw [calcDustFee,countP_cons]
    split
    · have hadd : (fee+limit).toInt = fee.toInt+limit.toInt := toInt_add_of_bounds (by omega) (by omega)
      have hrest := limit_mul_nonneg hlimit outs
      push_cast
      rw [Int.mul_add,Int.mul_one]
      -- the loop stops before the sum can wrap
      split <;> rename_i hover <;> rw [lt_iff_toInt_lt,hadd,toInt_maxSatoshi] at hover
      · rw [toInt_maxSatoshi]
        omega
      · rw [ih (by omega) (by omega),hadd]
        omega
    · exact ih h0 hfee

include hsize hrate

theorem toInt_minFee : (calcMinRequiredTxRelayFee size rate+calcDustFee limit 0 outs).toInt =
    relayBase size.toInt rate.toInt+min (10^18) (limit.toInt*outs.countP (isDust · limit)) := by
  have hbase := toInt_calcMinRequiredTxRelayFee hsize hrate
  have hdust : (calcDustFee limit 0 outs).toInt = _ := toInt_calcDustFee hlimit outs le_rfl (by decide)
  rw [Int64.toInt_zero,Int.zero_add] at hdust
  have hbounds := relayBase_bounds hsize hrate
  have hrest := limit_mul_nonneg hlimit outs
  rw [toInt_add_of_bounds (by omega) (by omega),hbase,hdust]

theorem toInt_minRelayFee : (minRelayFee size rate limit outs).toInt =
    min (10^18) (relayBase size.toInt rate.toInt+limit.toInt*outs.countP (isDust · limit)) := by
  have hbounds := relayBase_bounds hsize hrate
  have hrest := limit_mul_nonneg hlimit outs
  rw [minRelayFee,toInt_cap,toInt_minFee hsize hrate hlimit]
  omega

end

/-- The fee `validateRelayFeeMet` compares with is the exact one. No `int64` on the way to it
overflows but the product, and that only where the base is then the most there is. -/
theorem relay_fee_exact (size rate limit : Int64) (outs : List TxOut) (hsize : 0 ≤ size.toInt)
    (hrate : 0 ≤ rate.toInt ∧ rate.toInt ≤ 10^18) (hlimit : 0 ≤ limit.toInt ∧ limit.toInt ≤ 10^18) :
    (∀ tx fee, tx.txOut = outs → .ofNat tx.serializeSize = size →
      relayFeeMet rate limit tx fee = decide (minRelayFee size rate limit outs ≤ fee)) ∧
    (minRelayFee size rate limit outs).toInt =
      min (10^18) (relayBase size.toInt rate.toInt+limit.toInt*outs.countP (isDust · limit)) ∧
    (size.toInt*rate.toInt ≤ 2^63-1 → (size*rate).toInt = size.toInt*rate.toInt) ∧
    (∀ n, (calcDustFee limit 0 (outs.take n)+limit).toInt = (calcDustFee limit 0 (outs.take n)).toInt+limit.toInt) ∧
    (calcMinRequiredTxRelayFee size rate+calcDustFee limit 0 outs).toInt =
      (calcMinRequiredTxRelayFee size rate).toInt+(calcDustFee limit 0 outs).toInt := by
  have hdust (l : List TxOut) : (calcDustFee limit 0 l).toInt = _ := toInt_calcDustFee hlimit l le_rfl (by decide)
  simp only [Int64.toInt_zero,Int.zero_add] at hdust
  refine ⟨?_,toInt_minRelayFee hsize hrate hlimit outs,toInt_mul_rate hsize hrate,fun n => ?_, ?_⟩
  · rintro tx fee rfl rfl
    rfl
  · have hle := hdust (outs.take n)
    have hrest := limit_mul_nonneg hlimit (outs.take n)
    exact toInt_add_of_bounds (by omega) (by omega)
  · rw [toInt_minFee hsize hrate hlimit,toInt_calcMinRequiredTxRelayFee hsize hrate,hdust]

theorem one_dust_output_fee : (minRelayFee 192 100000 1000000 [⟨5,[]⟩]).toInt = 1019200 :=
  (relay_fee_exact 192 100000 1000000 [⟨5,[]⟩] (by decide) (by decide) (by decide)).2.1.trans (by decide +kernel)

/-! ## The relay fee of a release -/

theorem not_isDust_of_le {out : TxOut} {dustLimit : Int64} (h : dustLimit≤out.value) :
    isDust out dustLimit = false := by
  rw [isDust,decide_eq_false (Int64.not_lt.mpr h),Bool.and_false]

theorem not_isDust_nullData (data : List UInt8) (dustLimit : Int64) : isDust (nullData data) dustLimit = false := by
  simp [isDust,isUnspendable,nullData,nullDataScript]

/-- A larger transaction pays no less, unless it is so small that only the least fee is asked for. -/
theorem minRelayFee_mono {rate limit : Int64} {outs outs' : List TxOut} {m n : ℕ}
    (hrate : 20 ≤ rate.toInt ∧ rate.toInt ≤ 10^18) (hlimit : 0 ≤ limit.toInt ∧ limit.toInt ≤ 10^18)
    (houts : outs.countP (isDust · limit)=outs'.countP (isDust · limit)) (hm : 50 ≤ m) (hle : m≤n) (hn : n<2^63) :
    minRelayFee (.ofNat m) rate limit outs ≤ minRelayFee (.ofNat n) rate limit outs' := by
  have hofm : (Int64.ofNat m).toInt = m := toInt_ofNat_of_lt (hle.trans_lt hn)
  have hofn : (Int64.ofNat n).toInt = n := toInt_ofNat_of_lt hn
  have hleast : 1000 ≤ (m : ℤ)*rate.toInt := by nlinarith
  have hprod : (m : ℤ)*rate.toInt ≤ n*rate.toInt := Int.mul_le_mul_of_nonneg_right (Int.ofNat_le.mpr hle) (by omega)
  rw [le_iff_toInt_le,toInt_minRelayFee (by omega) ⟨by omega, hrate.2⟩ hlimit,
    toInt_minRelayFee (by omega) ⟨by omega, hrate.2⟩ hlimit,hofm,hofn,houts]
  simp only [relayBase]
  split_ifs <;> omega

section

variable [Hashing] {o : CoinSort} {b : Bridge} {st : PegState} {signed : MsgTx}

/-- The outputs of a payment, without their values. -/
def Bridge.paymentOuts (b : Bridge) (dest : Destination) (data : List UInt8) : List TxOut :=
  [⟨0,dest.pkScript⟩,⟨0,b.script⟩,nullData data]

theorem Bridge.size_paymentOuts (b : Bridge) (dest : Destination) (data : List UInt8) :
    50 ≤ ((b.paymentOuts dest data).map serializeSize).sum := by
  have hdest : 23 ≤ dest.pkScript.length := by cases h : dest.kind <;> simp [Destination.pkScript,h]
  have hscript : b.script.length = 23 := length_p2shScript b.redeemScript
  simp only [paymentOuts,map_cons,map_nil,sum_cons,sum_nil,serializeSize,hscript]
  omega

/-- What the coins of a release take, and the fee for it, at most. -/
def Bridge.ReleaseRelays (b : Bridge) (d : Deposit) (minRelayTxFee : Int64) (coins : List Utxo) : Prop :=
  let size := signedSize 2 (coins.map fun _ => b.redeemScript) (b.paymentOuts d.destination (encodeRelease d.outPoint))
  size ≤ maxStandardTxSize ∧
    minRelayFee (.ofNat size) minRelayTxFee defaultDustLimit [⟨d.value-b.vmFee,d.destination.pkScript⟩] ≤ b.vmFee

instance Bridge.instDecidableReleaseRelays (d : Deposit) (minRelayTxFee : Int64) (coins : List Utxo) :
    Decidable (b.ReleaseRelays d minRelayTxFee coins) := inferInstanceAs (Decidable (_ ∧ _))

theorem Bridge.ReleaseRelays.mono {d : Deposit} {rate : Int64} (hrate : 20 ≤ rate.toInt ∧ rate.toInt ≤ 10^18)
    {coins coins' : List Utxo} (hsub : coins <+ coins') (h : b.ReleaseRelays d rate coins') :
    b.ReleaseRelays d rate coins := by
  have hmono : _ ≤ signedSize 2 _ (b.paymentOuts d.destination (encodeRelease d.outPoint)) :=
    signedSize_mono (hsub.map fun _ => b.redeemScript)
  have hlimit : maxStandardTxSize = 100000 := rfl
  have hleast := b.size_paymentOuts d.destination (encodeRelease d.outPoint)
  refine ⟨hmono.trans h.1,Int64.le_trans (minRelayFee_mono hrate (by decide) rfl ?_ hmono ?_) h.2⟩
  · exact hleast.trans (Nat.le_add_left ..)
  · exact h.1.trans_lt (by decide)

omit [Hashing] in
theorem releaseInputs_ok {value sum : Int64} (hanchor : ∀ u∈st.reserveAnchor, u.InRange)
    (hcoins : ∀ u∈st.reserveUTXOs, u.InRange) (h0 : 0≤value.toInt) (hvalue : value.toInt≤10^18)
    (h : o.releaseInputs st value = .ok (inputs,sum)) : ∃ anchor, st.reserveAnchor = some anchor ∧
      o.anchoredSelection anchor st.reserveUTXOs (value+pegDust) = .ok (inputs,sum) ∧
      (value+pegDust).toInt ≤ 2*10^18 ∧ pegDust ≤ inputsTotal inputs-value := by
  simp only [CoinSort.releaseInputs,PegState.freeReserveAnchor,checks_ok] at h
  obtain ⟨anchor,⟨_,hsome,-,rfl⟩,h⟩ := h
  have hdust : pegDust.toInt = 1000000 := by decide
  have hneed : (value+pegDust).toInt = value.toInt+pegDust.toInt := toInt_add_of_bounds (by omega) (by omega)
  obtain ⟨rfl,hle⟩ := o.anchoredSelection_ok h (hanchor _ hsome) hcoins (by omega)
  refine ⟨_,hsome,h,by omega, ?_⟩
  rw [le_iff_toInt_le] at hle ⊢
  rw [toInt_sub_of_le h0 (by omega)]
  omega

theorem feeOf_buildRelease {d : Deposit} (hchange : 0 < inputsTotal inputs-d.value)
    (hout : signed.txOut=(b.buildRelease inputs d).txOut) : feeOf inputs signed = b.vmFee := by
  rw [feeOf,hout,Bridge.buildRelease,if_pos hchange,newTx_txOut,total_eq_sum]
  simp only [Option.toList_some,singleton_append,map_cons,map_nil,sum_cons,sum_nil,nullData,add_zero]
  abel

end

/-! ## Which payments relay -/

section

variable [Hashing] [Signing] {o : CoinSort} {s : SignerSet} {b : Bridge} {st : PegState} {tx : MsgTx}
  {redeems : List Script} {sigs : ℕ → Option (List (List UInt8))}

theorem isRedeem_of_redeemFor (hb : b.redeemScript=s.redeemScript)
    (h : b.redeemFor script=some redeem) : s.IsRedeem redeem := by
  unfold Bridge.redeemFor at h
  split at h
  · next d _ =>
    refine .inr ⟨d,?_⟩
    rw [← Option.some.inj h,Bridge.depositRedeemScript,hb,SignerSet.depositRedeemScript]
  · split at h
    · exact .inl (by rw [← Option.some.inj h,hb])
    · cases h

omit [Hashing] in
theorem Accepted.length_redeem (hs : Accepted s) (hkeys : s.pubKeys.length=3) (h : s.IsRedeem redeem) :
    2 ≤ redeem.length ∧ redeem.length ≤ maxScriptElementSize := by
  obtain ⟨f,hloaded⟩ := hs.loaded
  obtain ⟨-,hlen⟩ := hloaded.redeemScript_eq (by omega)
  have hmax : maxScriptElementSize = 520 := rfl
  rcases h with rfl | ⟨d,rfl⟩
  · omega
  · rw [SignerSet.length_depositRedeemScript]
    omega

omit [Hashing] in
/-- What holds of the largest size holds of every size the signatures can give it. -/
theorem always_iff {P : MsgTx → Prop} {Q : ℕ → Prop} (hs : Accepted s) (hkeys : s.pubKeys.length=3)
    (hrequired : s.required=2) (hredeems : ∀ redeem∈redeems, s.IsRedeem redeem)
    (hcount : redeems.length=tx.txIn.length)
    (hP : ∀ signed, signed.txOut = tx.txOut → (P signed ↔ Q signed.serializeSize))
    (hQ : ∀ m n, (tx.txOut.map serializeSize).sum ≤ m → m ≤ n → Q n → Q m) :
    s.Always tx redeems P ↔ Q (signedSize 2 redeems tx.txOut) := by
  have hnat : s.required.toNat = 2 := by omega
  constructor
  · intro h
    obtain ⟨signed,hok,hsize⟩ := size_longSignatures hkeys hrequired
      (fun redeem hr => hs.length_redeem hkeys (hredeems redeem hr)) hcount
    obtain ⟨hout,-,-⟩ := size_of_assemble (longSignatures_le _) hok
    exact hsize ▸ (hP signed hout).mp (h _ _ (longSignatures_le _) hok)
  · intro h sigs signed hsigs hok
    obtain ⟨hout,hlo,hhi⟩ := size_of_assemble hsigs hok
    exact (hP signed hout).mpr (hQ _ _ hlo (hnat ▸ hhi) h)

/-- The coins of the peg and the reserve have values a transaction may have. -/
def PegState.CoinsInRange (st : PegState) : Prop :=
  ∀ u, u∈st.pegAnchor ∨ u∈st.lockedUTXOs ∨ u∈st.reserveAnchor ∨ u∈st.reserveUTXOs → u.InRange

section

variable (hs : Accepted s) (hkeys : s.pubKeys.length=3) (hrequired : s.required=2)
  (hb : b.redeemScript=s.redeemScript) (hcoins : st.CoinsInRange)

include hs hkeys hrequired hb hcoins

theorem payFromPeg_always {value : Int64} {dest : Destination} (hvalue : value.toInt≤10^18)
    (h : o.payFromPeg b st value dest data = .ok (tx,redeems)) :
    s.Always tx redeems (fun signed => signed.serializeSize ≤ maxStandardTxSize) ↔
      ∃ anchor∈st.pegAnchor, o.CoversWith anchor (st.lockedUTXOs.filter fun u => 0 < u.confirmations) value
        fun picked => signedSize 2 (picked.map fun u => (b.redeemFor u.pkScript).getD []) (b.paymentOuts dest data) ≤
          maxStandardTxSize := by
  simp only [CoinSort.payFromPeg,CoinSort.payoutInputs,checks_ok,Prod.mk.injEq] at h
  obtain ⟨-,_,⟨anchor,hanchor,-,⟨picked,sum⟩,hpicked,rfl⟩,tx,hbuilt,redeems,hredeems,rfl,rfl⟩ := h
  have hall := forall₂_of_mapM_ok hredeems
  have hmap : redeems = picked.map fun u => (b.redeemFor u.pkScript).getD [] := by
    rw [← forall₂_eq_eq_eq,forall₂_map_right_iff]
    refine hall.flip.imp fun redeem u hu => ?_
    rw [found_eq_ok.mp hu,Option.getD_some]
  have hscripts : ∀ redeem∈redeems, s.IsRedeem redeem := by
    intro redeem hmem
    obtain ⟨u,-,hu⟩ := exists_of_mem_mapM hredeems redeem hmem
    exact isRedeem_of_redeemFor hb (found_eq_ok.mp hu)
  obtain ⟨-,-,-,-,rfl⟩ := b.buildPayout_ok hbuilt
  have hcount : redeems.length = picked.length := hall.length_eq.symm
  rw [always_iff (Q := (· ≤ maxStandardTxSize)) hs hkeys hrequired hscripts (by simpa [newTx] using hcount)
    (fun _ _ => Iff.rfl) fun m n _ hmn hn => hmn.trans hn]
  change signedSize 2 redeems (b.paymentOuts dest data) ≤ _ ↔ _
  rw [hmap,hanchor]
  simp only [Option.mem_def,Option.some.injEq,exists_eq_left']
  exact o.coversWith_iff (P := fun picked => signedSize 2 (picked.map fun u => (b.redeemFor u.pkScript).getD [])
      (b.paymentOuts dest data) ≤ maxStandardTxSize) (hcoins _ (.inl hanchor))
    (fun u hu => hcoins u (.inr (.inl (mem_of_mem_filter hu)))) (by omega) hpicked
    fun l l' hl hle => (signedSize_mono (hl.sublist.map _)).trans hle

theorem release_always {d : Deposit} {rate : Int64} (hd : 0 ≤ d.value.toInt ∧ d.value.toInt ≤ 10^18)
    (hrate : 20 ≤ rate.toInt ∧ rate.toInt ≤ 10^18) (h : o.release b st d = .ok (inputs,tx,redeems)) :
    s.Always tx redeems (fun signed => signed.serializeSize ≤ maxStandardTxSize ∧
        relayFeeMet rate defaultDustLimit signed (feeOf inputs signed) = true) ↔ ∃ anchor∈st.reserveAnchor,
        o.CoversWith anchor st.reserveUTXOs (d.value+pegDust) (b.ReleaseRelays d rate) := by
  simp only [CoinSort.release,checks_ok,Prod.mk.injEq] at h
  obtain ⟨⟨inputs,sum⟩,hinputs,rfl,rfl,rfl⟩ := h
  have hreserve : ∀ u∈st.reserveUTXOs, u.InRange := fun u hu => hcoins u (.inr (.inr (.inr hu)))
  obtain ⟨anchor,hanchor,hpicked,hneed,hchange⟩ :=
    releaseInputs_ok (fun u hu => hcoins u (.inr (.inr (.inl hu)))) hreserve hd.1 hd.2 hinputs
  have hpos : 0 < inputsTotal inputs-d.value := Int64.lt_of_lt_of_le (by decide) hchange
  have houts : (b.buildRelease inputs d).txOut = [⟨d.value-b.vmFee,d.destination.pkScript⟩,
      ⟨inputsTotal inputs-d.value,b.script⟩,nullData (encodeRelease d.outPoint)] := by
    rw [Bridge.buildRelease,if_pos hpos]
    rfl
  have hdust : (b.buildRelease inputs d).txOut.countP (isDust · defaultDustLimit) =
      [(⟨d.value-b.vmFee,d.destination.pkScript⟩ : TxOut)].countP (isDust · defaultDustLimit) := by
    have hkept : isDust ⟨inputsTotal inputs-d.value,b.script⟩ defaultDustLimit = false := not_isDust_of_le hchange
    simp only [houts,countP_cons,countP_nil,hkept,not_isDust_nullData,Bool.false_eq_true,if_false]
  have hleast := b.size_paymentOuts d.destination (encodeRelease d.outPoint)
  have hsum : ((b.buildRelease inputs d).txOut.map serializeSize).sum =
      ((b.paymentOuts d.destination (encodeRelease d.outPoint)).map serializeSize).sum := by
    rw [houts]
    rfl
  have hlimit : maxStandardTxSize < 2^63 := by decide
  rw [always_iff (Q := fun n => n ≤ maxStandardTxSize ∧
      minRelayFee (.ofNat n) rate defaultDustLimit (b.buildRelease inputs d).txOut ≤ b.vmFee) hs hkeys hrequired]
  · have hsize : signedSize 2 (inputs.map fun _ => b.redeemScript) (b.buildRelease inputs d).txOut =
        signedSize 2 (inputs.map fun _ => b.redeemScript) (b.paymentOuts d.destination (encodeRelease d.outPoint)) := by
      rw [houts]
      rfl
    have hlarge : 50 ≤ signedSize 2 (inputs.map fun _ => b.redeemScript)
        (b.paymentOuts d.destination (encodeRelease d.outPoint)) := hleast.trans (Nat.le_add_left ..)
    have hrelays : (signedSize 2 (inputs.map fun _ => b.redeemScript) (b.buildRelease inputs d).txOut ≤
      maxStandardTxSize ∧
        minRelayFee (.ofNat (signedSize 2 (inputs.map fun _ => b.redeemScript) (b.buildRelease inputs d).txOut)) rate
          defaultDustLimit (b.buildRelease inputs d).txOut ≤ b.vmFee) ↔ b.ReleaseRelays d rate inputs := by
      rw [hsize,Bridge.ReleaseRelays]
      refine and_congr_right fun hle => ?_
      rw [Int64.le_antisymm (minRelayFee_mono hrate (by decide) hdust hlarge le_rfl (hle.trans_lt hlimit))
        (minRelayFee_mono hrate (by decide) hdust.symm hlarge le_rfl (hle.trans_lt hlimit))]
    rw [hrelays,hanchor]
    simp only [Option.mem_def,Option.some.injEq,exists_eq_left']
    exact o.coversWith_iff (hcoins _ (.inr (.inr (.inl hanchor)))) hreserve hneed hpicked
      fun l l' hl hrelays => hrelays.mono hrate hl.sublist
  · intro redeem hmem
    obtain ⟨-,-,rfl⟩ := mem_map.mp hmem
    exact .inl hb
  · simp [Bridge.buildRelease,newTx]
  · intro signed hout
    rw [feeOf_buildRelease hpos hout,relayFeeMet,hout,decide_eq_true_eq]
  · rintro m n hm hmn ⟨hn,hfee⟩
    refine ⟨hmn.trans hn,Int64.le_trans (minRelayFee_mono hrate (by decide) rfl ?_ hmn (hn.trans_lt hlimit)) hfee⟩
    exact hleast.trans (hsum ▸ hm)

end

/-- A payment of the coordinator relays, signed by two of three keys, where few enough of the largest
coins beside the anchor cover it: few enough for the size a mempool takes and, for a release, for the
fee of its policy. -/
theorem payments_relay_iff (o : CoinSort) (s : SignerSet) (hs : Accepted s) (hkeys : s.pubKeys.length=3)
    (hrequired : s.required=2) (b : Bridge) (hb : b.redeemScript=s.redeemScript) (st : PegState)
    (hcoins : st.CoinsInRange) :
    let confirmed := st.lockedUTXOs.filter fun u => 0 < u.confirmations
    let sizeOf := fun dest data picked =>
      signedSize 2 (picked.map fun u : Utxo => (b.redeemFor u.pkScript).getD []) (b.paymentOuts dest data)
    (∀ p tx redeems, p.value.toInt ≤ 10^18 → o.pay b st p = .ok (tx,redeems) →
      (s.Always tx redeems (fun signed => signed.serializeSize ≤ maxStandardTxSize) ↔
        ∃ anchor∈st.pegAnchor, o.CoversWith anchor confirmed p.value
          fun picked => sizeOf p.dest (encodePayment p.txid) picked ≤ maxStandardTxSize)) ∧
    (∀ d dest tx redeems, d.value.toInt ≤ 10^18 → o.payRefund b st d dest = .ok (tx,redeems) →
      (s.Always tx redeems (fun signed => signed.serializeSize ≤ maxStandardTxSize) ↔
        ∃ anchor∈st.pegAnchor, o.CoversWith anchor confirmed d.value
          fun picked => sizeOf dest (encodeRefund d.outPoint) picked ≤ maxStandardTxSize)) ∧
    ∀ d inputs tx redeems rate, 0 ≤ d.value.toInt ∧ d.value.toInt ≤ 10^18 → 20 ≤ rate.toInt ∧ rate.toInt ≤ 10^18 →
      o.release b st d = .ok (inputs,tx,redeems) →
      (s.Always tx redeems (fun signed => signed.serializeSize ≤ maxStandardTxSize ∧
          relayFeeMet rate defaultDustLimit signed (feeOf inputs signed) = true) ↔
        ∃ anchor∈st.reserveAnchor,
          o.CoversWith anchor st.reserveUTXOs (d.value+pegDust) (b.ReleaseRelays d rate)) :=
  ⟨fun _ _ _ hvalue h => payFromPeg_always hs hkeys hrequired hb hcoins hvalue h,
    fun _ _ _ _ hvalue h => payFromPeg_always hs hkeys hrequired hb hcoins hvalue h,
    fun _ _ _ _ _ hd hrate h => release_always hs hkeys hrequired hb hcoins hd hrate h⟩

end

/-! ## Many deposits of the least amount -/

section Sample

attribute [local instance] sampleHashing sampleSigning

/-- The coordinator's default policy, over a set's redeem script. -/
def defaultBridge (redeem : Script) : Bridge :=
  { sampleBridge with
    redeemScript := redeem
    keys := 3
    required := 2
    minDeposit := 100000000
    minPegOut := 200000000
    depositConfirmations := 6
    vmFee := 1000000
    dogeFee := 100000000 }

abbrev SignerSet.defaultBridge (s : SignerSet) : Bridge := DogePeg.defaultBridge s.redeemScript

def depositsTx (b : Bridge) (n : ℕ) (h : n≤1000) : MsgTx where
  version := 1
  txIn := [⟨⟨5,0⟩,[],[],0xffffffff⟩]
  txOut := List.replicate n ⟨100000000,b.script⟩++[nullData (Tag.deposit.bytes++(0::toBytes 20 9))]
  lockTime := 0
  outputs_le := by
    rw [length_append,length_replicate,length_singleton,maxTxOutPerMessage]
    omega

def pegOutTx (b : Bridge) (n : ℕ) : MsgTx where
  version := 1
  txIn := [⟨⟨6,0⟩,[],[],0xffffffff⟩]
  txOut := [⟨100000000*Int64.ofNat n,b.script⟩,nullData (Tag.pegOut.bytes++(0::toBytes 20 8))]
  lockTime := 0
  outputs_le := show 2 ≤ maxTxOutPerMessage by decide

/-- What the nodes list after `n` deposits, and a peg-out of what they brought. -/
def depositNodes (b : Bridge) (n : ℕ) (h : n≤1000) : Nodes where
  vm := ⟨[⟨pegOutTx b n,1,0⟩],nodup_singleton _,by simp⟩
  gettxout := fun _ => true
  doge := ⟨[⟨depositsTx b n h,6,0⟩],nodup_singleton _,by simp⟩
  dogeConflicted := []
  dogeUnspent := coinsTo b.script ⟨depositsTx b n h,6,0⟩

/-- After 350 deposits of the least amount a peg-out of what they brought is valid and covered, and
its payout, which spends every one of them, is over the size limit. -/
theorem crowded_payout_too_large : ∃ s, newSignerSet 2 3 sampleSecrets = .ok s ∧ ∃ st p tx redeems signed,
      st = s.defaultBridge.load (depositNodes s.defaultBridge 350 (by decide)) ∧
      st.deposits.length = 350 ∧ (∀ d∈st.deposits, d.valid = true ∧ d.value = 100000000) ∧ st.pegOuts = [p] ∧
      CoinSort.stable.pay s.defaultBridge st p = .ok (tx,redeems) ∧
      s.assemble tx redeems (longSignatures redeems.length) = .ok signed ∧
        maxStandardTxSize < signed.serializeSize := by
  obtain ⟨s,hs,hcheck⟩ := exists_ok_of_any (x := newSignerSet 2 3 sampleSecrets) (p := fun s =>
      let b := s.defaultBridge
      let st := b.load (depositNodes b 350 (by decide))
      s.required = 2 && s.pubKeys.length = 3 && s.redeemScript.length = 105 &&
      st.deposits.length = 350 && st.deposits.all (fun d => d.valid && d.value = 100000000) &&
      st.pegOuts.length = 1 && st.pegOuts.all (fun p => (CoinSort.stable.pay b st p).toOption.any fun r =>
        r.1.txIn.length = 350 && r.2 = List.replicate 350 s.redeemScript))
    (by decide +kernel)
  simp only [Bool.and_eq_true,decide_eq_true_eq,all_eq_true] at hcheck
  obtain ⟨⟨⟨⟨⟨⟨hrequired,hkeys⟩,hredeem⟩,hdeposits⟩,hleast⟩,hpegOuts⟩,hpay⟩ := hcheck
  obtain ⟨p,hp⟩ := length_eq_one_iff.mp hpegOuts
  obtain ⟨⟨tx,redeems⟩,hbuilt,hbounds⟩ := exists_ok_of_any (hpay p (by rw [hp]; exact mem_singleton_self p))
  simp only [Bool.and_eq_true,decide_eq_true_eq] at hbounds
  obtain ⟨htx,rfl⟩ := hbounds
  have hredeems : ∀ redeem∈List.replicate 350 s.redeemScript,
      2 ≤ redeem.length ∧ redeem.length ≤ maxScriptElementSize := by
    intro redeem hr
    rw [eq_of_mem_replicate hr,hredeem]
    decide
  obtain ⟨signed,hassemble,hsize⟩ := size_longSignatures hkeys hrequired hredeems (by rw [length_replicate,htx])
  refine ⟨s,hs,_,p,tx,_,signed,rfl,hdeposits,fun d hd => hleast d hd, hp, hbuilt, hassemble, ?_⟩
  have hinput : fenceInputSize 2 s.redeemScript = 299 := by rw [fenceInputSize,hredeem]; rfl
  have hlimit : maxStandardTxSize = 100000 := rfl
  rw [hsize,signedSize,map_replicate,sum_replicate,hinput,hlimit]
  change _ < _+350*299+_
  omega

/-- Two coins pay a peg-out of two DOGE, and the reserve's one coin a deposit. -/
theorem few_coins_relay : ∃ s, newSignerSet 2 3 sampleSecrets = .ok s ∧ ∃ st p d tx redeems inputs credit redeems',
      st = s.defaultBridge.load (depositNodes s.defaultBridge 2 (by decide)) ∧ st.pegOuts = [p] ∧ d∈st.deposits ∧
      CoinSort.stable.pay s.defaultBridge st p = .ok (tx,redeems) ∧
      s.Always tx redeems (fun signed => signed.serializeSize ≤ maxStandardTxSize) ∧
      CoinSort.stable.release s.defaultBridge st d = .ok (inputs,credit,redeems') ∧
      s.Always credit redeems' fun signed => signed.serializeSize ≤ maxStandardTxSize ∧
        relayFeeMet 100000 defaultDustLimit signed (feeOf inputs signed) = true := by
  obtain ⟨s,hs,hcheck⟩ := exists_ok_of_any (x := newSignerSet 2 3 sampleSecrets) (p := fun s =>
      let b := s.defaultBridge
      let st := b.load (depositNodes b 2 (by decide))
      s.required = 2 && s.pubKeys.length = 3 && st.pegOuts.length = 1 && st.deposits.length = 2 &&
      (st.pegAnchor.toList++st.lockedUTXOs++st.reserveAnchor.toList++st.reserveUTXOs).all (fun u => u.InRange) &&
      st.pegOuts.all (fun p => p.value = 200000000 && (CoinSort.stable.pay b st p).isOk &&
        st.pegAnchor.any fun anchor =>
        let others := (st.lockedUTXOs.filter fun u => 0 < u.confirmations).filter fun u => u.outPoint ≠ anchor.outPoint
        p.value.toInt ≤ anchor.value.toInt+CoinSort.stable.largest others 1 &&
          signedSize 2 ((anchor::(CoinSort.stable.sort others).take 1).map fun u => (b.redeemFor u.pkScript).getD [])
            (b.paymentOuts p.dest (encodePayment p.txid)) ≤ maxStandardTxSize) &&
      st.deposits.all (fun d => d.value = 100000000 && (CoinSort.stable.release b st d).isOk &&
        st.reserveAnchor.any fun anchor => d.value+pegDust ≤ anchor.value && b.ReleaseRelays d 100000 [anchor]))
    (by decide +kernel)
  simp only [Bool.and_eq_true,decide_eq_true_eq,all_eq_true,Option.any_eq_true] at hcheck
  obtain ⟨⟨⟨⟨⟨⟨hrequired,hkeys⟩,hpegOuts⟩,hdeposits⟩,hcoins⟩,hpay⟩,hrelease⟩ := hcheck
  obtain ⟨p,hp⟩ := length_eq_one_iff.mp hpegOuts
  obtain ⟨d,rest,hd⟩ := exists_cons_of_length_eq_add_one hdeposits
  have hmem := hd ▸ mem_cons_self (a := d) (l := rest)
  obtain ⟨⟨hvalue,hbuilt⟩,peg,hpeg,hcovers⟩ := hpay p (by rw [hp]; exact mem_singleton_self p)
  obtain ⟨⟨hcredit,hreleased⟩,reserve,hreserve,hcovers'⟩ := hrelease d hmem
  obtain ⟨⟨tx,redeems⟩,hbuilt⟩ := exists_of_isOk hbuilt
  obtain ⟨⟨inputs,credit,redeems'⟩,hreleased⟩ := exists_of_isOk hreleased
  obtain ⟨hpays,-,hcredits⟩ := payments_relay_iff .stable s (.new hs) hkeys hrequired s.defaultBridge rfl
    _ fun u hu => hcoins u (by simpa [or_assoc] using hu)
  refine ⟨s,hs,_,p,d,tx,redeems,inputs,credit,redeems',rfl,hp,hmem,hbuilt,?_,hreleased,?_⟩
  · exact (hpays p tx redeems (by rw [hvalue]; decide) hbuilt).mpr ⟨peg,hpeg,1,hcovers⟩
  · refine (hcredits d inputs credit redeems' 100000 (by rw [hcredit]; decide) (by decide) hreleased).mpr
      ⟨reserve,hreserve,0,?_,hcovers'.2⟩
    rw [CoinSort.largest,take_zero,map_nil,exact_nil,Int.add_zero]
    exact le_iff_toInt_le.mp hcovers'.1

end Sample

end DogePeg
