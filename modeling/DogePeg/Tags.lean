import DogePeg.Scripts

/-!
# Peg messages

A peg message is carried in a transaction's single data output: four bytes of tag and a payload
(`cmd/dogevm/tags.go`, and `cutover.go` for fences). A transaction whose one data output was written by
an encoder parses as that message and as no other.
-/

namespace DogePeg

open Bytes List

variable {tx : MsgTx} {data : List UInt8}

/-- The tags: `DVMD`, `DVMI`, `DVMO`, `DVMR`, `DVMF`, `DVMC`, `DVMX` and `DVMZ`. -/
inductive Tag where
  | deposit
  | release
  | pegOut
  | payment
  | refund
  | contrib
  | cancel
  | fence
  deriving DecidableEq, Repr

/-- The last letter of a tag; the first three are always `DVM`. -/
def Tag.letter : Tag → UInt8
  | deposit => 0x44
  | release => 0x49
  | pegOut => 0x4f
  | payment => 0x52
  | refund => 0x46
  | contrib => 0x43
  | cancel => 0x58
  | fence => 0x5a

def Tag.bytes (t : Tag) : List UInt8 := [0x44,0x56,0x4d,t.letter]

@[simp] theorem Tag.length_bytes (t : Tag) : t.bytes.length = 4 := rfl

@[simp] theorem Tag.bytes_inj {s t : Tag} : s.bytes = t.bytes ↔ s = t := by
  cases s <;> cases t <;> decide

/-- `opReturnData`: the tag and payload of the data output, if there is exactly one. -/
def opReturnData (tx : MsgTx) : Option (List UInt8 × List UInt8) :=
  match tx.txOut.filter fun out => isNullDataScript out.pkScript with
  | [out] =>
    match (pushedData out.pkScript).map List.flatten with
    | some data => if data.length < 4 then none else some (data.take 4,data.drop 4)
    | none => none
  | _ => none

def nullData (data : List UInt8) : TxOut := ⟨0,nullDataScript data⟩

def hashBytes (h : Hash) : List UInt8 := toBytes 32 h.toNat

def encodeOutPointTag (tag : Tag) (op : OutPoint) : List UInt8 :=
  tag.bytes++(hashBytes op.hash++(toBytes 4 op.index.toNat).reverse)

def encodeRelease (deposit : OutPoint) : List UInt8 := encodeOutPointTag .release deposit

def encodeCancel (deposit : OutPoint) : List UInt8 := encodeOutPointTag .cancel deposit

def encodeRefund (deposit : OutPoint) : List UInt8 := encodeOutPointTag .refund deposit

def encodeFence (anchor : OutPoint) : List UInt8 := encodeOutPointTag .fence anchor

def encodePayment (request : Hash) : List UInt8 := Tag.payment.bytes++hashBytes request

def parseOutPointTag (tx : MsgTx) (want : Tag) : Option OutPoint :=
  match opReturnData tx with
  | some (tag,payload) =>
    if tag = want.bytes ∧ payload.length = 36 then
      some ⟨BitVec.ofNat 256 (ofBytes (payload.take 32)),UInt32.ofNat (ofBytes (payload.drop 32).reverse)⟩
    else none
  | none => none

def parseRelease (tx : MsgTx) : Option OutPoint := parseOutPointTag tx .release

def parseCancel (tx : MsgTx) : Option OutPoint := parseOutPointTag tx .cancel

def parseRefund (tx : MsgTx) : Option OutPoint := parseOutPointTag tx .refund

def parseFence (tx : MsgTx) : Option OutPoint := parseOutPointTag tx .fence

def parsePayment (tx : MsgTx) : Option Hash :=
  match opReturnData tx with
  | some (tag,payload) =>
    if tag = Tag.payment.bytes ∧ payload.length = 32 then
      some (BitVec.ofNat 256 (ofBytes payload))
    else none
  | none => none

def isContribution (tx : MsgTx) : Bool :=
  match opReturnData tx with
  | some (tag,payload) => tag = Tag.contrib.bytes ∧ payload = []
  | none => false

def decodeDestination : List UInt8 → Option Destination
  | [] => none
  | kind::hash =>
    if hash.length ≠ 20 then none
    else if kind = 0 then some ⟨.p2pkh,BitVec.ofNat 160 (ofBytes hash)⟩
    else if kind = 1 then some ⟨.p2sh,BitVec.ofNat 160 (ofBytes hash)⟩
    else none

def parseDestinationTag (tx : MsgTx) (want : Tag) : Option Destination :=
  match opReturnData tx with
  | some (tag,payload) => if tag = want.bytes then decodeDestination payload else none
  | none => none

/-! ## Tags depend on the outputs alone -/

theorem opReturnData_congr {t u : MsgTx} (h : t.txOut=u.txOut) : opReturnData t = opReturnData u := by
  simp only [opReturnData,h]

theorem parseOutPointTag_tag {a b : Tag} {x y : OutPoint}
    (ha : parseOutPointTag tx a=some x) (hb : parseOutPointTag tx b=some y) : a.bytes = b.bytes := by
  unfold parseOutPointTag at ha hb
  cases hdata : opReturnData tx with
  | none => simp [hdata] at ha
  | some p =>
    rw [hdata] at ha hb
    dsimp only at ha hb
    split at ha
    · next htag =>
      split at hb
      · next htag' => exact htag.1.symm.trans htag'.1
      · cases hb
    · cases ha

theorem parsePayment_of_outPointTag {a : Tag} {x : OutPoint}
    (ha : parseOutPointTag tx a=some x) : parsePayment tx = none := by
  unfold parseOutPointTag at ha
  unfold parsePayment
  cases hdata : opReturnData tx with
  | none => rfl
  | some p =>
    rw [hdata] at ha
    dsimp only at ha ⊢
    split at ha
    · next htag => exact if_neg fun h => by omega
    · cases ha

/-! ## Reading back what the encoders wrote -/

/-- The transaction's only data output is its last, and holds `data`. -/
structure Carries (tx : MsgTx) (data : List UInt8) : Prop where
  others : ∃ outs, tx.txOut = outs++[nullData data] ∧
    ∀ out∈outs, isNullDataScript out.pkScript = false
  four_le : 4 ≤ data.length
  lt_push : data.length < 0x4c

theorem opReturnData_nullData
    (h : (tx.txOut.filter fun out => isNullDataScript out.pkScript) = [nullData data]) (h4 : 4≤data.length)
    (hlt : data.length<0x4c) : opReturnData tx = some (data.take 4,data.drop 4) := by
  have hnot : ¬ data.length < 4 := by omega
  simp [opReturnData,h,nullData,pushedData_nullDataScript (by omega) hlt,hnot]

theorem Carries.filter_eq (h : Carries tx data) :
    (tx.txOut.filter fun out => isNullDataScript out.pkScript) = [nullData data] := by
  obtain ⟨outs,houts,hothers⟩ := h.others
  have h2 : 2 ≤ data.length := by have := h.four_le; omega
  have hnone : (outs.filter fun out => isNullDataScript out.pkScript) = [] := by
    simpa [filter_eq_nil_iff] using hothers
  simp [houts,hnone,nullData,isNullDataScript_nullDataScript h2 h.lt_push]

theorem Carries.opReturnData (h : Carries tx data) : opReturnData tx = some (data.take 4,data.drop 4) :=
  opReturnData_nullData h.filter_eq h.four_le h.lt_push

theorem Carries.congr {t u : MsgTx} (h : Carries t data) (hout : u.txOut=t.txOut) : Carries u data :=
  ⟨by rw [hout]; exact h.others, h.four_le, h.lt_push⟩

@[simp] theorem length_encodeOutPointTag (tag : Tag) (op : OutPoint) : (encodeOutPointTag tag op).length = 40 := by
  simp [encodeOutPointTag,hashBytes]

@[simp] theorem length_encodePayment (request : Hash) : (encodePayment request).length = 36 := by
  simp [encodePayment,hashBytes]

theorem ofBytes_hashBytes (h : Hash) : ofBytes (hashBytes h) = h.toNat := by
  rw [hashBytes,ofBytes_toBytes,show 256^32 = 2^256 by norm_num, Nat.mod_eq_of_lt h.isLt]

theorem ofBytes_index (i : UInt32) : ofBytes (toBytes 4 i.toNat) = i.toNat := by
  rw [ofBytes_toBytes,show 256^4 = 2^32 by norm_num, Nat.mod_eq_of_lt i.toNat_lt]

theorem Carries.parseOutPointTag {tag : Tag} {op : OutPoint}
    (h : Carries tx (encodeOutPointTag tag op)) (want : Tag) :
    parseOutPointTag tx want = if tag = want then some op else none := by
  have htake : (encodeOutPointTag tag op).take 4 = tag.bytes := by
    rw [encodeOutPointTag,take_left' (Tag.length_bytes tag)]
  have hdrop : (encodeOutPointTag tag op).drop 4 = hashBytes op.hash++(toBytes 4 op.index.toNat).reverse := by
    rw [encodeOutPointTag,drop_left' (Tag.length_bytes tag)]
  have hlen : (hashBytes op.hash).length = 32 := length_toBytes _ _
  simp only [DogePeg.parseOutPointTag,h.opReturnData,htake,hdrop,Tag.bytes_inj,
    take_left' hlen,drop_left' hlen,reverse_reverse,ofBytes_hashBytes,
    ofBytes_index,length_append,hlen,length_reverse,length_toBytes,and_true]
  simp

theorem Carries.parsePayment_outPointTag {tag : Tag} {op : OutPoint}
    (h : Carries tx (encodeOutPointTag tag op)) : parsePayment tx = none := by
  have hdrop : ((encodeOutPointTag tag op).drop 4).length = 36 := by simp
  simp [parsePayment,h.opReturnData,hdrop]

theorem Carries.parsePayment {request : Hash}
    (h : Carries tx (encodePayment request)) : parsePayment tx = some request := by
  have htake : (encodePayment request).take 4 = Tag.payment.bytes := by
    rw [encodePayment,take_left' (Tag.length_bytes _)]
  have hdrop : (encodePayment request).drop 4 = hashBytes request := by
    rw [encodePayment,drop_left' (Tag.length_bytes _)]
  have hlen : (hashBytes request).length = 32 := length_toBytes _ _
  simp [DogePeg.parsePayment,h.opReturnData,htake,hdrop,hlen,ofBytes_hashBytes]

theorem Carries.parseOutPointTag_payment {request : Hash} (h : Carries tx (encodePayment request)) (want : Tag) :
    DogePeg.parseOutPointTag tx want = none := by
  have hdrop : ((encodePayment request).drop 4).length = 32 := by simp
  simp [DogePeg.parseOutPointTag,h.opReturnData,hdrop]

end DogePeg
