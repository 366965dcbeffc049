import DogePeg.Signer.Cutover
import DogePeg.Web.Payment

/-!
# One meaning per transaction

The eight parsers of `cmd/dogevm/tags.go` and `cutover.go` against the encoders, the transactions
the bridge builds, and the tag the wallet page writes.
-/

namespace DogePeg

open Bytes Checks List

/-- What a transaction can tell the bridge. -/
inductive Message where
  | deposit (dest : Destination)
  | release (deposit : OutPoint)
  | pegOut (dest : Destination)
  | payment (request : Hash)
  | refund (deposit : OutPoint)
  | contrib
  | cancel (deposit : OutPoint)
  | fence (anchor : OutPoint)
  deriving DecidableEq

def encodeDestination (tag : Tag) (d : Destination) : List UInt8 :=
  tag.bytes++d.kind.code::toBytes 20 d.hash.toNat

/-- `pegOutData` of the wallet page. -/
def Web.pegOutData (dogeDest : Destination) : List UInt8 :=
  [0x44,0x56,0x4d,0x4f]++[dogeDest.kind.code]++toBytes 20 dogeDest.hash.toNat

namespace Message

def tag : Message → Tag
  | deposit _ => .deposit
  | release _ => .release
  | pegOut _ => .pegOut
  | payment _ => .payment
  | refund _ => .refund
  | contrib => .contrib
  | cancel _ => .cancel
  | fence _ => .fence

def encode : Message → List UInt8
  | deposit d => encodeDestination .deposit d
  | release op => encodeRelease op
  | pegOut d => encodeDestination .pegOut d
  | payment request => encodePayment request
  | refund op => encodeRefund op
  | contrib => Tag.contrib.bytes
  | cancel op => encodeCancel op
  | fence op => encodeFence op

/-- What each of the eight parsers makes of a transaction. -/
def parse (tx : MsgTx) : Tag → Option Message
  | .deposit => (parseDestinationTag tx .deposit).map deposit
  | .release => (parseRelease tx).map release
  | .pegOut => (parseDestinationTag tx .pegOut).map pegOut
  | .payment => (parsePayment tx).map payment
  | .refund => (parseRefund tx).map refund
  | .contrib => if isContribution tx then some contrib else none
  | .cancel => (parseCancel tx).map cancel
  | .fence => (parseFence tx).map fence

/-- What follows the tag. -/
def payload (m : Message) : List UInt8 := m.encode.drop 4

variable {tx : MsgTx} {t : Tag}

theorem parse_of_none (h : opReturnData tx=none) : parse tx t = none := by
  cases t <;> simp [parse,parseRelease,parseRefund,parseCancel,parseFence,parseOutPointTag,parseDestinationTag,
    parsePayment,isContribution,h]

theorem parse_of_ne {tag data : List UInt8} (h : opReturnData tx=some (tag,data)) (hne : tag≠t.bytes) :
    parse tx t = none := by
  cases t <;> simp [parse,parseRelease,parseRefund,parseCancel,parseFence,parseOutPointTag,parseDestinationTag,
    parsePayment,isContribution,h,hne]

theorem tag_of_parse (h : parse tx t≠none) : ∃ data, opReturnData tx = some (t.bytes,data) := by
  cases hdata : opReturnData tx with
  | none => exact absurd (parse_of_none hdata) h
  | some p =>
    by_cases heq : p.1 = t.bytes
    · exact ⟨p.2,by rw [← heq]⟩
    · exact absurd (parse_of_ne hdata heq) h

theorem take_encode (m : Message) : m.encode.take 4 = m.tag.bytes := by cases m <;> rfl

theorem length_encode (m : Message) : 4 ≤ m.encode.length ∧ m.encode.length < 0x4c := by
  cases m <;> simp [encode,encodeDestination,encodeRelease,encodeRefund,encodeCancel,encodeFence]

theorem decodeDestination_encode (d : Destination) :
    decodeDestination (d.kind.code::toBytes 20 d.hash.toNat) = some d := by
  have hhash : ofBytes (toBytes 20 d.hash.toNat) = d.hash.toNat := by
    rw [ofBytes_toBytes,show 256^20 = 2^160 by norm_num, Nat.mod_eq_of_lt d.hash.isLt]
  obtain ⟨kind,hash⟩ := d
  cases kind <;> simp [decodeDestination,DestKind.code,hhash]

theorem parse_encode {m : Message} (h : opReturnData tx=some (m.tag.bytes,m.payload)) :
    parse tx m.tag = some m := by
  have hpoint (tag : Tag) (op : OutPoint) (hdata : opReturnData tx=some (tag.bytes,(encodeOutPointTag tag op).drop 4)) :
      parseOutPointTag tx tag = some op := by
    have hlen : (hashBytes op.hash).length = 32 := length_toBytes _ _
    rw [encodeOutPointTag,drop_left' (Tag.length_bytes tag)] at hdata
    simp [parseOutPointTag,hdata,hlen,take_left' hlen,drop_left' hlen,ofBytes_hashBytes,ofBytes_index]
  have hdest (tag : Tag) (d : Destination) (hdata : opReturnData tx=some (tag.bytes,(encodeDestination tag d).drop 4)) :
      parseDestinationTag tx tag = some d := by
    rw [encodeDestination,drop_left' (Tag.length_bytes tag)] at hdata
    simp [parseDestinationTag,hdata,decodeDestination_encode]
  cases m with
  | deposit d => exact congrArg (Option.map deposit) (hdest _ _ h)
  | release op => exact congrArg (Option.map release) (hpoint _ _ h)
  | pegOut d => exact congrArg (Option.map pegOut) (hdest _ _ h)
  | payment request =>
    have hlen : (hashBytes request).length = 32 := length_toBytes _ _
    have hdata : opReturnData tx = some (Tag.payment.bytes,hashBytes request) := h
    simp [parse,tag,parsePayment,hdata,hlen,ofBytes_hashBytes]
  | refund op => exact congrArg (Option.map refund) (hpoint _ _ h)
  | contrib =>
    have hdata : opReturnData tx = some (Tag.contrib.bytes,[]) := h
    simp [parse,tag,isContribution,hdata]
  | cancel op => exact congrArg (Option.map cancel) (hpoint _ _ h)
  | fence op => exact congrArg (Option.map fence) (hpoint _ _ h)

/-- A transaction whose one data output an encoder wrote says that, and nothing else. -/
theorem parse_of_data {m : Message}
    (h : (tx.txOut.filter fun out => isNullDataScript out.pkScript) = [nullData m.encode]) (t : Tag) :
    parse tx t = if t = m.tag then some m else none := by
  have hdata := opReturnData_nullData h m.length_encode.1 m.length_encode.2
  rw [take_encode] at hdata
  split
  · next heq => exact heq ▸ parse_encode hdata
  · next hne => exact parse_of_ne hdata fun heq => hne (Tag.bytes_inj.mp heq).symm

end Message

open Message

theorem Bridge.buildFence_carries [Hashing] {b : Bridge} {chain : ChainName} {inputs : List Utxo} {fee : Int64}
    {tx : MsgTx} (h : b.buildFence chain inputs fee = .ok tx) : ∃ first∈inputs.head?,
      Carries tx (encodeFence first.outPoint) := by
  unfold Bridge.buildFence at h
  split at h
  · cases h
  · next first rest =>
    simp only [checks_ok] at h
    exact ⟨first,rfl,h.2 ▸ newTx_carries b.isNullDataScript_script (by simp) (by simp [encodeFence])
      (by simp [encodeFence])⟩

/-- Each transaction has at most one meaning, none with two data outputs, and the one that was
encoded; what the bridge builds means its own action, and the page's tag a peg-out. -/
theorem messages_unambiguous [Hashing] (tx : MsgTx) (b : Bridge) (inputs : List Utxo) :
    (∀ s t, parse tx s ≠ none → parse tx t ≠ none → s = t) ∧
    (2 ≤ (tx.txOut.filter fun out => isNullDataScript out.pkScript).length → ∀ t, parse tx t = none) ∧
    (∀ m : Message, (tx.txOut.filter fun out => isNullDataScript out.pkScript) = [nullData m.encode] →
      ∀ t, parse tx t = if t = m.tag then some m else none) ∧
    (∀ d t, parse (b.buildRelease inputs d) t = if t = .release then some (release d.outPoint) else none) ∧
    (∀ value dest request fee, b.buildPayout inputs value dest (encodePayment request) fee = .ok tx →
      ∀ t, parse tx t = if t = .payment then some (payment request) else none) ∧
    (∀ value dest op fee, b.buildPayout inputs value dest (encodeRefund op) fee = .ok tx →
      ∀ t, parse tx t = if t = .refund then some (refund op) else none) ∧
    (∀ op, b.buildCancel inputs op = .ok tx → ∀ t, parse tx t = if t = .cancel then some (cancel op) else none) ∧
    (∀ chain fee, b.buildFence chain inputs fee = .ok tx → ∃ first∈inputs.head?,
      ∀ t, parse tx t = if t = .fence then some (fence first.outPoint) else none) ∧
    ∀ dest, ∃ out, Web.opReturn (Web.pegOutData dest) = .ok out ∧
      ((tx.txOut.filter fun out => isNullDataScript out.pkScript) = [⟨0,out.script⟩] →
        ∀ t, parse tx t = if t = .pegOut then some (pegOut dest) else none) := by
  refine ⟨fun s t hs ht => ?_, fun htwo t => ?_, fun m h => parse_of_data h, fun d => ?_,
    fun value dest request fee h => ?_,
    fun value dest op fee h => ?_, fun op h => ?_, fun chain fee h => ?_, fun dest => ?_⟩
  · obtain ⟨data,hdata⟩ := tag_of_parse hs
    obtain ⟨data',hdata'⟩ := tag_of_parse ht
    rw [hdata,Option.some.injEq,Prod.mk.injEq] at hdata'
    exact Tag.bytes_inj.mp hdata'.1
  · refine parse_of_none ?_
    unfold opReturnData
    split
    · next heq => simp [heq] at htwo
    · rfl
  · exact parse_of_data (m := .release d.outPoint) (b.buildRelease_carries inputs d).filter_eq
  · exact parse_of_data (m := .payment request) (b.buildPayout_carries h (by simp) (by simp)).filter_eq
  · exact parse_of_data (m := .refund op)
      (b.buildPayout_carries h (by simp [encodeRefund]) (by simp [encodeRefund])).filter_eq
  · exact parse_of_data (m := .cancel op) (b.buildCancel_carries h).filter_eq
  · obtain ⟨first,hfirst,hcarries⟩ := Bridge.buildFence_carries h
    exact ⟨first,hfirst,parse_of_data (m := .fence first.outPoint) hcarries.filter_eq⟩
  · have hlen : (Web.pegOutData dest).length = 25 := by simp [Web.pegOutData]
    refine ⟨⟨0,0x6a::25::Web.pegOutData dest⟩,?_,fun h => parse_of_data (m := .pegOut dest) h⟩
    simp [Web.opReturn,Web.pushData,hlen]

end DogePeg
